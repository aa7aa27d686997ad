import AppliedCs.Columnar.Theorems.Storage
import AppliedCs.Lib.Stream

open Codec Fallible

namespace Columnar

open TableScanner List

abbrev Row := List Value

variable (chunk : DataChunk)

def DataChunk.rows : Except Error (List Row) :=
  (List.range chunk.len).mapM fun i => chunk.vectors.mapM fun v : Vector => v.get i

def DataChunk.project (columns : List ℕ) : DataChunk :=
  { chunk with vectors := columns.filterMap (chunk.vectors[·]?) }

-- All batches of a scan are taken, and these are their rows.
def TableScanner.Scans [LossyUtf8] (s : TableScanner) (rows : List Row) : Prop :=
  ∃ batches final, Drains next s batches final ∧
    (batches.mapM DataChunk.rows).map flatten = .ok rows

section Rows

variable {columns : List (List Value)} {offset : ℕ}

def rowOf (columns : List (List Value)) (i : ℕ) : Row :=
  columns.map (·.getD i .null)

def rowsOf (columns : List (List Value)) (n : ℕ) : List Row :=
  (List.range n).map (rowOf columns)

theorem length_rowsOf : (rowsOf columns n).length = n := by
  rw [rowsOf, length_map, length_range]

theorem rowOf_slice (h : i < len) :
    rowOf (columns.map fun vs => (vs.drop offset).take len) i = rowOf columns (offset + i) := by
  rw [rowOf, map_map]
  refine map_congr_left fun vs _ => ?_
  simp [getD_eq_getElem?_getD, getElem?_take_of_lt h]

theorem rowsOf_slice (h : offset + len ≤ n) :
    rowsOf (columns.map fun vs => (vs.drop offset).take len) len =
      ((rowsOf columns n).drop offset).take len := by
  refine List.ext_getElem (by simp [rowsOf]; omega) fun i hi _ => ?_
  rw [length_rowsOf] at hi
  simp [rowsOf, rowOf_slice hi]

theorem eq_of_rowsOf_eq (hl : columns.length = columns'.length)
    (hn : ∀ vs ∈ columns, vs.length = n) (hn' : ∀ vs ∈ columns', vs.length = n)
    (h : rowsOf columns n = rowsOf columns' n) : columns = columns' := by
  refine ext_getElem hl fun j hj hj' => ?_
  have hlen := hn _ (getElem_mem hj)
  have hlen' := hn' _ (getElem_mem hj')
  refine ext_getElem (hlen.trans hlen'.symm) fun i hi hi' => ?_
  have hrow : rowOf columns i = rowOf columns' i :=
    List.map_inj_left.mp h i (List.mem_range.mpr (hlen ▸ hi))
  have hcell := congrArg (·[j]?) hrow
  simpa [rowOf, hj, hj', hi, hi'] using hcell

variable (h : Forall₂ Vector.Holds vectors columns)

include h

theorem mapM_get (hi : ∀ vs ∈ columns, i < vs.length) :
    (vectors.mapM fun v : Vector => v.get i) = .ok (rowOf columns i) := by
  rw [mapM_eq_ok_iff]
  induction h
  case nil => exact .nil
  case cons hv _ hr =>
    have ⟨hc, hcs⟩ := forall_mem_cons.mp hi
    refine .cons ?_ (hr hcs)
    simp [hv.get hc, hc]

theorem rows_eq (hn : ∀ vs ∈ columns, n ≤ vs.length) :
    DataChunk.rows ⟨vectors, n⟩ = .ok (rowsOf columns n) := by
  rw [DataChunk.rows, mapM_eq_ok_iff, rowsOf, forall₂_map_right_iff, forall₂_same]
  intro i hi
  exact mapM_get h fun vs hvs => (mem_range.mp hi).trans_le (hn vs hvs)

theorem exists_slice (hl : ∀ vs ∈ columns, offset + len ≤ vs.length) :
    ∃ vectors', (vectors.mapM fun v : Vector => v.slice offset len) = .ok vectors' ∧
      Forall₂ Vector.Holds vectors' (columns.map fun vs => (vs.drop offset).take len) := by
  induction h
  case nil => exact ⟨[], rfl, .nil⟩
  case cons hv _ hr =>
    have ⟨hc, hcs⟩ := forall_mem_cons.mp hl
    obtain ⟨v', hs, hv'⟩ := hv.slice hc
    obtain ⟨vectors', hm, hh⟩ := hr hcs
    exact ⟨v' :: vectors', mapM_cons_eq_ok_iff.mpr ⟨_, _, hs, hm, rfl⟩, .cons hv' hh⟩

theorem le_of_slices (hs : (vectors.mapM fun v : Vector => v.slice offset len) = .ok vectors') :
    ∀ vs ∈ columns, offset + len ≤ vs.length := by
  induction h generalizing vectors'
  case nil => exact fun _ hvs => nomatch hvs
  case cons hv _ hr =>
    obtain ⟨v', rest, hs₁, hs₂, rfl⟩ := mapM_cons_eq_ok_iff.mp hs
    exact forall_mem_cons.mpr ⟨hv.le_of_slice hs₁, hr hs₂⟩

end Rows

namespace TableScanner

variable [LossyUtf8] {s s' : TableScanner} {group : RowGroup} {rest : List RowGroup}
  {columns : List ℕ} {offset : ℕ}

theorem scans_of_done (h : s.next = .ok none) : s.Scans rows ↔ rows = [] := by
  constructor
  · rintro ⟨batches, final, hd, hr⟩
    cases hd
    case done => exact (Except.ok.inj hr).symm
    case more hn hd => cases h.symm.trans hn
  · rintro rfl
    exact ⟨[], s, .done h, rfl⟩

theorem not_scans_of_error (h : s.next = .error e) : ¬ s.Scans rows := by
  rintro ⟨batches, final, hd, hr⟩
  cases hd
  case done hn | more hn hd => cases h.symm.trans hn

theorem scans_of_more (h : s.next = .ok (some (batch, s'))) :
    s.Scans rows ↔ ∃ rows₁ rows₂, batch.rows = .ok rows₁ ∧ s'.Scans rows₂ ∧
      rows = rows₁ ++ rows₂ := by
  constructor
  · rintro ⟨batches, final, hd, hr⟩
    cases hd
    case done hn => cases h.symm.trans hn
    case more hn hd =>
      cases h.symm.trans hn
      obtain ⟨lists, hl, hf⟩ := map_eq_ok_iff.mp hr
      obtain ⟨rows₁, lists, hb, hbs, rfl⟩ := mapM_cons_eq_ok_iff.mp hl
      exact ⟨rows₁, lists.flatten, hb, ⟨_, final, hd, map_eq_ok_iff.mpr ⟨_, hbs, rfl⟩⟩, hf.symm⟩
  · rintro ⟨rows₁, rows₂, hb, ⟨batches, final, hd, hr⟩, rfl⟩
    obtain ⟨lists, hl, rfl⟩ := map_eq_ok_iff.mp hr
    exact ⟨batch :: batches, final, .more h hd,
      map_eq_ok_iff.mpr ⟨rows₁ :: lists, mapM_cons_eq_ok_iff.mpr ⟨_, _, hb, hl, rfl⟩, rfl⟩⟩

theorem scans_congr (h : s.next = s'.next) : s.Scans rows ↔ s'.Scans rows := by
  cases hn : s'.next
  case error e => simp [not_scans_of_error hn, not_scans_of_error (h.trans hn)]
  case ok r =>
    cases r
    case none => rw [scans_of_done hn, scans_of_done (h.trans hn)]
    case some p => rw [scans_of_more hn, scans_of_more (h.trans hn)]

theorem scans_nil : Scans ⟨[], columns, offset⟩ rows ↔ rows = [] :=
  scans_of_done rfl

theorem next_of_le (h : group.numRows ≤ offset) :
    next ⟨group :: rest, columns, offset⟩ = next ⟨rest, columns, 0⟩ :=
  if_pos (Nat.sub_eq_zero_of_le h)

variable (group rest columns offset) in
theorem next_of_lt (h : offset < group.numRows) : next ⟨group :: rest, columns, offset⟩ = (do
    let len := min (group.numRows - offset) vectorSize
    let chunk ← group.read columns
    let result ← chunk.slice offset len
    return some (result, ⟨group :: rest, columns, offset + len⟩)) :=
  if_neg (Nat.sub_ne_zero_of_lt h)

-- The rows of a group come batch by batch, in front of the rows of the groups behind it. The
-- induction is on the rows that are left.
theorem scans_group {chunk : DataChunk} (hread : group.read columns = .ok chunk)
    (hv : Forall₂ Vector.Holds chunk.vectors values) :
    Scans ⟨group :: rest, columns, offset⟩ rows ↔
      (offset < group.numRows → ∀ vs ∈ values, group.numRows ≤ vs.length) ∧
      ∃ rows', rows = (rowsOf values group.numRows).drop offset ++ rows' ∧
        Scans ⟨rest, columns, 0⟩ rows' := by
  induction hk : group.numRows - offset using Nat.strong_induction_on generalizing offset rows
  case h k hi =>
    by_cases hlt : offset < group.numRows
    case neg =>
      have hle := Nat.not_lt.mp hlt
      have hd : (rowsOf values group.numRows).drop offset = [] :=
        drop_of_length_le (length_rowsOf.trans_le hle)
      rw [scans_congr (next_of_le hle), hd]
      simp [hlt]
    generalize hlen : min (group.numRows - offset) vectorSize = len
    have hpos : 0 < len := by
      rw [← hlen]
      exact Nat.lt_min.mpr ⟨Nat.sub_pos_of_lt hlt, by decide⟩
    have hle : offset + len ≤ group.numRows := by
      omega
    have hnext := next_of_lt group rest columns offset hlt
    rw [hread, hlen] at hnext
    by_cases hall : ∀ vs ∈ values, offset + len ≤ vs.length
    case neg =>
      refine iff_of_false ?_ fun h => hall fun vs hvs => hle.trans (h.1 hlt vs hvs)
      cases hs : chunk.slice offset len
      case error e =>
        refine not_scans_of_error (e := e) (hnext.trans ?_)
        simp [bind, Except.bind, hs]
      case ok result =>
        obtain ⟨vectors', hm, -⟩ := map_eq_ok_iff.mp hs
        exact absurd (le_of_slices hv hm) hall
    obtain ⟨vectors', hm, hv'⟩ := exists_slice hv hall
    have hs : chunk.slice offset len = .ok ⟨vectors', len⟩ := map_eq_ok_iff.mpr ⟨_, hm, rfl⟩
    have hrows : DataChunk.rows ⟨vectors', len⟩ =
        .ok (((rowsOf values group.numRows).drop offset).take len) := by
      rw [← rowsOf_slice hle]
      refine rows_eq hv' fun vs hvs => ?_
      obtain ⟨vs, hm, rfl⟩ := mem_map.mp hvs
      have := hall vs hm
      rw [length_take, length_drop]
      omega
    have hmore : next ⟨group :: rest, columns, offset⟩ =
        .ok (some (⟨vectors', len⟩, ⟨group :: rest, columns, offset + len⟩)) := by
      simp only [hnext, bind, Except.bind, hs]
      rfl
    have hsplit : ((rowsOf values group.numRows).drop offset).take len ++
        (rowsOf values group.numRows).drop (offset + len) =
          (rowsOf values group.numRows).drop offset := by
      rw [← drop_drop, take_append_drop]
    have hrest : ∀ rows₂, Scans ⟨group :: rest, columns, offset + len⟩ rows₂ ↔
        (offset + len < group.numRows → ∀ vs ∈ values, group.numRows ≤ vs.length) ∧
        ∃ rows', rows₂ = (rowsOf values group.numRows).drop (offset + len) ++ rows' ∧
          Scans ⟨rest, columns, 0⟩ rows' :=
      fun rows₂ => hi _ (by omega) rfl
    rw [scans_of_more hmore, hrows]
    constructor
    · rintro ⟨rows₁, rows₂, he, hs₂, rfl⟩
      cases he
      obtain ⟨hl, rows', rfl, hr⟩ := (hrest _).mp hs₂
      refine ⟨fun _ vs hvs => ?_, rows', by rw [← append_assoc, hsplit], hr⟩
      by_cases hmore : offset + len < group.numRows
      case pos => exact hl hmore vs hvs
      case neg => exact (Nat.not_lt.mp hmore).trans (hall vs hvs)
    · rintro ⟨hl, rows', rfl, hr⟩
      refine ⟨_, _, rfl, (hrest _).mpr ⟨fun _ => hl hlt, rows', rfl, hr⟩, ?_⟩
      rw [← append_assoc, hsplit]

theorem not_scans_group (hread : group.read columns = .error e) (h : 0 < group.numRows) :
    ¬ Scans ⟨group :: rest, columns, 0⟩ rows := by
  refine not_scans_of_error (e := e) ((next_of_lt group rest columns 0 h).trans ?_)
  simp [bind, Except.bind, hread]

end TableScanner

theorem faithful_of_len_eq_zero (h : v.Holds vs) (hl : v.len = 0) : Faithful v := by
  obtain ⟨_, _, k, cells, rfl, rfl⟩ := h
  obtain rfl := eq_nil_of_length_eq_zero hl
  exact ⟨(by decide : 0 < UInt32.size), fun _ _ => ⟨.nil, by simp [Kind.vector]⟩⟩

theorem values_unique (h : Forall₂ Vector.Holds vectors values)
    (h' : Forall₂ Vector.Holds vectors values') : values = values' :=
  right_unique_forall₂' (fun _ _ _ hv hv' => hv.unique hv') h h'

theorem exists_of_mem {α β : Type} {R : α → β → Prop} {as : List α} {bs : List β}
    (h : Forall₂ R as bs) : ∀ a ∈ as, ∃ b ∈ bs, R a b := by
  intro a ha
  induction h
  case nil => cases ha
  case cons hr _ hi =>
    cases ha
    case head => exact ⟨_, mem_cons_self, hr⟩
    case tail ha => exact (hi ha).imp fun _ h => ⟨.tail _ h.1, h.2⟩

section Decode

variable [LossyUtf8]

theorem decode_of_faithful (h : Forall₂ ReadsBack vectors encoded)
    (hf : ∀ v ∈ vectors, Faithful v) : encoded.mapM decodeColumn = .ok vectors := by
  rw [mapM_eq_ok_iff]
  induction h
  case nil => exact .nil
  case cons hv _ hi =>
    have ⟨hc, hcs⟩ := forall_mem_cons.mp hf
    exact .cons (hv.eq_of_faithful hc) (hi hcs)

-- Columns that are read are not longer, and if their values are right, nothing was lost.
theorem holds_of_decode (h : Forall₂ ReadsBack vectors encoded)
    (hv : Forall₂ Vector.Holds vectors values) (hl : ∀ v ∈ vectors, v.len = n)
    (hd : encoded.mapM decodeColumn = .ok decoded) : ∃ values',
      Forall₂ Vector.Holds decoded values' ∧ values'.length = values.length ∧
      (∀ vs ∈ values', vs.length ≤ n) ∧ (values' = values → ∀ v ∈ vectors, Faithful v) := by
  induction h generalizing values decoded
  case nil =>
    cases hd
    cases hv
    exact ⟨[], .nil, rfl, by simp, by simp⟩
  case cons hb _ hi =>
    obtain ⟨w, rest, hw, hrest, rfl⟩ := mapM_cons_eq_ok_iff.mp hd
    obtain ⟨vs, values, hvs, hvals, rfl⟩ := forall₂_cons_left_iff.mp hv
    have ⟨hc, hcs⟩ := forall_mem_cons.mp hl
    obtain ⟨vs', hvs', hle, hfaith⟩ := hb.holds hw
    obtain ⟨values', hvals', hlen, hles, hfaiths⟩ := hi hvals hcs hrest
    refine ⟨vs' :: values', .cons hvs' hvals', by simp [hlen],
      forall_mem_cons.mpr ⟨hc ▸ hle, hles⟩, fun he => ?_⟩
    obtain ⟨rfl, rfl⟩ := cons.inj he
    exact forall_mem_cons.mpr ⟨hfaith hvs, hfaiths rfl⟩

end Decode

-- The vectors are built by pushes and have one length.
def DataChunk.WellFormed : Prop :=
  ∀ v ∈ chunk.vectors, Built v ∧ v.len = chunk.len

namespace Table

section Inserted

variable [Json]

def insertAll (t : Table) (chunks : List DataChunk) : Table :=
  chunks.foldl (fun t chunk => (t.insert chunk).2) t

-- The chunks whose insertion does not fail.
def inserted (t : Table) : List DataChunk → List DataChunk
  | [] => []
  | chunk :: chunks =>
    match t.insert chunk with
    | (.ok (), t') => chunk :: inserted t' chunks
    | (.error _, t') => inserted t' chunks

theorem insert_cases (t : Table) (chunk : DataChunk) :
    (∃ e, t.insert chunk = (.error e, t)) ∨ ∃ group, buildRowGroup chunk = .ok group ∧
      chunk.vectors.length = t.numColumns ∧
      t.insert chunk = (.ok (), { t with rowGroups := t.rowGroups ++ [group] }) := by
  rw [insert]
  split_ifs with hn
  · exact .inl ⟨_, rfl⟩
  · cases hb : buildRowGroup chunk
    case error e => exact .inl ⟨e, rfl⟩
    case ok group => exact .inr ⟨group, rfl, not_not.mp hn, rfl⟩

theorem exists_rowGroups (t : Table) (chunks : List DataChunk) : ∃ groups,
    (t.insertAll chunks).rowGroups = t.rowGroups ++ groups ∧
    Forall₂ (fun chunk group => buildRowGroup chunk = .ok group) (t.inserted chunks) groups ∧
    ∀ chunk ∈ t.inserted chunks, chunk ∈ chunks ∧ chunk.vectors.length = t.numColumns := by
  induction chunks generalizing t
  case nil => exact ⟨[], (append_nil _).symm, .nil, fun _ h => nomatch h⟩
  case cons chunk chunks hi =>
    rw [insertAll, foldl_cons, inserted]
    obtain ⟨e, h⟩ | ⟨group, hb, hn, h⟩ := t.insert_cases chunk
    case inl =>
      rw [h]
      obtain ⟨groups, hg, hf, hm⟩ := hi t
      exact ⟨groups, hg, hf, fun c hc => ⟨.tail _ (hm c hc).1, (hm c hc).2⟩⟩
    case inr =>
      rw [h]
      obtain ⟨groups, hg, hf, hm⟩ := hi { t with rowGroups := t.rowGroups ++ [group] }
      refine ⟨group :: groups, by rw [← insertAll, hg, append_assoc]; rfl, .cons hb hf, ?_⟩
      exact forall_mem_cons.mpr
        ⟨⟨mem_cons_self, hn⟩, fun c hc => ⟨.tail _ (hm c hc).1, (hm c hc).2⟩⟩

variable [LossyUtf8] {chunk : DataChunk} {columns : List ℕ}

-- The columns of a projection, with what was stored for each of them.
theorem exists_columns (hw : chunk.WellFormed) (hb : buildRowGroup chunk = .ok group)
    (hc : ∀ i ∈ columns, i < chunk.vectors.length) : ∃ encoded values,
      columns.mapM group.readColumn = encoded.mapM decodeColumn ∧
      Forall₂ ReadsBack (chunk.project columns).vectors encoded ∧
      Forall₂ Vector.Holds (chunk.project columns).vectors values := by
  obtain ⟨cs, hcs, rfl⟩ := map_eq_ok_iff.mp hb
  rw [mapM_eq_ok_iff] at hcs
  induction columns
  case nil => exact ⟨[], [], rfl, .nil, .nil⟩
  case cons i columns hi =>
    have ⟨hlt, hlts⟩ := forall_mem_cons.mp hc
    obtain ⟨encoded, values, hm, hr, hh⟩ := hi hlts
    have hlt' : i < cs.length := hcs.length_eq ▸ hlt
    have hchunk : encodeColumn chunk.vectors[i] = .ok cs[i] := hcs.get hlt hlt'
    obtain ⟨c, vs, hvs, hcv, hback⟩ := (hw _ (getElem_mem hlt)).1.exists_readsBack
    obtain rfl := Except.ok.inj (hcv.symm.trans hchunk)
    have hp : (chunk.project (i :: columns)).vectors =
        chunk.vectors[i] :: (chunk.project columns).vectors := by
      rw [DataChunk.project, filterMap_cons_some (getElem?_eq_getElem hlt)]
      rfl
    have hread : RowGroup.readColumn ⟨chunk.len, cs⟩ i = decodeColumn cs[i] := by
      rw [RowGroup.readColumn, getElem?_eq_getElem hlt']
    rw [hp]
    refine ⟨cs[i] :: encoded, vs :: values, ?_, .cons hback hr, .cons hvs hh⟩
    rw [mapM_cons, mapM_cons, hread, hm]

omit [Json] [LossyUtf8] in
theorem len_of_project (hw : chunk.WellFormed) :
    ∀ v ∈ (chunk.project columns).vectors, v.len = chunk.len := by
  intro v hv
  obtain ⟨i, -, hi⟩ := mem_filterMap.mp hv
  exact (hw v (mem_of_getElem? hi)).2

-- A row group gives the rows of its chunk if and only if nothing of them was lost.
theorem scans_group_iff (hw : chunk.WellFormed) (hb : buildRowGroup chunk = .ok group)
    (hc : ∀ i ∈ columns, i < chunk.vectors.length)
    (hv : Forall₂ Vector.Holds (chunk.project columns).vectors values) :
    Scans ⟨group :: rest, columns, 0⟩ (rowsOf values chunk.len ++ rows) ↔
      (∀ v ∈ (chunk.project columns).vectors, Faithful v) ∧
        Scans ⟨rest, columns, 0⟩ rows := by
  obtain ⟨encoded, values₀, hm, hr, hv₀⟩ := exists_columns hw hb hc
  obtain rfl := values_unique hv hv₀
  have hl : ∀ v ∈ (chunk.project columns).vectors, v.len = chunk.len := len_of_project hw
  have hn : group.numRows = chunk.len := by
    obtain ⟨_, -, rfl⟩ := map_eq_ok_iff.mp hb
    rfl
  have hlens : ∀ vs ∈ values, vs.length = chunk.len := by
    intro vs hvs
    obtain ⟨v, hmem, hh⟩ := exists_of_mem hv.flip vs hvs
    rw [← Vector.Holds.len_eq hh, hl v hmem]
  by_cases hz : chunk.len = 0
  case pos =>
    have hf : ∀ v ∈ (chunk.project columns).vectors, Faithful v := fun v hmem =>
      have ⟨_, _, hvs⟩ := exists_of_mem hv v hmem
      faithful_of_len_eq_zero hvs ((hl v hmem).trans hz)
    rw [scans_congr (next_of_le (by omega)), hz]
    exact (and_iff_right hf).symm
  cases hread : group.read columns
  case error e =>
    refine iff_of_false (not_scans_group hread (by omega)) fun h => ?_
    rw [RowGroup.read, hm, decode_of_faithful hr h.1] at hread
    cases hread
  case ok read =>
    obtain ⟨decoded, hd, rfl⟩ := map_eq_ok_iff.mp hread
    rw [hm] at hd
    obtain ⟨values', hv', hlen, hle, hfaith⟩ := holds_of_decode hr hv₀ hl hd
    rw [scans_group hread hv', hn]
    constructor
    · rintro ⟨hge, rows', he, hs⟩
      obtain ⟨hrows, rfl⟩ := append_inj he (by simp [length_rowsOf])
      refine ⟨hfaith ?_, hs⟩
      refine eq_of_rowsOf_eq hlen (fun vs hvs => ?_) hlens hrows.symm
      exact (hle vs hvs).antisymm (hge (by omega) vs hvs)
    · rintro ⟨hf, hs⟩
      obtain rfl := Except.ok.inj (hd.symm.trans (decode_of_faithful hr hf))
      obtain rfl := values_unique hv hv'
      exact ⟨fun _ vs hvs => (hlens vs hvs).ge, rows, rfl, hs⟩

-- The rows of the chunks, as far as they are asked for.
def projectedRows (chunks : List DataChunk) (columns : List ℕ) : Except Error (List Row) :=
  (chunks.mapM fun chunk : DataChunk => (chunk.project columns).rows).map flatten

theorem scans_groups_iff (hw : ∀ chunk ∈ chunks, chunk.WellFormed ∧ chunk.vectors.length = n)
    (hc : ∀ i ∈ columns, i < n)
    (hb : Forall₂ (fun chunk group => buildRowGroup chunk = .ok group) chunks groups) :
    ∃ rows, projectedRows chunks columns = .ok rows ∧
      (Scans ⟨groups, columns, 0⟩ rows ↔
        ∀ chunk ∈ chunks, ∀ v ∈ (chunk.project columns).vectors, Faithful v) := by
  induction hb
  case nil => exact ⟨[], rfl, by simp [scans_nil]⟩
  case cons chunk group chunks groups hg _ hi =>
    have ⟨⟨hwf, hn⟩, hws⟩ := forall_mem_cons.mp hw
    obtain ⟨rows, hrows, hiff⟩ := hi hws
    obtain ⟨lists, hl, rfl⟩ := map_eq_ok_iff.mp hrows
    obtain ⟨encoded, values, -, -, hv⟩ := exists_columns hwf hg (hn ▸ hc)
    have hlens : ∀ vs ∈ values, chunk.len ≤ vs.length := fun vs hvs =>
      have ⟨v, hm, hh⟩ := exists_of_mem hv.flip vs hvs
      ((len_of_project hwf v hm).symm.trans (Vector.Holds.len_eq hh)).le
    refine ⟨rowsOf values chunk.len ++ lists.flatten, map_eq_ok_iff.mpr
      ⟨_, mapM_cons_eq_ok_iff.mpr ⟨_, _, rows_eq hv hlens, hl, rfl⟩, rfl⟩, ?_⟩
    rw [scans_group_iff hwf hg (hn ▸ hc) hv, hiff, forall_mem_cons]

-- A scan gives back the inserted rows if and only if no column that is asked for lost a value.
theorem scan_returns_inserted_iff {numColumns : ℕ} (hw : ∀ chunk ∈ chunks, chunk.WellFormed)
    (hc : ∀ i ∈ columns, i < numColumns) :
    (∃ rows, projectedRows ((new numColumns).inserted chunks) columns = .ok rows ∧
      (TableScanner.new ((new numColumns).insertAll chunks) columns).Scans rows) ↔
    ∀ chunk ∈ (new numColumns).inserted chunks, ∀ v ∈ (chunk.project columns).vectors,
      Faithful v := by
  obtain ⟨groups, hg, hf, hm⟩ := (new numColumns).exists_rowGroups chunks
  obtain ⟨rows, hr, hiff⟩ := scans_groups_iff (fun c h => ⟨hw c (hm c h).1, (hm c h).2⟩) hc hf
  rw [← hiff, TableScanner.new, hg]
  constructor
  · rintro ⟨rows', hr', hs⟩
    cases hr.symm.trans hr'
    exact hs
  · exact fun hs => ⟨rows, hr, hs⟩

end Inserted

section Sample

-- Bytes that are no text are dropped.
local instance strictUtf8 : LossyUtf8 where
  fromUtf8Lossy bs := (String.fromUTF8? ⟨bs.toArray⟩).getD ""
  fromUtf8Lossy_asBytes s := by rw [Text.fromUTF8?_asBytes, Option.getD_some]
  length_le s n := by
    cases h : String.fromUTF8? ⟨((Text.asBytes s).take n).toArray⟩
    case none => exact Nat.zero_le _
    case some t =>
      rw [Option.getD_some, Text.asBytes_of_fromUTF8? h, length_take]
      omega

local instance noJson : Json where
  valueToVec _ := .error ""

def aroundNull : DataChunk :=
  ⟨[Kind.string.vector [some "a", none, some "b"]], 3⟩

-- Of "a", NULL and "b" the last one comes back as the empty slot of the NULL.
theorem scan_loses_string_after_null :
    aroundNull.vectors.mapM (fun v => [.string "a", .null, .string "b"].foldlM Vector.push
      (.new v.dataType)) = .ok aroundNull.vectors ∧
    projectedRows ((new 1).inserted [aroundNull]) [0] =
      .ok [[.string "a"], [.null], [.string "b"]] ∧
    (TableScanner.new ((new 1).insertAll [aroundNull]) [0]).Scans
      [[.string "a"], [.null], [.string ""]] := by
  refine ⟨by decide +kernel, by decide +kernel,
    [⟨[Kind.string.vector [some "a", none, some ""]], 3⟩],
    ⟨((new 1).insertAll [aroundNull]).rowGroups, [0], 3⟩, .more ?_ (.done ?_), ?_⟩
  all_goals decide +kernel

theorem scan_returns_string_before_null :
    ∃ rows, projectedRows ((new 1).inserted [⟨[Kind.string.vector [some "a", none]], 2⟩]) [0] =
        .ok rows ∧
      (TableScanner.new ((new 1).insertAll [⟨[Kind.string.vector [some "a", none]], 2⟩]) [0]).Scans
        rows := by
  refine (scan_returns_inserted_iff ?_ (by decide)).mpr ?_
  · intro chunk hchunk v hv
    cases mem_singleton.mp hchunk
    cases mem_singleton.mp hv
    refine ⟨⟨by simp [Storable, Kind.vector], [.string "a", .null], ?_⟩, rfl⟩
    decide +kernel
  · intro chunk hchunk v hv
    cases mem_singleton.mp hchunk
    cases mem_singleton.mp hv
    refine faithful_string_iff.mpr ⟨by decide, ?_⟩
    exact ⟨by decide +kernel, trivial⟩

end Sample

end Table

end Columnar
