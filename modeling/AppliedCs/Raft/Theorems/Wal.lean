import AppliedCs.Lib.Transition
import AppliedCs.Raft.Wal

namespace Raft

open List Codec Transition WriteAheadLog Directory Option

theorem decodeLE_variant (h : k < 4) (rest : Bytes) :
    decodeLE 4 (encodeLE 4 k ++ rest) = some (k, rest) :=
  decodeLE_inverts 4 k (h.trans (by decide)) rest

theorem Command.decode_inverts :
    Inverts Command.decode Command.encode (·.encode.length < 256 ^ 8) := by
  intro c h rest
  cases c <;> simp only [encode, length_append, length_encodeLE, encodeBytes] at h
  case put key value =>
    have hp := decodePair_inverts decodeBytes_inverts decodeBytes_inverts (key, value)
      ⟨by dsimp only; omega, by dsimp only; omega⟩ rest
    rw [append_assoc] at hp
    simp [decode, encode, decodeLE_variant, hp]
  case delete key | get key =>
    simp [decode, encode, decodeLE_variant, decodeBytes_inverts key (by dsimp only; omega)]
  case noOp => simp [decode, encode, decodeLE_variant]

theorem EntryType.decode_inverts : Inverts EntryType.decode EntryType.encode fun _ => True := by
  intro t _ rest
  cases t <;> simp [decode, encode, decodeLE_variant]

namespace LogEntry

-- The entries whose fields and records have the sizes that the format provides for.
structure Fits (e : LogEntry) : Prop where
  term : e.term < u64Size
  index : e.index < u64Size
  length : e.encode.length < 2 ^ 32

instance (e : LogEntry) : Decidable e.Fits :=
  decidable_of_iff (_ ∧ _ ∧ _) ⟨fun ⟨h₁, h₂, h₃⟩ => ⟨h₁, h₂, h₃⟩, fun ⟨h₁, h₂, h₃⟩ => ⟨h₁, h₂, h₃⟩⟩

theorem decode_encode (h : e.Fits) : decode e.encode = some (e, []) := by
  have hc : e.command.encode.length < 256 ^ 8 := by
    have := h.length
    simp only [encode, length_append] at this
    omega
  have hp := decodePair_inverts (decodeLE_inverts 8) (decodePair_inverts (decodeLE_inverts 8)
    (decodePair_inverts Command.decode_inverts EntryType.decode_inverts))
    (e.term, e.index, e.command, e.entryType) ⟨h.term, h.index, hc, trivial⟩ []
  simp only [append_nil] at hp
  simp [decode, encode, hp]

end LogEntry

open LogEntry

namespace WriteAheadLog

variable {crc : Bytes → UInt32} {dir : Directory} {entries es : List LogEntry} {e : LogEntry}

theorem decode_header (h : e.Fits) (rest : Bytes) : decodePair (decodeLE 4) (decodeLE 4)
      (encodeLE 4 e.encode.length ++ (encodeLE 4 (crc e.encode).toNat ++ rest)) =
        some ((e.encode.length, (crc e.encode).toNat), rest) := by
  have := decodePair_inverts (decodeLE_inverts 4) (decodeLE_inverts 4)
    (e.encode.length, (crc e.encode).toNat) ⟨h.length, (crc e.encode).toNat_lt⟩ rest
  rwa [append_assoc] at this

theorem readRecord_record (h : e.Fits) (rest : Bytes) :
    readRecord crc (record crc e ++ rest) = some (.ok e, rest) := by
  simp only [readRecord, record, append_assoc, decode_header h, bind_some]
  simp [takeBytes, decode_encode h]

-- Either the header is cut off, or it announces more data than there are.
theorem readRecord_torn {bs : Bytes} (h : e.Fits) (hp : bs <+: record crc e)
    (hne : bs ≠ record crc e) : readRecord crc bs = none := by
  have ⟨rest, hr⟩ := hp
  have hlt : bs.length < 8 + e.encode.length := by
    have hlen := congrArg length hr
    have hpos : rest ≠ [] := fun hn => hne <| by rw [← hr, hn, append_nil]
    have := length_pos_iff.mpr hpos
    simp only [record, length_append, length_encodeLE] at hlen
    omega
  by_cases h8 : bs.length < 8
  case pos =>
    cases hd : decodePair (decodeLE 4) (decodeLE 4) bs
    case none => simp [readRecord, hd]
    case some r =>
      have := decodePair_consumes (decodeLE_consumes 4) (decodeLE_consumes 4) bs r.1 r.2 hd
      dsimp only at this
      omega
  have hbs : bs = encodeLE 4 e.encode.length ++
      (encodeLE 4 (crc e.encode).toNat ++ e.encode.take (bs.length - 8)) := by
    have h₁ : (encodeLE 4 e.encode.length).length ≤ bs.length := by
      rw [length_encodeLE]
      omega
    have h₂ : (encodeLE 4 (crc e.encode).toNat).length ≤ bs.length - 4 := by
      rw [length_encodeLE]
      omega
    conv_lhs => rw [prefix_iff_eq_take.mp hp]
    rw [record, take_append, take_of_length_le h₁, length_encodeLE, take_append,
      take_of_length_le h₂, length_encodeLE, Nat.sub_sub]
  rw [hbs, readRecord, decode_header h]
  have : ¬e.encode.length ≤ (e.encode.take (bs.length - 8)).length := by
    rw [length_take]
    omega
  simp only [bind_some, takeBytes, if_neg this]
  rfl

theorem frames_record : Frames (readRecord crc) (record crc) Fits where
  pos _ := by simp [record]
  read _ h rest := readRecord_record h rest
  torn _ h _ hp hne := readRecord_torn h hp hne

theorem readSegment_eq (hv : ∀ e ∈ es, e.Fits) (ht : Torn (record crc) Fits torn) :
    readSegment crc (es.flatMap (record crc) ++ torn) = .ok es :=
  frames_record.readRecords rfl hv ht (frames_record.length_le es torn)

theorem recover_eq (h : ∀ base, readSegment crc (dir.file base) = .ok (logged base)) :
    recover crc dir = .ok ((bases dir).flatMap logged) := by
  have hm : ∀ bs : List ℕ, (bs.mapM fun base => readSegment crc (dir.file base)) =
      .ok (bs.map logged) := by
    intro bs
    induction bs
    case nil => rfl
    case cons b bs hi =>
      rw [mapM_cons, h, hi]
      rfl
  rw [recover, hm]
  rfl

theorem dir_writeAll_ensureSegment (w : WriteAheadLog) (bytes : Bytes) :
    (w.ensureSegment.writeAll w.segment bytes).dir =
      w.dir.insert w.segment (w.dir.file w.segment ++ bytes) := by
  unfold ensureSegment
  split
  case isFalse => rfl
  case isTrue h =>
    have hs : w.segment = w.nextBase := by
      rw [WriteAheadLog.segment, isNone_iff_eq_none.mp h]
      rfl
    rw [hs]
    simp [createNewSegment, writeAll, file]

theorem file_insert_self (dir : Directory) (base : ℕ) (bytes : Bytes) :
    file (dir.insert base bytes) base = bytes := by
  simp [file]

theorem file_insert_of_ne (dir : Directory) (h : b ≠ base) (bytes : Bytes) :
    file (dir.insert base bytes) b = dir.file b := by
  simp [file, AList.lookup_insert_ne h]

-- The indices grow from each entry to the next, and the next segment can be named.
def Continued (w : WriteAheadLog) (entries : List LogEntry) : Prop :=
  (w.entries ++ entries).Pairwise (·.index < ·.index) ∧
  ∀ e ∈ w.entries ++ entries, e.index + 1 < u64Size

theorem Continued.of_isPrefix {w : WriteAheadLog} (h : w.Continued es) (hk : kept <+: es) :
    w.Continued kept := by
  have hs : (w.entries ++ kept).Sublist (w.entries ++ es) := hk.sublist.append_left _
  exact ⟨h.1.sublist hs, fun e he => h.2 e (hs.subset he)⟩

theorem Continued.nil {w w' : WriteAheadLog} (h : w.Continued es)
    (hw : w'.entries = w.entries ++ es) : w'.Continued [] := by
  rw [Continued, append_nil, hw]
  exact h

theorem Continued.nextBase_le {w w' : WriteAheadLog} (h : w.Continued es)
    (hw : w'.entries = w.entries ++ es) : w.nextBase ≤ w'.nextBase := by
  rw [nextBase, nextBase, hw, getLast?_append]
  cases hf : es.getLast?
  case none => simp
  case some f =>
    have hmem : f ∈ es := mem_of_getLast? hf
    have hsmall : f.index + 1 < u64Size := h.2 f (mem_append_right _ hmem)
    simp only [some_or, Nat.mod_eq_of_lt hsmall]
    cases he : w.entries.getLast?
    case none => simp
    case some e =>
      have hlt := (pairwise_append.mp h.1).2.2 e (mem_of_getLast? he) f hmem
      simp only [Nat.mod_eq_of_lt (Nat.lt_trans (Nat.succ_lt_succ hlt) hsmall)]
      omega

theorem bases_eq (hs : l.Pairwise (· ≤ ·)) (hp : l.Perm dir.keys) : bases dir = l :=
  ((perm_insertionSort _ _).trans hp.symm).eq_of_pairwise' (pairwise_insertionSort _ _) hs

theorem mem_bases : b ∈ bases dir ↔ b ∈ dir :=
  mem_insertionSort _

theorem pairwise_last (h : ∀ b ∈ dir, b ≤ base) :
    ((bases dir).filter (· ≠ base) ++ [base]).Pairwise (· ≤ ·) := by
  refine pairwise_append.mpr ⟨?_, pairwise_singleton .., fun a ha b hb => ?_⟩
  · exact (pairwise_insertionSort _ _).sublist filter_sublist
  · have hm := mem_bases.mp (mem_filter.mp ha).1
    exact mem_singleton.mp hb ▸ h a hm

theorem perm_last (dir : Directory) (base : ℕ) :
    ((bases dir).filter (· ≠ base) ++ [base]).Perm (base :: dir.keys.erase base) := by
  have he : dir.keys.erase base = dir.keys.filter (· ≠ base) := by
    rw [dir.keys_nodup.erase_eq_filter]
    exact filter_congr fun b _ => by grind
  have hp : ((bases dir).filter (· ≠ base)).Perm (dir.keys.erase base) :=
    he ▸ (perm_insertionSort (· ≤ ·) dir.keys).filter _
  exact perm_append_comm.trans (hp.cons base)

theorem bases_insert (h : ∀ b ∈ dir, b ≤ base) (bytes : Bytes) :
    bases (dir.insert base bytes) = (bases dir).filter (· ≠ base) ++ [base] :=
  bases_eq (pairwise_last h) (AList.keys_insert dir ▸ perm_last dir base)

theorem bases_of_mem (h : ∀ b ∈ dir, b ≤ base) (hm : base ∈ dir) :
    bases dir = (bases dir).filter (· ≠ base) ++ [base] :=
  bases_eq (pairwise_last h) ((perm_last dir base).trans (perm_cons_erase hm).symm)

end WriteAheadLog

inductive WalEvent
  | append (entries : List LogEntry)
  | truncateSuffix (fromIndex : ℕ)
  | compact (upTo : ℕ)
  | reopen
  -- The process dies within an append, and the log is opened again.
  | crash (entries : List LogEntry) (cut : ℕ)

-- A log with the entries that were written to each segment with all their bytes.
structure Journal where
  wal : WriteAheadLog := {}
  logged : ℕ → List LogEntry := fun _ => []

namespace Journal

variable {dir : Directory} {entries : List LogEntry} {wal : WriteAheadLog} {torn : Bytes}
  {logged : ℕ → List LogEntry}

def logs (j : Journal) (entries : List LogEntry) : ℕ → List LogEntry :=
  Function.update j.logged j.wal.segment (j.logged j.wal.segment ++ entries)

def step (crc : Bytes → UInt32) (j : Journal) : WalEvent → Option Journal
  | .append entries => some ⟨j.wal.append crc entries, j.logs entries⟩
  | .truncateSuffix fromIndex => some { j with wal := j.wal.truncateSuffix fromIndex }
  | .compact upTo => some { j with wal := j.wal.compact upTo }
  | .reopen => (new crc j.wal.dir).toOption.map fun wal => { j with wal }
  | .crash entries cut => (new crc (j.wal.crash crc entries cut)).toOption.map fun wal =>
      ⟨wal, j.logs (complete (record crc) entries cut)⟩

-- Everything that was written, segment by segment.
def written (j : Journal) : List LogEntry :=
  (bases j.wal.dir).flatMap j.logged

-- The segment's file ends with a whole record.
def Intact (crc : Bytes → UInt32) (j : Journal) (base : ℕ) : Prop :=
  j.wal.dir.file base = (j.logged base).flatMap (record crc)

-- Entries have the sizes of the format, and no segment is opened whose file ends in a torn record.
def OpensIntact (crc : Bytes → UInt32) (j : Journal) : WalEvent → Prop
  | .append entries | .crash entries _ =>
    (∀ e ∈ entries, e.Fits) ∧ (j.wal.currentSegment = none → j.Intact crc j.wal.nextBase)
  | _ => True

instance (crc : Bytes → UInt32) (j : Journal) (base : ℕ) : Decidable (j.Intact crc base) :=
  inferInstanceAs <| Decidable (_ = _)

instance (crc : Bytes → UInt32) (j : Journal) : (e : WalEvent) → Decidable (j.OpensIntact crc e)
  | .append _ | .crash .. => inferInstanceAs <| Decidable (_ ∧ (_ → j.Intact crc _))
  | .truncateSuffix _ | .compact _ | .reopen => .isTrue trivial

structure Inv (crc : Bytes → UInt32) (j : Journal) : Prop where
  fits : ∀ base, ∀ e ∈ j.logged base, e.Fits
  files : ∀ base, ∃ torn, Torn (record crc) Fits torn ∧
              j.wal.dir.file base = (j.logged base).flatMap (record crc) ++ torn
  current : ∀ base, j.wal.currentSegment = some base → j.Intact crc base

theorem Inv.new_eq (h : Inv crc j) :
    new crc j.wal.dir = .ok { dir := j.wal.dir, entries := j.written } := by
  have hr : recover crc j.wal.dir = .ok j.written := by
    refine recover_eq fun base => ?_
    have ⟨torn, ht, hf⟩ := h.files base
    rw [hf, readSegment_eq (h.fits base) ht]
  rw [new, hr]
  rfl

theorem Inv.intact (h : Inv crc j)
    (hok : j.OpensIntact crc (.append entries)) : j.Intact crc j.wal.segment := by
  unfold WriteAheadLog.segment
  cases hs : j.wal.currentSegment
  case none => exact hok.2 hs
  case some base => exact h.current base hs

theorem Inv.write (h : Inv crc j) (hi : j.Intact crc j.wal.segment) (hv : ∀ e ∈ entries, e.Fits)
    (ht : Torn (record crc) Fits torn) (hd : wal.dir = j.wal.dir.insert j.wal.segment
      (j.wal.dir.file j.wal.segment ++ (entries.flatMap (record crc) ++ torn)))
    (hc : ∀ base, wal.currentSegment = some base → base = j.wal.segment ∧ torn = []) :
    Inv crc ⟨wal, j.logs entries⟩ where
  fits base := by
    by_cases hb : base = j.wal.segment
    case neg => simpa [logs, hb] using h.fits base
    case pos =>
      subst hb
      simp only [logs, Function.update_self]
      exact forall_mem_append.mpr ⟨h.fits _, hv⟩
  files base := by
    by_cases hb : base = j.wal.segment
    case neg => simpa [logs, hb, hd, file_insert_of_ne j.wal.dir hb] using h.files base
    case pos =>
      subst hb
      refine ⟨torn, ht, ?_⟩
      dsimp only
      rw [hd, file_insert_self, hi, logs, Function.update_self, flatMap_append, append_assoc]
  current base hs := by
    have ⟨hb, htorn⟩ := hc base hs
    subst hb
    dsimp only [Intact]
    rw [hd, file_insert_self, hi, logs, Function.update_self, flatMap_append, htorn,
      append_nil]

-- Neither the memory nor the closing of a segment touches the files.
theorem Inv.congr (h : Inv crc j) (hd : wal.dir = j.wal.dir)
    (hc : wal.currentSegment = none ∨ wal.currentSegment = j.wal.currentSegment) :
    Inv crc { j with wal } where
  fits := h.fits
  files base := hd ▸ h.files base
  current base := by
    intro hs
    dsimp only at hs
    cases hc
    case inl hc => rw [hc] at hs; cases hs
    case inr hc => exact (congrArg (file · base) hd).trans (h.current base (hc ▸ hs))

theorem currentSegment_append (w : WriteAheadLog) (entries : List LogEntry) :
    (w.append crc entries).currentSegment = some w.segment := by
  unfold append ensureSegment WriteAheadLog.segment
  cases hs : w.currentSegment <;> simp [createNewSegment, writeAll, hs]

theorem Inv.append (h : Inv crc j) (hok : j.OpensIntact crc (.append entries)) :
    Inv crc ⟨j.wal.append crc entries, j.logs entries⟩ := by
  have ht : Torn (record crc) Fits [] := .inl rfl
  refine h.write (h.intact hok) hok.1 ht ?_ fun base hs => ?_
  · rw [append_nil]
    exact dir_writeAll_ensureSegment j.wal _
  · rw [currentSegment_append] at hs
    exact ⟨(some.inj hs).symm, rfl⟩

theorem Inv.crash (h : Inv crc j) (hok : j.OpensIntact crc (.crash entries cut)) :
    Inv crc ⟨{ dir := j.wal.crash crc entries cut },
      j.logs (complete (record crc) entries cut)⟩ := by
  have ⟨torn, ht, htake⟩ := take_flatMap (record crc) entries hok.1 cut
  refine h.write (h.intact hok) ?_ ht ?_ nofun
  · exact fun e he => hok.1 e ((complete_isPrefix _ entries cut).subset he)
  · rw [← htake]
    exact dir_writeAll_ensureSegment j.wal _

theorem Inv.step (h : Inv crc j) (hok : j.OpensIntact crc e) (hs : j.step crc e = some j₂) :
    Inv crc j₂ := by
  cases e <;> simp only [Journal.step] at hs
  case append =>
    cases hs
    exact h.append hok
  case truncateSuffix | compact =>
    cases hs
    exact h.congr rfl (.inr rfl)
  case reopen =>
    rw [h.new_eq] at hs
    cases hs
    exact h.congr rfl (.inl rfl)
  case crash =>
    have hc := h.crash hok
    rw [hc.new_eq] at hs
    cases hs
    exact hc.congr rfl (.inl rfl)

-- Appends continue the log, and nothing is removed from memory.
def Continues (crc : Bytes → UInt32) (j : Journal) : WalEvent → Prop
  | .append entries => j.OpensIntact crc (.append entries) ∧ j.wal.Continued entries
  | .crash entries cut => j.OpensIntact crc (.crash entries cut) ∧ j.wal.Continued entries
  | .truncateSuffix fromIndex => ∀ e ∈ j.wal.entries, e.index < fromIndex
  | .compact upTo => ∀ e ∈ j.wal.entries, upTo < e.index
  | .reopen => True

-- The segment files are opened in the order of their base indices.
structure InOrder (crc : Bytes → UInt32) (j : Journal) : Prop extends Inv crc j where
  entries : j.wal.entries = j.written
  continued : j.wal.Continued []
  bases_le : ∀ base ∈ j.wal.dir, base ≤ j.wal.segment
  segment_le : j.wal.segment ≤ j.wal.nextBase

theorem Inv.logged_eq_nil (h : Inv crc j) (hb : base ∉ j.wal.dir) : j.logged base = [] := by
  have ⟨torn, _, hf⟩ := h.files base
  rw [file, AList.lookup_eq_none.mpr hb] at hf
  have hframes : Frames (readRecord crc) (record crc) Fits := frames_record
  have hle := hframes.length_le (j.logged base) torn
  rw [← hf] at hle
  exact length_eq_zero_iff.mp (Nat.le_zero.mp hle)

theorem InOrder.written_logs (h : InOrder crc j) (entries : List LogEntry) (bytes : Bytes) :
    (bases (j.wal.dir.insert j.wal.segment bytes)).flatMap (j.logs entries) =
      j.written ++ entries := by
  have hold : ((bases j.wal.dir).filter (· ≠ j.wal.segment)).flatMap (j.logs entries) =
      ((bases j.wal.dir).filter (· ≠ j.wal.segment)).flatMap j.logged := by
    refine flatMap_congr fun b hb => ?_
    have hne : b ≠ j.wal.segment := by simpa using (mem_filter.mp hb).2
    simp [logs, hne]
  have hw : j.written = ((bases j.wal.dir).filter (· ≠ j.wal.segment)).flatMap j.logged ++
      j.logged j.wal.segment := by
    by_cases hm : j.wal.segment ∈ j.wal.dir
    case pos =>
      rw [written]
      conv_lhs => rw [bases_of_mem h.bases_le hm]
      simp
    case neg =>
      have hf : (bases j.wal.dir).filter (· ≠ j.wal.segment) = bases j.wal.dir :=
        filter_eq_self.mpr fun b hb => decide_eq_true fun hb' => hm <| hb' ▸ mem_bases.mp hb
      rw [hf, h.logged_eq_nil hm, append_nil, written]
  rw [bases_insert h.bases_le, flatMap_append, hold, hw]
  simp [logs, append_assoc]

theorem InOrder.append (h : InOrder crc j) (hok : j.Continues crc (.append entries)) :
    InOrder crc ⟨j.wal.append crc entries, j.logs entries⟩ := by
  have hdir : (j.wal.append crc entries).dir = _ := dir_writeAll_ensureSegment j.wal _
  have hseg : (j.wal.append crc entries).segment = j.wal.segment := by
    rw [WriteAheadLog.segment, currentSegment_append, getD_some]
  refine
    { h.toInv.append hok.1 with
      entries := ?_
      continued := hok.2.nil rfl
      bases_le := fun base hb => ?_
      segment_le := ?_ }
  · rw [written, hdir, h.written_logs, ← h.entries]
    rfl
  · rw [hseg]
    rw [hdir, AList.mem_insert] at hb
    exact hb.elim (·.le) (h.bases_le base)
  · exact hseg ▸ h.segment_le.trans (hok.2.nextBase_le rfl)

theorem InOrder.opened (h : Inv crc ⟨{ dir }, logged⟩) (he : entries = (bases dir).flatMap logged)
    (hc : Continued { dir, entries } []) (hb : ∀ base ∈ dir, base ≤ nextBase { dir, entries }) :
    InOrder crc ⟨{ dir, entries }, logged⟩ :=
  { h.congr rfl (.inl rfl) with
    entries := he
    continued := hc
    bases_le := hb
    segment_le := le_rfl }

theorem InOrder.crash (h : InOrder crc j) (hok : j.Continues crc (.crash entries cut)) :
    InOrder crc ⟨{ dir := j.wal.crash crc entries cut
                   entries := j.wal.entries ++ complete (record crc) entries cut },
      j.logs (complete (record crc) entries cut)⟩ := by
  have hdir : j.wal.crash crc entries cut = _ := dir_writeAll_ensureSegment j.wal _
  have hcont := hok.2.of_isPrefix (complete_isPrefix (record crc) entries cut)
  refine InOrder.opened (h.toInv.crash hok.1) ?_ (hcont.nil rfl) fun base hb => ?_
  · rw [hdir, h.written_logs, h.entries]
  · rw [hdir, AList.mem_insert] at hb
    have hle : base ≤ j.wal.segment := hb.elim (·.le) (h.bases_le base)
    exact hle.trans <| h.segment_le.trans <| hcont.nextBase_le rfl

theorem InOrder.step (h : InOrder crc j) (hok : j.Continues crc e) (hs : j.step crc e = some j₂) :
    InOrder crc j₂ := by
  cases e <;> simp only [Journal.step] at hs
  case append =>
    cases hs
    exact h.append hok
  case truncateSuffix =>
    cases hs
    have hf := filter_eq_self.mpr fun e he => decide_eq_true (hok e he)
    simpa only [truncateSuffix, hf] using h
  case compact =>
    cases hs
    have hf := filter_eq_self.mpr fun e he => decide_eq_true (hok e he)
    simpa only [compact, hf] using h
  case reopen =>
    rw [h.toInv.new_eq] at hs
    cases hs
    refine .opened (h.congr rfl (.inl rfl)) rfl ?_ fun base hb => ?_
    · exact h.entries ▸ h.continued
    · have hn : nextBase { dir := j.wal.dir, entries := j.written } = j.wal.nextBase := by
        rw [nextBase, nextBase, h.entries]
      exact hn ▸ (h.bases_le base hb).trans h.segment_le
  case crash entries cut =>
    have hc := h.crash hok
    have hw : Journal.written ⟨{ dir := j.wal.crash crc entries cut },
        j.logs (complete (record crc) entries cut)⟩ =
          j.wal.entries ++ complete (record crc) entries cut :=
      hc.entries.symm
    rw [(h.toInv.crash hok.1).new_eq, hw] at hs
    cases hs
    exact hc

end Journal

open Journal

-- Reopening finds what was written, with no more than a suffix of an interrupted append missing.
-- As long as appends continue the log and nothing is removed, this is what the memory holds.
theorem wal_recovers (crc : Bytes → UInt32) {j : Journal}
    (h : Reaches (step crc) (OpensIntact crc) {} j) :
    new crc j.wal.dir = .ok { dir := j.wal.dir, entries := j.written } ∧
    (∀ entries cut, j.OpensIntact crc (.crash entries cut) → ∃ kept, kept <+: entries ∧
      (new crc (j.wal.crash crc entries cut)).map (·.entries) =
        .ok ((bases (j.wal.crash crc entries cut)).flatMap (j.logs kept))) ∧
    (Reaches (step crc) (Continues crc) {} j → j.wal.entries = j.written ∧
      ∀ entries cut, j.Continues crc (.crash entries cut) → ∃ kept, kept <+: entries ∧
        (new crc (j.wal.crash crc entries cut)).map (·.entries) =
          .ok (j.wal.entries ++ kept)) := by
  have hinv : Inv crc j := h.invariant
    ⟨nofun, fun _ => ⟨[], .inl rfl, rfl⟩, nofun⟩ fun hi hok hs => hi.step hok hs
  refine ⟨hinv.new_eq, fun entries cut hok => ?_, fun hr => ?_⟩
  · refine ⟨_, complete_isPrefix (record crc) entries cut, ?_⟩
    rw [(hinv.crash hok).new_eq]
    rfl
  · have hord : InOrder crc j := hr.invariant
      { fits := nofun
        files := fun _ => ⟨[], .inl rfl, rfl⟩
        current := nofun
        entries := rfl
        continued := ⟨.nil, nofun⟩
        bases_le := nofun
        segment_le := le_rfl }
      fun hi hok hs => hi.step hok hs
    refine ⟨hord.entries, fun entries cut hok => ?_⟩
    refine ⟨_, complete_isPrefix (record crc) entries cut, ?_⟩
    rw [(hinv.crash hok.1).new_eq]
    exact congrArg Except.ok (hord.crash hok).entries.symm

def firstEntry : LogEntry :=
  ⟨1, 1, .put [1] [2], .command⟩

def secondEntry : LogEntry :=
  ⟨1, 2, .delete [1], .command⟩

-- The second append is cut off within the record of its second entry.
theorem wal_recovers_after_crash : ∃ j, Reaches (step crc32) (OpensIntact crc32) {} j ∧
      j.wal.entries = [firstEntry, secondEntry] ∧
      new crc32 j.wal.dir =
        .ok { dir := j.wal.dir, entries := [firstEntry, secondEntry] } := by
  have ⟨j, r, he, hw⟩ : ∃ j, Reaches (step crc32) (OpensIntact crc32) {} j ∧
      j.wal.entries = [firstEntry, secondEntry] ∧ j.written = [firstEntry, secondEntry] :=
    Reaches.exists_of_run
      [.append [firstEntry], .crash [secondEntry, ⟨1, 3, .noOp, .noOp⟩] 50] (by decide +kernel)
  exact ⟨j, r, he, hw ▸ (wal_recovers crc32 r).1⟩

-- The entry that was truncated comes back.
theorem truncated_entry_recovered :
    ∃ j₁ j₂, Reaches (step crc32) anyEvent {} j₁ ∧ j₁.step crc32 .reopen = some j₂ ∧
      j₁.wal.entries = [firstEntry] ∧ j₂.wal.entries = [firstEntry, secondEntry] := by
  have ⟨j₁, r, h₁, hstep⟩ : ∃ j₁, Reaches (step crc32) anyEvent {} j₁ ∧
      j₁.wal.entries = [firstEntry] ∧ (j₁.step crc32 .reopen).any fun j₂ =>
        decide (j₂.wal.entries = [firstEntry, secondEntry]) :=
    Reaches.exists_of_run [.append [firstEntry, secondEntry], .truncateSuffix 2] (by decide +kernel)
  have ⟨j₂, hs, h₂⟩ := Option.any_eq_true .. |>.mp hstep
  exact ⟨j₁, j₂, r, hs, h₁, of_decide_eq_true h₂⟩

end Raft
