import AppliedCs.Columnar.Storage
import AppliedCs.Columnar.Theorems.Vector
import AppliedCs.Lib.Fallible

open Codec Fallible

namespace Columnar

open Kind Text LossyUtf8 List

variable {α : Type}
variable {data : Bytes}

section Bytes

variable {bs rest : Bytes}

theorem range_of_drop (h : data.drop offset = bs ++ rest) (hn : bs.length = len)
    (ho : offset ≤ data.length) : range data offset len = .ok bs := by
  have hl := congrArg length h
  rw [length_drop, length_append] at hl
  rw [range, if_pos (by omega), h, take_append_of_le_length (by omega), take_of_length_le]
  omega

theorem decodeLE_encodeLE (w n : ℕ) : decodeLE w (encodeLE w n) = some (n % 256 ^ w, []) := by
  induction w generalizing n
  case zero => simp [encodeLE, decodeLE, Nat.mod_one]
  case succ w hi =>
    rw [encodeLE, decodeLE, hi]
    simp [Nat.pow_succ', Nat.mod_mul]

theorem fromLE_encodeLE (w n : ℕ) : fromLE (encodeLE w n) = n % 256 ^ w := by
  rw [fromLE, length_encodeLE, decodeLE_encodeLE]
  rfl

theorem ofNat_fromLE_uint32 (n : UInt32) : UInt32.ofNat (fromLE (encodeLE 4 n.toNat)) = n := by
  have h : n.toNat < 256 ^ 4 := n.toNat_lt
  rw [fromLE_encodeLE, Nat.mod_eq_of_lt h, UInt32.ofNat_toNat]

theorem ofNat_fromLE_uint64 (n : UInt64) : UInt64.ofNat (fromLE (encodeLE 8 n.toNat)) = n := by
  have h : n.toNat < 256 ^ 8 := n.toNat_lt
  rw [fromLE_encodeLE, Nat.mod_eq_of_lt h, UInt64.ofNat_toNat]

theorem flatMap_encodeBool (validity : List Bool) :
    (validity.flatMap encodeBool).map (· != 0) = validity := by
  induction validity
  case nil => rfl
  case cons b validity hi =>
    rw [flatMap_cons, map_append, hi]
    cases b <;> rfl

theorem length_flatMap_encodeBool (validity : List Bool) :
    (validity.flatMap encodeBool).length = validity.length := by
  induction validity <;> simp_all [encodeBool]

end Bytes

section Fixed

-- The kinds whose values take a fixed number of bytes.
structure Fixed [Json] [LossyUtf8] (k : Kind dataType α) where
  width : ℕ
  enc : α → Bytes
  dec : ℕ → Value
  encode : ∀ len validity slots, encodeVectorData ⟨dataType, len, validity, k.wrap slots⟩ =
    .ok (encodePrefixed (validity.flatMap encodeBool) ++ slots.flatMap enc)
  decode : ∀ data offset validity, decodeValues ⟨dataType, data⟩ offset validity =
    decodeFixed data offset width dec validity
  length : ∀ a, (enc a).length = width
  dec_enc : ∀ a, dec (fromLE (enc a)) = k.read a
  wrap_ne : ∀ slots strings, k.wrap slots ≠ .string strings := by exact fun _ _ h => by cases h

namespace Fixed

variable [Json] [LossyUtf8]

def boolean : Fixed boolean where
  width := 1
  enc := encodeBool
  dec n := .boolean (n != 0)
  encode := fun _ _ _ => rfl
  decode := fun _ _ _ => rfl
  length := fun _ => rfl
  dec_enc b := by cases b <;> rfl

def int32 : Fixed Kind.int32 where
  width := 4
  enc := encodeInt32
  dec n := .int32 (UInt32.ofNat n).toInt32
  encode := fun _ _ _ => rfl
  decode := fun _ _ _ => rfl
  length _ := length_encodeLE ..
  dec_enc i := by rw [encodeInt32, ofNat_fromLE_uint32, Int32.toInt32_toUInt32, Kind.int32]

def date : Fixed Kind.date where
  width := 4
  enc := encodeInt32
  dec n := .date (UInt32.ofNat n).toInt32
  encode := fun _ _ _ => rfl
  decode := fun _ _ _ => rfl
  length _ := length_encodeLE ..
  dec_enc i := by rw [encodeInt32, ofNat_fromLE_uint32, Int32.toInt32_toUInt32, Kind.date]

def int64 : Fixed Kind.int64 where
  width := 8
  enc := encodeInt64
  dec n := .int64 (UInt64.ofNat n).toInt64
  encode := fun _ _ _ => rfl
  decode := fun _ _ _ => rfl
  length _ := length_encodeLE ..
  dec_enc i := by rw [encodeInt64, ofNat_fromLE_uint64, Int64.toInt64_toUInt64, Kind.int64]

def timestamp : Fixed Kind.timestamp where
  width := 8
  enc := encodeInt64
  dec n := .timestamp (UInt64.ofNat n).toInt64
  encode := fun _ _ _ => rfl
  decode := fun _ _ _ => rfl
  length _ := length_encodeLE ..
  dec_enc i := by rw [encodeInt64, ofNat_fromLE_uint64, Int64.toInt64_toUInt64, Kind.timestamp]

def float64 : Fixed Kind.float64 where
  width := 8
  enc := encodeFloat64
  dec n := .float64 (.ofNat n)
  encode := fun _ _ _ => rfl
  decode := fun _ _ _ => rfl
  length _ := length_encodeLE ..
  dec_enc i := by rw [encodeFloat64, ofNat_fromLE_uint64, Kind.float64]

end Fixed

-- The slots are read one after the other; `before` are the bytes in front of slot `i`.
theorem mapM_readFixed {k : Kind dataType α} {enc : α → Bytes} (hlen : ∀ a, (enc a).length = width)
    (hdec : ∀ a, dec (fromLE (enc a)) = k.read a) {cells : List (Option α)}
    (hd : data = before ++ (cells.map (·.getD k.default)).flatMap enc)
    (hb : before.length = offset + i * width) :
    ((cells.map (·.isSome)).zipIdx i).mapM (readFixed data offset width dec) =
      .ok (cells.map k.value) := by
  induction cells generalizing before i
  case nil => rfl
  case cons c cells hi =>
    rw [map_cons, flatMap_cons] at hd
    have hrest := @hi (before ++ enc (c.getD k.default)) (i + 1)
      (by rw [hd, append_assoc])
      (by rw [length_append, hb, hlen, Nat.add_mul, Nat.one_mul, Nat.add_assoc])
    have hdrop : data.drop (offset + i * width) =
        enc (c.getD k.default) ++ (cells.map (·.getD k.default)).flatMap enc := by
      rw [hd, ← hb, drop_left]
    have hle : offset + i * width ≤ data.length := by
      rw [hd, ← hb, length_append]
      exact Nat.le_add_right ..
    have hread : readFixed data offset width dec (c.isSome, i) = .ok (k.value c) := by
      rw [readFixed, range_of_drop hdrop (hlen _) hle]
      cases c
      case none => rfl
      case some a => exact congrArg Except.ok (hdec a)
    rw [map_cons, zipIdx_cons, mapM_cons, hrest, hread]
    rfl

end Fixed

section Strings

def encodeString (s : String) : Bytes :=
  encodePrefixed (asBytes s)

-- Where the decoder stands: it still has to pass `n` empty slots of NULLs that it did not skip.
-- It gives the right strings as long as it does not need another one than the empty string.
def Aligned : ℕ → List (Option String) → Prop
  | _, [] => True
  | n, none :: cells => Aligned (n + 1) cells
  | 0, some s :: cells => (asBytes s).length < UInt32.size ∧ Aligned 0 cells
  | n + 1, some s :: cells => s = "" ∧ Aligned (n + 1) cells

theorem aligned_succ_iff : Aligned (n + 1) cells ↔ ∀ s, some s ∈ cells → s = "" := by
  induction cells generalizing n
  case nil => simp [Aligned]
  case cons c cells hi => cases c <;> simp [Aligned, hi]

theorem aligned_zero_iff : Aligned 0 cells ↔
    cells.Pairwise (fun c c' => c = none → ∀ s, c' = some s → s = "") ∧
      ∀ s, some s ∈ cells → (asBytes s).length < UInt32.size := by
  induction cells
  case nil => simp [Aligned]
  case cons c cells hi =>
    cases c
    case some s => simp [Aligned, hi, and_left_comm]
    case none =>
      rw [Aligned, aligned_succ_iff, pairwise_cons]
      constructor
      · intro h
        have hall : ∀ c ∈ cells, ∀ s, c = some s → s = "" := fun c hc s hs => h s (hs ▸ hc)
        refine ⟨⟨fun c hc _ => hall c hc, ?_⟩, fun s hs => ?_⟩
        · exact pairwise_of_forall_mem_list fun _ _ c hc _ => hall c hc
        · obtain rfl := h s (by simpa using hs)
          decide
      · intro h s hs
        exact h.1.1 (some s) hs rfl s rfl

theorem length_encodeString (s : String) : (encodeString s).length = 4 + (asBytes s).length := by
  rw [encodeString, encodePrefixed, length_append, length_encodeLE]

theorem cons_bind_eq_ok {x : Except Error (List Value)} :
    (do return v :: (← x)) = Except.ok (v' :: vs) ↔ v = v' ∧ x = .ok vs := by
  cases x <;> simp [bind, Except.bind, pure, Except.pure]

variable [LossyUtf8]
theorem fromUtf8Lossy_nil : fromUtf8Lossy [] = "" :=
  fromUtf8Lossy_asBytes ""

-- A length that does not fit into four bytes cuts the string short.
theorem fromUtf8Lossy_take_eq_iff (s : String) :
    fromUtf8Lossy ((asBytes s).take ((asBytes s).length % UInt32.size)) = s ↔
      (asBytes s).length < UInt32.size := by
  constructor
  · intro h
    by_contra hlt
    have hle := length_le s ((asBytes s).length % UInt32.size)
    rw [h] at hle
    simp only [UInt32.size] at *
    omega
  · intro h
    rw [Nat.mod_eq_of_lt h, take_length, fromUtf8Lossy_asBytes]

-- One string is read, and the offset moves behind as many bytes as its length says.
theorem decodeStrings_cons {rest : Bytes} (ho : offset ≤ data.length)
    (hd : data.drop offset = encodeString s ++ rest) :
    let len := (asBytes s).length % UInt32.size
    decodeStrings data offset (true :: validity) = do
      return .string (fromUtf8Lossy ((asBytes s).take len)) ::
        (← decodeStrings data (offset + 4 + len) validity) := by
  intro len
  rw [encodeString, encodePrefixed, append_assoc] at hd
  have hl := congrArg length hd
  rw [length_drop, length_append, length_encodeLE] at hl
  have hlen : range data offset 4 = .ok (encodeLE 4 (asBytes s).length) :=
    range_of_drop hd (length_encodeLE ..) ho
  have hle : len ≤ (asBytes s).length := Nat.mod_le ..
  have hdrop : data.drop (offset + 4) =
      (asBytes s).take len ++ ((asBytes s).drop len ++ rest) := by
    rw [← append_assoc, take_append_drop, ← drop_drop, hd]
    exact drop_left' (length_encodeLE ..)
  have hbytes : range data (offset + 4) len = .ok ((asBytes s).take len) :=
    range_of_drop hdrop (length_take_of_le hle) (by omega)
  have hfrom : fromLE (encodeLE 4 (asBytes s).length) = len := fromLE_encodeLE ..
  rw [decodeStrings, hlen]
  simp only [Except.map, bind, Except.bind, hfrom, hbytes]

theorem decodeStrings_iff (ho : offset ≤ data.length)
    (hd : data.drop offset = (replicate n (encodeString "")).flatten ++
      (cells.map (·.getD "")).flatMap encodeString) :
    decodeStrings data offset (cells.map (·.isSome)) = .ok (cells.map string.value) ↔
      Aligned n cells := by
  induction cells generalizing offset n
  case nil => simp [decodeStrings, Aligned]
  case cons c cells hi =>
    cases c
    case none =>
      have hd' : data.drop offset = (replicate (n + 1) (encodeString "")).flatten ++
          (cells.map (·.getD "")).flatMap encodeString := by
        rw [hd, replicate_succ']
        simp
      rw [Aligned, ← hi ho hd', map_cons, Option.isSome_none, decodeStrings, map_cons,
        cons_bind_eq_ok]
      exact and_iff_right rfl
    case some s =>
      rw [map_cons, map_cons, Option.isSome_some]
      cases n
      case zero =>
        -- the string in front is the one that is wanted
        have hd₀ : data.drop offset = encodeString s ++
            (cells.map (·.getD "")).flatMap encodeString := hd
        have hl := congrArg length hd₀
        rw [length_drop, length_append, length_encodeString] at hl
        rw [decodeStrings_cons ho hd₀, cons_bind_eq_ok, Aligned, value, string,
          Value.string.injEq, fromUtf8Lossy_take_eq_iff]
        refine and_congr_right fun hs => ?_
        rw [Nat.mod_eq_of_lt hs]
        refine hi (by omega) ?_
        rw [Nat.add_assoc, ← length_encodeString, ← drop_drop, hd₀, drop_left]
        rfl
      case succ n =>
        -- the slot of a NULL is in front
        have hd₁ : data.drop offset = encodeString "" ++
            ((replicate n (encodeString "")).flatten ++ (encodeString s ++
              (cells.map (·.getD "")).flatMap encodeString)) := by
          rw [hd, replicate_succ, flatten_cons]
          rfl
        have hl := congrArg length hd₁
        rw [length_drop, length_append, length_encodeString] at hl
        have hempty : (asBytes "").length % UInt32.size = 0 := rfl
        rw [decodeStrings_cons ho hd₁, cons_bind_eq_ok, Aligned, value, string,
          Value.string.injEq, hempty, take_zero, fromUtf8Lossy_nil, eq_comm]
        refine and_congr_right fun hs => ?_
        subst hs
        refine hi (by omega) ?_
        have hslot : (encodeString "").length = 4 + 0 := length_encodeString ""
        rw [Nat.add_assoc, ← drop_drop, hd₁, drop_left' hslot, replicate_succ']
        simp

theorem length_decodeStrings (h : decodeStrings data offset validity = .ok values) :
    values.length = validity.length := by
  induction validity generalizing offset values
  case nil =>
    cases h
    rfl
  case cons b validity hi =>
    cases b
    case false =>
      obtain ⟨rest, hr, he⟩ := bind_eq_ok_iff.mp h
      cases he
      rw [length_cons, length_cons, hi hr]
    case true =>
      obtain ⟨len, -, h⟩ := bind_eq_ok_iff.mp h
      obtain ⟨bytes, -, h⟩ := bind_eq_ok_iff.mp h
      obtain ⟨rest, hr, he⟩ := bind_eq_ok_iff.mp h
      cases he
      rw [length_cons, length_cons, hi hr]

end Strings

section Column

def layout (validity : List Bool) (body : Bytes) : Bytes :=
  encodePrefixed (validity.flatMap encodeBool) ++ body

-- As many rows are read as the length says, of which only four bytes are written.
def readRows (validity : List Bool) : ℕ :=
  validity.length % UInt32.size

theorem readRows_le (validity : List Bool) : readRows validity ≤ validity.length :=
  Nat.mod_le ..

theorem readRows_eq_iff : readRows validity = validity.length ↔ validity.length < UInt32.size :=
  Nat.mod_eq_iff_lt (by decide)

theorem drop_four_layout : (layout validity body).drop 4 = validity.flatMap encodeBool ++ body := by
  rw [layout, encodePrefixed, append_assoc, drop_left' (length_encodeLE ..)]

theorem length_layout : (layout validity body).length = 4 + validity.length + body.length := by
  rw [layout, encodePrefixed, length_append, length_append, length_encodeLE,
    length_flatMap_encodeBool]

theorem drop_layout : (layout validity body).drop (4 + readRows validity) =
    (validity.flatMap encodeBool).drop (readRows validity) ++ body := by
  have hle : readRows validity ≤ (validity.flatMap encodeBool).length :=
    length_flatMap_encodeBool validity ▸ readRows_le validity
  rw [← drop_drop, drop_four_layout, drop_append_of_le_length hle]

theorem le_length_layout : 4 + readRows validity ≤ (layout validity body).length := by
  have hle := readRows_le validity
  rw [length_layout]
  omega

variable {k : Kind dataType α} {values : List Value}

-- The values come back, unless a string other than the empty one stands behind a NULL, or there
-- are too many rows or bytes in a string for the lengths that are written.
def Faithful (v : Vector) : Prop :=
  v.len < UInt32.size ∧ ∀ strings, v.data = .string strings →
    (v.validity.zip strings).Pairwise (fun a b => a.1 = false → b.1 = true → b.2 = "") ∧
    ∀ s, (true, s) ∈ v.validity.zip strings → (asBytes s).length < UInt32.size

theorem faithful_string_iff {cells : List (Option String)} :
    Faithful (string.vector cells) ↔ cells.length < UInt32.size ∧ Aligned 0 cells := by
  rw [aligned_zero_iff]
  refine and_congr_right fun _ => ?_
  have hz : ∀ strings, (string.vector cells).data = .string strings →
      (string.vector cells).validity.zip strings =
        cells.map fun c => (c.isSome, c.getD "") := by
    intro strings he
    obtain rfl := VectorData.string.inj he
    exact zip_map' ..
  have hmem (s : String) : (true, s) ∈ cells.map (fun c => (c.isSome, c.getD "")) ↔
      some s ∈ cells := by
    rw [mem_map]
    constructor
    · rintro ⟨c, hc, he⟩
      cases c <;> cases he
      exact hc
    · exact fun hs => ⟨some s, hs, rfl⟩
  constructor
  · intro h
    obtain ⟨hp, hs⟩ := h (cells.map (·.getD "")) rfl
    rw [hz (cells.map (·.getD "")) rfl] at hs
    rw [hz (cells.map (·.getD "")) rfl, pairwise_map] at hp
    refine ⟨hp.imp ?_, fun s hc => hs s ((hmem s).mpr hc)⟩
    rintro c c' hcc rfl s rfl
    exact hcc rfl rfl
  · rintro ⟨hp, hs⟩ strings he
    rw [hz _ he, pairwise_map]
    refine ⟨hp.imp ?_, fun s hc => hs s ((hmem s).mp hc)⟩
    intro c c' hcc hn hv
    cases c <;> cases c'
    case none.some s => exact hcc rfl s rfl
    case none.none | some.none => cases hv
    case some.some => cases hn

theorem string_value_of_cell {value : Value} (h : string.cell value = some c) :
    string.value c = value := by
  cases value <;> cases h <;> rfl

theorem map_value_of_mapM_cell (h : values.mapM string.cell = some cs) :
    cs.map string.value = values := by
  induction values generalizing cs
  case nil =>
    cases h
    rfl
  case cons v values hi =>
    rw [mapM_cons] at h
    obtain ⟨c, hc, h⟩ := Option.bind_eq_some_iff.mp h
    obtain ⟨rest, hr, h⟩ := Option.bind_eq_some_iff.mp h
    cases h
    rw [map_cons, hi hr, string_value_of_cell hc]

theorem lt_of_holds {cs : List (Option α)} (h : (k.vector cells).Holds (cs.map k.value))
    (hl : cs.length = readRows (cells.map (·.isSome))) : cells.length < UInt32.size := by
  have he : cells.length = cs.length := h.len_eq.trans (length_map _)
  rw [← length_map (·.isSome), ← readRows_eq_iff, ← hl, length_map, he]

variable [LossyUtf8]

theorem decodeColumn_layout (dataType : DataType) :
    decodeColumn ⟨dataType, layout validity body⟩ = (do
      let values ← decodeValues ⟨dataType, layout validity body⟩ (4 + readRows validity)
        (validity.take (readRows validity))
      values.foldlM Vector.push (.new dataType)) := by
  have hle : readRows validity ≤ (validity.flatMap encodeBool).length :=
    length_flatMap_encodeBool validity ▸ readRows_le validity
  have hd₀ : (layout validity body).drop 0 =
      encodeLE 4 validity.length ++ (validity.flatMap encodeBool ++ body) := by
    rw [drop_zero, layout, encodePrefixed, append_assoc, length_flatMap_encodeBool]
  have hd₄ : (layout validity body).drop 4 =
      (validity.flatMap encodeBool).take (readRows validity) ++
        ((validity.flatMap encodeBool).drop (readRows validity) ++ body) := by
    rw [drop_four_layout, ← append_assoc, take_append_drop]
  have hlen : range (layout validity body) 0 4 = .ok (encodeLE 4 validity.length) :=
    range_of_drop hd₀ (length_encodeLE ..) (Nat.zero_le _)
  have hbits : range (layout validity body) 4 (readRows validity) =
      .ok ((validity.flatMap encodeBool).take (readRows validity)) :=
    range_of_drop hd₄ (length_take_of_le hle) (by rw [length_layout]; omega)
  have hfrom : fromLE (encodeLE 4 validity.length) = readRows validity := fromLE_encodeLE ..
  rw [decodeColumn, hlen]
  simp only [Except.map, bind, Except.bind, hfrom, hbits, map_take, flatMap_encodeBool]

-- What comes back of a column, and what is wrong with the column if it is something else.
structure ReadsBack (v : Vector) (chunk : ColumnChunk) : Prop where
  eq_of_faithful : Faithful v → decodeColumn chunk = .ok v
  holds : ∀ {w}, decodeColumn chunk = .ok w → ∃ values, w.Holds values ∧
    values.length ≤ v.len ∧ (v.Holds values → Faithful v)

def stringLayout (cells : List (Option String)) : Bytes :=
  layout (cells.map (·.isSome)) ((cells.map (·.getD "")).flatMap encodeString)

theorem decodeStrings_layout_iff {cells : List (Option String)} (hl : cells.length < UInt32.size) :
    decodeStrings (stringLayout cells) (4 + readRows (cells.map (·.isSome)))
      ((cells.map (·.isSome)).take (readRows (cells.map (·.isSome)))) =
        .ok (cells.map string.value) ↔ Aligned 0 cells := by
  have hr : readRows (cells.map (·.isSome)) = (cells.map (·.isSome)).length :=
    readRows_eq_iff.mpr (by simpa using hl)
  have hd : (stringLayout cells).drop (4 + readRows (cells.map (·.isSome))) =
      (cells.map (·.getD "")).flatMap encodeString := by
    rw [stringLayout, drop_layout, hr, drop_of_length_le, nil_append]
    exact (length_flatMap_encodeBool _).le
  rw [← decodeStrings_iff le_length_layout hd, hr, take_length, stringLayout]

theorem string_readsBack (cells : List (Option String)) :
    ReadsBack (string.vector cells) ⟨.string, stringLayout cells⟩ where
  eq_of_faithful h := by
    obtain ⟨hl, ha⟩ := faithful_string_iff.mp h
    rw [stringLayout, decodeColumn_layout]
    refine bind_eq_ok_iff.mpr ⟨_, (decodeStrings_layout_iff hl).mpr ha, ?_⟩
    exact string.foldlM_push_value cells
  holds {w} h := by
    rw [stringLayout, decodeColumn_layout] at h
    obtain ⟨values, hv, h⟩ := bind_eq_ok_iff.mp h
    obtain ⟨cs, hcs, rfl⟩ := string.eq_vector_of_foldlM_push h
    have hle := readRows_le (cells.map (·.isSome))
    have hl : cs.length = readRows (cells.map (·.isSome)) := by
      rw [length_of_mapM_some hcs, length_decodeStrings hv, length_take_of_le hle]
    refine ⟨_, ⟨_, _, string, cs, rfl, rfl⟩, by simpa [hl, vector] using hle, fun hh => ?_⟩
    have hlt := lt_of_holds hh hl
    refine faithful_string_iff.mpr ⟨hlt, (decodeStrings_layout_iff hlt).mp ?_⟩
    rw [Vector.Holds.unique ⟨_, _, string, cells, rfl, rfl⟩ hh, map_value_of_mapM_cell hcs]
    exact hv

variable [Json]

namespace Fixed

variable (f : Fixed k)

theorem encodeColumn : encodeColumn (k.vector cells) =
    .ok ⟨dataType, layout (cells.map (·.isSome))
      ((cells.map (·.getD k.default)).flatMap f.enc)⟩ := by
  rw [Columnar.encodeColumn, vector, f.encode]
  rfl

theorem length_of_decodeValues (f : Fixed k)
    (h : decodeValues ⟨dataType, data⟩ offset validity = .ok values) :
    values.length = validity.length := by
  rw [f.decode, decodeFixed, mapM_eq_ok_iff] at h
  rw [← h.length_eq, length_zipIdx]

theorem decodeColumn (hl : cells.length < UInt32.size) : decodeColumn
    ⟨dataType, layout (cells.map (·.isSome)) ((cells.map (·.getD k.default)).flatMap f.enc)⟩ =
      .ok (k.vector cells) := by
  have hr : readRows (cells.map (·.isSome)) = cells.length := by
    rw [readRows_eq_iff.mpr (by simpa using hl), length_map]
  have hv : (cells.map (·.isSome)).take cells.length = cells.map (·.isSome) :=
    take_of_length_le (by simp)
  have hb : (encodePrefixed ((cells.map (·.isSome)).flatMap encodeBool)).length =
      4 + cells.length + 0 * f.width := by
    rw [encodePrefixed, length_append, length_encodeLE, length_flatMap_encodeBool,
      length_map, Nat.zero_mul, Nat.add_zero]
  have hd := mapM_readFixed f.length f.dec_enc
    (show layout (cells.map (·.isSome)) ((cells.map (·.getD k.default)).flatMap f.enc) = _ from rfl)
    hb
  rw [decodeColumn_layout, f.decode, decodeFixed, hr, hv, hd]
  exact k.foldlM_push_value cells

end Fixed

theorem Fixed.faithful_iff (f : Fixed k) : Faithful (k.vector cells) ↔ cells.length < UInt32.size :=
  and_iff_left fun strings h => (f.wrap_ne _ strings h).elim

theorem Fixed.readsBack (f : Fixed k) (cells : List (Option α)) : ReadsBack (k.vector cells)
    ⟨dataType, layout (cells.map (·.isSome)) ((cells.map (·.getD k.default)).flatMap f.enc)⟩ where
  eq_of_faithful h := f.decodeColumn (f.faithful_iff.mp h)
  holds {w} h := by
    rw [decodeColumn_layout] at h
    obtain ⟨values, hv, h⟩ := bind_eq_ok_iff.mp h
    obtain ⟨cs, hcs, rfl⟩ := k.eq_vector_of_foldlM_push h
    have hl : cs.length = readRows (cells.map (·.isSome)) := by
      rw [length_of_mapM_some hcs, f.length_of_decodeValues hv, length_take_of_le (readRows_le _)]
    have hr := readRows_le (cells.map (·.isSome))
    refine ⟨_, ⟨_, _, k, cs, rfl, rfl⟩, by simpa [hl, vector] using hr, fun hh => ?_⟩
    exact f.faithful_iff.mpr (lt_of_holds hh hl)

def Storable (dataType : DataType) : Prop :=
  dataType ∈ [.boolean, .int32, .int64, .float64, .date, .timestamp, .string]

def Built (v : Vector) : Prop :=
  Storable v.dataType ∧ ∃ values : List Value, values.foldlM Vector.push (.new v.dataType) = .ok v

namespace Built

theorem encodeColumn_fixed (k : Kind dataType α) (f : Fixed k) (h : Built v)
    (hd : v.dataType = dataType) : ∃ chunk values, v.Holds values ∧
      encodeColumn v = .ok chunk ∧ ReadsBack v chunk := by
  obtain ⟨values, hv⟩ := h.2
  rw [hd] at hv
  obtain ⟨cells, -, rfl⟩ := k.eq_vector_of_foldlM_push hv
  exact ⟨_, _, ⟨_, _, k, cells, rfl, rfl⟩, f.encodeColumn, f.readsBack cells⟩

theorem exists_readsBack (h : Built v) : ∃ chunk values, v.Holds values ∧
    encodeColumn v = .ok chunk ∧ ReadsBack v chunk := by
  have hs := h.1
  simp only [Storable, mem_cons, not_mem_nil, or_false] at hs
  obtain hd | hd | hd | hd | hd | hd | hd := hs
  · exact h.encodeColumn_fixed boolean .boolean hd
  · exact h.encodeColumn_fixed int32 .int32 hd
  · exact h.encodeColumn_fixed int64 .int64 hd
  · exact h.encodeColumn_fixed float64 .float64 hd
  · exact h.encodeColumn_fixed date .date hd
  · exact h.encodeColumn_fixed timestamp .timestamp hd
  · obtain ⟨values, hv⟩ := h.2
    rw [hd] at hv
    obtain ⟨cells, -, rfl⟩ := string.eq_vector_of_foldlM_push hv
    exact ⟨_, _, ⟨_, _, string, cells, rfl, rfl⟩, rfl, string_readsBack cells⟩

end Built

end Column

end Columnar
