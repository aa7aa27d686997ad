import AppliedCs.Cache.Resp
import AppliedCs.Lib.Stream

namespace Cache

open Codec Text RespParser List

section Numbers

variable {n : ℕ} {z : ℤ}

theorem isDigit_of_mem (h : c ∈ (toString n).toList) : c.isDigit := by
  rw [Nat.toString_eq_ofList_toDigits, String.toList_ofList] at h
  exact Nat.isDigit_of_mem_toDigits (by decide) (by decide) h

theorem parseDigits_toString (n : ℕ) : parseDigits (toString n).toList = some n := by
  have hall : (toString n).toList.all Char.isDigit := all_eq_true.mpr fun _ => isDigit_of_mem
  have heq : (toString n).toList = Nat.toDigits 10 n := by
    rw [Nat.toString_eq_ofList_toDigits, String.toList_ofList]
  rw [parseDigits, if_pos ⟨heq ▸ Nat.toDigits_ne_nil, hall⟩, heq, Nat.ofDigitChars_ten_toDigits]

theorem parseSigned_toString (z : ℤ) : parseSigned (toString z).toList = some z := by
  cases z
  case ofNat n =>
    change parseSigned (toString n).toList = _
    have hd := parseDigits_toString n
    have hm := @isDigit_of_mem n
    generalize (toString n).toList = digits at hd hm
    unfold parseSigned
    split
    · exact absurd (hm (mem_cons_self ..)) (by decide)
    · exact absurd (hm (mem_cons_self ..)) (by decide)
    · rw [hd]; rfl
  case negSucc n =>
    change parseSigned ("-" ++ toString (n + 1)).toList = _
    rw [String.toList_append, show "-".toList = ['-'] from rfl, singleton_append, parseSigned,
      parseDigits_toString]
    rfl

theorem mem_toString (h : c ∈ (toString z).toList) : c.isDigit ∨ c = '-' := by
  cases z
  case ofNat n => exact .inl (isDigit_of_mem (n := n) h)
  case negSucc n =>
    change c ∈ ("-" ++ toString (n + 1)).toList at h
    rw [String.toList_append] at h
    rcases mem_append.mp h with h | h
    case inl => exact .inr (mem_singleton.mp h)
    case inr => exact .inl (isDigit_of_mem h)

theorem cr_notMem_toString : 0x0D ∉ asBytes (toString z) := by
  have hr {c : Char} (h : c ∈ (toString z).toList) : 0x2D ≤ c.val ∧ c.val ≤ 0x39 := by
    rcases mem_toString h with h | rfl
    case inl =>
      rw [Char.isDigit, Bool.and_eq_true, decide_eq_true_iff, decide_eq_true_iff] at h
      exact ⟨UInt32.le_trans (by decide) h.1, h.2⟩
    case inr => decide
  rw [asBytes_of_ascii fun c h => UInt32.le_trans (hr h).2 (by decide), mem_map]
  rintro ⟨c, hc, hv⟩
  have h := hr hc
  have hn : c.val.toNat % 256 = 13 := congrArg UInt8.toNat hv
  simp only [UInt32.le_iff_toNat_le, UInt32.reduceToNat] at h
  omega

theorem parseNumber_toString (h₁ : Int64.minValue.toInt ≤ z) (h₂ : z ≤ Int64.maxValue.toInt) :
    parseNumber (asBytes (toString z)) = .ok (.ofInt z) := by
  have hi : parseI64 (toString z) = some (.ofInt z) := by
    rw [parseI64, parseSigned_toString, Option.bind_some, if_pos ⟨h₁, h₂⟩]
  simp only [parseNumber, fromUtf8, fromUTF8?_asBytes, bind, Except.bind, hi]

end Numbers

section Lines

variable {line bs : Bytes}

theorem not_crlf_of_cons (h : ¬ crlf <:+: b :: line) : ¬ crlf <:+: line :=
  fun h' => h (h'.trans (suffix_cons b line).isInfix)

theorem findCrlf_eq_none (h : ¬ crlf <:+: bs) : findCrlf bs = none := by
  induction bs
  case nil => rfl
  case cons b bs hi =>
    rw [findCrlf, if_neg fun h' => h h'.isInfix, hi (not_crlf_of_cons h), Option.map_none]

theorem findCrlf_append (h : ¬ crlf <:+: line) :
    findCrlf (line ++ (crlf ++ rest)) = some (line, rest) := by
  induction line
  case nil => rfl
  case cons b line hi =>
    have hne : ¬ crlf <+: b :: (line ++ (crlf ++ rest)) := by
      rw [crlf, cons_prefix_cons]
      rintro ⟨rfl, h'⟩
      cases line
      case nil => exact absurd (cons_prefix_cons.mp h').1 (by decide)
      case cons c line =>
        rw [cons_append, cons_prefix_cons] at h'
        exact h ⟨[], line, by rw [← h'.1]; rfl⟩
    rw [cons_append, findCrlf, if_neg hne, hi (not_crlf_of_cons h), Option.map_some]

theorem not_crlf_of_part (h : ¬ crlf <:+: line) (hp : bs <+: line ++ crlf)
    (hne : bs ≠ line ++ crlf) : ¬ crlf <:+: bs := by
  have heq : line ++ crlf = (line ++ [0x0D]) ++ [0x0A] := by rw [append_assoc]; rfl
  rw [heq] at hp hne
  have hp := (prefix_concat_iff.mp hp).resolve_left hne
  refine fun hc => ?_
  rcases infix_concat_iff.mp (hc.trans hp.isInfix) with hs | hc
  case inl =>
    obtain ⟨t, ht⟩ := hs
    have hl := congrArg getLast? ht
    simp [crlf] at hl
  case inr => exact h hc

variable {α : Type} {read : Bytes → Except ParseError α}

theorem parseLine_append (h : ¬ crlf <:+: line) (hr : read line = .ok a) :
    parseLine read (line ++ (crlf ++ rest)) = .ok (some (a, rest)) := by
  simp only [parseLine, findCrlf_append h, hr]
  rfl

theorem parseLine_part (h : ¬ crlf <:+: line) (hp : bs <+: line ++ crlf) (hne : bs ≠ line ++ crlf) :
    parseLine read bs = .ok none := by
  rw [parseLine, findCrlf_eq_none (not_crlf_of_part h hp hne)]

end Lines

namespace RespValue

-- No line holds a line break, and lengths fit into 64 bits with a sign, as those of vectors do.
mutual

def Valid : RespValue → Prop
  | simpleString s => ¬ crlf <:+: Text.asBytes s
  | error s => ¬ crlf <:+: Text.asBytes s
  | bulkString (some data) => data.length ≤ Int64.maxValue.toInt
  | array (some items) => items.length ≤ Int64.maxValue.toInt ∧ ValidAll items
  | _ => True

def ValidAll : List RespValue → Prop
  | [] => True
  | item :: items => item.Valid ∧ ValidAll items

end

end RespValue

open RespValue

section Header

variable {z : ℤ}

theorem not_crlf_toString : ¬ crlf <:+: asBytes (toString z) :=
  fun h => cr_notMem_toString <| h.subset (mem_cons_self ..)

theorem parseLine_number (h₁ : Int64.minValue.toInt ≤ z) (h₂ : z ≤ Int64.maxValue.toInt) :
    parseLine parseNumber (asBytes (toString z) ++ (crlf ++ rest)) = .ok (some (.ofInt z, rest)) :=
  parseLine_append not_crlf_toString (parseNumber_toString h₁ h₂)

structure IsLength (len : Int64) (n : ℕ) : Prop where
  ne : len ≠ -1
  nonneg : ¬ len < 0
  toNat : len.toInt.toNat = n

theorem isLength_ofInt {n : ℕ} (h : n ≤ Int64.maxValue.toInt) : IsLength (.ofInt n) n := by
  have hn : (Int64.ofInt n).toInt = n :=
    Int64.toInt_ofInt_of_le (by omega) (by rw [Int64.toInt_maxValue] at h; omega)
  refine ⟨fun he => ?_, fun hlt => ?_, by rw [hn, Int.toNat_natCast]⟩
  · have := hn.symm.trans (congrArg Int64.toInt he)
    rw [show (-1 : Int64).toInt = -1 from rfl] at this
    omega
  · rw [Int64.lt_iff_toInt_lt, hn, show (0 : Int64).toInt = 0 from rfl] at hlt
    omega

end Header

section Scalars

theorem fromUtf8_asBytes : fromUtf8 (asBytes s) = .ok s := by
  rw [fromUtf8, fromUTF8?_asBytes]

theorem parseSimpleString_append (h : ¬ crlf <:+: asBytes s) :
    parseSimpleString (asBytes s ++ (crlf ++ rest)) = .ok (some (.simpleString s, rest)) := by
  rw [parseSimpleString, parseLine_append h fromUtf8_asBytes]
  rfl

theorem parseError_append (h : ¬ crlf <:+: asBytes s) :
    parseError (asBytes s ++ (crlf ++ rest)) = .ok (some (.error s, rest)) := by
  rw [parseError, parseLine_append h fromUtf8_asBytes]
  rfl

theorem parseInteger_append (i : Int64) :
    parseInteger (asBytes (toString i.toInt) ++ (crlf ++ rest)) =
      .ok (some (.integer i, rest)) := by
  rw [parseInteger, parseLine_number i.minValue_le_toInt i.toInt_le, Int64.ofInt_toInt]
  rfl

theorem parseLine_null : parseLine parseNumber (asBytes "-1" ++ (crlf ++ rest)) =
    .ok (some (-1, rest)) :=
  parseLine_number (z := -1) (by decide) (by decide)

theorem parseLine_length {n : ℕ} (h : n ≤ Int64.maxValue.toInt) :
    parseLine parseNumber (asBytes (toString n) ++ (crlf ++ rest)) = .ok (some (.ofInt n, rest)) :=
  parseLine_number (z := n) (by rw [Int64.toInt_minValue]; omega) h

theorem parseBulkString_null :
    parseBulkString (asBytes "-1" ++ (crlf ++ rest)) = .ok (some (.bulkString none, rest)) := by
  rw [parseBulkString, parseLine_null]
  rfl

-- What a complete header is followed by decides.
theorem parseBulkString_header {n : ℕ} (h : n ≤ Int64.maxValue.toInt) :
    parseBulkString (asBytes (toString n) ++ (crlf ++ rest)) =
      .ok (if rest.length < n + 2 then none
        else some (.bulkString (some (rest.take n)), rest.drop (n + 2))) := by
  have hl := isLength_ofInt h
  rw [parseBulkString, parseLine_length h]
  simp only [bind, Except.bind, if_neg hl.ne, if_neg hl.nonneg, hl.toNat]
  split <;> rfl

theorem parseArray_null {parseValue : Bytes → Except ParseError (Parsed RespValue)} :
    parseArray parseValue (asBytes "-1" ++ (crlf ++ rest)) = .ok (some (.array none, rest)) := by
  rw [parseArray, parseLine_null]
  rfl

theorem parseArray_header {parseValue : Bytes → Except ParseError (Parsed RespValue)} {n : ℕ}
    (h : n ≤ Int64.maxValue.toInt) :
    parseArray parseValue (asBytes (toString n) ++ (crlf ++ rest)) =
      (parseItems parseValue n rest).map fun r => r.map fun p => (.array (some p.1), p.2) := by
  have hl := isLength_ofInt h
  rw [parseArray, parseLine_length h]
  simp only [bind, Except.bind, if_neg hl.ne, if_neg hl.nonneg, hl.toNat]
  cases parseItems parseValue n rest <;> rfl

end Scalars

theorem serialize_pos (v : RespValue) : 0 < v.serialize.length := by
  rcases v with _ | _ | _ | (_ | _) | (_ | _) <;> exact Nat.succ_pos _

-- A value is read back, whatever follows.
mutual

theorem parseValue_serialize : ∀ (v : RespValue), v.Valid → ∀ {depth : ℕ} {rest : Bytes},
    v.serialize.length ≤ depth → parseValue depth (v.serialize ++ rest) = .ok (some (v, rest))
  | v, _, 0, _, hd => absurd hd (Nat.not_le.mpr (serialize_pos v))
  | .simpleString s, hv, depth + 1, rest, _ => by
    rw [serialize, cons_append, append_assoc]
    exact parseSimpleString_append hv
  | .error s, hv, depth + 1, rest, _ => by
    rw [serialize, cons_append, append_assoc]
    exact parseError_append hv
  | .integer i, _, depth + 1, rest, _ => by
    rw [serialize, cons_append, append_assoc]
    exact parseInteger_append i
  | .bulkString none, _, depth + 1, rest, _ => by
    rw [serialize, cons_append, append_assoc]
    exact parseBulkString_null
  | .bulkString (some data), hv, depth + 1, rest, _ => by
    rw [serialize, cons_append, append_assoc, append_assoc]
    refine (parseBulkString_header hv).trans ?_
    have hlen : (data ++ crlf).length = data.length + 2 := length_append
    have hle : ¬ (data ++ crlf ++ rest).length < data.length + 2 := by
      rw [length_append, hlen]
      omega
    rw [if_neg hle, ← hlen, drop_left, append_assoc, take_left]
  | .array none, _, depth + 1, rest, _ => by
    rw [serialize, cons_append, append_assoc]
    exact parseArray_null
  | .array (some items), hv, depth + 1, rest, hd => by
    have hd : (serializeAll items).length ≤ depth := by
      simp only [serialize, length_cons, length_append] at hd
      omega
    rw [serialize, cons_append, append_assoc, append_assoc]
    refine (parseArray_header hv.1).trans ?_
    rw [parseItems_serializeAll items hv.2 hd]
    rfl

theorem parseItems_serializeAll : ∀ (items : List RespValue), ValidAll items → ∀ {depth : ℕ}
    {rest : Bytes}, (serializeAll items).length ≤ depth →
      parseItems (parseValue depth) items.length (serializeAll items ++ rest) =
        .ok (some (items, rest))
  | [], _, _, _, _ => rfl
  | item :: items, hv, depth, rest, hd => by
    rw [serializeAll, length_append] at hd
    have hi : parseValue depth (item.serialize ++ (serializeAll items ++ rest)) = _ :=
      parseValue_serialize item hv.1 (by omega)
    have his : parseItems (parseValue depth) items.length (serializeAll items ++ rest) = _ :=
      parseItems_serializeAll items hv.2 (by omega)
    rw [serializeAll, append_assoc, length_cons, parseItems, hi]
    simp only [bind, Except.bind, his]
    rfl

end

section Parts

variable {bs : Bytes}

theorem parseValue_nil : parseValue depth [] = .ok none := by
  cases depth <;> rfl

-- Of a part of the bytes, either none is there or the first one has told what follows.
theorem parseValue_part_of {body : Bytes} (parse : ℕ → Bytes → Except ParseError (Parsed RespValue))
    (hparse : ∀ depth rest, parseValue (depth + 1) (byte :: rest) = parse depth rest)
    (h : ∀ {depth bs}, bs <+: body → bs ≠ body → bs.length ≤ depth → parse depth bs = .ok none)
    (hp : bs <+: byte :: body) (hne : bs ≠ byte :: body) (hd : bs.length ≤ depth) :
    parseValue depth bs = .ok none := by
  rcases prefix_cons_iff.mp hp with rfl | ⟨t, rfl, ht⟩
  case inl => exact parseValue_nil
  case inr =>
    cases depth
    case zero => exact absurd hd (Nat.not_succ_le_zero _)
    case succ depth =>
      rw [hparse]
      exact h ht (fun he => hne (he ▸ rfl)) (Nat.le_of_succ_le_succ hd)

theorem parseBulkString_part {data : Bytes} (hv : data.length ≤ Int64.maxValue.toInt)
    (hp : bs <+: asBytes (toString data.length) ++ (crlf ++ (data ++ crlf)))
    (hne : bs ≠ asBytes (toString data.length) ++ (crlf ++ (data ++ crlf))) :
    parseBulkString bs = .ok none := by
  rw [← append_assoc] at hp hne
  rcases prefix_append_cases hp hne with ⟨hp, hne⟩ | ⟨t, rfl, ht, htne⟩
  case inl =>
    rw [parseBulkString, parseLine_part (not_crlf_toString (z := data.length)) hp hne]
    rfl
  case inr =>
    have hlt : t.length < data.length + 2 := by
      have h := ht.length_le
      have hn : t.length ≠ (data ++ crlf).length := fun he => htne (ht.eq_of_length he)
      rw [length_append] at h hn
      exact Nat.lt_of_le_of_ne h hn
    rw [append_assoc, parseBulkString_header hv, if_pos hlt]

end Parts

-- More bytes are needed as long as the value is not complete.
mutual

theorem parseValue_part : ∀ (v : RespValue), v.Valid → ∀ {depth : ℕ} {bs : Bytes},
    bs <+: v.serialize → bs ≠ v.serialize → bs.length ≤ depth → parseValue depth bs = .ok none
  | .simpleString s, hv, _, _, hp, hne, hd => by
    refine parseValue_part_of (fun _ => parseSimpleString) (fun _ _ => rfl)
      (fun hp hne _ => ?_) hp hne hd
    rw [parseSimpleString, parseLine_part hv hp hne]
    rfl
  | .error s, hv, _, _, hp, hne, hd => by
    refine parseValue_part_of (fun _ => parseError) (fun _ _ => rfl)
      (fun hp hne _ => ?_) hp hne hd
    rw [parseError, parseLine_part hv hp hne]
    rfl
  | .integer i, _, _, _, hp, hne, hd => by
    refine parseValue_part_of (fun _ => parseInteger) (fun _ _ => rfl)
      (fun hp hne _ => ?_) hp hne hd
    rw [parseInteger, parseLine_part not_crlf_toString hp hne]
    rfl
  | .bulkString none, _, _, _, hp, hne, hd => by
    refine parseValue_part_of (fun _ => parseBulkString) (fun _ _ => rfl)
      (fun hp hne _ => ?_) hp hne hd
    rw [parseBulkString, parseLine_part (not_crlf_toString (z := -1)) hp hne]
    rfl
  | .bulkString (some data), hv, _, _, hp, hne, hd =>
    parseValue_part_of (fun _ => parseBulkString) (fun _ _ => rfl)
      (fun hp hne _ => parseBulkString_part hv hp hne) hp hne hd
  | .array none, _, _, _, hp, hne, hd => by
    refine parseValue_part_of (fun depth => parseArray (parseValue depth))
      (fun _ _ => rfl) (fun hp hne _ => ?_) hp hne hd
    rw [parseArray, parseLine_part (not_crlf_toString (z := -1)) hp hne]
    rfl
  | .array (some items), hv, _, _, hp, hne, hd => by
    refine parseValue_part_of (fun depth => parseArray (parseValue depth))
      (fun _ _ => rfl) (fun hp hne hd => ?_) hp hne hd
    rw [← append_assoc] at hp hne
    rcases prefix_append_cases hp hne with ⟨hp, hne⟩ | ⟨t, rfl, ht, htne⟩
    case inl =>
      rw [parseArray, parseLine_part (not_crlf_toString (z := items.length)) hp hne]
      rfl
    case inr =>
      rw [length_append] at hd
      rw [append_assoc, parseArray_header hv.1,
        parseItems_part items hv.2 ht htne (Nat.le_of_add_left_le hd)]
      rfl

theorem parseItems_part : ∀ (items : List RespValue), ValidAll items → ∀ {depth : ℕ} {bs : Bytes},
    bs <+: serializeAll items → bs ≠ serializeAll items → bs.length ≤ depth →
      parseItems (parseValue depth) items.length bs = .ok none
  | [], _, _, _, hp, hne, _ => absurd (prefix_nil.mp hp) hne
  | item :: items, hv, depth, bs, hp, hne, hd => by
    rw [serializeAll] at hp hne
    rcases prefix_append_cases hp hne with ⟨hp, hne⟩ | ⟨t, rfl, ht, htne⟩
    case inl =>
      rw [length_cons, parseItems, parseValue_part item hv.1 hp hne hd]
      rfl
    case inr =>
      rw [length_append] at hd
      rw [length_cons, parseItems, parseValue_serialize item hv.1 (Nat.le_of_add_right_le hd)]
      simp only [bind, Except.bind, parseItems_part items hv.2 ht htne (Nat.le_of_add_left_le hd)]
      rfl

end

section Lines

theorem append_of_findCrlf (h : findCrlf bs = some (line, rest)) : bs = line ++ (crlf ++ rest) := by
  induction bs generalizing line
  case nil => cases h
  case cons b bs hi =>
    rw [findCrlf] at h
    split at h
    case isTrue hp =>
      obtain ⟨t, ht⟩ := hp
      cases h
      cases ht
      rfl
    case isFalse =>
      obtain ⟨p, hp, he⟩ := Option.map_eq_some_iff.mp h
      cases he
      exact congrArg _ (hi hp)

theorem not_crlf_of_findCrlf (h : findCrlf bs = some (line, rest)) : ¬ crlf <:+: line := by
  induction bs generalizing line
  case nil => cases h
  case cons b bs hi =>
    have hpre : line <+: b :: bs := ⟨crlf ++ rest, (append_of_findCrlf h).symm⟩
    rw [findCrlf] at h
    split at h
    case isTrue => cases h; decide
    case isFalse hn =>
      obtain ⟨p, hf, he⟩ := Option.map_eq_some_iff.mp h
      cases he
      intro hc
      rcases infix_cons_iff.mp hc with hp | hc
      case inl => exact hn (hp.trans hpre)
      case inr => exact hi hf hc

end Lines

theorem RespParser.streams : Streams buffer feed parse RespValue.serialize RespValue.Valid where
  feed _ _ := rfl
  empty p h := by
    rw [parse, h, parseValue_nil]
    rfl
  read p v rest hv h := by
    refine ⟨⟨rest⟩, ?_, rfl⟩
    rw [parse, h, parseValue_serialize v hv (by rw [length_append]; exact Nat.le_add_right ..)]
    rfl
  short p v hv hp hne := by
    rw [parse, parseValue_part v hv hp hne (Nat.le_refl _)]
    rfl

-- What the parser returns can be written and read again.
section Returned

variable {α β : Type} {bs : Bytes} {parse : Bytes → Except ParseError (Parsed RespValue)}

theorem parseLine_eq_some {read : Bytes → Except ParseError α}
    (h : parseLine read bs = .ok (some (a, rest))) :
    ∃ line, ¬ crlf <:+: line ∧ read line = .ok a := by
  rw [parseLine] at h
  split at h
  case h_1 => cases h
  case h_2 p hp =>
    cases hr : read p.1 <;> rw [hr] at h <;> cases h
    exact ⟨p.1, not_crlf_of_findCrlf hp, hr⟩

theorem not_crlf_of_parseLine (h : parseLine fromUtf8 bs = .ok (some (s, rest))) :
    ¬ crlf <:+: asBytes s := by
  obtain ⟨line, hl, hs⟩ := parseLine_eq_some h
  rw [fromUtf8] at hs
  split at hs <;> cases hs
  case h_2 hs => rwa [asBytes_of_fromUTF8? hs]

theorem exists_of_map {x : Except ParseError (Option α)} {f : α → β}
    (h : (x >>= fun r => pure (r.map f)) = Except.ok (some b)) :
    ∃ a, x = .ok (some a) ∧ f a = b := by
  obtain _ | _ | a := x <;> cases h
  exact ⟨a, rfl, rfl⟩

theorem valid_of_parseItems (hv : ∀ {bs v rest}, parse bs = .ok (some (v, rest)) → v.Valid)
    (h : parseItems parse n bs = .ok (some (items, rest))) : items.length = n ∧ ValidAll items := by
  induction n generalizing bs items
  case zero => cases h; exact ⟨rfl, trivial⟩
  case succ n hi =>
    rw [parseItems] at h
    rcases hp : parse bs with _ | _ | ⟨v, rest'⟩ <;> rw [hp] at h
    case error | ok.none => cases h
    obtain ⟨q, hq, he⟩ := exists_of_map h
    cases he
    obtain ⟨hl, hi⟩ := hi hq
    exact ⟨congrArg _ hl, hv hp, hi⟩

theorem valid_of_parseBulkString (h : parseBulkString bs = .ok (some (v, rest))) : v.Valid := by
  rw [parseBulkString] at h
  rcases hp : parseLine parseNumber bs with _ | _ | ⟨len, rest'⟩ <;> rw [hp] at h
  case error | ok.none => cases h
  simp only [bind, Except.bind] at h
  split_ifs at h <;> cases h
  case pos => trivial
  case neg =>
    have := len.toInt_le
    rw [Valid, length_take, Int64.toInt_maxValue] at *
    omega

theorem valid_of_parseArray (hv : ∀ {bs v rest}, parse bs = .ok (some (v, rest)) → v.Valid)
    (h : parseArray parse bs = .ok (some (v, rest))) : v.Valid := by
  rw [parseArray] at h
  rcases hp : parseLine parseNumber bs with _ | _ | ⟨len, rest'⟩ <;> rw [hp] at h
  case error | ok.none => cases h
  simp only [bind, Except.bind] at h
  split_ifs at h
  case pos => cases h; trivial
  case neg =>
    obtain ⟨q, hq, he⟩ := exists_of_map h
    cases he
    obtain ⟨hl, hi⟩ := valid_of_parseItems hv hq
    refine ⟨?_, hi⟩
    have := len.toInt_le
    rw [Int64.toInt_maxValue] at *
    omega

theorem valid_of_parseValue (h : parseValue depth bs = .ok (some (v, rest))) : v.Valid := by
  induction depth generalizing bs v rest
  case zero => cases h
  case succ depth hi =>
    cases bs
    case nil => cases h
    case cons byte bs =>
      unfold parseValue at h
      split at h
      · obtain ⟨q, hq, he⟩ := exists_of_map h
        cases he
        exact not_crlf_of_parseLine hq
      · obtain ⟨q, hq, he⟩ := exists_of_map h
        cases he
        exact not_crlf_of_parseLine hq
      · obtain ⟨q, -, he⟩ := exists_of_map h
        cases he
        trivial
      · exact valid_of_parseBulkString h
      · exact valid_of_parseArray hi h
      · cases h

theorem RespParser.valid_of_parse {p p' : RespParser} (h : p.parse = .ok (some (v, p'))) :
    v.Valid := by
  obtain ⟨q, hq, he⟩ := exists_of_map h
  cases he
  exact valid_of_parseValue hq

end Returned

-- However the bytes of some values are cut into chunks, the parser returns these values.
theorem resp_stream_round_trip {values : List RespValue} (hv : ∀ v ∈ values, v.Valid)
    {chunks : List Bytes} (h : chunks.flatten = values.flatMap RespValue.serialize) :
    ∃ p, Feeds feed parse new chunks values p ∧ p.buffer = [] :=
  streams.feeds hv (streams.empty _ rfl) h

-- A nested array with a line break in its data, cut inside of the line breaks, and a text.
theorem resp_stream_round_trip_cut : ∃ p, Feeds feed parse new
      [asBytes "*2\r", asBytes "\n$4\r\na\r", asBytes "\nb\r\n*1\r\n:-7\r\n+O", asBytes "K\r\n"]
      [.array (some [.bulkString (some (asBytes "a\r\nb")), .array (some [.integer (-7)])]),
        .simpleString "OK"] p ∧
      p.buffer = [] := by
  refine resp_stream_round_trip ?_ (by decide +kernel)
  simp only [forall_mem_cons, not_mem_nil, false_implies, implies_true, RespValue.Valid,
    RespValue.ValidAll]
  decide +kernel

end Cache
