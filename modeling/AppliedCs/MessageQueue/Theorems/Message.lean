import AppliedCs.MessageQueue.Message

namespace MessageQueue

open Codec Text List

-- The largest length that keeps its sign.
def maxLength : ℕ := 0x7FFFFFFF

-- A message with the order in which its headers are listed.
abbrev Written := Message × List (String × Bytes)

structure Written.Valid (w : Written) : Prop where
  order : w.2.Perm w.1.headers.entries
  key : ∀ key ∈ w.1.key, key.length ≤ maxLength
  payload : w.1.payload.length ≤ maxLength
  headers : ∀ h ∈ w.2, (asBytes h.1).length ≤ maxLength ∧ h.2.length ≤ maxLength

instance : DecidablePred Written.Valid := fun w =>
  decidable_of_iff (w.2.Perm w.1.headers.entries ∧ (∀ key ∈ w.1.key, key.length ≤ maxLength) ∧
    w.1.payload.length ≤ maxLength ∧
    ∀ h ∈ w.2, (asBytes h.1).length ≤ maxLength ∧ h.2.length ≤ maxLength)
    ⟨fun ⟨h₁, h₂, h₃, h₄⟩ => ⟨h₁, h₂, h₃, h₄⟩, fun h => ⟨h.order, h.key, h.payload, h.headers⟩⟩

namespace Message

theorem asUsize_ofNat (h : n ≤ maxLength) : asUsize (UInt32.ofNat n).toInt32 = n := by
  have hi : (n : ℤ) ≤ Int32.maxValue.toInt := by
    rw [Int32.toInt_maxValue]
    simp only [maxLength] at h
    omega
  rw [asUsize, UInt32.toInt32_ofNat', Int32.toInt64_ofNat' hi]
  exact UInt64.toNat_ofNat_of_lt' (Nat.lt_of_le_of_lt h (by decide))

theorem ofNat_nonneg (h : n ≤ maxLength) : (UInt32.ofNat n).toInt32 ≥ 0 := by
  rw [UInt32.toInt32_ofNat', ge_iff_le, Int32.le_iff_toInt_le, Int32.toInt_ofNat_of_lt]
  · exact Int.natCast_nonneg n
  · exact Nat.lt_of_le_of_lt h (by decide)

theorem takeNumber_append (h : n < 256 ^ w) :
    takeNumber w (encodeBE w n ++ rest) = .ok (n, rest) := by
  rw [takeNumber, decodeBE_inverts w n h]

theorem takeU64_append (n : UInt64) :
    takeNumber 8 (encodeBE 8 n.toNat ++ rest) = .ok (n.toNat, rest) :=
  takeNumber_append (w := 8) n.toNat_lt

theorem takeU32_append (n : UInt32) (rest : Bytes) :
    takeNumber 4 (encodeBE 4 n.toNat ++ rest) = .ok (n.toNat, rest) :=
  takeNumber_append (w := 4) n.toNat_lt

theorem takeI32_append (h : n < UInt32.size) :
    takeI32 (encodeBE 4 n ++ rest) = .ok ((UInt32.ofNat n).toInt32, rest) := by
  rw [takeI32, takeNumber_append h]
  rfl

theorem takeSlice_append : takeSlice bs.length (bs ++ rest) = .ok (bs, rest) := by
  rw [takeSlice, takeBytes_append]

theorem lt_size_of_le (h : n ≤ maxLength) : n < UInt32.size :=
  Nat.lt_of_le_of_lt h (by decide)

theorem takeSized_append (h : bs.length ≤ maxLength) :
    takeSized (encodeSized bs ++ rest) = .ok (bs, rest) := by
  rw [takeSized, encodeSized, append_assoc, takeI32_append (lt_size_of_le h), ok_bind,
    asUsize_ofNat h, takeSlice_append]

theorem takeKey_append (key : Option Bytes) (h : ∀ k ∈ key, k.length ≤ maxLength) :
    takeKey (encodeKey key ++ rest) = .ok (key, rest) := by
  cases key
  case none => rfl
  case some key =>
    have h := h key rfl
    rw [takeKey, encodeKey, encodeSized, append_assoc, takeI32_append (lt_size_of_le h), ok_bind,
      if_pos (ofNat_nonneg h), asUsize_ofNat h, takeSlice_append]
    rfl

theorem takeHeaders_append {order : List (String × Bytes)} {headers : Headers}
    (h : ∀ p ∈ order, (asBytes p.1).length ≤ maxLength ∧ p.2.length ≤ maxLength) :
    takeHeaders headers (order.flatMap encodeHeader ++ rest) order.length =
      .ok (order.foldl (fun m p => m.insert p.1 p.2) headers, rest) := by
  induction order generalizing headers
  case nil => rfl
  case cons p order hi =>
    obtain ⟨hp, ho⟩ := forall_mem_cons.mp h
    rw [flatMap_cons, append_assoc, encodeHeader, append_assoc, length_cons,
      takeHeaders, takeSized_append hp.1]
    simp only [ok_bind, fromUTF8?_asBytes, takeSized_append hp.2, hi ho]
    rfl

theorem takeId_append (id : MessageId) : takeId (id.bytes ++ rest) = .ok (id, rest) := by
  have hl := id.length
  rw [takeId, dif_pos (by rw [length_append, hl]; exact Nat.le_add_right ..)]
  refine congrArg Except.ok (Prod.ext ?_ ?_)
  · simp only [← hl, take_left]
  · simp only [← hl, drop_left]

theorem length_le_of_fields (m : Message) (order : List (String × Bytes)) :
    8 * order.length ≤ (m.encodeFields order).length := by
  have h : 8 * order.length ≤ (order.flatMap encodeHeader).length := by
    induction order
    case nil => exact Nat.zero_le _
    case cons p order hi =>
      simp only [flatMap_cons, length_append, length_cons, encodeHeader, encodeSized,
        length_encodeBE]
      omega
  simp only [encodeFields, length_append, length_cons]
  omega

theorem takeMagic (data : Bytes) : takeNumber 1 (0x01 :: data) = .ok (1, data) :=
  takeNumber_append (w := 1) (n := 1) (by decide)

theorem takeFields_encodeFields {w : Written} (hw : w.Valid)
    (hs : (w.1.encodeFields w.2).length < UInt32.size) :
    takeFields (w.1.encodeFields w.2 ++ rest) = .ok w.1 := by
  obtain ⟨m, order⟩ := w
  have hlen : m.headers.entries.length = order.length := hw.order.length_eq.symm
  have hcount : order.length ≤ maxLength := by
    have := length_le_of_fields m order
    simp only [maxLength, UInt32.size] at hs ⊢
    omega
  simp only [encodeFields, cons_append, append_assoc]
  rw [takeFields, takeMagic, ok_bind, if_neg (not_not_intro rfl)]
  simp only [takeId_append, ok_bind, takeKey_append m.key hw.key, takeSized_append hw.payload, hlen,
    takeI32_append (lt_size_of_le hcount), asUsize_ofNat hcount, takeHeaders_append hw.headers,
    takeU64_append, takeU32_append]
  simp only [SortedMap.foldl_insert_perm hw.order, UInt64.ofNat_toNat, UInt32.ofNat_toNat]
  rfl

theorem deserialize_eq_takeFields [Checksum] (m : Message) (order : List (String × Bytes)) :
    deserialize (m.serialize order) = takeFields (m.serialize order) := by
  have hlen : (m.serialize order).length = (m.encodeFields order).length + 4 := by
    rw [serialize, length_append, length_encodeBE]
  have hcrc := takeU32_append (Checksum.crc32 (m.encodeFields order)) []
  have hpos : 0 < (m.encodeFields order).length := Nat.succ_pos _
  rw [append_nil] at hcrc
  rw [deserialize, if_neg (by omega), hlen, Nat.add_sub_cancel]
  simp only [serialize, drop_left, take_left]
  rw [hcrc, ok_bind, if_neg (not_not_intro rfl)]

theorem deserialize_serialize [Checksum] {w : Written} (hw : w.Valid)
    (hs : (w.1.serialize w.2).length < UInt32.size) :
    deserialize (w.1.serialize w.2) = .ok w.1 := by
  rw [deserialize_eq_takeFields]
  refine takeFields_encodeFields hw ?_
  rw [serialize, length_append] at hs
  omega

theorem asUsize_long (h : maxLength < n) (hs : n < UInt32.size) :
    UInt32.size ≤ asUsize (UInt32.ofNat n).toInt32 := by
  have hb : asUsize (UInt32.ofNat n).toInt32 = ((BitVec.ofNat 32 n).signExtend 64).toNat := rfl
  have hn : (BitVec.ofNat 32 n).toNat = n := BitVec.toNat_ofNat .. |>.trans (Nat.mod_eq_of_lt hs)
  have hm : (BitVec.ofNat 32 n).msb = true := by
    rw [BitVec.msb_eq_decide, hn]
    exact decide_eq_true h
  rw [hb, BitVec.toNat_signExtend, hm]
  exact Nat.le_add_left_of_le (by decide)

theorem takeSized_long (h : maxLength < bs.length)
    (hs : (encodeSized bs ++ rest).length < UInt32.size) :
    takeSized (encodeSized bs ++ rest) = .error .panic := by
  rw [encodeSized, length_append, length_append] at hs
  have hlt : bs.length < UInt32.size := by omega
  have hlong := asUsize_long h hlt
  have hshort : (bs ++ rest).length < asUsize (UInt32.ofNat bs.length).toInt32 := by
    rw [length_append]
    omega
  rw [takeSized, encodeSized, append_assoc, takeI32_append hlt, ok_bind, takeSlice,
    takeBytes_eq_none hshort]

theorem deserialize_long [Checksum] {m : Message} (hk : m.key = none)
    (h : maxLength < m.payload.length) (hs : (m.serialize order).length < UInt32.size) :
    deserialize (m.serialize order) = .error .panic := by
  rw [deserialize_eq_takeFields]
  simp only [serialize, encodeFields, cons_append, append_assoc, hk, length_cons,
    length_append] at hs ⊢
  rw [takeFields, takeMagic, ok_bind, if_neg (not_not_intro rfl), takeId_append, ok_bind,
    takeKey_append none nofun, ok_bind, takeSized_long h, error_bind]
  simp only [length_append]
  omega

end Message

end MessageQueue
