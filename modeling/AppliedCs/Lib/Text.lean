import AppliedCs.Lib.Codec

-- Texts as bytes in UTF-8.
namespace Text

open Codec

def asBytes (s : String) : Bytes :=
  s.toByteArray.data.toList

theorem fromUTF8?_asBytes (s : String) : String.fromUTF8? ⟨(asBytes s).toArray⟩ = some s := by
  rw [asBytes, String.fromUTF8?, dif_pos s.isValidUTF8]
  rfl

theorem asBytes_of_fromUTF8? (h : String.fromUTF8? ⟨bs.toArray⟩ = some s) : asBytes s = bs := by
  rw [String.fromUTF8?] at h
  split at h <;> cases h
  rfl

theorem asBytes_eq_flatMap (s : String) : asBytes s = s.toList.flatMap String.utf8EncodeChar := by
  conv_lhs => rw [← String.ofList_toList (s := s)]
  rw [asBytes, String.toByteArray_ofList, List.utf8Encode]
  simp only [List.data_toByteArray, List.toList_toArray]

theorem asBytes_of_ascii (h : ∀ c ∈ s.toList, c.val ≤ 0x7F) :
    asBytes s = s.toList.map (·.val.toUInt8) := by
  rw [asBytes_eq_flatMap, List.map_eq_flatMap]
  exact List.flatMap_congr fun c hc =>
    String.utf8EncodeChar_eq_singleton <| Char.utf8Size_eq_one_iff.mpr (h c hc)

end Text
