import AppliedCs.Lib.Records
import AppliedCs.Lib.Text

-- Formats that are put together from others: records, optional values, sequences and texts.
-- Whether a value can be read back is a question of its size only, as long as the size of every
-- part is at most the size of the whole.
namespace Codec

open List

variable {α β : Type*} {d : Decoder α} {d₁ : Decoder α} {d₂ : Decoder β}

namespace Decoder

def map (f : α → β) (d : Decoder α) : Decoder β :=
  fun bs => (d bs).map fun p => (f p.1, p.2)

def filterMap (f : α → Option β) (d : Decoder α) : Decoder β :=
  fun bs => (d bs).bind fun p => (f p.1).map fun b => (b, p.2)

end Decoder

-- A byte tells whether there is a value.
def encodeOption (enc : α → Bytes) : Option α → Bytes
  | none => [0]
  | some a => 1 :: enc a

def decodeOption (d : Decoder α) : Decoder (Option α) :=
  fun
  | 0 :: bs => some (none, bs)
  | 1 :: bs => (d bs).map fun p => (some p.1, p.2)
  | _ => none

def encodeText (s : String) : Bytes :=
  encodeBytes (Text.asBytes s)

def decodeText : Decoder String :=
  decodeBytes.filterMap fun bs => String.fromUTF8? ⟨bs.toArray⟩

theorem Inverts.mono (h : Inverts d enc valid) (hv : ∀ a, valid' a → valid a) :
    Inverts d enc valid' :=
  fun a ha => h a (hv a ha)

theorem Inverts.map {g : β → α} (h : Inverts d enc valid) (hf : ∀ b, f (g b) = b) :
    Inverts (d.map f) (enc <| g ·) (valid <| g ·) := by
  intro b hb rest
  rw [Decoder.map, h _ hb, Option.map_some, hf]

theorem Inverts.filterMap {g : β → α} (h : Inverts d enc valid) (hf : ∀ b, f (g b) = some b) :
    Inverts (d.filterMap f) (enc <| g ·) (valid <| g ·) := by
  intro b hb rest
  rw [Decoder.filterMap, h _ hb, Option.bind_some, hf, Option.map_some]

theorem decodeLE_map_inverts {g : α → ℕ} (hf : ∀ a, f (g a) = a) (hg : ∀ a, g a < 256 ^ w) :
    Inverts ((decodeLE w).map f) (encodeLE w <| g ·) fun _ => True :=
  ((decodeLE_inverts w).map hf).mono fun a _ => hg a

-- The values whose encoding is shorter than `n` bytes are read back.
def InvertsBelow (n : ℕ) (d : Decoder α) (enc : α → Bytes) : Prop :=
  Inverts d enc fun a => (enc a).length < n

namespace InvertsBelow

theorem of_inverts (h : Inverts d enc fun _ => True) : InvertsBelow n d enc :=
  h.mono fun _ _ => trivial

theorem bytes : InvertsBelow (256 ^ 8) decodeBytes encodeBytes :=
  decodeBytes_inverts.mono fun bs h => by
    rw [encodeBytes, length_append] at h
    omega

theorem text : InvertsBelow (256 ^ 8) decodeText encodeText :=
  Inverts.filterMap bytes Text.fromUTF8?_asBytes

theorem map {g : β → α} (h : InvertsBelow n d enc) (hf : ∀ b, f (g b) = b) :
    InvertsBelow n (d.map f) (enc <| g ·) :=
  Inverts.map h hf

theorem pair (h₁ : InvertsBelow n d₁ enc₁) (h₂ : InvertsBelow n d₂ enc₂) :
    InvertsBelow n (decodePair d₁ d₂) fun p => enc₁ p.1 ++ enc₂ p.2 :=
  (decodePair_inverts h₁ h₂).mono fun p h => by
    rw [length_append] at h
    exact ⟨by omega, by omega⟩

theorem option (h : InvertsBelow n d enc) : InvertsBelow n (decodeOption d) (encodeOption enc) := by
  intro o ho rest
  cases o
  case none => rfl
  case some a =>
    have ha := h a (Nat.lt_of_succ_lt ho) rest
    rw [encodeOption, cons_append, decodeOption, ha]
    rfl

theorem many (h : InvertsBelow n d enc) {as : List α} (has : (as.flatMap enc).length < n) (rest) :
    decodeMany d as.length (as.flatMap enc ++ rest) = some (as, rest) := by
  induction as
  case nil => rfl
  case cons a as hi =>
    rw [flatMap_cons, length_append] at has
    have ha := h a (by omega) (as.flatMap enc ++ rest)
    have has := hi (by omega)
    simp only [length_cons, flatMap_cons, append_assoc, decodeMany, ha, has,
      Option.bind_some, Option.map_some]

theorem seq (h : InvertsBelow (256 ^ 8) d enc) (hpos : ∀ a, 0 < (enc a).length) :
    InvertsBelow (256 ^ 8) (decodeSeq d) (encodeSeq enc) := by
  intro as has rest
  rw [encodeSeq, length_append] at has
  have hle : as.length ≤ (as.flatMap enc).length := by
    simpa using length_le_flatMap hpos as []
  have hn := decodeLE_inverts 8 as.length (by omega) (as.flatMap enc ++ rest)
  have has := h.many (by omega : (as.flatMap enc).length < 256 ^ 8) rest
  simp only [encodeSeq, append_assoc, decodeSeq, hn, has, Option.bind_some]

end InvertsBelow

end Codec
