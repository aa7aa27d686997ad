import Mathlib.Data.List.Basic
import Mathlib.Logic.Function.Iterate
import Mathlib.Tactic.Ring

-- Byte formats in the style of fixed-width little-endian serialisers: integers take a fixed number
-- of bytes, sequences are preceded by their length, enumerations by the number of their variant.
-- A decoder consumes the front of its input and returns what is left of it.
namespace Codec

open List Option

abbrev Bytes := List UInt8

def Decoder (α : Type*) := Bytes → Option (α × Bytes)

-- The lowest `w` bytes of `n`, lowest first.
def encodeLE : ℕ → ℕ → Bytes
  | 0, _ => []
  | w + 1, n => UInt8.ofNat n :: encodeLE w (n / 256)

def decodeLE : ℕ → Decoder ℕ
  | 0, bs => some (0, bs)
  | _ + 1, [] => none
  | w + 1, b :: bs => (decodeLE w bs).map fun (n, rest) => (b.toNat + 256 * n, rest)

def takeBytes (n : ℕ) : Decoder Bytes :=
  fun bs => if n ≤ bs.length then some (bs.take n, bs.drop n) else none

def encodeBytes (bs : Bytes) : Bytes :=
  encodeLE 8 bs.length ++ bs

def decodeBytes : Decoder Bytes :=
  fun bs => (decodeLE 8 bs).bind fun (n, rest) => takeBytes n rest

def decodePair {α β : Type*} (d₁ : Decoder α) (d₂ : Decoder β) : Decoder (α × β) :=
  fun bs => (d₁ bs).bind fun (a, rest) => (d₂ rest).map fun (b, rest) => ((a, b), rest)

def decodeMany {α : Type*} (d : Decoder α) : ℕ → Decoder (List α)
  | 0, bs => some ([], bs)
  | n + 1, bs => (d bs).bind fun (a, rest) => (decodeMany d n rest).map fun (as, rest) =>
    (a :: as, rest)

def encodeSeq {α : Type*} (enc : α → Bytes) (as : List α) : Bytes :=
  encodeLE 8 as.length ++ as.flatMap enc

def decodeSeq {α : Type*} (d : Decoder α) : Decoder (List α) :=
  fun bs => (decodeLE 8 bs).bind fun (n, rest) => decodeMany d n rest

-- `d` undoes `enc` on the values in `valid`, whatever bytes follow.
def Inverts {α : Type*} (d : Decoder α) (enc : α → Bytes) (valid : α → Prop) : Prop :=
  ∀ a, valid a → ∀ rest, d (enc a ++ rest) = some (a, rest)

variable (w : ℕ)

@[simp]
theorem length_encodeLE (n : ℕ) : (encodeLE w n).length = w := by
  induction w generalizing n <;> simp [encodeLE, *]

theorem decodeLE_inverts : Inverts (decodeLE w) (encodeLE w) (· < 256 ^ w) := by
  intro n hn rest
  induction w generalizing n
  case zero =>
    have hz : n = 0 := by simpa using hn
    simp [encodeLE, decodeLE, hz]
  case succ w hi =>
    have hd : n / 256 < 256 ^ w := Nat.div_lt_of_lt_mul (by rw [pow_succ'] at hn; exact hn)
    simp only [encodeLE, cons_append, decodeLE, hi _ hd, map_some]
    simp [Nat.mod_add_div]

theorem decodeBytes_inverts : Inverts decodeBytes encodeBytes (·.length < 256 ^ 8) := by
  intro bs h rest
  simp [decodeBytes, encodeBytes, append_assoc, decodeLE_inverts 8 _ h, takeBytes]

section

variable {α β : Type*} {d₁ : Decoder α} {d₂ : Decoder β}

theorem decodePair_inverts (h₁ : Inverts d₁ enc₁ valid₁) (h₂ : Inverts d₂ enc₂ valid₂) :
    Inverts (decodePair d₁ d₂) (fun p => enc₁ p.1 ++ enc₂ p.2) (fun p => valid₁ p.1 ∧
      valid₂ p.2) := by
  intro p hp rest
  simp [decodePair, append_assoc, h₁ _ hp.1, h₂ _ hp.2]

-- What a decoder returns, and the number of bytes it used up for it.
def Consumes (d : Decoder α) (size : α → ℕ) : Prop :=
  ∀ bs a rest, d bs = some (a, rest) → bs.length = size a + rest.length

end

theorem decodeLE_consumes : Consumes (decodeLE w) (fun _ => w) := by
  intro bs n rest h
  induction w generalizing bs n
  case zero => simp_all [decodeLE]
  case succ w hi =>
    cases bs <;> simp only [decodeLE, map_eq_some_iff, reduceCtorEq] at h
    case cons b bs =>
      have ⟨⟨n', rest'⟩, h, he⟩ := h
      simp only [Prod.mk.injEq] at he
      have hl : bs.length = w + rest.length := hi _ _ (he.2 ▸ h)
      simp only [length_cons, hl]
      omega

theorem decodeLE_eq_none {w : ℕ} (h : bs.length < w) : decodeLE w bs = none := by
  refine eq_none_iff_forall_ne_some.mpr fun p hp => ?_
  have := decodeLE_consumes w bs p.1 p.2 hp
  simp only at this
  omega

theorem takeBytes_consumes (n : ℕ) : Consumes (takeBytes n) length := by
  intro bs a rest h
  simp only [takeBytes, ite_none_right_eq_some, some.injEq, Prod.mk.injEq] at h
  have ⟨hn, ha, hr⟩ := h
  subst ha hr
  simp only [length_take, length_drop]
  omega

theorem decodeBytes_consumes : Consumes decodeBytes (8 + ·.length) := by
  intro bs a rest h
  have ⟨⟨n, rest'⟩, h₁, h₂⟩ := bind_eq_some_iff.mp h
  have hn := decodeLE_consumes 8 _ _ _ h₁
  have ha := takeBytes_consumes _ _ _ _ h₂
  simp only [hn, ha, Nat.add_assoc]

section

variable {α β : Type*} {d : Decoder α} {d₁ : Decoder α} {d₂ : Decoder β}

theorem decodePair_consumes (h₁ : Consumes d₁ size₁) (h₂ : Consumes d₂ size₂) :
    Consumes (decodePair d₁ d₂) (fun p => size₁ p.1 + size₂ p.2) := by
  intro bs p rest h
  have ⟨⟨a, rest₁⟩, ha, h⟩ := bind_eq_some_iff.mp h
  have ⟨⟨b, rest₂⟩, hb, he⟩ := map_eq_some_iff.mp h
  cases he
  have := h₁ _ _ _ ha
  have := h₂ _ _ _ hb
  simp only
  omega

theorem decodeMany_consumes (h : Consumes d size) (n : ℕ) :
    Consumes (decodeMany d n) (fun as => (as.map size).sum) := by
  intro bs as rest hd
  induction n generalizing bs as
  case zero => simp_all [decodeMany]
  case succ n hi =>
    have ⟨⟨a, rest₁⟩, ha, hd⟩ := bind_eq_some_iff.mp hd
    have ⟨⟨as', rest₂⟩, has, he⟩ := map_eq_some_iff.mp hd
    cases he
    have := h _ _ _ ha
    have := hi _ _ has
    simp only [map_cons, sum_cons] at *
    omega

theorem decodeSeq_consumes (h : Consumes d size) :
    Consumes (decodeSeq d) (fun as => 8 + (as.map size).sum) := by
  intro bs as rest hd
  have ⟨⟨n, rest'⟩, h₁, h₂⟩ := bind_eq_some_iff.mp hd
  have := decodeLE_consumes 8 _ _ _ h₁
  have := decodeMany_consumes h _ _ _ _ h₂
  simp only at *
  omega

end

-- The same with the highest byte first.
def encodeBE (n : ℕ) : Bytes :=
  (encodeLE w n).reverse

def decodeBE : Decoder ℕ :=
  fun bs => (takeBytes w bs).bind fun p => (decodeLE w p.1.reverse).map fun q => (q.1, p.2)

@[simp]
theorem length_encodeBE (n : ℕ) : (encodeBE w n).length = w := by
  rw [encodeBE, length_reverse, length_encodeLE]

theorem takeBytes_append (bs rest : Bytes) :
    takeBytes bs.length (bs ++ rest) = some (bs, rest) := by
  rw [takeBytes, if_pos (by rw [length_append]; exact Nat.le_add_right ..), take_left, drop_left]

theorem takeBytes_eq_none (h : bs.length < n) : takeBytes n bs = none :=
  if_neg (Nat.not_le.mpr h)

theorem decodeBE_inverts : Inverts (decodeBE w) (encodeBE w) (· < 256 ^ w) := by
  intro n hn rest
  have ht := takeBytes_append (encodeBE w n) rest
  have hd := decodeLE_inverts w n hn []
  rw [length_encodeBE] at ht
  rw [append_nil] at hd
  rw [decodeBE, ht, bind_some, encodeBE, reverse_reverse, hd, map_some]

theorem decodeBE_eq_none {w : ℕ} (h : bs.length < w) : decodeBE w bs = none := by
  rw [decodeBE, takeBytes_eq_none h, bind_none]

-- The checksum with the reversed polynomial of IEEE 802.3, bit by bit.
def crc32 (bs : Bytes) : UInt32 :=
  let shift (c : ℕ) := if c % 2 = 1 then (c / 2) ^^^ 0xEDB88320 else c / 2
  .ofNat (bs.foldl (fun c b => shift^[8] (c ^^^ b.toNat)) 0xFFFFFFFF ^^^ 0xFFFFFFFF)

example : crc32 [0x31, 0x32, 0x33, 0x34, 0x35, 0x36, 0x37, 0x38, 0x39] = 0xCBF43926 := by
  decide +kernel

end Codec
