import AppliedCs.Lib.SortedList

-- A stream that was cut into pieces is put together again from labelled pieces that arrive in any
-- order and any number of times.
namespace Reassembly

open SortedMap Reassembly List

variable {κ α : Type*}

-- The position in the stream at which a piece begins.
def start (pieces : List (List α)) (i : ℕ) : ℕ :=
  (pieces.take i).flatten.length

-- `place` gives every position its label, and up to the end of the stream the labels tell the
-- order of the positions.
structure Labelled (advance : κ → ℕ → κ) (after : κ → κ → Bool) (place : ℕ → κ)
    (pieces : List (List α)) : Prop where
  advance : ∀ m n, advance (place m) n = place (m + n)
  after : ∀ {m n}, m ≤ pieces.flatten.length → n ≤ pieces.flatten.length →
    (after (place m) (place n) ↔ n < m)
  nonempty : [] ∉ pieces

section Start

variable {pieces : List (List α)}

theorem start_succ (h : pieces[i]? = some d) :
    start pieces (i + 1) = start pieces i + d.length := by
  rw [start, take_add_one, h]
  simp [start]

theorem flatten_take_succ (h : pieces[i]? = some d) :
    (pieces.take (i + 1)).flatten = (pieces.take i).flatten ++ d := by
  rw [take_add_one, h]
  simp

theorem start_le : start pieces i ≤ pieces.flatten.length := by
  nth_rewrite 2 [← take_append_drop i pieces]
  rw [flatten_append, length_append]
  exact Nat.le_add_right ..

theorem start_length : start pieces pieces.length = pieces.flatten.length := by
  rw [start, take_length]

theorem start_append (h : i ≤ pieces.length) : start (pieces ++ more) i = start pieces i := by
  rw [start, start, take_append_of_le_length h]

theorem start_mono (h : i ≤ j) : start pieces i ≤ start pieces j := by
  have ht : pieces.take i = (pieces.take j).take i := by rw [take_take, Nat.min_eq_left h]
  rw [start, ht]
  exact start_le

theorem start_lt (hp : [] ∉ pieces) (h : i < j) (hi : i < pieces.length) :
    start pieces i < start pieces j := by
  have hd : pieces[i] ≠ [] := fun he => hp (he ▸ getElem_mem hi)
  have hs := start_succ (getElem?_eq_getElem hi)
  have hl := length_pos_iff.mpr hd
  have hm : start pieces (i + 1) ≤ start pieces j := start_mono h
  omega

end Start

namespace Labelled

variable {advance : κ → ℕ → κ} {after : κ → κ → Bool} {place : ℕ → κ}
variable {pieces : List (List α)}

variable (h : Labelled advance after place pieces)

include h

theorem inj (hm : m ≤ pieces.flatten.length)
    (hn : n ≤ pieces.flatten.length) (he : place m = place n) : m = n := by
  have hself := h.after hm hm
  have hmn : after (place m) (place m) ↔ n < m := he ▸ h.after hm hn
  have hnm : after (place m) (place m) ↔ m < n := he ▸ h.after hn hm
  have := hself.symm.trans hmn
  have := hself.symm.trans hnm
  omega

theorem start_inj (hi : i < pieces.length)
    (he : place (start pieces i) = place (start pieces j)) : i = j := by
  have hs := h.inj start_le start_le he
  rcases Nat.lt_trichotomy i j with hlt | heq | hgt
  · exact absurd hs <| Nat.ne_of_lt <| start_lt h.nonempty hlt hi
  · exact heq
  · exact absurd hs.symm <| Nat.ne_of_lt <| start_lt h.nonempty hgt <| hgt.trans hi

theorem after_start_iff (hi : i ≤ pieces.length) :
    after (place (start pieces i)) (place (start pieces j)) ↔ j < i := by
  rw [h.after start_le start_le]
  constructor
  · intro hlt
    by_contra hle
    exact absurd hlt <| Nat.not_lt.mpr <| start_mono <| Nat.not_lt.mp hle
  · intro hlt
    exact start_lt h.nonempty hlt <| Nat.lt_of_lt_of_le hlt hi

end Labelled

variable [LinearOrder κ]

structure Window (κ α : Type*) [LinearOrder κ] where
  next : κ
  buffer : List α
  waiting : SortedMap κ (List α)

-- The pieces that waited for the label `next` follow each other into the buffer. Every round takes
-- one of them, so their number bounds the rounds.
def drain (advance : κ → ℕ → κ) : ℕ → Window κ α → Window κ α
  | 0, w => w
  | n + 1, w =>
    match w.waiting.get? w.next with
    | none => w
    | some d => drain advance n ⟨advance w.next d.length, w.buffer ++ d, w.waiting.erase w.next⟩

def receive (advance : κ → ℕ → κ) (after : κ → κ → Bool) (w : Window κ α) (l : κ) (d : List α) :
    Window κ α :=
  if l = w.next then
    drain advance w.waiting.entries.length ⟨advance w.next d.length, w.buffer ++ d, w.waiting⟩
  else if after l w.next then
    { w with waiting := w.waiting.insert l d }
  else
    w

-- The first `k` pieces are in order, and those that wait come after them.
structure Restores (place : ℕ → κ) (pieces : List (List α)) (out : List α) (w : Window κ α)
    (k : ℕ) : Prop where
  le : k ≤ pieces.length
  buffer : out ++ w.buffer = (pieces.take k).flatten
  next : w.next = place (start pieces k)
  waiting : ∀ l d, w.waiting.get? l = some d →
    ∃ j, k ≤ j ∧ pieces[j]? = some d ∧ l = place (start pieces j)

-- Nothing that waits could be taken.
structure Settled (place : ℕ → κ) (pieces : List (List α)) (out : List α) (w : Window κ α)
    (k : ℕ) : Prop extends Restores place pieces out w k where
  settled : w.waiting.get? w.next = none

def Has (place : ℕ → κ) (pieces : List (List α)) (w : Window κ α) (k j : ℕ) : Prop :=
  j < k ∨ (w.waiting.get? (place (start pieces j))).isSome

variable {advance : κ → ℕ → κ} {after : κ → κ → Bool} {place : ℕ → κ}
variable {pieces : List (List α)} {out : List α} {w : Window κ α} {i j k : ℕ} {d : List α}

namespace Restores

variable (h : Restores place pieces out w k)

include h

variable (hl : Labelled advance after place pieces)

include hl

-- A piece that waits at the label of the next one is the next one.
theorem of_waiting (hd : w.waiting.get? w.next = some d) : pieces[k]? = some d := by
  have ⟨j, hk, hj, he⟩ := h.waiting _ _ hd
  have hlt := (List.getElem?_eq_some_iff.mp hj).1
  obtain rfl := hl.start_inj hlt (he.symm.trans h.next)
  exact hj

-- Taking the next piece. It may be in `waiting` or have just arrived.
theorem take (hd : pieces[k]? = some d)
    (hm : ∀ l, m.get? l = if l = w.next then none else w.waiting.get? l) :
    Restores place pieces out ⟨advance w.next d.length, w.buffer ++ d, m⟩ (k + 1) where
  le := (List.getElem?_eq_some_iff.mp hd).1
  buffer := by rw [flatten_take_succ hd, ← h.buffer, append_assoc]
  next := by rw [h.next, hl.advance, start_succ hd]
  waiting := by
    intro l d' hw
    have ⟨hne, hw⟩ : l ≠ w.next ∧ w.waiting.get? l = some d' := by
      simpa only [hm, Option.ite_none_left_eq_some] using hw
    have ⟨j, hk, hj, he⟩ := h.waiting l d' hw
    have hjk : k ≠ j := fun hjk => hne (by rw [he, h.next, hjk])
    exact ⟨j, Nat.lt_of_le_of_ne hk hjk, hj, he⟩

theorem has_take (hd : pieces[k]? = some d)
    (hm : ∀ l, m.get? l = if l = w.next then none else w.waiting.get? l)
    (hj : Has place pieces w k j) :
    Has place pieces ⟨advance w.next d.length, w.buffer ++ d, m⟩ (k + 1) j := by
  by_cases hjk : j < k + 1
  case pos => exact .inl hjk
  have hne : place (start pieces j) ≠ w.next := by
    intro he
    have := hl.start_inj (List.getElem?_eq_some_iff.mp hd).1 (he.trans h.next).symm
    omega
  refine .inr ?_
  rw [hm, if_neg hne]
  exact hj.resolve_left fun hlt => hjk (Nat.lt_succ_of_lt hlt)

-- With a round for every piece that waits, draining stops at a piece that is missing, and what
-- comes after it still waits.
theorem drain (hn : w.waiting.entries.length ≤ n) :
    ∃ k', k ≤ k' ∧ Settled place pieces out (drain advance n w) k' ∧
      ∀ j, Has place pieces w k j → Has place pieces (drain advance n w) k' j := by
  induction n generalizing w k
  case zero =>
    have he : w.waiting = ∅ :=
      SortedMap.ext <| eq_nil_of_length_eq_zero <| Nat.le_zero.mp hn
    exact ⟨k, Nat.le_refl k, ⟨h, by rw [drain, he, SortedMap.get?_empty]⟩, fun _ => id⟩
  case succ n hi =>
    rw [drain]
    cases hd : w.waiting.get? w.next
    case none => exact ⟨k, Nat.le_refl k, ⟨h, hd⟩, fun _ => id⟩
    case some d =>
      have hd' := h.of_waiting hl hd
      have hm (l : κ) : (w.waiting.erase w.next).get? l =
          if l = w.next then none else w.waiting.get? l := SortedMap.get?_erase
      have hlt := Nat.lt_of_lt_of_le (SortedMap.length_erase_lt hd) hn
      have ⟨k', hk, hs, hh⟩ := hi (h.take hl hd' hm) (Nat.le_of_lt_succ hlt)
      exact ⟨k', Nat.le_of_succ_le hk, hs, fun j hj => hh j (h.has_take hl hd' hm hj)⟩

end Restores

namespace Settled

variable (h : Settled place pieces out w k)

include h

theorem receive (hl : Labelled advance after place pieces) (hd : pieces[j]? = some d) :
    ∃ k', Settled place pieces out (receive advance after w (place (start pieces j)) d) k' ∧
      ∀ i, i = j ∨ Has place pieces w k i →
        Has place pieces (Reassembly.receive advance after w (place (start pieces j)) d) k' i := by
  have hj := (List.getElem?_eq_some_iff.mp hd).1
  rw [Reassembly.receive]
  split_ifs with hnext hafter
  -- the piece is the next one
  case pos =>
    obtain rfl := hl.start_inj hj (hnext.trans h.next)
    have hm (l : κ) : w.waiting.get? l = if l = w.next then none else w.waiting.get? l := by
      by_cases hn : l = w.next <;> simp [hn, h.settled]
    have ⟨k', hk, hs, hh⟩ := (h.take hl hd hm).drain hl (Nat.le_refl _)
    refine ⟨k', hs, fun i hi => hh i ?_⟩
    rcases hi with rfl | hi
    · exact .inl (Nat.lt_succ_self i)
    · exact h.has_take hl hd hm hi
  -- it comes after the next one and waits
  case pos =>
    have hlt : k < j := (hl.after_start_iff (Nat.le_of_lt hj)).mp (h.next ▸ hafter)
    refine ⟨k, ⟨⟨h.le, h.buffer, h.next, fun l d' hw => ?_⟩, ?_⟩, fun i hi => ?_⟩
    · rw [get?_insert] at hw
      split_ifs at hw with he
      case pos => exact ⟨j, Nat.le_of_lt hlt, hd.trans hw, he.symm⟩
      case neg => exact h.waiting l d' hw
    · rw [get?_insert, if_neg hnext]
      exact h.settled
    · by_cases hij : place (start pieces j) = place (start pieces i)
      case pos => exact .inr (by rw [get?_insert, if_pos hij, Option.isSome_some])
      case neg =>
        have hi := hi.resolve_left fun he => hij (by rw [he])
        exact hi.imp_right fun hs => by rwa [get?_insert, if_neg hij]
  -- it was taken before
  case neg =>
    refine ⟨k, h, fun i hi => hi.elim (fun he => .inl ?_) id⟩
    have hle : ¬ k < j := fun hlt =>
      hafter (h.next ▸ (hl.after_start_iff (Nat.le_of_lt hj)).mpr hlt)
    have hne : j ≠ k := fun hjk => hnext (by rw [h.next, hjk])
    omega

theorem append : Settled place (pieces ++ more) out w k where
  le := by
    rw [length_append]
    exact Nat.le_add_right_of_le h.le
  buffer := by rw [take_append_of_le_length h.le, h.buffer]
  next := by rw [start_append h.le, h.next]
  waiting := by
    intro l d hw
    have ⟨j, hk, hj, he⟩ := h.waiting l d hw
    have hlt := (List.getElem?_eq_some_iff.mp hj).1
    exact ⟨j, hk, by rw [getElem?_append_left hlt, hj], by rw [start_append hlt.le, he]⟩
  settled := h.settled

theorem read : Settled place pieces (out ++ w.buffer) { w with buffer := [] } k where
  le := h.le
  buffer := by rw [append_nil, h.buffer]
  next := h.next
  waiting := h.waiting
  settled := h.settled

-- Once every piece has arrived, nothing is missing.
theorem complete (hall : ∀ j < pieces.length, Has place pieces w k j) :
    out ++ w.buffer = pieces.flatten := by
  have hk : k = pieces.length := by
    by_contra hne
    have hs := hall k <| Nat.lt_of_le_of_ne h.le hne
    have hw := hs.resolve_left (Nat.lt_irrefl k)
    rw [← h.next, h.settled] at hw
    exact absurd hw Bool.false_ne_true
  rw [h.buffer, hk, take_length]

end Settled

theorem Has.append (h : Has place pieces w k j) (hj : j < pieces.length) :
    Has place (pieces ++ more) w k j := by
  rwa [Has, start_append (Nat.le_of_lt hj)]

end Reassembly
