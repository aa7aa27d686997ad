import AppliedCs.Lib.Codec

-- Parsers that get their input in pieces. A parser takes a value off the front of the bytes that
-- have come in so far, or asks for more of them.
namespace Codec

open List

variable {α ε σ : Type*}

-- Calls until no value is left, with the values and the parser afterwards.
inductive Drains (parse : σ → Except ε (Option (α × σ))) : σ → List α → σ → Prop
  | done {s : σ} (h : parse s = .ok none) : Drains parse s [] s
  | more {s s' final : σ} {a : α} {as : List α} (h : parse s = .ok (some (a, s')))
    (hd : Drains parse s' as final) : Drains parse s (a :: as) final

-- The same after each piece.
inductive Feeds (feed : σ → Bytes → σ) (parse : σ → Except ε (Option (α × σ))) :
    σ → List Bytes → List α → σ → Prop
  | done {s : σ} : Feeds feed parse s [] [] s
  | more {s s' final : σ} {piece : Bytes} {pieces : List Bytes} {as as' : List α}
    (h : Drains parse (feed s piece) as s') (hf : Feeds feed parse s' pieces as' final) :
    Feeds feed parse s (piece :: pieces) (as ++ as') final

-- A value is read back from its bytes, and none from a part of them.
structure Streams (buffer : σ → Bytes) (feed : σ → Bytes → σ)
    (parse : σ → Except ε (Option (α × σ))) (enc : α → Bytes) (valid : α → Prop) : Prop where
  feed : ∀ s piece, buffer (feed s piece) = buffer s ++ piece
  empty : ∀ s, buffer s = [] → parse s = .ok none
  read : ∀ s a rest, valid a → buffer s = enc a ++ rest →
    ∃ s', parse s = .ok (some (a, s')) ∧ buffer s' = rest
  short : ∀ s a, valid a → buffer s <+: enc a → buffer s ≠ enc a → parse s = .ok none

theorem prefix_append_cases {cs : List α} (h : cs <+: as ++ bs) (hne : cs ≠ as ++ bs) :
    (cs <+: as ∧ cs ≠ as) ∨ ∃ t, cs = as ++ t ∧ t <+: bs ∧ t ≠ bs := by
  obtain ⟨u, hu⟩ := h
  rcases append_eq_append_iff.mp hu with ⟨t, rfl, rfl⟩ | ⟨t, rfl, rfl⟩
  case inl =>
    by_cases ht : t = []
    case pos =>
      refine .inr ⟨[], by simp [ht], nil_prefix, fun h => hne ?_⟩
      simp [← h, ht]
    case neg => exact .inl ⟨⟨t, rfl⟩, fun h => ht (self_eq_append_right.mp h)⟩
  case inr => exact .inr ⟨t, rfl, ⟨u, rfl⟩, fun h => hne (h ▸ rfl)⟩

variable {feed : σ → Bytes → σ} {parse : σ → Except ε (Option (α × σ))}

theorem Drains.parse_final (h : Drains parse s as final) : parse final = .ok none := by
  induction h
  case done h => exact h
  case more _ hi => exact hi

namespace Streams

-- What comes out of the beginning of a stream of values.
theorem drains (h : Streams buffer feed parse enc valid) (hv : ∀ a ∈ as, valid a)
    (hb : buffer s ++ later = as.flatMap enc) : ∃ as₁ as₂ s', as = as₁ ++ as₂ ∧
      Drains parse s as₁ s' ∧ buffer s' ++ later = as₂.flatMap enc := by
  induction as generalizing s
  case nil =>
    exact ⟨[], [], s, rfl, .done <| h.empty s (append_eq_nil_iff.mp hb).1, hb⟩
  case cons a as hi =>
    have ⟨ha, has⟩ := forall_mem_cons.mp hv
    by_cases hw : ∃ rest, buffer s = enc a ++ rest
    case pos =>
      obtain ⟨rest, hrest⟩ := hw
      obtain ⟨s₁, hp, rfl⟩ := h.read s a rest ha hrest
      have hb₁ : buffer s₁ ++ later = as.flatMap enc := by
        rw [hrest, append_assoc] at hb
        exact append_cancel_left hb
      obtain ⟨as₁, as₂, s₂, rfl, hd, hb₂⟩ := hi has hb₁
      exact ⟨a :: as₁, as₂, s₂, rfl, .more hp hd, hb₂⟩
    case neg =>
      -- Only a part of the value is there.
      refine ⟨[], a :: as, s, rfl, .done ?_, hb⟩
      rcases append_eq_append_iff.mp (hb.trans flatMap_cons) with ⟨t, ht, -⟩ | ⟨t, ht, -⟩
      case inl => exact h.short s a ha ⟨t, ht.symm⟩ fun he => hw ⟨[], by rw [he, append_nil]⟩
      case inr => exact absurd ⟨t, ht⟩ hw

-- However the bytes of the values are cut, the values come out.
theorem feeds (h : Streams buffer feed parse enc valid) {pieces : List Bytes}
    (hv : ∀ a ∈ as, valid a) (hp : parse s = .ok none)
    (hb : buffer s ++ pieces.flatten = as.flatMap enc) :
    ∃ final, Feeds feed parse s pieces as final ∧ buffer final = [] := by
  induction pieces generalizing s as
  case nil =>
    rw [flatten_nil, append_nil] at hb
    cases as
    case nil => exact ⟨s, .done, hb⟩
    case cons a as =>
      obtain ⟨_, hs, -⟩ := h.read s a _ (hv a (mem_cons_self ..)) hb
      cases hp.symm.trans hs
  case cons piece pieces hi =>
    rw [flatten_cons, ← append_assoc, ← h.feed] at hb
    obtain ⟨as₁, as₂, s', rfl, hd, hb'⟩ := h.drains hv hb
    obtain ⟨final, hf, he⟩ := hi (fun a ha => hv a (mem_append_right _ ha)) hd.parse_final hb'
    exact ⟨final, .more hd hf, he⟩

end Streams

end Codec
