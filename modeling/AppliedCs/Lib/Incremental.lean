import AppliedCs.Lib.Codec

-- Parsers that keep what has come in of an unfinished value, and go on when more comes in.
namespace Incremental

open Codec

variable {α ε σ : Type*}

-- The values and the error that come out of a parser that gets the pieces one after the other.
-- After a value the parser is called again with nothing new, until it has no value left.
inductive Outputs (feed : σ → Bytes → Except ε (Option α × σ)) :
    σ → List Bytes → List α → Option ε → Prop
  | done {s : σ} : Outputs feed s [] [] none
  | fail {s : σ} {piece : Bytes} {pieces : List Bytes} {e : ε} (h : feed s piece = .error e) :
    Outputs feed s (piece :: pieces) [] (some e)
  | wait {s s' : σ} {piece : Bytes} {pieces : List Bytes} {as : List α} {e : Option ε}
    (h : feed s piece = .ok (none, s')) (hr : Outputs feed s' pieces as e) :
    Outputs feed s (piece :: pieces) as e
  | more {s s' : σ} {piece : Bytes} {pieces : List Bytes} {a : α} {as : List α} {e : Option ε}
    (h : feed s piece = .ok (some a, s')) (hr : Outputs feed s' ([] :: pieces) as e) :
    Outputs feed s (piece :: pieces) (a :: as) e

-- What comes out is unique.
def Outcome (feed : σ → Bytes → Except ε (Option α × σ)) (s : σ) (pieces : List Bytes)
    (as : List α) (o : Option ε) : Prop :=
  ∀ as' o', Outputs feed s pieces as' o' ↔ as' = as ∧ o' = o

-- Such a parser works in rounds. A round waits for more bytes, fails, or moves on to another state
-- and perhaps gives a value.
def rounds (round : σ → Except ε (Option (Option α × σ))) : ℕ → σ → Except ε (Option α × σ)
  | 0, s => .ok (none, s)
  | n + 1, s =>
    match round s with
    | .error e => .error e
    | .ok none => .ok (none, s)
    | .ok (some (none, s')) => rounds round n s'
    | .ok (some (some a, s')) => .ok (some a, s')

-- A round that does not wait is the same with more bytes behind those it looked at.
structure Steady (valid : σ → Prop) (push : σ → Bytes → σ)
    (round : σ → Except ε (Option (Option α × σ))) (size : σ → ℕ) : Prop where
  push_nil : ∀ s, push s [] = s
  push_append : ∀ s bs bs', push (push s bs) bs' = push s (bs ++ bs')
  valid_push : ∀ {s}, valid s → ∀ bs, valid (push s bs)
  valid_round : ∀ {s o s'}, valid s → round s = .ok (some (o, s')) → valid s'
  size_lt : ∀ {s o s'}, valid s → round s = .ok (some (o, s')) → size s' < size s
  move : ∀ {s o s'}, valid s → round s = .ok (some (o, s')) →
    ∀ bs, round (push s bs) = .ok (some (o, push s' bs))
  fail : ∀ {s e}, valid s → round s = .error e → ∀ bs, round (push s bs) = .error e

def errorOf : Except ε σ → Option ε
  | .error e => some e
  | .ok _ => none

-- All rounds up to the point at which the parser waits or fails.
inductive Runs (round : σ → Except ε (Option (Option α × σ))) : σ → List α → Except ε σ → Prop
  | wait {s : σ} (h : round s = .ok none) : Runs round s [] (.ok s)
  | fail {s : σ} {e : ε} (h : round s = .error e) : Runs round s [] (.error e)
  | move {s s' : σ} {o : Option α} {as : List α} {r : Except ε σ}
    (h : round s = .ok (some (o, s'))) (hr : Runs round s' as r) : Runs round s (o.toList ++ as) r

variable {valid : σ → Prop} {push : σ → Bytes → σ} {size : σ → ℕ}
variable {round : σ → Except ε (Option (Option α × σ))} {feed : σ → Bytes → Except ε (Option α × σ)}
variable {s : σ} {as : List α} {e : ε}

namespace Runs

theorem deterministic (h : Runs round s as r) (h' : Runs round s as' r') : as = as' ∧ r = r' := by
  induction h generalizing as' r'
  case wait h | fail h =>
    cases h' <;> simp_all
  case move o as r h hr hi =>
    cases h'
    case wait h' | fail h' => simp [h] at h'
    case move h' hr' =>
      obtain ⟨rfl, rfl⟩ := Prod.mk.inj <| Option.some.inj <| Except.ok.inj <| h.symm.trans h'
      obtain ⟨rfl, rfl⟩ := hi hr'
      exact ⟨rfl, rfl⟩

theorem round_final (h : Runs round s as (.ok s')) : round s' = .ok none := by
  generalize hr : Except.ok s' = r at h
  induction h
  case wait h => exact Except.ok.inj hr ▸ h
  case fail => cases hr
  case move _ hi => exact hi hr

theorem append (h : Runs round s as (.ok s')) (hs : Steady valid push round size) (hv : valid s)
    (h' : Runs round (push s' bs) as' r') : Runs round (push s bs) (as ++ as') r' := by
  generalize hr : Except.ok s' = r at h
  induction h
  case wait => exact Except.ok.inj hr ▸ h'
  case fail => cases hr
  case move o _ _ h _ hi =>
    rw [List.append_assoc]
    exact .move (hs.move hv h bs) (hi (hs.valid_round hv h) hr)

variable (h : Runs round s as (.error e)) (hs : Steady valid push round size) (hv : valid s)

include h hs hv

theorem fail_push (bs : Bytes) : Runs round (push s bs) as (.error e) := by
  generalize hr : Except.error e = r at h
  induction h
  case wait => cases hr
  case fail h => exact .fail <| Except.error.inj hr ▸ hs.fail hv h bs
  case move h _ hi => exact .move (hs.move hv h bs) (hi (hs.valid_round hv h) hr)

-- A parser that never panics or gives an error of a kind it should not give.
theorem error_of_round : ∃ s', valid s' ∧ round s' = .error e := by
  generalize hr : Except.error e = r at h
  induction h
  case wait => cases hr
  case fail s _ h => exact ⟨s, hv, Except.error.inj hr ▸ h⟩
  case move h _ hi => exact hi (hs.valid_round hv h) hr

end Runs

-- What one call of the parser tells about its rounds.
inductive Result (valid : σ → Prop) (push : σ → Bytes → σ)
    (round : σ → Except ε (Option (Option α × σ))) (size : σ → ℕ) (s : σ) :
    Except ε (Option α × σ) → Prop
  | fail {e : ε} (h : Runs round s [] (.error e)) : Result valid push round size s (.error e)
  | wait {s' : σ} (h : Runs round s [] (.ok s')) (hv : valid s') :
    Result valid push round size s (.ok (none, s'))
  | more {s' : σ} {a : α} (hv : valid s') (hlt : size s' < size s)
    (h : ∀ bs as r, Runs round (push s' bs) as r → Runs round (push s bs) (a :: as) r) :
    Result valid push round size s (.ok (some a, s'))

namespace Steady

theorem result (hs : Steady valid push round size) (hv : valid s) (hn : size s < n) :
    Result valid push round size s (rounds round n s) := by
  induction n generalizing s
  case zero => exact absurd hn (Nat.not_lt_zero _)
  case succ n hi =>
    rw [rounds]
    rcases hr : round s with e | _ | ⟨_ | a, s'⟩
    · exact .fail (.fail hr)
    · exact .wait (.wait hr) hv
    · have hv' := hs.valid_round hv hr
      have hlt := hs.size_lt hv hr
      have hi := hi hv' (Nat.lt_of_lt_of_le hlt (Nat.le_of_lt_succ hn))
      dsimp only
      generalize rounds round n s' = x at hi
      cases hi
      case fail h => exact .fail (.move hr h)
      case wait h hv => exact .wait (.move hr h) hv
      case more hv₁ hlt' h =>
        exact .more hv₁ (hlt'.trans hlt) fun bs as r hr' => .move (hs.move hv hr bs) (h bs as r hr')
    · refine .more (hs.valid_round hv hr) (hs.size_lt hv hr) fun bs as r hr' => ?_
      exact .move (hs.move hv hr bs) hr'

variable (hs : Steady valid push round size)
  (hf : ∀ {s}, valid s → ∀ bs, ∃ n, size (push s bs) < n ∧ feed s bs = rounds round n (push s bs))

include hs hf

theorem result_feed (hv : valid s) (bs : Bytes) :
    Result valid push round size (push s bs) (feed s bs) := by
  obtain ⟨n, hn, heq⟩ := hf hv bs
  exact heq ▸ hs.result (hs.valid_push hv bs) hn

-- What comes out of the pieces is what the rounds give on all bytes together.
theorem runs_of_outputs (h : Outputs feed s pieces as o) (hv : valid s)
    (hw : pieces = [] → round s = .ok none) :
    ∃ r, Runs round (push s pieces.flatten) as r ∧ o = errorOf r := by
  induction h
  case done s =>
    rw [List.flatten_nil, hs.push_nil]
    exact ⟨_, .wait (hw rfl), rfl⟩
  case fail s piece pieces e h =>
    have hres := h ▸ hs.result_feed hf hv piece
    cases hres
    case fail h =>
      rw [List.flatten_cons, ← hs.push_append]
      exact ⟨_, h.fail_push hs (hs.valid_push hv piece) _, rfl⟩
  case wait s s' piece pieces as o h _ hi =>
    have hres := h ▸ hs.result_feed hf hv piece
    cases hres
    case wait h hv' =>
      have ⟨r, hr, ho⟩ := hi hv' fun _ => h.round_final
      rw [List.flatten_cons, ← hs.push_append]
      exact ⟨r, h.append hs (hs.valid_push hv piece) hr, ho⟩
  case more s s' piece pieces a as o h _ hi =>
    have hres := h ▸ hs.result_feed hf hv piece
    cases hres
    case more hv' _ h =>
      have ⟨r, hr, ho⟩ := hi hv' (nomatch ·)
      rw [List.flatten_cons, ← hs.push_append]
      exact ⟨r, h _ _ _ hr, ho⟩

theorem exists_outputs (hv : valid s) (pieces : List Bytes) :
    ∃ as o, Outputs feed s pieces as o := by
  induction pieces generalizing s
  case nil => exact ⟨[], none, .done⟩
  case cons piece pieces hi =>
    generalize hn : size (push s piece) = n
    induction n using Nat.strong_induction_on generalizing s piece
    case h n hi' =>
      have hres := hs.result_feed hf hv piece
      generalize hx : feed s piece = x at hres
      cases hres
      case fail => exact ⟨[], _, .fail hx⟩
      case wait _ hv' =>
        have ⟨as, o, ho⟩ := hi hv'
        exact ⟨as, o, .wait hx ho⟩
      case more s' a hv' hlt _ =>
        have ⟨as, o, ho⟩ := hi' _ (hn ▸ hlt) [] hv' (by rw [hs.push_nil])
        exact ⟨a :: as, o, .more hx ho⟩

variable (hv : valid s) (hw : round s = .ok none)

include hv hw

theorem outputs_eq (hp : pieces.flatten = pieces'.flatten) (h : Outputs feed s pieces as o)
    (h' : Outputs feed s pieces' as' o') : as = as' ∧ o = o' := by
  obtain ⟨r, hr, rfl⟩ := hs.runs_of_outputs hf h hv fun _ => hw
  obtain ⟨r', hr', rfl⟩ := hs.runs_of_outputs hf h' hv fun _ => hw
  obtain ⟨rfl, rfl⟩ := hr.deterministic (hp ▸ hr')
  exact ⟨rfl, rfl⟩

theorem round_of_outputs
    (h : Outputs feed s pieces as (some e)) : ∃ s', valid s' ∧ round s' = .error e := by
  obtain ⟨r, hr, he⟩ := hs.runs_of_outputs hf h hv fun _ => hw
  cases r
  case ok => cases he
  case error => exact Option.some.inj he ▸ hr.error_of_round hs (hs.valid_push hv _)

-- How the bytes are cut makes no difference.
theorem exists_outcome (hp : pieces.flatten = pieces'.flatten) : ∃ as o,
      Outcome feed s pieces as o ∧ Outcome feed s pieces' as o ∧
        ∀ e, o = some e → ∃ s', valid s' ∧ round s' = .error e := by
  obtain ⟨as, o, h⟩ := hs.exists_outputs hf hv pieces
  obtain ⟨as', o', h'⟩ := hs.exists_outputs hf hv pieces'
  obtain ⟨rfl, rfl⟩ := hs.outputs_eq hf hv hw hp h h'
  refine ⟨as, o, fun as' o' => ⟨fun h₁ => ?_, ?_⟩, fun as' o' => ⟨fun h₁ => ?_, ?_⟩, ?_⟩
  · exact hs.outputs_eq hf hv hw rfl h₁ h
  · rintro ⟨rfl, rfl⟩
    exact h
  · exact hs.outputs_eq hf hv hw rfl h₁ h'
  · rintro ⟨rfl, rfl⟩
    exact h'
  · rintro e rfl
    exact hs.round_of_outputs hf hv hw h

end Steady

end Incremental
