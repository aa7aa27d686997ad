import AppliedCs.Interpreter.Lexer
import AppliedCs.Lib.Trace
import Mathlib.Data.List.TakeWhile

namespace Interpreter

open List

section Bytes

variable {text : List Char}

def Ascii (text : List Char) : Prop :=
  ∀ c ∈ text, c.val ≤ 0x7F

theorem Ascii.append (h : Ascii text) (h' : Ascii text') : Ascii (text ++ text') :=
  forall_mem_append.mpr ⟨h, h'⟩

theorem Ascii.byteLength_eq (h : Ascii text) : byteLength text = text.length := by
  induction text
  case nil => rfl
  case cons c text hi =>
    obtain ⟨hc, ht⟩ := forall_mem_cons.mp h
    have hs : c.utf8Size = 1 := Char.utf8Size_eq_one_iff.mpr hc
    rw [byteLength, hi ht, hs, length_cons, Nat.add_comm]

end Bytes

namespace Lexer

open Trace

variable {s : Lexer} {c : Char} {rounds column : ℕ}

-- What has not been read yet, and what belongs to the current token.
def rest (s : Lexer) : List Char :=
  s.source.drop s.current

def text (s : Lexer) : List Char :=
  (s.source.take s.current).drop s.start

def skip (s : Lexer) (n : ℕ) : Lexer :=
  { s with current := s.current + n, column := s.column + n }

theorem skip_skip : (s.skip n).skip m = s.skip (n + m) := by
  simp only [skip, Nat.add_assoc]

theorem rest_skip : (s.skip n).rest = s.rest.drop n := by
  rw [rest, rest, drop_drop]
  rfl

theorem isAtEnd_iff : s.isAtEnd ↔ s.rest = [] := by
  rw [isAtEnd, decide_eq_true_iff, rest, drop_eq_nil_iff]

section

variable (h : s.rest = c :: r)

include h

theorem getElem?_of_rest : s.source[s.current]? = some c := by
  rw [← head?_drop]
  exact congrArg head? h

theorem not_isAtEnd_of_rest : ¬ s.isAtEnd := by
  rw [isAtEnd_iff, h]
  exact cons_ne_nil c r

theorem isAtEnd_of_rest : s.isAtEnd = false :=
  Bool.eq_false_iff.mpr (not_isAtEnd_of_rest h)

theorem peek_of_rest : s.peek = c := by
  rw [peek, getElem?_of_rest h, Option.getD_some]

theorem advance_of_rest : s.advance = .ok (c, s.skip 1) := by
  rw [advance, getElem?_of_rest h]
  rfl

theorem rest_skip_one : (s.skip 1).rest = r := by
  rw [rest_skip, h]
  rfl

end

theorem length_rest_skip_one (h : s.rest.length < rounds + 1) (hr : s.rest = c :: r) :
    (s.skip 1).rest.length < rounds := by
  rw [hr, length_cons] at h
  rw [rest_skip_one hr]
  omega

theorem length_rest_lt_rounds : s.rest.length < s.rounds := by
  rw [rest, length_drop, rounds]
  omega

-- By induction on the rounds. The characters that are taken are those at the front of the rest.
theorem advanceWhile_eq (h : s.rest.length < rounds) :
    advanceWhile p rounds s = .ok (s.skip (s.rest.takeWhile p).length) := by
  induction rounds generalizing s
  case zero => exact absurd h (Nat.not_lt_zero _)
  case succ rounds hi =>
    rw [advanceWhile]
    cases hr : s.rest
    case nil => rw [if_pos (isAtEnd_iff.mpr hr)]; rfl
    case cons c r =>
      rw [if_neg (not_isAtEnd_of_rest hr), peek_of_rest hr, advance_of_rest hr, takeWhile_cons]
      split
      · rw [length_cons, Nat.add_comm, ← skip_skip, ← rest_skip_one hr]
        exact hi (length_rest_skip_one h hr)
      · rfl

theorem skipWhile_eq : s.skipWhile p = .ok (s.skip (s.rest.takeWhile p).length) :=
  advanceWhile_eq length_rest_lt_rounds

def isBlank (c : Char) : Bool :=
  c = ' ' || c = '\t'

def width : List Char → ℕ
  | [] => 0
  | c :: blanks => (if c = ' ' then 1 else 4) + width blanks

theorem countSpaces_eq (h : s.rest.length < rounds) :
    countSpaces rounds spaces s = .ok (spaces + width (s.rest.takeWhile isBlank),
      s.skip (s.rest.takeWhile isBlank).length) := by
  induction rounds generalizing s spaces
  case zero => exact absurd h (Nat.not_lt_zero _)
  case succ rounds hi =>
    rw [countSpaces]
    cases hr : s.rest
    case nil => rw [if_pos (isAtEnd_iff.mpr hr)]; rfl
    case cons c r =>
      have hnext (k : ℕ) : countSpaces rounds (spaces + k) (s.skip 1) =
          .ok (spaces + (k + width (r.takeWhile isBlank)),
            s.skip ((r.takeWhile isBlank).length + 1)) := by
        rw [hi (length_rest_skip_one h hr), rest_skip_one hr, skip_skip, Nat.add_assoc,
          Nat.add_comm 1 (length _)]
      rw [if_neg (not_isAtEnd_of_rest hr), peek_of_rest hr, advance_of_rest hr, takeWhile_cons]
      by_cases hs : c = ' '
      case pos =>
        rw [if_pos hs, if_pos (by simp [isBlank, hs]), length_cons, width, if_pos hs]
        exact hnext 1
      by_cases ht : c = '\t'
      case pos =>
        rw [if_neg hs, if_pos ht, if_pos (by simp [isBlank, ht]), length_cons, width, if_neg hs]
        exact hnext 4
      case neg =>
        rw [if_neg hs, if_neg ht, if_neg (by simp [isBlank, hs, ht])]
        rfl

structure Placed (s : Lexer) : Prop where
  start_le : s.start ≤ s.current
  current_le : s.current ≤ s.source.length

theorem Placed.skip (h : s.Placed) (hn : n ≤ s.rest.length) : (s.skip n).Placed := by
  refine ⟨h.start_le.trans (Nat.le_add_right ..), ?_⟩
  have := h.current_le
  rw [rest, length_drop] at hn
  show s.current + n ≤ s.source.length
  omega

theorem Placed.lexeme (h : s.Placed) : s.lexeme = .ok s.text :=
  if_pos ⟨h.start_le, h.current_le⟩

theorem Placed.text_skip (h : s.Placed) : (s.skip n).text = s.text ++ s.rest.take n := by
  show (s.source.take (s.current + n)).drop s.start = (s.source.take s.current).drop s.start ++ _
  rw [take_add, drop_append_of_le_length]
  · rfl
  · rw [length_take]
    exact le_min h.start_le (h.start_le.trans h.current_le)

theorem text_eq_nil (h : s.start = s.current) : s.text = [] := by
  rw [text, h, drop_eq_nil_iff]
  exact length_take_le ..

-- The span of the token can be computed.
def Narrow (s : Lexer) : Prop :=
  byteLength s.text ≤ s.column

def push (s : Lexer) (tokenType : TokenType) : Lexer :=
  { s with tokens := s.tokens ++ [⟨tokenType, .ofList s.text,
    ⟨s.start, s.current, s.line, s.column - byteLength s.text⟩⟩] }

theorem Placed.emit (h : s.Placed) (hn : s.Narrow) : s.emit t = .ok (s.push t) := by
  rw [Lexer.emit, h.lexeme]
  exact if_pos hn

theorem Placed.emit_panic (h : s.Placed) (hn : ¬ s.Narrow) : s.emit t = .error .panic := by
  rw [Lexer.emit, h.lexeme]
  exact if_neg hn

-- Nothing of the token is wide, and the column has counted all of it.
structure Clear (s : Lexer) : Prop extends Placed s where
  ascii : Ascii s.text
  lt : s.text.length < s.column

theorem Clear.narrow (h : s.Clear) : s.Narrow := by
  rw [Narrow, h.ascii.byteLength_eq]
  exact h.lt.le

theorem Clear.skip (h : s.Clear) (hn : n ≤ s.rest.length) (ha : Ascii (s.rest.take n)) :
    (s.skip n).Clear where
  toPlaced := h.toPlaced.skip hn
  ascii := h.text_skip ▸ h.ascii.append ha
  lt := by
    have := h.lt
    rw [h.text_skip, length_append, length_take, Nat.min_eq_left hn]
    show _ < s.column + n
    omega

theorem clear_of_start (hp : s.Placed) (hs : s.start = s.current) (hc : 0 < s.column) :
    s.Clear where
  toPlaced := hp
  ascii := by rw [text_eq_nil hs]; exact forall_mem_nil _
  lt := by rw [text_eq_nil hs]; exact hc

-- What the functions for single tokens leave alone.
structure Continues (s s' : Lexer) : Prop where
  source : s'.source = s.source
  start : s'.start = s.start
  stack : s'.indentStack = s.indentStack
  le : s.current ≤ s'.current
  placed : s'.Placed
  column : 0 < s'.column

theorem Continues.trans (h : Continues s s') (h' : Continues s' s'') : Continues s s'' where
  source := h'.source.trans h.source
  start := h'.start.trans h.start
  stack := h'.stack.trans h.stack
  le := h.le.trans h'.le
  placed := h'.placed
  column := h'.column

theorem Placed.continues_skip (h : s.Placed) (hc : 0 < s.column) (hn : n ≤ s.rest.length) :
    Continues s (s.skip n) where
  source := rfl
  start := rfl
  stack := rfl
  le := Nat.le_add_right ..
  placed := h.skip hn
  column := Nat.add_pos_left hc n

-- A function panics exactly in a bad state, and goes on behind a token otherwise.
inductive Scanned (s : Lexer) (bad : Prop) : Result Lexer → Prop
  | ok {s' : Lexer} (hb : ¬ bad) (h : Continues s s') : Scanned s bad (.ok s')
  | error {e : Error} (hb : ¬ bad) : Scanned s bad (.error (.error e))
  | panic (hb : bad) : Scanned s bad (.error .panic)

theorem Scanned.after (h : Continues s s') (hx : Scanned s' bad x) : Scanned s bad x := by
  cases hx
  case ok hb h' => exact .ok hb (h.trans h')
  case error hb => exact .error hb
  case panic hb => exact .panic hb

theorem Scanned.congr (h : bad ↔ bad') (hx : Scanned s bad x) : Scanned s bad' x :=
  propext h ▸ hx

theorem Placed.scanned_emit (h : s.Placed) (hc : 0 < s.column) :
    Scanned s (¬ s.Narrow) (s.emit t) := by
  by_cases hn : s.Narrow
  · rw [h.emit hn]
    exact .ok (not_not.mpr hn) ⟨rfl, rfl, rfl, le_rfl, ⟨h.start_le, h.current_le⟩, hc⟩
  · rw [h.emit_panic hn]
    exact .panic hn

theorem Clear.scanned_emit (h : s.Clear) : Scanned s False (s.emit t) := by
  have he := @Placed.scanned_emit s t h.toPlaced (Nat.zero_lt_of_lt h.lt)
  rwa [eq_false (not_not.mpr h.narrow)] at he

-- More characters of a token that is not wide.
structure Moves (s s' : Lexer) : Prop extends Continues s s' where
  clear : s'.Clear

theorem Moves.trans (h : Moves s s') (h' : Moves s' s'') : Moves s s'' :=
  ⟨h.toContinues.trans h'.toContinues, h'.clear⟩

theorem Clear.moves_skip (h : s.Clear) (hn : n ≤ s.rest.length) (ha : Ascii (s.rest.take n)) :
    Moves s (s.skip n) :=
  ⟨h.continues_skip (Nat.zero_lt_of_lt h.lt) hn, h.skip hn ha⟩

theorem Clear.moves_refl (h : s.Clear) : Moves s s :=
  h.moves_skip (Nat.zero_le _) (forall_mem_nil _)

theorem Clear.moves_one (h : s.Clear) (hr : s.rest = c :: r) (hc : c.val ≤ 0x7F) :
    Moves s (s.skip 1) := by
  refine h.moves_skip (by rw [hr]; exact Nat.succ_le_succ (Nat.zero_le _)) ?_
  rw [hr]
  exact forall_mem_singleton.mpr hc

theorem Clear.skipWhile (h : s.Clear) (hp : ∀ c, p c → c.val ≤ 0x7F) :
    ∃ s', s.skipWhile p = .ok s' ∧ Moves s s' := by
  have hpre := takeWhile_prefix p (l := s.rest)
  refine ⟨_, skipWhile_eq, h.moves_skip hpre.length_le ?_⟩
  rw [← prefix_iff_eq_take.mp hpre]
  exact fun c hc => hp c (mem_takeWhile_imp hc)

theorem val_le_of_isDigit (h : c.isDigit) : c.val ≤ 0x7F := by
  rw [Char.isDigit, Bool.and_eq_true, decide_eq_true_iff, decide_eq_true_iff] at h
  exact UInt32.le_trans h.2 (by decide)

theorem Clear.skipDigits (h : s.Clear) : ∃ s', s.skipWhile Char.isDigit = .ok s' ∧ Moves s s' :=
  h.skipWhile fun _ => val_le_of_isDigit

theorem rest_of_peek (h : ¬ s.isAtEnd) : ∃ r, s.rest = s.peek :: r := by
  rw [isAtEnd_iff] at h
  obtain ⟨c, r, hr⟩ := exists_cons_of_ne_nil h
  exact ⟨r, by rw [peek_of_rest hr, hr]⟩

theorem Clear.fraction (h : s.Clear) : ∃ r, s.fraction = .ok r ∧ Moves s r.2 := by
  rw [Lexer.fraction]
  split
  case isTrue hc =>
    obtain ⟨r, hr⟩ := rest_of_peek hc.1
    have hm := h.moves_one hr (by rw [hc.2.1]; decide)
    obtain ⟨s', hs, hm'⟩ := hm.clear.skipDigits
    rw [advance_of_rest hr]
    simp only [bind, Except.bind, hs]
    exact ⟨_, rfl, hm.trans hm'⟩
  case isFalse => exact ⟨_, rfl, h.moves_refl⟩

theorem Clear.sign (h : s.Clear) : ∃ s', s.sign = .ok s' ∧ Moves s s' := by
  rw [Lexer.sign]
  split
  case isTrue hc =>
    obtain ⟨r, hr⟩ := rest_of_peek hc.1
    rw [advance_of_rest hr]
    refine ⟨_, rfl, h.moves_one hr ?_⟩
    obtain hp | hp := hc.2 <;> rw [hp] <;> decide
  case isFalse => exact ⟨_, rfl, h.moves_refl⟩

theorem Clear.exponent (h : s.Clear) : ∃ r, s.exponent isFloat = .ok r ∧ Moves s r.2 := by
  rw [Lexer.exponent]
  split
  case isTrue hc =>
    obtain ⟨r, hr⟩ := rest_of_peek hc.1
    have hm := h.moves_one hr (by obtain hp | hp := hc.2 <;> rw [hp] <;> decide)
    obtain ⟨s₁, hs₁, hm₁⟩ := hm.clear.sign
    obtain ⟨s₂, hs₂, hm₂⟩ := hm₁.clear.skipDigits
    rw [advance_of_rest hr]
    simp only [bind, Except.bind, hs₁, hs₂]
    exact ⟨_, rfl, hm.trans (hm₁.trans hm₂)⟩
  case isFalse => exact ⟨_, rfl, h.moves_refl⟩

theorem Clear.matchChar (h : s.Clear) (hc : expected.val ≤ 0x7F)
    (hm : s.matchChar expected = some s') : Moves s s' := by
  rw [Lexer.matchChar, Option.ite_none_left_eq_some, not_or, not_not] at hm
  obtain ⟨⟨he, hg⟩, hs⟩ := hm
  cases hs
  obtain ⟨r, hr⟩ := rest_of_peek he
  cases hg.symm.trans (getElem?_of_rest hr)
  exact h.moves_one hr hc

theorem Clear.notEqual (h : s.Clear) : Scanned s False s.notEqual := by
  rw [Lexer.notEqual]
  split
  case h_1 s' hs =>
    have hm := h.matchChar (by decide) hs
    exact .after hm.toContinues hm.clear.scanned_emit
  case h_2 => exact .error id

-- A token is chosen by the characters that follow.
def Chooses (f : Lexer → TokenType × Lexer) : Prop :=
  ∀ s : Lexer, s.Clear → Moves s (f s).2

theorem Chooses.ifMatch (hc : expected.val ≤ 0x7F) (hy : Chooses yes) (hn : Chooses no) :
    Chooses fun s => s.ifMatch expected yes no := by
  intro s h
  change Moves s (s.ifMatch expected yes no).2
  rw [Lexer.ifMatch]
  split
  case h_1 s' hs => exact (h.matchChar hc hs).trans (hy _ (h.matchChar hc hs).clear)
  case h_2 => exact hn s h

theorem chooses_token (t : TokenType) : Chooses fun s => (t, s) :=
  fun _ h => h.moves_refl

theorem Clear.moves_depth (h : s.Clear) : Moves s { s with parenDepth := depth } where
  source := rfl
  start := rfl
  stack := rfl
  le := le_rfl
  placed := ⟨h.start_le, h.current_le⟩
  column := Nat.zero_lt_of_lt h.lt
  clear := ⟨⟨h.start_le, h.current_le⟩, h.ascii, h.lt⟩

theorem chooses_opened (t : TokenType) : Chooses fun s => (t, s.opened) :=
  fun _ h => h.moves_depth

theorem chooses_closed (t : TokenType) : Chooses fun s => (t, s.closed) :=
  fun _ h => h.moves_depth

theorem chooses_operator (h : operator c = some f) : Chooses f := by
  unfold operator at h
  split at h <;> cases h
  iterate 3
    exact chooses_opened _
    exact chooses_closed _
  iterate 4 exact chooses_token _
  · exact .ifMatch (by decide) (chooses_token _) (chooses_token _)
  · exact .ifMatch (by decide) (chooses_token _) <|
      .ifMatch (by decide) (chooses_token _) (chooses_token _)
  iterate 2
    exact .ifMatch (by decide) (.ifMatch (by decide) (chooses_token _) (chooses_token _))
      (.ifMatch (by decide) (chooses_token _) (chooses_token _))
  · exact .ifMatch (by decide) (chooses_token _) (chooses_token _)
  · exact chooses_token _
  iterate 3 exact .ifMatch (by decide) (chooses_token _) (chooses_token _)

-- Where a string ends: the number of characters in front of the quote and the column there. A
-- backslash at the end of the source is dangling.
inductive Closing
  | closed (n column : ℕ)
  | unterminated
  | dangling

def Closing.add (k : ℕ) : Closing → Closing
  | closed n column => closed (n + k) column
  | unterminated => unterminated
  | dangling => dangling

-- A newline that is not escaped begins a new column.
def closing (quote : Char) : ℕ → List Char → Closing
  | _, [] => .unterminated
  | column, [c] =>
    if c = quote then .closed 0 column else if c = '\\' then .dangling else .unterminated
  | column, c :: e :: rest =>
    if c = quote then .closed 0 column
    else if c = '\\' then (closing quote (column + 2) rest).add 2
    else (closing quote ((if c = '\n' then 1 else column) + 1) (e :: rest)).add 1

theorem closing_quote : closing quote column (quote :: r) = .closed 0 column := by
  cases r
  case nil | cons => rw [closing, if_pos rfl]

theorem closing_cons (hq : c ≠ quote) (hb : c ≠ '\\') :
    closing quote column (c :: r) =
      (closing quote ((if c = '\n' then 1 else column) + 1) r).add 1 := by
  cases r
  case nil => exact (if_neg hq).trans (if_neg hb)
  case cons => rw [closing, if_neg hq, if_neg hb]

-- How the loop over the characters of a string ends.
inductive Ends (quote : Char) (s : Lexer) : Closing → Result (List Char × Lexer) → Prop
  | closed {n column line : ℕ} {value r : List Char} (hr : s.rest.drop n = quote :: r) :
    Ends quote s (.closed n column)
      (.ok (value, { s with current := s.current + n, column := column, line := line }))
  | unterminated {value : List Char} {s' : Lexer} (h : s'.isAtEnd) :
    Ends quote s .unterminated (.ok (value, s'))
  | dangling : Ends quote s .dangling (.error .panic)

theorem Ends.add {line : ℕ}
    (h : Ends quote { s with current := s.current + k, column := column, line := line } e x) :
    Ends quote s (e.add k) x := by
  cases h
  case closed n column line value r hr =>
    have hr' : s.rest.drop (n + k) = quote :: r := by
      rw [Nat.add_comm, ← drop_drop, ← rest_skip]
      exact hr
    have he : s.current + k + n = s.current + (n + k) := by omega
    simp only [he]
    exact .closed hr'
  case unterminated h => exact .unterminated h
  case dangling => exact .dangling

theorem ends_stringBody (h : s.rest.length < rounds) :
    Ends quote s (closing quote s.column s.rest) (stringBody quote rounds value s) := by
  induction rounds generalizing s value
  case zero => exact absurd h (Nat.not_lt_zero _)
  case succ rounds hi =>
    rw [stringBody]
    cases hr : s.rest
    case nil =>
      rw [if_pos (.inl (isAtEnd_iff.mpr hr))]
      exact .unterminated (isAtEnd_iff.mpr hr)
    case cons c r =>
      rw [hr, length_cons] at h
      by_cases hq : c = quote
      case pos =>
        rw [if_pos (.inr ((peek_of_rest hr).trans hq)), ← hq, closing_quote]
        exact .closed hr
      rw [if_neg (by rw [peek_of_rest hr]; exact not_or.mpr ⟨not_isAtEnd_of_rest hr, hq⟩)]
      by_cases hb : c = '\\'
      case pos =>
        have hnl : c ≠ '\n' := by rw [hb]; decide
        simp only [peek_of_rest hr, if_neg hnl, if_pos hb, advance_of_rest hr, bind, Except.bind]
        have hr₁ := rest_skip_one hr
        cases r
        case nil =>
          have hpanic : (s.skip 1).advance = .error .panic := by
            have hnone := drop_eq_nil_iff.mp hr₁
            rw [advance, getElem?_eq_none hnone]
          rw [hpanic, closing, if_neg hq, if_pos hb]
          exact .dangling
        case cons e r' =>
          have hlen : ((s.skip 1).skip 1).rest.length < rounds := by
            rw [rest_skip_one hr₁]
            rw [length_cons] at h
            omega
          rw [advance_of_rest hr₁, closing, if_neg hq, if_pos hb]
          have hends := @hi _ (value ++ [unescape e]) hlen
          rw [rest_skip_one hr₁] at hends
          exact .add hends
      case neg =>
        rw [closing_cons hq hb]
        -- The column may begin anew, which does not change what is left to read.
        have hone {t : Lexer} (ht : t.rest = c :: r) : (t.skip 1).rest.length < rounds := by
          rw [rest_skip_one ht]
          omega
        by_cases hnl : c = '\n'
        case pos =>
          have hr₁ : { s with line := s.line + 1, column := 1 }.rest = c :: r := hr
          have hends := @hi _ (value ++ [c]) (hone hr₁)
          rw [rest_skip_one hr₁] at hends
          simp only [peek_of_rest hr, if_pos hnl, peek_of_rest hr₁, if_neg hb, advance_of_rest hr₁]
          exact .add hends
        case neg =>
          have hends := @hi _ (value ++ [c]) (hone hr)
          rw [rest_skip_one hr] at hends
          simp only [peek_of_rest hr, if_neg hnl, if_neg hb, advance_of_rest hr]
          exact .add hends

-- The string is not closed, but there is nothing behind the last backslash, or it ends in a column
-- that is smaller than its length.
def Unspannable (text rest : List Char) : Closing → Prop
  | .closed n column => column + 1 < byteLength (text ++ rest.take (n + 1))
  | .unterminated => False
  | .dangling => True

theorem Placed.string (h : s.Placed) :
    Scanned s (Unspannable s.text s.rest (closing quote s.column s.rest)) (s.string quote) := by
  rw [Lexer.string]
  have hends := @ends_stringBody s s.rounds quote [] length_rest_lt_rounds
  generalize closing quote s.column s.rest = e at hends
  generalize stringBody quote s.rounds [] s = x at hends
  cases hends
  case dangling => exact .panic trivial
  case unterminated value s' hend =>
    simp only [bind, Except.bind, if_pos hend]
    exact .error id
  case closed n column line value r hr =>
    have hlen : n + 1 ≤ s.rest.length := by
      have := congrArg length hr
      rw [length_drop, length_cons] at this
      omega
    have hplaced := h.skip hlen
    have htext := h.text_skip (n := n + 1)
    have hr' : { s with current := s.current + n, column := column, line := line }.rest =
        quote :: r := by
      rw [← hr, ← rest_skip]
      rfl
    simp only [bind, Except.bind, isAtEnd_of_rest hr', Bool.false_eq_true, if_false,
      advance_of_rest hr']
    generalize ht : Lexer.skip _ 1 = t
    have hc : Continues s t := by
      subst ht
      exact ⟨rfl, rfl, rfl, Nat.le_add_right s.current (n + 1), ⟨hplaced.1, hplaced.2⟩,
        Nat.succ_pos _⟩
    refine .after hc <| .congr ?_ <| hc.placed.scanned_emit hc.column
    subst ht
    exact (not_congr (htext ▸ Iff.rfl)).trans Nat.not_le

theorem Placed.comment (h : s.Placed) (hc : 0 < s.column) : Scanned s False (s.skipWhile p) := by
  rw [skipWhile_eq]
  exact .ok id (h.continues_skip hc (List.takeWhile_prefix p).length_le)

theorem Scanned.of_not_bad (hb : ¬ bad) (h : Scanned s False x) : Scanned s bad x :=
  h.congr (iff_of_false id hb)

-- The characters of operators are neither letters nor quotes.
theorem of_operator (h : operator c = some f) :
    c.val ≤ 0x7F ∧ c.isAlpha = false ∧ c ≠ '_' ∧ ¬ (c = '"' ∨ c = '\'') := by
  unfold operator at h
  split at h <;> cases h <;> decide

theorem of_isDigit (h : c.isDigit) : c.isAlpha = false ∧ c ≠ '_' ∧ ¬ (c = '"' ∨ c = '\'') := by
  refine ⟨?_, ?_, ?_⟩
  · simp only [Char.isDigit, Bool.and_eq_true, decide_eq_true_eq] at h
    rw [Bool.eq_false_iff]
    intro ha
    obtain hu | hl := Bool.or_eq_true _ _ |>.mp (show (c.isUpper || c.isLower) = true from ha)
    · have hu : 'A'.val ≤ c.val := (of_decide_eq_true hu).1
      exact absurd (UInt32.le_trans hu h.2) (by decide)
    · have hl : 'a'.val ≤ c.val := of_decide_eq_true (Bool.and_eq_true _ _ |>.mp hl).1
      exact absurd (UInt32.le_trans hl h.2) (by decide)
  · rintro rfl
    exact absurd h (by decide)
  · rintro (rfl | rfl) <;> exact absurd h (by decide)

theorem Clear.newline (h : s.Clear) : Scanned s False s.newline := by
  have hcont {t : Lexer} (ht : Continues s t) :
      Continues s { t with line := t.line + 1, column := 1, atLineStart := true } :=
    ⟨ht.source, ht.start, ht.stack, ht.le, ⟨ht.placed.1, ht.placed.2⟩, Nat.one_pos⟩
  rw [Lexer.newline]
  split
  case isTrue =>
    rw [h.emit h.narrow]
    exact .ok id (hcont ⟨rfl, rfl, rfl, le_rfl, ⟨h.start_le, h.current_le⟩, Nat.zero_lt_of_lt h.lt⟩)
  case isFalse => exact .ok id (hcont h.moves_refl.toContinues)

section Indentation

variable {spaces : ℕ}

-- Only the tokens and the indents have changed.
structure Same (s s' : Lexer) : Prop where
  source : s'.source = s.source
  start : s'.start = s.start
  current : s'.current = s.current
  column : s'.column = s.column

theorem Same.trans (h : Same s s') (h' : Same s' s'') : Same s s'' :=
  ⟨h'.source.trans h.source, h'.start.trans h.start, h'.current.trans h.current,
    h'.column.trans h.column⟩

theorem Clear.same (hc : s.Clear) (h : Same s s') : s'.Clear := by
  have ht : s'.text = s.text := by rw [text, text, h.source, h.start, h.current]
  exact {
    start_le := by rw [h.start, h.current]; exact hc.start_le
    current_le := by rw [h.source, h.current]; exact hc.current_le
    ascii := ht ▸ hc.ascii
    lt := by rw [ht, h.column]; exact hc.lt }

theorem Clear.emit_levels (hc : s.Clear) : ∃ s',
    { s with indentStack := levels }.emit t = .ok s' ∧ s'.indentStack = levels ∧ Same s s' := by
  have hc' : { s with indentStack := levels }.Clear := hc.same ⟨rfl, rfl, rfl, rfl⟩
  exact ⟨_, hc'.emit hc'.narrow, rfl, rfl, rfl, rfl, rfl⟩

theorem Clear.dedent (hc : s.Clear) (hs : s.indentStack = levels) : ∃ s',
    dedent spaces levels s = .ok s' ∧ s'.indentStack = levels.dropWhile (spaces < ·) ∧
      Same s s' := by
  induction levels generalizing s
  case nil => exact ⟨s, rfl, hs, rfl, rfl, rfl, rfl⟩
  case cons level levels hi =>
    rw [Lexer.dedent, dropWhile_cons]
    by_cases hl : spaces < level
    case neg => exact ⟨s, if_neg hl, by rw [hs, if_neg (by simpa using hl)], rfl, rfl, rfl, rfl⟩
    case pos =>
      obtain ⟨s₁, he, hs₁, hsame⟩ := @Clear.emit_levels s levels .dedent hc
      obtain ⟨s₂, hd, hs₂, hsame'⟩ := hi (hc.same hsame) hs₁
      rw [if_pos hl, he, if_pos (by simpa using hl)]
      exact ⟨s₂, hd, hs₂, hsame.trans hsame'⟩

-- The outermost level is no indent at all.
def Grounded (levels : List ℕ) : Prop :=
  levels.getLast? = some 0

theorem Grounded.cons (h : Grounded levels) : Grounded (spaces :: levels) := by
  cases levels
  case nil => cases h
  case cons => exact h

theorem Grounded.dropWhile (h : Grounded levels) : Grounded (levels.dropWhile (spaces < ·)) := by
  induction levels
  case nil => exact h
  case cons level levels hi =>
    rw [dropWhile_cons]
    split
    case isFalse => exact h
    case isTrue hlt =>
      refine hi ?_
      cases levels
      case nil => cases h; simp at hlt
      case cons => exact h

def indentation (s : Lexer) : ℕ :=
  width (s.rest.takeWhile isBlank)

def afterBlanks (s : Lexer) : List Char :=
  s.rest.dropWhile isBlank

-- A line that is neither blank nor a comment goes back to a level that is not on the stack.
def Misaligned (s : Lexer) : Prop :=
  (∃ c r, s.afterBlanks = c :: r ∧ c ≠ '\n' ∧ c ≠ '#') ∧
    (∃ level ∈ s.indentStack.head?, s.indentation < level) ∧
      (s.indentStack.dropWhile (s.indentation < ·)).head? ≠ some s.indentation

-- The lexer behind the blanks at the front of a line.
structure Indented (s s' : Lexer) : Prop where
  source : s'.source = s.source
  moved : s'.current = s.current + (s.rest.takeWhile isBlank).length
  column : s'.column = s.column + (s.rest.takeWhile isBlank).length
  rest : s'.rest = s.afterBlanks
  clear : s'.Clear
  stack : Grounded s'.indentStack
  start : ∀ c r, s'.rest = c :: r → c ≠ '\n' → c ≠ '#' → s'.start = s'.current

theorem Clear.indent (hc : s.Clear) (hg : Grounded s.indentStack) :
    (∃ e, s.indent spaces currentIndent = .error (.error e) ∧ spaces < currentIndent ∧
      (s.indentStack.dropWhile (spaces < ·)).head? ≠ some spaces) ∨
    ∃ s', s.indent spaces currentIndent = .ok s' ∧ Same s s' ∧ Grounded s'.indentStack ∧
      ¬ (spaces < currentIndent ∧
        (s.indentStack.dropWhile (spaces < ·)).head? ≠ some spaces) := by
  rw [Lexer.indent]
  split_ifs with hgt hlt
  case pos =>
    obtain ⟨s', he, hs', hsame⟩ := @Clear.emit_levels s (spaces :: s.indentStack) .indent hc
    exact .inr ⟨s', he, hsame, hs' ▸ hg.cons, fun h => hgt.not_gt h.1⟩
  case pos =>
    obtain ⟨s', hd, hs', hsame⟩ := @Clear.dedent s spaces s.indentStack hc rfl
    simp only [hd, bind, Except.bind, hs']
    split
    case isTrue hne => exact .inl ⟨_, rfl, hlt, hne⟩
    case isFalse hne => exact .inr ⟨s', rfl, hsame, hs' ▸ hg.dropWhile, fun h => hne h.2⟩
  case neg => exact .inr ⟨s, rfl, ⟨rfl, rfl, rfl, rfl⟩, hg, fun h => hlt h.1⟩

theorem handleIndentation_cases (hp : s.Placed) (hs : s.start = s.current) (hc : 0 < s.column)
    (hg : Grounded s.indentStack) : (∃ e, s.handleIndentation = .error (.error e) ∧ s.Misaligned) ∨
      ∃ s', s.handleIndentation = .ok s' ∧ ¬ s.Misaligned ∧ Indented s s' := by
  have hpre := takeWhile_prefix isBlank (l := s.rest)
  have hclear : (s.skip (s.rest.takeWhile isBlank).length).Clear := by
    refine (clear_of_start hp hs hc).skip hpre.length_le ?_
    rw [← prefix_iff_eq_take.mp hpre]
    intro c hm
    have hb : c = ' ' ∨ c = '\t' := by simpa [isBlank] using mem_takeWhile_imp hm
    obtain rfl | rfl := hb <;> decide
  have hrest : (s.skip (s.rest.takeWhile isBlank).length).rest = s.afterBlanks := by
    have hd := @drop_left _ (s.rest.takeWhile isBlank) (s.rest.dropWhile isBlank)
    rwa [takeWhile_append_dropWhile, ← rest_skip] at hd
  rw [handleIndentation, countSpaces_eq length_rest_lt_rounds]
  simp only [bind, Except.bind, Nat.zero_add]
  -- Blank lines and comments are left to the scanner.
  have hblank (h : ∀ c r, s.afterBlanks = c :: r → c = '\n' ∨ c = '#') : ¬ s.Misaligned ∧
      Indented s (s.skip (s.rest.takeWhile isBlank).length) := by
    refine ⟨?_, rfl, rfl, rfl, hrest, hclear, hg, ?_⟩
    · rintro ⟨⟨c, r, hb, hn, hh⟩, -⟩
      exact (h c r hb).elim hn hh
    · intro c r hr hn hh
      exact ((h c r (hrest ▸ hr)).elim hn hh).elim
  cases hb : s.afterBlanks
  case nil =>
    rw [if_pos (.inl (isAtEnd_iff.mpr (hrest.trans hb)))]
    exact .inr ⟨_, rfl, hblank fun c r hr => by cases hb.symm.trans hr⟩
  case cons c r =>
    have hr := hrest.trans hb
    rw [isAtEnd_of_rest hr, peek_of_rest hr]
    by_cases hskip : c = '\n' ∨ c = '#'
    case pos =>
      rw [if_pos (.inr hskip)]
      refine .inr ⟨_, rfl, hblank fun c' r' hr' => ?_⟩
      cases hb.symm.trans hr'
      exact hskip
    rw [if_neg (by simpa using hskip)]
    rw [not_or] at hskip
    cases hl : s.indentStack
    case nil => rw [hl] at hg; cases hg
    case cons level levels =>
      have hskip' : (s.skip (s.rest.takeWhile isBlank).length).indentStack = level :: levels := hl
      have hmis : s.Misaligned ↔ s.indentation < level ∧
          (s.indentStack.dropWhile (s.indentation < ·)).head? ≠ some s.indentation := by
        constructor
        · rintro ⟨-, ⟨level', hl', hlt⟩, hne⟩
          rw [hl] at hl'
          cases hl'
          exact ⟨hlt, hne⟩
        · rintro ⟨hlt, hne⟩
          exact ⟨⟨c, r, hb, hskip⟩, ⟨level, by rw [hl]; rfl, hlt⟩, hne⟩
      simp only [hskip']
      obtain ⟨e, he, hbad⟩ | ⟨s', he, hsame, hg', hok⟩ :=
        @Clear.indent _ s.indentation level hclear hg
      · rw [indentation] at he
        rw [he]
        exact .inl ⟨e, rfl, hmis.mpr hbad⟩
      · rw [indentation] at he
        rw [he]
        have hc' := hclear.same hsame
        refine .inr ⟨_, rfl, hmis.not.mpr hok, hsame.source, hsame.current, hsame.column, ?_, ?_,
          hg', fun _ _ _ _ _ => rfl⟩
        · rw [← hrest, rest, rest, ← hsame.source, ← hsame.current]
        · exact clear_of_start ⟨le_rfl, hc'.current_le⟩ rfl (Nat.zero_lt_of_lt hc'.lt)

end Indentation

-- Neither a panic nor a loop without an end.
def Returns {α : Type} (x : Result α) : Prop :=
  x ≠ .error .panic ∧ x ≠ .error .limit

theorem returns_ok {α : Type} {a : α} : Returns (.ok a) := by
  constructor <;> intro h <;> cases h

theorem returns_error {α : Type} : Returns (.error (.error e) : Result α) := by
  constructor <;> intro h <;> cases h

theorem Placed.dedents (h : s.Placed) (hn : s.Narrow) : ∃ s',
    dedents levels s = .ok s' ∧ s'.Placed ∧ s'.Narrow := by
  induction levels generalizing s
  case nil => exact ⟨s, rfl, h, hn⟩
  case cons level levels hi =>
    cases levels
    case nil => exact ⟨s, rfl, h, hn⟩
    case cons level' levels =>
      have hp : { s with indentStack := level' :: levels }.Placed := ⟨h.start_le, h.current_le⟩
      rw [Lexer.dedents, hp.emit hn]
      · exact hi ⟨h.start_le, h.current_le⟩ hn
      · exact List.cons_ne_nil level' levels

theorem Placed.dedents_cases (h : s.Placed) (hn : ¬ s.Narrow) :
    Lexer.dedents levels s = .error .panic ∨ Lexer.dedents levels s = .ok s := by
  obtain _ | ⟨level, _ | ⟨level', levels⟩⟩ := levels
  · exact .inr rfl
  · exact .inr rfl
  · have hp : { s with indentStack := level' :: levels }.Placed := ⟨h.start_le, h.current_le⟩
    rw [Lexer.dedents, hp.emit_panic hn]
    · exact .inl rfl
    · exact List.cons_ne_nil level' levels

-- The lexer between two tokens.
structure Between (s : Lexer) : Prop where
  placed : s.Placed
  column : 0 < s.column
  stack : Grounded s.indentStack

theorem Continues.between (h : Continues s s') (hg : Grounded s.indentStack) : s'.Between :=
  ⟨h.placed, h.column, h.stack ▸ hg⟩

theorem Between.start (h : s.Between) : { s with start := s.current }.Between :=
  ⟨⟨le_rfl, h.placed.current_le⟩, h.column, h.stack⟩

theorem between_new {source : String} : (new source).Between :=
  ⟨⟨le_rfl, Nat.zero_le _⟩, Nat.one_pos, rfl⟩

section Unicode

variable [Unicode]

theorem Clear.literal (h : s.Clear) : Scanned s False (s.literal isFloat) := by
  rw [Lexer.literal, h.lexeme]
  simp only [bind, Except.bind]
  split <;> split
  · exact .error id
  · exact h.scanned_emit
  · exact .error id
  · exact h.scanned_emit

theorem Clear.number (h : s.Clear) : Scanned s False s.number := by
  obtain ⟨s₁, hs₁, hm₁⟩ := h.skipDigits
  obtain ⟨r₂, hs₂, hm₂⟩ := hm₁.clear.fraction
  obtain ⟨r₃, hs₃, hm₃⟩ := @Clear.exponent r₂.2 r₂.1 hm₂.clear
  rw [Lexer.number, hs₁]
  simp only [bind, Except.bind, hs₂, hs₃]
  exact .after (hm₁.trans (hm₂.trans hm₃)).toContinues hm₃.clear.literal

theorem Placed.identifier (h : s.Placed) (hc : 0 < s.column) :
    Scanned s (s.column + (s.rest.takeWhile isIdentifier).length <
      byteLength (s.text ++ s.rest.takeWhile isIdentifier)) s.identifier := by
  have hpre := takeWhile_prefix isIdentifier (l := s.rest)
  have hcont := h.continues_skip hc hpre.length_le
  rw [Lexer.identifier, skipWhile_eq]
  simp only [bind, Except.bind, hcont.placed.lexeme]
  refine .after hcont <| .congr ?_ <| hcont.placed.scanned_emit hcont.column
  rw [Narrow, h.text_skip, ← prefix_iff_eq_take.mp hpre]
  exact Nat.not_le

-- A token at the column that has no span.
def BadToken (column : ℕ) : List Char → Prop
  | [] => False
  | c :: rest =>
    if c = '"' ∨ c = '\'' then Unspannable [c] rest (closing c (column + 1) rest)
    else if Unicode.isAlphabetic c ∨ c = '_' then
      column + 1 + (rest.takeWhile isIdentifier).length <
        byteLength (c :: rest.takeWhile isIdentifier)
    else False

theorem not_badToken (h : c.val ≤ 0x7F ∧ c.isAlpha = false ∧ c ≠ '_' ∧ ¬(c = '"' ∨ c = '\'')) :
    ¬ BadToken column (c :: r) := by
  obtain ⟨ha, hl, hu, hq⟩ := h
  rw [BadToken, if_neg hq, if_neg]
  · exact id
  · rw [Unicode.isAlphabetic_ascii c ha, hl]
    exact not_or.mpr ⟨Bool.false_ne_true, hu⟩

-- The state is the one in front of the character.
theorem Clear.scanOther (h : s.Clear) (hr : s.rest = c :: r) (hn : c ≠ '\n')
    (hs : c ≠ '#' → s.start = s.current) :
    Scanned (s.skip 1) (BadToken s.column s.rest) (scanOther c (s.skip 1)) := by
  have hlen : 1 ≤ s.rest.length := by rw [hr]; exact Nat.succ_le_succ (Nat.zero_le _)
  have hp : (s.skip 1).Placed := h.toPlaced.skip hlen
  have hcol : 0 < (s.skip 1).column := Nat.succ_pos _
  have hrest := rest_skip_one hr
  have htext (hs : s.start = s.current) : (s.skip 1).text = [c] := by
    rw [h.text_skip, text_eq_nil hs, hr]
    rfl
  have hclear (ha : c.val ≤ 0x7F) : (s.skip 1).Clear := (h.moves_one hr ha).clear
  rw [hr]
  unfold Lexer.scanOther
  split
  iterate 3
    exact .of_not_bad (not_badToken (by decide)) <| .ok id ⟨rfl, rfl, rfl, le_rfl, hp, hcol⟩
  · exact .of_not_bad (not_badToken (by decide)) (hp.comment hcol)
  · exact .of_not_bad (not_badToken (by decide)) (hclear (by decide)).notEqual
  iterate 2
    refine .congr ?_ hp.string
    rw [htext (hs (by decide)), hrest, BadToken, if_pos (by decide)]
    rfl
  · rename_i hhash _ hdouble hsingle
    have hq : ¬ (c = '"' ∨ c = '\'') := not_or.mpr ⟨hdouble, hsingle⟩
    split
    case h_1 f hf =>
      have ho := of_operator hf
      have hm := chooses_operator hf _ (hclear ho.1)
      exact .of_not_bad (not_badToken ho) <| .after hm.toContinues hm.clear.scanned_emit
    case h_2 =>
      split_ifs with hd hi
      · have ha := val_le_of_isDigit hd
        exact .of_not_bad (not_badToken ⟨ha, of_isDigit hd⟩) (hclear ha).number
      · have hi : Unicode.isAlphabetic c ∨ c = '_' := by simpa using hi
        refine .congr ?_ (hp.identifier hcol)
        rw [htext (hs hhash), hrest, BadToken, if_neg hq, if_pos hi]
        rfl
      · have hi : ¬ (Unicode.isAlphabetic c ∨ c = '_') := by simpa using hi
        refine .of_not_bad ?_ (.error id)
        rw [BadToken, if_neg hq, if_neg hi]
        exact id

theorem Clear.scanChar (h : s.Clear) (hr : s.rest = c :: r)
    (hs : c ≠ '\n' → c ≠ '#' → s.start = s.current) :
    Scanned (s.skip 1) (BadToken s.column s.rest) (scanChar c (s.skip 1)) := by
  rw [Lexer.scanChar]
  split
  case isTrue hn =>
    subst hn
    rw [hr]
    exact .of_not_bad (not_badToken (by decide)) (h.moves_one hr (by decide)).clear.newline
  case isFalse hn =>
    have ho := h.scanOther hr hn (hs hn)
    generalize Lexer.scanOther c (s.skip 1) = x at ho
    cases ho
    case error hb => exact .error hb
    case panic hb => exact .panic hb
    case ok hb h' =>
      exact .ok hb ⟨h'.source, h'.start, h'.stack, h'.le, ⟨h'.placed.1, h'.placed.2⟩, h'.column⟩

-- At the start of a line the blanks come first, and may end the scan.
def Bad (s : Lexer) : Prop :=
  if s.atLineStart ∧ s.parenDepth = 0 then
    ¬ s.Misaligned ∧ BadToken (s.column + (s.rest.takeWhile isBlank).length) s.afterBlanks
  else BadToken s.column s.rest

-- One step of the loop over the tokens.
inductive Steps (s : Lexer) : Result Lexer → Prop
  | ok {s' : Lexer} (hb : ¬ s.Bad) (h : s'.Between) (hs : s'.source = s.source)
    (hlt : s.current < s'.current) : Steps s (.ok s')
  | error {e : Error} (hb : ¬ s.Bad) : Steps s (.error (.error e))
  | panic (hb : s.Bad) : Steps s (.error .panic)

theorem Scanned.steps (h : Scanned u bad x) (hb : s.Bad ↔ bad) (hg : Grounded u.indentStack)
    (hs : u.source = s.source) (hlt : s.current < u.current) : Steps s x := by
  cases h
  case ok hn h => exact .ok (hb.not.mpr hn) (h.between hg) (h.source.trans hs) (hlt.trans_le h.le)
  case error hn => exact .error (hb.not.mpr hn)
  case panic hn => exact .panic (hb.mpr hn)

theorem Between.scanToken (h : s.Between) (hs : s.start = s.current) (hend : ¬ s.isAtEnd) :
    Steps s s.scanToken := by
  rw [Lexer.scanToken]
  split
  case isFalse hl =>
    obtain ⟨r, hr⟩ := rest_of_peek hend
    have hclear := clear_of_start h.placed hs h.column
    simp only [bind, Except.bind, if_neg hend, advance_of_rest hr]
    refine (hclear.scanChar hr fun _ _ => hs).steps ?_ h.stack rfl (Nat.lt_succ_self _)
    rw [Bad, if_neg hl]
  case isTrue hl =>
    obtain ⟨e, he, hm⟩ | ⟨s₁, he, hm, hi⟩ := handleIndentation_cases h.placed hs h.column h.stack
    · rw [he]
      exact .error (by rw [Bad, if_pos hl]; exact fun hb => hb.1 hm)
    · have hbad : s.Bad ↔ BadToken s₁.column s₁.rest := by
        rw [Bad, if_pos hl, hi.rest, hi.column, and_iff_right hm]
      simp only [he, bind, Except.bind]
      cases hr : s₁.rest
      case nil =>
        rw [if_pos (isAtEnd_iff.mpr hr)]
        refine .ok (by rw [hbad, hr]; exact id) ⟨hi.clear.toPlaced, ?_, hi.stack⟩ hi.source ?_
        · exact Nat.zero_lt_of_lt hi.clear.lt
        · rw [isAtEnd_iff] at hend
          rw [rest, hi.source, List.drop_eq_nil_iff] at hr
          rw [rest, List.drop_eq_nil_iff] at hend
          omega
      case cons c r =>
        rw [if_neg (not_isAtEnd_of_rest hr)]
        simp only [advance_of_rest hr]
        refine (hi.clear.scanChar hr (hi.start c r hr)).steps hbad hi.stack hi.source ?_
        show s.current < s₁.current + 1
        rw [hi.moved]
        omega

-- The loop over the tokens as a run of single steps.
def next (s : Lexer) : Option (Unit × Lexer) :=
  if s.isAtEnd then none
  else ({ s with start := s.current }.scanToken).toOption.map fun s' => ((), s')

def Reaches (source : String) (s : Lexer) : Prop :=
  ∃ steps, Runs next (new source) steps s

theorem Between.next (h : s.Between) (hn : next s = some ((), s')) :
    s'.Between ∧ s'.source = s.source ∧ s.current < s'.current ∧ ¬ s.isAtEnd ∧ ¬ s.Bad := by
  rw [Lexer.next, Option.ite_none_left_eq_some] at hn
  obtain ⟨hend, hn⟩ := hn
  have hs := h.start.scanToken rfl hend
  generalize { s with start := s.current }.scanToken = x at hs hn
  cases hs
  case error | panic => cases hn
  case ok hb hbet hsrc hlt =>
    cases hn
    exact ⟨hbet, hsrc, hlt, hend, hb⟩

theorem Between.runs (h : s.Between) (hr : Runs Lexer.next s steps s') : s'.Between := by
  induction hr
  case refl => exact h
  case step hn hr hi => exact hi (h.next hn).1

-- The run ends at a state from which there is no step: at the end of the source, or at a token that
-- cannot be scanned.
theorem Between.scanTokens (h : s.Between) (hr : s.rest.length < rounds) :
    ∃ steps t, Runs Lexer.next s steps t ∧ Lexer.next t = none ∧
      (t.isAtEnd ∧ scanTokens rounds s = .ok t ∨ ¬ t.isAtEnd ∧ ∃ f,
        { t with start := t.current }.scanToken = .error f ∧ scanTokens rounds s = .error f) := by
  induction rounds generalizing s
  case zero => exact absurd hr (Nat.not_lt_zero _)
  case succ rounds hi =>
    rw [Lexer.scanTokens]
    by_cases hend : s.isAtEnd
    case pos =>
      exact ⟨[], s, .refl, if_pos hend, .inl ⟨hend, if_pos hend⟩⟩
    rw [if_neg hend]
    cases hx : { s with start := s.current }.scanToken
    case error f =>
      refine ⟨[], s, .refl, ?_, .inr ⟨hend, f, hx, rfl⟩⟩
      rw [Lexer.next, if_neg hend, hx]
      rfl
    case ok s₁ =>
      have hn : Lexer.next s = some ((), s₁) := by
        rw [Lexer.next, if_neg hend, hx]
        rfl
      obtain ⟨hb, hsrc, hlt, -⟩ := h.next hn
      have hlen : s₁.rest.length < rounds := by
        rw [isAtEnd_iff, rest, List.drop_eq_nil_iff] at hend
        rw [rest, List.length_drop] at hr ⊢
        rw [hsrc]
        omega
      obtain ⟨steps, t, hruns, hstuck, ht⟩ := hi hb hlen
      exact ⟨() :: steps, t, .step hn hruns, hstuck, ht⟩

-- The tokens at the end of the source have the text of the last scan.
theorem Placed.returns_iff (h : s.Placed) {start : Lexer}
    (hs : scanTokens start.rounds start = .ok s) : Returns start.tokenize ↔ s.Narrow := by
  rw [tokenize, hs]
  by_cases hn : s.Narrow
  case pos =>
    obtain ⟨s', hd, hp, hn'⟩ := @Placed.dedents s s.indentStack h hn
    simp only [bind, Except.bind, hd, hp.emit hn']
    exact iff_of_true returns_ok hn
  case neg =>
    refine iff_of_false (fun hr => hr.1 ?_) hn
    obtain hd | hd := @Placed.dedents_cases s s.indentStack h hn
    · simp only [bind, Except.bind, hd]
    · simp only [bind, Except.bind, hd, h.emit_panic hn]

theorem tokenize_returns_iff {source : String} : Returns (new source).tokenize ↔
    (∀ s, Reaches source s → ¬ s.isAtEnd → ¬ s.Bad) ∧
      ∀ s, Reaches source s → s.isAtEnd → s.Narrow := by
  obtain ⟨steps, t, hruns, hstuck, ht⟩ :=
    (@between_new source).scanTokens length_rest_lt_rounds
  have hb := between_new.runs hruns
  -- A state that is reached is the last one, or there is a step from it.
  have hreach {s : Lexer} (hs : Reaches source s) : s = t ∨ ¬ s.isAtEnd ∧ ¬ s.Bad := by
    obtain ⟨steps', hs⟩ := hs
    obtain ⟨rest, -, hrest⟩ := hruns.split_of_stuck hstuck hs
    cases hrest
    case refl => exact .inl rfl
    case step hn _ => exact .inr ((between_new.runs hs).next hn).2.2.2
  have hiff : Returns (new source).tokenize ↔ (¬ t.isAtEnd → ¬ t.Bad) ∧ (t.isAtEnd → t.Narrow) := by
    obtain ⟨hend, hok⟩ | ⟨hend, f, hf, herr⟩ := ht
    · rw [hb.placed.returns_iff hok]
      exact ⟨fun hn => ⟨absurd hend, fun _ => hn⟩, fun h => h.2 hend⟩
    · have hstep := hb.start.scanToken rfl hend
      rw [hf] at hstep
      rw [tokenize, herr]
      cases hstep
      case error hn => exact iff_of_true returns_error ⟨fun _ => hn, fun he => absurd he hend⟩
      case panic hn => exact iff_of_false (fun hr => hr.1 rfl) fun h => h.1 hend hn
  rw [hiff]
  constructor
  · intro hn
    refine ⟨fun s hs hne => ?_, fun s hs he => ?_⟩
    · obtain rfl | hs := hreach hs
      · exact hn.1 hne
      · exact hs.2
    · obtain rfl | hs := hreach hs
      · exact hn.2 he
      · exact (hs.1 he).elim
  · exact fun h => ⟨h.1 t ⟨steps, hruns⟩, h.2 t ⟨steps, hruns⟩⟩

end Unicode

section Sample

local instance asciiUnicode : Unicode where
  isAlphabetic c := c.isAlpha || c.val > 0x7F
  isAlphanumeric c := c.isAlphanum || c.val > 0x7F
  parseF64 _ := none
  isAlphabetic_ascii c h := by simp [UInt32.not_lt.mpr h]
  isAlphanumeric_ascii c h := by simp [UInt32.not_lt.mpr h]

-- A backslash at the end of the source, a string over two lines, a wide name, and a wide comment.
theorem lexer_panics : (new "\"\\").tokenize = .error .panic ∧
    (new "'a\nb'").tokenize = .error .panic ∧ (new "éé").tokenize = .error .panic ∧
    (new "#éé").tokenize = .error .panic := by
  decide +kernel

end Sample

end Lexer

end Interpreter
