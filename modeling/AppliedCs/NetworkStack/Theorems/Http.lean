import AppliedCs.Lib.Fallible
import AppliedCs.Lib.Incremental
import AppliedCs.NetworkStack.Http

open Codec Fallible Incremental

namespace NetworkStack

open RequestParser List Option

theorem map_eq_error {A B ε : Type} {x : Except ε A} {g : A → B} {e : ε} :
    x.map g = .error e ↔ x = .error e := by
  cases x <;> simp [Except.map]

theorem bind_ne_error {A B ε : Type} {x : Except ε A} {f : A → Except ε B} {e : ε}
    (hx : x ≠ .error e) (hf : ∀ a, f a ≠ .error e) : (x >>= f) ≠ .error e := by
  cases x
  case error e' => exact fun h => hx (congrArg Except.error (Except.error.inj h))
  case ok a => exact hf a

variable {buffer : Bytes}

theorem findLineEnd_append (h : findLineEnd buffer = some i) (bs : Bytes) :
    findLineEnd (buffer ++ bs) = some i ∧ i + 2 ≤ buffer.length := by
  fun_induction findLineEnd buffer generalizing i
  case case1 a b buffer heq =>
    obtain rfl := some.inj h
    refine ⟨?_, by simp⟩
    rw [cons_append, cons_append, findLineEnd, if_pos heq]
  case case2 a b buffer hne hi =>
    obtain ⟨j, hj, rfl⟩ := map_eq_some_iff.mp h
    obtain ⟨happ, hlen⟩ := hi hj
    rw [cons_append] at happ
    refine ⟨?_, ?_⟩
    · rw [cons_append, cons_append, findLineEnd, if_neg hne, happ, map_some]
    · rw [length_cons]
      omega
  case case3 => cases h

theorem takeLine_append (h : takeLine buffer = some (line, rest)) (bs : Bytes) :
    takeLine (buffer ++ bs) = some (line, rest ++ bs) := by
  obtain ⟨i, hi, heq⟩ := map_eq_some_iff.mp h
  obtain ⟨rfl, rfl⟩ := Prod.mk.inj heq
  obtain ⟨happ, hlen⟩ := findLineEnd_append hi bs
  rw [takeLine, happ, map_some, take_append_of_le_length (by omega), drop_append_of_le_length hlen]

theorem length_takeLine (h : takeLine buffer = some (line, rest)) :
    rest.length + 2 ≤ buffer.length := by
  obtain ⟨i, hi, heq⟩ := map_eq_some_iff.mp h
  obtain ⟨rfl, rfl⟩ := Prod.mk.inj heq
  have hlen := (findLineEnd_append hi []).2
  rw [length_drop]
  omega

theorem fromUtf8_ne (message : String) (bs : Bytes) : fromUtf8 message bs ≠ .error .unwrapNone := by
  rw [fromUtf8]
  split <;> simp

namespace Parser

variable {S : Type} {p : Parser S} {read : Bytes → Except HttpError S}

def push (p : Parser S) (bs : Bytes) : Parser S :=
  { p with buffer := p.buffer ++ bs }

-- What is left to be done: the bytes, and the rounds that may take none of them.
def rank (p : Parser S) : ℕ :=
  match p.state, p.chunkState with
  | .complete, _ => 1
  | .body, _ => 2
  | .chunked, .data _ => 1
  | _, _ => 0

def size (p : Parser S) : ℕ :=
  2 * p.buffer.length + p.rank

theorem rank_le (p : Parser S) : p.rank ≤ 2 := by
  rw [rank]
  split <;> decide

def Valid (p : Parser S) : Prop :=
  p.state ≠ .requestLine → p.message.isSome

-- The outcome of a part of the parser at `p`. If it does not wait, it stays the same when more
-- bytes follow.
structure Local (f : Parser S → Except HttpError (Option (Parser S))) (p : Parser S) : Prop where
  push : f p ≠ .ok none → ∀ bs, f (p.push bs) = (f p).map (·.map (·.push bs))
  size_lt : ∀ {p'}, f p = .ok (some p') → p'.size < p.size
  valid : ∀ {p'}, f p = .ok (some p') → p'.Valid
  safe : f p ≠ .error .unwrapNone

theorem Local.congr (h : Local f p)
    (hg : ∀ q : Parser S, q.state = p.state → q.chunkState = p.chunkState → g q = f q) :
    Local g p := by
  have hp := hg p rfl rfl
  refine ⟨fun hne bs => ?_, fun hp' => h.size_lt (hp ▸ hp'), fun hp' => h.valid (hp ▸ hp'),
    fun he => h.safe (hp ▸ he)⟩
  rw [hg (p.push bs) rfl rfl, hp]
  exact h.push (hp ▸ hne) bs

-- What is done with a line or with a number of bytes does not look at the bytes that follow.
structure Acts (act : Parser S → Bytes → Except HttpError (Parser S)) (p : Parser S) : Prop where
  push : ∀ bs line, act (p.push bs) line = (act p line).map (·.push bs)
  buffer : ∀ {line p'}, act p line = .ok p' → p'.buffer = p.buffer
  valid : ∀ {line p'}, act p line = .ok p' → p'.Valid
  safe : ∀ line, act p line ≠ .error .unwrapNone

theorem onLine_local (h : ∀ rest, Acts act { p with buffer := rest }) : Local (onLine · act) p := by
  cases hl : takeLine p.buffer
  case none =>
    have hp : p.onLine act = .ok none := by rw [onLine, hl]
    exact ⟨fun h => absurd hp h, fun h => by simp [hp] at h, fun h => by simp [hp] at h,
      by simp [hp]⟩
  case some l =>
    obtain ⟨line, rest⟩ := l
    have hp : p.onLine act = (act { p with buffer := rest } line).map some := by rw [onLine, hl]
    have hok {p' : Parser S} (h' : p.onLine act = .ok (some p')) :
        act { p with buffer := rest } line = .ok p' := by
      obtain ⟨_, ha, heq⟩ := map_eq_ok_iff.mp (hp.symm.trans h')
      exact some.inj heq ▸ ha
    refine ⟨fun _ bs => ?_, fun h' => ?_, fun h' => (h rest).valid (hok h'), fun h' => ?_⟩
    · have hl' : takeLine (p.push bs).buffer = some (line, rest ++ bs) := takeLine_append hl bs
      have ha := (h rest).push bs line
      rw [hp, onLine, hl']
      refine (congrArg (Except.map some) ha).trans ?_
      cases act { p with buffer := rest } line <;> rfl
    · rename_i p'
      have hb : p'.buffer = rest := (h rest).buffer (hok h')
      have hr := length_takeLine hl
      have hrank := p'.rank_le
      rw [size, size, hb]
      omega
    · exact (h rest).safe line <| map_eq_error.mp <| hp.symm.trans h'

theorem onBytes_local (h : ∀ rest, Acts (fun p data => .ok (act p data)) { p with buffer := rest })
    (hrank : ∀ rest data, (act { p with buffer := rest } data).rank < p.rank + 2 * n) :
    Local (onBytes · n act) p := by
  by_cases hn : p.buffer.length ≥ n
  case neg =>
    have hp : p.onBytes n act = .ok none := if_neg hn
    exact ⟨fun h => absurd hp h, fun h => by simp [hp] at h, fun h => by simp [hp] at h,
      by simp [hp]⟩
  set rest := p.buffer.drop n with hrest
  set data := p.buffer.take n with hdata
  have hp : p.onBytes n act = .ok (some (act { p with buffer := rest } data)) := if_pos hn
  refine ⟨fun _ bs => ?_, fun h' => ?_, fun h' => ?_, by simp [hp]⟩
  · have hlen : (p.push bs).buffer.length ≥ n := length_append ▸ Nat.le_add_right_of_le hn
    have htake : (p.push bs).buffer.take n = data := take_append_of_le_length hn
    have hdrop : (p.push bs).buffer.drop n = rest ++ bs := drop_append_of_le_length hn
    have ha := Except.ok.inj <| (h rest).push bs data
    rw [hp, onBytes, if_pos hlen, htake, hdrop]
    exact congrArg (Except.ok <| some ·) ha
  · obtain rfl := some.inj <| Except.ok.inj <| hp.symm.trans h'
    have hb : (act { p with buffer := rest } data).buffer = rest := (h rest).buffer rfl
    have hr := hrank rest data
    have hlen : rest.length = p.buffer.length - n := length_drop
    rw [size, size, hb]
    omega
  · obtain rfl := some.inj <| Except.ok.inj <| hp.symm.trans h'
    exact (h rest).valid rfl

theorem acts_map {A : Type} {f : Bytes → Except HttpError A} {g : Parser S → A → Parser S}
    (hpush : ∀ bs a, g (p.push bs) a = (g p a).push bs) (hbuffer : ∀ a, (g p a).buffer = p.buffer)
    (hvalid : ∀ a, (g p a).Valid) (hsafe : ∀ line, f line ≠ .error .unwrapNone) :
    Acts (fun p line => (f line).map (g p)) p where
  push bs line := by
    cases f line
    case error => rfl
    case ok a => exact congrArg Except.ok (hpush bs a)
  buffer := by
    intro line p' h
    obtain ⟨a, -, rfl⟩ := map_eq_ok_iff.mp h
    exact hbuffer a
  valid := by
    intro line p' h
    obtain ⟨a, -, rfl⟩ := map_eq_ok_iff.mp h
    exact hvalid a
  safe line h := hsafe line (map_eq_error.mp h)

theorem acts_ok {g : Parser S → Bytes → Parser S}
    (hpush : ∀ bs data, g (p.push bs) data = (g p data).push bs)
    (hbuffer : ∀ data, (g p data).buffer = p.buffer) (hvalid : ∀ data, (g p data).Valid) :
    Acts (fun p data => .ok (g p data)) p :=
  acts_map (f := .ok) hpush hbuffer hvalid fun _ => nofun

theorem Acts.ite (h : Acts act p) (h' : Acts act' p) :
    Acts (fun p line => if line.isEmpty then act p line else act' p line) p where
  push bs line := by
    cases line.isEmpty
    case false => exact h'.push bs line
    case true => exact h.push bs line
  buffer {line} := by
    cases line.isEmpty
    case false => exact h'.buffer
    case true => exact h.buffer
  valid {line} := by
    cases line.isEmpty
    case false => exact h'.valid
    case true => exact h.valid
  safe line := by
    cases line.isEmpty
    case false => exact h'.safe line
    case true => exact h.safe line

theorem parseStartLine_local (hread : ∀ line, read line ≠ .error .unwrapNone) :
    Local (parseStartLine read) p :=
  onLine_local fun _ =>
    acts_map (fun _ _ => rfl) (fun _ => rfl) (fun _ _ => rfl) hread

section Headers

variable [CaseMapping]

theorem selectBody_push (headers : Headers) (bs : Bytes) :
    (p.push bs).selectBody headers = (p.selectBody headers).push bs := by
  rw [selectBody, selectBody]
  split_ifs
  case pos => rfl
  case neg => cases headers.contentLength <;> rfl

theorem selectBody_same (headers : Headers) :
    (p.selectBody headers).buffer = p.buffer ∧ (p.selectBody headers).message = p.message := by
  rw [selectBody]
  split_ifs
  case pos => exact ⟨rfl, rfl⟩
  case neg => cases headers.contentLength <;> exact ⟨rfl, rfl⟩

theorem endHeaders_acts (hm : p.message.isSome) : Acts (fun p _ => p.endHeaders) p := by
  obtain ⟨message, hm⟩ := isSome_iff_exists.mp hm
  have heq (bs : Bytes) :
      (p.push bs).endHeaders = .ok ((p.selectBody message.headers).push bs) := by
    have hm' : (p.push bs).message = some message := hm
    rw [endHeaders, hm', ← selectBody_push]
  have heq' : p.endHeaders = .ok (p.selectBody message.headers) := by rw [endHeaders, hm]
  have ⟨hbuffer, hmessage⟩ := selectBody_same (p := p) message.headers
  refine ⟨fun bs _ => ?_, fun h => ?_, fun h _ => ?_, fun _ => ?_⟩
  · rw [heq, heq', Except.map]
  · exact Except.ok.inj (heq'.symm.trans h) ▸ hbuffer
  · rw [← Except.ok.inj (heq'.symm.trans h), hmessage, hm, isSome_some]
  · rw [heq']
    exact nofun

theorem parseHeaders_local (hm : p.message.isSome) : Local parseHeaders p := by
  refine onLine_local fun rest => .ite (endHeaders_acts hm) ?_
  refine acts_map (fun _ _ => rfl) (fun _ => rfl) (fun line _ => ?_) (fromUtf8_ne _)
  rwa [isSome_map]

end Headers

theorem parseBody_local (hs : p.state = .body) (hm : p.message.isSome) : Local parseBody p := by
  let act (p : Parser S) (data : Bytes) : Parser S := { p with
    message := p.message.map fun message => { message with body := data }
    state := .complete }
  have hr : p.rank = 2 := by rw [rank, hs]
  have h : Local (onBytes · p.bodyRemaining act) p := by
    refine onBytes_local (fun rest => acts_ok (fun _ _ => rfl) (fun _ => rfl) fun _ _ => ?_) ?_
    · rwa [isSome_map]
    · intro rest data
      rw [hr]
      exact Nat.lt_add_right _ Nat.one_lt_two
  exact ⟨h.push, h.size_lt, h.valid, h.safe⟩

theorem parseChunkSize_ne (line : Bytes) : parseChunkSize line ≠ .error .unwrapNone := by
  refine bind_ne_error (fromUtf8_ne _ _) fun line => ?_
  dsimp only
  split
  · simp
  · exact nofun

-- Each of the four parts is local, and the chunk state tells which of them runs.
theorem parseChunked_local (hs : p.state = .chunked) (hm : p.message.isSome) :
    Local parseChunked p := by
  cases hc : p.chunkState
  case size =>
    refine (onLine_local fun rest => ?_).congr fun q _ hq => by rw [parseChunked, hq, hc]
    exact acts_map (fun _ _ => rfl) (fun _ => rfl) (fun _ _ => hm) parseChunkSize_ne
  case data remaining =>
    refine (onBytes_local (fun rest => ?_) ?_).congr fun q _ hq => by rw [parseChunked, hq, hc]
    · exact acts_ok (fun _ _ => rfl) (fun _ => rfl) fun _ _ => by rwa [isSome_map]
    · simp [rank, hs, hc]
  case dataEnd =>
    refine (onBytes_local (fun rest => ?_) ?_).congr fun q _ hq => by rw [parseChunked, hq, hc]
    · exact acts_ok (fun _ _ => rfl) (fun _ => rfl) fun _ _ => hm
    · simp [rank, hs, hc]
  case trailer =>
    refine (onLine_local fun rest => ?_).congr fun q _ hq => by rw [parseChunked, hq, hc]
    refine acts_ok (fun bs line => ?_) (fun line => ?_) (fun line _ => ?_)
    all_goals cases line.isEmpty
    all_goals first | rfl | exact hm

theorem size_reset_lt (hs : p.state = .complete) : p.reset.size < p.size := by
  have hr : p.rank = 1 := by rw [rank, hs]
  rw [size, size, hr]
  exact Nat.lt_succ_self _

section Round

variable [CaseMapping]

def part (read : Bytes → Except HttpError S) (p : Parser S) :
    Except HttpError (Option (Parser S)) :=
  match p.state with
  | .requestLine => p.parseStartLine read
  | .headers => p.parseHeaders
  | .body => p.parseBody
  | .chunked => p.parseChunked
  | .complete => .ok none

def round (read : Bytes → Except HttpError S) (p : Parser S) :
    Except HttpError (Option (Option (Message S) × Parser S)) :=
  if p.state = .complete then
    .ok (some (p.message, p.reset))
  else
    (p.part read).map (·.map (none, ·))

theorem part_local (hread : ∀ line, read line ≠ .error .unwrapNone) (hv : p.Valid) :
    Local (part read) p := by
  cases hs : p.state
  case requestLine =>
    exact (parseStartLine_local hread).congr fun q hq _ => by rw [part, hq, hs]
  case headers =>
    exact (parseHeaders_local (hv (by simp [hs]))).congr fun q hq _ => by rw [part, hq, hs]
  case body =>
    exact (parseBody_local hs (hv (by simp [hs]))).congr fun q hq _ => by rw [part, hq, hs]
  case chunked =>
    exact (parseChunked_local hs (hv (by simp [hs]))).congr fun q hq _ => by rw [part, hq, hs]
  case complete =>
    have hp : p.part read = .ok none := by rw [part, hs]
    exact ⟨fun h => absurd hp h, fun h => by simp [hp] at h, fun h => by simp [hp] at h,
      by simp [hp]⟩

theorem round_cases (h : p.round read = .ok (some (o, p'))) :
    (p.state = .complete ∧ o = p.message ∧ p' = p.reset) ∨
      (p.state ≠ .complete ∧ o = none ∧ p.part read = .ok (some p')) := by
  rw [round] at h
  split_ifs at h with hs
  case pos =>
    obtain ⟨rfl, rfl⟩ := Prod.mk.inj <| some.inj <| Except.ok.inj h
    exact .inl ⟨hs, rfl, rfl⟩
  case neg =>
    obtain ⟨x, hx, hm⟩ := map_eq_ok_iff.mp h
    obtain ⟨q, rfl, heq⟩ := map_eq_some_iff.mp hm
    obtain ⟨rfl, rfl⟩ := Prod.mk.inj heq
    exact .inr ⟨hs, rfl, hx⟩

theorem round_push (hread : ∀ line, read line ≠ .error .unwrapNone) (hv : p.Valid)
    (hs : p.state ≠ .complete) (hp : p.part read ≠ .ok none) (bs : Bytes) :
    (p.push bs).round read = (p.part read).map (·.map fun q => (none, q.push bs)) := by
  have hs' : (p.push bs).state ≠ .complete := hs
  rw [round, if_neg hs', (part_local hread hv).push hp bs]
  rcases p.part read with _ | _ | _ <;> rfl

theorem steady (hread : ∀ line, read line ≠ .error .unwrapNone) :
    Steady Valid push (round read) size where
  push_nil p := by rw [push, append_nil]
  push_append p bs bs' := by rw [push, push, push, append_assoc]
  valid_push hv _ := hv
  valid_round hv h := by
    rcases round_cases h with ⟨_, _, rfl⟩ | ⟨_, _, hp⟩
    · exact fun hne => absurd rfl hne
    · exact (part_local hread hv).valid hp
  size_lt hv h := by
    rcases round_cases h with ⟨hs, _, rfl⟩ | ⟨_, _, hp⟩
    · exact size_reset_lt hs
    · exact (part_local hread hv).size_lt hp
  move hv h bs := by
    rcases round_cases h with ⟨hs, rfl, rfl⟩ | ⟨hs, rfl, hp⟩
    · exact if_pos hs
    · rw [round_push hread hv hs (by simp [hp]), hp]
      rfl
  fail {p e} hv h bs := by
    rw [round] at h
    split_ifs at h with hs
    have hp : p.part read = .error e := map_eq_error.mp h
    rw [round_push hread hv hs (by simp [hp]), hp]
    rfl

-- What `parse` does with the outcome of one round.
def proceed (read : Bytes → Except HttpError S) (n : ℕ) (p : Parser S) :
    Except HttpError (Option (Parser S)) → Except HttpError (Option (Message S) × Parser S)
  | .error e => .error e
  | .ok none => .ok (none, p)
  | .ok (some p') => parse read n p'

variable (hread : ∀ line, read line ≠ .error .unwrapNone)

include hread

theorem parse_eq_rounds (hv : p.Valid) (n : ℕ) : p.parse read n = rounds (round read) n p := by
  induction n generalizing p
  case zero => rfl
  case succ n hi =>
    by_cases hs : p.state = .complete
    case pos =>
      obtain ⟨message, hm⟩ := isSome_iff_exists.mp (hv (by simp [hs]))
      rw [parse, rounds, round, if_pos hs, hs, hm]
    have hp : p.parse read (n + 1) = proceed read n p (p.part read) := by
      rw [parse, part]
      cases hs' : p.state
      case complete => exact absurd hs' hs
      all_goals rfl
    rw [hp, rounds, round, if_neg hs]
    rcases hr : p.part read with _ | _ | p'
    · rfl
    · rfl
    · exact hi ((part_local hread hv).valid hr)

theorem feed_eq_rounds (hv : p.Valid) (bs : Bytes) :
    ∃ n, (p.push bs).size < n ∧ p.feed read bs = rounds (round read) n (p.push bs) := by
  refine ⟨2 * (p.push bs).buffer.length + 3, ?_, parse_eq_rounds (p := p.push bs) hread hv _⟩
  have hr := (p.push bs).rank_le
  rw [size]
  omega

-- The same messages and the same error come out of any two ways of cutting the bytes.
theorem exists_outcome (h : pieces.flatten = pieces'.flatten) : ∃ messages error,
      Outcome (feed read) new pieces messages error ∧
        Outcome (feed read) new pieces' messages error ∧ error ≠ some .unwrapNone := by
  have hnew : (new : Parser S).Valid := fun h => absurd rfl h
  have ⟨messages, error, ho, ho', he⟩ :=
    (steady hread).exists_outcome (feed_eq_rounds hread) hnew rfl h
  refine ⟨messages, error, ho, ho', fun hu => ?_⟩
  have ⟨p, hv, hp⟩ := he _ hu
  rw [round] at hp
  split_ifs at hp
  exact (part_local hread hv).safe (map_eq_error.mp hp)

end Round

end Parser

theorem versionParse_ne (s : String) : HttpVersion.parse s ≠ .error .unwrapNone := by
  unfold HttpVersion.parse
  split <;> simp

theorem parseStatusLine_ne (line : Bytes) : parseStatusLine line ≠ .error .unwrapNone := by
  refine bind_ne_error (fromUtf8_ne _ _) fun line => ?_
  refine bind_ne_error (versionParse_ne _) fun version => ?_
  split
  · simp
  · split
    · simp
    · exact nofun

section

variable [CaseMapping]

theorem methodParse_ne (s : String) : Method.parse s ≠ .error .unwrapNone := by
  unfold Method.parse
  split <;> simp

theorem parseRequestLine_ne (line : Bytes) : parseRequestLine line ≠ .error .unwrapNone := by
  refine bind_ne_error (fromUtf8_ne _ _) fun line => ?_
  split
  · exact bind_ne_error (methodParse_ne _) fun _ => bind_ne_error (versionParse_ne _) fun _ => nofun
  · simp

theorem parsing_ignores_packets {pieces pieces' : List Bytes}
    (h : pieces.flatten = pieces'.flatten) :
    (∃ requests error, Outcome feed .new pieces requests error ∧
      Outcome feed .new pieces' requests error ∧ error ≠ some .unwrapNone) ∧
    ∃ responses error, Outcome ResponseParser.feed .new pieces responses error ∧
      Outcome ResponseParser.feed .new pieces' responses error ∧ error ≠ some .unwrapNone :=
  ⟨Parser.exists_outcome parseRequestLine_ne h, Parser.exists_outcome parseStatusLine_ne h⟩

end

local instance asciiCase : CaseMapping := ⟨String.toUpper, String.toLower⟩

-- The cut is inside of a line break.
theorem parsing_ignores_packets_crlf : let bytes := Text.asBytes "GET / HTTP/1.1\r\n\r\n"
    ∃ requests error, Outcome feed .new [bytes] requests error ∧
      Outcome feed .new [bytes.take 15, bytes.drop 15] requests error := by
  intro bytes
  have h : [bytes].flatten = [bytes.take 15, bytes.drop 15].flatten := by simp
  have ⟨requests, error, ho, ho', _⟩ := (parsing_ignores_packets h).1
  exact ⟨requests, error, ho, ho'⟩

end NetworkStack
