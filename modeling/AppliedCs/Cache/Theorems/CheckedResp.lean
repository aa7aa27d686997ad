import AppliedCs.Cache.CheckedResp
import AppliedCs.Cache.Theorems.Resp
import AppliedCs.Lib.Trace

namespace Cache

open Codec Trace List Option

-- What the first line of a frame announces: nothing more, data, or other frames.
inductive Head
  | line
  | bulk (n : ℕ)
  | array (n : ℕ)
  deriving DecidableEq

namespace Head

def announced (f : ℕ → Head) (len : Int64) : Option Head :=
  if len = -1 then some line else if len < 0 then none else some (f len.toInt.toNat)

def ofLine (byte : UInt8) (text : Bytes) : Option Head :=
  match byte with
  | 0x2B => (fromUtf8 text).toOption.map fun _ => line
  | 0x2D => (fromUtf8 text).toOption.map fun _ => line
  | 0x3A => (parseNumber text).toOption.map fun _ => line
  | 0x24 => (parseNumber text).toOption.bind (announced bulk)
  | 0x2A => (parseNumber text).toOption.bind (announced array)
  | _ => none

def read : Bytes → Option (Head × Bytes)
  | [] => none
  | byte :: bs => (findCrlf bs).bind fun p => (ofLine byte p.1).map fun h => (h, p.2)

-- How many frames a frame consists of, and what is left without its own bytes.
def skip : Head × Bytes → Option (ℕ × Bytes)
  | (line, rest) => some (0, rest)
  | (bulk n, rest) => if rest.length < n + 2 then none else some (0, rest.drop (n + 2))
  | (array n, rest) => some (n, rest)

-- A number of frames to be read from some bytes, with those inside of an array counted one by one.
def current : ℕ × Bytes → Option (Head × Bytes)
  | (0, _) => none
  | (_ + 1, bs) => read bs

def next (s : ℕ × Bytes) : Option ((Head × Bytes) × (ℕ × Bytes)) :=
  (current s).bind fun h => (skip h).map fun p => (h, (p.1 + (s.1 - 1), p.2))

def Terminated : Head × Bytes → Prop
  | (bulk n, rest) => crlf <+: rest.drop n
  | _ => True

end Head

inductive Frame : Bytes → Prop
  | line {byte : UInt8} {text : Bytes} (ht : ¬ crlf <:+: text)
    (hh : Head.ofLine byte text = some .line) : Frame (byte :: (text ++ (crlf ++ [])))
  | bulk {byte : UInt8} {text data : Bytes} (ht : ¬ crlf <:+: text)
    (hh : Head.ofLine byte text = some (.bulk data.length)) :
    Frame (byte :: (text ++ (crlf ++ (data ++ crlf))))
  | array {byte : UInt8} {text : Bytes} {frames : List Bytes} (ht : ¬ crlf <:+: text)
    (hh : Head.ofLine byte text = some (.array frames.length)) (hf : ∀ f ∈ frames, Frame f) :
    Frame (byte :: (text ++ (crlf ++ frames.flatten)))

namespace Head

variable {rest text : Bytes}
theorem read_append (ht : ¬ crlf <:+: text) {h : Head} (hh : ofLine byte text = some h) :
    read (byte :: (text ++ (crlf ++ rest))) = some (h, rest) := by
  rw [read, findCrlf_append ht, bind_some, hh, map_some]

theorem read_eq_some {h : Head} (hr : read bs = some (h, rest)) : ∃ byte text,
    bs = byte :: (text ++ (crlf ++ rest)) ∧ ¬ crlf <:+: text ∧ ofLine byte text = some h := by
  cases bs
  case nil => cases hr
  case cons byte bs =>
    obtain ⟨p, hp, he⟩ := bind_eq_some_iff.mp hr
    obtain ⟨h', hh, he⟩ := map_eq_some_iff.mp he
    cases he
    exact ⟨byte, p.1, congrArg _ (append_of_findCrlf hp), not_crlf_of_findCrlf hp, hh⟩

theorem skip_length_le (hs : skip h = some (k, rest)) : rest.length ≤ h.2.length := by
  obtain ⟨_ | n | n, rest'⟩ := h
  case line | array => cases hs; exact le_rfl
  case bulk =>
    rw [skip, ite_none_left_eq_some] at hs
    cases hs.2
    exact (drop_sublist ..).length_le

theorem next_eq (need : ℕ) (hr : read bs = some h) (hs : skip h = some (k, rest)) :
    next (need + 1, bs) = some (h, (k + need, rest)) := by
  rw [next, current, hr, bind_some, hs, map_some, Nat.add_sub_cancel]

theorem current_of_next (hn : next s = some (h, s')) : current s = some h := by
  obtain ⟨h', hc, he⟩ := bind_eq_some_iff.mp hn
  obtain ⟨p, -, he⟩ := map_eq_some_iff.mp he
  cases he
  exact hc

theorem next_eq_none (hr : ∀ h, read bs = some h → skip h = none) : next (need + 1, bs) = none := by
  rw [next, current]
  cases hb : read bs
  case none => rfl
  case some h => rw [bind_some, hr h hb, map_none]

end Head

open Head

section Frames

variable {rest : Bytes}

theorem runs_flatten {frames : List Bytes} (h : ∀ f ∈ frames, ∀ need rest, ∃ heads,
      Runs next (need + 1, f ++ rest) heads (need, rest) ∧ ∀ h ∈ heads, Terminated h) :
    ∃ heads, Runs next (frames.length + need, frames.flatten ++ rest) heads (need, rest) ∧
      ∀ h ∈ heads, Terminated h := by
  induction frames
  case nil => exact ⟨[], by simpa using .refl, by simp⟩
  case cons f frames hi =>
    obtain ⟨heads, hr, ht⟩ := h f mem_cons_self (frames.length + need) (frames.flatten ++ rest)
    obtain ⟨heads', hr', ht'⟩ := hi fun f hf => h f (mem_cons_of_mem _ hf)
    refine ⟨heads ++ heads', ?_, forall_mem_append.mpr ⟨ht, ht'⟩⟩
    rw [length_cons, flatten_cons, append_assoc, Nat.add_right_comm]
    exact hr.append hr'

theorem Frame.runs (h : Frame bs) : ∀ need rest, ∃ heads,
    Runs next (need + 1, bs ++ rest) heads (need, rest) ∧ ∀ h ∈ heads, Terminated h := by
  induction h
  case line ht hh =>
    intro need rest
    have hs : skip (.line, rest) = some (0, rest) := rfl
    refine ⟨_, .single <| (next_eq _ ?_ hs).trans <| by rw [Nat.zero_add], ?_⟩
    · simpa using read_append ht hh
    · simp [Terminated]
  case bulk data ht hh =>
    intro need rest
    have hlen : (data ++ crlf).length = data.length + 2 := length_append
    have hs : skip (.bulk data.length, data ++ crlf ++ rest) = some (0, rest) := by
      rw [skip, if_neg (by rw [length_append]; omega), ← hlen, drop_left]
    refine ⟨_, .single <| (next_eq _ ?_ hs).trans <| by rw [Nat.zero_add], ?_⟩
    · simpa using read_append ht hh
    · simp [Terminated]
  case array frames ht hh hf hi =>
    intro need rest
    obtain ⟨heads, hr, hall⟩ := @runs_flatten rest need frames hi
    have hs : skip (.array frames.length, frames.flatten ++ rest) = some (frames.length, _) := rfl
    refine ⟨_, .step (next_eq _ ?_ hs) hr, ?_⟩
    · simpa using read_append ht hh
    · simpa [Terminated] using hall

theorem length_lt_of_next (hn : next s = some (h, s')) : s'.2.length < s.2.length := by
  obtain ⟨h', hc, he⟩ := bind_eq_some_iff.mp hn
  obtain ⟨p, hs, he⟩ := map_eq_some_iff.mp he
  cases he
  obtain ⟨_ | need, bs⟩ := s
  case zero => cases hc
  case succ =>
    obtain ⟨byte, text, rfl, -⟩ := read_eq_some hc
    have hle := skip_length_le hs
    simp only [length_cons, length_append]
    omega

theorem length_le_of_runs (h : Runs next s heads s') : s'.2.length + heads.length ≤ s.2.length := by
  induction h
  case refl => exact le_rfl
  case step hn hr hi =>
    have := length_lt_of_next hn
    rw [length_cons]
    omega

theorem runs_unique (h : Runs next s heads s') (h' : Runs next s heads' s') : heads = heads' := by
  obtain ⟨rest, rfl, hr⟩ | ⟨rest, rfl, hr⟩ := h.split h' <;>
  · have hl := length_le_of_runs hr
    have hnil : rest = [] := length_eq_zero_iff.mp (by omega)
    rw [hnil, append_nil]

end Frames

namespace Checked

variable {buffer : BytesMut} {offset : ℕ} {α : Type} {read : Bytes → Except ParseError α}

section Lines

theorem addUsize_eq (h : a + b < UInt64.size) : addUsize a b = .ok (a + b) :=
  if_pos h

theorem lt_size_of_le (h : n ≤ buffer.len + 2) : n < UInt64.size := by
  have := buffer.length_le
  simp only [BytesMut.len, isizeMax, UInt64.size] at *
  omega

theorem drop_eq_cons (h : offset < buffer.len) :
    buffer.bytes.drop offset = buffer.bytes.get ⟨offset, h⟩ :: buffer.bytes.drop (offset + 1) :=
  drop_eq_getElem_cons h

theorem index_eq (h : offset < buffer.len) :
    buffer.index offset = .ok (buffer.bytes.get ⟨offset, h⟩) := by
  rw [BytesMut.index, getElem?_eq_getElem h]
  rfl

theorem isCrlf_eq (h : offset + 1 < buffer.len) :
    isCrlf buffer offset = .ok (decide (crlf <+: buffer.bytes.drop offset)) := by
  rw [drop_eq_cons (by omega), drop_eq_cons h, crlf, isCrlf, index_eq (by omega)]
  simp only [cons_prefix_cons, nil_prefix, and_true]
  simp only [bind, Except.bind,
    addUsize_eq (lt_size_of_le (by omega : offset + 1 ≤ buffer.len + 2)), index_eq h]
  split
  case isTrue hc =>
    exact congrArg Except.ok <| decide_eq_decide.mpr ⟨fun h => ⟨hc.symm, h.symm⟩, fun h => h.2.symm⟩
  case isFalse hc => exact congrArg Except.ok <| .symm <| decide_eq_false fun h => hc h.1.symm

-- By induction on the rounds that are left. There is none for the last byte.
theorem findCrlfFrom_eq (h : offset + rounds + 1 = buffer.len) :
    findCrlfFrom buffer rounds offset =
      .ok ((Cache.findCrlf (buffer.bytes.drop offset)).map fun p => offset + p.1.length) := by
  induction rounds generalizing offset
  case zero =>
    have hnil : buffer.bytes.drop (offset + 1) = [] := drop_eq_nil_of_le h.ge
    rw [drop_eq_cons (by omega), hnil, Cache.findCrlf, if_neg (by simp [crlf])]
    rfl
  case succ rounds hi =>
    rw [findCrlfFrom, isCrlf_eq (by omega), hi (by omega), drop_eq_cons (by omega), Cache.findCrlf,
      ← drop_eq_cons (by omega)]
    simp only [bind, Except.bind, decide_eq_true_eq]
    split
    · rfl
    · rw [Option.map_map]
      congr! 3 with p
      simp only [Function.comp_apply, length_cons]
      omega

theorem findCrlf_eq : findCrlf buffer offset =
    .ok ((Cache.findCrlf (buffer.bytes.drop offset)).map fun p => offset + p.1.length) := by
  rw [findCrlf]
  split
  case isTrue h => rw [drop_eq_nil_of_le h]; rfl
  case isFalse h => exact findCrlfFrom_eq (by omega)

theorem parseLine_none (h : offset < buffer.len)
    (hf : Cache.findCrlf (buffer.bytes.drop (offset + 1)) = none) :
    parseLine buffer read offset = .ok none := by
  rw [parseLine, addUsize_eq (lt_size_of_le (by omega : offset + 1 ≤ buffer.len + 2))]
  simp only [bind, Except.bind, findCrlf_eq, hf]
  rfl

theorem parseLine_some (h : offset < buffer.len)
    (hf : Cache.findCrlf (buffer.bytes.drop (offset + 1)) = some (text, rest)) :
    ∃ stop ≤ buffer.len, buffer.bytes.drop stop = rest ∧
      parseLine buffer read offset = (lift (read text)).map fun a => some (a, stop) := by
  have ha := append_of_findCrlf hf
  have hl : text.length + (rest.length + 2) = buffer.len - (offset + 1) := by
    rw [BytesMut.len, ← length_drop, ha, length_append, length_append, crlf]
    simp only [length_cons, length_nil]
    omega
  have hslice : buffer.slice (offset + 1) (offset + 1 + text.length) = .ok text := by
    rw [BytesMut.slice, if_pos (by omega), ← take_drop, ha, take_left]
  refine ⟨offset + 1 + text.length + 2, by omega, ?_, ?_⟩
  · rw [Nat.add_assoc, ← drop_drop, ha, ← drop_drop, drop_left]
    rfl
  · rw [parseLine, addUsize_eq (lt_size_of_le (by omega : offset + 1 ≤ buffer.len + 2))]
    simp only [bind, Except.bind, findCrlf_eq, hf, map_some, hslice,
      addUsize_eq (lt_size_of_le (by omega : offset + 1 + text.length + 2 ≤ buffer.len + 2))]
    cases read text <;> rfl

section Data

theorem bulkData_panic (h : ¬ stop + n + 2 < UInt64.size) :
    bulkData buffer n stop = .error .panic := by
  rw [bulkData, addUsize]
  split
  · simp only [bind, Except.bind, addUsize, if_neg h]
  · rfl

theorem bulkData_none (h : stop + n + 2 < UInt64.size) (hl : buffer.len < stop + n + 2) :
    bulkData buffer n stop = .ok none := by
  rw [bulkData, addUsize_eq (by omega)]
  simp only [bind, Except.bind, addUsize_eq h, if_pos hl]
  rfl

theorem bulkData_some (h : stop + n + 2 < UInt64.size) (hl : ¬ buffer.len < stop + n + 2) :
    bulkData buffer n stop =
      .ok (some (.bulkString (some ((buffer.bytes.drop stop).take n)), stop + n + 2)) := by
  have hslice : buffer.slice stop (stop + n) = .ok ((buffer.bytes.drop stop).take n) := by
    rw [BytesMut.slice, if_pos (by omega), take_drop]
  rw [bulkData, addUsize_eq (by omega)]
  simp only [bind, Except.bind, addUsize_eq h, if_neg hl, hslice]
  rfl

end Data

end Lines

section Outcomes

variable (buffer : BytesMut) (itemSize : ℕ)

-- The end of the data is a number that fits, and so does the size of a vector of the items.
def Sizeable : Head × Bytes → Prop
  | (.line, _) => True
  | (.bulk n, rest) => buffer.len - rest.length + n + 2 < UInt64.size
  | (.array n, _) => n * itemSize ≤ isizeMax

structure Reads (s : ℕ × Bytes) (heads : List (Head × Bytes)) (t : ℕ × Bytes) : Prop where
  runs : Runs next s heads t
  sizeable : ∀ h ∈ heads, Sizeable buffer itemSize h

-- There is a state at which a line or some data is missing or wrong, and nothing before it.
structure Stops (s : ℕ × Bytes) (heads : List (Head × Bytes)) (t : ℕ × Bytes) : Prop
    extends Reads buffer itemSize s heads t where
  stuck : next t = none
  need : t.1 ≠ 0
  last : ∀ h, current t = some h → Sizeable buffer itemSize h

-- What a parser does with some frames of which it leaves `need` ones unread, if the bytes of those
-- that it reads are as `P` says whenever their data is terminated.
inductive Outcome {α : Type} (P : Bytes → Prop) (s : ℕ × Bytes) (need : ℕ) :
    Result (Parsed α) → Prop
  | value {a : α} {offset : ℕ} {heads : List (Head × Bytes)} {bs : Bytes}
    (ho : offset ≤ buffer.len) (hb : s.2 = bs ++ buffer.bytes.drop offset)
    (hr : Reads buffer itemSize s heads (need, buffer.bytes.drop offset))
    (hp : (∀ h ∈ heads, Terminated h) → P bs) : Outcome P s need (.ok (some (a, offset)))
  | incomplete {heads : List (Head × Bytes)} {t : ℕ × Bytes}
    (h : Stops buffer itemSize s heads t) : Outcome P s need (.ok none)
  | failed {e : ParseError} {heads : List (Head × Bytes)} {t : ℕ × Bytes}
    (h : Stops buffer itemSize s heads t) : Outcome P s need (.error (.parse e))
  | panicked {heads : List (Head × Bytes)} {t : ℕ × Bytes} {h : Head × Bytes}
    (hr : Reads buffer itemSize s heads t) (hc : current t = some h)
    (hs : ¬ Sizeable buffer itemSize h) : Outcome P s need (.error .panic)

variable {buffer} {itemSize} {β : Type} {r : Result (Parsed α)} {h : Head × Bytes}

theorem Reads.refl : Reads buffer itemSize s [] s :=
  ⟨.refl, forall_mem_nil _⟩

theorem Reads.append (h : Reads buffer itemSize s heads s')
    (h' : Reads buffer itemSize s' heads' t) : Reads buffer itemSize s (heads ++ heads') t :=
  ⟨h.runs.append h'.runs, forall_mem_append.mpr ⟨h.sizeable, h'.sizeable⟩⟩

theorem Reads.single (hn : next s = some (h, t)) (hs : Sizeable buffer itemSize h) :
    Reads buffer itemSize s [h] t :=
  ⟨.single hn, forall_mem_singleton.mpr hs⟩

theorem Stops.after (hr : Reads buffer itemSize s heads s')
    (h : Stops buffer itemSize s' heads' t) : Stops buffer itemSize s (heads ++ heads') t where
  toReads := hr.append h.toReads
  stuck := h.stuck
  need := h.need
  last := h.last

theorem Outcome.after (hr : Reads buffer itemSize s heads s') (hb : s.2 = bs ++ s'.2)
    (h : Outcome buffer itemSize P s' need r)
    (hP : ∀ bs', (∀ h ∈ heads, Terminated h) → P bs' → Q (bs ++ bs')) :
    Outcome buffer itemSize Q s need r := by
  cases h
  case value ho hb' hr' hp =>
    refine .value ho (by rw [hb, hb', append_assoc]) (hr.append hr') fun ht => ?_
    rw [forall_mem_append] at ht
    exact hP _ ht.1 (hp ht.2)
  case incomplete h => exact .incomplete (h.after hr)
  case failed h => exact .failed (h.after hr)
  case panicked hr' hc hs => exact .panicked (hr.append hr') hc hs

theorem Outcome.map {f : α → β} (h : Outcome buffer itemSize P s need r) :
    Outcome buffer itemSize P s need (r >>= fun r => pure (r.map fun p => (f p.1, p.2))) := by
  cases h
  case value ho hb hr hp => exact .value ho hb hr hp
  case incomplete h => exact .incomplete h
  case failed h => exact .failed h
  case panicked hr hc hs => exact .panicked hr hc hs

theorem stops_of_read_eq_none (h : Head.read bs = none) :
    Stops buffer itemSize (need + 1, bs) [] (need + 1, bs) where
  toReads := .refl
  stuck := next_eq_none fun h' hr => by cases h.symm.trans hr
  need := Nat.succ_ne_zero _
  last h' := fun hr => by cases h.symm.trans hr

-- The line at the offset is there and means something.
structure AtLine (buffer : BytesMut) (offset : ℕ) (h : Head) (stop : ℕ) : Prop where
  le : stop ≤ buffer.len
  read : Head.read (buffer.bytes.drop offset) = some (h, buffer.bytes.drop stop)

theorem AtLine.outcome {a : α} (h : AtLine buffer offset .line stop) :
    Outcome buffer itemSize Frame (need + 1, buffer.bytes.drop offset) need
      (.ok (some (a, stop))) := by
  obtain ⟨byte, text, hb, ht, hh⟩ := read_eq_some h.read
  have hs : skip (.line, buffer.bytes.drop stop) = some (0, buffer.bytes.drop stop) := rfl
  have hn := next_eq need h.read hs
  rw [Nat.zero_add] at hn
  refine .value h.le ?_ (.single hn trivial) fun _ => .line ht hh
  simpa using hb

theorem parseLine_cases (read : Bytes → Except ParseError α)
    (hb : buffer.bytes.drop offset = byte :: buffer.bytes.drop (offset + 1)) :
    (parseLine buffer read offset = .ok none ∧ Head.read (buffer.bytes.drop offset) = none) ∨
      ∃ text stop, stop ≤ buffer.len ∧
        Head.read (buffer.bytes.drop offset) =
          (ofLine byte text).map (fun h => (h, buffer.bytes.drop stop)) ∧
        parseLine buffer read offset = (lift (read text)).map fun a => some (a, stop) := by
  have hlt : offset < buffer.len := by
    have := congrArg length hb
    rw [length_cons, length_drop] at this
    exact Nat.lt_of_sub_pos (by rw [BytesMut.len]; omega)
  cases hf : Cache.findCrlf (buffer.bytes.drop (offset + 1))
  case none => exact .inl ⟨parseLine_none hlt hf, by rw [hb, Head.read, hf, bind_none]⟩
  case some p =>
    obtain ⟨stop, hle, hd, hp⟩ := parseLine_some hlt hf
    exact .inr ⟨p.1, stop, hle, by rw [hb, Head.read, hf, bind_some, hd], hp⟩

theorem outcome_line {f : α → RespValue}
    (hb : buffer.bytes.drop offset = byte :: buffer.bytes.drop (offset + 1))
    (hl : ∀ text, ofLine byte text = (read text).toOption.map fun _ => .line) :
    Outcome buffer itemSize Frame (need + 1, buffer.bytes.drop offset) need
      (parseLine buffer read offset >>= fun r => pure (r.map fun p => (f p.1, p.2))) := by
  obtain ⟨hp, hr⟩ | ⟨text, stop, hle, hr, hp⟩ := parseLine_cases read hb
  · rw [hp]
    exact .incomplete (stops_of_read_eq_none hr)
  · rw [hl] at hr
    rw [hp]
    cases ht : read text
    case error e =>
      rw [ht] at hr
      exact .failed (stops_of_read_eq_none hr)
    case ok a =>
      rw [ht] at hr
      exact AtLine.outcome ⟨hle, hr⟩

theorem outcome_length (hb : buffer.bytes.drop offset = byte :: buffer.bytes.drop (offset + 1))
    (hl : ∀ text, ofLine byte text = (parseNumber text).toOption.bind (announced f))
    (hbody : ∀ {n stop}, AtLine buffer offset (f n) stop → Outcome buffer itemSize Frame
      (need + 1, buffer.bytes.drop offset) need (body n stop)) :
    Outcome buffer itemSize Frame (need + 1, buffer.bytes.drop offset) need
      (parseLength buffer null message body offset) := by
  rw [parseLength]
  obtain ⟨hp, hr⟩ | ⟨text, stop, hle, hr, hp⟩ := parseLine_cases parseNumber hb
  · rw [hp]
    exact .incomplete (stops_of_read_eq_none hr)
  · rw [hl] at hr
    rw [hp]
    cases ht : parseNumber text
    case error e =>
      rw [ht] at hr
      exact .failed (stops_of_read_eq_none hr)
    case ok len =>
      rw [ht] at hr
      simp only [Except.toOption, bind_some, announced] at hr
      simp only [lift, Except.map, bind, Except.bind]
      split_ifs at hr ⊢
      case pos => exact AtLine.outcome ⟨hle, hr⟩
      case pos => exact .failed (stops_of_read_eq_none hr)
      case neg => exact hbody ⟨hle, hr⟩

theorem AtLine.bulkData (h : AtLine buffer offset (.bulk n) stop) :
    Outcome buffer itemSize Frame (need + 1, buffer.bytes.drop offset) need
      (bulkData buffer n stop) := by
  have hlen : (buffer.bytes.drop stop).length = buffer.len - stop := length_drop
  have hsize : Sizeable buffer itemSize (.bulk n, buffer.bytes.drop stop) ↔
      stop + n + 2 < UInt64.size := by
    rw [Sizeable, hlen, Nat.sub_sub_self h.le]
  by_cases hs : stop + n + 2 < UInt64.size
  case neg =>
    rw [bulkData_panic hs]
    exact .panicked .refl h.read (hsize.not.mpr hs)
  by_cases hl : buffer.len < stop + n + 2
  case pos =>
    have hskip : skip (.bulk n, buffer.bytes.drop stop) = none :=
      if_pos (by rw [hlen]; omega)
    rw [bulkData_none hs hl]
    refine .incomplete ⟨.refl, next_eq_none fun h' hr => ?_, Nat.succ_ne_zero _, fun h' hr => ?_⟩
    · cases h.read.symm.trans hr
      exact hskip
    · cases h.read.symm.trans hr
      exact hsize.mpr hs
  rw [bulkData_some hs hl]
  have hskip : skip (.bulk n, buffer.bytes.drop stop) =
      some (0, (buffer.bytes.drop stop).drop (n + 2)) := if_neg (by rw [hlen]; omega)
  obtain ⟨byte, text, hb, ht, hh⟩ := read_eq_some h.read
  have hn := next_eq need h.read hskip
  have hdrop : (buffer.bytes.drop stop).drop (n + 2) = buffer.bytes.drop (stop + n + 2) := by
    rw [drop_drop, Nat.add_assoc]
  rw [Nat.zero_add, hdrop] at hn
  have hframe : buffer.bytes.drop offset =
      (byte :: (text ++ (crlf ++ (buffer.bytes.drop stop).take (n + 2)))) ++
        buffer.bytes.drop (stop + n + 2) := by
    rw [hb, ← hdrop]
    simp only [cons_append, append_assoc, take_append_drop]
  refine .value (by omega) hframe (.single hn (hsize.mpr hs)) fun hterm => ?_
  have hcrlf : crlf <+: (buffer.bytes.drop stop).drop n := hterm _ mem_cons_self
  have hdata : ((buffer.bytes.drop stop).take n).length = n := by
    rw [length_take, hlen]
    omega
  have htake : ((buffer.bytes.drop stop).drop n).take 2 = crlf :=
    (prefix_iff_eq_take.mp hcrlf).symm
  rw [take_add, htake]
  exact .bulk ht (by rw [hdata]; exact hh)

-- The frames of an array.
def Frames (n : ℕ) (bs : Bytes) : Prop :=
  ∃ frames : List Bytes, frames.length = n ∧ bs = frames.flatten ∧ ∀ f ∈ frames, Frame f

-- What a parser of single values does, with a limit on the bytes that are left.
def Describes (buffer : BytesMut) (itemSize depth : ℕ)
    (parseValue : ℕ → Result (Parsed RespValue)) : Prop :=
  ∀ {offset need}, offset ≤ buffer.len → buffer.len - offset < depth →
    Outcome buffer itemSize Frame (need + 1, buffer.bytes.drop offset) need (parseValue offset)

variable {parse : ℕ → Result (Parsed RespValue)}

theorem Describes.parseItems (hv : Describes buffer itemSize depth parse)
    (ho : offset ≤ buffer.len) (hd : buffer.len - offset < depth) :
    Outcome buffer itemSize (Frames n) (n + need, buffer.bytes.drop offset) need
      (parseItems parse n offset) := by
  induction n generalizing offset
  case zero =>
    rw [Nat.zero_add]
    exact .value ho (nil_append _).symm .refl fun _ => ⟨[], rfl, rfl, forall_mem_nil _⟩
  case succ n hi =>
    have h : Outcome buffer itemSize Frame (n + need + 1, _) _ _ := hv ho hd
    rw [Nat.add_right_comm, Checked.parseItems]
    cases hp : parse offset <;> rw [hp] at h <;> cases h
    case error.failed h => exact .failed h
    case error.panicked hr hc hs => exact .panicked hr hc hs
    case ok.incomplete h => exact .incomplete h
    case ok.value v stop heads bs hle hb hr hf =>
      have hlen := length_le_of_runs hr.runs
      rw [length_drop, length_drop] at hlen
      refine .map <| .after hr hb (hi hle (by rw [BytesMut.len] at *; omega)) ?_
      rintro _ ht ⟨frames, rfl, rfl, hfs⟩
      exact ⟨bs :: frames, rfl, rfl, forall_mem_cons.mpr ⟨hf ht, hfs⟩⟩

theorem AtLine.arrayItems (h : AtLine buffer offset (.array n) stop)
    (hv : Describes buffer itemSize depth parse) (hd : buffer.len - stop < depth) :
    Outcome buffer itemSize Frame (need + 1, buffer.bytes.drop offset) need
      (arrayItems itemSize parse n stop) := by
  rw [Checked.arrayItems, withCapacity]
  split
  case isFalse hs => exact .panicked .refl h.read hs
  case isTrue hs =>
    obtain ⟨byte, text, hb, ht, hh⟩ := read_eq_some h.read
    have hskip : skip (.array n, buffer.bytes.drop stop) = some (n, buffer.bytes.drop stop) := rfl
    have hb' : buffer.bytes.drop offset = (byte :: (text ++ crlf)) ++ buffer.bytes.drop stop := by
      rw [hb, cons_append, append_assoc]
    change Outcome _ _ _ _ _ (Checked.parseItems parse n stop >>= fun r => _)
    refine Outcome.map (f := fun items => RespValue.array (some items)) <|
      .after (.single (next_eq need h.read hskip) hs) hb' (hv.parseItems h.le hd) ?_
    rintro _ - ⟨frames, rfl, rfl, hfs⟩
    rw [cons_append, append_assoc]
    exact .array ht hh hfs

theorem describes_parseValue (depth : ℕ) :
    Describes buffer itemSize depth (parseValue buffer itemSize depth) := by
  induction depth
  case zero => exact fun _ hd => (Nat.not_lt_zero _ hd).elim
  case succ depth hi =>
    intro offset need ho hd
    rw [Checked.parseValue]
    split
    case isTrue hge =>
      refine .incomplete (stops_of_read_eq_none ?_)
      rw [drop_eq_nil_of_le hge]
      rfl
    case isFalse hlt =>
      have hlt := Nat.lt_of_not_le hlt
      rw [index_eq hlt]
      have hb := drop_eq_cons hlt
      generalize buffer.bytes.get ⟨offset, hlt⟩ = byte at hb ⊢
      have hstop {h : Head} {stop : ℕ} (hl : AtLine buffer offset h stop) :
          buffer.len - stop < depth := by
        obtain ⟨byte, text, hb, -⟩ := read_eq_some hl.read
        have := congrArg length hb
        simp only [length_cons, length_append, length_drop] at this
        omega
      change Outcome _ _ _ _ _ (parseValueAt ..)
      unfold parseValueAt
      split
      · exact outcome_line hb fun _ => rfl
      · exact outcome_line hb fun _ => rfl
      · exact outcome_line hb fun _ => rfl
      · exact outcome_length hb (fun _ => rfl) AtLine.bulkData
      · exact outcome_length hb (fun _ => rfl) fun hl => hl.arrayItems hi (hstop hl)
      · have hl (text : Bytes) : ofLine byte text = none := by
          unfold ofLine
          split <;> first | contradiction | rfl
        refine .failed (stops_of_read_eq_none ?_)
        rw [hb, Head.read, bind_eq_none_iff]
        intro p hp
        rw [hl, map_none]

end Outcomes

section Safety

variable {h : Head × Bytes}

-- The parser comes to this line and what is behind it.
def Meets (buffer : BytesMut) (h : Head × Bytes) : Prop :=
  ∃ heads t, Runs next (1, buffer.bytes) heads t ∧ current t = some h

-- There are enough lines and data for a value.
def Completes (buffer : BytesMut) : Prop :=
  ∃ heads rest, Runs next (1, buffer.bytes) heads (0, rest)

-- The parser returns, and the bytes that it takes for a value are those of a frame.
structure Safe (buffer : BytesMut) (itemSize : ℕ) : Prop where
  returns : parse buffer itemSize ≠ .error .panic
  terminates : parse buffer itemSize ≠ .error .depth
  frame : ∀ {value buffer'}, parse buffer itemSize = .ok (some (value, buffer')) →
    ∃ bs, Frame bs ∧ buffer.bytes = bs ++ buffer'.bytes

theorem meets_of_mem (hr : Runs next (1, buffer.bytes) heads t) (hh : h ∈ heads) :
    Meets buffer h := by
  obtain ⟨heads', u, u', hr', hu⟩ := hr.exists_of_mem hh
  exact ⟨heads', u, hr', current_of_next hu⟩

theorem Meets.cases (hm : Meets buffer h) (hr : Runs next (1, buffer.bytes) heads t)
    (ht : next t = none) : h ∈ heads ∨ current t = some h := by
  obtain ⟨heads', u, hu, hc⟩ := hm
  obtain ⟨rest, rfl, hrest⟩ := hr.split_of_stuck ht hu
  cases hrest
  case refl => exact .inr hc
  case step hn _ =>
    cases hc.symm.trans (current_of_next hn)
    exact .inl <| mem_append_right _ mem_cons_self

theorem Stops.not_completes (hs : Stops buffer itemSize (1, buffer.bytes) heads t) :
    ¬ Completes buffer := by
  rintro ⟨heads', rest, hr⟩
  obtain ⟨-, rfl⟩ := hs.runs.eq_of_stuck hs.stuck hr rfl
  exact hs.need rfl

theorem Stops.sizeable_of_meets (hs : Stops buffer itemSize (1, buffer.bytes) heads t)
    (hm : Meets buffer h) : Sizeable buffer itemSize h := by
  obtain hh | hc := hm.cases hs.runs hs.stuck
  · exact hs.sizeable h hh
  · exact hs.last h hc

theorem outcome_parse : Outcome buffer itemSize Frame (1, buffer.bytes) 0
    (parseValue buffer itemSize (buffer.len + 1) 0) :=
  describes_parseValue _ (Nat.zero_le _) (Nat.lt_succ_self _)

theorem parseValue_of_empty (h : buffer.bytes.isEmpty) :
    parseValue buffer itemSize (buffer.len + 1) 0 = .ok none := by
  rw [List.isEmpty_iff] at h
  rw [parseValue, if_pos (by rw [BytesMut.len, h]; exact le_rfl)]
  rfl

theorem parse_of_error (h : parseValue buffer itemSize (buffer.len + 1) 0 = .error fault) :
    parse buffer itemSize = .error fault := by
  rw [parse]
  split
  case isTrue he => cases h.symm.trans (parseValue_of_empty he)
  case isFalse => rw [h]; rfl

theorem parse_of_none (h : parseValue buffer itemSize (buffer.len + 1) 0 = .ok none) :
    parse buffer itemSize = .ok none := by
  rw [parse, h]
  split <;> rfl

theorem parse_of_some (hle : stop ≤ buffer.len)
    (h : parseValue buffer itemSize (buffer.len + 1) 0 = .ok (some (value, stop))) :
    ∃ buffer' : BytesMut, buffer'.bytes = buffer.bytes.drop stop ∧
      parse buffer itemSize = .ok (some (value, buffer')) := by
  refine ⟨⟨buffer.bytes.drop stop, (drop_sublist ..).length_le.trans buffer.length_le⟩, rfl, ?_⟩
  rw [parse]
  split
  case isTrue he => cases h.symm.trans (parseValue_of_empty he)
  case isFalse =>
    rw [h]
    simp only [bind, Except.bind, BytesMut.splitTo, if_pos hle]
    rfl

theorem Stops.safe_iff (hs : Stops buffer itemSize (1, buffer.bytes) heads t)
    (hp : parse buffer itemSize = .ok none ∨ ∃ e, parse buffer itemSize = .error (.parse e)) :
    Safe buffer itemSize ↔ (∀ h, Meets buffer h → Sizeable buffer itemSize h) ∧
      (Completes buffer → ∀ h, Meets buffer h → Terminated h) := by
  refine iff_of_true ⟨fun h => ?_, fun h => ?_, fun h => ?_⟩
    ⟨fun h => hs.sizeable_of_meets, fun hc => (hs.not_completes hc).elim⟩ <;>
  · obtain hp | ⟨e, hp⟩ := hp <;> cases hp.symm.trans h

theorem parse_safe_iff : Safe buffer itemSize ↔ (∀ h, Meets buffer h → Sizeable buffer itemSize h) ∧
      (Completes buffer → ∀ h, Meets buffer h → Terminated h) := by
  have ho := @outcome_parse buffer itemSize
  cases hp : parseValue buffer itemSize (buffer.len + 1) 0 <;> rw [hp] at ho <;> cases ho
  case ok.incomplete hs => exact hs.safe_iff (.inl (parse_of_none hp))
  case error.failed e hs => exact hs.safe_iff (.inr ⟨_, parse_of_error hp⟩)
  case error.panicked hr hc hs =>
    exact iff_of_false (fun h => h.returns (parse_of_error hp)) fun h =>
      hs <| h.1 _ ⟨_, _, hr.runs, hc⟩
  case ok.value v stop heads bs hle hb hr hf =>
    obtain ⟨buffer', hb', hp⟩ := parse_of_some hle hp
    have hmeets {h : Head × Bytes} (hm : Meets buffer h) : h ∈ heads :=
      (hm.cases hr.runs rfl).resolve_right fun hc => by cases hc
    constructor
    · intro hsafe
      refine ⟨fun h hm => hr.sizeable h (hmeets hm), fun _ h hm => ?_⟩
      -- The frame has lines of its own, which are those that the parser has read.
      obtain ⟨frame, hframe, hbytes⟩ := hsafe.frame hp
      obtain ⟨heads', hruns, hterm⟩ := hframe.runs 0 buffer'.bytes
      rw [← hbytes, hb'] at hruns
      exact hterm h (runs_unique hr.runs hruns ▸ hmeets hm)
    · intro hc
      refine ⟨fun h => ?_, fun h => ?_, fun h => ?_⟩
      · cases hp.symm.trans h
      · cases hp.symm.trans h
      · cases hp.symm.trans h
        refine ⟨bs, hf fun h hh => ?_, hb' ▸ hb⟩
        exact hc.2 ⟨_, _, hr.runs⟩ h (meets_of_mem hr.runs hh)

def unterminated : BytesMut :=
  ⟨Text.asBytes "$1\r\naXY", by decide⟩

def endless : BytesMut :=
  ⟨Text.asBytes "*9223372036854775807\r\n", by decide⟩

-- A bulk string without its CR LF is accepted, and so many items cannot be allocated.
theorem parse_accepts_unterminated_and_panics :
    (∃ rest, parse unterminated 32 = .ok (some (.bulkString (some (Text.asBytes "a")), rest)) ∧
      rest.bytes = []) ∧ ¬ Frame unterminated.bytes ∧ parse endless 32 = .error .panic := by
  refine ⟨⟨_, rfl, rfl⟩, fun hf => ?_, rfl⟩
  obtain ⟨heads, hr, ht⟩ := hf.runs 0 []
  have hn : next (1, unterminated.bytes ++ []) =
      some ((.bulk 1, Text.asBytes "aXY"), (0, [])) := by decide +kernel
  rw [runs_unique hr (.single hn)] at ht
  exact absurd (ht _ mem_cons_self) (by rw [Terminated]; decide +kernel)

end Safety

section Agreement

variable {β : Type} {x : Result (Parsed α)}

-- Without a panic, the parser does what the one that goes on with the rest of the bytes does.
inductive Agrees (buffer : BytesMut) (offset : ℕ) :
    Result (Parsed α) → Except ParseError (Cache.Parsed α) → Prop
  | panic {y : Except ParseError (Cache.Parsed α)} : Agrees buffer offset (.error .panic) y
  | error {e : ParseError} : Agrees buffer offset (.error (.parse e)) (.error e)
  | incomplete : Agrees buffer offset (.ok none) (.ok none)
  | value {a : α} {stop : ℕ} (hge : offset ≤ stop) (hle : stop ≤ buffer.len) :
    Agrees buffer offset (.ok (some (a, stop))) (.ok (some (a, buffer.bytes.drop stop)))

theorem Agrees.mono (h : Agrees buffer offset x y) (ho : offset' ≤ offset) :
    Agrees buffer offset' x y := by
  cases h
  case panic => exact .panic
  case error => exact .error
  case incomplete => exact .incomplete
  case value hge hle => exact .value (ho.trans hge) hle

theorem Agrees.bind {k' : Cache.Parsed α → Except ParseError (Cache.Parsed β)}
    (h : Agrees buffer offset x y) (hn : Agrees buffer offset (k none) (k' none))
    (hk : ∀ {a stop}, offset ≤ stop → stop ≤ buffer.len →
      Agrees buffer offset (k (some (a, stop))) (k' (some (a, buffer.bytes.drop stop)))) :
    Agrees buffer offset (x >>= k) (y >>= k') := by
  cases h
  case panic => exact .panic
  case error => exact .error
  case incomplete => exact hn
  case value hge hle => exact hk hge hle

theorem Agrees.map {f : α → β} (h : Agrees buffer offset x y) :
    Agrees buffer offset (x >>= fun r => pure (r.map fun p => (f p.1, p.2)))
      (y >>= fun r => pure (r.map fun p => (f p.1, p.2))) :=
  h.bind .incomplete .value

theorem parseLine_agrees (h : offset < buffer.len) :
    Agrees buffer (offset + 1) (parseLine buffer read offset)
      (Cache.parseLine read (buffer.bytes.drop (offset + 1))) := by
  cases hf : Cache.findCrlf (buffer.bytes.drop (offset + 1))
  case none =>
    rw [parseLine_none h hf, Cache.parseLine, hf]
    exact .incomplete
  case some p =>
    obtain ⟨stop, hle, hd, hp⟩ := @parseLine_some buffer offset α read p.1 p.2 h hf
    have hge : offset + 1 ≤ stop := by
      have hlen := congrArg length (append_of_findCrlf hf)
      rw [← hd, length_append, length_append, length_drop, length_drop] at hlen
      rw [BytesMut.len] at h hle
      omega
    simp only [hp, Cache.parseLine, hf]
    cases read p.1
    case error e => exact .error
    case ok a => exact hd ▸ .value hge hle

theorem bulkData_agrees (h : stop ≤ buffer.len) : Agrees buffer stop (bulkData buffer n stop)
      (if (buffer.bytes.drop stop).length < n + 2 then .ok none
        else .ok (some (.bulkString (some ((buffer.bytes.drop stop).take n)),
          (buffer.bytes.drop stop).drop (n + 2)))) := by
  have hlen : (buffer.bytes.drop stop).length = buffer.len - stop := length_drop
  by_cases hs : stop + n + 2 < UInt64.size
  case neg =>
    rw [bulkData_panic hs]
    exact .panic
  by_cases hl : buffer.len < stop + n + 2
  case pos =>
    rw [bulkData_none hs hl, if_pos (by rw [hlen]; omega)]
    exact .incomplete
  case neg =>
    rw [bulkData_some hs hl, if_neg (by rw [hlen]; omega), drop_drop, ← Nat.add_assoc]
    exact .value (by omega) (by omega)

theorem parseBulkString_agrees (h : offset < buffer.len) :
    Agrees buffer (offset + 1) (parseBulkString buffer offset)
      (Cache.parseBulkString (buffer.bytes.drop (offset + 1))) := by
  refine (parseLine_agrees h).bind .incomplete fun hge hle => ?_
  dsimp only
  split
  · exact .value hge hle
  · split
    · exact .error
    · exact (bulkData_agrees hle).mono hge

section Values

variable {parse : ℕ → Result (Parsed RespValue)}

-- The parsers of values agree from an offset on.
def AgreeFrom (buffer : BytesMut) (start : ℕ) (parse : ℕ → Result (Parsed RespValue))
    (parse' : Bytes → Except ParseError (Cache.Parsed RespValue)) : Prop :=
  ∀ {offset}, start ≤ offset → offset ≤ buffer.len →
    Agrees buffer offset (parse offset) (parse' (buffer.bytes.drop offset))

theorem AgreeFrom.parseItems (h : AgreeFrom buffer start parse parse') (hs : start ≤ offset)
    (ho : offset ≤ buffer.len) : Agrees buffer offset (parseItems parse n offset)
      (Cache.parseItems parse' n (buffer.bytes.drop offset)) := by
  induction n generalizing offset
  case zero => exact .value le_rfl ho
  case succ n hi =>
    exact (h hs ho).bind .incomplete fun hge hle => .map ((hi (hs.trans hge) hle).mono hge)

theorem AgreeFrom.parseArray (h : AgreeFrom buffer (offset + 1) parse parse')
    (ho : offset < buffer.len) : Agrees buffer (offset + 1)
      (parseArray buffer itemSize parse offset)
      (Cache.parseArray parse' (buffer.bytes.drop (offset + 1))) := by
  refine (parseLine_agrees ho).bind .incomplete fun hge hle => ?_
  dsimp only
  split
  · exact .value hge hle
  · split
    · exact .error
    · rw [arrayItems, withCapacity]
      split
      · exact .map (f := fun items => RespValue.array (some items))
          ((h.parseItems hge hle).mono hge)
      · exact .panic

-- Neither of the limits is reached.
theorem parseValue_agrees (ho : offset ≤ buffer.len) (hd : buffer.len - offset < depth)
    (hd' : buffer.len - offset ≤ depth') : Agrees buffer offset
      (parseValue buffer itemSize depth offset)
      (Cache.parseValue depth' (buffer.bytes.drop offset)) := by
  induction depth generalizing offset depth'
  case zero => exact (Nat.not_lt_zero _ hd).elim
  case succ depth hi =>
    rw [Checked.parseValue]
    split
    case isTrue hge =>
      rw [drop_eq_nil_of_le hge, parseValue_nil]
      exact .incomplete
    case isFalse hlt =>
      have hlt := Nat.lt_of_not_le hlt
      obtain ⟨depth', rfl⟩ := Nat.exists_eq_succ_of_ne_zero (n := depth') (by omega)
      rw [index_eq hlt, drop_eq_cons hlt]
      generalize buffer.bytes.get ⟨offset, hlt⟩ = byte
      change Agrees buffer offset (parseValueAt ..) _
      unfold parseValueAt
      have harr : AgreeFrom buffer (offset + 1) (parseValue buffer itemSize depth)
          (Cache.parseValue depth') := fun hs ho => hi ho (by omega) (by omega)
      split <;> rw [Cache.parseValue]
      · exact .mono (.map (parseLine_agrees hlt)) (Nat.le_succ _)
      · exact .mono (.map (parseLine_agrees hlt)) (Nat.le_succ _)
      · exact .mono (.map (parseLine_agrees hlt)) (Nat.le_succ _)
      · exact (parseBulkString_agrees hlt).mono (Nat.le_succ _)
      · exact (harr.parseArray hlt).mono (Nat.le_succ _)
      · exact .error
      all_goals assumption

end Values

-- The model of the parser that has been used so far.
theorem parse_agrees : parse buffer itemSize = .error .panic ∨
    (parse buffer itemSize).map (Option.map fun r => (r.1, r.2.bytes)) =
      lift ((RespParser.parse ⟨buffer.bytes⟩).map (Option.map fun r => (r.1, r.2.buffer))) := by
  have ha : Agrees buffer 0 (parseValue buffer itemSize (buffer.len + 1) 0)
      (Cache.parseValue buffer.len buffer.bytes) :=
    parseValue_agrees (Nat.zero_le _) (Nat.lt_succ_self _) le_rfl
  rw [RespParser.parse]
  generalize hx : parseValue buffer itemSize (buffer.len + 1) 0 = x at ha
  rw [BytesMut.len] at ha
  generalize Cache.parseValue buffer.bytes.length buffer.bytes = y at ha
  cases ha
  case panic => exact .inl (parse_of_error hx)
  case error => rw [parse_of_error hx]; exact .inr rfl
  case incomplete => rw [parse_of_none hx]; exact .inr rfl
  case value stop _ hle =>
    obtain ⟨buffer', hb, hp⟩ := parse_of_some hle hx
    rw [hp]
    exact .inr (by rw [Except.map, map_some, hb]; rfl)

end Agreement

end Checked

end Cache
