import AppliedCs.Cache.Database

namespace Cache

open Codec Text

-- What is done with the value of one key.
inductive StringCall
  | set (value : Bytes)
  | append (value : Bytes)
  | get
  | strlen

inductive StringReply
  | done
  | length (n : Except String ℕ)
  | value (data : Option Bytes)

namespace StringCall

variable {F : Type} (key : String)

def perform (now : Moment) : StringCall → Action F StringReply
  | set value => do
    Database.setString key value
    return .done
  | append value => return .length (← Database.append now key value)
  | get => return .value (← Database.getString now key)
  | strlen => return .length (← Database.strlen now key)

-- Each call has its own time.
def performAll : List (Moment × StringCall) → Action F (List StringReply)
  | [] => return []
  | (now, call) :: calls => do
    let reply ← call.perform key now
    return reply :: (← performAll calls)

end StringCall

open StringCall

-- What a key holds for a caller who does not know how strings are stored.
inductive Held
  | nothing
  | bytes (data : Bytes)
  | other

namespace Held

def value : Held → Option Bytes
  | bytes data => some data
  | nothing | other => none

def length : Held → Except String ℕ
  | nothing => .ok 0
  | bytes data => .ok data.length
  | other => .error wrongTypeText

def after : Held → StringCall → Held
  | _, .set value => bytes value
  | nothing, .append value => bytes value
  | bytes data, .append value => bytes (data ++ value)
  | held, _ => held

-- An append tells the length of what is held after it.
def reply (held : Held) : StringCall → StringReply
  | .set _ => .done
  | .append value => .length (held.after (.append value)).length
  | .get => .value held.value
  | .strlen => .length held.length

def afterAll : Held → List (Moment × StringCall) → Held
  | held, [] => held
  | held, c :: rest => afterAll (held.after c.2) rest

def replies : Held → List (Moment × StringCall) → List StringReply
  | _, [] => []
  | held, c :: rest => held.reply c.2 :: replies (held.after c.2) rest

theorem eq_of_shown {held' : Held} (hv : held.value = held'.value) (hl : held.length = held'.length)
    : held = held' := by
  cases held <;> cases held' <;> cases hv <;> first | rfl | cases hl

end Held

-- The bytes are not another spelling of a number than the one in which it is printed.
def Plain (data : Bytes) : Prop :=
  ∀ i, (String.fromUTF8? ⟨data.toArray⟩).bind parseI64 = some i → asBytes (toString i.toInt) = data

theorem StringObject.asBytes_fromBytes_iff : (fromBytes data).asBytes = data ↔ Plain data := by
  rw [fromBytes]
  split
  case h_1 i hi => exact ⟨fun h _ hi' => by cases hi.symm.trans hi'; exact h, fun h => h i hi⟩
  case h_2 hn => exact iff_of_true rfl fun _ hi => by cases hn.symm.trans hi

-- Where a call stores a string anew, from the bytes that it should have.
def StringCall.Keeps : Held → StringCall → Prop
  | _, .set value => Plain value
  | .bytes data, .append value => Plain (data ++ value)
  | _, _ => True

def Held.Careful : Held → List (Moment × StringCall) → Prop
  | _, [] => True
  | held, c :: rest => c.2.Keeps held ∧ Careful (held.after c.2) rest

namespace Database

variable {F : Type} {db : Database F} {key : String} {now : Moment}

def held (db : Database F) (key : String) : Held :=
  match db.data.lookup key with
  | none => .nothing
  | some (.string s) => .bytes s.asBytes
  | some _ => .other

section

variable (h : db.expires.lookup key = none)

include h

theorem get_bind_of_no_ttl {α : Type} (k : Option (RedisObject F) → Action F α) :
    (get now key >>= k) db = k (db.data.lookup key) db := by
  have he : db.isExpired now key = false := by rw [isExpired, h]
  show (if db.isExpired now key then _ else _ : Option _).bind _ = _
  rw [he]
  rfl

theorem getString_of_no_ttl : getString now key db = some ((db.held key).value, db) := by
  rw [getString, get_bind_of_no_ttl h, held]
  cases db.data.lookup key
  case none => rfl
  case some o => cases o <;> rfl

theorem strlen_of_no_ttl : strlen now key db = some ((db.held key).length, db) := by
  rw [strlen, get_bind_of_no_ttl h, held]
  cases db.data.lookup key
  case none => rfl
  case some o => cases o <;> rfl

end

theorem held_insert {expires : Finmap fun _ : String => ℕ} :
    held { data := db.data.insert key (.string s), expires } key = .bytes s.asBytes := by
  rw [held, Finmap.lookup_insert]

theorem held_insert_iff {data : Bytes} {expires : Finmap fun _ : String => ℕ} :
    held { data := db.data.insert key (.string (.fromBytes data)), expires } key = .bytes data ↔
      Plain data := by
  rw [held_insert, ← StringObject.asBytes_fromBytes_iff]
  exact ⟨fun h => Held.bytes.inj h, fun h => congrArg _ h⟩

theorem append_of_no_ttl (h : db.expires.lookup key = none) :
    ∃ db', append now key value db = some (((db.held key).after (.append value)).length, db') ∧
      db'.expires.lookup key = none ∧
      (db'.held key = (db.held key).after (.append value) ↔
        Keeps (db.held key) (.append value)) := by
  rw [append, get_bind_of_no_ttl h]
  cases hd : db.data.lookup key
  case none =>
    have hh : db.held key = .nothing := by rw [held, hd]
    rw [hh]
    exact ⟨_, rfl, Finmap.lookup_erase _ _, iff_of_true held_insert trivial⟩
  case some o =>
    cases o
    case string s =>
      have hh : db.held key = .bytes s.asBytes := by rw [held, hd]
      rw [hh]
      refine ⟨{ db with data := db.data.insert key (.string (s.append value).1) }, ?_, h,
        held_insert_iff⟩
      rfl
    all_goals
      have hh : db.held key = .other := by rw [held, hd]
      rw [hh]
      exact ⟨db, rfl, h, iff_of_true hh trivial⟩

theorem perform_of_no_ttl (h : db.expires.lookup key = none) :
    ∃ db', call.perform key now db = some ((db.held key).reply call, db') ∧
      db'.expires.lookup key = none ∧
      (db'.held key = (db.held key).after call ↔ call.Keeps (db.held key)) := by
  cases call
  case set value =>
    exact ⟨_, rfl, Finmap.lookup_erase _ _, held_insert_iff⟩
  case append value =>
    obtain ⟨db', he, hk, hh⟩ := @append_of_no_ttl F db key now value h
    refine ⟨db', ?_, hk, hh⟩
    show (append now key value db).bind _ = _
    rw [he]
    rfl
  case get =>
    refine ⟨db, ?_, h, iff_of_true (by cases db.held key <;> rfl)
      (by cases db.held key <;> trivial)⟩
    show (getString now key db).bind _ = _
    rw [getString_of_no_ttl h]
    rfl
  case strlen =>
    refine ⟨db, ?_, h, iff_of_true (by cases db.held key <;> rfl)
      (by cases db.held key <;> trivial)⟩
    show (strlen now key db).bind _ = _
    rw [strlen_of_no_ttl h]
    rfl

-- All replies are as they should be, and so is what the key then shows.
def ShowsBytes (db : Database F) (key : String) (calls : List (Moment × StringCall)) : Prop :=
  ∃ db', performAll key calls db = some ((db.held key).replies calls, db') ∧
    ∀ now, getString now key db' = some (((db.held key).afterAll calls).value, db') ∧
      strlen now key db' = some (((db.held key).afterAll calls).length, db')

theorem showsBytes_nil (h : db.expires.lookup key = none) : db.ShowsBytes key [] :=
  ⟨db, rfl, fun _ => ⟨getString_of_no_ttl h, strlen_of_no_ttl h⟩⟩

theorem showsBytes_cons (he : call.perform key now db = some ((db.held key).reply call, db'))
    (hh : db'.held key = (db.held key).after call) :
    db.ShowsBytes key ((now, call) :: calls) ↔ db'.ShowsBytes key calls := by
  have hp : performAll key ((now, call) :: calls) db =
      (performAll key calls db').map
        fun p => ((db.held key).reply call :: p.1, p.2) := by
    show (call.perform key now db).bind _ = _
    rw [he]
    show (performAll key calls db').bind _ = _
    cases performAll key calls db' <;> rfl
  rw [ShowsBytes, ShowsBytes, hp, hh]
  constructor
  · rintro ⟨db'', hp', hs⟩
    obtain ⟨⟨replies, _⟩, hr, hq⟩ := Option.map_eq_some_iff.mp hp'
    obtain ⟨hr', rfl⟩ := Prod.mk.inj hq
    have hr' : replies = ((db.held key).after call).replies calls := (List.cons.inj hr').2
    exact ⟨_, hr.trans (by rw [hr']), hs⟩
  · rintro ⟨db'', hp', hs⟩
    refine ⟨db'', ?_, hs⟩
    rw [hp']
    rfl

theorem held_of_showsBytes (hk : db'.expires.lookup key = none)
    (he : call.perform key now db = some ((db.held key).reply call, db'))
    (h : db.ShowsBytes key [(now, call)]) : db'.held key = (db.held key).after call := by
  obtain ⟨db'', hp, hs⟩ := h
  have hp' : performAll key [(now, call)] db = some ([(db.held key).reply call], db') := by
    show (call.perform key now db).bind _ = _
    rw [he]
    rfl
  cases hp'.symm.trans hp
  obtain ⟨hg, hl⟩ := hs now
  refine Held.eq_of_shown ?_ ?_
  · exact (Prod.mk.inj (Option.some.inj ((getString_of_no_ttl hk).symm.trans hg))).1
  · exact (Prod.mk.inj (Option.some.inj ((strlen_of_no_ttl hk).symm.trans hl))).1

-- Of each part of a sequence of calls from its start.
theorem string_values_are_bytes_iff (h : db.expires.lookup key = none) :
    (∀ earlier later, calls = earlier ++ later → db.ShowsBytes key earlier) ↔
      (db.held key).Careful calls := by
  induction calls generalizing db
  case nil =>
    refine iff_of_true (fun earlier later he => ?_) trivial
    rw [(List.append_eq_nil_iff.mp he.symm).1]
    exact showsBytes_nil h
  case cons c calls hi =>
    obtain ⟨now, call⟩ := c
    obtain ⟨db', he, hk, hkeeps⟩ := @perform_of_no_ttl F db key now call h
    constructor
    · intro hs
      have hh := held_of_showsBytes hk he (hs [(now, call)] calls rfl)
      refine ⟨hkeeps.mp hh, ?_⟩
      rw [← hh]
      refine (hi hk).mp fun earlier later heq => ?_
      exact (showsBytes_cons he hh).mp (hs ((now, call) :: earlier) later (by rw [heq]; rfl))
    · rintro ⟨hc, hrest⟩ earlier later heq
      have hh := hkeeps.mpr hc
      cases earlier
      case nil => exact showsBytes_nil h
      case cons c' earlier =>
        obtain ⟨rfl, hl⟩ := List.cons.inj (heq.trans List.cons_append)
        exact (showsBytes_cons he hh).mpr ((hi hk).mpr (hh ▸ hrest) earlier later hl)

-- A number with leading zeros loses them, and a part of a number becomes one.
theorem leading_zeros_are_lost :
    (∃ db, performAll "k" [(sampleMoment, .set [48, 48, 55]), (sampleMoment, .get)]
      ({} : Database ℕ) = some ([.done, .value (some [55])], db)) ∧ ∃ db, performAll "k"
      [(sampleMoment, .append [48]), (sampleMoment, .append [55]), (sampleMoment, .strlen)]
      ({} : Database ℕ) = some ([.length (.ok 1), .length (.ok 2), .length (.ok 1)], db) :=
  ⟨⟨_, rfl⟩, _, rfl⟩

theorem letters_are_kept : ({} : Database ℕ).ShowsBytes "k"
    [(sampleMoment, .set [97]), (sampleMoment, .append [55]), (sampleMoment, .strlen)] := by
  refine (@string_values_are_bytes_iff ℕ {} "k" _ rfl).mpr ?_ _ [] rfl
  exact ⟨fun i hi => (by cases hi), fun i hi => (by cases hi), trivial, trivial⟩

end Database

end Cache
