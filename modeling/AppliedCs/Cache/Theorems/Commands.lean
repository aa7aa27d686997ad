import AppliedCs.Cache.Server
import AppliedCs.Lib.Effect

namespace Cache

open Codec Effect Database List Option

variable {F : Type} {α β : Type}

namespace Database

variable {db : Database F}

-- What a command finds under a key, and what it leaves if that is all it does.
def current (db : Database F) (now : Moment) (key : String) : Option (RedisObject F) :=
  if db.isExpired now key then none else db.data.lookup key

def cleared (db : Database F) (now : Moment) (key : String) : Database F :=
  if db.isExpired now key then db.erase key else db

def replaced (db : Database F) (key : String) (value : RedisObject F) : Database F :=
  { db with data := db.data.insert key value }

theorem get_eq : get now key db = some (db.current now key, db.cleared now key) := by
  rw [get, current, cleared]
  split <;> rfl

theorem change_eq : change now key missing f db = some ((db.current now key).elim
    (missing, db.cleared now key) fun value => (f value).elim (wrongType, db.cleared now key)
      fun r => (r.2, (db.cleared now key).replaced key r.1)) := by
  show (get now key db).bind _ = _
  rw [get_eq]
  cases db.current now key
  case none => rfl
  case some value =>
    rw [bind_some, elim_some]
    dsimp only
    cases f value <;> rfl

theorem of_not_expired (h : db.isExpired now key = false) :
    db.current now key = db.data.lookup key ∧ db.cleared now key = db := by
  simp [current, cleared, h]

theorem not_expired_of_current (h : db.current now key = some value) :
    db.isExpired now key = false := by
  by_contra hx
  simp [current, hx] at h

end Database

-- No key expires.
def Database.Lasting (db : Database F) : Prop :=
  db.expires = ∅

def Failed (reply : RespValue) : Prop :=
  reply.isError

-- The same happens at any time.
def Timeless (m : Moment → Action F α) : Prop :=
  ∀ now now', Agrees Lasting (m now) (m now')

-- And nothing happens to the database.
structure Looks (m : Moment → Action F α) : Prop where
  reads : ∀ now, Reads Lasting (m now)
  agrees : Timeless m

-- Doing it again at another time has the same effect, and there is no effect if it fails.
structure Steady (failed : α → Prop) (m : Moment → Action F α) : Prop where
  agrees : Timeless m
  atomic : ∀ now, Atomic Lasting failed (m now)

section Rules

variable {m : Moment → Action F α} {k : Moment → α → Action F β}

theorem Timeless.bind (h : Timeless m) (hk : ∀ a, Timeless (k · a)) :
    Timeless fun now => m now >>= k now :=
  fun now now' => (h now now').bind fun a => hk a now now'

theorem Timeless.pure (a : α) : Timeless (F := F) fun _ => Pure.pure a :=
  fun _ _ => .pure a

theorem Looks.pure (a : α) : Looks (F := F) fun _ => Pure.pure a :=
  ⟨fun _ => .pure a, .pure a⟩

theorem Looks.bind (h : Looks m) (hk : ∀ a, Looks (k · a)) : Looks fun now => m now >>= k now :=
  ⟨fun now => (h.reads now).bind fun a => (hk a).reads now, h.agrees.bind fun a => (hk a).agrees⟩

theorem Looks.steady (h : Looks m) : Steady failed m :=
  ⟨h.agrees, fun now => (h.reads now).atomic⟩

theorem Steady.pure (a : α) : Steady (F := F) failed fun _ => Pure.pure a :=
  (Looks.pure a).steady

theorem Steady.bind (h : Looks m) (hk : ∀ a, Steady failed' (k · a)) :
    Steady failed' fun now => m now >>= k now :=
  ⟨h.agrees.bind fun a => (hk a).agrees, fun now => .bind (h.reads now) fun a => (hk a).atomic now⟩

theorem Steady.map (h : Steady failed m) {f : α → β} (hf : ∀ a, failed' (f a) → failed a) :
    Steady failed' fun now => do return f (← m now) :=
  ⟨h.agrees.bind fun _ => .pure _, fun now => (h.atomic now).map hf⟩

-- What comes last does not fail.
theorem Timeless.steady (h : Timeless m) {f : α → β} (hf : ∀ a, ¬ failed' (f a)) :
    Steady failed' fun now => do return f (← m now) :=
  ⟨h.bind fun _ => .pure _, fun _ => (Succeeds.bind fun a => .pure (hf a)).atomic⟩

end Rules

section Databases

variable {db : Database F}

theorem Database.Lasting.isExpired (h : db.Lasting) : db.isExpired now key = false := by
  rw [Database.isExpired, show db.expires = ∅ from h, Finmap.lookup_empty]

theorem Database.Lasting.stays (h : db.Lasting) :
    db.current now key = db.data.lookup key ∧ db.cleared now key = db :=
  of_not_expired h.isExpired

theorem Database.Lasting.get (h : db.Lasting) :
    (get now key).run db = some (db.data.lookup key, db) :=
  get_eq.trans <| by rw [h.stays.1, h.stays.2]

theorem looks_get (key : String) : Looks (F := F) (get · key) where
  reads now db h p hp := by
    rw [h.get] at hp
    cases hp
    rfl
  agrees now now' db h := by
    rw [h.get, h.get]
    refine ⟨rfl, ?_⟩
    rintro _ ⟨⟩
    exact h

theorem looks_exists (key : String) : Looks (F := F) (Database.exists · key) :=
  (looks_get key).bind fun _ => .pure _

theorem looks_getString (key : String) : Looks (F := F) (getString · key) := by
  refine (looks_get key).bind fun value => ?_
  split <;> exact .pure _

theorem timeless_of_run {m : Action F α}
    (h : ∀ db p, m.run db = some p → db.Lasting → p.2.Lasting) : Timeless fun _ => m :=
  fun _ _ db hl => ⟨rfl, fun p hp => h db p hp hl⟩

theorem Database.Lasting.erase (h : db.Lasting) (key : String) : db.expires.erase key = ∅ := by
  rw [show db.expires = ∅ from h]
  exact Finmap.ext_lookup fun _ => rfl

theorem timeless_delete (key : String) : Timeless (F := F) fun _ => delete key :=
  timeless_of_run <| by
    rintro db _ ⟨⟩ h
    exact h.erase key

theorem timeless_put (key : String) (value : RedisObject F) : Timeless fun _ => put key value :=
  timeless_of_run <| by
    rintro db _ ⟨⟩ h
    exact h

theorem timeless_set (key : String) (value : RedisObject F) : Timeless fun _ => set key value :=
  timeless_of_run <| by
    rintro db _ ⟨⟩ h
    exact h.erase key

theorem timeless_persist (key : String) : Timeless (F := F) fun _ => persist key :=
  timeless_of_run <| by
    rintro db _ ⟨⟩ h
    exact h.erase key

theorem timeless_flush : Timeless (F := F) fun _ => flush :=
  timeless_of_run <| by
    rintro db _ ⟨⟩ -
    rfl

theorem timeless_setString (key : String) (value : Bytes) :
    Timeless (F := F) fun _ => setString key value :=
  timeless_set key _

def IsError (r : Except α β) : Prop :=
  r.toOption = none

theorem not_isError_ok : ¬ IsError (.ok b : Except α β) :=
  some_ne_none b

theorem steady_incr (key : String) (amount : Int64) :
    Steady (F := F) IsError (incr · key amount) := by
  refine .bind (looks_get key) fun value => ?_
  split
  · split
    · exact .pure _
    · exact (timeless_put key _).steady fun _ => not_isError_ok
  · exact .pure _
  · exact (timeless_set key _).steady fun _ => not_isError_ok

theorem steady_append (key : String) (value : Bytes) :
    Steady (F := F) IsError (append · key value) := by
  refine .bind (looks_get key) fun value => ?_
  split
  · exact (timeless_put key _).steady fun _ => not_isError_ok
  · exact .pure _
  · exact (timeless_set key _).steady fun _ => not_isError_ok

theorem timeless_setnx (key : String) (value : Bytes) :
    Timeless (F := F) (Database.setnx · key value) := by
  refine (looks_exists key).agrees.bind fun present => ?_
  split
  · exact .pure _
  · exact (timeless_setString key value).bind fun _ => .pure _

end Databases

section Arguments

variable {read : RespValue → Option α}

theorem reads_argument {body : α → Action F RespValue} (h : ∀ a, Reads Lasting (body a)) :
    Reads Lasting (argument read args i text body) := by
  rw [argument]
  split
  · exact .pure _
  · exact h _

theorem reads_keyed {body : String → List RespValue → Action F RespValue}
    (h : ∀ key, Reads Lasting (body key args.tail)) :
    Reads Lasting (keyed name arity body args) := by
  rw [keyed]
  split
  · exact reads_argument h
  · exact .pure _

theorem reads_look (key : String) {view : RedisObject F → Option RespValue} :
    Reads Lasting (look now key missing view) := by
  refine ((looks_get key).reads now).bind fun value => ?_
  split <;> exact .pure _

theorem steady_argument {body : Moment → α → Action F RespValue}
    (h : ∀ a, Steady Failed (body · a)) :
    Steady Failed fun now => argument read args i text (body now) := by
  simp only [argument]
  split
  · exact .pure _
  · exact h _

theorem steady_keyed {body : Moment → String → List RespValue → Action F RespValue}
    (h : ∀ key, Steady Failed (body · key args.tail)) :
    Steady Failed fun now => keyed name arity (body now) args := by
  simp only [keyed]
  split
  · exact steady_argument h
  · exact .pure _

end Arguments

section Values

variable {db : Database F} {f : RedisObject F → Option (RedisObject F × RespValue)}

theorem Database.Lasting.change (h : db.Lasting) :
    (change now key missing f).run db = some ((db.data.lookup key).elim (missing, db) fun value =>
      (f value).elim (wrongType, db) fun r => (r.2, db.replaced key r.1)) :=
  change_eq.trans <| by rw [h.stays.1, h.stays.2]

theorem timeless_change (key : String) : Timeless fun now => change now key missing f := by
  refine (looks_get key).agrees.bind fun value => ?_
  split
  · exact .pure _
  · split
    · exact .pure _
    · exact (timeless_put key _).bind fun _ => .pure _

theorem insert_lookup (h : db.data.lookup key = some value) :
    db.data.insert key value = db.data := by
  refine Finmap.ext_lookup fun key' => ?_
  by_cases hk : key' = key
  case pos => rw [hk, Finmap.lookup_insert, h]
  case neg => rw [Finmap.lookup_insert_of_ne _ hk]

-- An error leaves the value as it is.
theorem steady_change (key : String) (hf : ∀ value r, f value = some r → Failed r.2 → r.1 = value) :
    Steady Failed fun now => change now key missing f := by
  refine ⟨timeless_change key, fun now db h p hp hfail => ?_⟩
  rw [h.change] at hp
  cases hl : db.data.lookup key <;> rw [hl] at hp
  case none => cases hp; rfl
  case some value =>
    rw [elim_some] at hp
    cases hv : f value <;> rw [hv] at hp <;> cases hp
    case none => rfl
    case some r =>
      show db.replaced key r.1 = db
      rw [hf value r hv hfail, replaced, insert_lookup hl]

-- There is no error for a value of the right type.
theorem steady_create (key : String) (hf : ∀ value r, f value = some r → ¬ Failed r.2)
    (hempty : f empty ≠ none) : Steady Failed fun now => create now key empty f := by
  refine .bind (looks_exists key) fun present => ?_
  split
  · exact steady_change key fun value r hv hfail => absurd hfail (hf value r hv)
  · refine ⟨(timeless_set key empty).bind fun _ => timeless_change key, fun now => ?_⟩
    refine fun db h p hp hfail => ?_
    obtain ⟨a, ha, hp⟩ := mem_bind hp
    cases ha
    have hl : Lasting { data := db.data.insert key empty, expires := db.expires.erase key } :=
      h.erase key
    obtain ⟨r, hr⟩ := ne_none_iff_exists'.mp hempty
    rw [hl.change, Finmap.lookup_insert, elim_some, hr] at hp
    cases hp
    exact absurd hfail (hf _ _ hr)

end Values

theorem not_failed_count (n : ℕ) : ¬ Failed (count n) :=
  Bool.false_ne_true

theorem not_failed_truth (b : Bool) : ¬ Failed (truth b) :=
  Bool.false_ne_true

theorem not_failed_ok : ¬ Failed .ok :=
  Bool.false_ne_true

theorem not_failed_bulkOrNull (data : Option Bytes) : ¬ Failed (bulkOrNull data) := by
  cases data <;> exact Bool.false_ne_true

def ReadOnly (command : Moment → Command F) : Prop :=
  ∀ now args, Reads Lasting (command now args)

-- A command that has succeeded can be replayed later, and one that has failed need not be.
def Replays (command : Moment → Command F) : Prop :=
  ∀ args, Steady Failed (command · args)

section Families

variable {read : RespValue → Option α} {i : ℕ} {name : String} {arity : ℕ → Bool}

theorem readOnly_look {missing : List RespValue → RespValue}
    {view : Moment → List RespValue → RedisObject F → Option RespValue} : ReadOnly fun now =>
      keyed name arity fun key args => look now key (missing args) (view now args) :=
  fun _ _ => reads_keyed fun key => reads_look key

theorem readOnly_look_argument {view : α → RedisObject F → Option RespValue} :
    ReadOnly fun now => keyed name arity fun key args =>
      argument read args i text fun a => look now key missing (view a) :=
  fun _ _ => reads_keyed fun key => reads_argument fun _ => reads_look key

theorem ReadOnly.of_nonempty {command : Moment → Command F} (h : ReadOnly command) :
    ReadOnly fun now args =>
      if args.isEmpty then return wrongArguments name else command now args := by
  intro now args
  dsimp only
  split
  · exact .pure _
  · exact h now args

end Families

namespace Strings

theorem readOnly_get : ReadOnly (F := F) get :=
  fun now _ => reads_keyed fun key => ((looks_getString key).reads now).bind fun _ => .pure _

theorem readOnly_mget : ReadOnly (F := F) mget :=
  .of_nonempty fun now _ =>
    (Reads.mapM (fun key => (looks_getString key).reads now) _).bind fun _ => .pure _

theorem readOnly_strlen : ReadOnly (F := F) strlen := by
  refine fun now _ => reads_keyed fun key =>
    .bind (.bind ((looks_get key).reads now) ?_) fun _ => .pure _
  intro value
  split <;> exact .pure _

theorem steady_store (key : String) (value : Bytes) (h : options.expire = none) :
    Steady (F := F) Failed (store · key value options) := by
  simp only [store, h]
  refine .bind (looks_exists key) fun present => ?_
  split
  · exact .pure _
  · split
    · exact .pure _
    · exact (timeless_setString key value).steady fun _ => not_failed_ok

-- Without an option that sets when the key expires.
theorem steady_set [Environment]
    (h : ∀ options, setOptions {} args.tail.tail = .ok options → options.expire = none) :
    Steady (F := F) Failed (set · args) := by
  refine steady_keyed fun key => steady_argument fun value => ?_
  split
  · exact .pure _
  case h_2 options ho => exact steady_store key value (h options ho)

theorem replays_setnx : Replays (F := F) setnx :=
  fun _ => steady_keyed fun key => steady_argument fun value =>
    (timeless_setnx key value).steady not_failed_truth

theorem replays_mset : Replays (F := F) fun _ => mset := by
  intro args
  simp only [mset]
  split
  · exact .pure _
  · split
    · exact .pure _
    · refine Timeless.steady (fun now now' => .forM (fun p => ?_) _) fun _ => not_failed_ok
      exact timeless_setString p.1 p.2 now now'

theorem isError_of_lengthReply (h : Failed (lengthReply r)) : IsError r := by
  cases r
  case ok n => exact absurd h (not_failed_count n)
  case error e => rfl

theorem isError_of_numberReply (h : Failed (numberReply r)) : IsError r := by
  cases r
  case ok i => exact absurd h Bool.false_ne_true
  case error e => rfl

theorem replays_append : Replays (F := F) append :=
  fun _ => steady_keyed fun key => steady_argument fun value =>
    (steady_append key value).map fun _ => isError_of_lengthReply

theorem replays_incr : Replays (F := F) incr :=
  fun _ => steady_keyed fun key => (steady_incr key 1).map fun _ => isError_of_numberReply

theorem replays_incrby : Replays (F := F) incrby :=
  fun _ => steady_keyed fun key => steady_argument fun increment =>
    (steady_incr key increment).map fun _ => isError_of_numberReply

theorem replays_decr : Replays (F := F) decr :=
  fun _ => steady_keyed fun key => (steady_incr key (-1)).map fun _ => isError_of_numberReply

theorem replays_decrby : Replays (F := F) decrby :=
  fun _ => steady_keyed fun key => steady_argument fun decrement =>
    (steady_incr key (-decrement)).map fun _ => isError_of_numberReply

theorem replays_getset : Replays (F := F) getset :=
  fun _ => steady_keyed fun key => steady_argument fun value =>
    .bind (looks_getString key) fun oldValue =>
      (timeless_setString key value).steady fun _ => not_failed_bulkOrNull oldValue

end Strings

namespace Lists

theorem replays_push : Replays (F := F) (push · name f) := by
  refine fun args => steady_keyed fun key => steady_create key (fun value r hr => ?_) nofun
  cases value <;> cases hr
  exact not_failed_count _

theorem replays_pop : Replays (F := F) (pop · name split) := by
  refine fun args => steady_keyed fun key => ?_
  split
  · exact .pure _
  case h_2 n _ =>
    refine steady_change key fun value r hr hfail => ?_
    split at hr
    · cases hr; rfl
    · refine absurd hfail ?_
      cases n <;> cases hr
      · exact not_failed_bulkOrNull _
      · exact Bool.false_ne_true
    · cases hr

theorem replays_lset : Replays (F := F) lset := by
  refine fun args => steady_keyed fun key => steady_argument fun index =>
    steady_argument fun value =>
    steady_change key fun value r hr hfail => ?_
  split at hr
  case h_1 items =>
    split at hr <;> cases hr
    · rfl
    · exact absurd hfail not_failed_ok
  case h_2 => cases hr

theorem readOnly_lrange : ReadOnly (F := F) lrange := by
  refine fun now args => reads_keyed fun key => reads_argument fun start =>
    reads_argument fun stop =>
    .bind ((looks_get key).reads now) fun value => ?_
  split
  case h_2 => exact .bind (.lift _) fun _ => .pure _
  all_goals exact .pure _

end Lists

namespace Sets

theorem replays_sadd : Replays (F := F) sadd := by
  refine fun args => steady_keyed fun key => steady_create key (fun value r hr => ?_) nofun
  cases value <;> cases hr
  exact not_failed_count _

theorem replays_srem : Replays (F := F) srem := by
  refine fun args => steady_keyed fun key => steady_change key fun value r hr hfail => ?_
  cases value <;> cases hr
  exact absurd hfail (not_failed_count _)

theorem readOnly_combine (result : Option (Finset Bytes)) :
    ReadOnly (F := F) (combine · f missing result) := by
  intro now args
  induction args generalizing result
  case nil => exact .pure _
  case cons arg args hi =>
    simp only [combine]
    split
    · exact .pure _
    · refine .bind ((looks_get _).reads now) fun value => ?_
      split
      · exact hi _
      · exact .pure _
      · split
        · exact .pure _
        · exact hi _

theorem readOnly_sinter : ReadOnly (F := F) sinter :=
  (readOnly_combine none).of_nonempty

theorem readOnly_sunion : ReadOnly (F := F) sunion :=
  (readOnly_combine none).of_nonempty

theorem readOnly_subtract (result : Finset Bytes) : ReadOnly (F := F) (subtract · result) := by
  intro now args
  induction args generalizing result
  case nil => exact .pure _
  case cons arg args hi =>
    simp only [subtract]
    split
    · exact .pure _
    · refine .bind ((looks_get _).reads now) fun value => ?_
      split <;> exact hi _

theorem readOnly_sdiff : ReadOnly (F := F) sdiff := by
  refine fun now args => reads_keyed fun key => .bind ((looks_get key).reads now) fun value => ?_
  split
  · exact readOnly_subtract _ now _
  · exact .pure _
  · exact .pure _

end Sets

namespace Hashes

-- Every field and every value can be read.
def Readable : List RespValue → Prop
  | field :: value :: args => field.asBytes.isSome ∧ value.asBytes.isSome ∧ Readable args
  | _ => True

theorem setFields_readable (fields : Fields) (added : ℕ) (h : Readable args) :
    ∃ n, (setFields fields added args).2 = .ok n := by
  fun_induction setFields fields added args
  case case1 hn | case2 hn _ => simp [Readable, hn] at h
  case case3 hi => exact hi h.2.2
  case case4 => exact ⟨_, rfl⟩

theorem steady_setCommand (hr : ∀ n, ¬ Failed (reply n)) (h : Readable args.tail) :
    Steady (F := F) Failed (setCommand · name reply args) := by
  refine steady_keyed fun key => steady_create key (fun value r hv => ?_) ?_
  · split at hv
    case h_1 fields =>
      obtain ⟨n, hn⟩ := setFields_readable fields 0 h
      split at hv
      case h_1 heq => rw [heq] at hn; cases hn
      case h_2 heq => cases hv; exact hr _
    case h_2 => cases hv
  · simp only
    split <;> nofun

theorem replays_hdel : Replays (F := F) hdel := by
  refine fun args => steady_keyed fun key => steady_change key fun value r hr hfail => ?_
  cases value <;> cases hr
  exact absurd hfail (not_failed_count _)

theorem readOnly_listing : ReadOnly (F := F) (listing · name parts) :=
  readOnly_look

end Hashes

namespace ZSets

variable [Score F]

-- Every score and every member can be read.
def Readable (F : Type) [Score F] : List RespValue → Prop
  | score :: member :: args =>
    (parseScore score : Option F).isSome ∧ member.asBytes.isSome ∧ Readable F args
  | _ => True

theorem addMembers_readable (options : AddOptions) (z : ZSetObject F) (added changed : ℕ)
    (h : Readable F args) : ∃ n, (addMembers options z added changed args).2 = .ok n := by
  fun_induction addMembers options z added changed args
  case case1 hn | case2 hn _ => simp [Readable, hn] at h
  case case3 hi | case4 hi | case5 hi | case6 hi | case7 hi => exact hi h.2.2
  case case8 => exact ⟨_, rfl⟩

theorem steady_zadd [Environment] (h : Readable F (addOptions {} args.tail).2) :
    Steady (F := F) Failed (zadd · args) := by
  refine steady_keyed fun key => ?_
  simp only
  split
  case isTrue => exact .pure _
  refine steady_create key (fun value r hv => ?_) ?_
  · split at hv
    case h_1 z =>
      obtain ⟨n, hn⟩ := addMembers_readable (addOptions {} args.tail).1 z 0 0 h
      split at hv
      case h_1 heq => rw [heq] at hn; cases hn
      case h_2 heq => cases hv; exact not_failed_count _
    case h_2 => cases hv
  · simp only
    split <;> nofun

theorem replays_zrem : Replays (F := F) zrem := by
  refine fun args => steady_keyed fun key => steady_change key fun value r hr hfail => ?_
  cases value <;> cases hr
  exact absurd hfail (not_failed_count _)

theorem replays_zincrby : Replays (F := F) zincrby := by
  refine fun args => steady_keyed fun key => steady_argument fun increment =>
    steady_argument fun member => steady_create key (fun value r hr => ?_) nofun
  cases value <;> cases hr
  exact Bool.false_ne_true

theorem readOnly_zrange : ReadOnly (F := F) zrange := by
  refine fun now args => reads_keyed fun key => reads_argument fun start =>
    reads_argument fun stop =>
    .bind ((looks_get key).reads now) fun value => ?_
  split
  · split
    · exact .pure _
    · exact .bind (.lift _) fun _ => .pure _
  all_goals exact .pure _

theorem readOnly_zcount [Environment] : ReadOnly (F := F) (zcount ·) :=
  fun _ _ => reads_keyed fun key => reads_argument fun _ => reads_argument fun _ => reads_look key

end ZSets

namespace Keys

theorem replays_del : Replays (F := F) fun _ => del := by
  intro args
  simp only [del, countKeys]
  split
  · exact .pure _
  · refine Timeless.steady (fun now now' => .mapM (fun key => ?_) _) fun _ => not_failed_count _
    exact timeless_delete key now now'

theorem readOnly_exists : ReadOnly (F := F) Keys.exists :=
  .of_nonempty fun now _ =>
    (Reads.mapM (fun key => (looks_exists key).reads now) _).bind fun _ => .pure _

theorem reads_ttl (key : String) (unit : ℕ) :
    Reads Lasting (Database.ttl now key unit : Action F Int64) := by
  intro db _ p hp
  change (if _ then _ else _) = _ at hp
  split at hp
  · cases hp; rfl
  · split at hp
    · split at hp <;> cases hp <;> rfl
    · cases hp; rfl

theorem readOnly_remaining : ReadOnly (F := F) (remaining · name unit) :=
  fun _ _ => reads_keyed fun key => (reads_ttl key unit).bind fun _ => .pure _

theorem replays_persist : Replays (F := F) fun _ => persist :=
  fun _ => steady_keyed fun key => (timeless_persist key).steady not_failed_truth

theorem readOnly_keyType : ReadOnly (F := F) keyType := by
  refine fun now args => reads_keyed fun key =>
    .bind (.bind ((looks_get key).reads now) fun value => ?_) fun _ => .pure _
  split <;> exact .pure _

theorem readOnly_keys : ReadOnly (F := F) keys := by
  intro now args
  rw [keys]
  split
  case isFalse => exact .pure _
  case isTrue =>
    refine reads_argument fun pattern => .bind (fun db _ p hp => ?_) fun _ => .pure _
    change (if _ then _ else _) = _ at hp
    split at hp <;> cases hp <;> rfl

theorem readOnly_dbsize : ReadOnly (F := F) fun _ => dbsize := by
  rintro now args db - _ ⟨⟩
  rfl

theorem replays_flushdb : Replays (F := F) fun _ => flushdb :=
  fun _ => timeless_flush.steady fun _ => not_failed_ok

theorem steady_move (key newkey : String) (hr : ¬ Failed reply) :
    Steady (F := F) Failed (move · key newkey reply) := by
  refine .bind (looks_getString key) fun value => ?_
  split
  · exact .pure _
  · refine ⟨?_, fun now => ?_⟩
    · exact (timeless_delete key).bind fun _ => (timeless_setString newkey _).bind fun _ => .pure _
    · exact (Succeeds.bind fun _ => .bind fun _ => .pure hr).atomic

theorem replays_rename : Replays (F := F) rename :=
  fun _ => steady_keyed fun key => steady_argument fun newkey =>
    steady_move key newkey not_failed_ok

theorem replays_renamenx : Replays (F := F) renamenx := by
  refine fun args => steady_keyed fun key => steady_argument fun newkey =>
    .bind (looks_exists newkey) fun present => ?_
  split
  · exact .pure _
  · exact steady_move key newkey (not_failed_truth true)

end Keys

namespace ServerCommands

theorem readOnly_reply (reply : List RespValue → RespValue) :
    ReadOnly (F := F) fun _ args => return reply args :=
  fun _ _ => .pure _

theorem readOnly_ping : ReadOnly (F := F) fun _ => ping := by
  intro now args
  rcases args with _ | ⟨arg, args⟩ <;> exact .pure _

theorem readOnly_echo : ReadOnly (F := F) fun _ => echo := by
  intro now args
  simp only [echo]
  split <;> exact .pure _

theorem readOnly_info : ReadOnly (F := F) fun _ => info := by
  rintro now args db - _ ⟨⟩
  rfl

theorem readOnly_publish : ReadOnly (F := F) fun _ => publish := by
  intro now args
  simp only [publish]
  split <;> exact .pure _

theorem readOnly_pubsub [Environment] : ReadOnly (F := F) fun _ => pubsub := by
  intro now args
  simp only [pubsub]
  split
  case h_2 => split <;> exact .pure _
  all_goals exact .pure _

theorem readOnly_watch : ReadOnly (F := F) fun _ => watch := by
  intro now args
  simp only [watch]
  split <;> exact .pure _

end ServerCommands

namespace CommandExecutor

variable [Environment] [Score F] {cmd : String}

def ttlCommands : List String :=
  ["SETEX", "PSETEX", "EXPIRE", "EXPIREAT", "PEXPIRE"]

def SetsTtl (cmd : String) (args : List RespValue) : Prop :=
  cmd ∈ ttlCommands ∨
    cmd = "SET" ∧ (Strings.setOptions {} args.tail.tail).toOption.any (·.expire.isSome)

-- Whether the pairs that a command goes through one by one can all be read.
def Readable (F : Type) [Score F] (cmd : String) (args : List RespValue) : Prop :=
  (cmd = "HSET" ∨ cmd = "HMSET" → Hashes.Readable args.tail) ∧
    (cmd = "ZADD" → ZSets.Readable F (ZSets.addOptions {} args.tail).2)

inductive Treated (cmd : String) (handler : Handler F) : Prop
  | read (hw : ¬ isWriteCommand cmd) (h : ReadOnly handler)
  | write (hw : isWriteCommand cmd) (h : ∀ args, ¬ SetsTtl cmd args → Readable F cmd args →
      Steady Failed (handler · args))

namespace Treated

variable {handler : Handler F}

theorem reads (h : ReadOnly handler) (hw : ¬ isWriteCommand cmd := by decide) :
    Treated cmd handler :=
  .read hw h

theorem replays (h : Replays handler) (hw : isWriteCommand cmd := by decide) :
    Treated cmd handler :=
  .write hw fun args _ _ => h args

theorem ttl (h : cmd ∈ ttlCommands := by decide) (hw : isWriteCommand cmd := by decide) :
    Treated cmd handler :=
  .write hw fun _ ht _ => absurd (.inl h) ht

end Treated

open Strings Cache.Lists Sets Hashes ZSets Keys ServerCommands

theorem treated_set : Treated (F := F) "SET" (Strings.set ·) := by
  refine .write (by decide) fun args ht _ => steady_set fun options ho => ?_
  refine not_isSome_iff_eq_none.mp fun he => ht (.inr ⟨rfl, ?_⟩)
  rw [ho]
  exact he

theorem treated_stringCommands : ∀ p ∈ stringCommands (F := F), Treated p.1 p.2 := by
  simp only [stringCommands, forall_mem_cons]
  exact ⟨.reads readOnly_get, treated_set, .replays replays_setnx, .ttl, .ttl,
    .reads readOnly_mget, .replays replays_mset, .replays replays_append, .reads readOnly_strlen,
    .replays replays_incr, .replays replays_incrby, .replays replays_decr,
    .replays replays_decrby, .replays replays_getset, nofun⟩

theorem treated_listCommands : ∀ p ∈ listCommands (F := F), Treated p.1 p.2 := by
  simp only [listCommands, forall_mem_cons]
  exact ⟨.replays replays_push, .replays replays_push, .replays replays_pop,
    .replays replays_pop, .reads readOnly_look, .reads readOnly_lrange,
    .reads readOnly_look_argument, .replays replays_lset, nofun⟩

theorem treated_setCommands : ∀ p ∈ setCommands (F := F), Treated p.1 p.2 := by
  simp only [setCommands, forall_mem_cons]
  exact ⟨.replays replays_sadd, .replays replays_srem, .reads readOnly_look,
    .reads readOnly_look_argument, .reads readOnly_look, .reads readOnly_sinter,
    .reads readOnly_sunion, .reads readOnly_sdiff, nofun⟩

theorem treated_hashCommands : ∀ p ∈ hashCommands (F := F), Treated p.1 p.2 := by
  simp only [hashCommands, forall_mem_cons]
  exact ⟨.write (by decide) fun _ _ hr => steady_setCommand not_failed_count (hr.1 (.inl rfl)),
    .reads readOnly_look_argument, .replays replays_hdel, .reads readOnly_look_argument,
    .reads readOnly_look, .reads readOnly_listing, .reads readOnly_listing, .reads readOnly_listing,
    .write (by decide) fun _ _ hr => steady_setCommand (fun _ => not_failed_ok) (hr.1 (.inr rfl)),
    .reads readOnly_look, nofun⟩

theorem treated_zsetCommands : ∀ p ∈ zsetCommands (F := F), Treated p.1 p.2 := by
  simp only [zsetCommands, forall_mem_cons]
  exact ⟨.write (by decide) fun _ _ hr => steady_zadd (hr.2 rfl), .replays replays_zrem,
    .reads readOnly_look_argument, .reads readOnly_look, .reads readOnly_zrange,
    .reads readOnly_look_argument, .reads readOnly_zcount, .replays replays_zincrby, nofun⟩

theorem treated_keyCommands : ∀ p ∈ keyCommands (F := F), Treated p.1 p.2 := by
  simp only [keyCommands, forall_mem_cons]
  exact ⟨.replays replays_del, .reads readOnly_exists, .ttl, .ttl, .ttl,
    .reads readOnly_remaining, .reads readOnly_remaining, .replays replays_persist,
    .reads readOnly_keyType, .reads readOnly_keys, .reads readOnly_dbsize,
    .replays replays_flushdb, .replays replays_rename, .replays replays_renamenx, nofun⟩

theorem treated_otherCommands : ∀ p ∈ otherCommands (F := F), Treated p.1 p.2 := by
  simp only [otherCommands, forall_mem_cons]
  exact ⟨.reads readOnly_ping, .reads readOnly_echo, .reads readOnly_info,
    .reads (readOnly_reply _), .reads readOnly_publish, .reads readOnly_pubsub,
    .reads (readOnly_reply _), .reads (readOnly_reply _), .reads (readOnly_reply _),
    .reads readOnly_watch, .reads (readOnly_reply _), .reads (readOnly_reply _),
    .reads (readOnly_reply _), .reads (readOnly_reply _), nofun⟩

theorem treated_commands : ∀ p ∈ commands (F := F), Treated p.1 p.2 := by
  simp only [commands, forall_mem_append]
  exact ⟨⟨⟨⟨⟨⟨treated_stringCommands, treated_listCommands⟩, treated_setCommands⟩,
    treated_hashCommands⟩, treated_zsetCommands⟩, treated_keyCommands⟩, treated_otherCommands⟩

theorem mem_of_lookup {handler : Handler F} (h : commands.lookup cmd = some handler) :
    (cmd, handler) ∈ commands := by
  obtain ⟨_, _, heq, -⟩ := lookup_eq_some_iff.mp h
  rw [heq]
  exact mem_append_right _ mem_cons_self

-- Only commands that are known as writes change the database.
theorem readOnly_execute (h : ¬ isWriteCommand cmd) : ReadOnly (F := F) (execute · cmd) := by
  intro now args
  simp only [execute]
  split
  case h_1 handler hl =>
    cases treated_commands _ (mem_of_lookup hl)
    case read _ hr => exact hr now args
    case write hw _ => exact absurd hw h
  case h_2 => exact .pure _

theorem steady_execute (ht : ¬ SetsTtl cmd args) (hr : Readable F cmd args)
    (hw : isWriteCommand cmd) : Steady (F := F) Failed (execute · cmd args) := by
  simp only [execute]
  split
  case h_1 handler hl =>
    cases treated_commands _ (mem_of_lookup hl)
    case read hn _ => exact absurd hw hn
    case write _ h => exact h args ht hr
  case h_2 => exact .pure _

end CommandExecutor

end Cache
