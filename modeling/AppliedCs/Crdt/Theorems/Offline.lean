import AppliedCs.Crdt.Offline
import Mathlib.Data.List.Perm.Basic

namespace Crdt

open Transition OfflineManager List Option

-- The operation that a call is about to add to the queue.
def Task.newId : Task → Option ℕ
  | .enqueue op => some op.id
  | _ => none

-- The operation that a call has handed over and not yet taken out of the queue.
def Task.sentId : Task → Option ℕ
  | .sent op => some op.id
  | _ => none

namespace OfflineManager

variable {config : OfflineConfig} {m m' : OfflineManager} {docId docId' : DocumentId} {id : ℕ}
  {op : PendingOperation} {event : OfflineEvent} {state : ConnectionState} {gone : List ℕ}
variable {task : Task} {d : Drain} {next : Option Task} {isOk : Bool}

def queueIds (m : OfflineManager) (docId : DocumentId) : List ℕ :=
  (m.queues docId).map (·.id)

-- The operation that a reconnection has taken out of the queue and is sending. The reconnection has
-- the lock, so nobody can look at the queue in the meantime.
def inHand (m : OfflineManager) (docId : DocumentId) : List ℕ :=
  match m.lock with
  | some d => if d.docId = docId then d.inHand.toList.map (·.id) else []
  | none => []

def waiting (m : OfflineManager) (docId : DocumentId) : List ℕ :=
  m.inHand docId ++ m.queueIds docId

def acceptedIds (m : OfflineManager) (docId : DocumentId) : List ℕ :=
  (m.accepted.filter (·.docId = docId)).map (·.id)

def sentIds (m : OfflineManager) (docId : DocumentId) : List ℕ :=
  (m.channel.filter (·.docId = docId)).map (·.seq)

def allSent (m : OfflineManager) : List ℕ :=
  m.channel.map (·.seq)

def Reported (config : OfflineConfig) (m : OfflineManager) (id : ℕ) : Prop :=
  .operationFailed id "Max retries exceeded" ∈ m.events ∧ config.maxRetries ≤ m.refused.count id

-- Every accepted operation waits, was handed to the channel once or was reported, and the
-- operations of a document are handed over in the order of its queue.
structure ExactlyOnce (config : OfflineConfig) (m : OfflineManager) : Prop where
  distinct : (m.accepted.map (·.id)).Nodup
  accounted : ∀ op ∈ m.accepted, op.id ∈ m.queueIds op.docId ∨ op.id ∈ m.inHand op.docId ∨
                m.allSent.count op.id = 1 ∨ m.Reported config op.id
  once : m.allSent.Nodup
  ordered : ∀ docId, (m.sentIds docId).Sublist (m.acceptedIds docId)

-- A call that hands an operation over or takes it out of the queue finds this operation at the
-- front, and no other call has just handed it over.
def CarefulTask (m : OfflineManager) (isOk : Bool) : Task → Prop
  | .sending op => isOk → (m.queueIds op.docId).head? = some op.id ∧
    ∀ task ∈ m.tasks, task.sentId ≠ some op.id
  | .sent op => (m.queueIds op.docId).head? = some op.id
  | .failed op => (m.queueIds op.docId).head? = some op.id
  | _ => True

-- A reconnection does not lose what it takes out of the queue.
def CarefulDrain (m : OfflineManager) (isOk : Bool) (d : Drain) : Prop :=
  match d.inHand with
  | some op => isOk ∧ ∀ task ∈ m.tasks, task.sentId ≠ some op.id
  | none => m.hasSender ∨ m.queueIds d.docId = []

def Careful (m : OfflineManager) : OfflineStep → Prop
  | .run i isOk => ∀ task ∈ m.tasks[i]?, m.CarefulTask isOk task
  | .drain isOk => ∀ d ∈ m.lock, m.CarefulDrain isOk d
  | _ => True

instance (m : OfflineManager) (isOk : Bool) (task : Task) :
    Decidable (m.CarefulTask isOk task) := by
  cases task <;> unfold CarefulTask <;> infer_instance

instance (m : OfflineManager) (isOk : Bool) (d : Drain) : Decidable (m.CarefulDrain isOk d) := by
  unfold CarefulDrain
  cases d.inHand <;> infer_instance

instance (m : OfflineManager) (e : OfflineStep) : Decidable (m.Careful e) := by
  cases e <;> unfold Careful <;> infer_instance

def Settled (config : OfflineConfig) (m : OfflineManager) (id : ℕ) : Prop :=
  id ∈ m.allSent ∨ m.Reported config id

-- The operations of a document leave the queue at its front, and all that are gone are settled. At
-- most the first one that waits may have been sent already.
structure Split (config : OfflineConfig) (m : OfflineManager) (docId : DocumentId) (gone : List ℕ) :
    Prop where
  eq : m.acceptedIds docId = gone ++ m.waiting docId
  settled : ∀ id ∈ gone, m.Settled config id
  sent : (m.sentIds docId).Sublist (gone ++ (m.waiting docId).take 1)

structure Core (config : OfflineConfig) (m : OfflineManager) : Prop where
  queue : ∀ docId, ∀ op ∈ m.queues docId, op.docId = docId ∧ op.attempts = 0
  inHand : ∀ d ∈ m.lock, ∀ op ∈ d.inHand, op.docId = d.docId
  below : ∀ op ∈ m.accepted, op.id < m.nextOpId
  distinct : (m.accepted.map (·.id)).Nodup
  once : m.allSent.Nodup
  split : ∀ docId, ∃ gone, m.Split config docId gone

-- What a call knows about the operation that it has copied from the front of the queue: it is still
-- there or gone, but nothing is in front of it.
structure Knows (m : OfflineManager) (op : PendingOperation) : Prop where
  mem : op.id ∈ m.accepted.map (·.id)
  front : op.id ∉ (m.waiting op.docId).tail

def Fits (config : OfflineConfig) (m : OfflineManager) : Task → Prop
  | .enqueue op => op.id < m.nextOpId ∧ op.id ∉ m.accepted.map (·.id) ∧ op.attempts = 0
  | .sending op => m.Knows op ∧ op.attempts = 1
  | .sent op => m.Knows op ∧ op.id ∈ m.allSent
  | .failed op => m.Knows op ∧ config.maxRetries ≤ m.refused.count op.id
  | _ => True

-- What no step takes back.
structure Keeps (m m' : OfflineManager) : Prop where
  nextOpId : m.nextOpId ≤ m'.nextOpId
  accepted : ∀ id ∈ m.accepted.map (·.id), id ∈ m'.accepted.map (·.id)
  waiting : ∀ docId, ∀ id ∈ (m'.waiting docId).tail, id ∈ m.accepted.map (·.id) →
               id ∈ (m.waiting docId).tail
  sent : ∀ id ∈ m.allSent, id ∈ m'.allSent
  refused : ∀ id, m.refused.count id ≤ m'.refused.count id
  events : ∀ event ∈ m.events, event ∈ m'.events

section

variable (k : m.Keeps m')

include k

theorem Settled.keep (h : m.Settled config id) : m'.Settled config id :=
  h.imp (k.sent id) fun ⟨he, hr⟩ => ⟨k.events _ he, hr.trans (k.refused id)⟩

theorem Knows.keep (h : m.Knows op) : m'.Knows op where
  mem := k.accepted _ h.mem
  front := fun hm => h.front (k.waiting _ _ hm h.mem)

theorem Fits.keep (h : m.Fits config task)
    (hn : ∀ id ∈ task.newId, id ∉ m'.accepted.map (·.id)) : m'.Fits config task := by
  cases task
  case enqueue => exact ⟨h.1.trans_le k.nextOpId, hn _ rfl, h.2.2⟩
  case sending => exact ⟨h.1.keep k, h.2⟩
  case sent => exact ⟨h.1.keep k, k.sent _ h.2⟩
  case failed => exact ⟨h.1.keep k, h.2.trans (k.refused _)⟩
  all_goals trivial

theorem Split.keep (s : m.Split config docId gone)
    (ha : m'.acceptedIds docId = m.acceptedIds docId) (hw : m'.waiting docId = m.waiting docId)
    (hs : m'.sentIds docId = m.sentIds docId) : m'.Split config docId gone where
  eq := by rw [ha, hw, s.eq]
  settled id hd := (s.settled id hd).keep k
  sent := by rw [hs, hw]; exact s.sent

-- The first operation of a document that waits leaves.
theorem Split.leave (s : m.Split config docId gone)
    (ha : m'.acceptedIds docId = m.acceptedIds docId)
    (hw : m.waiting docId = id :: m'.waiting docId)
    (hid : m'.Settled config id) (hs : (m'.sentIds docId).Sublist (gone ++ [id])) :
    m'.Split config docId (gone ++ [id]) where
  eq := by rw [ha, s.eq, hw, append_cons]
  sent := hs.trans (sublist_append_left ..)
  settled := by
    intro id' hd
    obtain hd | hd := mem_append.mp hd
    case inl => exact (s.settled id' hd).keep k
    case inr => exact mem_singleton.mp hd ▸ hid

end

-- A step that moves no operation.
structure Quiet (m m' : OfflineManager) : Prop where
  nextOpId : m.nextOpId ≤ m'.nextOpId
  queues : ∀ docId, ∀ op ∈ m'.queues docId, op ∈ m.queues docId
  waiting : ∀ docId, m'.waiting docId = m.waiting docId
  accepted : m'.accepted = m.accepted
  channel : m'.channel = m.channel
  refused : ∀ id, m.refused.count id ≤ m'.refused.count id
  events : ∀ event ∈ m.events, event ∈ m'.events

theorem Quiet.keeps (q : m.Quiet m') : m.Keeps m' where
  nextOpId := q.nextOpId
  accepted _ h := q.accepted ▸ h
  waiting docId _ h _ := q.waiting docId ▸ h
  sent _ h := by rwa [allSent, q.channel]
  refused := q.refused
  events := q.events

theorem Core.quiet (c : m.Core config) (q : m.Quiet m')
    (hl : ∀ d ∈ m'.lock, ∀ op ∈ d.inHand, op.docId = d.docId) : m'.Core config where
  queue docId op h := c.queue docId op (q.queues docId op h)
  inHand := hl
  below op h := (c.below op (q.accepted ▸ h)).trans_le q.nextOpId
  distinct := q.accepted ▸ c.distinct
  once := by rw [allSent, q.channel]; exact c.once
  split docId := by
    obtain ⟨gone, s⟩ := c.split docId
    refine ⟨gone, s.keep q.keeps ?_ (q.waiting docId) ?_⟩
    · rw [acceptedIds, acceptedIds, q.accepted]
    · rw [sentIds, sentIds, q.channel]

theorem waiting_of_unlocked (h : m.lock = none) : m.waiting docId = m.queueIds docId := by
  rw [waiting, inHand, h]
  rfl

theorem waiting_congr (hl : m'.lock = m.lock) (hq : m'.queues docId = m.queues docId) :
    m'.waiting docId = m.waiting docId := by
  simp only [waiting, inHand, queueIds, hl, hq]

theorem Quiet.of_eq (hl : m'.lock = m.lock) (hq : m'.queues = m.queues)
    (ha : m'.accepted = m.accepted) (hc : m'.channel = m.channel) (hn : m.nextOpId ≤ m'.nextOpId)
    (hr : ∀ id, m.refused.count id ≤ m'.refused.count id)
    (he : ∀ event ∈ m.events, event ∈ m'.events) : m.Quiet m' where
  nextOpId := hn
  queues _ _ h := hq ▸ h
  waiting docId := waiting_congr hl (congrFun hq docId)
  accepted := ha
  channel := hc
  refused := hr
  events := he

theorem Core.mem_acceptedIds (c : m.Core config) (h : id ∈ m.waiting docId) :
    id ∈ m.acceptedIds docId := by
  obtain ⟨gone, s⟩ := c.split docId
  exact s.eq ▸ mem_append_right _ h

theorem Core.accepted_of_sent (c : m.Core config) (h : id ∈ m.allSent) :
    id ∈ m.accepted.map (·.id) := by
  obtain ⟨msg, hmsg, rfl⟩ := mem_map.mp h
  obtain ⟨gone, s⟩ := c.split msg.docId
  have hm : msg.seq ∈ m.sentIds msg.docId :=
    mem_map_of_mem <| mem_filter.mpr ⟨hmsg, decide_eq_true rfl⟩
  refine (filter_sublist.map _).subset (s.eq ▸ ?_ : msg.seq ∈ m.acceptedIds msg.docId)
  exact (Sublist.append_left (take_sublist ..) gone).subset (s.sent.subset hm)

-- An operation waits in one place only.
theorem Core.waiting_once (c : m.Core config) (hw : m.waiting docId = id :: tl) :
    id ∉ tl ∧ ∀ docId' ≠ docId, id ∉ m.waiting docId' := by
  have hid : id ∈ m.acceptedIds docId := c.mem_acceptedIds (hw ▸ mem_cons_self)
  constructor
  · obtain ⟨gone, s⟩ := c.split docId
    have hn : (m.acceptedIds docId).Nodup := c.distinct.sublist (filter_sublist.map _)
    rw [s.eq, hw, nodup_append, nodup_cons] at hn
    exact hn.2.1.1
  · intro docId' hne h
    obtain ⟨op, hop, rfl⟩ := mem_map.mp hid
    obtain ⟨op', hop', he⟩ := mem_map.mp (c.mem_acceptedIds h)
    obtain ⟨hop, hdoc⟩ := mem_filter.mp hop
    obtain ⟨hop', hdoc'⟩ := mem_filter.mp hop'
    obtain rfl := inj_on_of_nodup_map c.distinct hop' hop he
    exact hne ((of_decide_eq_true hdoc').symm.trans (of_decide_eq_true hdoc))

-- The first operation of a document that waits leaves, and nothing else.
structure Leaves (m m' : OfflineManager) (docId : DocumentId) (id : ℕ) : Prop where
  front : m.waiting docId = id :: m'.waiting docId
  other : ∀ docId' ≠ docId, m'.waiting docId' = m.waiting docId'

theorem Leaves.mem_tail (l : m.Leaves m' docId id) (h : id' ∈ (m'.waiting docId').tail) :
    id' ∈ (m.waiting docId').tail := by
  by_cases hd : docId' = docId
  case neg => rwa [l.other docId' hd] at h
  case pos => subst hd; rw [l.front]; exact mem_of_mem_tail h

theorem Leaves.mem_waiting (l : m.Leaves m' docId id) (c : m.Core config)
    (h : id' ∈ m'.waiting docId') : id' ∈ m.waiting docId' ∧ id' ≠ id := by
  obtain ⟨hnot, hother⟩ := c.waiting_once l.front
  by_cases hd : docId' = docId
  case neg =>
    rw [l.other docId' hd] at h
    exact ⟨h, fun he => hother docId' hd (he ▸ h)⟩
  case pos =>
    subst hd
    rw [l.front]
    exact ⟨mem_cons_of_mem _ h, fun he => hnot (he ▸ h)⟩

theorem Core.push (c : m.Core config) (hl : m.lock = none) (hf : m.Fits config (.enqueue op))
    (hl' : m'.lock = none) (hn : m'.nextOpId = m.nextOpId)
    (hq : m'.queues = Function.update m.queues op.docId (m.queues op.docId ++ [op]))
    (ha : m'.accepted = m.accepted ++ [op]) (hc : m'.channel = m.channel)
    (hr : m'.refused = m.refused) (he : ∀ event ∈ m.events, event ∈ m'.events) :
    m'.Core config ∧ m.Keeps m' ∧
      ∀ docId, ∀ id ∈ m'.waiting docId, id ∈ m.waiting docId ∨ id = op.id := by
  obtain ⟨hlt, hnew, hatt⟩ := hf
  have hw : m'.waiting op.docId = m.waiting op.docId ++ [op.id] := by
    rw [waiting_of_unlocked hl, waiting_of_unlocked hl', queueIds, hq]
    simp [queueIds]
  have hw' (docId) (h : docId ≠ op.docId) : m'.waiting docId = m.waiting docId :=
    waiting_congr (hl'.trans hl.symm) (by simp [hq, h])
  have k : m.Keeps m' := by
    refine ⟨hn.ge, fun id h => ?_, fun docId id h hid => ?_, fun id h => ?_, fun id => ?_, he⟩
    · rw [ha, map_append]; exact mem_append_left _ h
    · by_cases hd : docId = op.docId
      case neg => rwa [hw' docId hd] at h
      subst hd
      rw [hw] at h
      cases hm : m.waiting op.docId
      case nil => rw [hm] at h; exact absurd h not_mem_nil
      case cons x tl =>
        rw [hm, cons_append, tail_cons, mem_append, mem_singleton] at h
        exact h.resolve_right fun h => hnew (h ▸ hid)
    · rwa [allSent, hc]
    · rw [hr]
  refine ⟨⟨fun docId op' h => ?_, ?_, fun op' h => ?_, ?_, ?_, fun docId => ?_⟩, k,
    fun docId id h => ?_⟩
  · rw [hq] at h
    by_cases hd : docId = op.docId
    case neg => exact c.queue docId op' (by simpa [hd] using h)
    subst hd
    rw [Function.update_self] at h
    obtain h | h := mem_append.mp h
    case inl => exact c.queue _ op' h
    case inr => cases mem_singleton.mp h; exact ⟨rfl, hatt⟩
  · rw [hl']; simp
  · rw [ha] at h
    obtain h | h := mem_append.mp h
    case inl => exact hn ▸ c.below op' h
    case inr => exact hn ▸ mem_singleton.mp h ▸ hlt
  · rw [ha, map_append]
    refine nodup_append.mpr ⟨c.distinct, nodup_singleton _, fun id h id' h' heq => ?_⟩
    have hid : id' = op.id := mem_singleton.mp h'
    exact hnew (hid ▸ heq ▸ h)
  · rw [allSent, hc]; exact c.once
  · obtain ⟨gone, s⟩ := c.split docId
    have hs : m'.sentIds docId = m.sentIds docId := by rw [sentIds, sentIds, hc]
    by_cases hd : docId = op.docId
    case neg =>
      refine ⟨gone, s.keep k ?_ (hw' docId hd) hs⟩
      simp [acceptedIds, ha, Ne.symm hd]
    subst hd
    refine ⟨gone, ?_, fun id hid => (s.settled id hid).keep k, ?_⟩
    · rw [hw, ← append_assoc, ← s.eq]
      simp [acceptedIds, ha]
    · rw [hs, hw]
      refine s.sent.trans <| Sublist.append_left ?_ gone
      cases m.waiting op.docId <;> simp
  · by_cases hd : docId = op.docId
    case neg => exact .inl (hw' docId hd ▸ h)
    case pos =>
      subst hd
      rwa [hw, mem_append, mem_singleton] at h

theorem sentIds_send : (m.send op).sentIds docId =
    m.sentIds docId ++ if op.docId = docId then [op.id] else [] := by
  by_cases h : op.docId = docId <;> simp [sentIds, send, h]

theorem allSent_send : (m.send op).allSent = m.allSent ++ [op.id] := by
  simp [allSent, send]

theorem keeps_send : m.Keeps (m.send op) where
  nextOpId := le_rfl
  accepted _ h := h
  waiting _ _ h _ := h
  sent _ h := allSent_send ▸ mem_append_left _ h
  refused _ := le_rfl
  events _ h := h

theorem nodup_allSent_send (h : m.allSent.Nodup) (hn : op.id ∉ m.allSent) :
    (m.send op).allSent.Nodup := by
  rw [allSent_send]
  refine nodup_append.mpr ⟨h, nodup_singleton _, fun id hid id' h' heq => ?_⟩
  exact hn (mem_singleton.mp h' ▸ heq ▸ hid)

theorem not_mem_sentIds (h : id ∉ m.allSent) : id ∉ m.sentIds docId := by
  intro hm
  obtain ⟨msg, hmsg, rfl⟩ := mem_map.mp hm
  exact h <| mem_map_of_mem (mem_of_mem_filter hmsg)

-- An operation that is sent while it is the first one that waits comes next in the order.
theorem Split.sent_append (s : m.Split config docId gone) (hw : m.waiting docId = id :: tl)
    (h : id ∉ m.allSent) : (m.sentIds docId ++ [id]).Sublist (gone ++ [id]) := by
  have hs := s.sent
  rw [hw, take_succ_cons] at hs
  refine Sublist.append_right ?_ [id]
  obtain ⟨l₁, l₂, heq, h₁, h₂⟩ := sublist_append_iff.mp hs
  obtain rfl | rfl := sublist_singleton.mp h₂
  case inl => rwa [heq, append_nil]
  case inr =>
    have hn : id ∉ m.sentIds docId := not_mem_sentIds h
    exact absurd (heq ▸ mem_append_right _ mem_cons_self) hn

theorem Core.send (c : m.Core config) (kn : m.Knows op)
    (hf : (m.queueIds op.docId).head? = some op.id) (hs : op.id ∉ m.allSent) :
    (m.send op).Core config := by
  refine ⟨c.queue, c.inHand, c.below, c.distinct, nodup_allSent_send c.once hs, fun docId => ?_⟩
  obtain ⟨gone, s⟩ := c.split docId
  by_cases hd : op.docId = docId
  case neg => exact ⟨gone, s.keep keeps_send rfl rfl (by rw [sentIds_send, if_neg hd, append_nil])⟩
  subst hd
  obtain ⟨tl, htl⟩ := head?_eq_some_iff.mp hf
  -- Nothing is in hand, as it would be in front of the operation.
  have hw : m.waiting op.docId = op.id :: tl := by
    have hfront := kn.front
    rw [waiting, htl] at hfront ⊢
    cases hh : m.inHand op.docId
    case nil => rfl
    case cons => rw [hh] at hfront; simp at hfront
  refine ⟨gone, s.eq, fun id hid => (s.settled id hid).keep keeps_send, ?_⟩
  rw [sentIds_send, if_pos rfl, show (m.send op).waiting op.docId = op.id :: tl from hw]
  exact s.sent_append hw hs

theorem mem_of_mem_setQueue (hq : ∀ op ∈ queue, op ∈ m.queues docId)
    (h : op ∈ (m.setQueue docId queue).queues docId') : op ∈ m.queues docId' := by
  by_cases hd : docId' = docId
  case neg => simpa [setQueue, hd] using h
  case pos =>
    subst hd
    exact hq op (by simpa [setQueue] using h)

theorem leaves_popFront (hl : m.lock = none) (hf : (m.queueIds op.docId).head? = some op.id) :
    m.Leaves ((m.popFront op.docId).emit event) op.docId op.id where
  front := by
    obtain ⟨tl, htl⟩ := head?_eq_some_iff.mp hf
    have hl' : ((m.popFront op.docId).emit event).lock = none := hl
    have hw : ((m.popFront op.docId).emit event).waiting op.docId = tl := by
      refine (waiting_of_unlocked hl').trans ?_
      simpa [queueIds, emit, popFront, setQueue] using congrArg tail htl
    rw [waiting_of_unlocked hl, htl, hw]
  other docId h := waiting_congr rfl (by simp [emit, popFront, setQueue, h])

theorem Core.pop (c : m.Core config) (event : OfflineEvent) (hl : m.lock = none)
    (hf : (m.queueIds op.docId).head? = some op.id)
    (hs : ((m.popFront op.docId).emit event).Settled config op.id) :
    ((m.popFront op.docId).emit event).Core config ∧
      m.Keeps ((m.popFront op.docId).emit event) := by
  have l := @leaves_popFront _ _ event hl hf
  have k : m.Keeps ((m.popFront op.docId).emit event) :=
    ⟨le_rfl, fun _ h => h, fun _ _ h _ => l.mem_tail h, fun _ h => h, fun _ => le_rfl,
      fun _ h => mem_append_left _ h⟩
  refine ⟨⟨fun docId op' h => c.queue docId op' ?_, c.inHand, c.below, c.distinct, c.once,
    fun docId => ?_⟩, k⟩
  · exact mem_of_mem_setQueue (fun _ => mem_of_mem_tail) h
  · obtain ⟨gone, s⟩ := c.split docId
    by_cases hd : docId = op.docId
    case neg => exact ⟨gone, s.keep k rfl (l.other docId hd) rfl⟩
    case pos =>
      subst hd
      refine ⟨gone ++ [op.id], s.leave k rfl l.front hs ?_⟩
      have hsent := s.sent
      rwa [l.front, take_succ_cons, take_zero] at hsent

theorem quiet_take (hl : m.lock = some d) (hd : d.inHand = none)
    (hq : m.queues d.docId = op :: rest) :
    m.Quiet { m.setQueue d.docId rest with lock := some { d with inHand := some op } } := by
  refine ⟨le_rfl, fun docId op' h => ?_, fun docId => ?_, rfl, rfl, fun _ => le_rfl, fun _ h => h⟩
  · exact mem_of_mem_setQueue (fun _ h => hq ▸ mem_cons_of_mem _ h) h
  · by_cases hdoc : docId = d.docId
    case pos => subst hdoc; simp [waiting, inHand, queueIds, setQueue, hl, hd, hq]
    case neg => simp [waiting, inHand, queueIds, setQueue, hl, hdoc, Ne.symm hdoc]

theorem leaves_handOver (hl : m.lock = some d) (hd : d.inHand = some op) :
    m.Leaves { m.send op with lock := some { d with localOpsSynced := n, inHand := none } }
      d.docId op.id where
  front := by simp [waiting, inHand, queueIds, send, hl, hd]
  other docId h := by simp [waiting, inHand, queueIds, send, hl, Ne.symm h]

theorem Core.handOver (c : m.Core config) (hl : m.lock = some d) (hd : d.inHand = some op)
    (hs : op.id ∉ m.allSent) :
    { m.send op with lock := some { d with localOpsSynced := n, inHand := none } }.Core config ∧
    m.Keeps { m.send op with lock := some { d with localOpsSynced := n, inHand := none } } := by
  let m' := { m.send op with lock := some { d with localOpsSynced := n, inHand := none } }
  have hdoc : op.docId = d.docId := c.inHand d hl op hd
  have l : m.Leaves m' d.docId op.id := leaves_handOver hl hd
  have hm : op.id ∈ m'.allSent := allSent_send (m := m) ▸ mem_append_right _ mem_cons_self
  have k : m.Keeps m' := ⟨le_rfl, fun _ h => h, fun _ _ h _ => l.mem_tail h, keeps_send.sent,
    fun _ => le_rfl, fun _ h => h⟩
  refine ⟨⟨c.queue, ?_, c.below, c.distinct, nodup_allSent_send c.once hs, fun docId => ?_⟩, k⟩
  · rintro _ ⟨⟩ _ ⟨⟩
  · obtain ⟨gone, s⟩ := c.split docId
    by_cases hdoc' : docId = d.docId
    case neg =>
      refine ⟨gone, s.keep k rfl (l.other docId hdoc') (sentIds_send.trans ?_)⟩
      rw [if_neg (hdoc ▸ Ne.symm hdoc'), append_nil]
    case pos =>
      subst hdoc'
      have hsent : m'.sentIds d.docId = m.sentIds d.docId ++ [op.id] :=
        sentIds_send.trans (by rw [if_pos hdoc])
      exact ⟨gone ++ [op.id], s.leave k rfl l.front (.inl hm) (hsent ▸ s.sent_append l.front hs)⟩

theorem Fits.quiet (q : m.Quiet m') (h : m.Fits config task) : m'.Fits config task := by
  refine h.keep q.keeps fun id hid => ?_
  rw [q.accepted]
  cases task <;> cases hid
  exact h.2.1

structure Inv (config : OfflineConfig) (m : OfflineManager) : Prop where
  core : m.Core config
  tasks : ∀ task ∈ m.tasks, m.Fits config task
  new : (m.tasks.filterMap (·.newId)).Nodup
  owed : ∀ docId, ∀ id ∈ m.waiting docId, id ∈ m.allSent → ∃ task ∈ m.tasks, task.sentId = some id

-- What one step of a call does to the manager, and where the call is then.
structure Runs (config : OfflineConfig) (m : OfflineManager) (task : Task) (m' : OfflineManager)
    (after : Option Task) : Prop where
  tasks : m'.tasks = m.tasks
  core : m'.Core config
  keeps : m.Keeps m'
  accepted : ∀ id ∈ m'.accepted.map (·.id), id ∈ m.accepted.map (·.id) ∨ task.newId = some id
  next : ∀ task' ∈ after, m'.Fits config task' ∧ task'.newId = none
  owed : ∀ docId, ∀ id ∈ m'.waiting docId, id ∈ m'.allSent →
    id ∈ m.waiting docId ∧ id ∈ m.allSent ∧ task.sentId ≠ some id ∨
      ∃ task' ∈ after, task'.sentId = some id

theorem quiet_emit : m.Quiet (m.emit event) :=
  .of_eq rfl rfl rfl rfl le_rfl (fun _ => le_rfl) fun _ h => mem_append_left _ h

theorem quiet_setState : m.Quiet (m.setState state) := by
  unfold setState
  split
  case isTrue =>
    exact .of_eq rfl rfl rfl rfl le_rfl (fun _ => le_rfl) fun _ h => mem_append_left _ h
  case isFalse => exact .of_eq rfl rfl rfl rfl le_rfl (fun _ => le_rfl) fun _ h => h

theorem lock_setState : (m.setState state).lock = m.lock := by
  unfold setState
  split <;> rfl

theorem tasks_setState : (m.setState state).tasks = m.tasks := by
  unfold setState
  split <;> rfl

theorem Quiet.trans (q : m.Quiet m') (q' : m'.Quiet m'') : m.Quiet m'' where
  nextOpId := q.nextOpId.trans q'.nextOpId
  queues docId op h := q.queues docId op (q'.queues docId op h)
  waiting docId := (q'.waiting docId).trans (q.waiting docId)
  accepted := q'.accepted.trans q.accepted
  channel := q'.channel.trans q.channel
  refused id := (q.refused id).trans (q'.refused id)
  events event h := q'.events event (q.events event h)

theorem Runs.quiet (c : m.Core config) (q : m.Quiet m')
    (ht : m'.tasks = m.tasks) (hl : ∀ d ∈ m'.lock, ∀ op ∈ d.inHand, op.docId = d.docId)
    (hn : ∀ task' ∈ next, m'.Fits config task' ∧ task'.newId = none) (hs : task.sentId = none) :
    m.Runs config task m' next where
  tasks := ht
  core := c.quiet q hl
  keeps := q.keeps
  accepted _ h := .inl (q.accepted ▸ h)
  next := hn
  owed docId id hw ha := by
    rw [q.waiting] at hw
    rw [allSent, q.channel] at ha
    exact .inl ⟨hw, ha, hs ▸ nofun⟩

theorem Core.enqueue (c : m.Core config) (hl : m.lock = none) (hf : m.Fits config (.enqueue op)) :
    m.Runs config (.enqueue op) (m.enqueue config op).1 (m.enqueue config op).2 := by
  unfold OfflineManager.enqueue
  split
  case isTrue =>
    have q : m.Quiet { m with
        rejected := m.rejected ++ [.invalidState "Operation queue is full"] } :=
      .of_eq rfl rfl rfl rfl le_rfl (fun _ => le_rfl) fun _ h => h
    exact .quiet c q rfl c.inHand (by simp) rfl
  let m' := { m.setQueue op.docId (m.queues op.docId ++ [op]) with
    accepted := m.accepted ++ [op] }.emit (.operationQueued op.id)
  have ⟨c', k, hw'⟩ : m'.Core config ∧ m.Keeps m' ∧ _ :=
    c.push hl hf hl rfl rfl rfl rfl rfl fun _ h => mem_append_left _ h
  refine ⟨rfl, c', k, fun id h => ?_, fun task ht => ?_, fun docId id hw hs => ?_⟩
  · have h : id ∈ (m.accepted ++ [op]).map (·.id) := h
    rw [map_append, mem_append] at h
    exact h.imp_right fun h => congrArg some (mem_singleton.mp h).symm
  · cases ht; exact ⟨trivial, rfl⟩
  · refine .inl ⟨(hw' docId id hw).resolve_right ?_, hs, nofun⟩
    exact fun he => hf.2.1 (he ▸ c.accepted_of_sent hs)

theorem Core.knows (c : m.Core config) (hl : m.lock = none)
    (hf : (m.queues docId).head? = some op) : m.Knows op ∧ op.docId = docId ∧ op.attempts = 0 := by
  obtain ⟨tl, hq⟩ := head?_eq_some_iff.mp hf
  have ⟨hdoc, hatt⟩ := c.queue docId op (hq ▸ mem_cons_self)
  have hw : m.waiting docId = op.id :: tl.map (·.id) := by
    rw [waiting_of_unlocked hl, queueIds, hq]
    rfl
  refine ⟨⟨(filter_sublist.map _).subset (c.mem_acceptedIds (hw ▸ mem_cons_self)), ?_⟩, hdoc, hatt⟩
  rw [hdoc, hw]
  exact (c.waiting_once hw).1

theorem Core.trySend (c : m.Core config) (hf : m.Fits config (.sending op))
    (hc : isOk → (m.queueIds op.docId).head? = some op.id ∧ op.id ∉ m.allSent) :
    m.Runs config (.sending op) (m.trySend config op isOk).1 (m.trySend config op isOk).2 := by
  obtain ⟨kn, hatt⟩ := hf
  unfold OfflineManager.trySend
  split
  case isTrue hok =>
    have ⟨hfront, hs⟩ := hc hok
    refine ⟨rfl, c.send kn hfront hs, keeps_send, fun _ => .inl, fun task ht => ?_,
      fun docId id hw ha => ?_⟩
    · cases ht
      exact ⟨⟨kn.keep keeps_send, allSent_send ▸ mem_append_right _ mem_cons_self⟩, rfl⟩
    · rw [allSent_send, mem_append, mem_singleton] at ha
      exact ha.imp (fun ha => ⟨hw, ha, nofun⟩) fun he => ⟨_, rfl, congrArg some he.symm⟩
  have q : m.Quiet (m.refuse op) :=
    .of_eq rfl rfl rfl rfl le_rfl (fun id => Sublist.count_le id (sublist_append_left ..))
      fun _ h => h
  refine .quiet c q rfl c.inHand (fun task ht => ?_) rfl
  split at ht
  case isFalse => cases ht
  case isTrue hr =>
    cases ht
    refine ⟨⟨kn.keep q.keeps, ?_⟩, rfl⟩
    have hcount : 1 ≤ (m.refuse op).refused.count op.id := by simp [refuse]
    exact (hatt ▸ hr).trans hcount

theorem Inv.not_sent (i : m.Inv config) (hw : id ∈ m.waiting docId)
    (ht : ∀ task ∈ m.tasks, task.sentId ≠ some id) : id ∉ m.allSent := fun hs =>
  have ⟨task, hm, he⟩ := i.owed docId id hw hs
  ht task hm he

theorem Inv.runTask (i : m.Inv config) (ht : task ∈ m.tasks) (hc : m.CarefulTask isOk task)
    (h : m.runTask config isOk task = some (m', next)) : m.Runs config task m' next := by
  have hf := i.tasks task ht
  have c := i.core
  have quiet {next : Option Task} (hn : ∀ task' ∈ next, m.Fits config task' ∧ task'.newId = none) :
      task.sentId = none → m.Runs config task m next :=
    .quiet c (.of_eq rfl rfl rfl rfl le_rfl (fun _ => le_rfl) fun _ h => h) rfl c.inHand hn
  have plain {p : Prop} [Decidable p] {t : Task} (hp : m.Fits config t ∧ t.newId = none) :
      ∀ t' ∈ if p then some t else none, m.Fits config t' ∧ t'.newId = none := by
    intro t' ht
    split at ht <;> cases ht
    exact hp
  cases task <;> simp only [runTask, some.injEq, ite_none_left_eq_some,
    Bool.not_eq_true, isSome_eq_false_iff, isNone_iff_eq_none] at h
  case enqueue op =>
    obtain ⟨hl, h⟩ := h
    have hr := c.enqueue hl hf
    rwa [h] at hr
  case queued docId | trySend docId => cases h; exact quiet (plain ⟨trivial, rfl⟩) rfl
  case fetch docId =>
    obtain ⟨hl, h⟩ := h
    cases h
    refine quiet (fun task' ht => ?_) rfl
    obtain ⟨op, hop, rfl⟩ := map_eq_some_iff.mp ht
    obtain ⟨kn, -, hatt⟩ := c.knows hl hop
    exact ⟨⟨⟨kn.mem, kn.front⟩, congrArg (· + 1) hatt⟩, rfl⟩
  case sending op =>
    have hr := c.trySend hf fun hok => ⟨(hc hok).1,
      i.not_sent (mem_append_right _ (mem_of_mem_head? (hc hok).1)) (hc hok).2⟩
    rwa [h] at hr
  case sent op =>
    obtain ⟨hl, h⟩ := h
    cases h
    have ⟨c', k⟩ := c.pop (.operationSent op.id) hl hc (.inl hf.2)
    exact ⟨rfl, c', k, fun _ => .inl, by simp, fun docId id hw hs =>
      have ⟨hw, hne⟩ := (leaves_popFront hl hc).mem_waiting c hw
      .inl ⟨hw, hs, fun he => hne (some.inj he).symm⟩⟩
  case failed op =>
    obtain ⟨hl, h⟩ := h
    cases h
    have ⟨c', k⟩ := c.pop _ hl hc <| .inr ⟨mem_append_right _ mem_cons_self, hf.2⟩
    exact ⟨rfl, c', k, fun _ => .inl, by simp, fun docId id hw hs =>
      .inl ⟨((leaves_popFront hl hc).mem_waiting c hw).1, hs, nofun⟩⟩
  case reconnect docId =>
    cases h
    refine .quiet c (quiet_setState.trans quiet_emit) tasks_setState ?_ ?_ rfl
    · exact lock_setState (m := m) ▸ c.inHand
    · rintro _ ⟨⟩; exact ⟨trivial, rfl⟩
  case drain docId =>
    obtain ⟨hl, h⟩ := h
    cases h
    refine .quiet c ⟨le_rfl, fun _ _ h => h, fun docId' => ?_, rfl, rfl, fun _ => le_rfl,
      fun _ h => h⟩
      rfl ?_ (by simp) rfl
    · simp [waiting, inHand, queueIds, hl]
    · rintro _ ⟨⟩ _ ⟨⟩
  case finish docId n =>
    cases h
    refine .quiet c (quiet_setState.trans quiet_emit) tasks_setState ?_ (by simp) rfl
    exact lock_setState (m := m) ▸ c.inHand

theorem Quiet.tasks {tasks : List Task} : m.Quiet { m with tasks := tasks } :=
  .of_eq rfl rfl rfl rfl le_rfl (fun _ => le_rfl) fun _ h => h

variable (i : m.Inv config)

include i

theorem Inv.run (ht : m.tasks[k]? = some task) (r : m.Runs config task m' next) :
    { m' with tasks := m'.tasks.eraseIdx k ++ next.toList }.Inv config := by
  obtain ⟨hk, rfl⟩ := List.getElem?_eq_some_iff.mp ht
  have hp : (m.tasks[k] :: m.tasks.eraseIdx k).Perm m.tasks := getElem_cons_eraseIdx_perm hk
  have hn := (hp.filterMap (·.newId)).nodup_iff.mpr i.new
  refine ⟨r.core.quiet .tasks r.core.inHand, fun task' h => Fits.quiet .tasks ?_, ?_,
    fun docId id hw hs => ?_⟩
  · rw [r.tasks] at h
    obtain h | h := mem_append.mp h
    case inr => exact (r.next task' (mem_toList.mp h)).1
    case inl =>
      refine (i.tasks task' (mem_of_mem_eraseIdx h)).keep r.keeps fun id hid ha => ?_
      -- A new operation can only be the one of the call itself, which is not in the list any more.
      obtain ha | ha := r.accepted id ha
      case inl =>
        have hf := i.tasks task' (mem_of_mem_eraseIdx h)
        cases task' <;> cases hid
        exact hf.2.1 ha
      case inr =>
        rw [filterMap_cons_some ha, nodup_cons] at hn
        exact hn.1 <| mem_filterMap.mpr ⟨task', h, hid⟩
  · have hnext : next.toList.filterMap (·.newId) = [] := by
      refine filterMap_eq_nil_iff.mpr fun task' h => ?_
      exact (r.next task' (mem_toList.mp h)).2
    rw [filterMap_append, hnext, append_nil, r.tasks]
    exact i.new.sublist ((eraseIdx_sublist ..).filterMap _)
  · obtain ⟨hw, hs, hne⟩ | ⟨task', h, hid⟩ := r.owed docId id hw hs
    case inr => exact ⟨task', mem_append_right _ (mem_toList.mpr h), hid⟩
    case inl =>
      obtain ⟨task', h, hid⟩ := i.owed docId id hw hs
      obtain rfl | h := mem_cons.mp (hp.mem_iff.mpr h)
      · exact absurd hid hne
      · exact ⟨task', mem_append_left _ (r.tasks ▸ h), hid⟩

theorem Inv.spawn (hf : m.Fits config task)
    (hn : ∀ id ∈ task.newId, id ∉ m.tasks.filterMap (·.newId)) : (m.spawn task).Inv config := by
  refine ⟨i.core.quiet .tasks i.core.inHand, fun task' h => Fits.quiet .tasks ?_, ?_,
    fun docId id hw hs => ?_⟩
  · obtain h | h := mem_append.mp h
    case inl => exact i.tasks task' h
    case inr => exact mem_singleton.mp h ▸ hf
  · rw [OfflineManager.spawn, filterMap_append]
    cases hid : task.newId
    case none => simpa [hid] using i.new
    case some id =>
      rw [filterMap_cons_some hid]
      refine nodup_append.mpr ⟨i.new, nodup_singleton _, fun a ha b hb hab => ?_⟩
      exact hn id hid <| mem_singleton.mp hb ▸ hab ▸ ha
  · obtain ⟨task', h, hid⟩ := i.owed docId id hw hs
    exact ⟨task', mem_append_left _ h, hid⟩

theorem Inv.quiet (q : m.Quiet m') (ht : m'.tasks = m.tasks)
    (hl : ∀ d ∈ m'.lock, ∀ op ∈ d.inHand, op.docId = d.docId) : m'.Inv config where
  core := i.core.quiet q hl
  tasks task h := (i.tasks task (ht ▸ h)).quiet q
  new := ht ▸ i.new
  owed docId id hw hs := by
    rw [q.waiting] at hw
    rw [allSent, q.channel] at hs
    exact ht ▸ i.owed docId id hw hs

theorem Inv.runDrain (hl : m.lock = some d)
    (hc : m.CarefulDrain isOk d) : (m.runDrain isOk d).Inv config := by
  unfold OfflineManager.runDrain CarefulDrain at *
  split
  case h_1 op hd =>
    rw [hd] at hc
    have l := leaves_handOver (n := d.localOpsSynced + 1) hl hd
    have hs := i.not_sent (l.front ▸ mem_cons_self) hc.2
    have ⟨c, k⟩ := i.core.handOver (n := d.localOpsSynced + 1) hl hd hs
    rw [if_pos hc.1]
    refine ⟨c, fun task h => (i.tasks task h).keep k fun id hid => ?_, i.new,
      fun docId id h hs => ?_⟩
    · have hf := i.tasks task h
      cases task <;> cases hid
      exact hf.2.1
    · obtain ⟨hw, hne⟩ := l.mem_waiting i.core h
      have hs : id ∈ (m.send op).allSent := hs
      rw [allSent_send, mem_append, mem_singleton] at hs
      exact i.owed docId id hw (hs.resolve_right hne)
  case h_2 hd =>
    rw [hd] at hc
    split
    case h_1 hq =>
      have q : m.Quiet { m with lock := none } := by
        refine ⟨le_rfl, fun _ _ h => h, fun docId => ?_, rfl, rfl, fun _ => le_rfl, fun _ h => h⟩
        simp [waiting, inHand, queueIds, hl, hd]
      exact (i.quiet q rfl (by simp)).spawn trivial (by simp [Task.newId])
    case h_2 op rest hq =>
      have hsender : m.hasSender := hc.resolve_right (by simp [queueIds, hq])
      rw [if_pos hsender]
      refine i.quiet (quiet_take hl hd hq) rfl ?_
      rintro _ ⟨⟩ _ ⟨⟩
      exact (i.core.queue d.docId op (hq ▸ mem_cons_self)).1

theorem Inv.step (hc : m.Careful e) (h : m.step config e = some m') : m'.Inv config := by
  cases e <;> simp only [OfflineManager.step, some.injEq, bind_eq_bind,
    bind_eq_some_iff, map_eq_some_iff] at h
  case queueOperation docId operations vectorClock =>
    subst h
    have q : m.Quiet { m with nextOpId := m.nextOpId + 1 } :=
      .of_eq rfl rfl rfl rfl (Nat.le_succ _) (fun _ => le_rfl) fun _ h => h
    refine (i.quiet q rfl i.core.inHand).spawn ⟨Nat.lt_succ_self _, fun hm => ?_, rfl⟩ ?_
    · obtain ⟨op, hop, hid⟩ := mem_map.mp hm
      exact Nat.lt_irrefl _ <| hid ▸ i.core.below op hop
    · rintro _ ⟨⟩ hm
      obtain ⟨task, ht, hid⟩ := mem_filterMap.mp hm
      have hf := i.tasks task ht
      cases task <;> simp only [Task.newId, some.injEq, reduceCtorEq] at hid
      exact Nat.lt_irrefl _ (hid ▸ hf.1)
  case trySendPending | handleReconnection => subst h; exact i.spawn trivial (by simp [Task.newId])
  case setState =>
    subst h
    exact i.quiet quiet_setState tasks_setState (lock_setState (m := m) ▸ i.core.inHand)
  case run k isOk =>
    obtain ⟨task, ht, r, hr, rfl⟩ := h
    exact i.run ht <| i.runTask (mem_of_getElem? ht) (hc task ht) hr
  case drain isOk =>
    obtain ⟨d, hd, rfl⟩ := h
    exact i.runDrain hd (hc d hd)

theorem Inv.exactlyOnce : m.ExactlyOnce config where
  distinct := i.core.distinct
  once := i.core.once
  ordered docId := by
    obtain ⟨gone, s⟩ := i.core.split docId
    exact s.eq ▸ s.sent.trans ((take_sublist ..).append_left gone)
  accounted op hop := by
    obtain ⟨gone, s⟩ := i.core.split op.docId
    have hmem : op.id ∈ m.acceptedIds op.docId :=
      mem_map_of_mem <| mem_filter.mpr ⟨hop, decide_eq_true rfl⟩
    rw [s.eq, waiting, mem_append, mem_append] at hmem
    obtain hg | hh | hq := hmem
    case inr.inl => exact .inr (.inl hh)
    case inr.inr => exact .inl hq
    case inl =>
      obtain hs | hr := s.settled op.id hg
      case inl => exact .inr <| .inr <| .inl <| count_eq_one_of_mem i.core.once hs
      case inr => exact .inr <| .inr <| .inr hr

end OfflineManager

-- Whatever the interleaving of the calls is, no operation is lost or sent twice as long as every
-- step is careful.
theorem offline_exactly_once {config : OfflineConfig} {clientId : ClientId} {hasSender : Bool}
    {m : OfflineManager} (h : Reaches (step config) Careful
      { clientId, hasSender } m) : m.ExactlyOnce config := by
  have i : m.Inv config := h.invariant ⟨⟨by simp, by simp, by simp, nodup_nil, nodup_nil,
    fun _ => ⟨[], rfl, by simp, nil_sublist _⟩⟩, by simp, nodup_nil, nofun⟩ fun i hc => i.step hc
  exact i.exactlyOnce

-- Two calls for one document copy the same operation, and one reconnection has no channel.
def overlappingSends : List OfflineStep :=
  [.setState .online, .queueOperation 0 [] {}, .queueOperation 0 [] {}] ++
    replicate 12 (.run 0 true)

def reconnection : List OfflineStep :=
  [.queueOperation 0 [] {}, .run 0 true, .run 0 true, .handleReconnection 0, .run 0 true,
    .run 0 true, .drain true, .drain true]

theorem overlapping_sends_lose_operation :
    (∃ m, Reaches (step {}) anyEvent { clientId := 0, hasSender := true } m ∧
      m.accepted.map (·.id) = [1, 2] ∧ m.queueIds 0 = [] ∧ m.inHand 0 = [] ∧ m.allSent = [1, 1] ∧
      m.refused = []) ∧
    ∃ m, Reaches (step {}) anyEvent { clientId := 0 } m ∧
      m.accepted.map (·.id) = [1] ∧ m.queueIds 0 = [] ∧ m.inHand 0 = [] ∧ m.allSent = [] ∧
      m.refused = [] :=
  ⟨Reaches.exists_of_run overlappingSends (by decide +kernel),
    Reaches.exists_of_run reconnection (by decide +kernel)⟩

-- One operation is sent, one is reported after a failed attempt and one is sent on reconnection.
theorem offline_exactly_once_three : ∃ m, Reaches (step { maxRetries := 1 }) Careful
        { clientId := 0, hasSender := true } m ∧
      m.accepted.map (·.id) = [1, 2, 3] ∧ m.allSent = [1, 3] ∧
      m.ExactlyOnce { maxRetries := 1 } := by
  have ⟨m, r, ha, hs⟩ : ∃ m, Reaches (step { maxRetries := 1 }) Careful
      { clientId := 0, hasSender := true } m ∧
      m.accepted.map (·.id) = [1, 2, 3] ∧ m.allSent = [1, 3] :=
    Reaches.exists_of_run ([.setState .online, .queueOperation 0 [] {}] ++
      replicate 6 (.run 0 true) ++ [.queueOperation 0 [] {}] ++ replicate 6 (.run 0 false) ++
      [.setState .offline, .queueOperation 0 [] {}, .run 0 true, .run 0 true, .handleReconnection 0,
        .run 0 true, .run 0 true, .drain true, .drain true]) (by decide +kernel)
  exact ⟨m, r, ha, hs, offline_exactly_once r⟩

end Crdt
