import AppliedCs.Lib.Transition
import AppliedCs.LogSystem.Group

namespace LogSystem

open Transition ConsumerGroup List Option

namespace GroupCoordinatorService

variable {service : GroupCoordinatorService}

@[simp] theorem getGroup_putGroup_self (id) :
    (service.putGroup id group).getGroup id = some group :=
  AList.lookup_insert _

theorem getGroup_putGroup_of_ne {id : String} (h : id' ≠ id) :
    (service.putGroup id group).getGroup id' = service.getGroup id' :=
  AList.lookup_insert_ne h

end GroupCoordinatorService

-- What the coordinator says about a group: its state, and who leads it in which generation.
structure Standing where
  state : GroupState
  leader : Option String
  generationId : UInt32

namespace ConsumerGroup

variable {group : ConsumerGroup}

def standing (group : ConsumerGroup) : Standing where
  state := group.state
  leader := group.leader
  generationId := group.generationId

@[simp] theorem setState_standing (state) :
    (group.setState now state).standing = { group.standing with state } := by
  unfold setState
  split
  case isTrue => rfl
  case isFalse h =>
    have h := not_not.mp h
    rw [standing, h]

@[simp] theorem modifyMember_standing (memberId f) :
    (group.modifyMember memberId f).standing = group.standing := by
  unfold modifyMember
  split <;> rfl

theorem removeMember_standing (h : group.removeMember memberId = some group') :
    group'.standing = group.standing := by
  unfold removeMember at h
  split at h
  · cases h; rfl
  · cases h

theorem removeMember_isMember (h : group.removeMember memberId = some group') :
    (group.getMember memberId).isSome := by
  unfold removeMember at h
  split at h
  case h_1 hm => rw [hm]; rfl
  case h_2 => cases h

@[simp] theorem standing_state : group.standing.state = group.state :=
  rfl

end ConsumerGroup

namespace GroupCoordinatorService

variable {service : GroupCoordinatorService} {group : ConsumerGroup}

def standing (service : GroupCoordinatorService) (id : String) : Option Standing :=
  (service.getGroup id).map (·.standing)

theorem standing_putGroup (id id') : (service.putGroup id group).standing id' =
      if id' = id then some group.standing else service.standing id' := by
  unfold standing
  split
  case isTrue h => rw [h, getGroup_putGroup_self]; rfl
  case isFalse h => rw [getGroup_putGroup_of_ne h]

theorem completeJoin_state (memberId) :
    (completeJoin now group memberId).2.state = .completingRebalance := by
  simp only [completeJoin, ← standing_state, setState_standing]

theorem storeAssignments_standing (assignments) :
    (storeAssignments assignments group).standing = group.standing := by
  unfold storeAssignments
  induction assignments generalizing group
  case nil => rfl
  case cons a as hi => rw [foldl_cons, hi, modifyMember_standing]

-- What a handler does to the standing of a group: it keeps it, or it takes it out of the stable
-- state for some reason, or it settles a rebalance.
inductive Moves (reason : Prop) (settles : Standing → Prop) :
    Option Standing → Option Standing → Prop
  | kept {s} : Moves reason settles s s
  | unsettled {before after} :
    (∀ s ∈ after, s.state ≠ .stable) → ((∃ s ∈ before, s.state = .stable) → reason) →
    Moves reason settles before after
  | settled {s} :
    settles s → s.state = .completingRebalance →
    Moves reason settles (some s) (some { s with state := .stable })

variable {id : String}

theorem Moves.imp {after} (m : Moves reason settles before after) (hr : reason → reason')
    (hs : ∀ s, settles s → settles' s) : Moves reason' settles' before after := by
  cases m
  case kept => exact .kept
  case unsettled hd hu => exact .unsettled hu (hr <| hd ·)
  case settled h hc => exact .settled (hs _ h) hc

-- Who is stable was so before, or has just settled a rebalance.
theorem Moves.stable {after} (m : Moves reason settles before after) (hs : s ∈ after)
    (h : s.state = .stable) : s ∈ before ∨ ∃ s₀, settles s₀ ∧ s = { s₀ with state := .stable } := by
  cases m
  case kept => exact .inl hs
  case unsettled _ hu => exact absurd h (hu s hs)
  case settled s₀ h _ => exact .inr ⟨s₀, h, (some.inj hs).symm⟩

theorem Moves.disturbed {after} (m : Moves reason settles before after) (hs : s ∈ before)
    (h : s.state = .stable) (ha : ∀ s' ∈ after, s'.state ≠ .stable) : reason := by
  cases m
  case kept => exact absurd h (ha s hs)
  case unsettled hd _ => exact hd ⟨s, hs, h⟩
  case settled => exact absurd rfl (ha _ rfl)

theorem Moves.putGroup
    (h : id' = id → Moves reason settles (service.standing id) (some group.standing)) :
    Moves reason settles (service.standing id') ((service.putGroup id group).standing id') := by
  rw [standing_putGroup]
  split
  case isTrue he => exact he ▸ h he
  case isFalse => exact .kept

theorem Moves.setState {state : GroupState} (h : state ≠ .stable)
    (hr : (∃ s ∈ before, s.state = .stable) → reason) :
    Moves reason settles before (some (group.setState now state).standing) := by
  refine .unsettled (fun s hs => ?_) hr
  cases hs
  rwa [setState_standing]

-- A join is answered without an error, and its member is in the group it asked for.
def Joined (request : JoinGroupRequest) (id : String)
    (result : JoinGroupResponse × GroupCoordinatorService) : Prop :=
  request.groupId = id ∧ result.1.errorCode = 0 ∧
  ∃ group ∈ result.2.getGroup id, (group.getMember result.1.memberId).isSome

-- A request that is accepted while the group waits for the assignments of its leader.
def Completes (request : SyncGroupRequest) (group : ConsumerGroup) : Prop :=
  (group.getMember request.memberId).isSome ∧
  request.generationId = group.generationId.toInt32 ∧ group.state = .completingRebalance

instance (request : SyncGroupRequest) (group : ConsumerGroup) :
    Decidable (Completes request group) :=
  inferInstanceAs <| Decidable (_ ∧ _)

theorem joiningMember_standing (h : s ∈ service.standing request.groupId) :
    (service.joiningMember now request).2.standing = s := by
  have ⟨group, hg, hs⟩ := map_eq_some_iff.mp h
  rw [joiningMember, getOrCreateGroup, hg]
  split <;> exact hs

theorem shouldCompleteJoin_of_member (h : (group.getMember memberId).isSome) :
    shouldCompleteJoin group := by
  have hm : memberId ∈ group.members.keys := AList.lookup_isSome.mp h
  have hl := length_pos_of_mem hm
  rw [AList.keys, keys, length_map] at hl
  exact decide_eq_true hl

-- The first answer to an accepted join already completes the rebalance.
theorem acceptMember_spec (now : Moment) (service : GroupCoordinatorService)
    (request : JoinGroupRequest) (memberId) (delay) (hm : (group.getMember memberId).isSome) :
    ∃ group', (service.acceptMember now request memberId delay group).2 =
        (service.delayJoin now request.groupId memberId delay).putGroup request.groupId group' ∧
      (service.acceptMember now request memberId delay group).1.errorCode = 0 ∧
      (service.acceptMember now request memberId delay group).1.memberId = memberId ∧
      group'.state = .completingRebalance ∧ group'.members = group.members := by
  refine ⟨(completeJoin now group memberId).2, ?_⟩
  simp only [acceptMember, if_pos (shouldCompleteJoin_of_member hm)]
  refine ⟨trivial, rfl, rfl, completeJoin_state memberId, ?_⟩
  simp only [completeJoin, setState]
  split <;> rfl

theorem acceptMember_moves (hm : (group.getMember memberId).isSome) :
    Moves (Joined request id (service.acceptMember now request memberId delay group)) settles
      (service.standing id)
        ((service.acceptMember now request memberId delay group).2.standing id) := by
  have ⟨group', hs, he, hi, hc, hms⟩ := acceptMember_spec now service request memberId delay hm
  rw [hs, standing_putGroup]
  split
  case isFalse => exact .kept
  case isTrue h =>
    subst h
    refine .unsettled (fun s h => ?_) fun _ => ⟨rfl, he, group', ?_, ?_⟩
    · cases h
      exact fun hst => nomatch hc.symm.trans hst
    · rw [hs]
      exact getGroup_putGroup_self _
    · rwa [hi, getMember, hms]

theorem getMember_newMember :
    ((group.addMember (newMember now request memberId)).getMember memberId).isSome := by
  rw [getMember, addMember, newMember, AList.lookup_insert]
  rfl

@[simp] theorem getMember_setState {state} :
    (group.setState now state).getMember memberId = group.getMember memberId := by
  unfold setState
  split <;> rfl

-- A join that is refused leaves the group as it stands.
theorem putGroup_moves {groupId : String}
    (h : group.state ≠ .stable) (hs : ∀ s ∈ service.standing groupId, group.standing = s) :
    Moves reason settles (service.standing id) ((service.putGroup groupId group).standing id) := by
  rw [standing_putGroup]
  split
  case isFalse => exact .kept
  case isTrue he =>
    refine .unsettled (fun s hm => ?_) fun ⟨s, hm, hst⟩ => ?_
    · cases hm
      exact h
    · cases hs s (he ▸ hm)
      exact absurd hst h

theorem handleJoinGroup_moves (request : JoinGroupRequest) (id) :
    Moves (Joined request id (service.handleJoinGroup now request)) settles
      (service.standing id) ((service.handleJoinGroup now request).2.standing id) := by
  unfold handleJoinGroup
  split
  case isTrue => exact .kept
  have hst : ∀ s ∈ service.standing request.groupId,
      (service.joiningMember now request).2.standing = s := fun _ => joiningMember_standing
  dsimp only
  split
  case h_1 | h_2 =>
    refine acceptMember_moves ?_
    rw [getMember_setState]
    exact getMember_newMember
  case h_3 => exact acceptMember_moves getMember_newMember
  case h_4 h | h_5 h => exact putGroup_moves (h ▸ nofun) hst

theorem handleSyncGroup_moves (request : SyncGroupRequest) (id) : Moves reason
      (fun s => request.groupId = id ∧ (service.handleSyncGroup now request).1.errorCode = 0 ∧
        ∃ group ∈ service.getGroup id, Completes request group ∧ group.standing = s)
      (service.standing id) ((service.handleSyncGroup now request).2.standing id) := by
  unfold handleSyncGroup
  split
  · exact .kept
  case h_2 group hg =>
    split
    case isTrue => exact .kept
    case isFalse hm =>
    split
    case isTrue => exact .kept
    case isFalse hgen =>
    split
    case h_2 | h_3 => exact .kept
    case h_1 hc =>
      have hs : service.standing request.groupId = some group.standing := by
        rw [standing, hg]
        rfl
      have hl : (if group.leader = some request.memberId then
          storeAssignments request.assignments group else group).standing = group.standing := by
        split
        case isTrue => exact storeAssignments_standing _
        case isFalse => rfl
      generalize (if group.leader = some request.memberId then
        storeAssignments request.assignments group else group) = group' at hl ⊢
      refine .putGroup fun he => ?_
      rw [hs]
      split
      case isFalse => exact hl ▸ .kept
      case isTrue =>
        rw [setState_standing, hl]
        have hm := isSome_iff_ne_none.mpr fun h => hm (isNone_iff_eq_none.mpr h)
        exact .settled ⟨he.symm, rfl, group, he ▸ hg, ⟨hm, not_not.mp hgen, hc⟩, rfl⟩ hc

theorem handleHeartbeat_standing (request : HeartbeatRequest) (id) :
    (service.handleHeartbeat now request).2.standing id = service.standing id := by
  unfold handleHeartbeat
  split
  · rfl
  case h_2 group hg =>
    split
    case isTrue => rfl
    case isFalse =>
    split
    case isTrue => rfl
    case isFalse =>
      rw [standing_putGroup, modifyMember_standing]
      split
      case isFalse => rfl
      case isTrue he => rw [he, standing, hg]; rfl

theorem handleLeaveGroup_moves (request : LeaveGroupRequest) (id) : Moves (request.groupId = id ∧
        ∃ group ∈ service.getGroup id, (group.getMember request.memberId).isSome)
      settles (service.standing id) ((service.handleLeaveGroup now request).2.standing id) := by
  unfold handleLeaveGroup
  split
  · exact .kept
  case h_2 group hg =>
    split
    · exact .kept
    case h_2 group' hr =>
      refine .putGroup fun he => ?_
      have hs : service.standing request.groupId = some group'.standing := by
        rw [standing, hg, removeMember_standing hr]
        rfl
      have hl : request.groupId = id ∧
          ∃ group ∈ service.getGroup id, (group.getMember request.memberId).isSome :=
        ⟨he.symm, group, he ▸ hg, removeMember_isMember hr⟩
      rw [hs]
      split
      case isTrue => exact .setState (by decide) fun _ => hl
      case isFalse =>
      split
      case isTrue => exact .setState (by decide) fun _ => hl
      case isFalse => exact .kept

theorem removeMembers_standing (memberIds) :
    (removeMembers memberIds group).standing = group.standing := by
  unfold removeMembers
  induction memberIds generalizing group
  case nil => rfl
  case cons m ms hi =>
    rw [foldl_cons, hi]
    cases hr : group.removeMember m
    case none => rfl
    case some _ => exact removeMember_standing hr

theorem checkExpired_moves (h : group.state = .stable → reason) :
    Moves reason settles (some group.standing)
      (some (checkExpired now timeout group).standing) := by
  have hd : (∃ s ∈ some group.standing, s.state = .stable) → reason := by
    rintro ⟨_, hs, hst⟩
    cases hs
    exact h hst
  unfold checkExpired
  dsimp only
  split
  case isTrue => exact .setState (by decide) hd
  case isFalse =>
  split
  case isTrue => exact .setState (by decide) hd
  case isFalse => rw [removeMembers_standing]; exact .kept

theorem checkGroup_getGroup (timeout acc groupId id) :
    (checkGroup now timeout acc groupId).2.getGroup id =
      if id = groupId then (acc.2.getGroup id).map (checkExpired now timeout)
      else acc.2.getGroup id := by
  unfold checkGroup
  split
  case h_1 hg =>
    split
    case isTrue h => rw [h, hg]; rfl
    case isFalse => rfl
  case h_2 group hg =>
    split
    case isTrue h => rw [h, hg, getGroup_putGroup_self]; rfl
    case isFalse h => exact getGroup_putGroup_of_ne h

theorem foldl_checkGroup_getGroup {keys : List String} (hk : keys.Nodup) (id) :
    (keys.foldl (checkGroup now timeout) acc).2.getGroup id =
      if id ∈ keys then (acc.2.getGroup id).map (checkExpired now timeout)
      else acc.2.getGroup id := by
  induction keys generalizing acc
  case nil => rfl
  case cons key keys hi =>
    have ⟨hn, hk⟩ := nodup_cons.mp hk
    rw [foldl_cons, hi hk, checkGroup_getGroup]
    by_cases h : id = key
    case pos => simp [h, hn]
    case neg => simp [h]

theorem checkExpiredMembers_getGroup (id) : (service.checkExpiredMembers now).2.getGroup id =
      (service.getGroup id).map (checkExpired now service.config.sessionTimeoutMs.toNat) := by
  have hp := now.isListed service.groups.keys
  unfold checkExpiredMembers
  rw [foldl_checkGroup_getGroup <| hp.nodup_iff.mpr service.groups.nodupKeys]
  split
  case isTrue => rfl
  case isFalse h =>
    have hn : service.getGroup id = none := by
      rw [getGroup, AList.lookup_eq_none]
      exact fun hm => h (hp.mem_iff.mpr hm)
    rw [hn]
    rfl

def HasExpired (now : Moment) (service : GroupCoordinatorService) (group : ConsumerGroup) : Prop :=
  expiredMembers now service.config.sessionTimeoutMs.toNat group ≠ []

instance (now : Moment) (service : GroupCoordinatorService) (group : ConsumerGroup) :
    Decidable (HasExpired now service group) :=
  inferInstanceAs <| Decidable (_ ≠ _)

theorem checkExpiredMembers_moves
    (h : ∀ group ∈ service.getGroup id, group.state = .stable → HasExpired now service group) :
    Moves (∃ group ∈ service.getGroup id, HasExpired now service group) settles
      (service.standing id) ((service.checkExpiredMembers now).2.standing id) := by
  rw [standing, standing, checkExpiredMembers_getGroup]
  cases hg : service.getGroup id
  case none => exact .kept
  case some group =>
    exact checkExpired_moves fun hs => ⟨group, rfl, h group hg hs⟩

end GroupCoordinatorService

-- The coordinator together with the SyncGroup requests it has accepted so far.
structure Coordinator where
  service : GroupCoordinatorService
  accepted : List SyncGroupRequest

namespace Coordinator

open GroupCoordinatorService

def start (config : GroupCoordinatorConfig) : Coordinator where
  service := { config }
  accepted := []

inductive Event
  | join (now : Moment) (request : JoinGroupRequest)
  | sync (now : Moment) (request : SyncGroupRequest)
  | heartbeat (now : Moment) (request : HeartbeatRequest)
  | leave (now : Moment) (request : LeaveGroupRequest)
  | checkExpiredMembers (now : Moment)

-- A request is accepted if it is answered without an error.
def record (c : Coordinator) (request : SyncGroupRequest) (response : SyncGroupResponse) :
    List SyncGroupRequest :=
  if response.errorCode = 0 then request :: c.accepted else c.accepted

def step (c : Coordinator) : Event → Option Coordinator
  | .join now request =>
    some { c with service := (c.service.handleJoinGroup now request).2 }
  | .sync now request =>
    some {
      service := (c.service.handleSyncGroup now request).2
      accepted := c.record request (c.service.handleSyncGroup now request).1
    }
  | .heartbeat now request =>
    some { c with service := (c.service.handleHeartbeat now request).2 }
  | .leave now request =>
    some { c with service := (c.service.handleLeaveGroup now request).2 }
  | .checkExpiredMembers now =>
    some { c with service := (c.service.checkExpiredMembers now).2 }

-- The assignments are taken from the leader, and nobody looks for expired members in vain.
def Careful (c : Coordinator) : Event → Prop
  | .sync _ request =>
    ∀ group ∈ c.service.getGroup request.groupId, Completes request group →
      group.leader = some request.memberId
  | .checkExpiredMembers now =>
    ∀ g ∈ c.service.groups.entries, g.snd.state = .stable → HasExpired now c.service g.snd
  | _ => True

instance : ∀ (c : Coordinator) (e : Event), Decidable (c.Careful e)
  | _, .sync .. | _, .checkExpiredMembers .. => inferInstanceAs <| Decidable (∀ _ ∈ _, _)
  | _, .join .. | _, .heartbeat .. | _, .leave .. => .isTrue trivial

-- Why a group may leave the stable state: a member joins it, leaves it or has expired.
def Disturbed (c : Coordinator) (id : String) : Event → Prop
  | .join now request => Joined request id (c.service.handleJoinGroup now request)
  | .leave _ request =>
    request.groupId = id ∧
      ∃ group ∈ c.service.getGroup id, (group.getMember request.memberId).isSome
  | .checkExpiredMembers now =>
    ∃ group ∈ c.service.getGroup id, HasExpired now c.service group
  | .sync .. | .heartbeat .. => False

instance : ∀ (c : Coordinator) (id : String) (e : Event), Decidable (c.Disturbed id e)
  | _, _, .join .. => inferInstanceAs <| Decidable (_ ∧ _ ∧ ∃ _ ∈ _, _)
  | _, _, .leave .. => inferInstanceAs <| Decidable (_ ∧ ∃ _ ∈ _, _)
  | _, _, .checkExpiredMembers .. => inferInstanceAs <| Decidable (∃ _ ∈ _, _)
  | _, _, .sync .. => .isFalse not_false
  | _, _, .heartbeat .. => .isFalse not_false

-- The leader of the current generation has sent its assignments.
def Assigned (c : Coordinator) (id : String) (s : Standing) : Prop :=
  ∃ request ∈ c.accepted, request.groupId = id ∧ s.leader = some request.memberId ∧
    request.generationId = s.generationId.toInt32

instance (c : Coordinator) (id : String) (s : Standing) : Decidable (c.Assigned id s) :=
  inferInstanceAs <| Decidable (∃ _ ∈ _, _)

variable {config : GroupCoordinatorConfig} {c c' : Coordinator}

theorem step_accepted (hs : step c e = some c') : c.accepted ⊆ c'.accepted := by
  cases e
  case sync =>
    obtain rfl := some.inj hs
    unfold record
    split
    case isTrue => exact subset_cons_self ..
    case isFalse => exact List.Subset.refl _
  all_goals
    obtain rfl := some.inj hs
    exact List.Subset.refl _

theorem step_moves (hc : Careful c e) (hs : step c e = some c') (id) :
    Moves (Disturbed c id e) (Assigned c' id)
      (c.service.standing id) (c'.service.standing id) := by
  cases e <;> obtain rfl := some.inj hs
  case join => exact handleJoinGroup_moves ..
  case heartbeat => exact handleHeartbeat_standing .. ▸ .kept
  case leave => exact handleLeaveGroup_moves ..
  case checkExpiredMembers =>
    exact checkExpiredMembers_moves fun _ hg => hc _ (AList.mem_lookup_iff.mp hg)
  case sync now request =>
    refine (handleSyncGroup_moves request id).imp False.elim fun s h => ?_
    obtain ⟨rfl, he, group, hg, hr, rfl⟩ := h
    refine ⟨request, ?_, rfl, hc group hg hr, hr.2.1⟩
    rw [record, if_pos he]
    exact mem_cons_self

-- As long as a group is stable, its leader's assignments are among the accepted ones.
def StableAssigned (c : Coordinator) : Prop :=
  ∀ id, ∀ s ∈ c.service.standing id, s.state = .stable → c.Assigned id s

theorem step_stableAssigned (ha : StableAssigned c) (hc : Careful c e) (hs : step c e = some c') :
    StableAssigned c' := by
  intro id s hm hst
  rcases (step_moves hc hs id).stable hm hst with hb | ⟨s₀, h₀, rfl⟩
  case inl =>
    have ⟨request, hr, h⟩ := ha id s hb hst
    exact ⟨request, step_accepted hs hr, h⟩
  case inr => exact h₀

-- A group becomes stable only after its leader has sent the assignments of the current generation,
-- and it stays stable until a member joins, leaves or expires.
theorem stable_means_assigned (r : Reaches step Careful (start config) c) (hc : Careful c e)
    (hs : step c e = some c') (id : String) :
    (∀ s' ∈ c'.service.standing id, s'.state = .stable → c'.Assigned id s') ∧
    (∀ s ∈ c.service.standing id, s.state = .stable →
      (∀ s' ∈ c'.service.standing id, s'.state ≠ .stable) → c.Disturbed id e) := by
  have ha : StableAssigned c := r.invariant nofun step_stableAssigned
  exact ⟨step_stableAssigned ha hc hs id, fun s => (step_moves hc hs id).disturbed⟩

def sampleMoment : Moment where
  instant := 0
  listed := id
  isListed := .refl

def joinOf (memberId : String) : Event :=
  .join sampleMoment
    { groupId := "orders", sessionTimeoutMs := 10000, rebalanceTimeoutMs := 60000, memberId,
      protocolType := "consumer", protocols := [⟨"range", []⟩] }

def syncOf (generationId : Int32) (memberId : String) : Event :=
  .sync sampleMoment
    { groupId := "orders", generationId, memberId, assignments := [⟨memberId, [0]⟩] }

def leaveOf (memberId : String) : Event :=
  .leave sampleMoment { groupId := "orders", memberId }

-- The second member leads the group, sends its assignments and leaves.
theorem stable_means_assigned_two : ∃ c₀ c c', Reaches step Careful (start {}) c₀ ∧
    step c₀ (syncOf 2 "b") = some c ∧ step c (leaveOf "b") = some c' ∧
    (∃ s ∈ c.service.standing "orders", s.state = .stable ∧ c.Assigned "orders" s) ∧
      (∀ s ∈ c'.service.standing "orders", s.state ≠ .stable) ∧
        c.Disturbed "orders" (leaveOf "b") := by
  obtain ⟨c₀, r, hc₀, c, hs, hc, c', hs', ⟨s, hm, hst⟩, hend⟩ : ∃ c₀,
      Reaches step Careful (start {}) c₀ ∧ c₀.Careful (syncOf 2 "b") ∧
      ∃ c ∈ step c₀ (syncOf 2 "b"), c.Careful (leaveOf "b") ∧ ∃ c' ∈ step c (leaveOf "b"),
        (∃ s ∈ c.service.standing "orders", s.state = .stable) ∧
          ∀ s ∈ c'.service.standing "orders", s.state ≠ .stable :=
    Reaches.exists_of_run [joinOf "a", syncOf 1 "a", joinOf "b"] (by decide +kernel)
  refine ⟨c₀, c, c', r, hs, hs', ⟨s, hm, hst, ?_⟩, hend, ?_⟩
  · exact (stable_means_assigned r hc₀ hs "orders").1 s hm hst
  · exact (stable_means_assigned (.tail r ⟨_, hc₀, hs⟩) hc hs' "orders").2 s hm hst hend

-- The second member of a group makes it stable although the leader has sent nothing, and a look for
-- expired members ends the stable state of a group whose only member is alive.
theorem stable_without_assignments : (∃ c, Reaches step anyEvent (start {}) c ∧
      ∃ s ∈ c.service.standing "orders", s.state = .stable ∧ ¬c.Assigned "orders" s) ∧
    ∃ c, Reaches step anyEvent (start {}) c ∧
      (∃ s ∈ c.service.standing "orders", s.state = .stable) ∧
      ∃ c' ∈ step c (.checkExpiredMembers sampleMoment),
        (∀ s ∈ c'.service.standing "orders", s.state ≠ .stable) ∧
        ¬c.Disturbed "orders" (.checkExpiredMembers sampleMoment) := by
  constructor
  case left =>
    exact Reaches.exists_of_run [joinOf "a", syncOf 1 "a", joinOf "b", syncOf 2 "a"]
      (by decide +kernel)
  case right => exact Reaches.exists_of_run [joinOf "a", syncOf 1 "a"] (by decide +kernel)

end Coordinator

end LogSystem
