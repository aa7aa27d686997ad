import AppliedCs.Lib.Codec
import Mathlib.Data.List.AList

namespace LogSystem

open Codec

namespace ErrorCodes

def ILLEGAL_GENERATION : ℤ :=
  22

def INVALID_GROUP_ID : ℤ :=
  24

def UNKNOWN_MEMBER_ID : ℤ :=
  25

def REBALANCE_IN_PROGRESS : ℤ :=
  27

end ErrorCodes

-- What a call takes from its surroundings.
structure Moment where
  -- Milliseconds of the monotonic clock.
  instant : ℕ
  -- The order in which a map lists its keys.
  listed : List String → List String
  isListed : ∀ keys, (listed keys).Perm keys

structure GroupCoordinatorConfig where
  sessionTimeoutMs : UInt64 := 30000
  maxSessionTimeoutMs : UInt64 := 300000
  minSessionTimeoutMs : UInt64 := 6000
  rebalanceTimeoutMs : UInt64 := 60000
  initialRebalanceDelayMs : UInt64 := 3000

inductive GroupState
  | empty
  | preparingRebalance
  | completingRebalance
  | stable
  | dead
  deriving DecidableEq

structure JoinGroupProtocol where
  name : String
  metadata : Bytes

structure JoinGroupMember where
  memberId : String
  metadata : Bytes

structure JoinGroupRequest where
  groupId : String
  sessionTimeoutMs : UInt32
  rebalanceTimeoutMs : UInt32
  memberId : String
  protocolType : String
  protocols : List JoinGroupProtocol

structure JoinGroupResponse where
  throttleTimeMs : UInt32 := 0
  errorCode : ℤ
  generationId : Int32 := -1
  protocolName : String := ""
  leader : String := ""
  memberId : String
  members : List JoinGroupMember := []

structure SyncGroupAssignment where
  memberId : String
  assignment : Bytes

structure SyncGroupRequest where
  groupId : String
  generationId : Int32
  memberId : String
  assignments : List SyncGroupAssignment

structure SyncGroupResponse where
  throttleTimeMs : UInt32 := 0
  errorCode : ℤ
  assignment : Bytes := []

structure HeartbeatRequest where
  groupId : String
  generationId : Int32
  memberId : String

structure HeartbeatResponse where
  throttleTimeMs : UInt32 := 0
  errorCode : ℤ

structure LeaveGroupRequest where
  groupId : String
  memberId : String

structure LeaveGroupResponse where
  throttleTimeMs : UInt32 := 0
  errorCode : ℤ

structure MemberMetadata where
  memberId : String
  clientId : String
  clientHost : String
  sessionTimeoutMs : UInt64
  rebalanceTimeoutMs : UInt64
  protocolType : String
  protocols : List JoinGroupProtocol
  assignment : Bytes := []
  lastHeartbeat : ℕ
  awaitingJoin : Bool := false
  awaitingSync : Bool := false

namespace MemberMetadata

def updateHeartbeat (now : Moment) (member : MemberMetadata) : MemberMetadata :=
  { member with lastHeartbeat := now.instant }

def isExpired (now : Moment) (timeout : ℕ) (member : MemberMetadata) : Bool :=
  timeout < now.instant - member.lastHeartbeat

end MemberMetadata

abbrev Members :=
  AList fun _ : String => MemberMetadata

structure ConsumerGroup where
  groupId : String
  state : GroupState := .empty
  generationId : UInt32 := 0
  leader : Option String := none
  protocol : Option String := none
  members : Members := ∅
  lastStateChange : ℕ
  memberIdCounter : UInt32 := 0

namespace ConsumerGroup

variable (now : Moment) (group : ConsumerGroup)

def setState (newState : GroupState) : ConsumerGroup :=
  if group.state ≠ newState then
    { group with state := newState, lastStateChange := now.instant }
  else
    group

-- The generation wraps around as the atomic counter does.
def nextGeneration : ConsumerGroup :=
  { group with generationId := group.generationId + 1 }

def generateMemberId (clientId : String) : String × ConsumerGroup :=
  (s!"{clientId}-{group.memberIdCounter}",
    { group with memberIdCounter := group.memberIdCounter + 1 })

def hasMembers : Bool :=
  !group.members.entries.isEmpty

def memberCount : ℕ :=
  group.members.entries.length

def memberIds : List String :=
  now.listed group.members.keys

variable (memberId : String)

def getMember : Option MemberMetadata :=
  group.members.lookup memberId

def addMember (member : MemberMetadata) : ConsumerGroup :=
  { group with members := group.members.insert member.memberId member }

def removeMember : Option ConsumerGroup :=
  match group.getMember memberId with
  | some _ => some { group with members := group.members.erase memberId }
  | none => none

-- Changes a member in place, as a mutable reference into the map does.
def modifyMember (f : MemberMetadata → MemberMetadata) : ConsumerGroup :=
  match group.getMember memberId with
  | some member => { group with members := group.members.insert memberId (f member) }
  | none => group

def allMembersSynced : Bool :=
  group.members.entries.all (!·.snd.awaitingSync)

-- The names all members list, in the order in which the map lists the members.
def protocolNames : List String :=
  (group.memberIds now).filterMap group.getMember |>.flatMap (·.protocols.map (·.name))

def selectProtocol : Option String :=
  (group.protocolNames now).find? fun name =>
    (group.protocolNames now).count name = group.memberCount

end ConsumerGroup

structure DelayedJoin where
  groupId : String
  memberId : String
  deadline : ℕ

structure GroupCoordinatorService where
  config : GroupCoordinatorConfig
  groups : AList (fun _ : String => ConsumerGroup) := ∅
  pendingJoins : AList (fun _ : String => List DelayedJoin) := ∅

namespace GroupCoordinatorService

variable (now : Moment) (service : GroupCoordinatorService) (groupId : String)

def getGroup : Option ConsumerGroup :=
  service.groups.lookup groupId

def getOrCreateGroup : ConsumerGroup :=
  (service.getGroup groupId).getD { groupId, lastStateChange := now.instant }

variable (group : ConsumerGroup)

-- Groups are shared objects: what a handler does to one is seen in the map.
def putGroup : GroupCoordinatorService :=
  { service with groups := service.groups.insert groupId group }

def delayJoin (memberId : String) (delay : UInt64) : GroupCoordinatorService :=
  let pending := (service.pendingJoins.lookup groupId).getD []
  let join := { groupId, memberId, deadline := now.instant + delay.toNat }
  { service with pendingJoins := service.pendingJoins.insert groupId (pending ++ [join]) }

def shouldCompleteJoin : Bool :=
  group.memberCount ≥ 1

def completeJoin (forMember : String) : JoinGroupResponse × ConsumerGroup :=
  let group := group.nextGeneration
  let protocol := (group.selectProtocol now).getD ""
  let group := { group with protocol := some protocol }
  let memberIds := group.memberIds now
  let leader := memberIds.head?.getD ""
  let group := { group with leader := some leader }
  -- Only the leader is told who the members are.
  let members :=
    if forMember = leader then
      memberIds.filterMap fun memberId => (group.getMember memberId).map fun member =>
        let selected := member.protocols.find? (·.name = protocol)
        { memberId, metadata := (selected.map (·.metadata)).getD [] }
    else
      []
  let group := group.setState now .completingRebalance
  ({ errorCode := 0, generationId := group.generationId.toInt32, protocolName := protocol, leader,
     memberId := forMember, members }, group)

variable (request : JoinGroupRequest)

-- The part of a join that the states which accept it share.
def acceptMember (memberId : String) (delay : UInt64)
    (group : ConsumerGroup) : JoinGroupResponse × GroupCoordinatorService :=
  let service := service.delayJoin now request.groupId memberId delay
  if shouldCompleteJoin group then
    let (response, group) := completeJoin now group memberId
    (response, service.putGroup request.groupId group)
  else
    ({ errorCode := 0, memberId }, service.putGroup request.groupId group)

def newMember (memberId : String) : MemberMetadata where
  memberId := memberId
  clientId := request.protocolType
  clientHost := ""
  sessionTimeoutMs := request.sessionTimeoutMs.toUInt64
  rebalanceTimeoutMs := request.rebalanceTimeoutMs.toUInt64
  protocolType := request.protocolType
  protocols := request.protocols
  lastHeartbeat := now.instant

-- The identifier of the member that joins: a new one if the request has none.
def joiningMember : String × ConsumerGroup :=
  let group := service.getOrCreateGroup now request.groupId
  if request.memberId.isEmpty then group.generateMemberId request.protocolType
  else (request.memberId, group)

def handleJoinGroup : JoinGroupResponse × GroupCoordinatorService :=
  if request.sessionTimeoutMs < service.config.minSessionTimeoutMs.toUInt32
      ∨ request.sessionTimeoutMs > service.config.maxSessionTimeoutMs.toUInt32 then
    ({ errorCode := ErrorCodes.INVALID_GROUP_ID, memberId := request.memberId }, service)
  else
    let (memberId, group) := service.joiningMember now request
    match group.state with
    | .empty | .stable =>
      let group := group.addMember (newMember now request memberId)
      let group := group.setState now .preparingRebalance
      service.acceptMember now request memberId service.config.initialRebalanceDelayMs group
    | .preparingRebalance =>
      let group := group.addMember (newMember now request memberId)
      service.acceptMember now request memberId service.config.rebalanceTimeoutMs group
    | .completingRebalance =>
      ({ errorCode := ErrorCodes.REBALANCE_IN_PROGRESS, memberId },
        service.putGroup request.groupId group)
    | .dead =>
      ({ errorCode := ErrorCodes.UNKNOWN_MEMBER_ID, memberId },
        service.putGroup request.groupId group)

def storeAssignments (assignments : List SyncGroupAssignment) (group : ConsumerGroup) :
    ConsumerGroup :=
  assignments.foldl (fun group a => group.modifyMember a.memberId fun member =>
    { member with assignment := a.assignment, awaitingSync := false }) group

def assignmentOf (memberId : String) : Bytes :=
  ((group.getMember memberId).map (·.assignment)).getD []

def handleSyncGroup (request : SyncGroupRequest) : SyncGroupResponse × GroupCoordinatorService :=
  match service.getGroup request.groupId with
  | none => ({ errorCode := ErrorCodes.INVALID_GROUP_ID }, service)
  | some group =>
    if (group.getMember request.memberId).isNone then
      ({ errorCode := ErrorCodes.UNKNOWN_MEMBER_ID }, service)
    else if request.generationId ≠ group.generationId.toInt32 then
      ({ errorCode := ErrorCodes.ILLEGAL_GENERATION }, service)
    else
      match group.state with
      | .completingRebalance =>
        let group :=
          if group.leader = some request.memberId then storeAssignments request.assignments group
          else group
        let assignment := assignmentOf group request.memberId
        let group := if group.allMembersSynced then group.setState now .stable else group
        ({ errorCode := 0, assignment }, service.putGroup request.groupId group)
      | .stable =>
        ({ errorCode := 0, assignment := assignmentOf group request.memberId }, service)
      | _ => ({ errorCode := ErrorCodes.REBALANCE_IN_PROGRESS }, service)

def handleHeartbeat (request : HeartbeatRequest) : HeartbeatResponse × GroupCoordinatorService :=
  match service.getGroup request.groupId with
  | none => ({ errorCode := ErrorCodes.INVALID_GROUP_ID }, service)
  | some group =>
    if (group.getMember request.memberId).isNone then
      ({ errorCode := ErrorCodes.UNKNOWN_MEMBER_ID }, service)
    else if request.generationId ≠ group.generationId.toInt32 then
      ({ errorCode := ErrorCodes.ILLEGAL_GENERATION }, service)
    else
      let group := group.modifyMember request.memberId (·.updateHeartbeat now)
      let errorCode :=
        match group.state with
        | .stable => 0
        | .preparingRebalance | .completingRebalance => ErrorCodes.REBALANCE_IN_PROGRESS
        | .empty | .dead => ErrorCodes.UNKNOWN_MEMBER_ID
      ({ errorCode }, service.putGroup request.groupId group)

def handleLeaveGroup (request : LeaveGroupRequest) : LeaveGroupResponse × GroupCoordinatorService :=
  match service.getGroup request.groupId with
  | none => ({ errorCode := ErrorCodes.INVALID_GROUP_ID }, service)
  | some group =>
    match group.removeMember request.memberId with
    | none => ({ errorCode := ErrorCodes.UNKNOWN_MEMBER_ID }, service)
    | some group =>
      let group :=
        if group.state = .stable ∧ group.hasMembers then group.setState now .preparingRebalance
        else if !group.hasMembers then group.setState now .empty
        else group
      ({ errorCode := 0 }, service.putGroup request.groupId group)

def expiredMembers (timeout : ℕ) (group : ConsumerGroup) : List String :=
  (group.memberIds now).filter fun memberId =>
    (group.getMember memberId).any (·.isExpired now timeout)

def removeMembers (memberIds : List String) (group : ConsumerGroup) : ConsumerGroup :=
  memberIds.foldl (fun group memberId => (group.removeMember memberId).getD group) group

def checkExpired (timeout : ℕ) (group : ConsumerGroup) : ConsumerGroup :=
  let group := removeMembers (expiredMembers now timeout group) group
  if !group.hasMembers then group.setState now .empty
  else if group.state = .stable then group.setState now .preparingRebalance
  else group

def checkGroup (timeout : ℕ) (acc : List (String × String) × GroupCoordinatorService)
    (groupId : String) : List (String × String) × GroupCoordinatorService :=
  match acc.2.getGroup groupId with
  | none => acc
  | some group =>
    (acc.1 ++ (expiredMembers now timeout group).map ((group.groupId, ·)),
      acc.2.putGroup groupId (checkExpired now timeout group))

-- Goes through the groups in the order in which the map lists them.
def checkExpiredMembers : List (String × String) × GroupCoordinatorService :=
  let timeout := service.config.sessionTimeoutMs.toNat
  (now.listed service.groups.keys).foldl (checkGroup now timeout) ([], service)

end GroupCoordinatorService

end LogSystem
