/-
  The communicators of process groups: the ids of those that are split from the global communicator
  (`createHCCLCommEx` of `ProcessGroupHCCL.cpp`), and switching the NICs of their ranks (`setSwitchNicComm`).

  A process uses one device in a communicator.  The files, functions and the global communicator that a split
  needs are there, and HCCL creates what it is asked for.  A failed check is `none`.
-/
import TorchNpu.Lib.Text

namespace TorchNpu.Distributed.Communicators

/-- What a process knows of a group: its own rank in it, the number of ranks, and of the options the id and
`global_ranks_in_group`, which is empty for the global group. -/
structure ProcessGroup where
  rank : ℕ
  size : ℕ
  groupId : Text
  globalRanksInGroup : List ℕ
  deriving DecidableEq

/-- `groupRanks`.  The static list is that of the global group. -/
def ProcessGroup.groupRanks (pg : ProcessGroup) : List ℕ :=
  if pg.globalRanksInGroup.isEmpty then List.range pg.size else pg.globalRanksInGroup

/-! ### Keys -/

def getKeySendRecv (myRank peer : ℕ) : Text :=
  let lowRank := if myRank < peer then myRank else peer
  let highRank := if myRank < peer then peer else myRank
  Text.ofNat lowRank ++ [':'] ++ Text.ofNat highRank

/-- `getKeyFromDevices`, for one device. -/
def getKeyFromDevices (device : ℕ) : Text :=
  Text.ofNat device

/-! ### `createHCCLCommEx` -/

/-- What a communicator is for; the peer is a rank of the group. -/
inductive HcclCommType
  | default
  | p2p (peer : ℕ)
  deriving DecidableEq

/-- What a sub-communicator is created with. -/
structure SubComm where
  rankNum : ℕ
  rankIds : List ℕ
  subCommId : UInt64
  subCommRankId : ℕ
  deriving DecidableEq

/-- The sub-communicator of a process group; `hash` is `std::hash` of a string.  The global group itself is no
sub-communicator. -/
def createSubHcclComm (hash : Text → UInt64) (pg : ProcessGroup) : HcclCommType → Option SubComm
  | .default =>
    if pg.globalRanksInGroup.isEmpty then none
    else some
      { rankNum := pg.size
        rankIds := pg.globalRanksInGroup
        subCommId := hash pg.groupId
        subCommRankId := pg.rank }
  | .p2p peer =>
    let lowRank := if pg.rank < peer then pg.rank else peer
    let highRank := if pg.rank < peer then peer else pg.rank
    let p2pRanks :=
      if pg.globalRanksInGroup.isEmpty then some [lowRank, highRank]
      else
        match pg.globalRanksInGroup[lowRank]?, pg.globalRanksInGroup[highRank]? with
        | some low, some high => some [low, high]
        -- The higher rank is none of the group.
        | _, _ => none
    p2pRanks.map fun p2pRanks =>
      { rankNum := 2
        rankIds := p2pRanks
        subCommId := hash (getKeySendRecv pg.rank peer)
        subCommRankId := if pg.rank ≤ peer then 0 else 1 }

/-! ### `setSwitchNicComm` -/

/-- A communicator in `devHCCLCommMap_`; a default one has been created for a device. -/
inductive HCCLComm
  | default (device : ℕ)
  | p2p (peer : ℕ)
  deriving DecidableEq

/-- The key it is under. -/
def HCCLComm.key (pg : ProcessGroup) : HCCLComm → Text
  | .default device => getKeyFromDevices device
  | .p2p peer => getKeySendRecv pg.rank peer

/-- The communicators of a process group, each under its key. -/
structure DevHCCLCommMap where
  comms : List HCCLComm
  nodup : comms.Nodup

/-- A call of `hcclCommWorkingDevNicSet`. -/
structure NicCall where
  comm : HCCLComm
  ranks : List (ℕ × Bool)

/-- The ranks that `setCommWorkingDevNic` sends, with their flags.  The listed ranks come with their flags. -/
def sendRanks (pg : ProcessGroup) (ranks : List (ℕ × Bool)) (rankid : ℕ) : HCCLComm → List (ℕ × Bool)
  | .p2p p2pPeer =>
    let p2pRank := if rankid ≤ p2pPeer then 0 else 1
    let isSendRecvSelf := pg.rank = p2pPeer
    let p2pTargetRank := if isSendRecvSelf then 0 else 1 - p2pRank
    ranks.flatMap fun (rank, useBackup) =>
      (if rank = rankid then [(p2pRank, useBackup)] else []) ++
        if rank = p2pTargetRank then [(p2pTargetRank, useBackup)] else []
  | .default _ =>
    ranks.filterMap fun (rank, useBackup) => (pg.groupRanks.idxOf? rank).map fun localrank => (localrank, useBackup)

/-- `setCommWorkingDevNic`: the result, and the call if there is one.  `succeeds` says how the call ends. -/
def setCommWorkingDevNic (succeeds : NicCall → Bool) (pg : ProcessGroup) (comm : HCCLComm)
    (ranks : List (ℕ × Bool)) (rankid : ℕ) : Bool × List NicCall :=
  let sendRanks := sendRanks pg ranks rankid comm
  if sendRanks.isEmpty then (true, [])
  else
    let call : NicCall := ⟨comm, sendRanks⟩
    (succeeds call, [call])

/-- `setSwitchNicComm`: the result, and the calls.  `exist` is `hcclCommWorkingDevNicSetExist`, and `numNPUs` is
how many devices there are. -/
def setSwitchNicComm (exist : Bool) (succeeds : NicCall → Bool) (numNPUs : ℕ) (pg : ProcessGroup)
    (devHCCLCommMap : DevHCCLCommMap) (rankid : ℕ) (ranks : List (ℕ × Bool)) : Option Bool × List NicCall :=
  if !exist then (some true, [])
  else if numNPUs = 0 then (none, [])
  else
    let key := getKeyFromDevices (rankid % numNPUs)
    match devHCCLCommMap.comms.find? fun comm => comm.key pg = key with
    | some comm =>
      let (result, calls) := setCommWorkingDevNic succeeds pg comm ranks rankid
      (some result, calls)
    | none => (some true, [])

end TorchNpu.Distributed.Communicators
