/-
  When communicators of different ranks have different ids.

  The id of a communicator is the hash of a key.  For a pair of ranks the key has their ranks in the group, so that
  pairs of two groups have one key if they are the same pair of numbers.
-/
import Mathlib.Data.Finset.Option
import TorchNpu.Distributed.Communicators

namespace TorchNpu.Distributed.Communicators

/-! ### Keys -/

theorem ofNat_injective {v w : ℕ} (h : Text.ofNat v = Text.ofNat w) : v = w := by
  have hv := Text.digitsValue_toDigits (by decide : 1 < 10) (by decide) v
  have hw := Text.digitsValue_toDigits (by decide : 1 < 10) (by decide) w
  rw [Text.ofNat, Text.ofNat] at h
  rw [h] at hv
  exact Option.some.inj (hv.symm.trans hw)

theorem colon_notMem_ofNat (v : ℕ) : ':' ∉ Text.ofNat v :=
  Text.notMem_toDigits (by decide) (by decide) (by decide)

theorem getKeySendRecv_eq (myRank peer : ℕ) :
    getKeySendRecv myRank peer =
      List.intercalate [':'] [Text.ofNat (min myRank peer), Text.ofNat (max myRank peer)] := by
  rw [getKeySendRecv]
  split_ifs with hlt
  · rw [min_eq_left hlt.le, max_eq_right hlt.le]
    simp [List.intercalate_cons_cons]
  · rw [min_eq_right (not_lt.mp hlt), max_eq_left (not_lt.mp hlt)]
    simp [List.intercalate_cons_cons]

theorem getKeySendRecv_comm (myRank peer : ℕ) : getKeySendRecv myRank peer = getKeySendRecv peer myRank := by
  rw [getKeySendRecv_eq, getKeySendRecv_eq, min_comm, max_comm]

/-- The key tells the two ranks, but not which is which. -/
theorem getKeySendRecv_eq_iff {a b c d : ℕ} :
    getKeySendRecv a b = getKeySendRecv c d ↔ min a b = min c d ∧ max a b = max c d := by
  constructor
  · intro h
    have hsplit : ∀ v w : ℕ, Text.split [':'] (List.intercalate [':'] [Text.ofNat v, Text.ofNat w]) =
        [Text.ofNat v, Text.ofNat w] := by
      intro v w
      apply Text.split_intercalate [] (by simp)
      simp [colon_notMem_ofNat]
    have hpieces := congrArg (Text.split [':']) h
    rw [getKeySendRecv_eq, getKeySendRecv_eq, hsplit, hsplit, List.cons.injEq, List.cons.injEq] at hpieces
    exact ⟨ofNat_injective hpieces.1, ofNat_injective hpieces.2.1⟩
  · intro ⟨hmin, hmax⟩
    rw [getKeySendRecv_eq, getKeySendRecv_eq, hmin, hmax]

/-! ### Splits of the global communicator -/

/-- The rank of the job that a rank of the group is. -/
def ProcessGroup.globalRank? (pg : ProcessGroup) (rank : ℕ) : Option ℕ :=
  if pg.globalRanksInGroup.isEmpty then some rank else pg.globalRanksInGroup[rank]?

/-- A communicator that a process splits from the global one. -/
structure Split where
  pg : ProcessGroup
  commType : HcclCommType
  deriving DecidableEq

namespace Split

def create (hash : Text → UInt64) (s : Split) : Option SubComm :=
  createSubHcclComm hash s.pg s.commType

/-- The key that is hashed. -/
def key (s : Split) : Text :=
  match s.commType with
  | .default => s.pg.groupId
  | .p2p peer => getKeySendRecv s.pg.rank peer

/-- The group is not the global one, or both ranks are of the group. -/
def Exists (s : Split) : Prop :=
  match s.commType with
  | .default => s.pg.globalRanksInGroup ≠ []
  | .p2p peer => s.pg.globalRanksInGroup = [] ∨ max s.pg.rank peer < s.pg.globalRanksInGroup.length

instance (s : Split) : Decidable s.Exists := by
  unfold Exists
  cases s.commType
  · exact inferInstanceAs (Decidable (_ ≠ _))
  · exact inferInstanceAs (Decidable (_ ∨ _))

/-- The ranks of the job that are in the communicator. -/
def members (s : Split) : Finset ℕ :=
  match s.commType with
  | .default => s.pg.globalRanksInGroup.toFinset
  | .p2p peer => (s.pg.globalRank? s.pg.rank).toFinset ∪ (s.pg.globalRank? peer).toFinset

/-- A rank of the group is in the communicator. -/
def HasLocalRank (s : Split) (rank : ℕ) : Prop :=
  match s.commType with
  | .default => rank < s.pg.size
  | .p2p peer => rank = s.pg.rank ∨ rank = peer

/-- What the process with another rank of the communicator splits. -/
def seenBy (s : Split) (rank : ℕ) : Split :=
  match s.commType with
  | .default => { s with pg := { s.pg with rank } }
  | .p2p peer =>
    if rank = s.pg.rank then s else { pg := { s.pg with rank := peer }, commType := .p2p s.pg.rank }

/-- The ranks of the job in a pair of ranks of the group, the lower one first. -/
theorem create_p2p (hash : Text → UInt64) (pg : ProcessGroup) (peer : ℕ) :
    createSubHcclComm hash pg (.p2p peer) =
      (pg.globalRank? (min pg.rank peer)).bind fun low => (pg.globalRank? (max pg.rank peer)).map fun high =>
        { rankNum := 2
          rankIds := [low, high]
          subCommId := hash (getKeySendRecv pg.rank peer)
          subCommRankId := if pg.rank ≤ peer then 0 else 1 } := by
  have hmin : (if pg.rank < peer then pg.rank else peer) = min pg.rank peer := by
    split_ifs with hlt
    · exact (min_eq_left hlt.le).symm
    · exact (min_eq_right (not_lt.mp hlt)).symm
  have hmax : (if pg.rank < peer then peer else pg.rank) = max pg.rank peer := by
    split_ifs with hlt
    · exact (max_eq_right hlt.le).symm
    · exact (max_eq_left (not_lt.mp hlt)).symm
  rw [createSubHcclComm]
  rw [hmin, hmax, ProcessGroup.globalRank?, ProcessGroup.globalRank?]
  by_cases hempty : pg.globalRanksInGroup.isEmpty
  · rw [if_pos hempty, if_pos hempty, if_pos hempty]
    rfl
  · rw [if_neg hempty, if_neg hempty, if_neg hempty]
    cases pg.globalRanksInGroup[min pg.rank peer]? with
    | none => rfl
    | some low => cases pg.globalRanksInGroup[max pg.rank peer]? <;> rfl

theorem pair_toFinset (pg : ProcessGroup) (peer low high : ℕ) (hlow : pg.globalRank? (min pg.rank peer) = some low)
    (hhigh : pg.globalRank? (max pg.rank peer) = some high) :
    [low, high].toFinset = (pg.globalRank? pg.rank).toFinset ∪ (pg.globalRank? peer).toFinset := by
  rcases le_total pg.rank peer with hle | hle
  · rw [min_eq_left hle] at hlow
    rw [max_eq_right hle] at hhigh
    rw [hlow, hhigh]
    ext r
    simp [eq_comm]
  · rw [min_eq_right hle] at hlow
    rw [max_eq_left hle] at hhigh
    rw [hlow, hhigh]
    ext r
    simp [eq_comm, or_comm]

variable {hash : Text → UInt64} {s : Split} {c : SubComm}

theorem globalRank?_isSome {pg : ProcessGroup} {r : ℕ} :
    (pg.globalRank? r).isSome ↔ pg.globalRanksInGroup = [] ∨ r < pg.globalRanksInGroup.length := by
  rw [ProcessGroup.globalRank?]
  split_ifs with hempty
  · simp [List.isEmpty_iff.mp hempty]
  · rw [List.isEmpty_iff] at hempty
    simp [hempty]

/-- What a communicator is created with. -/
theorem create_spec (h : s.create hash = some c) :
    s.Exists ∧ c.subCommId = hash s.key ∧ c.rankIds.toFinset = s.members := by
  obtain ⟨pg, commType⟩ := s
  cases commType with
  | default =>
    rw [create, createSubHcclComm] at h
    split_ifs at h with hempty
    obtain rfl := Option.some.inj h
    exact ⟨by simpa [Exists] using hempty, rfl, rfl⟩
  | p2p peer =>
    rw [create, create_p2p] at h
    obtain ⟨low, hlow, h⟩ := Option.bind_eq_some_iff.mp h
    obtain ⟨high, hhigh, rfl⟩ := Option.map_eq_some_iff.mp h
    exact ⟨globalRank?_isSome.mp (by rw [hhigh]; rfl), rfl, pair_toFinset pg peer low high hlow hhigh⟩

theorem exists_create (h : s.Exists) : ∃ c, s.create hash = some c := by
  obtain ⟨pg, commType⟩ := s
  cases commType with
  | default =>
    rw [create, createSubHcclComm, if_neg (by simpa [Exists] using h)]
    exact ⟨_, rfl⟩
  | p2p peer =>
    have hhigh : pg.globalRanksInGroup = [] ∨ max pg.rank peer < pg.globalRanksInGroup.length := h
    have hlow : pg.globalRanksInGroup = [] ∨ min pg.rank peer < pg.globalRanksInGroup.length :=
      hhigh.imp_right (lt_of_le_of_lt (min_le_max))
    obtain ⟨low, hlow⟩ := Option.isSome_iff_exists.mp (globalRank?_isSome.mpr hlow)
    obtain ⟨high, hhigh⟩ := Option.isSome_iff_exists.mp (globalRank?_isSome.mpr hhigh)
    rw [create, create_p2p, hlow, hhigh]
    exact ⟨_, rfl⟩

/-- The other ranks of a communicator create it as this one does, but for their place in it. -/
theorem create_seenBy (h : s.create hash = some c) (rank : ℕ) :
    ∃ c', (s.seenBy rank).create hash = some c' ∧ c'.rankIds = c.rankIds ∧ c'.subCommId = c.subCommId := by
  obtain ⟨pg, commType⟩ := s
  cases commType with
  | default =>
    rw [create, createSubHcclComm] at h
    split_ifs at h with hempty
    obtain rfl := Option.some.inj h
    exact ⟨_, if_neg hempty, rfl, rfl⟩
  | p2p peer =>
    rw [seenBy]
    dsimp only
    split_ifs with hself
    · exact ⟨c, h, rfl, rfl⟩
    · rw [create, create_p2p] at h ⊢
      dsimp only
      rw [min_comm peer, max_comm peer, getKeySendRecv_comm peer]
      obtain ⟨low, hlow, h⟩ := Option.bind_eq_some_iff.mp h
      obtain ⟨high, hhigh, rfl⟩ := Option.map_eq_some_iff.mp h
      have hlow' : ProcessGroup.globalRank? { pg with rank := peer } (min pg.rank peer) = some low := hlow
      have hhigh' : ProcessGroup.globalRank? { pg with rank := peer } (max pg.rank peer) = some high := hhigh
      rw [hlow', hhigh']
      exact ⟨_, rfl, rfl, rfl⟩

end Split

/-! ### The ids of the communicators -/

/-- Communicators of different ranks have different ids, and the ranks of a communicator have the same. -/
structure Identified (hash : Text → UInt64) (splits : List Split) : Prop where
  distinct : ∀ s ∈ splits, ∀ s' ∈ splits, ∀ c c', s.create hash = some c → s'.create hash = some c' →
    c.rankIds.toFinset ≠ c'.rankIds.toFinset → c.subCommId ≠ c'.subCommId
  agree : ∀ s ∈ splits, ∀ c, s.create hash = some c → ∀ rank, s.HasLocalRank rank →
    ∃ c', (s.seenBy rank).create hash = some c' ∧ c'.rankIds = c.rankIds ∧ c'.subCommId = c.subCommId

/-- The same id, the same pair of ranks in the groups, or an id that is that of a pair. -/
def SameInGroups (s s' : Split) : Prop :=
  match s.commType, s'.commType with
  | .default, .default => s.pg.groupId = s'.pg.groupId
  | .p2p peer, .p2p peer' =>
    min s.pg.rank peer = min s'.pg.rank peer' ∧ max s.pg.rank peer = max s'.pg.rank peer'
  | .default, .p2p peer' => s.pg.groupId = getKeySendRecv s'.pg.rank peer'
  | .p2p peer, .default => getKeySendRecv s.pg.rank peer = s'.pg.groupId

instance (s s' : Split) : Decidable (SameInGroups s s') := by
  unfold SameInGroups
  split
  · exact inferInstanceAs (Decidable (_ = _))
  · exact inferInstanceAs (Decidable (_ ∧ _))
  · exact inferInstanceAs (Decidable (_ = _))
  · exact inferInstanceAs (Decidable (_ = _))

theorem key_eq_iff {s s' : Split} : s.key = s'.key ↔ SameInGroups s s' := by
  obtain ⟨pg, commType⟩ := s
  obtain ⟨pg', commType'⟩ := s'
  cases commType with
  | default =>
    cases commType' with
    | default => exact Iff.rfl
    | p2p peer' => exact Iff.rfl
  | p2p peer =>
    cases commType' with
    | default => exact Iff.rfl
    | p2p peer' => exact getKeySendRecv_eq_iff

/-- What is the same in the groups has the same ranks of the job. -/
def SameInJob (splits : List Split) : Prop :=
  ∀ s ∈ splits, ∀ s' ∈ splits, s.Exists → s'.Exists → SameInGroups s s' → s.members = s'.members

instance (splits : List Split) : Decidable (SameInJob splits) :=
  inferInstanceAs (Decidable (∀ s ∈ splits, ∀ s' ∈ splits, _))

/-- The communicators are told apart by their ids exactly when pairs of the same ranks in their groups are pairs
of the same ranks of the job, and no group has the id of another communicator. -/
theorem identified_iff_sameInJob (hash : Text → UInt64) (splits : List Split)
    (hhash : ∀ s ∈ splits, ∀ s' ∈ splits, hash s.key = hash s'.key → s.key = s'.key) :
    Identified hash splits ↔ SameInJob splits := by
  constructor
  · intro h s hs s' hs' hexists hexists' hsame
    obtain ⟨c, hc⟩ : ∃ c, s.create hash = some c := Split.exists_create hexists
    obtain ⟨c', hc'⟩ : ∃ c, s'.create hash = some c := Split.exists_create hexists'
    obtain ⟨-, hid, hmembers⟩ := Split.create_spec hc
    obtain ⟨-, hid', hmembers'⟩ := Split.create_spec hc'
    by_contra hne
    rw [← hmembers, ← hmembers'] at hne
    apply h.distinct s hs s' hs' c c' hc hc' hne
    rw [hid, hid', key_eq_iff.mpr hsame]
  · intro h
    refine ⟨fun s hs s' hs' c c' hc hc' hne heq => ?_, fun s _ c hc rank _ => Split.create_seenBy hc rank⟩
    obtain ⟨hexists, hid, hmembers⟩ := Split.create_spec hc
    obtain ⟨hexists', hid', hmembers'⟩ := Split.create_spec hc'
    rw [hid, hid'] at heq
    rw [hmembers, hmembers'] at hne
    exact hne (h s hs s' hs' hexists hexists' (key_eq_iff.mp (hhash s hs s' hs' heq)))

/-- Two pairs of the global group. -/
def globalPairs : List Split :=
  let pg : ProcessGroup := ⟨0, 4, ['0'], []⟩
  [⟨pg, .p2p 1⟩, ⟨pg, .p2p 2⟩]

/-- A hash by the codes of the characters. -/
def charSum (text : Text) : UInt64 :=
  UInt64.ofNat (text.map Char.toNat).sum

theorem identified_globalPairs : Identified charSum globalPairs :=
  (identified_iff_sameInJob charSum globalPairs (by decide)).mpr (by decide)

/-- Rank 0 is in two groups, with rank 1 and with rank 2, and sends to the other rank of each. -/
def pairsOfTwoGroups : List Split :=
  [⟨⟨0, 2, ['1'], [0, 1]⟩, .p2p 1⟩, ⟨⟨0, 2, ['2'], [0, 2]⟩, .p2p 1⟩]

theorem not_identified_pairsOfTwoGroups :
    ¬ ∀ (hash : Text → UInt64) (splits : List Split),
      (∀ s ∈ splits, ∀ s' ∈ splits, hash s.key = hash s'.key → s.key = s'.key) →
        (∀ s ∈ splits, ∀ s' ∈ splits, s.pg.groupId = s'.pg.groupId → s.pg = s'.pg) → Identified hash splits := by
  intro h
  have hidentified := h charSum pairsOfTwoGroups (by decide) (by decide)
  apply hidentified.distinct ⟨⟨0, 2, ['1'], [0, 1]⟩, .p2p 1⟩ (by decide) ⟨⟨0, 2, ['2'], [0, 2]⟩, .p2p 1⟩ (by decide)
    ⟨2, [0, 1], charSum ['0', ':', '1'], 0⟩ ⟨2, [0, 2], charSum ['0', ':', '1'], 0⟩ (by decide) (by decide) (by decide)
  rfl

end TorchNpu.Distributed.Communicators

/-!
  When the NICs are switched in every communicator that has a listed rank.

  Only the communicator of one device is looked up, so that pairs of ranks are never told; what the default
  communicator is told is right.
-/

namespace TorchNpu.Distributed.Communicators

/-- The ranks of the job in a communicator, in the order of their ranks there. -/
def HCCLComm.members (pg : ProcessGroup) : HCCLComm → List ℕ
  | .default _ => pg.groupRanks
  | .p2p peer => [min pg.rank peer, max pg.rank peer].filterMap fun rank => pg.groupRanks[rank]?

/-- The communicator has a listed rank. -/
def HCCLComm.HasListed (pg : ProcessGroup) (ranks : List (ℕ × Bool)) (comm : HCCLComm) : Prop :=
  ∃ rank ∈ ranks, rank.1 ∈ comm.members pg

instance (pg : ProcessGroup) (ranks : List (ℕ × Bool)) (comm : HCCLComm) : Decidable (comm.HasListed pg ranks) :=
  inferInstanceAs (Decidable (∃ rank ∈ ranks, rank.1 ∈ comm.members pg))

/-- The listed ranks that are in the communicator, by their ranks there. -/
def HCCLComm.listed (pg : ProcessGroup) (ranks : List (ℕ × Bool)) (comm : HCCLComm) : List (ℕ × Bool) :=
  ranks.filterMap fun (rank, useBackup) => ((comm.members pg).idxOf? rank).map fun index => (index, useBackup)

/-- There is one call for each communicator with a listed rank, with the listed ranks that are in it. -/
structure Translates (pg : ProcessGroup) (devHCCLCommMap : DevHCCLCommMap) (ranks : List (ℕ × Bool))
    (calls : List NicCall) : Prop where
  comms : (calls.map NicCall.comm).Perm (devHCCLCommMap.comms.filter fun comm => comm.HasListed pg ranks)
  ranks : ∀ call ∈ calls, call.ranks.Perm (call.comm.listed pg ranks)

/-- The only communicator with a listed rank is the default one of the device that is looked up. -/
def OnlyDefaultListed (exist : Bool) (numNPUs : ℕ) (pg : ProcessGroup) (devHCCLCommMap : DevHCCLCommMap)
    (rankid : ℕ) (ranks : List (ℕ × Bool)) : Prop :=
  ∀ comm ∈ devHCCLCommMap.comms, comm.HasListed pg ranks →
    exist = true ∧ numNPUs ≠ 0 ∧ comm = .default (rankid % numNPUs)

variable {pg : ProcessGroup} {ranks : List (ℕ × Bool)}

theorem key_eq_getKeyFromDevices {comm : HCCLComm} {device : ℕ} :
    comm.key pg = getKeyFromDevices device ↔ comm = .default device := by
  cases comm with
  | default device' =>
    rw [HCCLComm.key, getKeyFromDevices, getKeyFromDevices, HCCLComm.default.injEq]
    exact ⟨ofNat_injective, fun h => by rw [h]⟩
  | p2p peer =>
    -- The key of a pair has a colon.
    refine iff_of_false (fun h => ?_) (by simp)
    rw [HCCLComm.key, getKeySendRecv, getKeyFromDevices] at h
    apply colon_notMem_ofNat device
    rw [← h]
    simp

theorem find?_key (comms : List HCCLComm) (device : ℕ) :
    (comms.find? fun comm => comm.key pg = getKeyFromDevices device) =
      if .default device ∈ comms then some (.default device) else none := by
  simp only [key_eq_getKeyFromDevices]
  induction comms with
  | nil => rfl
  | cons comm comms ih =>
    rw [List.find?_cons]
    by_cases h : comm = .default device
    · simp [h]
    · simp [h, ih, Ne.symm h]

/-- What the default communicator is told are the listed ranks in it. -/
theorem sendRanks_default (ranks : List (ℕ × Bool)) (rankid device : ℕ) :
    sendRanks pg ranks rankid (.default device) = (HCCLComm.default device).listed pg ranks :=
  rfl

theorem listed_eq_nil_iff {comm : HCCLComm} : comm.listed pg ranks = [] ↔ ¬ comm.HasListed pg ranks := by
  rw [HCCLComm.listed, List.filterMap_eq_nil_iff, HCCLComm.HasListed]
  push Not
  refine forall₂_congr fun rank _ => ?_
  rw [Option.map_eq_none_iff, List.idxOf?_eq_none_iff]

/-- The calls of `setSwitchNicComm`. -/
theorem setSwitchNicComm_calls (exist : Bool) (succeeds : NicCall → Bool) (numNPUs : ℕ)
    (devHCCLCommMap : DevHCCLCommMap) (rankid : ℕ) (ranks : List (ℕ × Bool)) :
    (setSwitchNicComm exist succeeds numNPUs pg devHCCLCommMap rankid ranks).2 =
      if exist = true ∧ numNPUs ≠ 0 ∧ .default (rankid % numNPUs) ∈ devHCCLCommMap.comms ∧
          (HCCLComm.default (rankid % numNPUs)).HasListed pg ranks then
        [⟨.default (rankid % numNPUs), (HCCLComm.default (rankid % numNPUs)).listed pg ranks⟩]
      else [] := by
  rw [setSwitchNicComm]
  cases exist with
  | false => simp
  | true =>
    by_cases hnum : numNPUs = 0
    · simp [hnum]
    · rw [if_neg (by simp), if_neg hnum]
      dsimp only
      rw [find?_key]
      by_cases hmem : HCCLComm.default (rankid % numNPUs) ∈ devHCCLCommMap.comms
      · rw [if_pos hmem]
        unfold setCommWorkingDevNic
        dsimp only
        rw [sendRanks_default]
        by_cases hlisted : (HCCLComm.default (rankid % numNPUs)).HasListed pg ranks
        · have hne := mt listed_eq_nil_iff.mp (not_not.mpr hlisted)
          simp [hnum, hmem, hlisted, hne]
        · have hnil := listed_eq_nil_iff.mpr hlisted
          simp [hlisted, hnil]
      · simp [hmem]

/-- The NICs are switched as they should be exactly when no other communicator than the default one of the device
has a listed rank. -/
theorem setSwitchNicComm_translates_iff (exist : Bool) (succeeds : NicCall → Bool) (numNPUs : ℕ) (pg : ProcessGroup)
    (devHCCLCommMap : DevHCCLCommMap) (rankid : ℕ) (ranks : List (ℕ × Bool)) :
    Translates pg devHCCLCommMap ranks
        (setSwitchNicComm exist succeeds numNPUs pg devHCCLCommMap rankid ranks).2 ↔
      OnlyDefaultListed exist numNPUs pg devHCCLCommMap rankid ranks := by
  rw [setSwitchNicComm_calls]
  set device := HCCLComm.default (rankid % numNPUs) with hdevice
  constructor
  · intro h comm hcomm hlisted
    have hmem := h.comms.mem_iff.mpr (List.mem_filter.mpr ⟨hcomm, by simpa using hlisted⟩)
    split_ifs at hmem with hcalls
    · exact ⟨hcalls.1, hcalls.2.1, by simpa using hmem⟩
    · exact absurd hmem (by simp)
  · intro h
    split_ifs with hcalls
    · obtain ⟨-, -, hmem, hlisted⟩ := hcalls
      refine ⟨?_, by simp⟩
      -- The filter leaves the one communicator.
      apply (List.perm_ext_iff_of_nodup (by simp) (devHCCLCommMap.nodup.filter _)).mpr
      intro comm
      rw [List.mem_filter, decide_eq_true_iff]
      constructor
      · intro hcomm
        obtain rfl : comm = device := by simpa using hcomm
        exact ⟨hmem, hlisted⟩
      · intro ⟨hcomm, hcommListed⟩
        simp [(h comm hcomm hcommListed).2.2, hdevice]
    · refine ⟨?_, by simp⟩
      rw [List.map_nil, List.nil_perm, List.filter_eq_nil_iff]
      intro comm hcomm hlisted
      have hlisted : comm.HasListed pg ranks := by simpa using hlisted
      obtain ⟨hexist, hnum, rfl⟩ := h comm hcomm hlisted
      exact hcalls ⟨hexist, hnum, hcomm, hlisted⟩

/-- The default communicator of four ranks, and that of ranks 0 and 1. -/
def defaultAndPair : DevHCCLCommMap where
  comms := [.default 0, .p2p 1]
  nodup := by decide

theorem not_translates_pair :
    ¬ ∀ (succeeds : NicCall → Bool) (numNPUs : ℕ) (pg : ProcessGroup) (devHCCLCommMap : DevHCCLCommMap) (rankid : ℕ)
        (ranks : List (ℕ × Bool)), 0 < numNPUs →
      Translates pg devHCCLCommMap ranks
        (setSwitchNicComm true succeeds numNPUs pg devHCCLCommMap rankid ranks).2 := by
  intro h
  have := (h (fun _ => true) 8 ⟨0, 4, ['0'], []⟩ defaultAndPair 0 [(1, true)] (by decide)).comms.length_eq
  exact absurd this (by decide)

end TorchNpu.Distributed.Communicators
