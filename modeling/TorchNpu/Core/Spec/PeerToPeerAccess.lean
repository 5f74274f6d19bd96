/-
  The statuses of the pairs of devices, over any sequence of calls.

  `outcome` says once what a call can do.  What a call keeps is then `Consistent`: the statuses are symmetric, and
  the count of a device is the number of its `allowedPeers`.  A status other than `unknown` stays, so that the answer
  for its pair stays as well.
-/
import TorchNpu.Core.PeerToPeerAccess
import Mathlib.Data.Finset.Card
import Mathlib.Data.Finset.Range
import Mathlib.Data.List.GetD
import Mathlib.Tactic.Linarith

namespace TorchNpu.Core.NpuP2pCtrl

variable {c : NpuP2pCtrl} {call : PeerCall} {source dest i j n : ℕ} {status : P2pStatus}

/-- The other devices that a device may copy to. -/
def allowedPeers (c : NpuP2pCtrl) (dev : ℕ) : Finset ℕ :=
  {i ∈ Finset.range c.numDevices | i ≠ dev ∧ c.status dev i = .copyAllowed}

theorem mem_allowedPeers :
    j ∈ c.allowedPeers i ↔ j < c.numDevices ∧ j ≠ i ∧ c.status i j = .copyAllowed := by
  rw [allowedPeers, Finset.mem_filter, Finset.mem_range]

/-- The state after the pair has been enabled. -/
def enable (c : NpuP2pCtrl) (source dest : ℕ) : NpuP2pCtrl :=
  ((c.setStatus source dest .copyAllowed).incrementCount source).incrementCount dest

/-- What a call can do. -/
inductive Outcome (c : NpuP2pCtrl) (call : PeerCall) : EStateM.Result P2pError NpuP2pCtrl PeerAccess → Prop
  | throws (e : P2pError)
      (h : ∀ source < c.numDevices, ∀ dest < c.numDevices, call.sourceDev = source → call.destDev = dest →
        c.status source dest = .unknown) :
      Outcome c call (.error e c)
  | known {source dest : ℕ} (hs : source < c.numDevices) (hd : dest < c.numDevices)
      (hsource : call.sourceDev = source) (hdest : call.destDev = dest) (h : c.status source dest ≠ .unknown) :
      Outcome c call (.ok ⟨(c.status source dest).toBool, call.flag⟩ c)
  | refused {source dest : ℕ} (flag : Bool) (hs : source < c.numDevices) (hd : dest < c.numDevices)
      (hsource : call.sourceDev = source) (hdest : call.destDev = dest) (h : c.status source dest = .unknown) :
      Outcome c call (.ok ⟨false, flag⟩ (c.setStatus source dest .copyNotAllowed))
  | enabled {source dest : ℕ} (hs : source < c.numDevices) (hd : dest < c.numDevices)
      (hsource : call.sourceDev = source) (hdest : call.destDev = dest) (h : c.status source dest = .unknown)
      (hlimit : (∀ v ∈ call.answers.socVersion, v < ascend910_9391) →
        c.enabledCount source < p2pAccessMaxNpus ∧ c.enabledCount dest < p2pAccessMaxNpus) :
      Outcome c call (.ok ⟨true, call.flag⟩ (c.enable source dest))

theorem checkDevice_eq (dev : ℤ) :
    ((∀ d : ℕ, d < c.numDevices → dev ≠ d) ∧ checkDevice dev c = .error (.notADevice dev) c) ∨
      ∃ d : ℕ, d < c.numDevices ∧ dev = d ∧ checkDevice dev c = .ok d c := by
  by_cases h : 0 ≤ dev ∧ dev < c.numDevices
  · refine .inr ⟨dev.toNat, by omega, by omega, ?_⟩
    show (if _ then _ else _ : M ℕ) c = _
    rw [if_pos h]
    rfl
  · refine .inl ⟨fun d hd => by omega, ?_⟩
    show (if _ then _ else _ : M ℕ) c = _
    rw [if_neg h]
    rfl

theorem aclResult_some {α : Type} (e : P2pError) (a : α) : aclResult e (some a) c = .ok a c :=
  rfl

theorem aclResult_none {α : Type} (e : P2pError) : (aclResult e none : M α) c = .error e c :=
  rfl

theorem enablePeerAccess_true : enablePeerAccess true c = .ok () c :=
  rfl

theorem enablePeerAccess_false : enablePeerAccess false c = .error .acl c :=
  rfl

/-- The queries and the enables come after the test of the limit. -/
theorem connect_outcome (hs : source < c.numDevices) (hd : dest < c.numDevices)
    (hsource : call.sourceDev = source) (hdest : call.destDev = dest) (h : c.status source dest = .unknown)
    (hlimit : (∀ v ∈ call.answers.socVersion, v < ascend910_9391) →
      c.enabledCount source < p2pAccessMaxNpus ∧ c.enabledCount dest < p2pAccessMaxNpus) :
    Outcome c call (connect source dest call.answers call.flag c) := by
  have hunknown : ∀ s < c.numDevices, ∀ d < c.numDevices, call.sourceDev = s → call.destDev = d →
      c.status s d = .unknown := by
    intro s _ d _ hs' hd'
    obtain rfl : source = s := by omega
    obtain rfl : dest = d := by omega
    exact h
  unfold connect
  rcases call.answers.resultS2d with _ | s2d
  · rw [bind_of_error (aclResult_none _)]
    exact .throws _ hunknown
  rcases call.answers.resultD2s with _ | d2s
  · rw [bind_of_ok (aclResult_some _ s2d), bind_of_error (aclResult_none _)]
    exact .throws _ hunknown
  rw [bind_of_ok (aclResult_some _ s2d), bind_of_ok (aclResult_some _ d2s)]
  split_ifs with hno
  · exact .refused true hs hd hsource hdest h
  rcases call.answers.enableS2d
  · rw [bind_of_error enablePeerAccess_false]
    exact .throws _ hunknown
  rcases call.answers.enableD2s
  · rw [bind_of_ok enablePeerAccess_true, bind_of_error enablePeerAccess_false]
    exact .throws _ hunknown
  · rw [bind_of_ok enablePeerAccess_true, bind_of_ok enablePeerAccess_true]
    exact .enabled hs hd hsource hdest h hlimit

/-- Every call ends in one of the outcomes. -/
theorem outcome (c : NpuP2pCtrl) (call : PeerCall) : Outcome c call (getP2pAccess call c) := by
  unfold getP2pAccess
  rcases checkDevice_eq (c := c) call.sourceDev with ⟨hno, h⟩ | ⟨source, hs, hsource, h⟩
  · rw [bind_of_error h]
    exact .throws _ fun s hs _ _ hsource => absurd hsource (hno s hs)
  rw [bind_of_ok h]
  rcases checkDevice_eq (c := c) call.destDev with ⟨hno, h⟩ | ⟨dest, hd, hdest, h⟩
  · rw [bind_of_error h]
    exact .throws _ fun _ _ d hd _ hdest => absurd hdest (hno d hd)
  rw [bind_of_ok h, bind_of_ok (show (get : M NpuP2pCtrl) c = .ok c c from rfl)]
  split_ifs with hknown
  · exact .known hs hd hsource hdest hknown
  rw [ne_eq, not_not] at hknown
  rcases hsoc : call.answers.socVersion with _ | v
  · rw [bind_of_error (aclResult_none _)]
    refine .throws _ fun s _ d _ hs' hd' => ?_
    obtain rfl : source = s := by omega
    obtain rfl : dest = d := by omega
    exact hknown
  rw [bind_of_ok (aclResult_some _ v)]
  split_ifs with hlimited
  · exact .refused call.flag hs hd hsource hdest hknown
  · refine connect_outcome hs hd hsource hdest hknown fun hold => ?_
    have hv : v < ascend910_9391 := hold v hsoc
    have hnone := fun h => hlimited ⟨hv, h⟩
    unfold limitedDevice at hnone
    split_ifs at hnone with h1 h2
    · exact absurd rfl hnone
    · exact absurd rfl hnone
    · exact ⟨Int8.not_le.mp h1, Int8.not_le.mp h2⟩

/-! ### The vectors -/

theorem row_le {s : ℕ} (h : i < s) : i * n + n ≤ s * n := by
  have := Nat.mul_le_mul_right n (Nat.succ_le_of_lt h)
  rwa [Nat.succ_mul] at this

/-- The place of a pair in the one-dimensional vector is that of no other pair. -/
theorem index_inj {s d : ℕ} (hd : d < n) (hj : j < n) : s * n + d = i * n + j ↔ s = i ∧ d = j := by
  constructor
  · intro h
    rcases lt_trichotomy s i with hlt | rfl | hlt
    · have := row_le (n := n) hlt
      omega
    · exact ⟨rfl, by omega⟩
    · have := row_le (n := n) hlt
      omega
  · rintro ⟨rfl, rfl⟩
    rfl

theorem index_lt (hi : i < n) (hj : j < n) : i * n + j < n * n := by
  have := row_le (n := n) hi
  omega

theorem getD_set {α : Type} (l : List α) (k m : ℕ) (a d : α) :
    (l.set k a).getD m d = if k = m ∧ k < l.length then a else l.getD m d := by
  rw [List.getD_eq_getElem?_getD, List.getD_eq_getElem?_getD, List.getElem?_set]
  split_ifs with h1 h2 h3 h3 h4
  · rfl
  · exact absurd ⟨h1, h2⟩ h3
  · exact absurd h3.2 h2
  · rw [List.getElem?_eq_none (by omega)]
  · exact absurd h4.1 h1
  · rfl

/-- What holds of the vectors after every call. -/
structure Consistent (c : NpuP2pCtrl) : Prop where
  numDevices_le : c.numDevices ≤ 127
  length_cache : c.p2pAccessEnabledCache.length = c.numDevices * c.numDevices
  length_count : c.deviceEnabledCount.length = c.numDevices
  self {i : ℕ} (hi : i < c.numDevices) : c.status i i = .copyAllowed
  symm {i j : ℕ} (hi : i < c.numDevices) (hj : j < c.numDevices) : c.status i j = c.status j i
  count {i : ℕ} (hi : i < c.numDevices) : (c.enabledCount i).toInt = (c.allowedPeers i).card

theorem status_setStatus (hc : c.p2pAccessEnabledCache.length = c.numDevices * c.numDevices)
    (hs : source < c.numDevices) (hd : dest < c.numDevices) (hj : j < c.numDevices) :
    (c.setStatus source dest status).status i j =
      if source = i ∧ dest = j ∨ dest = i ∧ source = j then status else c.status i j := by
  show ((c.p2pAccessEnabledCache.set _ _).set _ _).getD (i * c.numDevices + j) .unknown = _
  rw [getD_set, getD_set, List.length_set, hc]
  simp only [index_inj hs hj, index_inj hd hj, index_lt hs hd, index_lt hd hs, and_true]
  split_ifs with h1 h2 h3 h4 h5
  · rfl
  · exact absurd (.inr h1) h2
  · rfl
  · exact absurd (.inl h3) h4
  · exact absurd h5 (by tauto)
  · rfl

@[simp]
theorem numDevices_setStatus : (c.setStatus source dest status).numDevices = c.numDevices := rfl

@[simp]
theorem numDevices_enable : (c.enable source dest).numDevices = c.numDevices := rfl

theorem status_enable : (c.enable source dest).status i j = (c.setStatus source dest .copyAllowed).status i j := rfl

theorem enabledCount_enable (hc : c.deviceEnabledCount.length = c.numDevices) (hs : source < c.numDevices)
    (hd : dest < c.numDevices) (hne : source ≠ dest) :
    (c.enable source dest).enabledCount i =
      if source = i ∨ dest = i then c.enabledCount i + 1 else c.enabledCount i := by
  have hsd : ((c.setStatus source dest .copyAllowed).incrementCount source).enabledCount dest =
      c.enabledCount dest := by
    show (c.deviceEnabledCount.set source _).getD dest 0 = _
    rw [getD_set, if_neg fun h => hne h.1]
    rfl
  show ((c.deviceEnabledCount.set source (c.enabledCount source + 1)).set dest _).getD i 0 = _
  rw [hsd, getD_set, getD_set, List.length_set, hc]
  simp only [hs, hd, and_true]
  split_ifs with h1 h2 h3 h4 h5
  · rw [h1]
  · exact absurd (.inr h1) h2
  · rw [h3]
  · exact absurd (.inl h3) h4
  · exact absurd h5 (by tauto)
  · rfl

/-! ### The number of peers -/

theorem allowedPeers_setStatus (hc : Consistent c) (hs : source < c.numDevices) (hd : dest < c.numDevices)
    (h : c.status source dest = .unknown) :
    (c.setStatus source dest .copyNotAllowed).allowedPeers i = c.allowedPeers i := by
  have h' := (hc.symm hs hd).symm.trans h
  ext j
  rw [mem_allowedPeers, mem_allowedPeers, numDevices_setStatus]
  apply and_congr_right
  intro hj
  rw [status_setStatus hc.length_cache hs hd hj]
  split_ifs with hpair
  · rcases hpair with ⟨rfl, rfl⟩ | ⟨rfl, rfl⟩
    · simp [h]
    · simp [h']
  · rfl

/-- No device is its own peer, and the status of an unknown pair is not that of a peer. -/
theorem ne_of_unknown (hc : Consistent c) (hs : source < c.numDevices) (h : c.status source dest = .unknown) :
    source ≠ dest := by
  rintro rfl
  rw [hc.self hs] at h
  cases h

theorem allowedPeers_enable (hc : Consistent c) (hs : source < c.numDevices) (hd : dest < c.numDevices)
    (h : c.status source dest = .unknown) :
    (c.enable source dest).allowedPeers i =
      if source = i then insert dest (c.allowedPeers i)
      else if dest = i then insert source (c.allowedPeers i)
      else c.allowedPeers i := by
  have hne := ne_of_unknown hc hs h
  ext j
  rw [mem_allowedPeers, status_enable, numDevices_enable]
  by_cases hj : j < c.numDevices
  · rw [status_setStatus hc.length_cache hs hd hj]
    split_ifs <;> simp only [Finset.mem_insert, mem_allowedPeers] <;> grind
  · split_ifs <;> simp only [Finset.mem_insert, mem_allowedPeers] <;> grind

theorem notMem_allowedPeers (h : c.status source dest = .unknown) : dest ∉ c.allowedPeers source := by
  rw [mem_allowedPeers]
  simp [h]

theorem card_allowedPeers_lt (hi : i < c.numDevices) : (c.allowedPeers i).card < c.numDevices := by
  have hsub : c.allowedPeers i ⊆ (Finset.range c.numDevices).erase i := by
    intro j hj
    rw [mem_allowedPeers] at hj
    exact Finset.mem_erase.mpr ⟨hj.2.1, Finset.mem_range.mpr hj.1⟩
  have := Finset.card_le_card hsub
  rw [Finset.card_erase_of_mem (Finset.mem_range.mpr hi), Finset.card_range] at this
  omega

/-- The count of a device does not wrap around: there are too few other devices. -/
theorem toInt_enabledCount_add_one (hc : Consistent c) (hi : i < c.numDevices) :
    (c.enabledCount i + 1).toInt = (c.allowedPeers i).card + 1 := by
  have hlt := card_allowedPeers_lt hi
  have hle := hc.numDevices_le
  rw [Int8.toInt_add, hc.count hi, Int8.toInt_one]
  exact Int.bmod_eq_of_le (by omega) (by omega)

/-! ### What a call keeps -/

theorem Consistent.setStatus_copyNotAllowed (hc : Consistent c) (hs : source < c.numDevices)
    (hd : dest < c.numDevices) (h : c.status source dest = .unknown) :
    Consistent (c.setStatus source dest .copyNotAllowed) where
  numDevices_le := hc.numDevices_le
  length_cache := by
    show ((c.p2pAccessEnabledCache.set _ _).set _ _).length = _
    rw [List.length_set, List.length_set]
    exact hc.length_cache
  length_count := hc.length_count
  self {i} hi := by
    rw [status_setStatus hc.length_cache hs hd hi, if_neg, hc.self hi]
    have hne := ne_of_unknown hc hs h
    omega
  symm {i j} hi hj := by
    rw [status_setStatus hc.length_cache hs hd hj, status_setStatus hc.length_cache hs hd hi, hc.symm hi hj]
    grind
  count {i} hi := by
    rw [allowedPeers_setStatus hc hs hd h]
    exact hc.count hi

theorem Consistent.enable (hc : Consistent c) (hs : source < c.numDevices) (hd : dest < c.numDevices)
    (h : c.status source dest = .unknown) : Consistent (c.enable source dest) where
  numDevices_le := hc.numDevices_le
  length_cache := by
    show ((c.p2pAccessEnabledCache.set _ _).set _ _).length = _
    rw [List.length_set, List.length_set]
    exact hc.length_cache
  length_count := by
    show ((c.deviceEnabledCount.set _ _).set _ _).length = _
    rw [List.length_set, List.length_set]
    exact hc.length_count
  self {i} hi := by
    rw [status_enable, status_setStatus hc.length_cache hs hd hi, hc.self hi, ite_self]
  symm {i j} hi hj := by
    rw [status_enable, status_enable, status_setStatus hc.length_cache hs hd hj,
      status_setStatus hc.length_cache hs hd hi, hc.symm hi hj]
    grind
  count {i} hi := by
    have hne := ne_of_unknown hc hs h
    have h' := (hc.symm hs hd).symm.trans h
    rw [allowedPeers_enable hc hs hd h, enabledCount_enable hc.length_count hs hd hne]
    split_ifs with h1 h2 h3 h4
    · subst h2
      rw [toInt_enabledCount_add_one hc hi, Finset.card_insert_of_notMem (notMem_allowedPeers h)]
      rfl
    · subst h3
      rw [toInt_enabledCount_add_one hc hi, Finset.card_insert_of_notMem (notMem_allowedPeers h')]
      rfl
    · exact absurd h1 (by tauto)
    · exact absurd (.inl h4) h1
    · exact absurd (.inr ‹_›) h1
    · exact hc.count hi

/-- What is asked of one call, seen from outside. -/
theorem after_cases (c : NpuP2pCtrl) (call : PeerCall) :
    ∃ r, Outcome c call r ∧ (c.after call = match r with | .ok _ c' => c' | .error _ c' => c') ∧
      c.answered call = match r with | .ok access _ => some access.access | .error _ _ => none :=
  ⟨_, outcome c call, rfl, rfl⟩

theorem Consistent.after (hc : Consistent c) (call : PeerCall) : Consistent (c.after call) := by
  obtain ⟨r, hr, ha, -⟩ := after_cases c call
  rw [ha]
  cases hr with
  | throws e hu => exact hc
  | known hs hd hsource hdest h => exact hc
  | refused flag hs hd hsource hdest h => exact hc.setStatus_copyNotAllowed hs hd h
  | enabled hs hd hsource hdest h hlimit => exact hc.enable hs hd h

theorem numDevices_after (c : NpuP2pCtrl) (call : PeerCall) : (c.after call).numDevices = c.numDevices := by
  obtain ⟨r, hr, ha, -⟩ := after_cases c call
  rw [ha]
  cases hr <;> rfl

/-- A status other than `unknown` stays: a call writes only where the status is `unknown`. -/
theorem status_after (hc : Consistent c) (call : PeerCall) (hi : i < c.numDevices) (hj : j < c.numDevices)
    (h : c.status i j ≠ .unknown) : (c.after call).status i j = c.status i j := by
  have hpair {source dest : ℕ} (hs : source < c.numDevices) (hd : dest < c.numDevices)
      (hu : c.status source dest = .unknown) : ¬(source = i ∧ dest = j ∨ dest = i ∧ source = j) := by
    rintro (⟨rfl, rfl⟩ | ⟨rfl, rfl⟩)
    · exact h hu
    · exact h ((hc.symm hi hj).trans hu)
  obtain ⟨r, hr, ha, -⟩ := after_cases c call
  rw [ha]
  cases hr with
  | throws e hu => rfl
  | known hs hd hsource hdest hk => rfl
  | refused flag hs hd hsource hdest hu =>
    exact (status_setStatus hc.length_cache hs hd hj).trans (if_neg (hpair hs hd hu))
  | enabled hs hd hsource hdest hu hlimit =>
    exact (status_setStatus hc.length_cache hs hd hj).trans (if_neg (hpair hs hd hu))

/-- On the older SoCs the limit of the connections is kept. -/
theorem enabledCount_after_le (hc : Consistent c) {call : PeerCall}
    (hold : ∀ v ∈ call.answers.socVersion, v < ascend910_9391)
    (hle : ∀ i < c.numDevices, c.enabledCount i ≤ p2pAccessMaxNpus) (hi : i < c.numDevices) :
    (c.after call).enabledCount i ≤ p2pAccessMaxNpus := by
  obtain ⟨r, hr, ha, -⟩ := after_cases c call
  rw [ha]
  cases hr with
  | throws e hu => exact hle i hi
  | known hs hd hsource hdest h => exact hle i hi
  | refused flag hs hd hsource hdest h => exact hle i hi
  | enabled hs hd hsource hdest h hlimit =>
    show (c.enable _ _).enabledCount i ≤ _
    rw [enabledCount_enable hc.length_count hs hd (ne_of_unknown hc hs h)]
    have hsucc {k : ℕ} (hk : k < c.numDevices) (hlt : c.enabledCount k < p2pAccessMaxNpus) :
        c.enabledCount k + 1 ≤ p2pAccessMaxNpus := by
      rw [Int8.lt_iff_toInt_lt] at hlt
      rw [Int8.le_iff_toInt_le, toInt_enabledCount_add_one hc hk, ← hc.count hk]
      omega
    split_ifs with hpair
    · rcases hpair with rfl | rfl
      · exact hsucc hs (hlimit hold).1
      · exact hsucc hd (hlimit hold).2
    · exact hle i hi

/-! ### Sequences of calls -/

theorem Consistent.afterAll (hc : Consistent c) (calls : List PeerCall) : Consistent (c.afterAll calls) := by
  induction calls generalizing c with
  | nil => exact hc
  | cons call calls ih => exact ih (hc.after call)

theorem numDevices_afterAll (c : NpuP2pCtrl) (calls : List PeerCall) :
    (c.afterAll calls).numDevices = c.numDevices := by
  induction calls generalizing c with
  | nil => rfl
  | cons call calls ih => exact (ih (c.after call)).trans (numDevices_after c call)

theorem status_afterAll (hc : Consistent c) (calls : List PeerCall) (hi : i < c.numDevices) (hj : j < c.numDevices)
    (h : c.status i j ≠ .unknown) : (c.afterAll calls).status i j = c.status i j := by
  induction calls generalizing c with
  | nil => rfl
  | cons call calls ih =>
    have hcall := status_after hc call hi hj h
    rw [← numDevices_after c call] at hi hj
    exact (ih (hc.after call) hi hj (hcall ▸ h)).trans hcall

theorem enabledCount_afterAll_le (hc : Consistent c) {calls : List PeerCall}
    (hold : ∀ call ∈ calls, ∀ v ∈ call.answers.socVersion, v < ascend910_9391)
    (hle : ∀ i < c.numDevices, c.enabledCount i ≤ p2pAccessMaxNpus) (hi : i < c.numDevices) :
    (c.afterAll calls).enabledCount i ≤ p2pAccessMaxNpus := by
  induction calls generalizing c with
  | nil => exact hle i hi
  | cons call calls ih =>
    rw [List.forall_mem_cons] at hold
    refine ih (hc.after call) hold.2 (fun k hk => ?_) ?_
    · exact enabledCount_after_le hc hold.1 hle (numDevices_after c call ▸ hk)
    · rwa [numDevices_after]

/-! ### The state before the first call -/

theorem getD_foldl_set {α : Type} (f : ℕ → ℕ) (a d : α) (is : List ℕ) (l : List α) (m : ℕ) :
    (is.foldl (fun l i => l.set (f i) a) l).getD m d =
      if m < l.length ∧ m ∈ is.map f then a else l.getD m d := by
  induction is generalizing l with
  | nil => simp
  | cons i is ih =>
    rw [List.foldl_cons, ih, getD_set, List.length_set]
    simp only [List.map_cons, List.mem_cons]
    grind

theorem status_init (hi : i < n) (hj : j < n) :
    (init n).status i j = if i = j then .copyAllowed else .unknown := by
  show ((List.range n).foldl (fun (cache : List P2pStatus) i => cache.set (i * n + i) .copyAllowed) _).getD
    (i * n + j) _ = _
  rw [getD_foldl_set (fun i => i * n + i), List.length_replicate, List.getD_replicate _ (index_lt hi hj)]
  have hmem : i * n + j ∈ (List.range n).map (fun i => i * n + i) ↔ i = j := by
    simp only [List.mem_map, List.mem_range]
    constructor
    · rintro ⟨k, hk, heq⟩
      have := (index_inj hk hj).mp heq
      omega
    · rintro rfl
      exact ⟨i, hi, rfl⟩
  simp only [index_lt hi hj, hmem, true_and]

theorem length_foldl_set {α : Type} (f : ℕ → ℕ) (a : α) (is : List ℕ) (l : List α) :
    (is.foldl (fun l i => l.set (f i) a) l).length = l.length := by
  induction is generalizing l with
  | nil => rfl
  | cons i is ih => exact (ih _).trans List.length_set

theorem allowedPeers_init (hi : i < n) : (init n).allowedPeers i = ∅ := by
  ext j
  rw [mem_allowedPeers]
  constructor
  · rintro ⟨hj, hne, h⟩
    rw [status_init hi hj, if_neg (Ne.symm hne)] at h
    cases h
  · intro h
    exact absurd h (Finset.notMem_empty j)

theorem enabledCount_init (hi : i < n) : (init n).enabledCount i = 0 :=
  List.getD_replicate _ hi

theorem consistent_init (hn : n ≤ 127) : Consistent (init n) where
  numDevices_le := hn
  length_cache := (length_foldl_set (fun i => i * n + i) _ _ _).trans List.length_replicate
  length_count := List.length_replicate
  self hi := (status_init hi hi).trans (if_pos rfl)
  symm {i j} hi hj := by
    show (init n).status i j = (init n).status j i
    rw [status_init (n := n) hi hj, status_init (n := n) hj hi]
    simp only [eq_comm]
  count {i} hi := by
    show ((init n).enabledCount i).toInt = ((init n).allowedPeers i).card
    rw [allowedPeers_init (n := n) hi, enabledCount_init (n := n) hi]
    rfl

theorem consistent_new {devCount : UInt32} (h : new devCount = some c) : Consistent c ∧ c = init c.numDevices := by
  unfold new at h
  simp only at h
  split_ifs at h with hneg
  obtain rfl := Option.some.inj h
  have hlt := devCount.toUInt8.toInt8.toInt_lt
  exact ⟨consistent_init (by omega), rfl⟩

/-! ### The main result -/

/-- The same two devices, in one order or the other. -/
def SamePair (call call' : PeerCall) : Prop :=
  call'.sourceDev = call.sourceDev ∧ call'.destDev = call.destDev ∨
    call'.sourceDev = call.destDev ∧ call'.destDev = call.sourceDev

/-- A call for a pair of known status gives the answer of that status. -/
theorem answered_of_known (hs : source < c.numDevices) (hd : dest < c.numDevices)
    (hsource : call.sourceDev = source) (hdest : call.destDev = dest) (h : c.status source dest ≠ .unknown) :
    c.answered call = some (c.status source dest).toBool := by
  have hsame {s d : ℕ} (hs' : call.sourceDev = s) (hd' : call.destDev = d) : s = source ∧ d = dest := by omega
  obtain ⟨r, hr, -, ha⟩ := after_cases c call
  rw [ha]
  cases hr with
  | throws e hu => exact absurd (hu source hs dest hd hsource hdest) h
  | known hs' hd' hsource' hdest' h' =>
    obtain ⟨rfl, rfl⟩ := hsame hsource' hdest'
    rfl
  | refused flag hs' hd' hsource' hdest' hu =>
    obtain ⟨rfl, rfl⟩ := hsame hsource' hdest'
    exact absurd hu h
  | enabled hs' hd' hsource' hdest' hu hlimit =>
    obtain ⟨rfl, rfl⟩ := hsame hsource' hdest'
    exact absurd hu h

/-- After an answer the status of the pair is known, and the answer is that of the status. -/
theorem known_of_answered (hc : Consistent c) {b : Bool} (h : c.answered call = some b) :
    ∃ source dest : ℕ, source < c.numDevices ∧ dest < c.numDevices ∧ call.sourceDev = source ∧
      call.destDev = dest ∧ (c.after call).status source dest ≠ .unknown ∧
      ((c.after call).status source dest).toBool = b := by
  obtain ⟨r, hr, ha, hb⟩ := after_cases c call
  rw [hb] at h
  rw [ha]
  cases hr with
  | throws e hu => cases h
  | known hs hd hsource hdest hk =>
    exact ⟨_, _, hs, hd, hsource, hdest, hk, Option.some.inj h⟩
  | @refused source dest flag hs hd hsource hdest hu =>
    have hstatus : (c.setStatus source dest .copyNotAllowed).status source dest = .copyNotAllowed :=
      (status_setStatus hc.length_cache hs hd hd).trans (if_pos (.inl ⟨rfl, rfl⟩))
    refine ⟨_, _, hs, hd, hsource, hdest, ?_, ?_⟩
    · simp [hstatus]
    · rw [hstatus]
      exact Option.some.inj h
  | @enabled source dest hs hd hsource hdest hu hlimit =>
    have hstatus : (c.enable source dest).status source dest = .copyAllowed :=
      (status_setStatus hc.length_cache hs hd hd).trans (if_pos (.inl ⟨rfl, rfl⟩))
    refine ⟨_, _, hs, hd, hsource, hdest, ?_, ?_⟩
    · simp [hstatus]
    · rw [hstatus]
      exact Option.some.inj h

theorem after_of_throws (h : c.answered call = none) : c.after call = c := by
  obtain ⟨r, hr, ha, hb⟩ := after_cases c call
  rw [hb] at h
  rw [ha]
  cases hr with
  | throws e hu => rfl
  | known hs hd hsource hdest hk => cases h
  | refused flag hs hd hsource hdest hu => cases h
  | enabled hs hd hsource hdest hu hlimit => cases h

theorem answered_later (hc : Consistent c) {b : Bool} (h : c.answered call = some b) (later : List PeerCall)
    {call' : PeerCall} (hpair : SamePair call call') :
    ((c.after call).afterAll later).answered call' = some b := by
  obtain ⟨source, dest, hs, hd, hsource, hdest, hknown, hb⟩ := known_of_answered hc h
  have hc' := hc.after call
  rw [← numDevices_after c call] at hs hd
  have hlater := status_afterAll hc' later hs hd hknown
  have hsymm := (hc'.afterAll later).symm (numDevices_afterAll (c.after call) later ▸ hs)
    (numDevices_afterAll (c.after call) later ▸ hd)
  rw [← numDevices_afterAll (c.after call) later] at hs hd
  rcases hpair with ⟨hsource', hdest'⟩ | ⟨hsource', hdest'⟩
  · rw [answered_of_known hs hd (hsource'.trans hsource) (hdest'.trans hdest) (hlater ▸ hknown), hlater, hb]
  · rw [answered_of_known hd hs (hsource'.trans hdest) (hdest'.trans hsource) (hsymm ▸ hlater ▸ hknown),
      ← hsymm, hlater, hb]

/-- After any calls, whichever of them the driver failed: the statuses are symmetric; the count of a device is the
    number of its peers, and on the older SoCs at most 8; a call that throws changes nothing; and an answer is the
    answer of every later call for the two devices. -/
theorem peer_access_bookkeeping {devCount : UInt32} {c₀ : NpuP2pCtrl} (hnew : new devCount = some c₀)
    (calls : List PeerCall) :
    let c := c₀.afterAll calls
    (∀ i < c.numDevices, ∀ j < c.numDevices, c.status i j = c.status j i) ∧
    (∀ i < c.numDevices, (c.enabledCount i).toInt = (c.allowedPeers i).card) ∧
    ((∀ call ∈ calls, ∀ v ∈ call.answers.socVersion, v < ascend910_9391) →
      ∀ i < c.numDevices, c.enabledCount i ≤ p2pAccessMaxNpus) ∧
    (∀ call, c.answered call = none → c.after call = c) ∧
    ∀ call b, c.answered call = some b → ∀ later call', SamePair call call' →
      ((c.after call).afterAll later).answered call' = some b := by
  obtain ⟨hc₀, hinit⟩ := consistent_new hnew
  have hc := hc₀.afterAll calls
  refine ⟨fun i hi j hj => hc.symm hi hj, fun i hi => hc.count hi, fun hold i hi => ?_,
    fun call h => after_of_throws h, fun call b h later call' hpair => answered_later hc h later hpair⟩
  rw [numDevices_afterAll] at hi
  refine enabledCount_afterAll_le hc₀ hold (fun k hk => ?_) hi
  rw [hinit, enabledCount_init hk]
  decide

/-- Two devices, and a call for which the driver fails the second enable. -/
theorem peer_access_bookkeeping_two :
    let c := (init 2).afterAll [⟨0, 1, false, ⟨some 220, some 1, some 1, true, false⟩⟩]
    (∀ i < c.numDevices, ∀ j < c.numDevices, c.status i j = c.status j i) ∧
    (∀ i < c.numDevices, (c.enabledCount i).toInt = (c.allowedPeers i).card) ∧
    ((∀ call ∈ [(⟨0, 1, false, ⟨some 220, some 1, some 1, true, false⟩⟩ : PeerCall)],
      ∀ v ∈ call.answers.socVersion, v < ascend910_9391) →
      ∀ i < c.numDevices, c.enabledCount i ≤ p2pAccessMaxNpus) ∧
    (∀ call, c.answered call = none → c.after call = c) ∧
    ∀ call b, c.answered call = some b → ∀ later call', SamePair call call' →
      ((c.after call).afterAll later).answered call' = some b :=
  peer_access_bookkeeping (by decide : new 2 = some (init 2)) _

end TorchNpu.Core.NpuP2pCtrl
