/-
  The operator that a time belongs to.

  `match_child_node` does not compare the time with the start of the first child: before the first child it returns
  the first child.  Wherever the search comes to a list of children that has begun by then, it follows the path of the
  nodes that contain the time.
-/
import TorchNpu.Profiler.TorchOpNode
import Mathlib.Data.List.Pairwise
import Mathlib.Data.Int.Order.Basic

namespace TorchNpu.Profiler.TorchOpNode

variable {ts : ℤ} {c d : TorchOpNode} {cs : List TorchOpNode}

/-! ### Trees -/

section Fields

variable (startTime endTime : ℤ) (childList : List TorchOpNode) (corrIdTotal corrIdSelf : List ℤ)

@[simp] theorem startTime_mk : (mk startTime endTime childList corrIdTotal corrIdSelf).startTime = startTime := rfl

@[simp] theorem endTime_mk : (mk startTime endTime childList corrIdTotal corrIdSelf).endTime = endTime := rfl

@[simp] theorem childList_mk : (mk startTime endTime childList corrIdTotal corrIdSelf).childList = childList := rfl

@[simp] theorem corrIdTotal_mk :
    (mk startTime endTime childList corrIdTotal corrIdSelf).corrIdTotal = corrIdTotal := rfl

@[simp] theorem corrIdSelf_mk : (mk startTime endTime childList corrIdTotal corrIdSelf).corrIdSelf = corrIdSelf := rfl

end Fields

def Contains (ts : ℤ) (c : TorchOpNode) : Prop :=
  c.startTime ≤ ts ∧ ts < c.endTime

instance : Decidable (c.Contains ts) :=
  inferInstanceAs (Decidable (_ ∧ _))

/-- `c` stands in front of `d` among the children of a node. -/
def Before (c d : TorchOpNode) : Prop :=
  c.startTime ≤ d.startTime ∧ c.endTime ≤ d.startTime

/-- A tree in which the children of each node are sorted and disjoint. -/
inductive Siblings : List TorchOpNode → Prop
  | mk {cs : List TorchOpNode} : cs.Pairwise Before → (∀ c ∈ cs, Siblings c.childList) → Siblings cs

/-- Each list of children that the nodes with the time lead to is empty, has begun at the time, or begins with a child
that ends before. -/
inductive Begun (ts : ℤ) : List TorchOpNode → Prop
  | mk {cs : List TorchOpNode} : (∀ c ∈ cs.head?, c.startTime ≤ ts ∨ c.endTime ≤ ts) →
      (∀ c ∈ cs, c.Contains ts → Begun ts c.childList) → Begun ts cs

/-! ### What the search is for -/

mutual

/-- The time is added to the nodes with the time, and to the innermost one as its own. -/
def addTo (ts : ℤ) : TorchOpNode → TorchOpNode
  | .mk startTime endTime childList corrIdTotal corrIdSelf =>
    if startTime ≤ ts ∧ ts < endTime then
      .mk startTime endTime (addToAll ts childList) (corrIdTotal ++ [ts])
        (if childList.any fun child => child.Contains ts then corrIdSelf else corrIdSelf ++ [ts])
    else .mk startTime endTime childList corrIdTotal corrIdSelf

def addToAll (ts : ℤ) : List TorchOpNode → List TorchOpNode
  | [] => []
  | child :: childList => addTo ts child :: addToAll ts childList

end

mutual

/-- The innermost node with the time, from a node on that has it. -/
def innermost (ts : ℤ) : TorchOpNode → TorchOpNode
  | .mk startTime endTime childList corrIdTotal corrIdSelf =>
    (innermostIn ts childList).getD (.mk startTime endTime childList corrIdTotal corrIdSelf)

def innermostIn (ts : ℤ) : List TorchOpNode → Option TorchOpNode
  | [] => none
  | child :: childList => if child.Contains ts then some (innermost ts child) else innermostIn ts childList

end

/-! ### `match_child_node` -/

/-- The loop ends at the last child that has begun, or at the first child if none has. -/
theorem matchLoop_spec {rounds left right : ℕ} (hsorted : cs.Pairwise Before) (hright : right < cs.length)
    (hrounds : right ≤ left + rounds) (hle : left ≤ right)
    (hleft : ∀ h : left < cs.length, left = 0 ∨ cs[left].startTime ≤ ts)
    (hafter : ∀ k (h : k < cs.length), right < k → ts < cs[k].startTime) :
    let m := matchLoop ts cs rounds left right
    m < cs.length ∧ (∀ h : m < cs.length, m = 0 ∨ cs[m].startTime ≤ ts) ∧
      ∀ k (h : k < cs.length), m < k → ts < cs[k].startTime := by
  induction rounds generalizing left right with
  | zero =>
    obtain rfl : left = right := by omega
    exact ⟨hright, hleft, hafter⟩
  | succ rounds ih =>
    unfold matchLoop
    dsimp only
    split_ifs with hlt hmid
    · -- The child in the middle has begun.
      have hmid_lt : left + (right - left + 1) / 2 < cs.length := by omega
      rw [List.getElem?_eq_getElem hmid_lt, Option.any_some, decide_eq_true_eq] at hmid
      exact ih hright (by omega) (by omega) (fun _ => .inr hmid) hafter
    · have hmid_lt : left + (right - left + 1) / 2 < cs.length := by omega
      rw [List.getElem?_eq_getElem hmid_lt, Option.any_some, decide_eq_true_eq, Int.not_le] at hmid
      refine ih (by omega) (by omega) (by omega) hleft fun k hk hlt' => ?_
      rcases Nat.lt_or_ge (left + (right - left + 1) / 2) k with hlarge | hsmall
      · have hbefore := List.pairwise_iff_getElem.mp hsorted _ k hmid_lt hk hlarge
        exact Int.lt_of_lt_of_le hmid hbefore.1
      · obtain rfl : k = left + (right - left + 1) / 2 := by omega
        exact hmid
    · obtain rfl : left = right := by omega
      exact ⟨hright, hleft, hafter⟩

/-- Where the search among the children ends. -/
theorem matchChildIndex_spec (ts : ℤ) (hsorted : cs.Pairwise Before) (hne : cs ≠ []) :
    ∃ m, ∃ h : m < cs.length, matchChildIndex ts cs = (if ts < cs[m].endTime then some m else none) ∧
      (m = 0 ∨ cs[m].startTime ≤ ts) ∧ ∀ k (h : k < cs.length), m < k → ts < cs[k].startTime := by
  have hlength := List.length_pos_iff.mpr hne
  have hrounds : cs.length - 1 ≤ 0 + cs.length := by omega
  have hafter : ∀ k (h : k < cs.length), cs.length - 1 < k → ts < cs[k].startTime := by
    intro k hk hlt
    omega
  obtain ⟨hm, hstart, hafter⟩ := matchLoop_spec hsorted (Nat.sub_one_lt_of_lt hlength) hrounds (Nat.zero_le _)
    (fun _ => .inl rfl) hafter
  refine ⟨_, hm, ?_, hstart hm, hafter⟩
  unfold matchChildIndex
  cases cs with
  | nil => exact absurd rfl hne
  | cons c cs =>
    dsimp only
    rw [List.getElem?_eq_getElem hm, Option.any_some]
    simp only [decide_eq_true_eq]

/-- The child with the time is found. -/
theorem matchChildIndex_of_contains (hsorted : cs.Pairwise Before) {i : ℕ} (hi : i < cs.length)
    (hcontains : cs[i].Contains ts) : matchChildIndex ts cs = some i := by
  obtain ⟨m, hm, heq, hstart, hafter⟩ := matchChildIndex_spec ts hsorted (List.ne_nil_of_length_pos (by omega))
  have hle : i ≤ m := by
    by_contra hlt
    exact absurd hcontains.1 (Int.not_le.mpr (hafter i hi (Nat.not_le.mp hlt)))
  rcases Nat.eq_or_lt_of_le hle with rfl | hlt
  · rw [heq, if_pos hcontains.2]
  · -- Another child begins after this one has ended.
    have hbefore := (List.pairwise_iff_getElem.mp hsorted i m hi hm hlt).2
    have hstart := hstart.resolve_left (by omega)
    exact absurd hcontains.2 (Int.not_lt.mpr (Int.le_trans hbefore hstart))

/-- Without a child with the time, none is found if the first child has begun or has ended. -/
theorem matchChildIndex_eq_none (hsorted : cs.Pairwise Before)
    (hhead : ∀ c ∈ cs.head?, c.startTime ≤ ts ∨ c.endTime ≤ ts) (hnone : ∀ c ∈ cs, ¬c.Contains ts) :
    matchChildIndex ts cs = none := by
  rcases eq_or_ne cs [] with rfl | hne
  · rfl
  obtain ⟨m, hm, heq, hstart, -⟩ := matchChildIndex_spec ts hsorted hne
  rw [heq, if_neg]
  intro hend
  refine hnone cs[m] (List.getElem_mem hm) ⟨?_, hend⟩
  rcases hstart with rfl | hstart
  · have hmem : cs[0] ∈ cs.head? := by
      rw [List.head?_eq_getElem?, List.getElem?_eq_getElem hm]
      exact rfl
    exact (hhead cs[0] hmem).resolve_right (Int.not_le.mpr hend)
  · exact hstart

/-- Before the first child the first child is found. -/
theorem matchChildIndex_of_early (hsorted : (c :: cs).Pairwise Before) (hstart : ts < c.startTime)
    (hend : ts < c.endTime) : matchChildIndex ts (c :: cs) = some 0 := by
  obtain ⟨m, hm, heq, hm', -⟩ := matchChildIndex_spec ts hsorted (List.cons_ne_nil c cs)
  obtain rfl : m = 0 := by
    rcases hm' with rfl | hm'
    · rfl
    rcases Nat.eq_zero_or_pos m with rfl | hpos
    · rfl
    have hbefore : c.startTime ≤ _ := (List.pairwise_iff_getElem.mp hsorted 0 m (by simp) hm hpos).1
    exact absurd (Int.lt_of_lt_of_le hstart (Int.le_trans hbefore hm')) (Int.lt_irrefl _)
  rw [heq]
  exact if_pos hend

/-! ### The descent -/

theorem updateAt_eq (i : ℕ) : updateAt ts i cs = cs.modify i (updateNode ts) := by
  induction cs generalizing i with
  | nil => cases i <;> rfl
  | cons c cs ih =>
    cases i with
    | zero => rfl
    | succ i => rw [updateAt, ih, List.modify_succ_cons]

theorem selfAt_eq (i : ℕ) : selfAt ts i cs = cs[i]?.map (selfTorchOp ts) := by
  induction cs generalizing i with
  | nil => cases i <;> rfl
  | cons c cs ih =>
    cases i with
    | zero => rfl
    | succ i => rw [selfAt, ih, List.getElem?_cons_succ]

theorem addToAll_eq : addToAll ts cs = cs.map (addTo ts) := by
  induction cs with
  | nil => rfl
  | cons c cs ih => rw [addToAll, ih, List.map_cons]

theorem addTo_of_not_contains (h : ¬c.Contains ts) : addTo ts c = c := by
  cases c with
  | mk startTime endTime childList corrIdTotal corrIdSelf =>
    unfold addTo
    exact if_neg h

theorem updateNode_eq : updateNode ts c = .mk c.startTime c.endTime (updateTreeNodeInfo ts c.childList)
    (c.corrIdTotal ++ [ts])
    (if (matchChildIndex ts c.childList).isSome then c.corrIdSelf else c.corrIdSelf ++ [ts]) := by
  cases c with
  | mk startTime endTime childList corrIdTotal corrIdSelf =>
    unfold updateNode updateTreeNodeInfo
    cases h : matchChildIndex ts childList with
    | none => simp [h]
    | some i => simp [h]

theorem selfTorchOp_eq : selfTorchOp ts c = (matchSelfTorchOp ts c.childList).getD c := by
  cases c with
  | mk startTime endTime childList corrIdTotal corrIdSelf =>
    unfold selfTorchOp matchSelfTorchOp
    cases h : matchChildIndex ts childList with
    | none => simp [h]
    | some i => simp [h]

theorem addTo_of_contains (h : c.Contains ts) : addTo ts c = .mk c.startTime c.endTime (addToAll ts c.childList)
    (c.corrIdTotal ++ [ts])
    (if c.childList.any fun child => child.Contains ts then c.corrIdSelf else c.corrIdSelf ++ [ts]) := by
  cases c with
  | mk startTime endTime childList corrIdTotal corrIdSelf =>
    unfold addTo
    exact if_pos h

theorem innermost_eq : innermost ts c = (innermostIn ts c.childList).getD c := by
  cases c with
  | mk startTime endTime childList corrIdTotal corrIdSelf =>
    rw [innermost]
    rfl

/-! ### Trees and times -/

/-- At most one child has the time. -/
theorem map_addTo_eq_modify (hsorted : cs.Pairwise Before) {i : ℕ} (hi : i < cs.length)
    (hcontains : cs[i].Contains ts) : cs.map (addTo ts) = cs.modify i (addTo ts) := by
  refine List.ext_getElem (by simp) fun k hk hk' => ?_
  rw [List.getElem_map, List.getElem_modify]
  split_ifs with hik
  · rfl
  · refine addTo_of_not_contains fun hother => hik ?_
    have hfound := matchChildIndex_of_contains hsorted hi hcontains
    exact Option.some.inj (hfound.symm.trans (matchChildIndex_of_contains hsorted (by simpa using hk) hother))

theorem find?_of_contains (hsorted : cs.Pairwise Before) (hmem : c ∈ cs) (hcontains : c.Contains ts) :
    cs.find? (fun c => c.Contains ts) = some c := by
  induction cs with
  | nil => cases hmem
  | cons d cs ih =>
    rw [List.pairwise_cons] at hsorted
    by_cases hd : d.Contains ts
    · rw [List.find?_cons_of_pos (by simpa using hd)]
      rcases List.mem_cons.mp hmem with rfl | hmem
      · rfl
      · -- The next child begins after the first one has ended.
        have hbefore := (hsorted.1 c hmem).2
        exact absurd hd.2 (Int.not_lt.mpr (Int.le_trans hbefore hcontains.1))
    · rw [List.find?_cons_of_neg (by simpa using hd)]
      rcases List.mem_cons.mp hmem with rfl | hmem
      · exact absurd hcontains hd
      · exact ih hsorted.2 hmem

theorem innermostIn_eq : innermostIn ts cs = (cs.find? fun c => c.Contains ts).map (innermost ts) := by
  induction cs with
  | nil => rfl
  | cons c cs ih =>
    rw [innermostIn]
    split_ifs with hc
    · rw [List.find?_cons_of_pos (by simpa using hc), Option.map_some]
    · rw [List.find?_cons_of_neg (by simpa using hc), ih]

theorem matchChildNode_eq (hsorted : cs.Pairwise Before)
    (hhead : ∀ c ∈ cs.head?, c.startTime ≤ ts ∨ c.endTime ≤ ts) :
    matchChildNode ts cs = cs.find? fun c => c.Contains ts := by
  unfold matchChildNode
  by_cases hany : ∃ c ∈ cs, c.Contains ts
  · obtain ⟨c, hmem, hcontains⟩ := hany
    obtain ⟨i, hi, rfl⟩ := List.getElem_of_mem hmem
    rw [matchChildIndex_of_contains hsorted hi hcontains, find?_of_contains hsorted hmem hcontains, Option.bind_some,
      List.getElem?_eq_getElem hi]
  · have hnone : ∀ c ∈ cs, ¬c.Contains ts := fun c hc hcontains => hany ⟨c, hc, hcontains⟩
    rw [matchChildIndex_eq_none hsorted hhead hnone, List.find?_eq_none.mpr (by simpa using hnone), Option.bind_none]

theorem isSome_matchChildIndex (hsorted : cs.Pairwise Before)
    (hhead : ∀ c ∈ cs.head?, c.startTime ≤ ts ∨ c.endTime ≤ ts) :
    (matchChildIndex ts cs).isSome = cs.any fun c => c.Contains ts := by
  rw [Bool.eq_iff_iff, List.any_eq_true]
  constructor
  · intro hsome
    by_contra hany
    push Not at hany
    rw [matchChildIndex_eq_none hsorted hhead (by simpa using hany)] at hsome
    cases hsome
  · rintro ⟨c, hmem, hcontains⟩
    obtain ⟨i, hi, rfl⟩ := List.getElem_of_mem hmem
    rw [matchChildIndex_of_contains hsorted hi (of_decide_eq_true hcontains)]
    rfl

theorem updateTreeNodeInfo_of_contains (hsorted : cs.Pairwise Before) {i : ℕ} (hi : i < cs.length)
    (hcontains : cs[i].Contains ts) : updateTreeNodeInfo ts cs = cs.modify i (updateNode ts) := by
  unfold updateTreeNodeInfo
  rw [matchChildIndex_of_contains hsorted hi hcontains]
  exact updateAt_eq i

/-- Where the lists have begun, the search follows the nodes with the time. -/
theorem Begun.search (hbegun : Begun ts cs) (h : Siblings cs) :
    updateTreeNodeInfo ts cs = addToAll ts cs ∧ matchSelfTorchOp ts cs = innermostIn ts cs := by
  induction hbegun with
  | @mk cs hhead hinner ih =>
    obtain ⟨hsorted, hchildren⟩ := h
    rw [addToAll_eq, innermostIn_eq]
    by_cases hany : ∃ c ∈ cs, c.Contains ts
    · obtain ⟨c, hmem, hcontains⟩ := hany
      obtain ⟨i, hi, rfl⟩ := List.getElem_of_mem hmem
      obtain ⟨hupdate, hself⟩ := ih _ hmem hcontains (hchildren _ hmem)
      obtain ⟨hhead', -⟩ := hinner _ hmem hcontains
      obtain ⟨hsorted', -⟩ := hchildren _ hmem
      have hnode : updateNode ts cs[i] = addTo ts cs[i] := by
        rw [updateNode_eq, addTo_of_contains hcontains, hupdate, isSome_matchChildIndex hsorted' hhead']
      constructor
      · rw [updateTreeNodeInfo_of_contains hsorted hi hcontains, map_addTo_eq_modify hsorted hi hcontains]
        refine List.ext_getElem (by simp) fun k hk hk' => ?_
        rw [List.getElem_modify, List.getElem_modify]
        split_ifs with hik
        · subst hik
          exact hnode
        · rfl
      · unfold matchSelfTorchOp
        rw [matchChildIndex_of_contains hsorted hi hcontains, Option.bind_some, selfAt_eq,
          List.getElem?_eq_getElem hi, find?_of_contains hsorted hmem hcontains, Option.map_some, Option.map_some,
          selfTorchOp_eq, hself, innermost_eq]
    · have hnone : ∀ c ∈ cs, ¬c.Contains ts := fun c hc hcontains => hany ⟨c, hc, hcontains⟩
      have hidx := matchChildIndex_eq_none hsorted hhead hnone
      unfold updateTreeNodeInfo matchSelfTorchOp
      rw [hidx, List.find?_eq_none.mpr (by simpa using hnone)]
      refine ⟨?_, rfl⟩
      have hmap := List.map_congr_left fun c hc => addTo_of_not_contains (hnone c hc)
      rw [hmap, List.map_id']

/-- The search goes wrong before the first child. -/
theorem Siblings.begun (h : Siblings cs) (hupdate : updateTreeNodeInfo ts cs = addToAll ts cs) : Begun ts cs := by
  induction h with
  | @mk cs hsorted _ ih =>
    rw [addToAll_eq] at hupdate
    refine ⟨fun c hc => ?_, fun c hmem hcontains => ih c hmem ?_⟩
    · by_contra hearly
      push Not at hearly
      cases cs with
      | nil => cases hc
      | cons d cs =>
        obtain rfl := Option.some.inj hc
        unfold updateTreeNodeInfo at hupdate
        rw [matchChildIndex_of_early hsorted hearly.1 hearly.2] at hupdate
        have hd := (List.cons.inj hupdate).1
        rw [addTo_of_not_contains fun hcontains => Int.not_le.mpr hearly.1 hcontains.1, updateNode_eq] at hd
        have hlength := congrArg (fun node => node.corrIdTotal.length) hd
        simp at hlength
    · obtain ⟨i, hi, rfl⟩ := List.getElem_of_mem hmem
      rw [updateTreeNodeInfo_of_contains hsorted hi hcontains, map_addTo_eq_modify hsorted hi hcontains] at hupdate
      have hnode : updateNode ts cs[i] = addTo ts cs[i] := by
        have hget := congrArg (fun nodes => nodes[i]?) hupdate
        simpa [List.getElem?_modify, hi] using hget
      rw [updateNode_eq, addTo_of_contains hcontains] at hnode
      exact (TorchOpNode.mk.inj hnode).2.2.1

/-- A time is matched and attributed to the nodes that contain it exactly if the lists of children on the way have
begun by then. -/
theorem search_sound_iff {root : List TorchOpNode} (h : Siblings root) (ts : ℤ) :
    (matchChildNode ts root = (root.find? fun c => c.Contains ts) ∧ updateTreeNodeInfo ts root = addToAll ts root ∧
        matchSelfTorchOp ts root = innermostIn ts root) ↔ Begun ts root := by
  constructor
  · rintro ⟨-, hupdate, -⟩
    exact h.begun hupdate
  · intro hbegun
    have hsearch := hbegun.search h
    obtain ⟨hsorted, -⟩ := h
    obtain ⟨hhead, -⟩ := hbegun
    exact ⟨matchChildNode_eq hsorted hhead, hsearch⟩

/-- An operator with two others in it, at a time in the second one. -/
theorem search_sound_iff_second :
    let root : List TorchOpNode := [.mk 0 10 [.mk 1 3 [] [] [], .mk 4 8 [] [] []] [] []]
    (matchChildNode 5 root = (root.find? fun c => c.Contains 5) ∧ updateTreeNodeInfo 5 root = addToAll 5 root ∧
        matchSelfTorchOp 5 root = innermostIn 5 root) ↔ Begun 5 root := by
  apply search_sound_iff
  have hleaf : ∀ (startTime endTime : ℤ), Siblings (mk startTime endTime [] [] []).childList := fun _ _ =>
    ⟨List.Pairwise.nil, List.forall_mem_nil _⟩
  refine ⟨List.pairwise_singleton _ _, List.forall_mem_singleton.mpr ⟨?_, ?_⟩⟩
  · exact List.pairwise_pair.mpr ⟨by decide, by decide⟩
  · exact List.forall_mem_cons.mpr ⟨hleaf 1 3, List.forall_mem_singleton.mpr (hleaf 4 8)⟩

/-- A time before the only operator. -/
theorem not_search_sound :
    ¬∀ (root : List TorchOpNode), Siblings root → ∀ ts,
      matchChildNode ts root = (root.find? fun c => c.Contains ts) ∧ updateTreeNodeInfo ts root = addToAll ts root ∧
        matchSelfTorchOp ts root = innermostIn ts root := by
  intro hsound
  have hleaf : Siblings [] := ⟨List.Pairwise.nil, List.forall_mem_nil _⟩
  have hroot : Siblings [mk 4 8 [] [] []] := ⟨List.pairwise_singleton _ _, List.forall_mem_singleton.mpr hleaf⟩
  have hmatch := (hsound _ hroot 2).1
  have hsome := congrArg Option.isSome hmatch
  exact absurd hsome (by decide)

end TorchNpu.Profiler.TorchOpNode
