/-
  When remapping a legacy checkpoint preserves the object.

  Every object of the heap stands for one of the checkpoint: a list or a dict for itself, a copy for what it was made
  from.  A copy is only found in one place, that is, at one index of what one object was made from.
-/
import TorchNpu.Utils.Serialization
import Mathlib.Data.Set.Insert
import Mathlib.Logic.Function.Basic

namespace TorchNpu.Utils.Serialization

open Paths

variable {V L : Type}

namespace Obj

def mapParts (f : Ref → Ref) : Obj V L → Obj V L
  | tuple cls first rest => tuple cls (f first) (rest.map f)
  | set elems => set (elems.map f)
  | list elems => list (elems.map f)
  | dict items => dict (items.map fun item => (item.1, f item.2))
  | o => o

/-- What an object is without its parts. -/
def label (o : Obj V L) : Obj V L :=
  o.mapParts fun _ => 0

def moved (mapLocation : L) : Obj V L → Obj V L
  | tensor content _ => tensor content mapLocation
  | o => o

/-- The objects that are not changed in place. -/
def IsRebuilt : Obj V L → Prop
  | tensor _ _ | tuple _ _ _ | set _ => True
  | _ => False

/-- What a copy is. -/
def rebuilt (mapLocation : L) : Obj V L → Obj V L
  | tensor content _ => tensor content mapLocation
  | tuple _ first rest => tuple none first rest
  | o => o

end Obj

/-- The object at a path. -/
def Heap.look (heap : Heap V L) (root : Ref) (path : List ℕ) : Option (Obj V L) :=
  (follow heap.parts root path).bind fun x => heap[x]?

/-- What was loaded to the CPU, for another location. -/
structure Checkpoint (V : Type) {L : Type} (mapLocation : L) where
  heap : Heap V L
  root : Ref
  root_lt : root < heap.length
  parts_lt : ∀ x, ∀ y ∈ heap.parts x, y < heap.length
  location_ne : ∀ {x : Ref} {content location}, heap[x]? = some (.tensor content location) → location ≠ mapLocation

/-- The objects are the same at every path, with the tensors moved, and paths to one object still lead to one. -/
structure Preserved (mapLocation : L) (heap : Heap V L) (root : Ref) (heap' : Heap V L) (root' : Ref) : Prop where
  label : ∀ path, (heap'.look root' path).map Obj.label =
    (heap.look root path).map fun o => (o.moved mapLocation).label
  same : ∀ path path', follow heap.parts root path = follow heap.parts root path' →
    follow heap'.parts root' path = follow heap'.parts root' path'

/-- With a recursion limit that is high enough the object is remapped, and preserved. -/
def RemapsRight [DecidableEq L] (mapLocation : L) (c : Checkpoint V mapLocation) : Prop :=
  ∃ limit heap' root', remapResult mapLocation limit c.root c.heap = .ok root' heap' ∧
    Preserved mapLocation c.heap c.root heap' root'

/-- The paths do not get longer and longer, as they do along a cycle, there are no named tuples, and tensors, tuples
and sets are in one place only. -/
structure Remappable {mapLocation : L} (c : Checkpoint V mapLocation) : Prop where
  bounded : ∃ n, ∀ path x, follow c.heap.parts c.root path = some x → path.length < n
  unnamed : ∀ path cls first rest, c.heap.look c.root path ≠ some (.tuple (some cls) first rest)
  once : ∀ path path' i j o, follow c.heap.parts c.root (i :: path) = follow c.heap.parts c.root (j :: path') →
    c.heap.look c.root (i :: path) = some o → o.IsRebuilt →
      i = j ∧ follow c.heap.parts c.root path = follow c.heap.parts c.root path'

/-! ### Objects and their parts -/

variable {o o' : Obj V L} {f f' : Ref → Ref} {mapLocation : L} {i : ℕ} {x y : Ref} {heap : Heap V L}

namespace Obj

theorem parts_mapParts : (o.mapParts f).parts = o.parts.map f := by
  cases o <;> simp [mapParts, parts, Function.comp_def]

theorem parts_rebuilt : (o.rebuilt mapLocation).parts = o.parts := by
  cases o <;> rfl

theorem mapParts_mapParts : (o.mapParts f).mapParts f' = o.mapParts (f' ∘ f) := by
  cases o <;> simp [mapParts, Function.comp_def]

theorem mapParts_congr (h : ∀ y ∈ o.parts, f y = f' y) : o.mapParts f = o.mapParts f' := by
  cases o with
  | dict items =>
    unfold mapParts
    rw [dict.injEq, List.map_inj_left]
    exact fun item hitem => by rw [h item.2 (List.mem_map_of_mem hitem)]
  | _ => simp_all [mapParts, parts]

theorem isRebuilt_mapParts : (o.mapParts f).IsRebuilt ↔ o.IsRebuilt := by
  cases o <;> rfl

theorem label_mapParts : (o.mapParts f).label = o.label :=
  mapParts_mapParts

theorem mapParts_id : o.mapParts id = o := by
  cases o <;> simp [mapParts]

theorem rebuilt_mapParts : (o.mapParts f).rebuilt mapLocation = (o.rebuilt mapLocation).mapParts f := by
  cases o <;> rfl

theorem rebuilt_rebuilt : (o.rebuilt mapLocation).rebuilt mapLocation = o.rebuilt mapLocation := by
  cases o <;> rfl

theorem rebuilt_eq (h : ¬o.IsRebuilt) : o.rebuilt mapLocation = o := by
  cases o <;> first | rfl | exact absurd trivial h

/-- Only the class of a named tuple is lost. -/
theorem label_eq_iff :
    (o.rebuilt mapLocation).label = (o.moved mapLocation).label ↔
      ∀ cls first rest, o ≠ tuple (some cls) first rest := by
  rcases o with _ | ⟨_ | cls, first, rest⟩ | _ | _ | _ | _ | _ <;> simp [rebuilt, moved, label, mapParts]

theorem parts_assign (h : ¬o.IsRebuilt) : (o.assign i y).parts = o.parts.set i y := by
  cases o with
  | tuple => exact absurd trivial h
  | set => exact absurd trivial h
  | dict items =>
    unfold assign parts
    ext j
    simp only [List.getElem?_map, List.getElem?_modify, List.getElem?_set, List.length_map]
    grind
  | _ => rfl

/-- The assignment of what stands for the same object. -/
theorem mapParts_assign (hx : o.parts[i]? = some x) (h : f y = f x) : (o.assign i y).mapParts f = o.mapParts f := by
  cases o with
  | list elems =>
    unfold assign mapParts
    rw [list.injEq]
    ext j
    simp only [List.getElem?_map, List.getElem?_set]
    simp only [parts] at hx
    grind
  | dict items =>
    unfold assign mapParts
    rw [dict.injEq]
    ext j
    simp only [parts, List.getElem?_map] at hx
    simp only [List.getElem?_map, List.getElem?_modify]
    grind
  | _ => rfl

end Obj

theorem Heap.parts_of_get (h : heap[x]? = some o) : heap.parts x = o.parts := by
  unfold Heap.parts
  rw [h]
  rfl

theorem Heap.exists_get (h : x < heap.length) : ∃ o, heap[x]? = some o :=
  ⟨heap[x], List.getElem?_eq_getElem h⟩

theorem Heap.lt_of_mem (h : y ∈ heap.parts x) : x < heap.length := by
  by_contra hlt
  unfold Heap.parts at h
  rw [List.getElem?_eq_none (not_lt.mp hlt)] at h
  exact absurd h List.not_mem_nil

/-! ### What the objects stand for -/

/-- The object of the checkpoint that an object stands for, the place of a copy, and the objects that are remapped, with
all that is in them. -/
structure Ghost where
  orig : Ref → Ref
  home : Ref → Ref × ℕ
  done : Set Ref

variable {h₀ h h' h'' : Heap V L} {g g' g'' : Ghost}

/-- What holds between the calls. -/
structure Inv (mapLocation : L) (h₀ h : Heap V L) (g : Ghost) : Prop where
  size : h₀.length ≤ h.length
  parts_lt : ∀ x, ∀ y ∈ h.parts x, y < h.length
  old : ∀ {x : Ref} {o}, x < h₀.length → h[x]? = some o → g.orig x = x ∧ h₀[x]? = some (o.mapParts g.orig)
  new : ∀ {x : Ref} {o}, h₀.length ≤ x → h[x]? = some o → ∃ o₀, h₀[g.orig x]? = some o₀ ∧ o₀.IsRebuilt ∧
    o.mapParts g.orig = o₀.rebuilt mapLocation
  home : ∀ {x y : Ref} {i : ℕ}, (h.parts x)[i]? = some y → h₀.length ≤ y → g.home y = (g.orig x, i)
  done : ∀ x ∈ g.done, x < h.length ∧ ∀ y ∈ h.parts x, y ∈ g.done
  copied : ∀ {x : Ref} {o}, x ∈ g.done → h[x]? = some o → o.IsRebuilt → h₀.length ≤ x

/-- What a call leaves: only remapped objects are put into the objects that there were. -/
structure Ext (h : Heap V L) (g : Ghost) (h' : Heap V L) (g' : Ghost) : Prop where
  size : h.length ≤ h'.length
  orig : ∀ x < h.length, g'.orig x = g.orig x
  home : ∀ x < h.length, g'.home x = g.home x
  done : g.done ⊆ g'.done
  parts : ∀ {x y : Ref} {i : ℕ}, x < h.length → (h'.parts x)[i]? = some y → (h.parts x)[i]? = some y ∨ y ∈ g'.done

theorem Ext.refl (h : Heap V L) (g : Ghost) : Ext h g h g :=
  ⟨le_rfl, fun _ _ => rfl, fun _ _ => rfl, subset_rfl, fun _ => Or.inl⟩

theorem Ext.trans (hext : Ext h g h' g') (hext' : Ext h' g' h'' g'') : Ext h g h'' g'' where
  size := hext.size.trans hext'.size
  orig x hx := (hext'.orig x (hx.trans_le hext.size)).trans (hext.orig x hx)
  home x hx := (hext'.home x (hx.trans_le hext.size)).trans (hext.home x hx)
  done := hext.done.trans hext'.done
  parts := by
    intro x y i hx hy
    rcases hext'.parts (hx.trans_le hext.size) hy with hy' | hdone
    · exact (hext.parts hx hy').imp_right fun hdone => hext'.done hdone
    · exact Or.inr hdone

/-- The parts of an object stand for the parts of what it stands for. -/
theorem Inv.map_parts (hinv : Inv mapLocation h₀ h g) (hx : x < h.length) :
    (h.parts x).map g.orig = h₀.parts (g.orig x) := by
  obtain ⟨o, ho⟩ := Heap.exists_get hx
  rw [Heap.parts_of_get ho, ← Obj.parts_mapParts]
  by_cases hold : x < h₀.length
  · obtain ⟨horig, ho₀⟩ := hinv.old hold ho
    rw [horig, Heap.parts_of_get ho₀]
  · obtain ⟨o₀, ho₀, -, heq⟩ := hinv.new (not_lt.mp hold) ho
    rw [Heap.parts_of_get ho₀, heq, Obj.parts_rebuilt]

theorem Inv.within_succ (hinv : Inv mapLocation h₀ h g) (hx : x < h.length) {n : ℕ} :
    Within h₀.parts (n + 1) (g.orig x) ↔ ∀ y ∈ h.parts x, Within h₀.parts n (g.orig y) := by
  show (∀ y ∈ h₀.parts (g.orig x), Within h₀.parts n y) ↔ _
  rw [← hinv.map_parts hx, List.forall_mem_map]

theorem Inv.old_of_not_rebuilt (hinv : Inv mapLocation h₀ h g) (ho : h[x]? = some o) (hkind : ¬o.IsRebuilt) :
    x < h₀.length := by
  by_contra hnew
  obtain ⟨o₀, -, hrebuilt, heq⟩ := hinv.new (not_lt.mp hnew) ho
  rw [← Obj.isRebuilt_mapParts (f := g.orig), heq] at hkind
  cases o₀ <;> first | exact hkind trivial | exact hrebuilt

/-! ### The steps -/

/-- An object all of whose parts are remapped is. -/
theorem Inv.mark (hinv : Inv mapLocation h₀ h g) (ho : h[x]? = some o) (hparts : ∀ y ∈ h.parts x, y ∈ g.done)
    (hnew : o.IsRebuilt → h₀.length ≤ x) :
    Inv mapLocation h₀ h { g with done := insert x g.done } ∧ Ext h g h { g with done := insert x g.done } := by
  constructor
  · refine ⟨hinv.size, hinv.parts_lt, hinv.old, hinv.new, hinv.home, ?_, ?_⟩
    · rintro z (rfl | hz)
      · exact ⟨(List.getElem?_eq_some_iff.mp ho).1, fun y hy => Or.inr (hparts y hy)⟩
      · exact ⟨(hinv.done z hz).1, fun y hy => Or.inr ((hinv.done z hz).2 y hy)⟩
    · rintro z o' (rfl | hz) ho' hkind
      · rw [ho, Option.some.injEq] at ho'
        exact hnew (ho' ▸ hkind)
      · exact hinv.copied hz ho' hkind
  · exact ⟨le_rfl, fun _ _ => rfl, fun _ _ => rfl, Set.subset_insert _ _, fun _ => Or.inl⟩

/-- A copy of remapped parts. -/
def Ghost.copy (g : Ghost) (x : Ref) (orig : Ref) (slot : Ref × ℕ) : Ghost where
  orig := Function.update g.orig x orig
  home := Function.update g.home x slot
  done := insert x g.done

theorem Inv.alloc (slot : Ref × ℕ) (hinv : Inv mapLocation h₀ h g) {o₀ : Obj V L} (ho₀ : h₀[x]? = some o₀)
    (hkind : o₀.IsRebuilt)
    (heq : o.mapParts g.orig = o₀.rebuilt mapLocation) (hparts : ∀ y ∈ o.parts, y ∈ g.done)
    (hhome : ∀ i y, o.parts[i]? = some y → h₀.length ≤ y → g.home y = (x, i)) :
    Inv mapLocation h₀ (h ++ [o]) (g.copy h.length x slot) ∧ Ext h g (h ++ [o]) (g.copy h.length x slot) := by
  have hlt : ∀ y ∈ o.parts, y < h.length := fun y hy => (hinv.done y (hparts y hy)).1
  have hget : ∀ z < h.length, (h ++ [o])[z]? = h[z]? := fun z hz => List.getElem?_append_left hz
  have hself : (h ++ [o])[h.length]? = some o := by
    rw [List.getElem?_append_right le_rfl, Nat.sub_self]
    rfl
  have hcases : ∀ {z : Ref} {o' : Obj V L}, (h ++ [o])[z]? = some o' → z < h.length ∧ h[z]? = some o' ∨
      z = h.length ∧ o' = o := by
    intro z o' ho'
    rcases lt_trichotomy z h.length with hz | rfl | hz
    · exact Or.inl ⟨hz, (hget z hz).symm.trans ho'⟩
    · exact Or.inr ⟨rfl, (Option.some.inj (hself.symm.trans ho')).symm⟩
    · rw [List.getElem?_eq_none (by rw [List.length_append]; exact hz)] at ho'
      exact absurd ho' (Option.some_ne_none o').symm
  have hoparts : Heap.parts (h ++ [o]) h.length = o.parts := Heap.parts_of_get hself
  have hparts_lt : ∀ z < h.length, Heap.parts (h ++ [o]) z = h.parts z := by
    intro z hz
    unfold Heap.parts
    rw [hget z hz]
  have horig : ∀ z < h.length, (g.copy h.length x slot).orig z = g.orig z :=
    fun z hz => Function.update_of_ne hz.ne _ _
  have hhome' : ∀ z < h.length, (g.copy h.length x slot).home z = g.home z :=
    fun z hz => Function.update_of_ne hz.ne _ _
  have hself' : (g.copy h.length x slot).orig h.length = x := Function.update_self _ _ _
  have hmap : ∀ {o' : Obj V L}, (∀ y ∈ o'.parts, y < h.length) →
      o'.mapParts (g.copy h.length x slot).orig = o'.mapParts g.orig :=
    fun hy => Obj.mapParts_congr fun y hmem => horig y (hy y hmem)
  have hold_lt : ∀ {z : Ref} {o' : Obj V L}, h[z]? = some o' → ∀ y ∈ o'.parts, y < h.length :=
    fun ho' y hy => hinv.parts_lt _ y (Heap.parts_of_get ho' ▸ hy)
  have hsize : h.length < (h ++ [o]).length := by
    rw [List.length_append]
    exact Nat.lt_succ_self _
  constructor
  · refine ⟨hinv.size.trans hsize.le, ?_, ?_, ?_, ?_, ?_, ?_⟩
    · intro z y hy
      obtain ⟨o', ho'⟩ := Heap.exists_get (Heap.lt_of_mem hy)
      rw [Heap.parts_of_get ho'] at hy
      rcases hcases ho' with ⟨-, ho'⟩ | ⟨-, rfl⟩
      · exact (hold_lt ho' y hy).trans hsize
      · exact (hlt y hy).trans hsize
    · intro z o' hz ho'
      rw [hget z (hz.trans_le hinv.size)] at ho'
      rw [hmap (hold_lt ho'), horig z (hz.trans_le hinv.size)]
      exact hinv.old hz ho'
    · intro z o' hz ho'
      rcases hcases ho' with ⟨hz', ho'⟩ | ⟨rfl, rfl⟩
      · rw [hmap (hold_lt ho'), horig z hz']
        exact hinv.new hz ho'
      · rw [hmap hlt, hself']
        exact ⟨o₀, ho₀, hkind, heq⟩
    · intro z y i hy hnew
      obtain ⟨o', ho'⟩ := Heap.exists_get (Heap.lt_of_mem (List.mem_of_getElem? hy))
      rcases hcases ho' with ⟨hz, ho'⟩ | ⟨rfl, rfl⟩
      · rw [hparts_lt z hz] at hy
        rw [hhome' y (hinv.parts_lt z y (List.mem_of_getElem? hy)), horig z hz]
        exact hinv.home hy hnew
      · rw [hoparts] at hy
        rw [hhome' y (hlt y (List.mem_of_getElem? hy)), hself']
        exact hhome i y hy hnew
    · rintro z (rfl | hz)
      · exact ⟨hsize, fun y hy => Or.inr (hparts y (hoparts ▸ hy))⟩
      · obtain ⟨hz', hall⟩ := hinv.done z hz
        exact ⟨hz'.trans hsize, fun y hy => Or.inr (hall y (hparts_lt z hz' ▸ hy))⟩
    · rintro z o' (rfl | hz) ho' hkind'
      · exact hinv.size
      · rw [hget z (hinv.done z hz).1] at ho'
        exact hinv.copied hz ho' hkind'
  · exact ⟨hsize.le, horig, hhome', Set.subset_insert _ _, fun hx hy => Or.inl (hparts_lt _ hx ▸ hy)⟩

/-- An assignment of a remapped object that stands for the one that it replaces. -/
theorem Inv.assign (hinv : Inv mapLocation h₀ h g) (ho : h[x]? = some o) (hkind : ¬o.IsRebuilt)
    (hy : o.parts[i]? = some y) {y' : Ref} (hy' : y' ∈ g.done) (horig : g.orig y' = g.orig y)
    (hhome : h₀.length ≤ y' → g.home y' = (x, i)) :
    Inv mapLocation h₀ (h.modify x (Obj.assign i y')) g ∧ Ext h g (h.modify x (Obj.assign i y')) g ∧
      Heap.parts (h.modify x (Obj.assign i y')) x = o.parts.set i y' := by
  have hxself : (h.modify x (Obj.assign i y'))[x]? = some (o.assign i y') := by
    rw [List.getElem?_modify_eq, ho]
    rfl
  have hne : ∀ z ≠ x, (h.modify x (Obj.assign i y'))[z]? = h[z]? :=
    fun z hz => List.getElem?_modify_ne _ _ hz.symm
  have hparts : Heap.parts (h.modify x (Obj.assign i y')) x = o.parts.set i y' := by
    rw [Heap.parts_of_get hxself, Obj.parts_assign hkind]
  have hparts_ne : ∀ z ≠ x, Heap.parts (h.modify x (Obj.assign i y')) z = h.parts z := by
    intro z hz
    unfold Heap.parts
    rw [hne z hz]
  have hlength : (h.modify x (Obj.assign i y')).length = h.length := List.length_modify ..
  have hpart : ∀ {z j w}, (Heap.parts (h.modify x (Obj.assign i y')) z)[j]? = some w →
      (h.parts z)[j]? = some w ∨ z = x ∧ j = i ∧ w = y' := by
    intro z j w hw
    by_cases hz : z = x
    · subst hz
      rw [hparts, List.getElem?_set] at hw
      rw [Heap.parts_of_get ho]
      grind
    · rw [hparts_ne z hz] at hw
      exact Or.inl hw
  have hxold := hinv.old_of_not_rebuilt ho hkind
  refine ⟨⟨hlength ▸ hinv.size, ?_, ?_, ?_, ?_, ?_, ?_⟩, ?_, hparts⟩
  · intro z w hw
    obtain ⟨j, hj⟩ := List.mem_iff_getElem?.mp hw
    rw [hlength]
    rcases hpart hj with hj | ⟨-, -, rfl⟩
    · exact hinv.parts_lt z w (List.mem_of_getElem? hj)
    · exact (hinv.done w hy').1
  · intro z o' hz ho'
    by_cases hzx : z = x
    · subst hzx
      rw [hxself, Option.some.injEq] at ho'
      rw [← ho', Obj.mapParts_assign hy horig]
      exact hinv.old hz ho
    · exact hinv.old hz ((hne z hzx).symm.trans ho')
  · intro z o' hz ho'
    have hzx : z ≠ x := (hxold.trans_le hz).ne'
    exact hinv.new hz ((hne z hzx).symm.trans ho')
  · intro z w j hw hnew
    rcases hpart hw with hw | ⟨rfl, rfl, rfl⟩
    · exact hinv.home hw hnew
    · rw [hhome hnew, (hinv.old hxold ho).1]
  · intro z hz
    rw [hlength]
    refine ⟨(hinv.done z hz).1, fun w hw => ?_⟩
    obtain ⟨j, hj⟩ := List.mem_iff_getElem?.mp hw
    rcases hpart hj with hj | ⟨-, -, rfl⟩
    · exact (hinv.done z hz).2 w (List.mem_of_getElem? hj)
    · exact hy'
  · intro z o' hz ho' hkind'
    by_cases hzx : z = x
    · subst hzx
      rw [hxself, Option.some.injEq] at ho'
      rw [← ho'] at hkind'
      cases o <;> exact absurd hkind' hkind
    · exact hinv.copied hz ((hne z hzx).symm.trans ho') hkind'
  · refine ⟨hlength.ge, fun _ _ => rfl, fun _ _ => rfl, subset_rfl, fun _ hw => ?_⟩
    exact (hpart hw).imp_right fun ⟨_, _, h⟩ => h ▸ hy'

/-! ### The calls -/

variable {n : ℕ} {visit : Ref → Call V L Ref}

/-- `y` is returned for what stands for `x`; it is in a place if it is a copy. -/
def Returns (mapLocation : L) (h₀ h : Heap V L) (g : Ghost) (x : Ref) (slot : Ref × ℕ) (y : Ref) (h' : Heap V L) :
    Prop :=
  ∃ g', Inv mapLocation h₀ h' g' ∧ Ext h g h' g' ∧ y ∈ g'.done ∧ g'.orig y = x ∧ (h₀.length ≤ y → g'.home y = slot)

/-- What is known of a call that goes at most `n` deep, for an object in a place. -/
def Visits (mapLocation : L) (h₀ : Heap V L) (n : ℕ) (visit : Ref → Call V L Ref) : Prop :=
  ∀ slot {h g x}, Inv mapLocation h₀ h g → x < h.length → (h₀.length ≤ x → g.home x = slot) →
    wp (visit x) h
      (fun y h' => Within h₀.parts n (g.orig x) ∧ Returns mapLocation h₀ h g (g.orig x) slot y h')
      fun _ _ => ¬Within h₀.parts n (g.orig x)

theorem newList_spec (hvisit : Visits mapLocation h₀ n visit) {vals : List Ref} {k : ℕ}
    (hinv : Inv mapLocation h₀ h g) (hlt : ∀ y ∈ vals, y < h.length)
    (hhome : ∀ j y, vals[j]? = some y → h₀.length ≤ y → g.home y = (x, k + j)) :
    wp (newList visit vals) h
      (fun vals' h' => (∀ y ∈ vals, Within h₀.parts n (g.orig y)) ∧ ∃ g', Inv mapLocation h₀ h' g' ∧ Ext h g h' g' ∧
        (∀ y ∈ vals', y ∈ g'.done) ∧ vals'.map g'.orig = vals.map g.orig ∧
        ∀ j y, vals'[j]? = some y → h₀.length ≤ y → g'.home y = (x, k + j))
      fun _ _ => ∃ y ∈ vals, ¬Within h₀.parts n (g.orig y) := by
  induction vals generalizing h g k with
  | nil =>
    exact wp_pure ⟨by simp, g, hinv, Ext.refl h g, by simp, rfl, by simp⟩
  | cons val vals ih =>
    rw [List.forall_mem_cons] at hlt
    have hval := hvisit (x, k) hinv hlt.1 (hhome 0 val rfl)
    unfold newList
    refine (hval.mono (fun _ _ => id) fun _ _ hno => ⟨val, List.mem_cons_self, hno⟩).bind ?_
    rintro val' h₁ ⟨hwithin, g₁, hinv₁, hext₁, hdone₁, horig₁, hhome₁⟩
    have horig : ∀ y ∈ vals, g₁.orig y = g.orig y := fun y hy => hext₁.orig y (hlt.2 y hy)
    have hvals := ih (k := k + 1) hinv₁ (fun y hy => (hlt.2 y hy).trans_le hext₁.size) (by
      intro j y hy hnew
      rw [hext₁.home y (hlt.2 y (List.mem_of_getElem? hy)), hhome (j + 1) y hy hnew]
      congr 1
      omega)
    refine (hvals.mono (fun _ _ => id) ?_).bind ?_
    · rintro _ _ ⟨y, hy, hno⟩
      exact ⟨y, List.mem_cons_of_mem _ hy, horig y hy ▸ hno⟩
    rintro vals' h₂ ⟨hwithins, g₂, hinv₂, hext₂, hdone₂, horig₂, hhome₂⟩
    have hlt₁ : val' < h₁.length := (hinv₁.done val' hdone₁).1
    refine wp_pure ⟨?_, g₂, hinv₂, hext₁.trans hext₂, ?_, ?_, ?_⟩
    · exact List.forall_mem_cons.mpr ⟨hwithin, fun y hy => horig y hy ▸ hwithins y hy⟩
    · exact List.forall_mem_cons.mpr ⟨hext₂.done hdone₁, hdone₂⟩
    · rw [List.map_cons, List.map_cons, horig₂, hext₂.orig val' hlt₁, horig₁]
      congr 1
      exact List.map_congr_left horig
    · rintro (_ | j) y hy hnew
      · obtain rfl : val' = y := Option.some.inj hy
        exact (hext₂.home val' hlt₁).trans (hhome₁ hnew)
      · rw [hhome₂ j y hy hnew]
        congr 1
        omega

theorem traverseItems_spec (hvisit : Visits mapLocation h₀ n visit) (ho : h₀[x]? = some o) (hkind : ¬o.IsRebuilt)
    {m k : ℕ} (hm : k + m = o.parts.length) (hinv : Inv mapLocation h₀ h g)
    (hk : ∀ i < k, ∀ y, (h.parts x)[i]? = some y → y ∈ g.done) :
    wp (traverseItems visit x (List.range' k m)) h
      (fun _ h' => (∀ i y, k ≤ i → o.parts[i]? = some y → Within h₀.parts n y) ∧ ∃ g', Inv mapLocation h₀ h' g' ∧
        Ext h g h' g' ∧ ∀ y ∈ h'.parts x, y ∈ g'.done)
      fun _ _ => ∃ y ∈ o.parts, ¬Within h₀.parts n y := by
  have hx : x < h₀.length := (List.getElem?_eq_some_iff.mp ho).1
  -- The object keeps standing for itself.
  have hself : ∀ {h g}, Inv mapLocation h₀ h g → g.orig x = x ∧ (h.parts x).map g.orig = o.parts := by
    intro h g hinv
    obtain ⟨o', ho'⟩ := Heap.exists_get (hx.trans_le hinv.size)
    have horig := (hinv.old hx ho').1
    refine ⟨horig, ?_⟩
    rw [hinv.map_parts (hx.trans_le hinv.size), horig, Heap.parts_of_get ho]
  induction m generalizing k h g with
  | zero =>
    have hlength : (h.parts x).length = k := by
      rw [← List.length_map g.orig, (hself hinv).2, ← hm]
      rfl
    refine wp_pure ⟨?_, g, hinv, Ext.refl h g, ?_⟩
    · intro i y hi hy
      exact absurd (List.getElem?_eq_some_iff.mp hy).1 (by omega)
    · intro y hy
      obtain ⟨i, hi⟩ := List.mem_iff_getElem?.mp hy
      exact hk i (hlength ▸ (List.getElem?_eq_some_iff.mp hi).1) y hi
  | succ m ih =>
    have hlength : k < (h.parts x).length := by
      rw [← List.length_map g.orig, (hself hinv).2]
      omega
    have hval : (h.parts x)[k]? = some (h.parts x)[k] := List.getElem?_eq_getElem hlength
    generalize (h.parts x)[k] = val at hval
    have hval₀ : o.parts[k]? = some (g.orig val) := by
      rw [← (hself hinv).2, List.getElem?_map, hval]
      rfl
    rw [List.range'_succ]
    unfold traverseItems
    refine wp_bind (wp_get ?_)
    rw [hval]
    have hvisit' := hvisit (x, k) hinv (hinv.parts_lt x val (List.mem_of_getElem? hval)) fun hnew => by
      rw [hinv.home hval hnew, (hself hinv).1]
    refine (hvisit'.mono (fun _ _ => id) fun _ _ hno => ⟨_, List.mem_of_getElem? hval₀, hno⟩).bind ?_
    rintro val' h₁ ⟨hwithin, g₁, hinv₁, hext₁, hdone₁, horig₁, hhome₁⟩
    obtain ⟨o₁, ho₁⟩ := Heap.exists_get (hx.trans_le hinv₁.size)
    have hkind₁ : ¬o₁.IsRebuilt := by
      have heq := (hinv₁.old hx ho₁).2
      rw [ho, Option.some.injEq] at heq
      rw [← Obj.isRebuilt_mapParts (f := g₁.orig), ← heq]
      exact hkind
    have hpart₁ : (o₁.parts.map g₁.orig)[k]? = some (g.orig val) := by
      rw [← Heap.parts_of_get ho₁, (hself hinv₁).2, hval₀]
    rw [List.getElem?_map, Option.map_eq_some_iff] at hpart₁
    obtain ⟨w, hw, hworig⟩ := hpart₁
    obtain ⟨hinv₂, hext₂, hparts₂⟩ := hinv₁.assign ho₁ hkind₁ hw hdone₁ (horig₁.trans hworig.symm) hhome₁
    refine wp_bind (wp_modify ?_)
    have hext := hext₁.trans hext₂
    refine (ih (by omega) hinv₂ ?_).mono ?_ (fun _ _ => id)
    · intro i hi y hy
      rcases Nat.lt_succ_iff_lt_or_eq.mp hi with hi | rfl
      · rcases hext.parts (hx.trans_le hinv.size) hy with hy | hy
        · exact hext.done (hk i hi y hy)
        · exact hy
      · rw [hparts₂, List.getElem?_set_self (List.getElem?_eq_some_iff.mp hw).1, Option.some.injEq] at hy
        exact hy ▸ hdone₁
    · rintro - h' ⟨hwithins, g', hinv', hext', hdone'⟩
      refine ⟨?_, g', hinv', hext.trans hext', hdone'⟩
      intro i y hi hy
      rcases hi.eq_or_lt with rfl | hi
      · rw [hval₀, Option.some.injEq] at hy
        exact hy ▸ hwithin
      · exact hwithins i y hi hy

/-- What an object that is copied stands for. -/
theorem Inv.exists_orig (hinv : Inv mapLocation h₀ h g) (ho : h[x]? = some o) (hkind : o.IsRebuilt) :
    ∃ o₀, h₀[g.orig x]? = some o₀ ∧ o₀.IsRebuilt ∧
      (o.rebuilt mapLocation).mapParts g.orig = o₀.rebuilt mapLocation := by
  by_cases hold : x < h₀.length
  · obtain ⟨horig, ho₀⟩ := hinv.old hold ho
    exact ⟨_, horig.symm ▸ ho₀, Obj.isRebuilt_mapParts.mpr hkind, Obj.rebuilt_mapParts.symm⟩
  · obtain ⟨o₀, ho₀, hkind₀, heq⟩ := hinv.new (not_lt.mp hold) ho
    exact ⟨o₀, ho₀, hkind₀, by rw [← Obj.rebuilt_mapParts, heq, Obj.rebuilt_rebuilt]⟩

theorem alloc_spec (slot : Ref × ℕ) {E : Unit → Heap V L → Prop} (hinv : Inv mapLocation h₀ h g) {o₀ : Obj V L}
    (ho₀ : h₀[x]? = some o₀) (hkind : o₀.IsRebuilt) (heq : o.mapParts g.orig = o₀.rebuilt mapLocation)
    (hparts : ∀ y ∈ o.parts, y ∈ g.done)
    (hhome : ∀ i y, o.parts[i]? = some y → h₀.length ≤ y → g.home y = (x, i)) :
    wp (alloc o) h (Returns mapLocation h₀ h g x slot) E := by
  obtain ⟨hinv', hext⟩ := hinv.alloc slot ho₀ hkind heq hparts hhome
  refine wp_bind (wp_get (wp_bind (wp_set (wp_pure ⟨_, hinv', hext, Set.mem_insert _ _, ?_, fun _ => ?_⟩))))
  · exact Function.update_self _ _ _
  · exact Function.update_self _ _ _

/-- A call with a recursion limit goes as deep as the limit. -/
theorem remapResult_visits [DecidableEq L]
    (hloc : ∀ {x : Ref} {content location}, h₀[x]? = some (.tensor content location) → location ≠ mapLocation)
    (limit : ℕ) : Visits mapLocation h₀ limit (remapResult mapLocation limit) := by
  induction limit with
  | zero => exact fun _ _ _ _ _ _ _ => wp_throw id
  | succ n ih =>
    intro slot h g x hinv hx hslot
    obtain ⟨o, ho⟩ := Heap.exists_get hx
    have hparts : ∀ y ∈ o.parts, y < h.length := fun y hy => hinv.parts_lt x y (Heap.parts_of_get ho ▸ hy)
    have hhome : ∀ j y, o.parts[j]? = some y → h₀.length ≤ y → g.home y = (g.orig x, 0 + j) := by
      intro j y hy hnew
      rw [Nat.zero_add]
      exact hinv.home ((Heap.parts_of_get ho).symm ▸ hy) hnew
    have hold (hkind : ¬o.IsRebuilt) : x < h₀.length ∧ g.orig x = x ∧ h₀[x]? = some (o.mapParts g.orig) := by
      have hx₀ := hinv.old_of_not_rebuilt ho hkind
      exact ⟨hx₀, hinv.old hx₀ ho⟩
    -- An object without parts that is not a tensor is returned as it is.
    have hleaf (hnil : o.parts = []) (hkind : o.IsRebuilt → h₀.length ≤ x) :
        Returns mapLocation h₀ h g (g.orig x) slot x h := by
      obtain ⟨hinv', hext⟩ := hinv.mark ho (by simp [Heap.parts_of_get ho, hnil]) hkind
      exact ⟨_, hinv', hext, Set.mem_insert _ _, rfl, hslot⟩
    -- A list or a dict is returned when its parts are remapped.
    have hplace (hkind : ¬o.IsRebuilt) :
        wp (do
            traverseItems (remapResult mapLocation n) x (List.range o.parts.length)
            pure x) h
          (fun y h' => (∀ y ∈ o.parts, Within h₀.parts n (g.orig y)) ∧
            Returns mapLocation h₀ h g (g.orig x) slot y h')
          fun _ _ => ¬∀ y ∈ o.parts, Within h₀.parts n (g.orig y) := by
      obtain ⟨hx₀, horig, ho₀⟩ := hold hkind
      have hitems := traverseItems_spec ih ho₀ (Obj.isRebuilt_mapParts.not.mpr hkind) (k := 0)
        (m := (o.mapParts g.orig).parts.length) (Nat.zero_add _) hinv (fun i hi => absurd hi (Nat.not_lt_zero i))
      rw [Obj.parts_mapParts, List.length_map, ← List.range_eq_range'] at hitems
      refine (hitems.mono (fun _ _ => id) ?_).bind ?_
      · rintro _ _ ⟨y, hy, hno⟩ hall
        obtain ⟨z, hz, rfl⟩ := List.mem_map.mp hy
        exact hno (hall z hz)
      rintro - h' ⟨hwithin, g', hinv', hext, hdone⟩
      obtain ⟨o', ho'⟩ := Heap.exists_get (hx.trans_le hext.size)
      have hkind' : ¬o'.IsRebuilt := by
        have heq := (hinv'.old hx₀ ho').2
        rw [ho₀, Option.some.injEq] at heq
        rw [← Obj.isRebuilt_mapParts (f := g'.orig), ← heq, Obj.isRebuilt_mapParts]
        exact hkind
      obtain ⟨hinv'', hext'⟩ := hinv'.mark ho' hdone fun hcopy => absurd hcopy hkind'
      refine wp_pure ⟨?_, _, hinv'', hext.trans hext', Set.mem_insert _ _, hext.orig x hx, fun hnew => ?_⟩
      · intro y hy
        obtain ⟨i, hi⟩ := List.mem_iff_getElem?.mp hy
        exact hwithin i (g.orig y) (Nat.zero_le i) (by rw [List.getElem?_map, hi]; rfl)
      · exact absurd hx₀ (not_lt.mpr hnew)
    -- A copy is made of the copies of the parts.
    have hcopy (hkind : o.IsRebuilt) (make : List Ref → Obj V L)
        (hmake : ∀ {vals : List Ref} {orig}, vals.map orig = o.parts.map g.orig →
          (make vals).parts = vals ∧ (make vals).mapParts orig = (o.rebuilt mapLocation).mapParts g.orig) :
        wp (do
            let vals ← newList (remapResult mapLocation n) o.parts
            alloc (make vals)) h
          (fun y h' => (∀ y ∈ o.parts, Within h₀.parts n (g.orig y)) ∧
            Returns mapLocation h₀ h g (g.orig x) slot y h')
          fun _ _ => ¬∀ y ∈ o.parts, Within h₀.parts n (g.orig y) := by
      obtain ⟨o₀, ho₀, hkind₀, heq⟩ := hinv.exists_orig ho hkind
      refine ((newList_spec ih hinv hparts hhome).mono (fun _ _ => id) ?_).bind ?_
      · rintro _ _ ⟨y, hy, hno⟩ hall
        exact hno (hall y hy)
      rintro vals h₁ ⟨hwithin, g₁, hinv₁, hext₁, hdone₁, horig₁, hhome₁⟩
      obtain ⟨hmake₁, hmake₂⟩ := hmake horig₁
      refine (alloc_spec slot hinv₁ ho₀ hkind₀ (hmake₂.trans heq) (hmake₁.symm ▸ hdone₁) ?_).post ?_
      · intro i y hy hnew
        rw [hmake₁] at hy
        rw [hhome₁ i y hy hnew, Nat.zero_add]
      · rintro y h' ⟨g', hinv', hext', hret⟩
        exact ⟨hwithin, g', hinv', hext₁.trans hext', hret⟩
    simp only [hinv.within_succ hx, Heap.parts_of_get ho]
    unfold remapResult
    refine wp_bind (wp_get ?_)
    rw [ho]
    cases o with
    | tensor content location =>
      refine wp_ite (fun hsame => wp_pure ⟨by simp [Obj.parts], hleaf rfl fun _ => ?_⟩) fun hdiff => ?_
      · by_contra hnew
        exact hloc (hinv.old (not_le.mp hnew) ho).2 hsame
      · obtain ⟨o₀, ho₀, hkind₀, heq⟩ := hinv.exists_orig ho trivial
        exact (alloc_spec slot hinv ho₀ hkind₀ heq (by simp [Obj.parts, Obj.rebuilt])
          (by simp [Obj.parts, Obj.rebuilt])).post fun _ _ hret => ⟨by simp [Obj.parts], hret⟩
    | tuple cls first rest =>
      refine hcopy trivial Obj.tupleOf ?_
      intro vals orig hvals
      rcases vals with _ | ⟨y, ys⟩
      · exact absurd hvals (List.cons_ne_nil _ _).symm
      · obtain ⟨hy, hys⟩ := List.cons.inj hvals
        exact ⟨rfl, by simp only [Obj.tupleOf, Obj.mapParts, Obj.rebuilt, hy, hys]⟩
    | set elems =>
      refine hcopy trivial Obj.set ?_
      intro vals orig hvals
      exact ⟨rfl, by simp only [Obj.mapParts, Obj.rebuilt, hvals, Obj.parts]⟩
    | list elems => exact hplace id
    | dict items =>
      have hitems := hplace id
      rw [show (Obj.dict (L := L) items).parts.length = items.length from List.length_map ..] at hitems
      exact hitems
    | emptyTuple => exact wp_pure ⟨by simp [Obj.parts], hleaf rfl fun hcopy => absurd hcopy id⟩
    | other => exact wp_pure ⟨by simp [Obj.parts], hleaf rfl fun hcopy => absurd hcopy id⟩

/-! ### The remapped object -/

variable {root root' : Ref}

theorem follow_done (hinv : Inv mapLocation h₀ h' g) (hroot : root' ∈ g.done) (path : List ℕ) :
    follow h₀.parts (g.orig root') path = (follow h'.parts root' path).map g.orig ∧
      ∀ z, follow h'.parts root' path = some z → z ∈ g.done := by
  induction path with
  | nil => exact ⟨rfl, fun z hz => Option.some.inj hz ▸ hroot⟩
  | cons i path ih =>
    rw [follow, follow, ih.1]
    rcases hx : follow h'.parts root' path with _ | x
    · exact ⟨rfl, fun z hz => absurd hz (Option.some_ne_none z).symm⟩
    · obtain ⟨hlt, hdone⟩ := hinv.done x (ih.2 x hx)
      rw [Option.map_some, Option.bind_some, Option.bind_some, ← hinv.map_parts hlt, List.getElem?_map]
      exact ⟨rfl, fun z hz => hdone z (List.mem_of_getElem? hz)⟩

/-- What a remapped object is; it is a copy if it can be. -/
theorem Inv.of_done (hinv : Inv mapLocation h₀ h g) (hx : x ∈ g.done) :
    ∃ o o₀, h[x]? = some o ∧ h₀[g.orig x]? = some o₀ ∧ o.label = (o₀.rebuilt mapLocation).label ∧
      (o₀.IsRebuilt → h₀.length ≤ x) ∧ (¬o₀.IsRebuilt → g.orig x = x) := by
  obtain ⟨o, ho⟩ := Heap.exists_get (hinv.done x hx).1
  by_cases hold : x < h₀.length
  · obtain ⟨horig, ho₀⟩ := hinv.old hold ho
    have hkind : ¬(o.mapParts g.orig).IsRebuilt := fun hkind =>
      absurd (hinv.copied hx ho (Obj.isRebuilt_mapParts.mp hkind)) (not_le.mpr hold)
    refine ⟨o, _, ho, horig.symm ▸ ho₀, ?_, fun h => absurd h hkind, fun _ => horig⟩
    rw [Obj.rebuilt_eq hkind, Obj.label_mapParts]
  · obtain ⟨o₀, ho₀, hkind, heq⟩ := hinv.new (not_lt.mp hold) ho
    refine ⟨o, o₀, ho, ho₀, ?_, fun _ => not_lt.mp hold, fun h => absurd hkind h⟩
    rw [← heq, Obj.label_mapParts]

theorem look_done (hinv : Inv mapLocation h₀ h' g) (hroot : root' ∈ g.done) (path : List ℕ) :
    (h'.look root' path).map Obj.label = (h₀.look (g.orig root') path).map fun o => (o.rebuilt mapLocation).label := by
  obtain ⟨hfollow, hdone⟩ := follow_done hinv hroot path
  unfold Heap.look
  rw [hfollow]
  rcases hx : follow h'.parts root' path with _ | x
  · rfl
  · obtain ⟨o, o₀, ho, ho₀, hlabel, -⟩ := hinv.of_done (hdone x hx)
    rw [Option.map_some, Option.bind_some, Option.bind_some, ho, ho₀, Option.map_some, Option.map_some, hlabel]

theorem preserved_iff {c : Checkpoint V mapLocation} (hinv : Inv mapLocation c.heap h' g) (hroot : root' ∈ g.done)
    (horig : g.orig root' = c.root) {n : ℕ} (hwithin : Within c.heap.parts n c.root) :
    Preserved mapLocation c.heap c.root h' root' ↔ Remappable c := by
  have hfollow := follow_done hinv hroot
  have hlook := look_done hinv hroot
  rw [horig] at hfollow hlook
  constructor
  · intro h
    refine ⟨⟨n, within_iff.mp hwithin⟩, ?_, ?_⟩
    · intro path cls first rest hpath
      have hlabel := (hlook path).symm.trans (h.label path)
      rw [hpath, Option.map_some, Option.map_some, Option.some.injEq] at hlabel
      exact Obj.label_eq_iff.mp hlabel cls first rest rfl
    · intro path path' i j o hsame ho hkind
      have hsame' := h.same _ _ hsame
      -- Both paths lead to one copy, which is in one place.
      have hpath : ∃ z, follow h'.parts root' (i :: path) = some z := by
        rcases hz : follow h'.parts root' (i :: path) with _ | z
        · have hnone := (hfollow (i :: path)).1
          unfold Heap.look at ho
          rw [hnone, hz] at ho
          exact absurd ho (Option.some_ne_none o).symm
        · exact ⟨z, rfl⟩
      obtain ⟨z, hz⟩ := hpath
      have hnew : c.heap.length ≤ z := by
        obtain ⟨-, o₀, -, ho₀, -, hcopied, -⟩ := hinv.of_done ((hfollow (i :: path)).2 z hz)
        unfold Heap.look at ho
        rw [(hfollow (i :: path)).1, hz, Option.map_some, Option.bind_some, ho₀, Option.some.injEq] at ho
        exact hcopied (ho ▸ hkind)
      have hhome : ∀ {path : List ℕ} {i : ℕ}, follow h'.parts root' (i :: path) = some z →
          ∃ x, follow c.heap.parts c.root path = some x ∧ g.home z = (x, i) := by
        intro path i hz
        rw [follow, Option.bind_eq_some_iff] at hz
        obtain ⟨x, hx, hz⟩ := hz
        exact ⟨g.orig x, by rw [(hfollow path).1, hx, Option.map_some], hinv.home hz hnew⟩
      obtain ⟨x, hx, hhome₁⟩ := hhome hz
      obtain ⟨x', hx', hhome₂⟩ := hhome (hsame' ▸ hz)
      obtain ⟨rfl, rfl⟩ := Prod.mk.inj (hhome₁.symm.trans hhome₂)
      exact ⟨rfl, hx.trans hx'.symm⟩
  · intro h
    constructor
    · intro path
      rw [hlook path]
      rcases ho : c.heap.look c.root path with _ | o
      · rfl
      · rw [Option.map_some, Option.map_some, Option.some.injEq, Obj.label_eq_iff]
        exact fun cls first rest heq => h.unnamed path cls first rest (heq ▸ ho)
    · intro path
      induction path with
      | nil =>
        intro path' hsame
        rcases path' with _ | ⟨j, path'⟩
        · rfl
        · exact absurd hwithin (not_within_of_follow_self (List.cons_ne_nil _ _) hsame.symm n)
      | cons i path ih =>
        intro path' hsame
        rcases path' with _ | ⟨j, path'⟩
        · exact absurd hwithin (not_within_of_follow_self (List.cons_ne_nil _ _) hsame n)
        have heq := (hfollow (i :: path)).1
        have heq' := (hfollow (j :: path')).1
        rw [hsame, heq'] at heq
        rcases hz : follow h'.parts root' (i :: path) with _ | z
        · rw [hz, Option.map_none, Option.map_eq_none_iff] at heq
          exact heq.symm
        rcases hz' : follow h'.parts root' (j :: path') with _ | z'
        · rw [hz, hz'] at heq
          exact absurd heq.symm (Option.some_ne_none _)
        rw [hz, hz', Option.map_some, Option.map_some, Option.some.injEq] at heq
        obtain ⟨-, o₀, -, ho₀, -, -, hself⟩ := hinv.of_done ((hfollow (i :: path)).2 z hz)
        obtain ⟨-, o₀', -, ho₀', -, -, hself'⟩ := hinv.of_done ((hfollow (j :: path')).2 z' hz')
        rw [heq, ho₀, Option.some.injEq] at ho₀'
        by_cases hkind : o₀.IsRebuilt
        · -- The copy is found in the same place of one object.
          have ho : c.heap.look c.root (i :: path) = some o₀ := by
            unfold Heap.look
            rw [(hfollow (i :: path)).1, hz, Option.map_some, Option.bind_some, ho₀]
          obtain ⟨rfl, hparent⟩ := h.once path path' i j o₀ hsame ho hkind
          rw [← hz, ← hz', follow, follow, ih path' hparent]
        · rw [← hself hkind, ← hself' (ho₀' ▸ hkind), heq]

/-- When remapping terminates and preserves the object. -/
theorem remapsRight_iff [DecidableEq L] (c : Checkpoint V mapLocation) :
    RemapsRight mapLocation c ↔ Remappable c := by
  have hinit : Inv mapLocation c.heap c.heap ⟨id, fun _ => (0, 0), ∅⟩ := by
    refine ⟨le_rfl, c.parts_lt, ?_, ?_, ?_, ?_, ?_⟩
    · intro x o _ ho
      exact ⟨rfl, by rw [Obj.mapParts_id]; exact ho⟩
    · intro x o hx ho
      exact absurd (List.getElem?_eq_some_iff.mp ho).1 (not_lt.mpr hx)
    · intro x y i hy hnew
      exact absurd (c.parts_lt x y (List.mem_of_getElem? hy)) (not_lt.mpr hnew)
    · exact fun x hx => absurd hx (Set.notMem_empty x)
    · exact fun hx => absurd hx (Set.notMem_empty _)
  have hcall (limit : ℕ) := remapResult_visits c.location_ne limit (0, 0) hinit c.root_lt fun hnew =>
    absurd c.root_lt (not_lt.mpr hnew)
  unfold wp at hcall
  constructor
  · rintro ⟨limit, heap', root', hrun, hpreserved⟩
    have h := hcall limit
    rw [hrun] at h
    obtain ⟨hwithin, g', hinv, -, hdone, horig, -⟩ := h
    exact (preserved_iff hinv hdone horig hwithin).mp hpreserved
  · intro h
    obtain ⟨limit, hbounded⟩ := h.bounded
    have hcall' := hcall limit
    rcases hrun : remapResult mapLocation limit c.root c.heap with ⟨root', heap'⟩ | ⟨_, heap'⟩
    · rw [hrun] at hcall'
      obtain ⟨hwithin, g', hinv, -, hdone, horig, -⟩ := hcall'
      exact ⟨limit, heap', root', hrun, (preserved_iff hinv hdone horig hwithin).mpr h⟩
    · rw [hrun] at hcall'
      exact absurd (within_iff.mpr hbounded) hcall'

/-- Two elements of a list that are one tensor. -/
def sharedTensor : Checkpoint Unit true where
  heap := [.list [1, 1], .tensor () false]
  root := 0
  root_lt := by decide
  parts_lt := by
    rintro (_ | _ | x) y hy
    · simp [Heap.parts, Obj.parts] at hy
      simp [hy]
    · simp [Heap.parts, Obj.parts] at hy
    · simp [Heap.parts] at hy
  location_ne := by
    rintro (_ | _ | x) content location ho
    · simp at ho
    · simp at ho
      simp [← ho]
    · simp at ho

/-- They become two tensors. -/
theorem not_remapsRight : ¬∀ c : Checkpoint Unit true, RemapsRight true c := by
  intro h
  obtain ⟨limit, heap', root', hrun, hpreserved⟩ := h sharedTensor
  have hsame := hpreserved.same [0] [1] rfl
  have hresult : ∀ n, remapResult true (n + 2) sharedTensor.root sharedTensor.heap =
      .ok 0 [.list [2, 3], .tensor () false, .tensor () true, .tensor () true] := fun _ => rfl
  rcases limit with _ | _ | n
  · exact nomatch (show EStateM.Result.error () sharedTensor.heap = .ok root' heap' from hrun)
  · exact nomatch (show EStateM.Result.error () sharedTensor.heap = .ok root' heap' from hrun)
  · obtain ⟨rfl, rfl⟩ := EStateM.Result.ok.inj ((hresult n).symm.trans hrun)
    exact absurd hsame (by decide)

end TorchNpu.Utils.Serialization
