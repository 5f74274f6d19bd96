/-
  Machines with labelled steps, and the induction rule for their runs.

  A machine is a partial step function `step : σ → ℓ → Option σ`; a label says which party moves and
  resolves every choice of that party's environment, and `none` means that the step cannot happen.
  `run` follows a list of labels.  `Guarded step G s ls` says that every step of that run starts in a
  state where `G` allows its label; with `G` always true it says nothing.
-/
import Mathlib.Data.List.Basic

namespace TorchNpu

namespace Machine

variable {σ ℓ : Type*} (step : σ → ℓ → Option σ)

/-- The state after the steps `ls`, if all of them can happen. -/
def run : σ → List ℓ → Option σ
  | s, [] => some s
  | s, l :: ls => (step s l).bind fun s' => run s' ls

/-- Every step of the run along `ls` starts in a state where `G` allows it. -/
def Guarded (G : σ → ℓ → Prop) : σ → List ℓ → Prop
  | _, [] => True
  | s, l :: ls => G s l ∧ ∀ s' ∈ step s l, Guarded G s' ls

instance decidableGuarded (G : σ → ℓ → Prop) [∀ s l, Decidable (G s l)] :
    ∀ s ls, Decidable (Guarded step G s ls)
  | _, [] => isTrue trivial
  | s, l :: ls =>
    have : ∀ s', Decidable (Guarded step G s' ls) := fun s' => decidableGuarded G s' ls
    inferInstanceAs (Decidable (G s l ∧ ∀ s' ∈ step s l, Guarded step G s' ls))

variable {step}

/-- A condition on labels alone. -/
theorem guarded_of_forall {P : ℓ → Prop} {s : σ} {ls : List ℓ} (h : ∀ l ∈ ls, P l) :
    Guarded step (fun _ => P) s ls := by
  induction ls generalizing s with
  | nil => exact trivial
  | cons l ls ih =>
    rw [List.forall_mem_cons] at h
    exact ⟨h.1, fun s' _ => ih h.2⟩

theorem run_cons {s t : σ} {l : ℓ} {ls : List ℓ} :
    run step s (l :: ls) = some t ↔ ∃ s', step s l = some s' ∧ run step s' ls = some t := by
  rw [run, Option.bind_eq_some_iff]

theorem run_append {s t : σ} {ls ls' : List ℓ} :
    run step s (ls ++ ls') = some t ↔ ∃ u, run step s ls = some u ∧ run step u ls' = some t := by
  induction ls generalizing s with
  | nil => simp [run]
  | cons l ls ih =>
    rw [List.cons_append, run_cons]
    constructor
    · rintro ⟨s', hs', h⟩
      obtain ⟨u, hu, ht⟩ := ih.mp h
      exact ⟨u, run_cons.mpr ⟨s', hs', hu⟩, ht⟩
    · rintro ⟨u, hu, ht⟩
      obtain ⟨s', hs', hu⟩ := run_cons.mp hu
      exact ⟨s', hs', ih.mpr ⟨u, hu, ht⟩⟩

/-- `run_append`, as an equation. -/
theorem run_append_eq_bind (s : σ) (ls ls' : List ℓ) :
    run step s (ls ++ ls') = (run step s ls).bind fun u => run step u ls' := by
  ext t
  rw [run_append, Option.bind_eq_some_iff]

/-- What every step keeps, whole runs keep. -/
theorem run_induction {P : σ → Prop} {s t : σ} {ls : List ℓ}
    (hstep : ∀ s l s', P s → step s l = some s' → P s') (hs : P s)
    (h : run step s ls = some t) : P t := by
  induction ls generalizing s with
  | nil =>
    cases h
    exact hs
  | cons l ls ih =>
    obtain ⟨s', hs', h⟩ := run_cons.mp h
    exact ih (hstep s l s' hs hs') h

/-- The same for runs whose steps are all allowed. -/
theorem guarded_run_induction {G : σ → ℓ → Prop} {P : σ → Prop} {s t : σ} {ls : List ℓ}
    (hstep : ∀ s l s', P s → G s l → step s l = some s' → P s') (hs : P s)
    (hguard : Guarded step G s ls) (h : run step s ls = some t) : P t := by
  induction ls generalizing s with
  | nil =>
    cases h
    exact hs
  | cons l ls ih =>
    obtain ⟨s', hs', h⟩ := run_cons.mp h
    exact ih (hstep s l s' hs hguard.1 hs') (hguard.2 s' hs') h

/-- Where a step keeps `P` exactly when it is allowed, `P` holds all the way through a run exactly when
every step of it is allowed. -/
theorem forall_take_iff_guarded {G : σ → ℓ → Prop} {P : σ → Prop} {s t : σ} {ls : List ℓ}
    (hstep : ∀ s l s', P s → step s l = some s' → (P s' ↔ G s l)) (hs : P s)
    (h : run step s ls = some t) :
    (∀ k u, run step s (ls.take k) = some u → P u) ↔ Guarded step G s ls := by
  induction ls generalizing s with
  | nil =>
    refine iff_of_true (fun k u hu => ?_) trivial
    rw [List.take_nil] at hu
    cases hu
    exact hs
  | cons l ls ih =>
    obtain ⟨s', hs', h⟩ := run_cons.mp h
    constructor
    · intro hall
      have hP' : P s' := hall 1 s' (run_cons.mpr ⟨s', hs', rfl⟩)
      refine ⟨(hstep s l s' hs hs').mp hP', fun u hu => ?_⟩
      obtain rfl : s' = u := Option.some_inj.mp (hs'.symm.trans hu)
      exact (ih hP' h).mp fun k v hv => hall (k + 1) v (run_cons.mpr ⟨s', hs', hv⟩)
    · rintro ⟨hG, hguard⟩ k u hu
      have hP' : P s' := (hstep s l s' hs hs').mpr hG
      cases k with
      | zero =>
        cases hu
        exact hs
      | succ k =>
        obtain ⟨v, hv, hu⟩ := run_cons.mp hu
        obtain rfl : s' = v := Option.some_inj.mp (hs'.symm.trans hv)
        exact (ih hP' h).mpr (hguard s' hs') k u hu

end Machine

end TorchNpu
