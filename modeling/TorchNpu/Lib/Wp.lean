/-
  Pre- and postconditions of computations with a state and exceptions.

  A computation of `EStateM ε σ` that throws keeps the state it has reached, so there are two
  postconditions: `Q` for the states in which it returns and `E` for the states in which it throws.
  `wp x s Q E` says that `x`, started in `s`, ends in one of them.  The rules follow the way
  computations are put together.  `Keeps f T x` is for the many computations that leave a part of the
  state alone, wherever they start.
-/
import Mathlib.Data.List.Basic

namespace TorchNpu

variable {ε σ α β : Type} {x : EStateM ε σ α} {f : α → EStateM ε σ β} {s : σ}
  {Q Q' : α → σ → Prop} {R : β → σ → Prop} {E E' : ε → σ → Prop}

/-- Started in `s`, `x` returns in a state where `Q` holds or throws in a state where `E` holds. -/
def wp (x : EStateM ε σ α) (s : σ) (Q : α → σ → Prop) (E : ε → σ → Prop) : Prop :=
  match x s with
  | .ok a s' => Q a s'
  | .error e s' => E e s'

theorem wp.mono (h : wp x s Q E) (hQ : ∀ a s', Q a s' → Q' a s') (hE : ∀ e s', E e s' → E' e s') :
    wp x s Q' E' := by
  unfold wp at h ⊢
  cases hx : x s with
  | ok a s' => exact hQ a s' (by simpa [hx] using h)
  | error e s' => exact hE e s' (by simpa [hx] using h)

theorem wp.post (h : wp x s Q E) (hQ : ∀ a s', Q a s' → Q' a s') : wp x s Q' E :=
  h.mono hQ fun _ _ => id

theorem wp.and (h : wp x s Q E) (h' : wp x s Q' E') :
    wp x s (fun a s' => Q a s' ∧ Q' a s') fun e s' => E e s' ∧ E' e s' := by
  unfold wp at h h' ⊢
  cases hx : x s with
  | ok a s' => exact ⟨by simpa [hx] using h, by simpa [hx] using h'⟩
  | error e s' => exact ⟨by simpa [hx] using h, by simpa [hx] using h'⟩

theorem wp_bind (h : wp x s (fun a s' => wp (f a) s' R E) E) : wp (x >>= f) s R E := by
  unfold wp at h ⊢
  change match EStateM.bind x f s with | .ok a s' => R a s' | .error e s' => E e s'
  unfold EStateM.bind
  cases hx : x s with
  | ok a s' => simpa [hx] using h
  | error e s' => simpa [hx] using h

/-- The rule of sequencing: the postcondition of the first part is the precondition of the second. -/
theorem wp.bind (h : wp x s Q E) (hf : ∀ a s', Q a s' → wp (f a) s' R E) : wp (x >>= f) s R E :=
  wp_bind (h.post hf)

theorem wp_pure {a : α} (h : Q a s) : wp (pure a : EStateM ε σ α) s Q E := h

theorem wp_throw {e : ε} (h : E e s) : wp (throw e : EStateM ε σ α) s Q E := h

theorem wp_get {Q : σ → σ → Prop} (h : Q s s) : wp (get : EStateM ε σ σ) s Q E := h

theorem wp_set {s' : σ} {Q : PUnit → σ → Prop} (h : Q ⟨⟩ s') :
    wp (set s' : EStateM ε σ PUnit) s Q E := h

theorem wp_modify {g : σ → σ} {Q : PUnit → σ → Prop} (h : Q ⟨⟩ (g s)) :
    wp (modify g : EStateM ε σ PUnit) s Q E := h

theorem wp_ite {c : Prop} [Decidable c] {y z : EStateM ε σ α} (hy : c → wp y s Q E)
    (hz : ¬c → wp z s Q E) : wp (if c then y else z) s Q E := by
  split_ifs with h
  · exact hy h
  · exact hz h

/-! ### Runs that return -/

theorem bind_of_ok {a : α} {s' : σ} (h : x s = .ok a s') : (x >>= f) s = f a s' := by
  change EStateM.bind x f s = _
  rw [EStateM.bind, h]

theorem bind_of_error {e : ε} {s' : σ} (h : x s = .error e s') : (x >>= f) s = .error e s' := by
  change EStateM.bind x f s = _
  rw [EStateM.bind, h]

/-! ### What a computation leaves alone -/

variable {γ : Type} {g : σ → γ} {T : ε → Prop}

/-- `x` leaves `g` of the state as it was, and throws only what `T` allows. -/
def Keeps (g : σ → γ) (T : ε → Prop) (x : EStateM ε σ α) : Prop :=
  ∀ s, wp x s (fun _ s' => g s' = g s) fun e s' => T e ∧ g s' = g s

theorem Keeps.bind (hx : Keeps g T x) (hf : ∀ a, Keeps g T (f a)) : Keeps g T (x >>= f) :=
  fun s => (hx s).bind fun a s' hs' =>
    (hf a s').mono (fun _ _ h => h.trans hs') fun _ _ h => ⟨h.1, h.2.trans hs'⟩

theorem Keeps.spec (hx : Keeps g T x) (hQ : ∀ a s', g s' = g s → Q a s')
    (hE : ∀ e s', T e → g s' = g s → E e s') : wp x s Q E :=
  (hx s).mono hQ fun e s' h => hE e s' h.1 h.2

/-- A specification together with what the computation leaves alone. -/
theorem Keeps.and (hx : Keeps g T x) (h : wp x s Q E) :
    wp x s (fun a s' => Q a s' ∧ g s' = g s) E :=
  (h.and (hx s)).mono (fun _ _ => id) fun _ _ h => h.1

theorem keeps_pure {a : α} : Keeps g T (pure a : EStateM ε σ α) :=
  fun _ => wp_pure rfl

theorem keeps_throw {e : ε} (h : T e) : Keeps g T (throw e : EStateM ε σ α) :=
  fun _ => wp_throw ⟨h, rfl⟩

theorem keeps_get : Keeps g T (get : EStateM ε σ σ) :=
  fun _ => wp_get rfl

theorem keeps_modify {u : σ → σ} (h : ∀ s, g (u s) = g s) :
    Keeps g T (modify u : EStateM ε σ PUnit) :=
  fun s => wp_modify (h s)

theorem keeps_ite {c : Prop} [Decidable c] {y z : EStateM ε σ α} (hy : Keeps g T y)
    (hz : Keeps g T z) : Keeps g T (if c then y else z) :=
  fun s => wp_ite (fun _ => hy s) fun _ => hz s

end TorchNpu
