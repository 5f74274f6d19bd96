/-
  Processes that run in lock step.

  Each process of a group runs a program.  A program ends with a result, fails, or makes a call and goes on
  with the reply.  The processes call together: `meaning` says which replies they may get for their requests.
  Where it gives none the processes hang, and where one of them fails the others never get their reply.
-/
import Mathlib.Logic.Nonempty

namespace TorchNpu

namespace Spmd

variable {ι Req Rep α : Type}

/-- A program of one process. -/
inductive Program (Req Rep α : Type)
  | ret (result : α)
  | fail (error : String)
  | call (req : Req) (next : Rep → Program Req Rep α)

/-- A check that fails ends the program. -/
def Program.check {β : Type} (x : Except String β) (next : β → Program Req Rep α) : Program Req Rep α :=
  match x with
  | .error e => .fail e
  | .ok b => next b

/-- Whatever the replies are, the program ends with an error. -/
inductive Program.Fails : Program Req Rep α → Prop
  | fail (error : String) : Fails (.fail error)
  | call {req : Req} {next : Rep → Program Req Rep α} (h : ∀ rep, Fails (next rep)) :
    Fails (.call req next)

/-- All programs end with their results. -/
inductive Runs (meaning : (ι → Req) → (ι → Rep) → Prop) : (ι → Program Req Rep α) → (ι → α) → Prop
  | ret (results : ι → α) : Runs meaning (fun i => .ret (results i)) results
  | call {req : ι → Req} {next : ι → Rep → Program Req Rep α} {rep : ι → Rep} {results : ι → α}
    (hrep : meaning req rep) (h : Runs meaning (fun i => next i (rep i)) results) :
    Runs meaning (fun i => .call (req i) (next i)) results

variable {meaning : (ι → Req) → (ι → Rep) → Prop} {programs : ι → Program Req Rep α} {results : ι → α}

theorem runs_ret_iff [Nonempty ι] {a : ι → α} :
    Runs meaning (fun i => .ret (a i)) results ↔ results = a := by
  constructor
  · intro h
    generalize hp : (fun i => Program.ret (a i)) = programs at h
    cases h with
    | ret _ => exact funext fun i => (Program.ret.inj (congrFun hp i)).symm
    | call _ _ => exact nomatch congrFun hp (Classical.arbitrary ι)
  · rintro rfl
    exact .ret results

theorem runs_call_iff [Nonempty ι] {req : ι → Req} {next : ι → Rep → Program Req Rep α} :
    Runs meaning (fun i => .call (req i) (next i)) results ↔
      ∃ rep, meaning req rep ∧ Runs meaning (fun i => next i (rep i)) results := by
  constructor
  · intro h
    generalize hp : (fun i => Program.call (req i) (next i)) = programs at h
    cases h with
    | ret _ => exact nomatch congrFun hp (Classical.arbitrary ι)
    | call hrep h =>
      rename_i req' next' rep
      obtain rfl : req = req' := funext fun i => (Program.call.inj (congrFun hp i)).1
      obtain rfl : next = next' := funext fun i => (Program.call.inj (congrFun hp i)).2
      exact ⟨rep, hrep, h⟩
  · rintro ⟨rep, hrep, h⟩
    exact .call hrep h

theorem Program.fails_check {β : Type} {x : Except String β} {next : β → Program Req Rep α}
    (h : ∀ b, x = .ok b → (next b).Fails) : (Program.check x next).Fails := by
  cases x with
  | error e => exact .fail e
  | ok b => exact h b rfl

/-- A program that ends is not one that fails. -/
theorem not_fails_of_runs (h : Runs meaning programs results) (i : ι) : ¬(programs i).Fails := by
  induction h with
  | ret results => exact nofun
  | call hrep h ih =>
    intro hfails
    cases hfails with
    | call hfails => exact ih (hfails _)

end Spmd

end TorchNpu
