import SmallScript.Proofs.Evaluation.Parts

/-! # A larger budget

The budget only cuts runs off.  A run that ends, with a value or with a fault, is the same run with
every larger budget: `eval_of_le` for trees, `evaluate_of_le` for scripts.  So it makes sense to say
that a script ends without saying how much it may use.
-/

namespace SmallScript

namespace Eval

def Finishes {α : Type} (action : Eval α) (m : Machine) : Prop :=
  ∀ m', action m ≠ .error .unfinished m'

section Rounds

variable {run : Node → Eval Completion} {m : Machine}

/-- A loop that ends within its rounds does not need one more. -/
theorem repeatWhile_succ {condition body : Node} {line n : Nat} {last : Value}
    (ends : Finishes (repeatWhile run condition body line n last) m) :
    repeatWhile run condition body line (n + 1) last m = repeatWhile run condition body line n last m := by
  induction n generalizing m last with
  | zero => exact absurd rfl (ends m)
  | succ n ih =>
    cases test : truthOf run condition line m with
    | error halt m₁ => exact (bind_of_error test).trans (bind_of_error test).symm
    | ok goesOn m₁ =>
      refine (bind_of_ok test).trans (Eq.trans ?_ (bind_of_ok test).symm)
      cases goesOn with
      | false => rfl
      | true =>
        cases round : run body m₁ with
        | error halt m₂ => exact (bind_of_error round).trans (bind_of_error round).symm
        | ok completion m₂ =>
          refine (bind_of_ok round).trans (Eq.trans ?_ (bind_of_ok round).symm)
          cases completion with
          | returned v => rfl
          | normal v =>
            -- a later round that is cut off would cut off the loop
            refine ih fun m' cut => ends m' ?_
            exact (bind_of_ok test).trans ((bind_of_ok round).trans cut)

theorem step_rounds_succ {settings : Settings} {rounds : Nat} {node : Node}
    (ends : Finishes (step run settings rounds node) m) :
    step run settings (rounds + 1) node m = step run settings rounds node m := by
  cases node with
  | loop condition body line => exact repeatWhile_succ ends
  | binary left op right line => cases op <;> rfl
  | _ => rfl

end Rounds

end Eval

open Eval

variable {settings : Settings} {m : Machine}

theorem eval_succ {budget : Nat} {node : Node} (ends : Finishes (eval settings budget node) m) :
    eval settings (budget + 1) node m = eval settings budget node m := by
  induction budget generalizing node m with
  | zero => exact absurd rfl (ends m)
  | succ budget ih =>
    -- no part uses up its budget, because then the whole would
    have same : step (eval settings budget) settings budget node m =
        step (eval settings (budget + 1)) settings budget node m := by
      apply step_congr
      · intro use x m₁ starts
        exact (ih fun m₂ cut => ends _ (starts.propagates cut)).symm
      · intro d frame m₁ enters
        exact (ih fun m₂ cut => ends _ (enters.propagates cut)).symm
    have ends' : Finishes (step (eval settings (budget + 1)) settings budget node) m :=
      fun m' cut => ends m' (same.trans cut)
    exact (step_rounds_succ ends').trans same.symm

theorem eval_of_le {budget budget' : Nat} (le : budget ≤ budget') {node : Node}
    (ends : Finishes (eval settings budget node) m) :
    eval settings budget' node m = eval settings budget node m := by
  induction le with
  | refl => rfl
  | step _ ih =>
    have ends' : Finishes (eval settings _ node) m := fun m' cut => ends m' (ih.symm.trans cut)
    exact (eval_succ ends').trans ih

theorem evaluateFrom_of_le {budget budget' : Nat} (le : budget ≤ budget') {last : Value}
    {statements : List Node} (ends : Finishes (evaluateFrom settings budget last statements) m) :
    evaluateFrom settings budget' last statements m = evaluateFrom settings budget last statements m := by
  have agree : Agree (fun _ => True) (fun _ => True) (evaluateFrom settings budget last statements)
      (evaluateFrom settings budget' last statements) m := by
    refine evaluateFrom_agree trivial (fun x m₁ order _ => .of_same ?_) last
    exact (eval_of_le le fun m₂ cut => ends m₂ (order.evaluateFrom_stops cut last)).symm
  exact agree.same.symm

theorem evaluate_of_le {budget budget' : Nat} (le : budget ≤ budget') {statements : List Node}
    (ends : Finishes (evaluate settings budget statements) m) :
    evaluate settings budget' statements m = evaluate settings budget statements m :=
  evaluateFrom_of_le le ends

end SmallScript
