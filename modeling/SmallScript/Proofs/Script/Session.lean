import SmallScript.Proofs.Evaluation.Budget
import SmallScript.Proofs.Evaluation.Output
import SmallScript.Script

/-! # The actions of a session

A session reads a text, runs its statements and prints the value.  Each of the three either goes on or
stops, and what it does to the machine is said here once.
-/

namespace SmallScript.Script

open Eval

/-! ## How a session ends -/

section Ends

variable {α : Type}

def outcome (action : Session α) (m : Machine) : Except Failure α :=
  match action m with
  | .ok value _ => .ok value
  | .error failure _ => .error failure

def after (action : Session α) (m : Machine) : Machine :=
  match action m with
  | .ok _ m => m
  | .error _ m => m

theorem outcome_of_error {x : Session α} {m m' : Machine} {failure : Failure} (stops : x m = .error failure m') :
    outcome x m = .error failure := by
  rw [outcome, stops]

theorem eq_error_of_outcome {x : Session α} {m : Machine} {failure : Failure}
    (fails : outcome x m = .error failure) : x m = .error failure (after x m) := by
  unfold outcome at fails
  unfold after
  cases ends : x m with
  | ok v m' => rw [ends] at fails; cases fails
  | error failure' m' => rw [ends] at fails; cases fails; rfl

theorem ends_congr {x y : Session α} {m m' : Machine} (same : x m = y m') :
    outcome x m = outcome y m' ∧ after x m = after y m' := by
  unfold outcome after
  rw [same]
  exact ⟨rfl, rfl⟩

theorem perform_congr {x y : Eval α} {m m' : Machine} (same : x m = y m') :
    perform x m = perform y m' := by
  change EStateM.adaptExcept Failure.run x m = EStateM.adaptExcept Failure.run y m'
  unfold EStateM.adaptExcept
  rw [same]

end Ends

/-! ## Reading, running and printing -/

variable {m m' : Machine}

theorem perform_of_ok {α : Type} {action : Eval α} {v : α} (ends : action m = .ok v m') :
    perform action m = .ok v m' := by
  change EStateM.adaptExcept Failure.run action m = _
  rw [EStateM.adaptExcept, ends]

theorem perform_of_error {α : Type} {action : Eval α} {halt : Halt} (stops : action m = .error halt m') :
    perform action m = .error (.run halt) m' := by
  change EStateM.adaptExcept Failure.run action m = _
  rw [EStateM.adaptExcept, stops]

theorem read_ok {line : Nat} {source : String} {statements : List Node}
    (parsed : parseAt line source = .ok statements) (m : Machine) : read line source m = .ok statements m := by
  unfold read
  rw [parsed]
  rfl

theorem read_error {line : Nat} {source : String} {fault : SyntaxFault}
    (refused : parseAt line source = .error fault) (m : Machine) :
    read line source m = .error (.text fault) m := by
  unfold read
  rw [refused]
  rfl

/-- An echo only adds to the console, and only the console can refuse it. -/
theorem echo_cases (v : Value) (line : Nat) (m : Machine) :
    (∃ c, m.console.Extends c ∧ echo v line m = .ok () { m with console := c }) ∨
      ∃ cause c, v.isEmpty = false ∧ m.console.Extends c ∧
        echo v line m = .error (.run (.fault ⟨.console cause, line⟩)) { m with console := c } := by
  unfold echo
  cases empty : v.isEmpty with
  | true => exact .inl ⟨m.console, .refl _, rfl⟩
  | false =>
    have adds := Console.Adds.write (v.display ++ "\n") m.console
    cases write : Console.write (v.display ++ "\n") m.console with
    | ok _ c =>
      rw [write] at adds
      exact .inl ⟨c, adds, perform_of_ok (onConsole_of_ok write line)⟩
    | error cause c =>
      rw [write] at adds
      exact .inr ⟨cause, c, rfl, adds, perform_of_error (onConsole_of_error write line)⟩

/-! ## Whole scripts -/

/-- Only printing the value can fail when it is known. -/
theorem conclude_cases (printsValue : Bool) (statements : List Node) (v : Value) (m : Machine) :
    (∃ c, m.console.Extends c ∧ conclude printsValue statements v m = .ok v { m with console := c }) ∨
      ∃ cause c, v.isEmpty = false ∧ m.console.Extends c ∧
        conclude printsValue statements v m = .error
          (.run (.fault ⟨.console cause, (statements.getLast?.bind Node.line?).getD 1⟩))
          { m with console := c } := by
  cases printsValue with
  | false => exact .inl ⟨m.console, .refl _, rfl⟩
  | true =>
    rcases echo_cases v ((statements.getLast?.bind Node.line?).getD 1) m with
      ⟨c, added, done⟩ | ⟨cause, c, nonempty, added, refused⟩
    · exact .inl ⟨c, added, bind_of_ok done⟩
    · exact .inr ⟨cause, c, nonempty, added, bind_of_error refused⟩

section Run

variable {settings : Settings} {budget : Nat} {printsValue : Bool} {source : String}
  {statements : List Node}

theorem run_of_parsed (parsed : parseAt 1 source = .ok statements) (m : Machine) :
    run settings budget printsValue source m =
      (perform (evaluate settings budget statements) >>= conclude printsValue statements) m :=
  bind_of_ok (read_ok parsed m)

theorem run_of_refused {fault : SyntaxFault} (refused : parseAt 1 source = .error fault) (m : Machine) :
    run settings budget printsValue source m = .error (.text fault) m :=
  bind_of_error (read_error refused m)

/-- A larger budget does not change a run that has ended. -/
theorem run_of_le {budget' : Nat} (le : budget ≤ budget')
    (ends : outcome (run settings budget printsValue source) m ≠ .error (.run .unfinished)) :
    run settings budget' printsValue source m = run settings budget printsValue source m := by
  cases parsed : parseAt 1 source with
  | error fault => rw [run_of_refused parsed, run_of_refused parsed]
  | ok statements =>
    have finishes : Finishes (evaluate settings budget statements) m := by
      intro m' cut
      apply ends
      unfold outcome
      rw [run_of_parsed parsed, bind_of_error (perform_of_error cut)]
    rw [run_of_parsed parsed, run_of_parsed parsed]
    exact bind_of_eq (perform_congr (evaluate_of_le le finishes))

end Run

/-! ## Lines -/

/-- What running one line can do.  A blank line is not even read. -/
inductive LineResult (settings : Settings) (budget line : Nat) (text : List Char) (m : Machine) :
    EStateM.Result Failure Machine Unit → Prop where
  | blank : LineResult settings budget line text m (.ok () m)
  | refused {fault} (parsed : parseAt line (String.ofList text) = .error fault) :
      LineResult settings budget line text m (.error (.text fault) m)
  | stopped {statements halt m'} (parsed : parseAt line (String.ofList text) = .ok statements)
      (stops : evaluate settings budget statements m = .error halt m') :
      LineResult settings budget line text m (.error (.run halt) m')
  | unprinted {statements v m₁ cause m'} (parsed : parseAt line (String.ofList text) = .ok statements)
      (ends : evaluate settings budget statements m = .ok v m₁)
      (refused : echo v line m₁ = .error (.run (.fault ⟨.console cause, line⟩)) m') :
      LineResult settings budget line text m (.error (.run (.fault ⟨.console cause, line⟩)) m')
  | done {statements v m₁ c} (parsed : parseAt line (String.ofList text) = .ok statements)
      (ends : evaluate settings budget statements m = .ok v m₁) :
      LineResult settings budget line text m (.ok () { m₁ with console := c })

theorem lineResult (settings : Settings) (budget line : Nat) (text : List Char) (m : Machine) :
    LineResult settings budget line text m (runLine settings budget line text m) := by
  unfold runLine
  cases Text.isBlankText text with
  | true => exact .blank
  | false =>
    change LineResult settings budget line text m ((read line (String.ofList text) >>= _) m)
    -- reading, running and echoing are tried in this order
    cases parsed : parseAt line (String.ofList text) with
    | error fault =>
      rw [bind_of_error (read_error parsed m)]
      exact .refused parsed
    | ok statements =>
      rw [bind_of_ok (read_ok parsed m)]
      cases ends : evaluate settings budget statements m with
      | error halt m₁ =>
        rw [bind_of_error (perform_of_error ends)]
        exact .stopped parsed ends
      | ok v m₁ =>
        rw [bind_of_ok (perform_of_ok ends)]
        rcases echo_cases v line m₁ with ⟨c, _, done⟩ | ⟨cause, c, _, _, refused⟩
        · rw [done]
          exact .done parsed ends
        · rw [refused]
          exact .unprinted parsed ends refused

end SmallScript.Script
