import SmallScript.Proofs.Evaluation.TwoRuns

/-! # What every run leaves as it was

A call opens a scope, and it closes the scope however its body ends.  So a run, also one that stops
with a fault in the middle of many calls, changes only the innermost scope of the machine it started
on, and there it only adds variables or gives them new values.

* `Machine.Kept start m` says that of a machine `m` that is reached from `start`.
* `Kept.leave` is the step that matters: a call may do to its own scope what it likes.
* `kept_after_eval` and `kept_after_evaluate` are about all runs.
-/

namespace SmallScript

namespace Machine

/-- On the way from `start` to `m`, calls have been closed, scopes other than the innermost one have
    been left alone, and no variable or function has gone. -/
structure Kept (start m : Machine) : Prop where
  callDepth : m.callDepth = start.callDepth
  scopes : ∃ inner inner' outer, start.scopes = inner :: outer ∧ m.scopes = inner' :: outer ∧
    ∀ name ∈ inner, name ∈ inner'
  functions : ∀ name ∈ start.functions, name ∈ m.functions

namespace Kept

variable {start m : Machine}

theorem refl (opened : m.scopes ≠ []) : Kept m m := by
  obtain ⟨inner, outer, split⟩ := List.exists_cons_of_ne_nil opened
  exact ⟨rfl, ⟨inner, inner, outer, split, split, fun _ => id⟩, fun _ => id⟩

theorem trans {next : Machine} (first : Kept start m) (second : Kept m next) : Kept start next := by
  obtain ⟨inner, inner', outer, before, split, names⟩ := first.scopes
  obtain ⟨_, inner'', _, again, after, names'⟩ := second.scopes
  cases again.symm.trans split
  refine ⟨second.callDepth.trans first.callDepth,
    ⟨inner, inner'', outer, before, after, fun n member => names' n (names n member)⟩, ?_⟩
  exact fun n member => second.functions n (first.functions n member)

theorem ne_nil (kept : Kept start m) : m.scopes ≠ [] := by
  obtain ⟨_, inner', outer, _, split, _⟩ := kept.scopes
  rw [split]
  exact List.cons_ne_nil inner' outer

theorem withConsole (kept : Kept start m) (c : Console) : Kept start { m with console := c } :=
  ⟨kept.callDepth, kept.scopes, kept.functions⟩

theorem define (kept : Kept start m) (name : String) (value : Value) :
    Kept start (m.define name value) := by
  obtain ⟨callDepth, ⟨inner, inner', outer, before, split, names⟩, functions⟩ := kept
  obtain ⟨scopes, table, depth, console⟩ := m
  cases split
  refine ⟨callDepth, ⟨inner, inner'.insert name value, outer, before, rfl, ?_⟩, functions⟩
  intro n member
  exact Std.TreeMap.mem_insert.mpr (.inr (names n member))

theorem declare (kept : Kept start m) (declaration : Declaration) :
    Kept start (m.declare declaration) := by
  refine ⟨kept.callDepth, kept.scopes, fun n member => ?_⟩
  exact Std.TreeMap.mem_insert.mpr (.inr (kept.functions n member))

/-- What is kept from the opening of a call on is kept from before the call until after it.  The scope
    of the call is on top of those of `m`, so closing it brings back exactly these. -/
theorem leave (kept : Kept start m) {frame : Scope} {m' : Machine} (body : Kept (m.enter frame) m') :
    Kept start m'.leave := by
  obtain ⟨inner, inner', outer, before, split, names⟩ := kept.scopes
  obtain ⟨_, frame', _, opened, top, _⟩ := body.scopes
  cases opened
  have closed : m'.leave.scopes = m.scopes := scopes_leave top kept.ne_nil
  have depth : m'.callDepth = m.callDepth + 1 := body.callDepth
  refine ⟨?_, ⟨inner, inner', outer, before, closed.trans split, names⟩, ?_⟩
  · rw [callDepth_leave, depth, Nat.add_sub_cancel, kept.callDepth]
  · intro n member
    rw [functions_leave]
    exact body.functions n (kept.functions n member)

end Kept

end Machine

/-- Both machines are the same, and `Kept` relates it to where the run started. -/
theorem simulation_kept (scoping : Scoping) :
    Simulation scoping fun (start a b : Machine) => a = b ∧ start.Kept a where
  lookup := fun ⟨same, _⟩ _ => same ▸ rfl
  functions := fun ⟨same, _⟩ _ => same ▸ rfl
  callDepth := fun ⟨same, _⟩ => same ▸ rfl
  write := fun _ line => .onConsole (fun _ _ ⟨same, _⟩ => same ▸ rfl)
    (fun _ _ ⟨same, kept⟩ c => ⟨same ▸ rfl, kept.withConsole c⟩) line _
  read := .readValue (fun _ _ ⟨same, _⟩ => same ▸ rfl)
    (fun _ _ ⟨same, kept⟩ c => ⟨same ▸ rfl, kept.withConsole c⟩)
  define := fun ⟨same, kept⟩ name value => ⟨same ▸ rfl, kept.define name value⟩
  declare := fun ⟨same, kept⟩ declaration => ⟨same ▸ rfl, kept.declare declaration⟩
  call := by
    rintro start a _ ⟨rfl, kept⟩ frame
    -- the body of the call is compared with the machine right after the call was opened
    refine ⟨a.enter frame, ⟨rfl, .refl (List.cons_ne_nil _ _)⟩, ?_⟩
    rintro a' _ ⟨rfl, body⟩
    exact ⟨rfl, kept.leave body⟩

theorem kept_after_eval (settings : Settings) (budget : Nat) (node : Node) {m : Machine}
    (opened : m.scopes ≠ []) : m.Kept (Eval.after (eval settings budget node) m) :=
  ((simulation_kept settings.scoping).eval budget m node m m ⟨rfl, .refl opened⟩).2.2

theorem kept_after_evaluate (settings : Settings) (budget : Nat) (statements : List Node) {m : Machine}
    (opened : m.scopes ≠ []) : m.Kept (Eval.after (evaluate settings budget statements) m) :=
  ((simulation_kept settings.scoping).evaluate budget m statements m m ⟨rfl, .refl opened⟩).2.2

/-! ## Scripts one after another -/

/-- The machine after scripts have been run on it one after another, each with a budget of its own.
    A script that stops with a fault does not keep the next one from being run. -/
def Machine.afterScripts (settings : Settings) (m : Machine) (scripts : List (Nat × List Node)) :
    Machine :=
  scripts.foldl (fun m script => Eval.after (evaluate settings script.1 script.2) m) m

theorem kept_afterScripts (settings : Settings) (scripts : List (Nat × List Node)) {m : Machine}
    (opened : m.scopes ≠ []) : m.Kept (m.afterScripts settings scripts) := by
  induction scripts generalizing m with
  | nil => exact .refl opened
  | cons script rest ih =>
    have first := kept_after_evaluate settings script.1 script.2 opened
    exact first.trans (ih first.ne_nil)

/-- However a run ends, the calls it has opened are closed, the scopes other than the innermost one are
    untouched, and no variable of the innermost one and no function has gone.  So scripts that are run
    one after another on a fresh machine leave it with one scope and no open call. -/
theorem scopes_after_eval :
    (∀ (settings : Settings) (budget : Nat) (node : Node) (m : Machine), m.scopes ≠ [] →
      let m' := Eval.after (eval settings budget node) m
      m'.callDepth = m.callDepth ∧ m'.scopes.length = m.scopes.length ∧
      m'.scopes.tail = m.scopes.tail ∧
      (∀ inner ∈ m.scopes.head?, ∀ inner' ∈ m'.scopes.head?, ∀ name ∈ inner, name ∈ inner') ∧
      ∀ name ∈ m.functions, name ∈ m'.functions) ∧
    ∀ (settings : Settings) (console : Console) (scripts : List (Nat × List Node)),
      let m := (Machine.fresh console).afterScripts settings scripts
      m.scopes.length = 1 ∧ m.callDepth = 0 := by
  constructor
  · intro settings budget node m opened m'
    have kept : m.Kept m' := kept_after_eval settings budget node opened
    obtain ⟨inner, inner', outer, before, after, names⟩ := kept.scopes
    refine ⟨kept.callDepth, by simp [before, after], by simp [before, after], ?_, kept.functions⟩
    simpa [before, after] using names
  · intro settings console scripts m
    have kept : (Machine.fresh console).Kept m :=
      kept_afterScripts settings scripts (List.cons_ne_nil _ _)
    obtain ⟨_, _, _, before, after, _⟩ := kept.scopes
    cases before
    exact ⟨by simp [after], kept.callDepth⟩

/-- A call that stops with a fault in the middle of its body. -/
theorem scopes_after_failed_call :
    let caller : Scope := (∅ : Scope).insert "x" (.boolean true)
    let body : Node := .block [.binary (.name "y" 2) .assign (.name "x" 2) 2] none
    let m : Machine := ⟨[caller, ∅], Std.TreeMap.empty.insert "f" ⟨"f", [], body, 1⟩, 1, .ofInput []⟩
    let m' := Eval.after (eval .standard 6 (.call "f" [] 3)) m
    m.scopes ≠ [] ∧
    Eval.outcome (eval .standard 6 (.call "f" [] 3)) m = .error (.fault ⟨.unknownVariable "x", 2⟩) ∧
    m'.callDepth = 1 ∧ m'.scopes.length = 2 ∧ m'.scopes.tail = [∅] ∧
    (∀ inner ∈ m.scopes.head?, ∀ inner' ∈ m'.scopes.head?, ∀ name ∈ inner, name ∈ inner') ∧
    ∀ name ∈ m.functions, name ∈ m'.functions := by
  intro caller body m m'
  have opened : m.scopes ≠ [] := List.cons_ne_nil _ _
  have fails : Eval.outcome (eval .standard 6 (.call "f" [] 3)) m =
      .error (.fault ⟨.unknownVariable "x", 2⟩) := by rfl
  exact ⟨opened, fails, scopes_after_eval.1 .standard 6 (.call "f" [] 3) m opened⟩

end SmallScript
