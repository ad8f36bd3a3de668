import SmallScript.Proofs.Evaluation.Likeness

/-! # One run on two machines

Facts about all runs are proved here in one form: two machines that are alike in some way are taken
through the same run, and they end in the same way and are alike again.  What a run keeps of a single
machine is the case where both machines are the same.

* `Eval.Together R x y`: on machines that `R` relates, `x` and `y` end in the same way and leave
  machines that `R` relates.
* `Simulation` collects what the primitive operations have to keep.  `Simulation.eval` is the result:
  they are all that matters.
* `Likeness.ofMachines` is the likeness where only the machines differ, through which it is proved.
-/

namespace SmallScript

namespace Eval

/-! ## Alike runs -/

/-- On related machines, both runs end in the same way and leave related machines. -/
def Together {α : Type} (R : Machine → Machine → Prop) (x y : Eval α) : Prop :=
  ∀ a b, R a b → outcome x a = outcome y b ∧ R (after x a) (after y b)

namespace Together

variable {α β : Type} {R : Machine → Machine → Prop}

theorem pure (value : α) : Together R (Pure.pure value) (Pure.pure value) :=
  fun _ _ related => ⟨rfl, related⟩

theorem throw (halt : Halt) : Together R (α := α) (MonadExcept.throw halt) (MonadExcept.throw halt) :=
  fun _ _ related => ⟨rfl, related⟩

theorem bind {x y : Eval α} {f g : α → Eval β} (first : Together R x y)
    (next : ∀ value, Together R (f value) (g value)) : Together R (x >>= f) (y >>= g) := by
  intro a b related
  obtain ⟨same, alike⟩ := first a b related
  rw [outcome_bind, outcome_bind, after_bind, after_bind, same]
  cases outcome y b with
  | ok value => exact next value _ _ alike
  | error halt => exact ⟨rfl, alike⟩

/-- Runs that look at the machine first. -/
theorem get_bind {f g : Machine → Eval α} (next : ∀ a b, R a b → Together R (f a) (g b)) :
    Together R (get >>= f) (get >>= g) :=
  fun a b related => next a b related a b related

/-- The same is done on consoles that are the same. -/
theorem onConsole (same : ∀ a b, R a b → a.console = b.console)
    (alike : ∀ a b, R a b → ∀ c, R { a with console := c } { b with console := c }) (line : Nat)
    (action : Console.Action α) : Together R (Eval.onConsole line action) (Eval.onConsole line action) := by
  intro a b related
  have changed := alike a b related
  unfold outcome after Eval.onConsole
  simp only [same a b related]
  cases action b.console with
  | ok value c => exact ⟨rfl, changed c⟩
  | error cause c => exact ⟨rfl, changed c⟩

theorem readValue (same : ∀ a b, R a b → a.console = b.console)
    (alike : ∀ a b, R a b → ∀ c, R { a with console := c } { b with console := c }) (prompt : String)
    (line : Nat) : Together R (Eval.readValue prompt line) (Eval.readValue prompt line) :=
  (onConsole same alike line _).bind fun _ => .pure _

/-- A call whose body keeps some other relation, from opening the call to closing it. -/
theorem inFrame {frame : Scope} {x y : Eval α}
    (body : ∀ a b, R a b → ∃ S, S (a.enter frame) (b.enter frame) ∧ Together S x y ∧
      ∀ a' b', S a' b' → R a'.leave b'.leave) :
    Together R (Eval.inFrame frame x) (Eval.inFrame frame y) := by
  have ends (z : Eval α) (m : Machine) :
      outcome (Eval.inFrame frame z) m = outcome z (m.enter frame) ∧
        after (Eval.inFrame frame z) m = (after z (m.enter frame)).leave := by
    unfold outcome after Eval.inFrame
    cases z (m.enter frame) <;> exact ⟨rfl, rfl⟩
  intro a b related
  obtain ⟨S, opened, run, closed⟩ := body a b related
  obtain ⟨same, alike⟩ := run _ _ opened
  rw [(ends x a).1, (ends y b).1, (ends x a).2, (ends y b).2]
  exact ⟨same, closed _ _ alike⟩

/-! ### Parts of a tree -/

section Parts

variable {run run' : Node → Eval Completion}

theorem valueOf {node : Node} (part : Together R (run node) (run' node)) :
    Together R (Eval.valueOf run node) (Eval.valueOf run' node) := by
  refine part.bind fun completion => ?_
  cases completion with
  | normal value => exact .pure value
  | returned value => exact .throw _

theorem bindArguments {arguments : List Node} (parts : ∀ x ∈ arguments, Together R (run x) (run' x))
    (params : List String) (frame : Scope) :
    Together R (Eval.bindArguments run params arguments frame)
      (Eval.bindArguments run' params arguments frame) := by
  induction arguments generalizing params frame with
  | nil => cases params <;> exact .pure _
  | cons argument rest ih =>
    cases params with
    | nil => exact .pure _
    | cons param params =>
      refine (parts argument List.mem_cons_self).valueOf.bind fun value => ?_
      exact ih (fun x member => parts x (List.mem_cons_of_mem _ member)) params _

/-- A call, where both machines know the same functions and have as many calls open. -/
theorem callFunction (functions : ∀ a b, R a b → ∀ name : String, a.functions[name]? = b.functions[name]?)
    (callDepth : ∀ a b, R a b → a.callDepth = b.callDepth)
    {arguments : List Node} (parts : ∀ x ∈ arguments, Together R (run x) (run' x))
    (bodies : ∀ frame body, Together R (Eval.inFrame frame (run body)) (Eval.inFrame frame (run' body)))
    (maxCallDepth : Nat) (name : String) (line : Nat) :
    Together R (Eval.callFunction run maxCallDepth name arguments line)
      (Eval.callFunction run' maxCallDepth name arguments line) := by
  refine .get_bind fun a b related => ?_
  -- both machines find the same declaration, or none, and count the same calls
  rw [functions a b related name, callDepth a b related]
  cases b.functions[name]? with
  | none => exact .throw _
  | some declaration =>
    dsimp only
    split
    · exact .throw _
    split
    · exact .throw _
    refine (Together.bindArguments parts _ _).bind fun frame => ?_
    refine (bodies frame declaration.body).bind fun completion => ?_
    cases completion <;> exact .pure _

end Parts

end Together

end Eval

/-! ## Simulations -/

/-- A family of relations that the primitive operations of a run keep.  Related machines look the same
    to a run, and a call may go over to another relation of the family until it is closed. -/
structure Simulation (scoping : Scoping) {ι : Type} (R : ι → Machine → Machine → Prop) : Prop where
  lookup {i a b} : R i a b → ∀ name, a.lookup scoping name = b.lookup scoping name
  functions {i a b} : R i a b → ∀ name : String, a.functions[name]? = b.functions[name]?
  callDepth {i a b} : R i a b → a.callDepth = b.callDepth
  write {i} : ∀ value line, Eval.Together (R i) (Eval.writeLine value line) (Eval.writeLine value line)
  read {i} : ∀ prompt line, Eval.Together (R i) (Eval.readValue prompt line) (Eval.readValue prompt line)
  define {i a b} : R i a b → ∀ name value, R i (a.define name value) (b.define name value)
  declare {i a b} : R i a b → ∀ declaration, R i (a.declare declaration) (b.declare declaration)
  call {i a b} : R i a b → ∀ frame, ∃ j, R j (a.enter frame) (b.enter frame) ∧
    ∀ a' b', R j a' b' → R i a'.leave b'.leave

namespace Likeness

/-- The same trees are run with the same settings, on machines that the relations relate. -/
def ofMachines {ι : Type} (R : ι → Machine → Machine → Prop) : Likeness ι where
  lines := Eq
  trees _ _ := Eq
  declarations := Eq
  machines := R
  cut _ _ _ := False
  onward := fun cut _ => cut

variable {ι : Type} {R : ι → Machine → Machine → Prop} {i : ι} {α : Type} {x y : Eval α}

theorem not_cuts_ofMachines : ¬ (ofMachines R).Cuts := by
  rintro ⟨_, _, _, cut⟩
  exact cut

theorem Coupled.ofMachines_iff : (ofMachines R).Coupled i x y ↔ Eval.Together (R i) x y := by
  constructor
  · intro coupled a b alike
    exact (coupled.ends a b alike).outcome_eq (fun _ _ same => same) not_cuts_ofMachines
  · intro together
    refine ⟨fun a b alike => ?_, fun cuts => absurd cuts not_cuts_ofMachines⟩
    obtain ⟨same, related⟩ := together a b alike
    unfold Eval.outcome at same
    unfold Eval.after at related
    cases ends : x a <;> cases ends' : y b <;> simp only [ends, ends', Except.ok.injEq, reduceCtorEq,
      Except.error.injEq] at same related
    case ok => subst same; exact .value ends ends' related
    case error =>
      subst same
      refine .halt ends ends' ?_ related
      rename_i halt _ _
      cases halt with
      | fault => exact .fault rfl
      | unfinished => exact .unfinished

end Likeness

namespace Simulation

open Eval Likeness

variable {ι : Type} {R : ι → Machine → Machine → Prop} {settings : Settings}

theorem lawful (sim : Simulation settings.scoping R) : (ofMachines R).Lawful settings settings where
  trees := by
    rintro i use x _ rfl
    exact .refl (fun _ => rfl) (fun _ _ => rfl) (fun _ => rfl) x
  stray := by
    rintro i x _ rfl
    rfl
  params := by
    rintro d _ rfl
    rfl
  lookup := sim.lookup
  functions := by
    intro i a b alike name
    rw [sim.functions alike name]
    cases b.functions[name]? with
    | none => exact .none
    | some d => exact .some rfl
  callDepth := sim.callDepth
  write := by
    rintro i l _ rfl v
    exact Coupled.ofMachines_iff.mpr (sim.write v l)
  read := by
    rintro i l _ rfl prompt
    exact Coupled.ofMachines_iff.mpr (sim.read prompt l)
  define := sim.define
  declare := by
    rintro i a b d _ alike rfl
    exact sim.declare alike d
  call := by
    rintro i a b d _ alike rfl frame
    obtain ⟨j, opened, closed⟩ := sim.call alike frame
    exact ⟨j, opened, rfl, closed⟩
  limit := Nat.le_refl _
  exceeded _ _ := .inl rfl
  grows cuts := absurd cuts not_cuts_ofMachines

/-- Every run keeps what the primitive operations keep. -/
theorem eval (sim : Simulation settings.scoping R) (budget : Nat) (i : ι) (node : Node) :
    Together (R i) (SmallScript.eval settings budget node) (SmallScript.eval settings budget node) := by
  have same : (ofMachines R).trees i .statement node node := rfl
  exact Coupled.ofMachines_iff.mp (sim.lawful.eval budget .statement same)

theorem evaluate (sim : Simulation settings.scoping R) (budget : Nat) (i : ι) (statements : List Node) :
    Together (R i) (SmallScript.evaluate settings budget statements)
      (SmallScript.evaluate settings budget statements) := by
  have same : List.Forall₂ ((ofMachines R).trees i .value) statements statements :=
    List.forall₂_same.mpr fun _ _ => rfl
  exact Coupled.ofMachines_iff.mp (sim.lawful.evaluate budget same)

end Simulation

end SmallScript
