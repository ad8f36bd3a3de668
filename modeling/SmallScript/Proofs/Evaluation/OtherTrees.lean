import SmallScript.Proofs.Evaluation.Parts

/-! # Runs of other trees

Two runs with the same settings, on machines that are the same but for the bodies of the functions they
know.  Only the trees tell such runs apart, so nothing has to be shown but that the trees are alike.

* `Machine.Redeclared D a b`: the machines are the same, up to declarations that `D` relates.
* `Likeness.ofTrees` is the likeness with such machines, and `lawful_ofTrees` says what is asked of its
  trees.
-/

namespace SmallScript

open Eval

namespace Machine

/-- The same machine, up to the declarations in the table of functions. -/
structure Redeclared (D : Declaration → Declaration → Prop) (a b : Machine) : Prop where
  same : b = { a with functions := b.functions }
  functions : ∀ name : String, Option.Rel D a.functions[name]? b.functions[name]?

namespace Redeclared

variable {D : Declaration → Declaration → Prop} {a b : Machine}

theorem fresh (console : Console) : (Machine.fresh console).Redeclared D (Machine.fresh console) where
  same := rfl
  functions name := by
    have none : (Machine.fresh console).functions[name]? = none := by simp [Machine.fresh]
    rw [none]
    exact .none

theorem scopes_eq (alike : a.Redeclared D b) : b.scopes = a.scopes := by
  rw [alike.same]

theorem callDepth_eq (alike : a.Redeclared D b) : b.callDepth = a.callDepth := by
  rw [alike.same]

theorem console_eq (alike : a.Redeclared D b) : b.console = a.console := by
  rw [alike.same]

theorem withConsole (alike : a.Redeclared D b) (c : Console) :
    ({ a with console := c } : Machine).Redeclared D { b with console := c } where
  same := by rw [alike.same]
  functions := alike.functions

theorem define (alike : a.Redeclared D b) (name : String) (v : Value) :
    (a.define name v).Redeclared D (b.define name v) := by
  obtain ⟨scopes, functions, callDepth, console⟩ := a
  obtain ⟨same, related⟩ := alike
  rw [same]
  cases scopes <;> exact ⟨rfl, related⟩

theorem declare (alike : a.Redeclared D b) {d d' : Declaration} (names : d.name = d'.name)
    (declared : D d d') : (a.declare d).Redeclared D (b.declare d') where
  same := by
    rw [alike.same]
    rfl
  functions name := by
    -- both tables change at the same name
    simp only [Machine.declare, Std.TreeMap.getElem?_insert, names]
    split
    · exact .some declared
    · exact alike.functions name

theorem enter (alike : a.Redeclared D b) (frame : Scope) : (a.enter frame).Redeclared D (b.enter frame) where
  same := by
    rw [alike.same]
    rfl
  functions := alike.functions

theorem leave (alike : a.Redeclared D b) : a.leave.Redeclared D b.leave := by
  obtain ⟨scopes, functions, callDepth, console⟩ := a
  obtain ⟨same, related⟩ := alike
  rw [same]
  match scopes with
  | [] | [_] | _ :: _ :: _ => exact ⟨rfl, related⟩

end Redeclared

end Machine

namespace Likeness

/-- Only the trees differ, and with them what the machines know of functions. -/
def ofTrees (lines : Nat → Nat → Prop) (trees : Use → Node → Node → Prop)
    (declarations : Declaration → Declaration → Prop) : Likeness Unit where
  lines := lines
  trees _ := trees
  declarations := declarations
  machines _ := Machine.Redeclared declarations
  cut _ _ _ := False
  onward := fun cut _ => cut

variable {lines : Nat → Nat → Prop} {trees : Use → Node → Node → Prop}
  {declarations : Declaration → Declaration → Prop} {i : Unit}

theorem not_cuts_ofTrees : ¬ (ofTrees lines trees declarations).Cuts := by
  rintro ⟨_, _, _, cut⟩
  exact cut

theorem Coupled.onConsole_ofTrees {α : Type} {l l' : Nat} (alike : lines l l') (action : Console.Action α) :
    (ofTrees lines trees declarations).Coupled i (Eval.onConsole l action) (Eval.onConsole l' action) where
  grows cuts := absurd cuts not_cuts_ofTrees
  ends a b machines := by
    -- the action sees the same console, and the line only gets into its fault
    have console := machines.console_eq
    cases done : action a.console with
    | ok v c =>
      exact .value (onConsole_of_ok done l) (onConsole_of_ok (console ▸ done) l') (machines.withConsole c)
    | error cause c =>
      exact .halt (onConsole_of_error done l) (onConsole_of_error (console ▸ done) l') (.fault alike)
        (machines.withConsole c)

/-- What is asked of alike trees: their roots match, and the declarations that they make are called in the
    same way and have alike bodies. -/
theorem lawful_ofTrees
    (roots : ∀ use x y, trees use x y → (ofTrees lines trees declarations).Matches () x y)
    (stray : ∀ x y, trees .value x y → lines (x.line?.getD 0) (y.line?.getD 0))
    (declared : ∀ d d', declarations d d' →
      d.name = d'.name ∧ d.params = d'.params ∧ trees .statement d.body d'.body) (settings : Settings) :
    (ofTrees lines trees declarations).Lawful settings settings where
  trees := roots _ _ _
  stray := stray _ _
  params alike := (declared _ _ alike).2.1
  lookup machines name := by
    unfold Machine.lookup
    rw [machines.scopes_eq]
  functions machines := machines.functions
  callDepth machines := machines.callDepth_eq.symm
  write alike v := Coupled.onConsole_ofTrees alike _
  read alike prompt := (Coupled.onConsole_ofTrees alike _).bind fun _ => .pure _
  define machines := machines.define
  declare machines alike := machines.declare (declared _ _ alike).1 alike
  call machines alike frame :=
    ⟨(), machines.enter frame, (declared _ _ alike).2.2, fun _ _ machines => machines.leave⟩
  limit := Nat.le_refl _
  exceeded _ _ := .inl rfl
  grows cuts := absurd cuts not_cuts_ofTrees

end Likeness

end SmallScript
