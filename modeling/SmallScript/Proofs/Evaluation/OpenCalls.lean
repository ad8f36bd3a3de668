import SmallScript.Proofs.Evaluation.Placement
import SmallScript.Proofs.Grammar.TreeLines

/-! # The calls that are open

`Reached` has the declarations of the functions whose bodies are open.

* `Reached.keeps`: what trees and declarations hand on holds of every tree that is run, in view of the
  calls that are open there.
* `Raises.onLine`: a fault is on a line of the tree that raises it.
* `exists_raisedIn`: every fault of a parsed script is raised by a tree itself.
-/

namespace SmallScript

namespace Eval

/-- A tree that is run while these calls are open raises the fault itself. -/
def RaisedIn (settings : Settings) (budget : Nat) (statements : List Node) (m : Machine)
    (calls : List Declaration) (fault : RuntimeFault) : Prop :=
  ∃ use b x m' m'', Reached settings budget statements m calls use b x m' ∧
    Raises settings x m' (.fault fault) ∧ eval settings b x m' = .error (.fault fault) m''

variable {settings : Settings} {budget : Nat} {statements : List Node} {m : Machine}

/-- What trees and declarations hand on, every tree that is run has, and so has the table of functions. -/
theorem Reached.keeps {T : List Declaration → Node → Prop} {D : Declaration → Prop} (lasting : Lasting T D)
    (trees : ∀ x ∈ statements, T [] x) (declares : m.Declares D) {calls : List Declaration} {use : Use}
    {b : Nat} {x : Node} {m' : Machine} (reached : Reached settings budget statements m calls use b x m') :
    T calls x ∧ m'.Declares D := by
  have parts {calls : List Declaration} {b : Nat} {x : Node} (tree : T calls x) (y : Node)
      (member : y ∈ x.parts) (m : Machine) (declares : m.Declares D) :
      (after (eval settings b y) m).Declares D :=
    lasting.declares_after_eval settings b calls (lasting.parts tree member) declares
  -- both at once: the bodies of calls come from the table of functions
  induction reached with
  | @statement x m' order =>
    refine ⟨trees x order.mem, order.keeps (fun y member m declares => ?_) declares⟩
    exact lasting.declares_after_eval settings budget [] (trees y member) declares
  | part _ starts ih =>
    obtain ⟨tree, declares⟩ := ih
    exact ⟨lasting.parts tree starts.mem_parts, starts.keeps (parts tree) declares⟩
  | @body calls _ _ _ _ _ _ _ _ enters ih =>
    obtain ⟨tree, declares⟩ := ih
    have kept := enters.keeps (parts tree) declares
    obtain ⟨admitted, _⟩ := enters
    exact ⟨lasting.body calls (declares _ _ admitted.found), kept⟩

/-! ## Lines -/

/-- A fault is on the line of the tree that raises it, or of the condition that it tests. -/
theorem Raises.onLine {x : Node} {m : Machine} {fault : RuntimeFault} (raises : Raises settings x m (.fault fault))
    {P : Nat → Prop} (onLines : x.OnLines P) : P fault.line := by
  -- where the condition has no line, the line of the tree stands in for it
  have condition {c : Node} {l : Nat} (part : c ∈ x.parts) (own : x.line? = some l) : P (c.line?.getD l) := by
    cases line : c.line? with
    | none => exact onLines.line own
    | some k => exact (onLines.of_mem_parts part).line line
  generalize raised : Halt.fault fault = halt at raises
  cases raises with
  | unary refused =>
    cases raised
    rcases Value.unary_fault refused with same | same <;> cases same <;> exact onLines.line rfl
  | arithmetic computes refused =>
    cases raised
    cases Value.arithmetic_fault computes refused
    exact onLines.line rfl
  | compare refused =>
    cases raised
    cases Value.compare_fault refused
    exact onLines.line rfl
  | logic refused =>
    cases raised
    cases Value.asBoolean_fault refused
    exact onLines.line rfl
  | conditional refused | loop refused =>
    cases raised
    cases Value.asBoolean_fault refused
    exact condition (by simp [Node.parts]) rfl
  | unfinished => cases raised
  | _ =>
    cases raised
    exact onLines.line rfl

/-- A fault of a parsed script is raised by one of the trees that are run. -/
theorem exists_raisedIn (session : m.InSession) {line : Nat} {source : String}
    (parsed : parseAt line source = .ok statements) {fault : RuntimeFault} {m' : Machine}
    (stops : evaluate settings budget statements m = .error (.fault fault) m') :
    ∃ calls, RaisedIn settings budget statements m calls fault := by
  obtain ⟨_, _, shapes⟩ := isStatement_of_parsed parsed
  obtain ⟨tidy, outside⟩ := session.tidy_outside
  cases origin_of_evaluate stops with
  | cut unfinished => cases unfinished
  | own reached raises stops => exact ⟨_, _, _, _, _, _, reached, raises, stops⟩
  | stray reached returns => exact absurd returns (reached.ne_returned shapes tidy outside _ _)

/-- The line of a fault has the property that the lines of the tree have. -/
theorem RaisedIn.onLine {D : Declaration → Prop} {P : List Declaration → Nat → Prop}
    (lasting : Lasting (fun calls x => x.OnLines (P calls)) D)
    (trees : ∀ x ∈ statements, x.OnLines (P [])) (declares : m.Declares D) {calls : List Declaration}
    {fault : RuntimeFault} (raised : RaisedIn settings budget statements m calls fault) :
    P calls fault.line := by
  obtain ⟨_, _, _, _, _, reached, raises, _⟩ := raised
  exact raises.onLine (reached.keeps lasting trees declares).1

end Eval

end SmallScript
