import SmallScript.Proofs.Evaluation.OtherTrees
import SmallScript.Proofs.Grammar.Renumber
import SmallScript.Proofs.Grammar.Shape

/-! # Runs of trees with other lines

A run copies the lines of its trees into faults and does nothing else with them.  So a run of trees with
other lines does the same and stops with the same fault, on the line that stands in the place of the
first one.

A tree that has no line would be an exception: its faults are put on a line that is in no tree.  Only
blocks have none, and no value is asked of a block in the trees of a script.
-/

namespace SmallScript

open Eval

theorem Node.IsExpression.exists_line {x : Node} (shape : x.IsExpression) : ∃ l, x.line? = some l := by
  cases shape <;> exact ⟨_, rfl⟩

/-- The same declaration with other lines, where the body is that of a script. -/
structure Declaration.Renumbered (f : Nat → Nat) (d d' : Declaration) : Prop where
  same : d' = { d with body := d.body.renumber f, line := f d.line }
  shape : d.body.IsStatement fun _ => True

/-- The same machine, up to the lines in the table of functions. -/
abbrev Machine.Renumbered (f : Nat → Nat) (a b : Machine) : Prop :=
  a.Redeclared (Declaration.Renumbered f) b

namespace Likeness

def renumbered (f : Nat → Nat) : Likeness Unit :=
  ofTrees (fun l l' => l' = f l)
    (fun use x y => y = x.renumber f ∧ x.IsStatement (fun _ => True) ∧
      (use = .value → ∃ l, x.line? = some l))
    (Declaration.Renumbered f)

variable {f : Nat → Nat} {i : Unit}

theorem trees_of_expression {x : Node} (shape : x.IsExpression) (use : Use) :
    (renumbered f).trees i use x (x.renumber f) :=
  ⟨rfl, .expression shape, fun _ => shape.exists_line⟩

theorem trees_of_statement {x : Node} (shape : x.IsStatement fun _ => True) :
    (renumbered f).trees i .statement x (x.renumber f) :=
  ⟨rfl, shape, nofun⟩

theorem forall₂_renumber {use : Use} {xs : List Node}
    (all : ∀ x ∈ xs, (renumbered f).trees i use x (x.renumber f)) :
    List.Forall₂ ((renumbered f).trees i use) xs (xs.map (Node.renumber f)) :=
  List.forall₂_map_right_iff.mpr (List.forall₂_same.mpr all)

theorem matches_of_expression {x : Node} (shape : x.IsExpression) :
    (renumbered f).Matches i x (x.renumber f) := by
  have part {y : Node} (shape : y.IsExpression) := trees_of_expression (f := f) (i := i) shape .value
  cases shape with
  | number => exact .number
  | truth => exact .truth
  | text => exact .text
  | name => exact .name rfl
  | input => exact .input rfl
  | unary operand => exact .unary rfl (part operand)
  | binary computes left right => exact .binary computes rfl (part left) (part right)
  | compare left right => exact .compare rfl (part left) (part right)
  | logic left right => exact .logic rfl (part left) (part right)
  | call arguments =>
    rw [Node.renumber, Node.renumberList_eq_map]
    exact .call rfl (forall₂_renumber fun x member => part (arguments x member))

/-- A condition is tested on its own line. -/
theorem lines_of_condition {c : Node} (shape : c.IsExpression) (l l' : Nat) :
    (renumbered f).lines (c.line?.getD l) ((c.renumber f).line?.getD l') := by
  obtain ⟨line, here⟩ := shape.exists_line
  rw [Node.line?_renumber, here]
  rfl

theorem matches_of_statement {x : Node} (shape : x.IsStatement fun _ => True) :
    (renumbered f).Matches i x (x.renumber f) := by
  have part {y : Node} (shape : y.IsExpression) := trees_of_expression (f := f) (i := i) shape .value
  cases shape with
  | expression shape => exact matches_of_expression shape
  | assign value => exact .assign (part value)
  | print value => exact .print rfl (part value)
  | ret _ value => exact .ret rfl (part value)
  | @conditional c b e l condition thenBlock elseBranch =>
    rw [Node.renumber, Node.renumberOption_eq_map]
    refine .conditional (lines_of_condition condition l _) (part condition) (trees_of_statement thenBlock) ?_
    cases e with
    | none => exact .none
    | some e => exact .some (trees_of_statement (elseBranch e rfl))
  | block statements =>
    rw [Node.renumber, Node.renumberList_eq_map]
    exact .block (.of_forall₂ (forall₂_renumber fun x member => trees_of_statement (statements x member)))
  | @loop c b l condition body =>
    exact .loop (lines_of_condition condition l _) (part condition) (trees_of_statement body)
  | function body => exact .function ⟨rfl, body⟩

theorem lawful_renumbered (settings : Settings) : (renumbered f).Lawful settings settings := by
  refine lawful_ofTrees ?_ ?_ ?_ settings
  · rintro use x _ ⟨rfl, shape, _⟩
    exact matches_of_statement shape
  · rintro x _ ⟨rfl, _, line⟩
    -- a tree without a line would put its fault on line 0 in both runs
    obtain ⟨l, here⟩ := line rfl
    rw [Node.line?_renumber, here]
    rfl
  · rintro d _ ⟨rfl, shape⟩
    exact ⟨rfl, rfl, trees_of_statement (i := ()) shape⟩

end Likeness

end SmallScript
