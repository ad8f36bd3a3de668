import SmallScript.Proofs.Evaluation.OtherTrees

/-! # Code behind a `return`

A `return` leaves its block or stops the script, so the statements that follow it in the same block are
never run.  What they are, and whether there are any, makes no difference to a script.

* `Node.prune` and `Node.pruneStatements` cut off what stands behind a `return`, in every block of a tree
  and of a list of statements.  Two scripts differ in dead code only if nothing else is left of one than of
  the other.
* `evaluate_pruned`: a pruned script runs as the script itself.
-/

namespace SmallScript

open Eval

namespace Node

def isReturn : Node → Bool
  | ret .. => true
  | _ => false

/-- The statements up to the first `return`, which is the last one that is kept. -/
def upToReturn : List Node → List Node
  | [] => []
  | x :: xs => if x.isReturn then [x] else x :: upToReturn xs

mutual

/-- The tree without what stands behind a `return` in its blocks. -/
def prune : Node → Node
  | number v l => .number v l
  | truth v l => .truth v l
  | text v l => .text v l
  | name n l => .name n l
  | unary op x l => .unary op (prune x) l
  | binary x op y l => .binary (prune x) op (prune y) l
  | compare x op y l => .compare (prune x) op (prune y) l
  | logic x op y l => .logic (prune x) op (prune y) l
  | print x l => .print (prune x) l
  | input p l => .input p l
  | conditional c b e l => .conditional (prune c) (prune b) (pruneOption e) l
  | block xs l => .block (upToReturn (pruneList xs)) l
  | loop c b l => .loop (prune c) (prune b) l
  | function n ns b l => .function n ns (prune b) l
  | call n xs l => .call n (pruneList xs) l
  | ret x l => .ret (prune x) l

def pruneList : List Node → List Node
  | [] => []
  | x :: xs => prune x :: pruneList xs

def pruneOption : Option Node → Option Node
  | none => none
  | some x => some (prune x)

end

/-- The statements of a block or of a script, without what stands behind a `return` in it or in a block
    inside it. -/
def pruneStatements (xs : List Node) : List Node :=
  upToReturn (xs.map prune)

@[simp] theorem pruneList_eq_map (xs : List Node) : pruneList xs = xs.map prune := by
  induction xs with
  | nil => rfl
  | cons x xs ih => rw [pruneList, ih, List.map_cons]

@[simp] theorem pruneOption_eq_map (x : Option Node) : pruneOption x = x.map prune := by
  cases x <;> rfl

@[simp] theorem line?_prune (x : Node) : x.prune.line? = x.line? := by
  cases x <;> rfl

@[simp] theorem isReturn_prune (x : Node) : x.prune.isReturn = x.isReturn := by
  cases x <;> rfl

theorem eq_ret_of_isReturn {x : Node} (returns : x.isReturn = true) : ∃ v l, x = .ret v l := by
  cases x with
  | ret v l => exact ⟨v, l, rfl⟩
  | _ => cases returns

theorem prune_ne_name {x : Node} (other : ∀ n l, x ≠ .name n l) (n : String) (l : Nat) :
    x.prune ≠ .name n l := by
  cases x with
  | name n l => exact absurd rfl (other n l)
  | _ => exact nofun

/-- The statements go together with the pruned ones, up to the first `return`. -/
theorem upToReturn_prune {R : Node → Node → Prop} {xs : List Node} (all : ∀ x ∈ xs, R x x.prune) :
    UpToReturn R xs (pruneStatements xs) := by
  induction xs with
  | nil => exact .nil
  | cons x xs ih =>
    have first := all x List.mem_cons_self
    unfold pruneStatements
    rw [List.map_cons, upToReturn, isReturn_prune]
    cases returns : x.isReturn with
    | true =>
      obtain ⟨v, l, rfl⟩ := eq_ret_of_isReturn returns
      exact .ret first
    | false => exact .cons first (ih fun y member => all y (List.mem_cons_of_mem x member))

end Node

def Declaration.prune (d : Declaration) : Declaration :=
  { d with body := d.body.prune }

namespace Likeness

def pruned : Likeness Unit :=
  ofTrees Eq (fun _ x y => y = x.prune) (fun d d' => d' = d.prune)

/-- A condition is tested on its own line, which is kept. -/
theorem lines_prune (c : Node) (l : Nat) : pruned.lines (c.line?.getD l) (c.prune.line?.getD l) := by
  rw [Node.line?_prune]
  rfl

theorem matches_prune (x : Node) : pruned.Matches () x x.prune := by
  cases x with
  | number => exact .number
  | truth => exact .truth
  | text => exact .text
  | name => exact .name rfl
  | unary => exact .unary rfl rfl
  | binary x op y l =>
    by_cases assigns : op = .assign
    · subst assigns
      -- an assignment tells names from all other targets, and pruning turns nothing else into a name
      by_cases target : ∃ n k, x = .name n k
      · obtain ⟨n, k, rfl⟩ := target
        exact .assign rfl
      · have other : ∀ n k, x ≠ .name n k := fun n k same => target ⟨n, k, same⟩
        exact .noTarget rfl other (Node.prune_ne_name other)
    · exact .binary assigns rfl rfl rfl
  | compare => exact .compare rfl rfl rfl
  | logic => exact .logic rfl rfl rfl
  | print => exact .print rfl rfl
  | input => exact .input rfl
  | conditional c b e l =>
    rw [Node.prune, Node.pruneOption_eq_map]
    refine .conditional (lines_prune c l) rfl rfl ?_
    cases e with
    | none => exact .none
    | some e => exact .some rfl
  | block xs l =>
    rw [Node.prune, Node.pruneList_eq_map]
    exact .block (Node.upToReturn_prune fun _ _ => rfl)
  | loop c b l => exact .loop (lines_prune c l) rfl rfl
  | function => exact .function rfl
  | call n xs l =>
    rw [Node.prune, Node.pruneList_eq_map]
    exact .call rfl (List.forall₂_map_right_iff.mpr (List.forall₂_same.mpr fun _ _ => rfl))
  | ret => exact .ret rfl rfl

theorem lawful_pruned (settings : Settings) : pruned.Lawful settings settings := by
  refine lawful_ofTrees ?_ ?_ ?_ settings
  · rintro use x _ rfl
    exact matches_prune x
  · rintro x _ rfl
    rw [Node.line?_prune]
  · rintro d _ rfl
    exact ⟨rfl, rfl, rfl⟩

end Likeness

/-- A pruned script ends as the script itself, on a machine that is the same but for the dead code of the
    functions it knows. -/
theorem evaluate_pruned (settings : Settings) (budget : Nat) (xs : List Node) (console : Console) :
    outcome (evaluate settings budget xs) (.fresh console) =
      outcome (evaluate settings budget (Node.pruneStatements xs)) (.fresh console) ∧
    (after (evaluate settings budget xs) (.fresh console)).Redeclared (fun d d' => d' = d.prune)
      (after (evaluate settings budget (Node.pruneStatements xs)) (.fresh console)) := by
  have alike : UpToReturn (Likeness.pruned.trees () .value) xs (Node.pruneStatements xs) :=
    Node.upToReturn_prune fun _ _ => rfl
  have coupled := (Likeness.lawful_pruned settings).evaluate_upToReturn budget alike
  exact (coupled.ends _ _ (.fresh console)).outcome_eq (fun _ _ same => same) Likeness.not_cuts_ofTrees

theorem Machine.Redeclared.map_prune {a b : Machine} (alike : a.Redeclared (fun d d' => d' = d.prune) b)
    (name : String) : a.functions[name]?.map Declaration.prune = b.functions[name]? := by
  have found := alike.functions name
  generalize a.functions[name]? = d at found ⊢
  generalize b.functions[name]? = d' at found ⊢
  cases found with
  | none => rfl
  | some same => exact congrArg some same.symm

/-- The statements behind a `return` in the same block are dead.  Scripts that are the same without them,
    in every block at any depth, in the bodies of functions and at the top, end in the same way with every
    budget: one comes to an end if and only if the other does, with the same value or the same fault.  They
    write the same, leave the same input and the same variables, and know the same functions, up to the
    statements behind a `return`. -/
theorem behind_return_is_dead {xs ys : List Node} (same : Node.pruneStatements xs = Node.pruneStatements ys)
    (settings : Settings) (budget : Nat) (console : Console) :
    let m := after (evaluate settings budget xs) (.fresh console)
    let m' := after (evaluate settings budget ys) (.fresh console)
    outcome (evaluate settings budget xs) (.fresh console) =
      outcome (evaluate settings budget ys) (.fresh console) ∧
    m.console = m'.console ∧ m.scopes = m'.scopes ∧ m.callDepth = m'.callDepth ∧
    ∀ name : String, m.functions[name]?.map Declaration.prune = m'.functions[name]?.map Declaration.prune := by
  intro m m'
  -- both are compared with what is left of them
  obtain ⟨first, alike⟩ := evaluate_pruned settings budget xs console
  obtain ⟨second, alike'⟩ := evaluate_pruned settings budget ys console
  rw [← same] at second alike'
  refine ⟨first.trans second.symm, ?_, ?_, ?_, fun name => ?_⟩
  · exact alike.console_eq.symm.trans alike'.console_eq
  · exact alike.scopes_eq.symm.trans alike'.scopes_eq
  · exact alike.callDepth_eq.symm.trans alike'.callDepth_eq
  · rw [alike.map_prune name, alike'.map_prune name]

/-- A `return` in a branch inside a function, and one at the top that stops the script. -/
theorem behind_return_is_dead_branch :
    let guarded (dead : List Node) : Node :=
      .conditional (.truth true 1) (.block (.ret (.text "early" 1) 1 :: dead) (some 1)) none 1
    let script (dead deader : List Node) : List Node :=
      [.function "f" [] (.block [guarded dead, .print (.text "late" 2) 2] (some 1)) 1, .print (.call "f" [] 3) 3] ++
        .ret (.truth true 4) 4 :: deader
    let xs := script [.print (.text "never" 1) 1, .call "g" [] 1] []
    let ys := script [] [.print (.call "f" [] 5) 5]
    Node.pruneStatements xs = Node.pruneStatements ys ∧
    outcome (evaluate .standard 9 xs) (.fresh (.ofInput [])) = .error (.fault ⟨.strayReturn, 4⟩) ∧
    outcome (evaluate .standard 9 ys) (.fresh (.ofInput [])) = .error (.fault ⟨.strayReturn, 4⟩) ∧
    (after (evaluate .standard 9 ys) (.fresh (.ofInput []))).console.output = "early\n".toUTF8 := by
  intro guarded script xs ys
  have same : Node.pruneStatements xs = Node.pruneStatements ys := rfl
  have stops : outcome (evaluate .standard 9 xs) (.fresh (.ofInput [])) = .error (.fault ⟨.strayReturn, 4⟩) := by
    simp only [xs, script, guarded]
    rfl
  have written : (after (evaluate .standard 9 xs) (.fresh (.ofInput []))).console.output = "early\n".toUTF8 := by
    simp only [xs, script, guarded]
    rfl
  obtain ⟨outcomes, consoles, _⟩ := behind_return_is_dead same .standard 9 (.ofInput [])
  exact ⟨same, stops, outcomes ▸ stops, consoles ▸ written⟩

end SmallScript
