import SmallScript.Fault
import SmallScript.Node

/-! # Other line numbers

Tokens, trees and faults carry line numbers.  `Renumber.renumber f` puts `f l` in the place of every line
`l` that they hold and leaves all else as it is; a block without a line stays without one.
-/

namespace SmallScript

/-! ## Trees -/

namespace Node

mutual

def renumber (f : Nat → Nat) : Node → Node
  | number v l => .number v (f l)
  | truth v l => .truth v (f l)
  | text v l => .text v (f l)
  | name n l => .name n (f l)
  | unary op x l => .unary op (renumber f x) (f l)
  | binary x op y l => .binary (renumber f x) op (renumber f y) (f l)
  | compare x op y l => .compare (renumber f x) op (renumber f y) (f l)
  | logic x op y l => .logic (renumber f x) op (renumber f y) (f l)
  | print x l => .print (renumber f x) (f l)
  | input p l => .input p (f l)
  | conditional c b e l => .conditional (renumber f c) (renumber f b) (renumberOption f e) (f l)
  | block xs l => .block (renumberList f xs) (l.map f)
  | loop c b l => .loop (renumber f c) (renumber f b) (f l)
  | function n ns b l => .function n ns (renumber f b) (f l)
  | call n xs l => .call n (renumberList f xs) (f l)
  | ret x l => .ret (renumber f x) (f l)

def renumberList (f : Nat → Nat) : List Node → List Node
  | [] => []
  | x :: xs => renumber f x :: renumberList f xs

def renumberOption (f : Nat → Nat) : Option Node → Option Node
  | none => none
  | some x => some (renumber f x)

end

variable (f : Nat → Nat)

@[simp] theorem renumberList_eq_map (xs : List Node) : renumberList f xs = xs.map (renumber f) := by
  induction xs with
  | nil => rfl
  | cons x xs ih => rw [renumberList, ih, List.map_cons]

@[simp] theorem renumberOption_eq_map (x : Option Node) : renumberOption f x = x.map (renumber f) := by
  cases x <;> rfl

@[simp] theorem line?_renumber (x : Node) : (x.renumber f).line? = x.line?.map f := by
  cases x <;> rfl

@[simp] theorem endsWithBlock_renumber (x : Node) : (x.renumber f).endsWithBlock = x.endsWithBlock := by
  cases x <;> rfl

theorem ofStatements_renumber (xs : List Node) :
    (ofStatements xs).renumber f = ofStatements (xs.map (renumber f)) := by
  cases xs with
  | nil => rfl
  | cons x xs => simp [ofStatements, renumber]

mutual

theorem renumber_id : ∀ x : Node, x.renumber id = x
  | number .. | truth .. | text .. | name .. | input .. => rfl
  | unary _ x _ | print x _ | ret x _ | function _ _ x _ => by rw [renumber, renumber_id x, id_eq]
  | binary x _ y _ | compare x _ y _ | logic x _ y _ | loop x y _ => by
    rw [renumber, renumber_id x, renumber_id y, id_eq]
  | conditional c b e l => by rw [renumber, renumber_id c, renumber_id b, renumberOption_id e, id_eq]
  | block xs l => by rw [renumber, renumberList_id xs, Option.map_id, id_eq]
  | call n xs l => by rw [renumber, renumberList_id xs, id_eq]

theorem renumberList_id : ∀ xs : List Node, renumberList id xs = xs
  | [] => rfl
  | x :: xs => by rw [renumberList, renumber_id x, renumberList_id xs]

theorem renumberOption_id : ∀ x : Option Node, renumberOption id x = x
  | none => rfl
  | some x => by rw [renumberOption, renumber_id x]

end

end Node

/-! ## All that has lines -/

/-- Values that may hold lines. -/
class Renumber (α : Type) where
  /-- The value with other lines. -/
  renumber : (Nat → Nat) → α → α
  renumber_id : ∀ x, renumber id x = x

namespace Renumber

instance : Renumber Node := ⟨Node.renumber, Node.renumber_id⟩

instance : Renumber Lexeme := ⟨fun f t => ⟨t.token, f t.line⟩, fun _ => rfl⟩

instance {κ : Type} : Renumber (Fault κ) := ⟨fun f fault => ⟨fault.cause, f fault.line⟩, fun _ => rfl⟩

instance : Renumber String := ⟨fun _ s => s, fun _ => rfl⟩

/-- The target of an assignment has two lines, its own and that of the sign behind it. -/
instance : Renumber (String × Nat × Nat) := ⟨fun f t => (t.1, f t.2.1, f t.2.2), fun _ => rfl⟩

instance : Renumber Unit := ⟨fun _ u => u, fun _ => rfl⟩

instance {α : Type} [Renumber α] : Renumber (List α) where
  renumber f xs := xs.map (renumber f)
  renumber_id xs := by
    have same : renumber id = (id : α → α) := funext renumber_id
    rw [same, List.map_id]

instance {α : Type} [Renumber α] : Renumber (Option α) where
  renumber f x := x.map (renumber f)
  renumber_id x := by
    have same : renumber id = (id : α → α) := funext renumber_id
    rw [same, Option.map_id, id_eq]

instance {ε α : Type} [Renumber ε] [Renumber α] : Renumber (Except ε α) where
  renumber f
    | .ok x => .ok (renumber f x)
    | .error e => .error (renumber f e)
  renumber_id
    | .ok x => congrArg Except.ok (renumber_id x)
    | .error e => congrArg Except.error (renumber_id e)

variable {α : Type} [Renumber α] (f : Nat → Nat)

@[simp] theorem renumber_append (xs ys : List α) :
    renumber f (xs ++ ys) = renumber f xs ++ renumber f ys :=
  List.map_append

end Renumber

end SmallScript
