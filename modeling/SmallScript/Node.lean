import SmallScript.Operator

/-! # Trees

A script is a list of trees.  One type covers statements and expressions, because running a tree is
defined for every tree, also for the many that no script text denotes.  Each node carries the line of
the token that it was made from; a block carries the line of its first statement, if it has one.
Whether two trees are equal can be decided: `Node.same` compares shapes, contents and lines.
-/

namespace SmallScript

inductive Node where
  | number (value : Float) (line : Nat)
  | truth (value : Bool) (line : Nat)
  | text (value : String) (line : Nat)
  | name (value : String) (line : Nat)
  | unary (op : UnaryOp) (operand : Node) (line : Nat)
  | binary (left : Node) (op : BinaryOp) (right : Node) (line : Nat)
  | compare (left : Node) (op : CompareOp) (right : Node) (line : Nat)
  | logic (left : Node) (op : LogicOp) (right : Node) (line : Nat)
  | print (value : Node) (line : Nat)
  | input (prompt : String) (line : Nat)
  | conditional (condition thenBlock : Node) (elseBranch : Option Node) (line : Nat)
  | block (statements : List Node) (line : Option Nat)
  | loop (condition body : Node) (line : Nat)
  | function (name : String) (params : List String) (body : Node) (line : Nat)
  | call (name : String) (arguments : List Node) (line : Nat)
  | ret (value : Node) (line : Nat)
  deriving Inhabited

namespace Node

/-- Only a block can be without a line. -/
def line? : Node → Option Nat
  | number _ line | truth _ line | text _ line | name _ line | unary _ _ line
  | binary _ _ _ line | compare _ _ _ line | logic _ _ _ line | print _ line | input _ line
  | conditional _ _ _ line | loop _ _ line | function _ _ _ line | call _ _ line
  | ret _ line => some line
  | block _ line => line

/-- Statements that close with a block need no semicolon behind them. -/
def endsWithBlock : Node → Bool
  | conditional .. | loop .. | function .. => true
  | _ => false

/-- A block stands on the line of its first statement. -/
def ofStatements (statements : List Node) : Node :=
  block statements (statements.head?.bind line?)

/-! ## Equality -/

mutual

def same : Node → Node → Bool
  | number v l, number v' l' => decide (v = v') && decide (l = l')
  | truth v l, truth v' l' => decide (v = v') && decide (l = l')
  | text v l, text v' l' => decide (v = v') && decide (l = l')
  | name n l, name n' l' => decide (n = n') && decide (l = l')
  | unary o a l, unary o' a' l' => decide (o = o') && same a a' && decide (l = l')
  | binary a o b l, binary a' o' b' l' =>
    same a a' && decide (o = o') && same b b' && decide (l = l')
  | compare a o b l, compare a' o' b' l' =>
    same a a' && decide (o = o') && same b b' && decide (l = l')
  | logic a o b l, logic a' o' b' l' =>
    same a a' && decide (o = o') && same b b' && decide (l = l')
  | print a l, print a' l' => same a a' && decide (l = l')
  | input p l, input p' l' => decide (p = p') && decide (l = l')
  | conditional c t e l, conditional c' t' e' l' =>
    same c c' && same t t' && sameOption e e' && decide (l = l')
  | block s l, block s' l' => sameList s s' && decide (l = l')
  | loop c b l, loop c' b' l' => same c c' && same b b' && decide (l = l')
  | function n p b l, function n' p' b' l' =>
    decide (n = n') && decide (p = p') && same b b' && decide (l = l')
  | call n a l, call n' a' l' => decide (n = n') && sameList a a' && decide (l = l')
  | ret a l, ret a' l' => same a a' && decide (l = l')
  | _, _ => false

def sameList : List Node → List Node → Bool
  | [], [] => true
  | a :: as, b :: bs => same a b && sameList as bs
  | _, _ => false

def sameOption : Option Node → Option Node → Bool
  | none, none => true
  | some a, some b => same a b
  | _, _ => false

end

mutual

theorem same_iff : ∀ a b : Node, same a b = true ↔ a = b
  | number .., b | truth .., b | text .., b | name .., b | input .., b => by
    cases b <;> simp [same]
  | unary _ a _, b | print a _, b | ret a _, b | function _ _ a _, b => by
    cases b <;> simp [same, same_iff a, and_assoc]
  | binary a _ c _, b | compare a _ c _, b | logic a _ c _, b | loop a c _, b => by
    cases b <;> simp [same, same_iff a, same_iff c, and_assoc]
  | conditional c t e _, b => by
    cases b <;> simp [same, same_iff c, same_iff t, sameOption_iff e, and_assoc]
  | block s _, b | call _ s _, b => by
    cases b <;> simp [same, sameList_iff s, and_assoc]

theorem sameList_iff : ∀ a b : List Node, sameList a b = true ↔ a = b
  | [], b => by cases b <;> simp [sameList]
  | a :: as, b => by cases b <;> simp [sameList, same_iff a, sameList_iff as]

theorem sameOption_iff : ∀ a b : Option Node, sameOption a b = true ↔ a = b
  | none, b => by cases b <;> simp [sameOption]
  | some a, b => by cases b <;> simp [sameOption, same_iff a]

end

instance : DecidableEq Node := fun a b => decidable_of_iff _ (same_iff a b)

end Node

end SmallScript
