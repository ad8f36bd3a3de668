import SmallScript.Fault
import SmallScript.Operator
import SmallScript.Text

/-! # Values

What an expression gives: a number, a truth value, a text, or nothing.

* `Value.display` is the text that `print` writes.
* `Value.ofInput` is the value of a line that a user types: a number if the line spells a finite one,
  and otherwise the line itself.
* `Value.unary`, `Value.arithmetic` and `Value.compare` apply operators.  Numbers are ordered by size and
  texts by their bytes; truth values and nothing can only be equal or different.  An operator that has no
  meaning on its operands is a fault on the operator's line.
-/

namespace SmallScript

inductive Value where
  | number (value : Float)
  | boolean (value : Bool)
  | text (value : String)
  /-- What statements give. -/
  | empty
  deriving DecidableEq, Inhabited

/-! ## Comparisons -/

namespace CompareOp

def isEquality : CompareOp → Bool
  | equal | notEqual => true
  | _ => false

/-- Whether a comparison holds of two values in this order; `none` is for values that have no
    order. -/
def holds : CompareOp → Option Ordering → Bool
  | equal, order => order == some .eq
  | notEqual, order => order != some .eq
  | less, order => order == some .lt
  | lessEqual, order => order == some .lt || order == some .eq
  | greater, order => order == some .gt
  | greaterEqual, order => order == some .gt || order == some .eq

end CompareOp

namespace Value

/-! ## Values and texts -/

def kind : Value → Kind
  | number _ => .number
  | boolean _ => .boolean
  | text _ => .text
  | empty => .empty

def isEmpty : Value → Bool
  | empty => true
  | _ => false

def display : Value → String
  | number value => Number.text value
  | boolean true => "true"
  | boolean false => "false"
  | text value => value
  | empty => ""

def endsLine (c : Char) : Bool :=
  c == '\n' || c == '\r'

/-- Line ends do not belong to a typed line, and blanks around a number do not matter; blanks around
    anything else do. -/
def ofInput (typed : String) : Value :=
  let line := Text.dropEndWhile endsLine typed.toList
  match Number.read? (Text.trim line) with
  | some x => if x.isFinite then number x else text (String.ofList line)
  | none => text (String.ofList line)

/-! ## Operators -/

def asNumber (line : Nat) : Value → Except RuntimeFault Float
  | number value => .ok value
  | _ => .error ⟨.expectedNumber, line⟩

def asBoolean (line : Nat) : Value → Except RuntimeFault Bool
  | boolean value => .ok value
  | _ => .error ⟨.expectedBoolean, line⟩

def unary (op : UnaryOp) (operand : Value) (line : Nat) : Except RuntimeFault Value :=
  match op with
  | .plus => return number (← operand.asNumber line)
  | .negate => return number (-(← operand.asNumber line))
  | .not => return boolean (!(← operand.asBoolean line))

def arithmetic (op : BinaryOp) (left right : Value) (line : Nat) : Except RuntimeFault Value :=
  match op, left, right with
  | .add, number a, number b => .ok (number (a + b))
  | .add, text a, text b => .ok (text (a ++ b))
  | .sub, number a, number b => .ok (number (a - b))
  | .mul, number a, number b => .ok (number (a * b))
  | .div, number a, number b => .ok (number (a / b))
  -- an assignment has no value to compute
  | .assign, _, _ => .error ⟨.invalidTarget, line⟩
  | _, _, _ => .error ⟨.typeMismatch op.symbol left.kind right.kind, line⟩

/-- What is not a number has no place in the order of numbers. -/
def orderNumbers (a b : Float) : Option Ordering :=
  if a < b then some .lt
  else if a == b then some .eq
  else if b < a then some .gt
  else none

def compare (op : CompareOp) (left right : Value) (line : Nat) : Except RuntimeFault Value :=
  let mismatch := .error ⟨.typeMismatch op.symbol left.kind right.kind, line⟩
  match left, right with
  | number a, number b => .ok (boolean (op.holds (orderNumbers a b)))
  | text a, text b => .ok (boolean (op.holds (some (Text.compareBytes a b))))
  | boolean a, boolean b =>
    if op.isEquality then .ok (boolean (op.holds (some (Ord.compare a b)))) else mismatch
  | empty, empty => if op.isEquality then .ok (boolean (op.holds (some .eq))) else mismatch
  | _, _ => mismatch

end Value

end SmallScript
