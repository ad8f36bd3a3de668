import SmallScript.Symbol

/-! # Operators

Four families: prefix operators, arithmetic with assignment, comparisons, and the two logical
connectives.  Each operator has the symbol that writes it, and `ofSymbol?` finds the operator that a
symbol stands for between two operands (or before one).
-/

namespace SmallScript

inductive UnaryOp where
  | plus
  | negate
  | not
  deriving DecidableEq, Repr, Inhabited

/-- An arithmetic operator, or assignment. -/
inductive BinaryOp where
  | add
  | sub
  | mul
  | div
  | assign
  deriving DecidableEq, Repr, Inhabited

inductive CompareOp where
  | equal
  | notEqual
  | less
  | lessEqual
  | greater
  | greaterEqual
  deriving DecidableEq, Repr, Inhabited

/-- A connective that looks at its right operand only if the left one does not decide. -/
inductive LogicOp where
  | and
  | or
  deriving DecidableEq, Repr, Inhabited

/-! ## Symbols of operators -/

def UnaryOp.symbol : UnaryOp → Symbol
  | plus => .plus
  | negate => .minus
  | not => .bang

def BinaryOp.symbol : BinaryOp → Symbol
  | add => .plus
  | sub => .minus
  | mul => .star
  | div => .slash
  | assign => .assign

def CompareOp.symbol : CompareOp → Symbol
  | equal => .equal
  | notEqual => .notEqual
  | less => .less
  | lessEqual => .lessEqual
  | greater => .greater
  | greaterEqual => .greaterEqual

def LogicOp.symbol : LogicOp → Symbol
  | and => .both
  | or => .either

/-! ## Operators of symbols -/

def UnaryOp.ofSymbol? : Symbol → Option UnaryOp
  | .plus => some plus
  | .minus => some negate
  | .bang => some not
  | _ => none

/-- The arithmetic operator that a symbol writes.  Assignment is not one: it belongs to statements
    and never stands between two operands. -/
def BinaryOp.ofSymbol? : Symbol → Option BinaryOp
  | .plus => some add
  | .minus => some sub
  | .star => some mul
  | .slash => some div
  | _ => none

def CompareOp.ofSymbol? : Symbol → Option CompareOp
  | .equal => some equal
  | .notEqual => some notEqual
  | .less => some less
  | .lessEqual => some lessEqual
  | .greater => some greater
  | .greaterEqual => some greaterEqual
  | _ => none

def LogicOp.ofSymbol? : Symbol → Option LogicOp
  | .both => some and
  | .either => some or
  | _ => none

end SmallScript
