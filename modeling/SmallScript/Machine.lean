import SmallScript.Console
import SmallScript.Node
import SmallScript.Value
import Std.Data.TreeMap

/-! # The machine

What a running script can change: the scopes of its variables, the functions it has declared, the
number of calls that are open, and the console.

* `Machine.lookup` finds a variable.  With lexical scoping only the innermost and the outermost scope
  are visible; with dynamic scoping all of them are, from the inside out.
* `Machine.define` sets a variable of the innermost scope.
* `Machine.enter` and `Machine.leave` open and close the scope of a call.
-/

namespace SmallScript

/-- Which scopes a name is looked up in. -/
inductive Scoping where
  | lexical
  | dynamic
  deriving DecidableEq, Repr, Inhabited

structure Settings where
  scoping : Scoping
  /-- How many calls may be open at once. -/
  maxCallDepth : Nat
  deriving DecidableEq, Repr

def Settings.standard : Settings := ⟨.lexical, 128⟩

structure Declaration where
  name : String
  params : List String
  body : Node
  line : Nat

/-- The variables of one call, or the global ones. -/
abbrev Scope := Std.TreeMap String Value

structure Machine where
  /-- The scopes, the innermost one first and the global one last. -/
  scopes : List Scope
  functions : Std.TreeMap String Declaration
  /-- How many calls are open. -/
  callDepth : Nat
  console : Console

namespace Machine

def fresh (console : Console) : Machine :=
  ⟨[∅], ∅, 0, console⟩

def lookup (m : Machine) (scoping : Scoping) (name : String) : Option Value :=
  match scoping with
  | .lexical =>
    (m.scopes.head?.bind fun scope => scope[name]?).or
      (m.scopes.getLast?.bind fun scope => scope[name]?)
  | .dynamic => m.scopes.findSome? fun scope => scope[name]?

/-- Sets a variable of the innermost scope.  Where no scope is left, a new one is made. -/
def define (m : Machine) (name : String) (value : Value) : Machine :=
  match m with
  | ⟨[], functions, callDepth, console⟩ =>
    ⟨[(∅ : Scope).insert name value], functions, callDepth, console⟩
  | ⟨scope :: outer, functions, callDepth, console⟩ =>
    ⟨scope.insert name value :: outer, functions, callDepth, console⟩

def pushScope (m : Machine) (scope : Scope) : Machine :=
  { m with scopes := scope :: m.scopes }

/-- Closes the innermost scope, unless it is the only one. -/
def popScope (m : Machine) : Machine :=
  match m.scopes with
  | _ :: next :: outer => { m with scopes := next :: outer }
  | _ => m

/-- Opens a call whose variables are those of `frame`. -/
def enter (m : Machine) (frame : Scope) : Machine :=
  { m.pushScope frame with callDepth := m.callDepth + 1 }

def leave (m : Machine) : Machine :=
  { m.popScope with callDepth := m.callDepth - 1 }

/-- Declares a function; an earlier one of the same name is forgotten. -/
def declare (m : Machine) (declaration : Declaration) : Machine :=
  { m with functions := m.functions.insert declaration.name declaration }

end Machine

end SmallScript
