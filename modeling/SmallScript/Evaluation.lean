import SmallScript.Machine

/-! # Evaluation

`eval` runs one tree on a machine.  A run ends with a value, either because the tree was run to its
end or because a `return` was reached, or it stops with a fault; in both cases the machine keeps what
was done so far.

Loops and recursive functions need not end, so `eval` has a budget: it bounds how deeply runs are
nested and how often a loop goes round.  A run that uses it up is `unfinished`, which is told apart
from every fault; a larger budget never changes the outcome of a run that has ended.  `step` says what
each kind of tree does, given how its parts are run.
-/

namespace SmallScript

inductive Halt where
  | fault (value : RuntimeFault)
  /-- The budget is used up. -/
  | unfinished
  deriving DecidableEq

abbrev Eval := EStateM Halt Machine

/-- How a tree has been run: to its end, or up to a `return`. -/
inductive Completion where
  | normal (value : Value)
  | returned (value : Value)
  deriving DecidableEq, Inhabited

namespace Eval

def fail {α : Type} (cause : RuntimeCause) (line : Nat) : Eval α :=
  throw (.fault ⟨cause, line⟩)

def ofExcept {α : Type} : Except RuntimeFault α → Eval α
  | .ok value => return value
  | .error fault => throw (.fault fault)

/-- Does something on the console; a failure is a fault on `line`. -/
def onConsole {α : Type} (line : Nat) (action : Console.Action α) : Eval α :=
  fun ⟨scopes, functions, callDepth, console⟩ =>
    match action console with
    | .ok value console => .ok value ⟨scopes, functions, callDepth, console⟩
    | .error error console =>
      .error (.fault ⟨.console error, line⟩) ⟨scopes, functions, callDepth, console⟩

def writeLine (value : Value) (line : Nat) : Eval Unit :=
  onConsole line (Console.write (value.display ++ "\n"))

def readValue (prompt : String) (line : Nat) : Eval Value := do
  let typed ← onConsole line do
    Console.write prompt
    Console.flush
    Console.readLine
  return Value.ofInput typed

def readVariable (scoping : Scoping) (name : String) (line : Nat) : Eval Value := do
  match (← get).lookup scoping name with
  | some value => return value
  | none => fail (.unknownVariable name) line

/-- Runs the body of a call in a scope of its own, which is closed however the run ends. -/
def inFrame {α : Type} (frame : Scope) (body : Eval α) : Eval α := fun m =>
  match body (m.enter frame) with
  | .ok value m => .ok value m.leave
  | .error halt m => .error halt m.leave

/-! ## Parts of a tree

`run` is how the parts of a tree are run. -/

section Parts

variable (run : Node → Eval Completion)

/-- The value of a tree that is not a place to return from. -/
def valueOf (node : Node) : Eval Value := do
  match ← run node with
  | .normal value => return value
  | .returned _ => fail .strayReturn (node.line?.getD 0)

def truthOf (node : Node) (line : Nat) : Eval Bool := do
  ofExcept ((← valueOf run node).asBoolean line)

/-- Statements in order, up to the first `return`.  The value is that of the last one. -/
def inOrder (last : Value) : List Node → Eval Completion
  | [] => return .normal last
  | statement :: rest => do
    match ← run statement with
    | .normal value => inOrder value rest
    | .returned value => return .returned value

/-- A loop, with as many rounds as are given.  The value is that of the last round. -/
def repeatWhile (condition body : Node) (line : Nat) : Nat → Value → Eval Completion
  | 0, _ => throw .unfinished
  | rounds + 1, last => do
    if ← truthOf run condition line then
      match ← run body with
      | .normal value => repeatWhile condition body line rounds value
      | .returned value => return .returned value
    else return .normal last

/-- The variables of a call: the arguments from left to right, under the names of the parameters. -/
def bindArguments : List String → List Node → Scope → Eval Scope
  | param :: params, argument :: arguments, frame => do
    let value ← valueOf run argument
    bindArguments params arguments (frame.insert param value)
  | _, _, frame => return frame

/-- A call.  The function has to exist, then the number of arguments has to fit, then the call must
    not be too deep; only then are the arguments looked at. -/
def callFunction (maxCallDepth : Nat) (name : String) (arguments : List Node) (line : Nat) :
    Eval Value := do
  let m ← get
  match m.functions[name]? with
  | none => fail (.unknownFunction name) line
  | some declaration =>
    let expected := declaration.params.length
    if arguments.length ≠ expected then
      fail (.argumentCount name expected arguments.length) line
    else if maxCallDepth ≤ m.callDepth then fail (.callDepthExceeded maxCallDepth) line
    else
      let frame ← bindArguments run declaration.params arguments ∅
      match ← inFrame frame (run declaration.body) with
      | .returned value => return value
      | .normal _ => return .empty

/-- An assignment.  Only a variable can be assigned to, and that is checked first. -/
def assign (target value : Node) (line : Nat) : Eval Value := do
  match target with
  | .name n _ =>
    let value ← valueOf run value
    modify (·.define n value)
    return .empty
  | _ => fail .invalidTarget line

/-- A connective looks at its right operand only if the left one does not decide. -/
def connect (left : Node) (op : LogicOp) (right : Node) (line : Nat) : Eval Value := do
  match op, ← truthOf run left line with
  | .and, false => return .boolean false
  | .or, true => return .boolean true
  | _, _ => return .boolean (← truthOf run right line)

/-- What each kind of tree does, given how its parts are run and how often a loop may go round. -/
def step (settings : Settings) (rounds : Nat) : Node → Eval Completion
  | .number value _ => return .normal (.number value)
  | .truth value _ => return .normal (.boolean value)
  | .text value _ => return .normal (.text value)
  | .name n line => return .normal (← readVariable settings.scoping n line)
  | .unary op operand line => do
    let value ← valueOf run operand
    return .normal (← ofExcept (value.unary op line))
  | .binary target .assign value line => return .normal (← assign run target value line)
  | .binary left op right line => do
    let a ← valueOf run left
    let b ← valueOf run right
    return .normal (← ofExcept (a.arithmetic op b line))
  | .compare left op right line => do
    let a ← valueOf run left
    let b ← valueOf run right
    return .normal (← ofExcept (a.compare op b line))
  | .logic left op right line => return .normal (← connect run left op right line)
  | .print value line => do
    writeLine (← valueOf run value) line
    return .normal .empty
  | .input prompt line => return .normal (← readValue prompt line)
  | .conditional condition thenBlock elseBranch line => do
    -- a condition is tested on the line it has itself
    if ← truthOf run condition (condition.line?.getD line) then run thenBlock
    else
      match elseBranch with
      | some branch => run branch
      | none => return .normal .empty
  | .block statements _ => inOrder run .empty statements
  | .loop condition body line =>
    repeatWhile run condition body (condition.line?.getD line) rounds .empty
  | .function name params body line => do
    modify (·.declare ⟨name, params, body, line⟩)
    return .normal .empty
  | .call name arguments line =>
    return .normal (← callFunction run settings.maxCallDepth name arguments line)
  | .ret value line => do
    -- outside of calls the value is not evaluated
    if (← get).callDepth = 0 then fail .strayReturn line
    else return .returned (← valueOf run value)

end Parts

end Eval

/-! ## Whole trees -/

def eval (settings : Settings) : Nat → Node → Eval Completion
  | 0, _ => throw .unfinished
  | budget + 1, node => Eval.step (eval settings budget) settings budget node

/-- Runs the statements of a script, the last value being that of the whole. -/
def evaluateFrom (settings : Settings) (budget : Nat) (last : Value) : List Node → Eval Value
  | [] => return last
  | statement :: rest => do
    evaluateFrom settings budget (← Eval.valueOf (eval settings budget) statement) rest

def evaluate (settings : Settings) (budget : Nat) (statements : List Node) : Eval Value :=
  evaluateFrom settings budget .empty statements

end SmallScript
