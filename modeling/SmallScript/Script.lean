import SmallScript.Evaluation
import SmallScript.Grammar.Rules
import SmallScript.Text
import SmallScript.Token.Scan

/-! # Scripts

A script is run as a whole (`Script.run`) or line by line (`Script.runLines`).  As a whole it is read
to its end before anything is run.  Line by line, each line is read and run on its own, on one
machine, and every line that has a value prints it.
-/

namespace SmallScript

/-- The statements that the text of a script denotes, its first line having the number `line`. -/
def parseAt (line : Nat) (source : String) : Except SyntaxFault (List Node) := do
  Grammar.parseTokens (← lexemes line source)

def parse (source : String) : Except SyntaxFault (List Node) :=
  parseAt 1 source

namespace Script

inductive Failure where
  | text (fault : SyntaxFault)
  | run (halt : Halt)
  deriving DecidableEq

abbrev Session := EStateM Failure Machine

def read (line : Nat) (source : String) : Session (List Node) :=
  match parseAt line source with
  | .ok statements => return statements
  | .error fault => throw (.text fault)

def perform {α : Type} (action : Eval α) : Session α :=
  EStateM.adaptExcept .run action

def echo (value : Value) (line : Nat) : Session Unit :=
  if value.isEmpty then return () else perform (Eval.writeLine value line)

/-- What is left to do when the value of a script is known: with `printsValue` it is printed, as if on the
    line of the last statement. -/
def conclude (printsValue : Bool) (statements : List Node) (value : Value) : Session Value := do
  if printsValue then
    echo value ((statements.getLast?.bind Node.line?).getD 1)
  return value

def run (settings : Settings) (budget : Nat) (printsValue : Bool) (source : String) :
    Session Value := do
  let statements ← read 1 source
  conclude printsValue statements (← perform (evaluate settings budget statements))

def runLine (settings : Settings) (budget line : Nat) (text : List Char) : Session Unit := do
  unless Text.isBlankText text do
    let statements ← read line (String.ofList text)
    echo (← perform (evaluate settings budget statements)) line

/-- Runs lines, the first of which has the number `line`. -/
def runLinesFrom (settings : Settings) (budget : Nat) (line : Nat) :
    List (List Char) → Session Unit
  | [] => return ()
  | text :: rest => do
    runLine settings budget line text
    runLinesFrom settings budget (line + 1) rest

def runLines (settings : Settings) (budget : Nat) (source : String) : Session Unit :=
  runLinesFrom settings budget 1 (Text.lines source.toList)

/-- More rounds than a run can use up in any time that someone would wait for it. -/
def ampleBudget : Nat := Nat.pow 2 62

end Script

end SmallScript
