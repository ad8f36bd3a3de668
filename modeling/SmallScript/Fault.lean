import SmallScript.Token

/-! # Faults

A `Fault` says what is wrong and on which line.  `SyntaxFault` is what can be wrong with the text of a
script, `RuntimeFault` what can go wrong while it runs.  All wording is here:

* `SyntaxFault.message` and `RuntimeFault.message` are the texts that users see.
* `Expectation.describe` names what the grammar could have gone on with.
-/

namespace SmallScript

/-- A cause and the line that it refers to. -/
structure Fault (κ : Type) where
  cause : κ
  line : Nat
  deriving DecidableEq

/-- Every message starts with the line. -/
def Fault.report {κ : Type} (describe : κ → String) (fault : Fault κ) : String :=
  "Error on line " ++ toString fault.line ++ ": " ++ describe fault.cause ++ "."

/-! ## Faults of the text -/

/-- What the grammar could have gone on with. -/
inductive Expectation where
  | symbol (value : Symbol)
  | endOfInput
  | statement
  | expression
  | identifier
  | prompt
  /-- A list goes on with a comma or ends with this symbol. -/
  | commaOr (closing : Symbol)
  deriving DecidableEq, Repr, Inhabited

def Expectation.describe : Expectation → String
  | symbol value => (Token.symbol value).describe
  | endOfInput => Token.endOfInput.describe
  | statement => "a statement"
  | expression => "an expression"
  | identifier => "an identifier"
  | prompt => "a string prompt"
  | commaOr closing => (Token.symbol .comma).describe ++ " or " ++ (Token.symbol closing).describe

/-- How many nesting levels may be open at once in a script. -/
def nestingLimit : Nat := 64

inductive SyntaxCause where
  | unexpected (expected : Expectation) (found : Token)
  | invalidCharacter (char : Char)
  | unterminatedText
  | nestedTooDeep
  deriving DecidableEq, Inhabited

def SyntaxCause.describe : SyntaxCause → String
  | unexpected expected found => "Expected " ++ expected.describe ++ ", found " ++ found.describe
  | invalidCharacter char => "Unexpected character '" ++ char.toString ++ "'"
  | unterminatedText => "Unterminated string literal"
  | nestedTooDeep => "Nesting deeper than " ++ toString nestingLimit ++ " levels"

abbrev SyntaxFault := Fault SyntaxCause

def SyntaxFault.message (fault : SyntaxFault) : String :=
  fault.report SyntaxCause.describe

/-! ## Faults of a run -/

inductive Kind where
  | number
  | boolean
  | text
  | empty
  deriving DecidableEq, Repr, Inhabited

def Kind.name : Kind → String
  | number => "number"
  | boolean => "boolean"
  | text => "string"
  | empty => "empty"

inductive RuntimeCause where
  | unknownVariable (name : String)
  | unknownFunction (name : String)
  | argumentCount (name : String) (expected found : Nat)
  /-- An operator has no meaning on values of these kinds. -/
  | typeMismatch (operator : Symbol) (left right : Kind)
  | expectedNumber
  | expectedBoolean
  | invalidTarget
  | strayReturn
  | callDepthExceeded (limit : Nat)
  /-- A stream of the console has failed with this error. -/
  | console (error : String)
  deriving DecidableEq, Repr, Inhabited

def RuntimeCause.describe : RuntimeCause → String
  | unknownVariable name => "Unknown variable '" ++ name ++ "'"
  | unknownFunction name => "Unknown function '" ++ name ++ "'"
  | argumentCount name expected found =>
    "Function '" ++ name ++ "' takes " ++ toString expected ++ " argument(s) but " ++
      toString found ++ " were given"
  | typeMismatch operator left right =>
    "Type mismatch: cannot apply '" ++ operator.spelling ++ "' to " ++ left.name ++ " and " ++
      right.name
  | expectedNumber => "Expected number"
  | expectedBoolean => "Expected boolean"
  | invalidTarget => "Only variables can be assigned to"
  | strayReturn => "'return' outside of a function"
  | callDepthExceeded limit => "Maximum call depth of " ++ toString limit ++ " exceeded"
  | console error => "I/O failure: " ++ error

abbrev RuntimeFault := Fault RuntimeCause

def RuntimeFault.message (fault : RuntimeFault) : String :=
  fault.report RuntimeCause.describe

end SmallScript
