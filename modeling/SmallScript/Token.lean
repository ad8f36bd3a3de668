import SmallScript.Number
import SmallScript.Symbol

/-! # Tokens

A script is a row of tokens, and a `Lexeme` is a token together with the line on which it starts.
`Token.describe` names a token in a message.
-/

namespace SmallScript

/-- A unit of script text. -/
inductive Token where
  /-- A number such as `3.5`. -/
  | number (value : Float)
  /-- A text between double quotes, without the quotes. -/
  | text (value : String)
  /-- One of the words `true` and `false`. -/
  | truth (value : Bool)
  /-- The name of a variable or a function. -/
  | name (value : String)
  /-- A reserved word, an operator, punctuation or layout. -/
  | symbol (value : Symbol)
  /-- What follows the last token of a script. -/
  | endOfInput
  deriving DecidableEq, Inhabited

namespace Token

/-- How a symbol is written; nothing for the tokens that are no symbols. -/
def spelling : Token → String
  | symbol s => s.spelling
  | _ => ""

def describe : Token → String
  | number value => "number '" ++ Number.text value ++ "'"
  | text value => "string \"" ++ value ++ "\""
  | truth value => "'" ++ (if value then "true" else "false") ++ "'"
  | name value => "identifier '" ++ value ++ "'"
  | symbol s => "'" ++ s.spelling ++ "'"
  | endOfInput => "end of input"

/-- How many line feeds the characters of a token hold. -/
def lineFeeds : Token → Nat
  | text value => value.toList.count '\n'
  | symbol .lineBreak => 1
  | _ => 0

/-- Layout is read over: the grammar never sees it. -/
def isLayout : Token → Bool
  | symbol s => s.isLayout
  | _ => false

end Token

/-- A token and the line on which it starts. -/
structure Lexeme where
  token : Token
  line : Nat
  deriving DecidableEq, Inhabited

end SmallScript
