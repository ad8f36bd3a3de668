/-! # Symbols

The fixed vocabulary of the language: reserved words, operators, punctuation, and the three kinds of
layout that separate everything else.

* `Symbol.spelling` is how a symbol is written.  A comment and a run of blanks have no spelling of
  their own; a line break is shown as a backslash and an `n`.
* `Symbol.reserved` lists the reserved words.
-/

namespace SmallScript

inductive Symbol where
  | printWord
  | inputWord
  | ifWord
  | elseWord
  | elifWord
  | whileWord
  | defWord
  | returnWord
  | plus
  | minus
  | star
  | slash
  | assign
  | equal
  | notEqual
  | less
  | lessEqual
  | greater
  | greaterEqual
  /-- Two ampersands. -/
  | both
  /-- Two vertical bars. -/
  | either
  | bang
  | openParen
  | closeParen
  | openBrace
  | closeBrace
  | comma
  | semicolon
  | lineBreak
  | comment
  | blank
  deriving DecidableEq, Repr, Inhabited

namespace Symbol

def spelling : Symbol → String
  | printWord => "print"
  | inputWord => "input"
  | ifWord => "if"
  | elseWord => "else"
  | elifWord => "elif"
  | whileWord => "while"
  | defWord => "def"
  | returnWord => "return"
  | plus => "+"
  | minus => "-"
  | star => "*"
  | slash => "/"
  | assign => "="
  | equal => "=="
  | notEqual => "!="
  | less => "<"
  | lessEqual => "<="
  | greater => ">"
  | greaterEqual => ">="
  | both => "&&"
  | either => "||"
  | bang => "!"
  | openParen => "("
  | closeParen => ")"
  | openBrace => "\x7b"
  | closeBrace => "\x7d"
  | comma => ","
  | semicolon => ";"
  | lineBreak => "\\n"
  | comment => ""
  | blank => ""

/-- The symbols that are spelled like a name and therefore cannot be one. -/
def reserved : List Symbol :=
  [printWord, inputWord, ifWord, elseWord, elifWord, whileWord, defWord, returnWord]

def ofWord? (word : String) : Option Symbol :=
  reserved.find? (·.spelling = word)

/-- Layout separates tokens and carries no meaning of its own. -/
def isLayout : Symbol → Bool
  | lineBreak | comment | blank => true
  | _ => false

end Symbol

end SmallScript
