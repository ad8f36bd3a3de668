import SmallScript.Fault

/-! # Parsers over tokens

A parser takes tokens off the front of a list.  Whether it succeeds or fails, what it leaves is the
rest of the list, so a failure also says how far the parser got.  A parser that finds a token it
cannot use leaves that token where it is.

* `peek`, `skip`, `refuse` and `expect` are the only ways to touch the list.
* `upTo` bounds a loop by the number of tokens that are left.
* `commaSeparated` is the one kind of list in the language.
-/

namespace SmallScript.Grammar

abbrev Parser := EStateM SyntaxFault (List Lexeme)

namespace Parser

/-- The first token, left in place. -/
def peek : Parser (Option Lexeme) := fun tokens => .ok tokens.head? tokens

/-- The first token, left in place, if it is a symbol. -/
def peekSymbol : Parser (Option Symbol) := fun tokens =>
  match tokens with
  | ⟨.symbol s, _⟩ :: _ => .ok (some s) tokens
  | _ => .ok none tokens

def skip : Parser Unit := fun tokens => .ok () tokens.tail

/-- The line of the first token, and 0 if there is none. -/
def lineOf (tokens : List Lexeme) : Nat :=
  match tokens with
  | ⟨_, line⟩ :: _ => line
  | [] => 0

/-- The first token; behind the last one comes the end of the input. -/
def tokenOf (tokens : List Lexeme) : Token :=
  match tokens with
  | ⟨token, _⟩ :: _ => token
  | [] => .endOfInput

/-- Fails at the first token. -/
def fail {α : Type} (cause : Token → SyntaxCause) : Parser α := fun tokens =>
  .error ⟨cause (tokenOf tokens), lineOf tokens⟩ tokens

/-- Fails because the first token is not what the grammar goes on with. -/
def refuse {α : Type} (expected : Expectation) : Parser α :=
  fail (.unexpected expected)

def expect (s : Symbol) : Parser Unit := do
  if (← peekSymbol) = some s then skip else refuse (.symbol s)

def identifier : Parser String := do
  match ← peek with
  | some ⟨.name n, _⟩ => skip; return n
  | _ => refuse .identifier

/-- Gives a loop as many rounds as there are tokens, and one more to find that none is left. -/
def upTo {α : Type} (loop : Nat → Parser α) : Parser α := fun tokens =>
  loop (tokens.length + 1) tokens

/-- Items with commas between them, and the symbol that closes the list. -/
def items {α : Type} (item : Parser α) (closing : Symbol) : Nat → Parser (List α)
  | 0 => return []
  | rounds + 1 => do
    let first ← item
    let next ← peekSymbol
    if next = some .comma then
      skip
      return first :: (← items item closing rounds)
    else if next = some closing then
      skip
      return [first]
    else refuse (.commaOr closing)

/-- A list that may be empty, up to and including the symbol that closes it. -/
def commaSeparated {α : Type} (item : Parser α) (closing : Symbol) : Parser (List α) := do
  if (← peekSymbol) = some closing then
    skip
    return []
  else upTo (items item closing)

end Parser

end SmallScript.Grammar
