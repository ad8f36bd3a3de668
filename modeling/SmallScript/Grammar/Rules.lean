import SmallScript.Grammar.Parser
import SmallScript.Node

/-! # The grammar

```text
program     = statements end
statements  = any number of statements, with semicolons between, before and behind them;
              a statement that ends with a block needs none behind it
statement   = print E | return E | if C | while (E) block | def name(names) block
            | name = E | E
C           = (E) block, then nothing, else block, else if C or elif C
block       = { statements }
E           = comparison (&& or || comparison)*
comparison  = additive (== != < <= > >= additive)*
additive    = multiplicative (+ or - multiplicative)*
multiplicative = unary (* or / unary)*
unary       = + unary | - unary | ! unary | primary
primary     = number | true | false | text | (E) | input(text?) | name | name(E, ...)
```

Nesting is limited.  A block, a parenthesis, a list of arguments, a prefix operator, an `elif` or
`else if`, and each operator of a chain open a level, and what follows is read one level further
down.  The number of levels that are left is the `room`; every way in which a rule comes back to
itself opens a level, so the rules are defined by recursion on the room.  `Rules` holds what can be
read at one level, and `rulesOver` makes the rules of a level from those of the level below it,
where there is one.
-/

namespace SmallScript.Grammar

open SmallScript.Grammar.Parser

/-- The four kinds of chains, from loose to tight. -/
inductive Tier where
  | logic
  | comparison
  | additive
  | multiplicative
  deriving DecidableEq, Repr, Inhabited

/-- What a symbol builds from two operands in a chain of this kind, if it belongs there. -/
def Tier.build? (tier : Tier) (s : Symbol) : Option (Node → Node → Nat → Node) :=
  match tier with
  | logic => (LogicOp.ofSymbol? s).map fun op left right line => .logic left op right line
  | comparison => (CompareOp.ofSymbol? s).map fun op left right line => .compare left op right line
  | additive =>
    match BinaryOp.ofSymbol? s with
    | some .add => some fun left right line => .binary left .add right line
    | some .sub => some fun left right line => .binary left .sub right line
    | _ => none
  | multiplicative =>
    match BinaryOp.ofSymbol? s with
    | some .mul => some fun left right line => .binary left .mul right line
    | some .div => some fun left right line => .binary left .div right line
    | _ => none

/-- What can be read at one nesting level. -/
structure Rules where
  unary : Parser Node
  multiplicative : Parser Node
  additive : Parser Node
  comparison : Parser Node
  expression : Parser Node
  /-- The rest of a chain, whose part up to here is given. -/
  more : Tier → Node → Parser Node
  block : Parser Node
  /-- What follows the word `if` or `elif` on the given line. -/
  conditional : Nat → Parser Node
  statement : Parser Node
  statements : Parser (List Node)

/-- The operands of a chain are the next tighter constructs. -/
def Rules.operand (rules : Rules) : Tier → Parser Node
  | .logic => rules.comparison
  | .comparison => rules.additive
  | .additive => rules.multiplicative
  | .multiplicative => rules.unary

/-! ## The rules of a level, over those of the level below -/

section Level

variable (below : Option Rules)

/-- Opens a level; fails at the first token if none is left. -/
def within {α : Type} (content : Rules → Parser α) : Parser α :=
  match below with
  | some rules => content rules
  | none => fail fun _ => .nestedTooDeep

/-- The text in the parentheses of `input`; none is an empty one. -/
def prompt : Parser String := do
  match ← peek with
  | some ⟨.text value, _⟩ => skip; return value
  | some ⟨.symbol .closeParen, _⟩ => return ""
  | _ => refuse .prompt

/-- What a name stands for: a call, if a parenthesis follows, and else a variable. -/
def named (n : String) (line : Nat) : Parser Node := do
  if (← peekSymbol) = some .openParen then
    within below fun rules => do
      skip
      let arguments ← commaSeparated rules.expression .closeParen
      return .call n arguments line
  else return .name n line

def primary : Parser Node := do
  match ← peek with
  | some ⟨.number value, line⟩ => skip; return .number value line
  | some ⟨.truth value, line⟩ => skip; return .truth value line
  | some ⟨.text value, line⟩ => skip; return .text value line
  | some ⟨.symbol .openParen, _⟩ =>
    within below fun rules => do
      skip
      let content ← rules.expression
      expect .closeParen
      return content
  | some ⟨.symbol .inputWord, line⟩ =>
    skip
    expect .openParen
    let text ← prompt
    expect .closeParen
    return .input text line
  | some ⟨.name n, line⟩ => skip; named below n line
  | _ => refuse .expression

def unary : Parser Node := do
  match ← peek with
  | some ⟨.symbol s, line⟩ =>
    match UnaryOp.ofSymbol? s with
    | some op =>
      within below fun rules => do
        skip
        let operand ← rules.unary
        return .unary op operand line
    | none => primary below
  | _ => primary below

/-- Goes on with a chain.  Each operator opens a level, for its right operand and for the rest of the
    chain alike. -/
def more (tier : Tier) (left : Node) : Parser Node := do
  match ← peek with
  | some ⟨.symbol s, line⟩ =>
    match tier.build? s with
    | some build =>
      within below fun rules => do
        skip
        let right ← rules.operand tier
        rules.more tier (build left right line)
    | none => return left
  | _ => return left

def multiplicative : Parser Node := do
  more below .multiplicative (← unary below)

def additive : Parser Node := do
  more below .additive (← multiplicative below)

def comparison : Parser Node := do
  more below .comparison (← additive below)

def expression : Parser Node := do
  more below .logic (← comparison below)

def block : Parser Node :=
  within below fun rules => do
    expect .openBrace
    let body ← rules.statements
    expect .closeBrace
    return Node.ofStatements body

/-- A conditional that goes on, from the word in front of its next condition. -/
def continued (line : Nat) : Parser (Option Node) :=
  within below fun rules => do
    skip
    return some (← rules.conditional line)

def alternative : Parser (Option Node) := do
  match ← peek with
  | some ⟨.symbol .elseWord, _⟩ =>
    skip
    match ← peek with
    | some ⟨.symbol .ifWord, line⟩ => continued below line
    | _ => return some (← block below)
  | some ⟨.symbol .elifWord, line⟩ => continued below line
  | _ => return none

/-- An expression in parentheses, which opens no level of its own. -/
def condition : Parser Node := do
  expect .openParen
  let value ← expression below
  expect .closeParen
  return value

def conditional (line : Nat) : Parser Node := do
  let test ← condition below
  let thenBlock ← block below
  let elseBranch ← alternative below
  return .conditional test thenBlock elseBranch line

/-- The name and line of an assignment's target and the line of its sign, if the tokens start with
    both. -/
def target? : List Lexeme → Option (String × Nat × Nat)
  | ⟨.name n, nameLine⟩ :: ⟨.symbol .assign, line⟩ :: _ => some (n, nameLine, line)
  | _ => none

def simpleAt : Option (String × Nat × Nat) → Parser Node
  | some (n, nameLine, line) => do
    skip
    skip
    let value ← expression below
    return .binary (.name n nameLine) .assign value line
  | none => expression below

def simple : Parser Node := do
  simpleAt below (target? (← get))

def statement : Parser Node := do
  match ← peek with
  | none => refuse .statement
  | some ⟨.symbol .printWord, line⟩ =>
    skip
    return .print (← expression below) line
  | some ⟨.symbol .returnWord, line⟩ =>
    skip
    return .ret (← expression below) line
  | some ⟨.symbol .ifWord, line⟩ =>
    skip
    conditional below line
  | some ⟨.symbol .whileWord, line⟩ =>
    skip
    let test ← condition below
    let body ← block below
    return .loop test body line
  | some ⟨.symbol .defWord, line⟩ =>
    skip
    let name ← identifier
    expect .openParen
    let params ← commaSeparated identifier .closeParen
    let body ← block below
    return .function name params body line
  | some _ => simple below

end Level

/-! ## Lists of statements -/

/-- A list of statements ends at a closing brace or at the end of the input. -/
def endsStatements : List Lexeme → Bool
  | [] => true
  | ⟨.symbol .closeBrace, _⟩ :: _ => true
  | ⟨.endOfInput, _⟩ :: _ => true
  | _ => false

def semicolons : Parser Unit := fun tokens =>
  .ok () (tokens.dropWhile (·.token = .symbol .semicolon))

/-- What has to stand between a statement and the next one. -/
def separator (before : Node) : Parser Unit := do
  if (← peekSymbol) = some .semicolon then skip
  else if endsStatements (← get) || before.endsWithBlock then return ()
  else refuse (.symbol .semicolon)

def statementsOf (statement : Parser Node) : Nat → Parser (List Node)
  | 0 => return []
  | rounds + 1 => do
    semicolons
    if endsStatements (← get) then return []
    let first ← statement
    separator first
    return first :: (← statementsOf statement rounds)

/-! ## All levels -/

/-- The rules of a level, over those of the level below it. -/
def rulesOver (below : Option Rules) : Rules where
  unary := unary below
  multiplicative := multiplicative below
  additive := additive below
  comparison := comparison below
  expression := expression below
  more := more below
  block := block below
  conditional := conditional below
  statement := statement below
  statements := upTo (statementsOf (statement below))

/-- The rules for what is read while `room` further levels may be opened. -/
def rules : Nat → Rules
  | 0 => rulesOver none
  | room + 1 => rulesOver (some (rules room))

/-- A whole script, read with rules that may have more room than scripts are given. -/
def programWith (rules : Rules) : Parser (List Node) := do
  let statements ← rules.statements
  match ← peek with
  | some ⟨.endOfInput, _⟩ => skip; return statements
  | _ => refuse .endOfInput

def program : Parser (List Node) :=
  programWith (rules nestingLimit)

def parseTokens (tokens : List Lexeme) : Except SyntaxFault (List Node) :=
  match program tokens with
  | .ok statements _ => .ok statements
  | .error fault _ => .error fault

end SmallScript.Grammar
