import SmallScript.Grammar.Rules

/-! # Derivations

The grammar as a relation between tokens and trees, with a count of the nesting levels that are open.
It says which rows of tokens are a phrase and never how to find that out: chains grow at their right
end, parts are joined by `++`, and nothing is said about what comes next.

* `Phrase` names a construct together with the tree, or the trees, that it denotes.
* `Derives limit depth phrase tokens` says that `tokens` are that phrase, read at `depth`.
* `Sentence limit statements tokens` is the whole script: statements at depth 0 and the end of input.

A parenthesis, a list of arguments, a prefix operator, a block and an `elif` or `else if` are read one
level further down, and the level has to be there: `depth < limit`.  In a chain
`x₀ op₁ x₁ ... opₙ xₙ` at `depth`, the operand `xᵢ` is read at `depth + i`.
-/

namespace SmallScript

/-! ## Symbols of operators

Each symbol writes at most one operator of a family, and each operator has its symbol. -/

namespace UnaryOp

theorem ofSymbol?_eq_some_iff {s : Symbol} {op : UnaryOp} : ofSymbol? s = some op ↔ op.symbol = s := by
  constructor
  · intro found
    cases s <;> cases found <;> rfl
  · rintro rfl
    cases op <;> rfl

end UnaryOp

namespace CompareOp

theorem ofSymbol?_eq_some_iff {s : Symbol} {op : CompareOp} :
    ofSymbol? s = some op ↔ op.symbol = s := by
  constructor
  · intro found
    cases s <;> cases found <;> rfl
  · rintro rfl
    cases op <;> rfl

end CompareOp

namespace LogicOp

theorem ofSymbol?_eq_some_iff {s : Symbol} {op : LogicOp} : ofSymbol? s = some op ↔ op.symbol = s := by
  constructor
  · intro found
    cases s <;> cases found <;> rfl
  · rintro rfl
    cases op <;> rfl

end LogicOp

namespace Grammar

/-! ## Phrases -/

/-- A construct and what it denotes. -/
inductive Phrase where
  | primary (tree : Node)
  | unary (tree : Node)
  /-- An operand in a chain of the given kind. -/
  | operand (tier : Tier) (tree : Node)
  /-- A chain of the given kind with so many operators. -/
  | chain (tier : Tier) (operators : Nat) (tree : Node)
  | expression (tree : Node)
  /-- One or more expressions with commas between them. -/
  | arguments (trees : List Node)
  | block (tree : Node)
  /-- What follows the word `if` or `elif` on the given line. -/
  | branches (line : Nat) (tree : Node)
  /-- What may follow the first block of a conditional. -/
  | alternative (tree : Option Node)
  | statement (tree : Node)
  | statements (trees : List Node)

def Tier.tighter? : Tier → Option Tier
  | logic => some comparison
  | comparison => some additive
  | additive => some multiplicative
  | multiplicative => none

/-- The operators of each kind of chains, and what they make of two operands. -/
inductive Joins : Tier → Symbol → (Node → Node → Nat → Node) → Prop where
  | logic (op : LogicOp) : Joins .logic op.symbol fun left right line => .logic left op right line
  | comparison (op : CompareOp) :
      Joins .comparison op.symbol fun left right line => .compare left op right line
  | add : Joins .additive BinaryOp.add.symbol fun left right line => .binary left .add right line
  | sub : Joins .additive BinaryOp.sub.symbol fun left right line => .binary left .sub right line
  | mul : Joins .multiplicative BinaryOp.mul.symbol fun left right line => .binary left .mul right line
  | div : Joins .multiplicative BinaryOp.div.symbol fun left right line => .binary left .div right line

/-- The operators of a kind of chains are those that the rule for chains goes on with. -/
theorem joins_iff {tier : Tier} {s : Symbol} {build : Node → Node → Nat → Node} :
    Joins tier s build ↔ tier.build? s = some build := by
  constructor
  · intro joins
    cases joins with
    | logic op => simp [Tier.build?, LogicOp.ofSymbol?_eq_some_iff.mpr rfl]
    | comparison op => simp [Tier.build?, CompareOp.ofSymbol?_eq_some_iff.mpr rfl]
    | add | sub | mul | div => rfl
  · intro found
    cases tier with
    | logic =>
      obtain ⟨op, symbol, rfl⟩ := Option.map_eq_some_iff.mp found
      rw [← LogicOp.ofSymbol?_eq_some_iff.mp symbol]
      exact .logic op
    | comparison =>
      obtain ⟨op, symbol, rfl⟩ := Option.map_eq_some_iff.mp found
      rw [← CompareOp.ofSymbol?_eq_some_iff.mp symbol]
      exact .comparison op
    | additive => cases s <;> cases found <;> first | exact .add | exact .sub
    | multiplicative => cases s <;> cases found <;> first | exact .mul | exact .div

/-- One or more items with commas between them. -/
inductive Listed {α : Type} (item : α → List Lexeme → Prop) : List α → List Lexeme → Prop where
  | last {x ts} (first : item x ts) : Listed item [x] ts
  | next {x xs ts c us} (first : item x ts) (rest : Listed item xs us) :
      Listed item (x :: xs) (ts ++ ⟨.symbol .comma, c⟩ :: us)

def IsName (n : String) (tokens : List Lexeme) : Prop :=
  ∃ line, tokens = [⟨.name n, line⟩]

/-- The parameters of a function, with the parenthesis that closes them. -/
inductive Parameters : List String → List Lexeme → Prop where
  | none {c} : Parameters [] [⟨.symbol .closeParen, c⟩]
  | some {ns ts c} (names : Listed IsName ns ts) :
      Parameters ns (ts ++ [⟨.symbol .closeParen, c⟩])

/-! ## The rules -/

/-- `Derives limit depth phrase tokens`: the tokens are the phrase, read at nesting depth `depth`,
    where levels up to `limit` may be opened. -/
inductive Derives (limit : Nat) : Nat → Phrase → List Lexeme → Prop where
  -- what binds tightest
  | number {d v l} : Derives limit d (.primary (.number v l)) [⟨.number v, l⟩]
  | truth {d v l} : Derives limit d (.primary (.truth v l)) [⟨.truth v, l⟩]
  | text {d v l} : Derives limit d (.primary (.text v l)) [⟨.text v, l⟩]
  | name {d n l} : Derives limit d (.primary (.name n l)) [⟨.name n, l⟩]
  | group {d x ts o c} (room : d < limit) (content : Derives limit (d + 1) (.expression x) ts) :
      Derives limit d (.primary x)
        (⟨.symbol .openParen, o⟩ :: (ts ++ [⟨.symbol .closeParen, c⟩]))
  | input {d l o p t c} :
      Derives limit d (.primary (.input p l))
        [⟨.symbol .inputWord, l⟩, ⟨.symbol .openParen, o⟩, ⟨.text p, t⟩, ⟨.symbol .closeParen, c⟩]
  | inputBare {d l o c} :
      Derives limit d (.primary (.input "" l))
        [⟨.symbol .inputWord, l⟩, ⟨.symbol .openParen, o⟩, ⟨.symbol .closeParen, c⟩]
  | call {d n l o xs ts c} (room : d < limit) (content : Derives limit (d + 1) (.arguments xs) ts) :
      Derives limit d (.primary (.call n xs l))
        (⟨.name n, l⟩ :: ⟨.symbol .openParen, o⟩ :: (ts ++ [⟨.symbol .closeParen, c⟩]))
  | callBare {d n l o c} (room : d < limit) :
      Derives limit d (.primary (.call n [] l))
        [⟨.name n, l⟩, ⟨.symbol .openParen, o⟩, ⟨.symbol .closeParen, c⟩]
  | lastArgument {d x ts} (first : Derives limit d (.expression x) ts) :
      Derives limit d (.arguments [x]) ts
  | nextArgument {d x xs ts c us} (first : Derives limit d (.expression x) ts)
      (rest : Derives limit d (.arguments xs) us) :
      Derives limit d (.arguments (x :: xs)) (ts ++ ⟨.symbol .comma, c⟩ :: us)
  -- prefix operators and chains
  | plain {d x ts} (content : Derives limit d (.primary x) ts) : Derives limit d (.unary x) ts
  | prefixed {d x ts l} (op : UnaryOp) (room : d < limit)
      (content : Derives limit (d + 1) (.unary x) ts) :
      Derives limit d (.unary (.unary op x l)) (⟨.symbol op.symbol, l⟩ :: ts)
  | tightest {d tier x ts} (tightest : tier.tighter? = none)
      (content : Derives limit d (.unary x) ts) : Derives limit d (.operand tier x) ts
  | tighter {d tier tier' n x ts} (tighter : tier.tighter? = some tier')
      (content : Derives limit d (.chain tier' n x) ts) : Derives limit d (.operand tier x) ts
  | single {d tier x ts} (content : Derives limit d (.operand tier x) ts) :
      Derives limit d (.chain tier 0 x) ts
  | joined {d tier n left ts s l build right us} (room : d + n < limit)
      (first : Derives limit d (.chain tier n left) ts) (joins : Joins tier s build)
      (last : Derives limit (d + n + 1) (.operand tier right) us) :
      Derives limit d (.chain tier (n + 1) (build left right l)) (ts ++ ⟨.symbol s, l⟩ :: us)
  | loosest {d n x ts} (content : Derives limit d (.chain .logic n x) ts) :
      Derives limit d (.expression x) ts
  -- blocks and conditionals
  | block {d xs ts o c} (room : d < limit) (content : Derives limit (d + 1) (.statements xs) ts) :
      Derives limit d (.block (.block xs (xs.head?.bind Node.line?)))
        (⟨.symbol .openBrace, o⟩ :: (ts ++ [⟨.symbol .closeBrace, c⟩]))
  | branches {d x b e l o c ts us vs} (test : Derives limit d (.expression x) ts)
      (body : Derives limit d (.block b) us) (rest : Derives limit d (.alternative e) vs) :
      Derives limit d (.branches l (.conditional x b e l))
        (⟨.symbol .openParen, o⟩ :: (ts ++ ⟨.symbol .closeParen, c⟩ :: (us ++ vs)))
  | noAlternative {d} : Derives limit d (.alternative none) []
  | otherwise {d b w ts} (body : Derives limit d (.block b) ts) :
      Derives limit d (.alternative (some b)) (⟨.symbol .elseWord, w⟩ :: ts)
  | elseIf {d x w l ts} (room : d < limit) (content : Derives limit (d + 1) (.branches l x) ts) :
      Derives limit d (.alternative (some x))
        (⟨.symbol .elseWord, w⟩ :: ⟨.symbol .ifWord, l⟩ :: ts)
  | elif {d x l ts} (room : d < limit) (content : Derives limit (d + 1) (.branches l x) ts) :
      Derives limit d (.alternative (some x)) (⟨.symbol .elifWord, l⟩ :: ts)
  -- statements
  | print {d x l ts} (content : Derives limit d (.expression x) ts) :
      Derives limit d (.statement (.print x l)) (⟨.symbol .printWord, l⟩ :: ts)
  | ret {d x l ts} (content : Derives limit d (.expression x) ts) :
      Derives limit d (.statement (.ret x l)) (⟨.symbol .returnWord, l⟩ :: ts)
  | conditional {d x l ts} (content : Derives limit d (.branches l x) ts) :
      Derives limit d (.statement x) (⟨.symbol .ifWord, l⟩ :: ts)
  | loop {d x b l o c ts us} (test : Derives limit d (.expression x) ts)
      (body : Derives limit d (.block b) us) :
      Derives limit d (.statement (.loop x b l))
        (⟨.symbol .whileWord, l⟩ :: ⟨.symbol .openParen, o⟩ ::
          (ts ++ ⟨.symbol .closeParen, c⟩ :: us))
  | function {d n ns b l m o ts us} (params : Parameters ns ts)
      (body : Derives limit d (.block b) us) :
      Derives limit d (.statement (.function n ns b l))
        (⟨.symbol .defWord, l⟩ :: ⟨.name n, m⟩ :: ⟨.symbol .openParen, o⟩ :: (ts ++ us))
  | assignment {d n m l x ts} (content : Derives limit d (.expression x) ts) :
      Derives limit d (.statement (.binary (.name n m) .assign x l))
        (⟨.name n, m⟩ :: ⟨.symbol .assign, l⟩ :: ts)
  | evaluation {d x ts} (content : Derives limit d (.expression x) ts) :
      Derives limit d (.statement x) ts
  -- lists of statements, in which semicolons may stand where they separate nothing
  | nothing {d} : Derives limit d (.statements []) []
  | stray {d xs l ts} (rest : Derives limit d (.statements xs) ts) :
      Derives limit d (.statements xs) (⟨.symbol .semicolon, l⟩ :: ts)
  | last {d x ts} (first : Derives limit d (.statement x) ts) : Derives limit d (.statements [x]) ts
  | separated {d x xs l ts us} (first : Derives limit d (.statement x) ts)
      (rest : Derives limit d (.statements xs) us) :
      Derives limit d (.statements (x :: xs)) (ts ++ ⟨.symbol .semicolon, l⟩ :: us)
  /-- A statement that ends with a block needs no semicolon behind it. -/
  | adjacent {d x xs ts us} (closed : x.endsWithBlock = true)
      (first : Derives limit d (.statement x) ts) (rest : Derives limit d (.statements xs) us) :
      Derives limit d (.statements (x :: xs)) (ts ++ us)

/-- A whole script: statements at depth 0, and then the end of the input. -/
def Sentence (limit : Nat) (statements : List Node) (tokens : List Lexeme) : Prop :=
  ∃ body line, tokens = body ++ [⟨.endOfInput, line⟩] ∧ Derives limit 0 (.statements statements) body

/-- What binds tightest is an operand of every kind of chains. -/
theorem Derives.operand_of_unary {limit d : Nat} {x : Node} {ts : List Lexeme}
    (content : Derives limit d (.unary x) ts) (tier : Tier) :
    Derives limit d (.operand tier x) ts := by
  have multiplicative : Derives limit d (.operand .multiplicative x) ts := .tightest rfl content
  have additive : Derives limit d (.operand .additive x) ts := .tighter rfl (.single multiplicative)
  have comparison : Derives limit d (.operand .comparison x) ts := .tighter rfl (.single additive)
  cases tier with
  | logic => exact .tighter rfl (.single comparison)
  | comparison => exact comparison
  | additive => exact additive
  | multiplicative => exact multiplicative

/-! ## The tokens of expressions

Nothing in an expression belongs to a statement, and an expression is told by its first token. -/

def startsExpression : Token → Bool
  | .number _ | .truth _ | .text _ | .name _ => true
  | .symbol .openParen | .symbol .inputWord => true
  | .symbol .plus | .symbol .minus | .symbol .bang => true
  | _ => false

def inExpression : Token → Bool
  | .symbol .closeParen | .symbol .comma | .symbol .star | .symbol .slash => true
  | .symbol .equal | .symbol .notEqual | .symbol .less | .symbol .lessEqual => true
  | .symbol .greater | .symbol .greaterEqual | .symbol .both | .symbol .either => true
  | token => startsExpression token

/-- Expressions and their parts. -/
def Phrase.isExpression : Phrase → Bool
  | primary _ | unary _ | operand .. | chain .. | expression _ | arguments _ => true
  | _ => false

theorem Joins.inExpression {tier : Tier} {s : Symbol} {build : Node → Node → Nat → Node}
    (joins : Joins tier s build) : inExpression (.symbol s) = true := by
  cases joins with
  | logic op => cases op <;> rfl
  | comparison op => cases op <;> rfl
  | add | sub | mul | div => rfl

/-- What is known of the tokens of an expression. -/
structure OfExpression (tokens : List Lexeme) : Prop where
  start : ∃ first rest, tokens = first :: rest ∧ startsExpression first.token = true
  all : ∀ t ∈ tokens, inExpression t.token = true

namespace OfExpression

theorem single {t : Lexeme} (start : startsExpression t.token = true)
    (all : inExpression t.token = true) : OfExpression [t] :=
  ⟨⟨t, [], rfl, start⟩, by simpa using all⟩

/-- What goes on behind an expression may hold any of its tokens. -/
theorem append {ts us : List Lexeme} (first : OfExpression ts)
    (rest : ∀ t ∈ us, SmallScript.Grammar.inExpression t.token = true) : OfExpression (ts ++ us) := by
  obtain ⟨⟨t, ts, rfl, start⟩, all⟩ := first
  refine ⟨⟨t, ts ++ us, rfl, start⟩, ?_⟩
  intro u member
  rcases List.mem_append.mp member with member | member
  · exact all u member
  · exact rest u member

theorem ne_nil {ts : List Lexeme} (h : OfExpression ts) : ts ≠ [] := by
  obtain ⟨⟨t, us, rfl, _⟩, _⟩ := h
  exact List.cons_ne_nil t us

end OfExpression

theorem Derives.ofExpression {limit d : Nat} {phrase : Phrase} {ts : List Lexeme}
    (h : Derives limit d phrase ts) : phrase.isExpression = true → OfExpression ts := by
  induction h with
  | number | truth | text | name => exact fun _ => .single rfl rfl
  | input | inputBare | callBare => exact fun _ => ⟨⟨_, _, rfl, rfl⟩, by simp [inExpression, startsExpression]⟩
  | group _ _ ih | call _ _ ih =>
    intro _
    have content := (ih rfl).all
    refine ⟨⟨_, _, rfl, rfl⟩, ?_⟩
    simpa [inExpression, startsExpression, or_imp, forall_and] using content
  | prefixed op _ _ ih =>
    intro _
    have content := (ih rfl).all
    refine ⟨⟨_, _, rfl, by cases op <;> rfl⟩, ?_⟩
    simp only [List.mem_cons, forall_eq_or_imp]
    exact ⟨by cases op <;> rfl, content⟩
  | lastArgument _ ih | plain _ ih | tightest _ _ ih | tighter _ _ ih | single _ ih | loosest _ ih =>
    exact fun _ => ih rfl
  | nextArgument _ _ ih₁ ih₂ =>
    intro _
    refine (ih₁ rfl).append ?_
    simp only [List.mem_cons, forall_eq_or_imp]
    exact ⟨rfl, (ih₂ rfl).all⟩
  | joined _ _ joins _ ih₁ ih₂ =>
    intro _
    refine (ih₁ rfl).append ?_
    simp only [List.mem_cons, forall_eq_or_imp]
    exact ⟨joins.inExpression, (ih₂ rfl).all⟩
  | _ => simp [Phrase.isExpression]

def Phrase.expressionTree? : Phrase → Option Node
  | primary x | unary x | operand _ x | chain _ _ x | expression x => some x
  | _ => none

/-- Expressions are none of the statements that end with a block. -/
theorem Derives.endsWithBlock_expression {limit d : Nat} {phrase : Phrase} {ts : List Lexeme}
    (h : Derives limit d phrase ts) {x : Node} (tree : phrase.expressionTree? = some x) :
    x.endsWithBlock = false := by
  induction h generalizing x with
  | group _ _ ih | plain _ ih | tightest _ _ ih | tighter _ _ ih | single _ ih | loosest _ ih =>
    exact ih tree
  | joined _ _ joins _ _ _ =>
    -- no operator of a chain builds an assignment or a statement
    cases tree
    cases joins <;> rfl
  | _ => cases tree <;> rfl

/-! ## The first token of a statement -/

def startsStatement : Token → Bool
  | .symbol .printWord | .symbol .returnWord | .symbol .ifWord => true
  | .symbol .whileWord | .symbol .defWord => true
  | token => startsExpression token

theorem Derives.start_statement {limit d : Nat} {x : Node} {ts : List Lexeme}
    (h : Derives limit d (.statement x) ts) :
    ∃ first rest, ts = first :: rest ∧ startsStatement first.token = true := by
  cases h with
  | evaluation content =>
    obtain ⟨⟨⟨token, l⟩, rest, rfl, start⟩, _⟩ := content.ofExpression rfl
    refine ⟨_, rest, rfl, ?_⟩
    unfold startsStatement
    split <;> first | rfl | exact start
  | _ => exact ⟨_, _, rfl, rfl⟩

end Grammar

end SmallScript
