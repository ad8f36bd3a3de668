import SmallScript.Proofs.Grammar.Soundness

/-! # What is derivable is read

Every phrase of the grammar is read by its rule, which stops where the phrase ends.  The rules take
what they can get, so this holds in front of tokens that cannot go on with the phrase:

* `Stops strength rest`: no parenthesis follows, and no operator that binds so tightly.
* `NoElse rest`: no `else` and no `elif` follows.
* `StatementStops x rest`: what follows cannot go on with the statement `x`.

`Accepted limit depth tokens phrase` says what reading a phrase amounts to, and `accepted` proves it
by induction on the derivation.  For a chain it says that reading its tokens and then going on is
the same as going on with the tree of the chain in hand, on the level that the chain has reached:
that is what the derivation of a longer chain needs from the shorter one.
-/

namespace SmallScript.Grammar

open SmallScript.Grammar.Parser

/-! ## What may follow -/

def Tier.strength : Tier → Nat
  | logic => 0
  | comparison => 1
  | additive => 2
  | multiplicative => 3

def tierOf? : Symbol → Option Tier
  | .both | .either => some .logic
  | .equal | .notEqual | .less | .lessEqual | .greater | .greaterEqual => some .comparison
  | .plus | .minus => some .additive
  | .star | .slash => some .multiplicative
  | _ => none

/-- No parenthesis follows, and only operators that bind less tightly. -/
def Stops (strength : Nat) (rest : List Lexeme) : Prop :=
  ∀ s, symbol? rest = some s →
    s ≠ .openParen ∧ ∀ tier, tierOf? s = some tier → tier.strength < strength

def NoElse (rest : List Lexeme) : Prop :=
  symbol? rest ≠ some .elseWord ∧ symbol? rest ≠ some .elifWord

def StatementStops (x : Node) (rest : List Lexeme) : Prop :=
  match x.endsWithBlock with
  | true => NoElse rest
  | false => Stops 0 rest ∧ symbol? rest ≠ some .assign

theorem strength_of_tighter {tier tier' : Tier} (tighter : tier.tighter? = some tier') :
    tier'.strength = tier.strength + 1 := by
  cases tier <;> cases tighter <;> rfl

theorem strength_of_tightest {tier : Tier} (tightest : tier.tighter? = none) : tier.strength = 3 := by
  cases tier <;> first | rfl | cases tightest

theorem Stops.weaken {n m : Nat} {rest : List Lexeme} (stops : Stops n rest) (le : n ≤ m) :
    Stops m rest := by
  intro s first
  obtain ⟨noParen, operators⟩ := stops s first
  exact ⟨noParen, fun tier found => Nat.lt_of_lt_of_le (operators tier found) le⟩

/-- In front of a symbol that is neither a parenthesis nor an operator everything stops. -/
theorem stops_symbol {s : Symbol} {l : Nat} {rest : List Lexeme} (noParen : s ≠ .openParen)
    (noOperator : tierOf? s = none) (n : Nat) : Stops n (⟨.symbol s, l⟩ :: rest) := by
  rintro _ ⟨⟩
  exact ⟨noParen, fun tier found => by rw [noOperator] at found; cases found⟩

theorem build?_eq_none {tier : Tier} {s : Symbol} (other : tierOf? s ≠ some tier) :
    tier.build? s = none := by
  cases tier <;> cases s <;> first | rfl | exact absurd rfl other

theorem Joins.tierOf?_eq {tier : Tier} {s : Symbol} {build : Node → Node → Nat → Node}
    (joins : Joins tier s build) : tierOf? s = some tier := by
  cases joins with
  | logic op => cases op <;> rfl
  | comparison op => cases op <;> rfl
  | add | sub | mul | div => rfl

/-- An operator ends the operands of its own kind of chains. -/
theorem Joins.stops {tier : Tier} {s : Symbol} {build : Node → Node → Nat → Node}
    (joins : Joins tier s build) {l : Nat} {rest : List Lexeme} :
    Stops (tier.strength + 1) (⟨.symbol s, l⟩ :: rest) := by
  rintro _ ⟨⟩
  have belongs := joins.tierOf?_eq
  constructor
  · rintro rfl
    cases belongs
  · intro tier' found
    rw [belongs] at found
    cases found
    exact Nat.lt_succ_self _

/-! ## Parsers in front of given tokens -/

section Parsers

variable {α : Type} {tokens : List Lexeme}

/-- In front of tokens that are in `follow`, the parser takes off `tokens` and returns `x`. -/
def Yields (parser : Parser α) (x : α) (tokens : List Lexeme) (follow : List Lexeme → Prop) : Prop :=
  ∀ rest, follow rest → parser (tokens ++ rest) = .ok x rest

theorem items_of_listed {item : Parser α} {follow : List Lexeme → Prop} {closing : Symbol}
    {xs : List α} {ts : List Lexeme} (listed : Listed (fun x us => Yields item x us follow) xs ts)
    (noComma : closing ≠ .comma) (comma : ∀ l rest, follow (⟨.symbol .comma, l⟩ :: rest))
    (close : ∀ l rest, follow (⟨.symbol closing, l⟩ :: rest)) {rounds : Nat}
    (enough : ts.length < rounds) (c : Nat) (rest : List Lexeme) :
    items item closing rounds (ts ++ ⟨.symbol closing, c⟩ :: rest) = .ok xs rest := by
  induction listed generalizing rounds with
  | last first =>
    -- an item takes off a token, so there is a round for it
    obtain ⟨rounds, rfl⟩ := Nat.exists_eq_add_one_of_ne_zero (Nat.ne_zero_of_lt enough)
    refine (bind_of_ok (first _ (close c rest))).trans ?_
    refine (bind_of_ok (peekSymbol_eq _)).trans ?_
    rw [symbol?_cons, if_neg (by simpa using noComma), if_pos rfl]
    rfl
  | @next x xs ts l us first listed ih =>
    obtain ⟨rounds, rfl⟩ := Nat.exists_eq_add_one_of_ne_zero (Nat.ne_zero_of_lt enough)
    have shorter : us.length < rounds := by
      simp only [List.length_append, List.length_cons] at enough
      omega
    rw [List.append_assoc, List.cons_append]
    refine (bind_of_ok (first _ (comma l _))).trans ?_
    refine (bind_of_ok (peekSymbol_eq _)).trans ?_
    rw [symbol?_cons, if_pos rfl]
    exact (bind_of_ok (ih shorter)).trans rfl

/-- A list that does not close at once is read item by item. -/
theorem commaSeparated_of_listed {item : Parser α} {follow : List Lexeme → Prop} {closing : Symbol}
    {xs : List α} {ts : List Lexeme} (listed : Listed (fun x us => Yields item x us follow) xs ts)
    (noComma : closing ≠ .comma) (comma : ∀ l rest, follow (⟨.symbol .comma, l⟩ :: rest))
    (close : ∀ l rest, follow (⟨.symbol closing, l⟩ :: rest)) (c : Nat) (rest : List Lexeme)
    (opens : symbol? (ts ++ ⟨.symbol closing, c⟩ :: rest) ≠ some closing) :
    commaSeparated item closing (ts ++ ⟨.symbol closing, c⟩ :: rest) = .ok xs rest := by
  refine (bind_of_ok (peekSymbol_eq _)).trans ?_
  rw [if_neg opens]
  refine items_of_listed listed noComma comma close ?_ c rest
  simp only [List.length_append, List.length_cons]
  omega

theorem commaSeparated_empty {item : Parser α} {closing : Symbol} (c : Nat) (rest : List Lexeme) :
    commaSeparated item closing (⟨.symbol closing, c⟩ :: rest) = .ok [] rest := by
  refine (bind_of_ok (peekSymbol_eq _)).trans ?_
  rw [symbol?_cons, if_pos rfl]
  rfl

theorem Listed.imp {p q : α → List Lexeme → Prop} {xs : List α} {ts : List Lexeme}
    (h : ∀ x us, p x us → q x us) (listed : Listed p xs ts) : Listed q xs ts := by
  induction listed with
  | last first => exact .last (h _ _ first)
  | next first _ ih => exact .next (h _ _ first) ih

theorem Parameters.yields {ns : List String} {ts : List Lexeme} (params : Parameters ns ts) :
    Yields (commaSeparated identifier .closeParen) ns ts fun _ => True := by
  intro rest _
  cases params with
  | none => exact commaSeparated_empty _ rest
  | @some _ us c names =>
    have yields : Listed (fun n us => Yields identifier n us fun _ => True) ns us := by
      refine names.imp ?_
      rintro n _ ⟨l, rfl⟩ rest _
      exact identifier_cons n l rest
    rw [List.append_assoc]
    refine commaSeparated_of_listed yields (by decide) (fun _ _ => trivial) (fun _ _ => trivial) c rest ?_
    cases names with
    | last first =>
      obtain ⟨l, rfl⟩ := first
      exact nofun
    | next first _ =>
      obtain ⟨l, rfl⟩ := first
      exact nofun

end Parsers

/-! ## Levels -/

/-- Where there is room, a level is opened. -/
theorem within_of_room {α : Type} {limit d : Nat} (room : d < limit) (content : Rules → Parser α) :
    within (levelBelow (limit - d)) content =
      content (rulesOver (levelBelow (limit - (d + 1)))) := by
  obtain ⟨k, rfl⟩ : ∃ k, limit = d + 1 + k := ⟨limit - (d + 1), by omega⟩
  have here : d + 1 + k - d = k + 1 := by omega
  rw [here, Nat.add_sub_cancel_left, ← rules_eq]
  rfl

def chain (below : Option Rules) (tier : Tier) : Parser Node := do
  more below tier (← (rulesOver below).operand tier)

theorem operand_of_tighter {tier tier' : Tier} (tighter : tier.tighter? = some tier')
    (below : Option Rules) : (rulesOver below).operand tier = chain below tier' := by
  cases tier <;> cases tighter <;> rfl

theorem operand_of_tightest {tier : Tier} (tightest : tier.tighter? = none) (below : Option Rules) :
    (rulesOver below).operand tier = unary below := by
  cases tier <;> first | rfl | cases tightest

/-- What reading a phrase amounts to. -/
def Accepted (limit d : Nat) (ts : List Lexeme) : Phrase → Prop
  | .primary x => Yields (primary (levelBelow (limit - d))) x ts (Stops 4)
  | .unary x => Yields (unary (levelBelow (limit - d))) x ts (Stops 4)
  | .operand tier x =>
    Yields ((rulesOver (levelBelow (limit - d))).operand tier) x ts (Stops (tier.strength + 1))
  | .chain tier n x => ∀ rest, Stops (tier.strength + 1) rest →
    chain (levelBelow (limit - d)) tier (ts ++ rest) =
      more (levelBelow (limit - (d + n))) tier x rest
  | .expression x => Yields (expression (levelBelow (limit - d))) x ts (Stops 0)
  | .arguments xs =>
    Listed (fun x us => Yields (expression (levelBelow (limit - d))) x us (Stops 0)) xs ts
  | .block x => Yields (block (levelBelow (limit - d))) x ts fun _ => True
  | .branches line x => Yields (conditional (levelBelow (limit - d)) line) x ts NoElse
  | .alternative e => Yields (alternative (levelBelow (limit - d))) e ts NoElse
  | .statement x => Yields (statement (levelBelow (limit - d))) x ts (StatementStops x)
  | .statements xs => ∀ rounds, ts.length < rounds →
    Yields (statementsOf (statement (levelBelow (limit - d))) rounds) xs ts (endsStatements · = true)

section Cases

variable {limit d : Nat} {ts us vs rest : List Lexeme}

/-! ### Expressions -/

theorem primary_group {x : Node} {o c : Nat} (room : d < limit)
    (content : Accepted limit (d + 1) ts (.expression x)) :
    Accepted limit d (⟨.symbol .openParen, o⟩ :: (ts ++ [⟨.symbol .closeParen, c⟩])) (.primary x) := by
  intro rest _
  change within _ _ _ = _
  rw [within_of_room room]
  simp only [List.cons_append, List.append_assoc, List.nil_append]
  refine (bind_of_ok (skip_cons _ _)).trans ?_
  refine (bind_of_ok (content _ (stops_symbol (by decide) rfl 0))).trans ?_
  exact (bind_of_ok (expect_cons _ c rest)).trans rfl

theorem primary_name {n : String} {l : Nat} :
    Accepted limit d [⟨.name n, l⟩] (.primary (.name n l)) := by
  intro rest stops
  change (peekSymbol >>= _) rest = _
  rw [bind_of_ok (peekSymbol_eq rest), if_neg (fun paren => (stops _ paren).1 rfl)]
  rfl

theorem primary_call {n : String} {l o c : Nat} {xs : List Node} (room : d < limit)
    (content : Derives limit (d + 1) (.arguments xs) ts)
    (accepted : Accepted limit (d + 1) ts (.arguments xs)) :
    Accepted limit d
      (⟨.name n, l⟩ :: ⟨.symbol .openParen, o⟩ :: (ts ++ [⟨.symbol .closeParen, c⟩]))
      (.primary (.call n xs l)) := by
  intro rest _
  change within _ _ _ = _
  rw [within_of_room room]
  simp only [List.cons_append, List.append_assoc, List.nil_append]
  -- no expression starts with the parenthesis that would close the list at once
  have opens : symbol? (ts ++ ⟨.symbol .closeParen, c⟩ :: rest) ≠ some .closeParen := by
    obtain ⟨⟨⟨token, m⟩, us, rfl, start⟩, _⟩ := content.ofExpression rfl
    rintro first
    cases token <;> cases first
    cases start
  refine (bind_of_ok (skip_cons _ _)).trans ?_
  exact (bind_of_ok (commaSeparated_of_listed accepted (by decide)
    (fun l rest => stops_symbol (by decide) rfl 0) (fun l rest => stops_symbol (by decide) rfl 0)
    c rest opens)).trans rfl

theorem primary_callBare {n : String} {l o c : Nat} (room : d < limit) :
    Accepted limit d [⟨.name n, l⟩, ⟨.symbol .openParen, o⟩, ⟨.symbol .closeParen, c⟩]
      (.primary (.call n [] l)) := by
  intro rest _
  change within _ _ _ = _
  rw [within_of_room room]
  rfl

theorem unary_plain {x : Node} (content : Derives limit d (.primary x) ts)
    (accepted : Accepted limit d ts (.primary x)) : Accepted limit d ts (.unary x) := by
  intro rest stops
  -- no primary starts with a prefix operator
  have noPrefix : unary (levelBelow (limit - d)) (ts ++ rest) =
      primary (levelBelow (limit - d)) (ts ++ rest) := by
    cases content <;> rfl
  exact noPrefix.trans (accepted rest stops)

/-- A prefix operator opens a level for its operand. -/
theorem unary_opens (below : Option Rules) (op : UnaryOp) (l : Nat) (rest : List Lexeme) :
    unary below (⟨.symbol op.symbol, l⟩ :: rest) =
      within below (fun rules => do
        skip
        let operand ← rules.unary
        return .unary op operand l) (⟨.symbol op.symbol, l⟩ :: rest) := by
  cases op <;> rfl

theorem unary_prefixed {x : Node} {l : Nat} (op : UnaryOp) (room : d < limit)
    (content : Accepted limit (d + 1) ts (.unary x)) :
    Accepted limit d (⟨.symbol op.symbol, l⟩ :: ts) (.unary (.unary op x l)) := by
  intro rest stops
  rw [List.cons_append, unary_opens, within_of_room room]
  refine (bind_of_ok (skip_cons _ _)).trans ?_
  exact (bind_of_ok (content rest stops)).trans rfl

theorem operand_tightest {tier : Tier} {x : Node} (tightest : tier.tighter? = none)
    (content : Accepted limit d ts (.unary x)) : Accepted limit d ts (.operand tier x) := by
  intro rest stops
  rw [operand_of_tightest tightest]
  rw [strength_of_tightest tightest] at stops
  exact content rest stops

/-- A chain ends where no operator of its kind follows. -/
theorem more_of_stops {below : Option Rules} {tier : Tier} {x : Node}
    (stops : Stops tier.strength rest) : more below tier x rest = .ok x rest := by
  rcases rest with _ | ⟨⟨token, l⟩, us⟩
  · rfl
  · cases token with
    | symbol s =>
      have other : tierOf? s ≠ some tier := fun found =>
        Nat.lt_irrefl _ ((stops s rfl).2 tier found)
      have absent := build?_eq_none other
      refine (bind_of_ok (peek_cons _ _)).trans ?_
      dsimp only
      rw [absent]
      rfl
    | number | text | truth | name | endOfInput => rfl

theorem operand_tighter {tier tier' : Tier} {n : Nat} {x : Node}
    (tighter : tier.tighter? = some tier') (content : Accepted limit d ts (.chain tier' n x)) :
    Accepted limit d ts (.operand tier x) := by
  intro rest stops
  rw [operand_of_tighter tighter]
  rw [← strength_of_tighter tighter] at stops
  exact (content rest (stops.weaken (Nat.le_succ _))).trans (more_of_stops stops)

theorem chain_single {tier : Tier} {x : Node} (content : Accepted limit d ts (.operand tier x)) :
    Accepted limit d ts (.chain tier 0 x) := by
  intro rest stops
  exact bind_of_ok (content rest stops)

/-- An operator of a chain opens a level for what is behind it. -/
theorem more_opens {tier : Tier} {s : Symbol} {build : Node → Node → Nat → Node} (joins : Joins tier s build)
    (below : Option Rules) (left : Node) (l : Nat) (rest : List Lexeme) :
    more below tier left (⟨.symbol s, l⟩ :: rest) =
      within below (fun rules => do
        skip
        let right ← rules.operand tier
        rules.more tier (build left right l)) (⟨.symbol s, l⟩ :: rest) := by
  refine (bind_of_ok (peek_cons _ _)).trans ?_
  dsimp only
  rw [joins_iff.mp joins]

theorem chain_joined {tier : Tier} {n l : Nat} {left right : Node} {s : Symbol}
    {build : Node → Node → Nat → Node} (room : d + n < limit)
    (first : Accepted limit d ts (.chain tier n left)) (joins : Joins tier s build)
    (last : Accepted limit (d + n + 1) us (.operand tier right)) :
    Accepted limit d (ts ++ ⟨.symbol s, l⟩ :: us) (.chain tier (n + 1) (build left right l)) := by
  intro rest stops
  rw [List.append_assoc, List.cons_append]
  -- the shorter chain is read up to the operator, which decides how it goes on
  refine (first _ joins.stops).trans ?_
  rw [more_opens joins, within_of_room room]
  refine (bind_of_ok (skip_cons _ _)).trans ?_
  exact (bind_of_ok (last rest stops)).trans rfl

theorem expression_loosest {n : Nat} {x : Node} (content : Accepted limit d ts (.chain .logic n x)) :
    Accepted limit d ts (.expression x) := by
  intro rest stops
  exact (content rest (stops.weaken (Nat.zero_le _))).trans (more_of_stops stops)

/-! ### Blocks and conditionals -/

theorem block_braces {xs : List Node} {o c : Nat} (room : d < limit)
    (content : Accepted limit (d + 1) ts (.statements xs)) :
    Accepted limit d (⟨.symbol .openBrace, o⟩ :: (ts ++ [⟨.symbol .closeBrace, c⟩]))
      (.block (.block xs (xs.head?.bind Node.line?))) := by
  intro rest _
  change within _ _ _ = _
  rw [within_of_room room]
  simp only [List.cons_append, List.append_assoc, List.nil_append]
  refine (bind_of_ok (expect_cons _ o _)).trans ?_
  -- the rounds are counted on all the tokens that are left
  have rounds : ts.length < (ts ++ ⟨.symbol .closeBrace, c⟩ :: rest).length + 1 := by
    simp only [List.length_append]
    omega
  refine (bind_of_ok (content _ rounds (⟨.symbol .closeBrace, c⟩ :: rest) rfl)).trans ?_
  exact (bind_of_ok (expect_cons _ c rest)).trans rfl

theorem condition_parenthesized {x : Node} {o c : Nat} (content : Accepted limit d ts (.expression x)) :
    condition (levelBelow (limit - d))
      (⟨.symbol .openParen, o⟩ :: (ts ++ ⟨.symbol .closeParen, c⟩ :: rest)) = .ok x rest := by
  refine (bind_of_ok (expect_cons _ o _)).trans ?_
  refine (bind_of_ok (content _ (stops_symbol (by decide) rfl 0))).trans ?_
  exact (bind_of_ok (expect_cons _ c rest)).trans rfl

theorem branches_all {x b : Node} {e : Option Node} {l o c : Nat}
    (test : Accepted limit d ts (.expression x)) (body : Accepted limit d us (.block b))
    (alternative : Accepted limit d vs (.alternative e)) :
    Accepted limit d (⟨.symbol .openParen, o⟩ :: (ts ++ ⟨.symbol .closeParen, c⟩ :: (us ++ vs)))
      (.branches l (.conditional x b e l)) := by
  intro rest noElse
  simp only [List.cons_append, List.append_assoc]
  refine (bind_of_ok (condition_parenthesized test)).trans ?_
  refine (bind_of_ok (body _ trivial)).trans ?_
  exact (bind_of_ok (alternative rest noElse)).trans rfl

theorem alternative_none : Accepted limit d [] (.alternative none) := by
  intro rest noElse
  rcases rest with _ | ⟨⟨token, l⟩, us⟩
  · rfl
  · cases token with
    | symbol s =>
      cases s with
      | elseWord => exact absurd rfl noElse.1
      | elifWord => exact absurd rfl noElse.2
      | _ => rfl
    | number | text | truth | name | endOfInput => rfl

theorem alternative_otherwise {b : Node} {w : Nat} (content : Derives limit d (.block b) ts)
    (accepted : Accepted limit d ts (.block b)) :
    Accepted limit d (⟨.symbol .elseWord, w⟩ :: ts) (.alternative (some b)) := by
  intro rest _
  -- a block opens with a brace, so this is not taken for `else if`
  obtain ⟨o, us, rfl⟩ : ∃ o us, ts = ⟨.symbol .openBrace, o⟩ :: us := by
    cases content
    exact ⟨_, _, rfl⟩
  exact (bind_of_ok (accepted rest trivial)).trans rfl

/-- Both ways to continue a conditional open a level and read the same there. -/
theorem continued_accepted {x : Node} {t : Lexeme} {l : Nat} (room : d < limit)
    (content : Accepted limit (d + 1) ts (.branches l x)) (noElse : NoElse rest) :
    continued (levelBelow (limit - d)) l (t :: ts ++ rest) = .ok (some x) rest := by
  unfold continued
  rw [within_of_room room]
  refine (bind_of_ok (skip_cons _ _)).trans ?_
  exact (bind_of_ok (content rest noElse)).trans rfl

theorem alternative_elseIf {x : Node} {w l : Nat} (room : d < limit)
    (content : Accepted limit (d + 1) ts (.branches l x)) :
    Accepted limit d (⟨.symbol .elseWord, w⟩ :: ⟨.symbol .ifWord, l⟩ :: ts)
      (.alternative (some x)) :=
  fun _ noElse => continued_accepted room content noElse

theorem alternative_elif {x : Node} {l : Nat} (room : d < limit)
    (content : Accepted limit (d + 1) ts (.branches l x)) :
    Accepted limit d (⟨.symbol .elifWord, l⟩ :: ts) (.alternative (some x)) :=
  fun _ noElse => continued_accepted room content noElse

/-! ### Statements -/

theorem target?_of_expression (content : OfExpression ts) (noAssign : symbol? rest ≠ some .assign) :
    target? (ts ++ rest) = none := by
  obtain ⟨⟨t, us, rfl, _⟩, all⟩ := content
  unfold target?
  split
  next n m l vs equal =>
    cases us with
    | nil =>
      cases equal
      exact absurd rfl noAssign
    | cons u us =>
      -- the sign would stand inside the expression
      cases equal
      cases all ⟨.symbol .assign, l⟩ (by simp)
  next => rfl

theorem statement_evaluation {x : Node} (content : Derives limit d (.expression x) ts)
    (accepted : Accepted limit d ts (.expression x)) : Accepted limit d ts (.statement x) := by
  intro rest stops
  unfold StatementStops at stops
  rw [content.endsWithBlock_expression rfl] at stops
  have tokens := content.ofExpression rfl
  -- no expression starts with the word of another statement
  have isSimple : statement (levelBelow (limit - d)) (ts ++ rest) =
      simple (levelBelow (limit - d)) (ts ++ rest) := by
    obtain ⟨⟨token, l⟩, us, rfl, start⟩ := tokens.start
    cases token with
    | symbol s => cases s <;> first | rfl | cases start
    | number | text | truth | name => rfl
    | endOfInput => cases start
  -- nor with a name and `=`
  have isExpression : simple (levelBelow (limit - d)) (ts ++ rest) =
      expression (levelBelow (limit - d)) (ts ++ rest) := by
    unfold simple
    refine (bind_of_ok rfl).trans ?_
    rw [target?_of_expression tokens stops.2]
    rfl
  rw [isSimple, isExpression]
  exact accepted rest stops.1

theorem statement_conditional {x : Node} {l : Nat} (content : Derives limit d (.branches l x) ts)
    (accepted : Accepted limit d ts (.branches l x)) :
    Accepted limit d (⟨.symbol .ifWord, l⟩ :: ts) (.statement x) := by
  intro rest stops
  have closed : x.endsWithBlock = true := by
    cases content
    rfl
  unfold StatementStops at stops
  rw [closed] at stops
  exact accepted rest stops

theorem statement_loop {x b : Node} {l o c : Nat} (test : Accepted limit d ts (.expression x))
    (body : Accepted limit d us (.block b)) :
    Accepted limit d (⟨.symbol .whileWord, l⟩ :: ⟨.symbol .openParen, o⟩ ::
      (ts ++ ⟨.symbol .closeParen, c⟩ :: us)) (.statement (.loop x b l)) := by
  intro rest _
  simp only [List.cons_append, List.append_assoc]
  refine (bind_of_ok (condition_parenthesized test)).trans ?_
  exact (bind_of_ok (body rest trivial)).trans rfl

theorem statement_function {n : String} {ns : List String} {b : Node} {l m o : Nat}
    (params : Parameters ns ts) (body : Accepted limit d us (.block b)) :
    Accepted limit d
      (⟨.symbol .defWord, l⟩ :: ⟨.name n, m⟩ :: ⟨.symbol .openParen, o⟩ :: (ts ++ us))
      (.statement (.function n ns b l)) := by
  intro rest _
  simp only [List.cons_append, List.append_assoc]
  refine (bind_of_ok (peek_cons _ _)).trans ?_
  refine (bind_of_ok (skip_cons _ _)).trans ?_
  refine (bind_of_ok (identifier_cons n m _)).trans ?_
  refine (bind_of_ok (expect_cons _ o _)).trans ?_
  refine (bind_of_ok (params.yields _ trivial)).trans ?_
  exact (bind_of_ok (body rest trivial)).trans rfl

/-! ### Lists of statements -/

theorem symbol?_of_ends (ends : endsStatements rest = true) {s : Symbol} (other : s ≠ .closeBrace) :
    symbol? rest ≠ some s := by
  intro first
  rcases rest with _ | ⟨⟨token, l⟩, us⟩
  · cases first
  · cases token <;> cases first
    cases s <;> first | exact other rfl | cases ends

theorem noElse_of_ends (ends : endsStatements rest = true) : NoElse rest :=
  ⟨symbol?_of_ends ends (by decide), symbol?_of_ends ends (by decide)⟩

theorem statementStops_of_ends (x : Node) (ends : endsStatements rest = true) :
    StatementStops x rest := by
  unfold StatementStops
  split
  · exact noElse_of_ends ends
  · refine ⟨?_, symbol?_of_ends ends (by decide)⟩
    intro s first
    by_cases brace : s = .closeBrace
    · subst brace
      exact ⟨by decide, nofun⟩
    · exact absurd first (symbol?_of_ends ends brace)

theorem statementStops_semicolon (x : Node) (l : Nat) :
    StatementStops x (⟨.symbol .semicolon, l⟩ :: rest) := by
  unfold StatementStops
  split
  · exact ⟨nofun, nofun⟩
  · exact ⟨stops_symbol (by decide) rfl 0, nofun⟩

theorem statementStops_of_noElse {x : Node} (closed : x.endsWithBlock = true) (noElse : NoElse rest) :
    StatementStops x rest := by
  unfold StatementStops
  rw [closed]
  exact noElse

/-- The next statement is never taken for the rest of a conditional. -/
theorem noElse_statements {xs : List Node} (content : Derives limit d (.statements xs) ts)
    (ends : endsStatements rest = true) : NoElse (ts ++ rest) := by
  have noElse_start : ∀ {x us vs}, Derives limit d (.statement x) us → NoElse (us ++ vs) := by
    intro x us vs first
    obtain ⟨⟨token, l⟩, us, rfl, start⟩ := first.start_statement
    constructor <;>
    · intro same
      cases token <;> cases same
      cases start
  cases content with
  | nothing => exact noElse_of_ends ends
  | stray => exact ⟨nofun, nofun⟩
  | last first => exact noElse_start first
  | separated first _ => rw [List.append_assoc]; exact noElse_start first
  | adjacent _ first _ => rw [List.append_assoc]; exact noElse_start first

theorem semicolons_cons (l : Nat) (rest : List Lexeme) :
    semicolons (⟨.symbol .semicolon, l⟩ :: rest) = semicolons rest := by
  simp [semicolons]

/-- A stray semicolon makes no difference to a list of statements. -/
theorem statementsOf_semicolon (statement : Parser Node) (rounds l : Nat) (rest : List Lexeme) :
    statementsOf statement (rounds + 1) (⟨.symbol .semicolon, l⟩ :: rest) =
      statementsOf statement (rounds + 1) rest := by
  unfold statementsOf
  exact (bind_of_ok (semicolons_cons l rest)).trans (bind_of_ok rfl).symm

/-- A round of the list reads one statement, and what is behind it decides how to go on. -/
theorem statementsOf_statement {parser : Parser Node} {x : Node} (rounds : Nat)
    (start : ∃ first us, ts = first :: us ∧ startsStatement first.token = true)
    (read : parser (ts ++ rest) = .ok x rest) :
    statementsOf parser (rounds + 1) (ts ++ rest) =
      (separator x >>= fun _ => do return x :: (← statementsOf parser rounds)) rest := by
  obtain ⟨⟨token, l⟩, us, rfl, start⟩ := start
  have other : token ≠ .symbol .semicolon := by
    rintro rfl
    cases start
  have goesOn : endsStatements (⟨token, l⟩ :: us ++ rest) = false := by
    cases token with
    | symbol s => cases s <;> first | rfl | cases start
    | number | text | truth | name => rfl
    | endOfInput => cases start
  have unmoved : semicolons (⟨token, l⟩ :: us ++ rest) = .ok () (⟨token, l⟩ :: us ++ rest) := by
    simp [semicolons, other]
  refine (bind_of_ok unmoved).trans ?_
  change (if endsStatements (⟨token, l⟩ :: us ++ rest) then _ else _ : Parser (List Node)) _ = _
  rw [goesOn]
  exact bind_of_ok read

theorem separator_semicolon (x : Node) (l : Nat) (rest : List Lexeme) :
    separator x (⟨.symbol .semicolon, l⟩ :: rest) = .ok () rest := rfl

theorem separator_unseparated {x : Node} (other : symbol? rest ≠ some .semicolon)
    (allowed : endsStatements rest = true ∨ x.endsWithBlock = true) :
    separator x rest = .ok () rest := by
  refine (bind_of_ok (peekSymbol_eq rest)).trans ?_
  rw [if_neg other]
  change (if endsStatements rest || x.endsWithBlock then _ else _ : Parser Unit) rest = _
  rw [if_pos (Bool.or_eq_true .. ▸ allowed)]
  rfl

theorem statements_stray {xs : List Node} {l : Nat} (list : Accepted limit d ts (.statements xs)) :
    Accepted limit d (⟨.symbol .semicolon, l⟩ :: ts) (.statements xs) := by
  intro rounds enough rest ends
  obtain ⟨rounds, rfl⟩ := Nat.exists_eq_add_one_of_ne_zero (Nat.ne_zero_of_lt enough)
  rw [List.cons_append, statementsOf_semicolon]
  exact list (rounds + 1) (Nat.lt_of_succ_lt enough) rest ends

theorem statements_last {x : Node} (content : Derives limit d (.statement x) ts)
    (accepted : Accepted limit d ts (.statement x)) : Accepted limit d ts (.statements [x]) := by
  intro rounds enough rest ends
  obtain ⟨rounds, rfl⟩ := Nat.exists_eq_add_one_of_ne_zero (Nat.ne_zero_of_lt enough)
  rw [statementsOf_statement rounds content.start_statement
    (accepted rest (statementStops_of_ends x ends))]
  refine (bind_of_ok (separator_unseparated (symbol?_of_ends ends (by decide)) (.inl ends))).trans ?_
  exact (bind_of_ok (statementsOf_of_ends ends rounds)).trans rfl

theorem statements_separated {x : Node} {xs : List Node} {l : Nat}
    (content : Derives limit d (.statement x) ts) (accepted : Accepted limit d ts (.statement x))
    (list : Accepted limit d us (.statements xs)) :
    Accepted limit d (ts ++ ⟨.symbol .semicolon, l⟩ :: us) (.statements (x :: xs)) := by
  intro rounds enough rest ends
  obtain ⟨rounds, rfl⟩ := Nat.exists_eq_add_one_of_ne_zero (Nat.ne_zero_of_lt enough)
  have shorter : us.length < rounds := by
    simp only [List.length_append, List.length_cons] at enough
    omega
  rw [List.append_assoc, List.cons_append]
  rw [statementsOf_statement rounds content.start_statement
    (accepted _ (statementStops_semicolon x l))]
  refine (bind_of_ok (separator_semicolon x l _)).trans ?_
  exact (bind_of_ok (list rounds shorter rest ends)).trans rfl

theorem statements_adjacent {x : Node} {xs : List Node} (closed : x.endsWithBlock = true)
    (content : Derives limit d (.statement x) ts) (accepted : Accepted limit d ts (.statement x))
    (next : Derives limit d (.statements xs) us) (list : Accepted limit d us (.statements xs)) :
    Accepted limit d (ts ++ us) (.statements (x :: xs)) := by
  intro rounds enough rest ends
  obtain ⟨first, ts', equal, _⟩ := content.start_statement
  -- a round is left even if the next one starts with a stray semicolon
  obtain ⟨rounds, rfl⟩ : ∃ k, rounds = k + 2 := by
    refine ⟨rounds - 2, ?_⟩
    simp only [equal, List.length_append, List.length_cons] at enough
    omega
  have shorter : us.length < rounds + 1 := by
    simp only [equal, List.length_append, List.length_cons] at enough
    omega
  rw [List.append_assoc]
  rw [statementsOf_statement (rounds + 1) content.start_statement
    (accepted _ (statementStops_of_noElse closed (noElse_statements next ends)))]
  have read := list (rounds + 1) shorter rest ends
  by_cases semicolon : symbol? (us ++ rest) = some .semicolon
  · -- the semicolon is taken for a separator, where the derivation has a stray one
    obtain ⟨l, vs, split⟩ := exists_of_symbol?_eq_some semicolon
    rw [split] at read ⊢
    rw [statementsOf_semicolon] at read
    refine (bind_of_ok (separator_semicolon x l vs)).trans ?_
    exact (bind_of_ok read).trans rfl
  · refine (bind_of_ok (separator_unseparated semicolon (.inr closed))).trans ?_
    exact (bind_of_ok read).trans rfl

end Cases

/-! ## The induction -/

/-- Every phrase of the grammar is read. -/
theorem accepted {limit d : Nat} {phrase : Phrase} {ts : List Lexeme}
    (h : Derives limit d phrase ts) : Accepted limit d ts phrase := by
  -- one lemma for each way to derive a phrase
  induction h with
  | number | truth | text | input | inputBare => exact fun rest _ => rfl
  | name => exact primary_name
  | group room _ ih => exact primary_group room ih
  | call room content ih => exact primary_call room content ih
  | callBare room => exact primary_callBare room
  | lastArgument _ ih => exact .last ih
  | nextArgument _ _ ih₁ ih₂ => exact .next ih₁ ih₂
  | plain content ih => exact unary_plain content ih
  | prefixed op room _ ih => exact unary_prefixed op room ih
  | tightest tightest _ ih => exact operand_tightest tightest ih
  | tighter tighter _ ih => exact operand_tighter tighter ih
  | single _ ih => exact chain_single ih
  | joined room _ joins _ ih₁ ih₂ => exact chain_joined room ih₁ joins ih₂
  | loosest _ ih => exact expression_loosest ih
  | block room _ ih => exact block_braces room ih
  | branches _ _ _ ih₁ ih₂ ih₃ => exact branches_all ih₁ ih₂ ih₃
  | noAlternative => exact alternative_none
  | otherwise body ih => exact alternative_otherwise body ih
  | elseIf room _ ih => exact alternative_elseIf room ih
  | elif room _ ih => exact alternative_elif room ih
  | print _ ih => exact fun rest stops => (bind_of_ok (ih rest stops.1)).trans rfl
  | ret _ ih => exact fun rest stops => (bind_of_ok (ih rest stops.1)).trans rfl
  | conditional content ih => exact statement_conditional content ih
  | loop _ _ ih₁ ih₂ => exact statement_loop ih₁ ih₂
  | function params _ ih => exact statement_function params ih
  | assignment _ ih => exact fun rest stops => (bind_of_ok (ih rest stops.1)).trans rfl
  | evaluation content ih => exact statement_evaluation content ih
  | nothing => exact fun rounds _ rest ends => statementsOf_of_ends ends rounds
  | stray _ ih => exact statements_stray ih
  | last first ih => exact statements_last first ih
  | separated first _ ih₁ ih₂ => exact statements_separated first ih₁ ih₂
  | adjacent closed first next ih₁ ih₂ => exact statements_adjacent closed first ih₁ next ih₂

/-- A sentence of the grammar is read, up to its end. -/
theorem programWith_of_sentence {limit : Nat} {tokens : List Lexeme} {statements : List Node}
    (sentence : Sentence limit statements tokens) :
    programWith (rules limit) tokens = .ok statements [] := by
  obtain ⟨body, line, rfl, content⟩ := sentence
  have rounds : body.length < (body ++ [Lexeme.mk .endOfInput line]).length + 1 := by
    simp only [List.length_append]
    omega
  have read : (rules limit).statements (body ++ [⟨.endOfInput, line⟩]) =
      .ok statements [⟨.endOfInput, line⟩] := by
    rw [rules_eq]
    exact accepted content _ rounds _ rfl
  exact (bind_of_ok read).trans rfl

/-! ## Exactly the sentences are read -/

/-- A script is a sentence if it is read and nothing is left of it. -/
theorem sentence_iff_program {tokens : List Lexeme} {statements : List Node} :
    Sentence nestingLimit statements tokens ↔ program tokens = .ok statements [] := by
  constructor
  · exact programWith_of_sentence
  · intro read
    obtain ⟨used, split, sentence⟩ := sentence_of_program read
    rw [List.append_nil] at split
    exact split ▸ sentence

/-- So it can be decided what a script denotes. -/
instance (statements : List Node) (tokens : List Lexeme) : Decidable (Sentence nestingLimit statements tokens) :=
  match read : program tokens with
  | .ok xs [] => decidable_of_iff (xs = statements) (by rw [sentence_iff_program, read]; simp)
  | .ok xs (t :: rest) => isFalse (by rw [sentence_iff_program, read]; simp)
  | .error fault rest => isFalse (by rw [sentence_iff_program, read]; simp)

example :
    let tokens : List Lexeme := [⟨.name "a", 1⟩, ⟨.symbol .semicolon, 1⟩, ⟨.name "b", 2⟩, ⟨.endOfInput, 2⟩]
    Sentence nestingLimit [.name "a" 1, .name "b" 2] tokens ∧
      ¬ Sentence nestingLimit [.name "b" 2, .name "a" 1] tokens := by decide

/-- The end of the input stands at the end, and nowhere else. -/
def EndsOnce (tokens : List Lexeme) : Prop :=
  ∃ body line, tokens = body ++ [⟨.endOfInput, line⟩] ∧ ∀ t ∈ body, t.token ≠ .endOfInput

theorem parseTokens_of_sentence {tokens : List Lexeme} {statements : List Node}
    (sentence : Sentence nestingLimit statements tokens) : parseTokens tokens = .ok statements := by
  unfold parseTokens
  rw [sentence_iff_program.mp sentence]

theorem sentence_of_parseTokens {tokens : List Lexeme} {statements : List Node}
    (read : parseTokens tokens = .ok statements) :
    ∃ used rest, tokens = used ++ rest ∧ Sentence nestingLimit statements used := by
  unfold parseTokens at read
  split at read
  next xs rest ok =>
    cases read
    obtain ⟨used, split, sentence⟩ := sentence_of_program ok
    exact ⟨used, rest, split, sentence⟩
  next => cases read

/-- Reading succeeds on exactly the sentences of the grammar whose nesting stays within the limit, and
    it returns the trees that the sentence denotes. -/
theorem parseTokens_eq_ok_iff_sentence {tokens : List Lexeme} (ends : EndsOnce tokens)
    (statements : List Node) :
    parseTokens tokens = .ok statements ↔ Sentence nestingLimit statements tokens := by
  constructor
  · intro read
    obtain ⟨used, rest, split, sentence⟩ := sentence_of_parseTokens read
    -- what is read ends at the first end of input, and there is only one
    have nothingLeft : rest = [] := by
      obtain ⟨body, line, rfl, once⟩ := ends
      obtain ⟨body', line', rfl, _⟩ := sentence
      rcases List.eq_nil_or_concat rest with empty | ⟨rest', t, rfl⟩
      · exact empty
      · have regrouped : body ++ [⟨.endOfInput, line⟩] =
            (body' ++ ⟨.endOfInput, line'⟩ :: rest') ++ [t] := by
          simpa using split
        have inside : body = body' ++ ⟨.endOfInput, line'⟩ :: rest' :=
          (List.append_inj' regrouped rfl).1
        exact absurd rfl (once ⟨.endOfInput, line'⟩ (by simp [inside]))
    rw [nothingLeft, List.append_nil] at split
    rw [split]
    exact sentence
  · exact parseTokens_of_sentence

/-- The script `if (a) { f(b) } -c`, in which no semicolon stands behind the block. -/
theorem sentence_conditional_then_negation :
    let tokens : List Lexeme :=
      [⟨.symbol .ifWord, 1⟩, ⟨.symbol .openParen, 1⟩, ⟨.name "a", 1⟩, ⟨.symbol .closeParen, 1⟩,
        ⟨.symbol .openBrace, 1⟩, ⟨.name "f", 2⟩, ⟨.symbol .openParen, 2⟩, ⟨.name "b", 2⟩,
        ⟨.symbol .closeParen, 2⟩, ⟨.symbol .closeBrace, 3⟩, ⟨.symbol .minus, 4⟩, ⟨.name "c", 4⟩,
        ⟨.endOfInput, 5⟩]
    EndsOnce tokens ∧ Sentence nestingLimit
      [.conditional (.name "a" 1) (.block [.call "f" [.name "b" 2] 2] (some 2)) none 1,
        .unary .negate (.name "c" 4) 4] tokens := by
  intro tokens
  have ends : EndsOnce tokens := ⟨tokens.dropLast, 5, rfl, by simp [tokens]⟩
  exact ⟨ends, (parseTokens_eq_ok_iff_sentence ends _).mp rfl⟩

end SmallScript.Grammar
