import SmallScript.Proofs.Grammar.Comparison

/-! # The rules, walked through

Every rule of the grammar reads the phrase that it is named for, fails at a token that cannot go on with it, and
does in a second run what the comparison of the two runs says.  All of this is one statement about each rule,
and `rules_agree` is that statement for all of them.

* `RulesAgree C limit depth rules rules'`: the rules of two levels agree.
* `LevelsAgree C limit depth below below'`: so do those of the levels below, where there are any.  The first run
  may be without one, if it is compared with a run that has more room.

The non-trivial ingredient is `RulesAgree.more`.  A chain is read from the left, with the tree of its part up to
here in hand, so the statement about the rest of a chain is made for every derivation of that part.

A rule that fails has taken off tokens that are the start of a phrase.  Where the room is used up, these can be
continued without the level that is missing, or with it under a higher limit: that is what `C.spare` is for.
-/

namespace SmallScript.Grammar

open SmallScript.Grammar.Parser
open Renumber (renumber)

/-! ## Phrases -/

section Phrases

variable {limit depth : Nat}

theorem Listed.arguments {xs : List Node} {ts : List Lexeme}
    (listed : Listed (fun x => Derives limit depth (.expression x)) xs ts) :
    Derives limit depth (.arguments xs) ts := by
  induction listed with
  | last first => exact .lastArgument first
  | next first _ ih => exact .nextArgument first ih

theorem parameters_of_names {ns : List String} {ts : List Lexeme}
    (names : ns = [] ∧ ts = [] ∨ Listed IsName ns ts) (c : Nat) :
    Parameters ns (ts ++ [⟨.symbol .closeParen, c⟩]) := by
  rcases names with ⟨rfl, rfl⟩ | names
  · exact .none
  · exact .some names

theorem Derives.strays {xs : List Node} {ss ts : List Lexeme}
    (semicolons : ∀ t ∈ ss, t.token = .symbol .semicolon)
    (rest : Derives limit depth (.statements xs) ts) :
    Derives limit depth (.statements xs) (ss ++ ts) := by
  induction ss with
  | nil => exact rest
  | cons t ss ih =>
    obtain ⟨token, line⟩ := t
    obtain rfl : token = .symbol .semicolon := semicolons _ (List.mem_cons_self ..)
    exact .stray (ih fun t member => semicolons t (List.mem_cons_of_mem _ member))

/-- A variable is the shortest expression. -/
theorem viable_expression (limit depth : Nat) : Viable (fun x => Derives limit depth (.expression x)) [] :=
  ⟨_, _, .loosest (.single (Derives.operand_of_unary (.plain (.name (n := "x") (l := 0))) .logic))⟩

theorem viable_block (room : depth < limit) : Viable (fun x => Derives limit depth (.block x)) [] :=
  ⟨_, [⟨.symbol .openBrace, 0⟩, ⟨.symbol .closeBrace, 0⟩], .block room .nothing⟩

theorem Joins.announcesParen_eq {tier : Tier} {s : Symbol} {build : Node → Node → Nat → Node}
    (joins : Joins tier s build) : announcesParen (.symbol s) = false := by
  cases joins with
  | logic op => cases op <;> rfl
  | comparison op => cases op <;> rfl
  | add | sub | mul | div => rfl

theorem build?_renumber {tier : Tier} {s : Symbol} {build : Node → Node → Nat → Node}
    (found : tier.build? s = some build) (lines : Nat → Nat) (left right : Node) (line : Nat) :
    (build left right line).renumber lines =
      build (left.renumber lines) (right.renumber lines) (lines line) := by
  cases joins_iff.mpr found <;> rfl

end Phrases

variable {lines : Nat → Nat} {C : Comparison lines} {before tokens : List Lexeme}

/-! ## Lists -/

section Lists

variable {α : Type} {isItem : α → List Lexeme → Prop}

/-- Items with commas between them, up to the parenthesis that closes the list. -/
def ClosedList (isItem : α → List Lexeme → Prop) (xs : List α) (used : List Lexeme) : Prop :=
  ∃ ts c, used = ts ++ [⟨.symbol .closeParen, c⟩] ∧ Listed isItem xs ts

/-- The same for a list that may be empty. -/
def MaybeList (isItem : α → List Lexeme → Prop) (xs : List α) (used : List Lexeme) : Prop :=
  ∃ ts c, used = ts ++ [⟨.symbol .closeParen, c⟩] ∧ (xs = [] ∧ ts = [] ∨ Listed isItem xs ts)

variable [Renumber α] {item item' : Parser α}
  (agree : ∀ {before tokens}, Free before → Agrees C before tokens item item' isItem isItem)
  (progress : ∀ x ts, isItem x ts → ts ≠ []) (free : Free before)

include agree progress free

theorem agrees_items {rounds : Nat} (enough : tokens.length < rounds) :
    Agrees C before tokens (items item .closeParen rounds) (items item' .closeParen rounds) (ClosedList isItem)
      (ClosedList isItem) := by
  induction rounds generalizing before tokens with
  | zero => omega
  | succ rounds ih =>
    -- a list can be closed behind every item
    have close {x : α} {used : List Lexeme} (content : isItem x used) : Viable (ClosedList isItem) used :=
      ⟨[x], [⟨.symbol .closeParen, 0⟩], used, 0, rfl, .last content⟩
    refine ((agree free).toward fun _ _ _ => close).bind ?_
    rintro x used rest rfl content
    have behind : C.spare → Viable (fun ys us => ClosedList isItem ys (used ++ us)) [] := by
      obtain ⟨xs, more, closed⟩ := close content
      exact fun _ => ⟨xs, more, closed⟩
    refine .peekSymbol rfl (.refuse behind) ?_
    rintro s l us rfl
    cases s with
    | comma =>
      -- the item and the comma have been taken off
      have shorter : us.length < rounds := by
        have := List.length_pos_iff.mpr (progress x used content)
        simp only [List.length_append, List.length_cons] at enough
        omega
      have longer (xs : List α) (vs : List Lexeme) (closed : ClosedList isItem xs vs) :
          ClosedList isItem (x :: xs) (used ++ ⟨.symbol .comma, l⟩ :: vs) := by
        obtain ⟨ts, c, rfl, listed⟩ := closed
        exact ⟨used ++ ⟨.symbol .comma, l⟩ :: ts, c, by simp, .next content listed⟩
      refine .skip nofun (.map (ih (free_concat.mpr rfl) shorter) (fun _ => rfl) longer ?_)
      exact fun _ xs vs closed => .of_phrase (longer xs vs closed)
    | closeParen => exact .skip nofun (.pure rfl ⟨used, l, rfl, .last content⟩)
    | _ => exact .refuse behind

theorem agrees_commaSeparated (advances' : Advances item') :
    Agrees C before tokens (commaSeparated item .closeParen) (commaSeparated item' .closeParen) (MaybeList isItem)
      (MaybeList isItem) := by
  have advances : Advances item := advances_of_reads (fun _ => (agree free_nil).reads) progress
  have loop : Agrees C before tokens (upTo (items item .closeParen)) (upTo (items item' .closeParen))
      (MaybeList isItem) (MaybeList isItem) := by
    refine .upTo (enough_items advances _) (enough_items advances' _) fun rounds enough => ?_
    refine (agrees_items agree progress free enough).weaken ?_
    rintro xs used ⟨ts, c, rfl, listed⟩
    exact ⟨ts, c, rfl, .inr listed⟩
  refine .peekSymbol rfl loop ?_
  rintro s l us rfl
  cases s with
  | closeParen => exact .skip nofun (.pure rfl ⟨[], l, rfl, .inl ⟨rfl, rfl⟩⟩)
  | _ => exact loop

end Lists

theorem agrees_identifier : Agrees C before tokens identifier identifier IsName IsName := by
  have viable : C.spare → Viable IsName [] := fun _ => ⟨"x", [⟨.name "x", 0⟩], 0, rfl⟩
  refine .peek (fun _ _ _ => rfl) (fun _ => .refuse viable) ?_
  rintro token l us rfl
  cases token with
  | name n => exact .skip nofun (.pure rfl ⟨l, rfl⟩)
  | _ => exact .refuse viable

def IsPrompt (p : String) (used : List Lexeme) : Prop :=
  (∃ t, used = [⟨.text p, t⟩]) ∨ p = "" ∧ used = []

theorem agrees_prompt : Agrees C before tokens prompt prompt IsPrompt IsPrompt := by
  have viable : C.spare → Viable IsPrompt [] := fun _ => ⟨"", [], .inr ⟨rfl, rfl⟩⟩
  refine .peek (fun _ _ _ => rfl) (fun _ => .refuse viable) ?_
  rintro token l us rfl
  cases token with
  | text v => exact .skip nofun (.pure rfl (.inl ⟨l, rfl⟩))
  | symbol s =>
    cases s with
    | closeParen => exact .pure rfl (.inr ⟨rfl, rfl⟩)
    | _ => exact .refuse viable
  | _ => exact .refuse viable

/-! ## The rules of a level -/

abbrev AgreeOn (C : Comparison lines) (limit depth : Nat) {α : Type} [Renumber α] (phrase : α → Phrase)
    (before tokens : List Lexeme) (x y : Parser α) : Prop :=
  Agrees C before tokens x y (fun v => Derives limit depth (phrase v)) fun v => Derives limit depth (phrase v)

/-- The rules of two levels agree at a depth of the grammar. -/
structure RulesAgree (C : Comparison lines) (limit depth : Nat) (rules rules' : Rules) : Prop where
  unary : ∀ {before tokens}, Free before → AgreeOn C limit depth .unary before tokens rules.unary rules'.unary
  operand : ∀ tier {before tokens}, Free before →
    AgreeOn C limit depth (.operand tier) before tokens (rules.operand tier) (rules'.operand tier)
  /-- The rest of a chain completes whatever the chain has been up to here. -/
  more : ∀ {tier start n left ts}, start + n = depth → Derives limit start (.chain tier n left) ts →
    ∀ {before tokens}, Agrees C before tokens (rules.more tier left) (rules'.more tier (left.renumber lines))
      (fun x us => ∃ n, Derives limit start (.chain tier n x) (ts ++ us))
      fun x us => ∃ n, Derives limit start (.chain tier n x) (ts ++ us)
  expression : ∀ {before tokens}, Free before →
    AgreeOn C limit depth .expression before tokens rules.expression rules'.expression
  block : ∀ {before tokens}, Agrees C before tokens rules.block rules'.block
    (fun x used => Derives limit depth (.block x) used ∧ Free (before ++ used)) fun x => Derives limit depth (.block x)
  conditional : ∀ line {before tokens}, Agrees C before tokens (rules.conditional line)
    (rules'.conditional (lines line))
    (fun x used => Derives limit depth (.branches line x) used ∧ Free (before ++ used))
    fun x => Derives limit depth (.branches line x)
  /-- Behind a statement that ends with a block an operand may start. -/
  statement : ∀ {before tokens}, Free before → Agrees C before tokens rules.statement rules'.statement
    (fun x used => Derives limit depth (.statement x) used ∧ (x.endsWithBlock = true → Free (before ++ used)))
    fun x => Derives limit depth (.statement x)
  statements : ∀ {before tokens}, Free before →
    AgreeOn C limit depth .statements before tokens rules.statements rules'.statements
  advances' : Advances rules'.expression

/-- The rules of the levels below agree.  Only the first run may be without one. -/
inductive LevelsAgree (C : Comparison lines) (limit depth : Nat) : Option Rules → Option Rules → Prop where
  | none (bare : ¬ C.cuts) (room : C.spare → depth < limit) : LevelsAgree C limit depth none none
  | cut {rules} (cuts : C.cuts) (room : depth < limit)
      (agree : RulesAgree (.idle lines False False False.elim) limit (depth + 1) rules rules) :
      LevelsAgree C limit depth none (some rules)
  | some {rules rules'} (room : depth < limit) (agree : RulesAgree C limit (depth + 1) rules rules') :
      LevelsAgree C limit depth (some rules) (some rules')

theorem RulesAgree.idle {limit depth : Nat} {rules rules' : Rules} (agree : RulesAgree C limit depth rules rules') :
    RulesAgree (.idle lines C.spare C.cuts C.plain) limit depth rules rules' where
  unary free := (agree.unary free).idle
  operand tier _ _ free := (agree.operand tier free).idle
  more reached chain _ _ := (agree.more reached chain).idle
  expression free := (agree.expression free).idle
  block := agree.block.idle
  conditional line _ _ := (agree.conditional line).idle
  statement free := (agree.statement free).idle
  statements free := (agree.statements free).idle
  advances' := agree.advances'

namespace LevelsAgree

variable {limit depth : Nat} {below below' : Option Rules} (level : LevelsAgree C limit depth below below')

include level

theorem room_of_spare (spare : C.spare) : depth < limit := by
  cases level with
  | none _ room => exact room spare
  | cut _ room _ | some room _ => exact room

theorem idle : LevelsAgree (.idle lines C.spare C.cuts C.plain) limit depth below below' := by
  cases level with
  | none bare room => exact .none bare room
  | cut cuts room agree => exact .cut cuts room agree
  | some room agree => exact .some room agree.idle

/-- A level that is opened in front of the symbol that opens it, which is then taken off. -/
theorem opening {α γ : Type} [Renumber α] {content content' : Rules → Parser α} {s : Symbol} {l : Nat}
    {phrase : α → List Lexeme → Prop} {aim : γ → List Lexeme → Prop} (opens : OpensLevel before (.symbol s))
    (other : C.blind → s ≠ .elifWord) (viable : C.spare → Viable aim [])
    (inside : ∀ (C : Comparison lines) {rules rules' : Rules}, depth < limit →
      RulesAgree C limit (depth + 1) rules rules' →
      Agrees C (before ++ [⟨.symbol s, l⟩]) tokens (content rules) (content' rules')
        (fun v vs => phrase v (⟨.symbol s, l⟩ :: vs)) fun z vs => aim z (⟨.symbol s, l⟩ :: vs)) :
    Agrees C before (⟨.symbol s, l⟩ :: tokens) (within below fun rules => skip >>= fun _ => content rules)
      (within below' fun rules => skip >>= fun _ => content' rules) phrase aim := by
  cases level with
  | none bare room => exact .tooDeep bare viable
  | some room agree => exact .skip (fun blind => by simpa using other blind) (inside C room agree)
  | @cut rules cuts room agree =>
    have onward := inside _ room agree
    have second : Agrees (.idle lines False False False.elim) before (⟨.symbol s, l⟩ :: tokens)
        (skip >>= fun _ => content rules) (skip >>= fun _ => content' rules) phrase aim :=
      .skip False.elim onward
    exact second.cut viable (C.opening cuts opens (onward.trims' (C.plain cuts)))

end LevelsAgree

section Level

variable {limit depth : Nat} {below below' : Option Rules} (level : LevelsAgree C limit depth below below')

include level

theorem agrees_named (free : Free before) (n : String) (l : Nat) :
    Agrees C (before ++ [⟨.name n, l⟩]) tokens (named below n l) (named below' n (lines l))
      (fun x us => Derives limit depth (.primary x) (⟨.name n, l⟩ :: us))
      fun x us => Derives limit depth (.primary x) (⟨.name n, l⟩ :: us) := by
  refine .peekSymbol rfl (.pure rfl .name) ?_
  rintro s o us rfl
  cases s with
  | openParen =>
    -- without the call, the name is a variable
    refine level.opening (.paren (free.awaitsHeader_name n l)) nofun (fun _ => ⟨_, [], .name⟩)
      fun C' _ _ room agree => ?_
    have called (xs : List Node) (used : List Lexeme)
        (list : MaybeList (fun x => Derives limit (depth + 1) (.expression x)) xs used) :
        Derives limit depth (.primary (.call n xs l)) (⟨.name n, l⟩ :: ⟨.symbol .openParen, o⟩ :: used) := by
      obtain ⟨ts, c, rfl, ⟨rfl, rfl⟩ | listed⟩ := list
      · exact .callBare room
      · exact .call room listed.arguments
    refine .map (agrees_commaSeparated agree.expression (fun _ _ content => (content.ofExpression rfl).ne_nil)
      (free_concat.mpr rfl) agree.advances') (fun xs => ?_) called fun _ xs ts list => .of_phrase (called xs ts list)
    simp [renumber, Node.renumber]
  | _ => exact .pure rfl .name

theorem agrees_primary (free : Free before) :
    AgreeOn C limit depth .primary before tokens (primary below) (primary below') := by
  have viable : C.spare → Viable (fun x => Derives limit depth (.primary x)) [] := fun _ => ⟨_, [⟨.name "x", 0⟩], .name⟩
  refine .peek (fun _ _ _ => rfl) (fun _ => .refuse viable) ?_
  rintro token l us rfl
  cases token with
  | number v => exact .skip nofun (.pure rfl .number)
  | truth v => exact .skip nofun (.pure rfl .truth)
  | text v => exact .skip nofun (.pure rfl .text)
  | endOfInput => exact .refuse viable
  | name n => exact .skip nofun (agrees_named level free n l)
  | symbol s =>
    cases s with
    | openParen =>
      refine level.opening (.paren free.awaitsHeader_eq) nofun viable fun C' _ _ room agree => ?_
      -- inside the parentheses every expression can be followed by the one that closes them
      have close {x : Node} {ts : List Lexeme} (content : Derives limit (depth + 1) (.expression x) ts) :
          Viable (fun x us => Derives limit depth (.primary x) (⟨.symbol .openParen, l⟩ :: us)) ts :=
        ⟨x, [⟨.symbol .closeParen, 0⟩], .group room content⟩
      refine ((agree.expression (free_concat.mpr rfl)).toward fun _ _ _ => close).bind ?_
      rintro x ts rest - content
      exact .expect (by decide) (fun _ => ⟨x, _, .group (c := 0) room content⟩) fun c us' _ =>
        .pure rfl (.group room content)
    | inputWord =>
      have bare : C.spare → Viable (fun x us => Derives limit depth (.primary x) (⟨.symbol .inputWord, l⟩ :: us)) [] :=
        fun _ => ⟨_, [⟨.symbol .openParen, 0⟩, ⟨.symbol .closeParen, 0⟩], .inputBare⟩
      refine .skip nofun (.expect (by decide) bare ?_)
      rintro o us' -
      have close {p : String} {ts : List Lexeme} (text : IsPrompt p ts) (c : Nat) :
          Derives limit depth (.primary (.input p l))
            (⟨.symbol .inputWord, l⟩ :: ⟨.symbol .openParen, o⟩ :: (ts ++ [⟨.symbol .closeParen, c⟩])) := by
        obtain ⟨t, rfl⟩ | ⟨rfl, rfl⟩ := text
        · exact .input
        · exact .inputBare
      refine (agrees_prompt.toward fun _ p ts text => ⟨_, _, close text 0⟩).bind ?_
      rintro p ts rest - text
      exact .expect (by decide) (fun _ => ⟨_, _, close text 0⟩) fun c us'' _ => .pure rfl (close text c)
    | _ => exact .refuse viable

theorem agrees_unary (free : Free before) :
    AgreeOn C limit depth .unary before tokens (unary below) (unary below') := by
  have plain : AgreeOn C limit depth .unary before tokens (primary below) (primary below') :=
    (agrees_primary level free).weaken fun _ _ content => .plain content
  refine .peek (fun _ _ _ => rfl) (fun _ => plain) ?_
  rintro token l us rfl
  cases token with
  | symbol s =>
    dsimp only
    cases found : UnaryOp.ofSymbol? s with
    | none => exact plain
    | some op =>
      obtain rfl := UnaryOp.ofSymbol?_eq_some_iff.mp found
      refine level.opening (.prefixed op) (fun _ => by cases op <;> nofun)
        (fun _ => ⟨_, [⟨.name "x", 0⟩], .plain .name⟩) fun C' _ _ room agree => ?_
      have operand : Free (before ++ [⟨.symbol op.symbol, l⟩]) := free_concat.mpr (by cases op <;> rfl)
      exact .map (agree.unary operand) (fun _ => rfl) (fun _ _ content => .prefixed op room content)
        fun _ _ _ content => .of_phrase (.prefixed op room content)
  | _ => exact plain

theorem agrees_more {tier : Tier} {start n : Nat} {left : Node} {ts : List Lexeme} (reached : start + n = depth)
    (chain : Derives limit start (.chain tier n left) ts) :
    Agrees C before tokens (more below tier left) (more below' tier (left.renumber lines))
      (fun x us => ∃ n, Derives limit start (.chain tier n x) (ts ++ us))
      fun x us => ∃ n, Derives limit start (.chain tier n x) (ts ++ us) := by
  have finished : ∃ n, Derives limit start (.chain tier n left) (ts ++ []) := ⟨n, by simpa using chain⟩
  refine .peek (fun _ _ _ => by cases tier <;> rfl) (fun _ => .pure rfl finished) ?_
  rintro token l us rfl
  cases token with
  | symbol s =>
    dsimp only
    cases found : tier.build? s with
    | none => exact .pure rfl finished
    | some build =>
      have joins := joins_iff.mpr found
      -- the chain may end in front of the operator
      refine level.opening (.joining joins) ?_ (fun _ => ⟨left, [], finished⟩) fun C' _ _ room agree => ?_
      · rintro _ rfl
        cases tier <;> cases found
      · subst reached
        have longer {right : Node} {us : List Lexeme} (last : Derives limit (start + n + 1) (.operand tier right) us) :=
          Derives.joined (l := l) room chain joins last
        refine ((agree.operand tier (free_concat.mpr joins.announcesParen_eq)).toward fun _ right us last =>
          .of_phrase ⟨n + 1, longer last⟩).bind ?_
        rintro right us rest - last
        -- the level below goes on with the longer chain, which still starts where this one did
        have same : build (left.renumber lines) (renumber lines right) (lines l) =
            (build left right l).renumber lines :=
          (build?_renumber found lines left right l).symm
        rw [same]
        refine (agree.more (Nat.add_assoc start n 1).symm (longer last)).weaken ?_
        rintro x used ⟨n', complete⟩
        exact ⟨n', by simpa using complete⟩
  | _ => exact .pure rfl finished

/-- Chains start with an operand, which is a chain without operators. -/
theorem agrees_chain {tier : Tier} {x y : Parser Node}
    (operand : AgreeOn C limit depth (.operand tier) before tokens x y) :
    Agrees C before tokens (x >>= fun v => more below tier v) (y >>= fun v => more below' tier v)
      (fun x us => ∃ n, Derives limit depth (.chain tier n x) us)
      fun x us => ∃ n, Derives limit depth (.chain tier n x) us := by
  refine (operand.toward fun _ _ _ first => .of_phrase ⟨0, .single first⟩).bind ?_
  rintro x ts rest - first
  exact agrees_more level rfl (.single first)

theorem agrees_operand (tier : Tier) (free : Free before) :
    AgreeOn C limit depth (.operand tier) before tokens ((rulesOver below).operand tier)
      ((rulesOver below').operand tier) := by
  have tighten (tier : Tier) {tier' : Tier} {x y : Parser Node} (tighter : tier.tighter? = some tier')
      (operand : AgreeOn C limit depth (.operand tier') before tokens x y) :
      AgreeOn C limit depth (.operand tier) before tokens (x >>= fun v => more below tier' v)
        (y >>= fun v => more below' tier' v) := by
    refine (agrees_chain level operand).weaken ?_
    rintro x used ⟨n, content⟩
    exact .tighter tighter content
  -- from tight to loose: an operand is a chain of the next tighter kind
  have multiplicative : AgreeOn C limit depth (.operand .multiplicative) before tokens (unary below) (unary below') :=
    (agrees_unary level free).weaken fun _ _ content => .tightest rfl content
  have additive := tighten .additive rfl multiplicative
  have comparison := tighten .comparison rfl additive
  have logic := tighten .logic rfl comparison
  cases tier with
  | logic => exact logic
  | comparison => exact comparison
  | additive => exact additive
  | multiplicative => exact multiplicative

theorem agrees_expression (free : Free before) :
    AgreeOn C limit depth .expression before tokens (expression below) (expression below') := by
  refine Agrees.weaken (agrees_chain level (agrees_operand level .logic free)) ?_
  rintro x used ⟨n, content⟩
  exact .loosest content

/-- What follows the first operand of a chain is behind it. -/
theorem leftover_chain {tier : Tier} {x y : Parser Node}
    (operand : AgreeOn C limit depth (.operand tier) before tokens x y) :
    leftover (x >>= fun v => more below tier v) tokens <:+ leftover x tokens := by
  refine leftover_bind_suffix fun v rest read => ?_
  obtain ⟨used, _, first⟩ := operand.reads v rest read
  exact (agrees_more level rfl (.single first) : Agrees C [] rest _ _ _ _).trims

/-- An expression that starts with a name takes it off, whatever comes of it. -/
theorem leftover_expression_name (n : String) (l : Nat) :
    leftover (expression below) (⟨.name n, l⟩ :: tokens) <:+ tokens := by
  have tail (tier : Tier) : leftover ((rulesOver below).operand tier >>= fun v => more below tier v)
      (⟨.name n, l⟩ :: tokens) <:+ leftover ((rulesOver below).operand tier) (⟨.name n, l⟩ :: tokens) :=
    leftover_chain level (agrees_operand level tier free_nil)
  have first : leftover (unary below) (⟨.name n, l⟩ :: tokens) <:+ tokens := (agrees_named level free_nil n l).trims
  exact (tail .logic).trans ((tail .comparison).trans ((tail .additive).trans ((tail .multiplicative).trans first)))

theorem agrees_block :
    Agrees C before tokens (block below) (block below')
      (fun x used => Derives limit depth (.block x) used ∧ Free (before ++ used))
      fun x => Derives limit depth (.block x) := by
  have close {xs : List Node} {o : Nat} {ts : List Lexeme} (room : depth < limit)
      (content : Derives limit (depth + 1) (.statements xs) ts) :
      Viable (fun x us => Derives limit depth (.block x) (⟨.symbol .openBrace, o⟩ :: us)) ts :=
    ⟨_, [⟨.symbol .closeBrace, 0⟩], .block room content⟩
  -- for every comparison: where the level is cut, what follows the brace is still read, by one side alone
  have inside (C : Comparison lines) {rules rules' : Rules} (o : Nat) {us : List Lexeme} (room : depth < limit)
      (agree : RulesAgree C limit (depth + 1) rules rules') :
      Agrees C (before ++ [⟨.symbol .openBrace, o⟩]) us
        (do let body ← rules.statements; expect .closeBrace; return Node.ofStatements body)
        (do let body ← rules'.statements; expect .closeBrace; return Node.ofStatements body)
        (fun x us => Derives limit depth (.block x) (⟨.symbol .openBrace, o⟩ :: us) ∧
          Free (before ++ ⟨.symbol .openBrace, o⟩ :: us))
        fun x us => Derives limit depth (.block x) (⟨.symbol .openBrace, o⟩ :: us) := by
    refine ((agree.statements (free_concat.mpr rfl)).toward fun _ _ _ => close room).bind ?_
    rintro xs ts rest - content
    refine .expect (by decide) (fun _ => ⟨_, _, .block (c := 0) room content⟩) fun c us' _ => ?_
    exact .pure (Node.ofStatements_renumber lines xs).symm ⟨.block room content, free_behind.mpr rfl⟩
  cases level with
  | none bare room => exact .tooDeep bare fun spare => viable_block (room spare)
  | some room agree => exact .expect (by decide) (fun _ => viable_block room) fun o us _ => inside C o room agree
  | @cut rules cuts room agree =>
    have second : Agrees (.idle lines False False False.elim) before tokens (block (some rules)) (block (some rules))
        (fun x used => Derives limit depth (.block x) used ∧ Free (before ++ used))
        fun x => Derives limit depth (.block x) :=
      .expect (by decide) (fun _ => viable_block room) fun o us _ => inside _ o room agree
    exact second.cut (fun _ => viable_block room)
      (C.brace cuts fun {o _} _ => (inside _ o room agree).trims' (C.plain cuts))

/-- A conditional that goes on, at the word in front of its condition. -/
theorem agrees_continued {s : Symbol} {l : Nat} {aim : Option Node → List Lexeme → Prop}
    (opens : OpensLevel before (.symbol s)) (other : C.blind → s ≠ .elifWord) (viable : C.spare → Viable aim [])
    (content : ∀ {x ts}, depth < limit → Derives limit (depth + 1) (.branches l x) ts →
      aim (some x) (⟨.symbol s, l⟩ :: ts)) :
    Agrees C before (⟨.symbol s, l⟩ :: tokens) (continued below l) (continued below' (lines l))
      (fun e used => aim e used ∧ Free (before ++ used)) aim := by
  refine level.opening opens other viable fun C' _ _ room agree => ?_
  refine .map (agree.conditional l) (fun _ => rfl) ?_ fun _ _ _ branches => .of_phrase (content room branches)
  rintro x ts ⟨branches, free⟩
  exact ⟨content room branches, by simpa using free⟩

/-- What follows a block, if an `elif` is there in this form. -/
theorem agrees_alternative_of_sees (free : Free before) (sees : C.blind → symbol? tokens ≠ some .elifWord) :
    Agrees C before tokens (alternative below) (alternative below')
      (fun e used => Derives limit depth (.alternative e) used ∧ Free (before ++ used))
      fun e => Derives limit depth (.alternative e) := by
  have nothing : Derives limit depth (.alternative none) [] ∧ Free (before ++ []) :=
    ⟨.noAlternative, by simpa using free⟩
  refine .peek (fun blind l first => ?_) (fun _ => .pure rfl nothing) ?_
  · obtain ⟨us, rfl⟩ := List.head?_eq_some_iff.mp first
    exact absurd rfl (sees blind)
  rintro token l us rfl
  cases token with
  | symbol s =>
    cases s with
    | elifWord =>
      exact agrees_continued level .elif (fun blind => absurd rfl (sees blind)) (fun _ => ⟨_, [], .noAlternative⟩)
        fun room branches => .elif room branches
    | elseWord =>
      have otherwise : Agrees C (before ++ [⟨.symbol .elseWord, l⟩]) us (do return some (← block below))
          (do return some (← block below'))
          (fun e us => Derives limit depth (.alternative e) (⟨.symbol .elseWord, l⟩ :: us) ∧
            Free (before ++ ⟨.symbol .elseWord, l⟩ :: us))
          fun e us => Derives limit depth (.alternative e) (⟨.symbol .elseWord, l⟩ :: us) := by
        refine .map (agrees_block level) (fun _ => rfl) ?_ fun _ _ _ body => .of_phrase (.otherwise body)
        rintro b ts ⟨body, free⟩
        exact ⟨.otherwise body, by simpa using free⟩
      refine .skip nofun (.peek (fun _ _ _ => rfl) (fun _ => otherwise) ?_)
      rintro token l' us' rfl
      cases token with
      | symbol s =>
        cases s with
        | ifWord =>
          -- without the level of `else if`, a block may follow
          have viable (spare : C.spare) :
              Viable (fun e us => Derives limit depth (.alternative e) (⟨.symbol .elseWord, l⟩ :: us)) [] := by
            obtain ⟨b, more, body⟩ := viable_block (level.room_of_spare spare)
            exact ⟨_, more, .otherwise body⟩
          refine (agrees_continued level (.elseIf (by simp [symbol?])) nofun viable fun room => .elseIf room).imp ?_
          rintro e ts ⟨content, free⟩
          exact ⟨content, by simpa using free⟩
        | _ => exact otherwise
      | _ => exact otherwise
    | _ => exact .pure rfl nothing
  | _ => exact .pure rfl nothing

theorem agrees_alternative (free : Free before) :
    Agrees C before tokens (alternative below) (alternative below')
      (fun e used => Derives limit depth (.alternative e) used ∧ Free (before ++ used))
      fun e => Derives limit depth (.alternative e) := by
  by_cases sees : C.blind → symbol? tokens ≠ some .elifWord
  · exact agrees_alternative_of_sees level free sees
  -- what is read does not hang on the spelling, and the comparison has a clause of its own
  obtain ⟨blind, here⟩ := Classical.not_imp.mp sees
  obtain ⟨l, us, rfl⟩ := exists_of_symbol?_eq_some (Classical.not_not.mp here)
  have seen : Agrees _ before (⟨.symbol .elifWord, l⟩ :: us) _ _ _ _ := agrees_alternative_of_sees level.idle free nofun
  refine ⟨seen.reads, seen.fails, seen.reads', seen.trims', C.elif blind ?_⟩
  rintro rules ⟨⟩
  cases level with
  | some room agree => exact ⟨_, (agree.conditional l).holds⟩

def Parenthesized (limit depth : Nat) (x : Node) (used : List Lexeme) : Prop :=
  ∃ o ts c, used = ⟨.symbol .openParen, o⟩ :: (ts ++ [⟨.symbol .closeParen, c⟩]) ∧
    Derives limit depth (.expression x) ts

theorem agrees_condition :
    Agrees C before tokens (condition below) (condition below') (Parenthesized limit depth)
      (Parenthesized limit depth) := by
  have close {x : Node} {o : Nat} {ts : List Lexeme} (content : Derives limit depth (.expression x) ts) :
      Viable (fun x us => Parenthesized limit depth x (⟨.symbol .openParen, o⟩ :: us)) ts :=
    ⟨x, [⟨.symbol .closeParen, 0⟩], o, ts, 0, rfl, content⟩
  refine .expect (by decide) (fun _ => ?_) fun o us _ => ?_
  · obtain ⟨x, more, content⟩ := viable_expression limit depth
    obtain ⟨y, more', closed⟩ := close (o := 0) content
    exact ⟨y, _, closed⟩
  refine ((agrees_expression level (free_concat.mpr rfl)).toward fun _ _ _ => close).bind ?_
  rintro x ts rest - content
  refine .expect (by decide) (fun _ => ?_) fun c us' _ => .pure rfl ⟨o, ts, c, rfl, content⟩
  exact ⟨x, [⟨.symbol .closeParen, 0⟩], o, ts, 0, rfl, content⟩

theorem agrees_conditional (line : Nat) :
    Agrees C before tokens (conditional below line) (conditional below' (lines line))
      (fun x used => Derives limit depth (.branches line x) used ∧ Free (before ++ used))
      fun x => Derives limit depth (.branches line x) := by
  have whole {x b : Node} {e : Option Node} {rs us vs : List Lexeme} (test : Parenthesized limit depth x rs)
      (body : Derives limit depth (.block b) us) (rest : Derives limit depth (.alternative e) vs) :
      Derives limit depth (.branches line (.conditional x b e line)) (rs ++ (us ++ vs)) := by
    obtain ⟨o, ts, c, rfl, content⟩ := test
    simpa using Derives.branches content body rest
  refine ((agrees_condition level).toward fun spare x rs test => ?_).bind ?_
  · obtain ⟨b, more, body⟩ := viable_block (level.room_of_spare spare)
    exact ⟨_, more ++ [], whole test body .noAlternative⟩
  rintro x rs rest - test
  refine ((agrees_block level).toward fun _ b us body => ⟨_, [], whole test body .noAlternative⟩).bind ?_
  rintro b us rest' - ⟨body, free⟩
  refine .map (agrees_alternative level free) (fun e => by simp [renumber, Node.renumber]) ?_ ?_
  · rintro e vs ⟨alternative, free⟩
    exact ⟨whole test body alternative, by simpa using free⟩
  · exact fun _ e vs alternative => .of_phrase (whole test body alternative)

/-- An assignment, behind the name of its target. -/
theorem agrees_assigned (n : String) (m l : Nat) :
    Agrees C (before ++ [⟨.name n, m⟩]) (⟨.symbol .assign, l⟩ :: tokens)
      (do skip; let value ← expression below; return Node.binary (.name n m) .assign value l)
      (do skip; let value ← expression below'; return Node.binary (.name n (lines m)) .assign value (lines l))
      (fun x us => Derives limit depth (.statement x) (⟨.name n, m⟩ :: us) ∧ x.endsWithBlock = false)
      fun x us => Derives limit depth (.statement x) (⟨.name n, m⟩ :: us) := by
  refine .skip nofun (.map (agrees_expression level (free_concat.mpr rfl)) (fun _ => rfl) ?_ ?_)
  · exact fun x ts content => ⟨.assignment content, rfl⟩
  · exact fun _ x ts content => .of_phrase (.assignment content)

/-- What is read as an assignment or an expression does not end with a block. -/
theorem agrees_simple (free : Free before) :
    Agrees C before tokens (simple below) (simple below')
      (fun x used => Derives limit depth (.statement x) used ∧ x.endsWithBlock = false)
      fun x => Derives limit depth (.statement x) := by
  -- the target is looked for in all tokens at once, so this is shown for the tokens that are there
  have here : Agrees C before tokens (simpleAt below (target? tokens))
      (simpleAt below' (renumber lines (target? tokens)))
      (fun x used => Derives limit depth (.statement x) used ∧ x.endsWithBlock = false)
      fun x => Derives limit depth (.statement x) := by
    cases found : target? tokens with
    | none =>
      refine ((agrees_expression level free).imp fun x used content => ?_).toward fun _ _ _ content =>
        .of_phrase (.evaluation content)
      exact ⟨.evaluation content, content.endsWithBlock_expression rfl⟩
    | some target =>
      obtain ⟨us, rfl⟩ := target?_eq_some found
      exact .skip nofun (agrees_assigned level ..)
  -- at a name the rule is compared by what it does behind it
  have taken {n : String} {l : Nat} {us : List Lexeme} (split : tokens = ⟨.name n, l⟩ :: us) :
      leftover (simpleAt below (target? tokens)) tokens <:+ us := by
    subst split
    cases found : target? (⟨.name n, l⟩ :: us) with
    | none => exact leftover_expression_name level n l
    | some target =>
      obtain ⟨us, ⟨⟩⟩ := target?_eq_some found
      exact (agrees_assigned level .. : Agrees C (before ++ [_]) _ _ _ _ _).trims
  exact ⟨here.reads, here.fails, fun plain => (here.second_of_plain plain).1,
    fun plain => (here.second_of_plain plain).2, C.target here.trims taken here.holds⟩

/-- A loop, behind its word. -/
theorem agrees_loop (l : Nat) :
    Agrees C (before ++ [⟨.symbol .whileWord, l⟩]) tokens
      (do let test ← condition below; let body ← block below; return Node.loop test body l)
      (do let test ← condition below'; let body ← block below'; return Node.loop test body (lines l))
      (fun x us => Derives limit depth (.statement x) (⟨.symbol .whileWord, l⟩ :: us) ∧
        (x.endsWithBlock = true → Free (before ++ ⟨.symbol .whileWord, l⟩ :: us)))
      fun x us => Derives limit depth (.statement x) (⟨.symbol .whileWord, l⟩ :: us) := by
  have whole {x b : Node} {ts us : List Lexeme} (test : Parenthesized limit depth x ts)
      (body : Derives limit depth (.block b) us) :
      Derives limit depth (.statement (.loop x b l)) (⟨.symbol .whileWord, l⟩ :: (ts ++ us)) := by
    obtain ⟨o, vs, c, rfl, content⟩ := test
    simpa using Derives.loop content body
  refine ((agrees_condition level).toward fun spare x ts test => ?_).bind ?_
  · obtain ⟨b, braces, empty⟩ := viable_block (level.room_of_spare spare)
    exact ⟨_, braces, whole test empty⟩
  rintro x ts rest - test
  refine .map (agrees_block level) (fun _ => rfl) ?_ fun _ b us body => .of_phrase (whole test body)
  rintro b us ⟨body, free⟩
  exact ⟨whole test body, fun _ => by simpa using free⟩

/-- The declaration of a function, behind its word. -/
theorem agrees_declaration (l : Nat) :
    Agrees C (before ++ [⟨.symbol .defWord, l⟩]) tokens
      (do
        let name ← identifier
        expect .openParen
        let params ← commaSeparated identifier .closeParen
        let body ← block below
        return Node.function name params body l)
      (do
        let name ← identifier
        expect .openParen
        let params ← commaSeparated identifier .closeParen
        let body ← block below'
        return Node.function name params body (lines l))
      (fun x us => Derives limit depth (.statement x) (⟨.symbol .defWord, l⟩ :: us) ∧
        (x.endsWithBlock = true → Free (before ++ ⟨.symbol .defWord, l⟩ :: us)))
      fun x us => Derives limit depth (.statement x) (⟨.symbol .defWord, l⟩ :: us) := by
  -- behind its name a function may be one without parameters that does nothing
  have bare (spare : C.spare) (n : String) (m : Nat) :
      Viable (fun x us => Derives limit depth (.statement x) (⟨.symbol .defWord, l⟩ :: ⟨.name n, m⟩ :: us)) [] := by
    obtain ⟨b, braces, empty⟩ := viable_block (level.room_of_spare spare)
    exact ⟨_, ⟨.symbol .openParen, 0⟩ :: ([⟨.symbol .closeParen, 0⟩] ++ braces), .function .none empty⟩
  have nonempty (n : String) (ts : List Lexeme) (name : IsName n ts) : ts ≠ [] := by
    obtain ⟨m, rfl⟩ := name
    exact List.cons_ne_nil _ _
  refine (agrees_identifier.toward ?_).bind ?_
  · rintro spare n _ ⟨m, rfl⟩
    obtain ⟨x, more, content⟩ := bare spare n m
    exact ⟨x, more, content⟩
  rintro n _ rest - ⟨m, rfl⟩
  refine .expect (by decide) (bare · n m) fun o us _ => ?_
  have whole {ns : List String} {b : Node} {ts us : List Lexeme} (params : MaybeList IsName ns ts)
      (body : Derives limit depth (.block b) us) :
      Derives limit depth (.statement (.function n ns b l))
        (⟨.symbol .defWord, l⟩ :: ⟨.name n, m⟩ :: ⟨.symbol .openParen, o⟩ :: (ts ++ us)) := by
    obtain ⟨vs, c, rfl, names⟩ := params
    exact .function (parameters_of_names names c) body
  refine ((agrees_commaSeparated (fun _ => agrees_identifier) nonempty (free_concat.mpr rfl)
    advances_identifier).toward ?_).bind ?_
  · intro spare ns ts params
    obtain ⟨b, braces, empty⟩ := viable_block (level.room_of_spare spare)
    exact ⟨_, braces, whole params empty⟩
  rintro ns ts rest' - params
  refine .map (agrees_block level) (fun b => ?_) ?_ fun _ b us body => .of_phrase (whole params body)
  · simp [renumber, Node.renumber]
  · rintro b us ⟨body, free⟩
    exact ⟨whole params body, fun _ => by simpa using free⟩

theorem agrees_statement (free : Free before) :
    Agrees C before tokens (statement below) (statement below')
      (fun x used => Derives limit depth (.statement x) used ∧ (x.endsWithBlock = true → Free (before ++ used)))
      fun x => Derives limit depth (.statement x) := by
  -- an expression is the statement that can stand where nothing is there yet
  obtain ⟨y, more, shortest⟩ := viable_expression limit depth
  have simple : Agrees C before tokens (simple below) (simple below')
      (fun x used => Derives limit depth (.statement x) used ∧ (x.endsWithBlock = true → Free (before ++ used)))
      fun x => Derives limit depth (.statement x) := by
    refine (agrees_simple level free).imp ?_
    rintro x used ⟨content, other⟩
    exact ⟨content, fun closed => absurd closed (by simp [other])⟩
  refine .peek (fun _ _ _ => rfl) (fun _ => .refuse fun _ => ⟨y, more, .evaluation shortest⟩) ?_
  rintro token l us rfl
  cases token with
  | symbol s =>
    cases s with
    | printWord =>
      refine .skip nofun (.map (agrees_expression level (free_concat.mpr rfl)) (fun _ => rfl) ?_ ?_)
      · exact fun x ts content => ⟨.print content, nofun⟩
      · exact fun _ x ts content => .of_phrase (.print content)
    | returnWord =>
      refine .skip nofun (.map (agrees_expression level (free_concat.mpr rfl)) (fun _ => rfl) ?_ ?_)
      · exact fun x ts content => ⟨.ret content, nofun⟩
      · exact fun _ x ts content => .of_phrase (.ret content)
    | ifWord =>
      refine .skip nofun (((agrees_conditional level l).imp ?_).toward fun _ _ _ content =>
        .of_phrase (.conditional content))
      rintro x ts ⟨content, free⟩
      exact ⟨.conditional content, fun _ => by simpa using free⟩
    | whileWord => exact .skip nofun (agrees_loop level l)
    | defWord => exact .skip nofun (agrees_declaration level l)
    | _ => exact simple
  | _ => exact simple

end Level

/-! ## Lists of statements -/

section Statements

variable {limit depth : Nat}

/-- Stray semicolons are taken off, and behind them a list ends or goes on as before. -/
theorem agrees_semicolons {γ : Type} {aim : γ → List Lexeme → Prop}
    (place : endsStatements tokens = true ∨ Free before) :
    Agrees C before tokens semicolons semicolons
      (fun _ used => (∀ t ∈ used, t.token = .symbol .semicolon) ∧
        ∀ rest, tokens = used ++ rest → endsStatements rest = true ∨ Free (before ++ used)) aim := by
  have reads : ReadsAt semicolons tokens fun _ used => (∀ t ∈ used, t.token = .symbol .semicolon) ∧
      ∀ rest, tokens = used ++ rest → endsStatements rest = true ∨ Free (before ++ used) := by
    rintro _ _ ⟨⟩
    have strays (t : Lexeme) (member : t ∈ tokens.takeWhile (·.token = .symbol .semicolon)) :
        t.token = .symbol .semicolon := by
      simpa using List.all_eq_true.mp List.all_takeWhile t member
    refine ⟨_, (List.takeWhile_append_dropWhile ..).symm, strays, fun rest split => ?_⟩
    -- behind a semicolon anything may follow
    rcases List.eq_nil_or_concat (tokens.takeWhile (·.token = .symbol .semicolon)) with none | ⟨others, t, some⟩
    · rw [none, List.nil_append] at split
      rw [none, List.append_nil, ← split]
      exact place
    · rw [some, List.concat_eq_append] at strays ⊢
      right
      rw [← List.append_assoc, free_concat, strays t (by simp)]
      rfl
  refine ⟨reads, ?_, fun _ => reads, fun _ => List.dropWhile_suffix _, C.semicolons⟩
  intro fault rest failed
  cases failed

/-- What stands between two statements, or behind the last one. -/
theorem agrees_separator {x : Node} {ts : List Lexeme} (first : Derives limit depth (.statement x) ts) :
    Agrees C before tokens (separator x) (separator (x.renumber lines))
      (fun _ used => (∃ l, used = [⟨.symbol .semicolon, l⟩]) ∨
        used = [] ∧ (endsStatements tokens = true ∨ x.endsWithBlock = true))
      fun xs us => Derives limit depth (.statements xs) (ts ++ us) := by
  -- the statement may be the last one of its list
  have last : C.spare → Viable (fun xs us => Derives limit depth (.statements xs) (ts ++ us)) [] :=
    fun _ => ⟨[x], [], by simpa using .last first⟩
  have unseparated : Agrees C before tokens
      (get >>= fun tokens =>
        if endsStatements tokens || x.endsWithBlock then return () else refuse (.symbol .semicolon))
      (get >>= fun tokens =>
        if endsStatements tokens || x.endsWithBlock then return () else refuse (.symbol .semicolon))
      (fun _ used => (∃ l, used = [⟨.symbol .semicolon, l⟩]) ∨
        used = [] ∧ (endsStatements tokens = true ∨ x.endsWithBlock = true))
      fun xs us => Derives limit depth (.statements xs) (ts ++ us) := by
    refine .get_ite (decidedByHead_endsStatements.or _) (fun _ => rfl) (fun allowed => ?_) fun _ => .refuse last
    exact .pure rfl (.inr ⟨rfl, Bool.or_eq_true .. ▸ allowed⟩)
  unfold separator
  rw [Node.endsWithBlock_renumber]
  refine .peekSymbol rfl unseparated ?_
  rintro s l us rfl
  cases s with
  | semicolon => exact (Agrees.take (t := ⟨.symbol .semicolon, l⟩) nofun).imp fun _ _ taken => .inl ⟨l, taken⟩
  | _ => exact unseparated

theorem agrees_statementsOf {statement statement' : Parser Node}
    (agree : ∀ {before tokens}, Free before → Agrees C before tokens statement statement'
      (fun x used => Derives limit depth (.statement x) used ∧ (x.endsWithBlock = true → Free (before ++ used)))
      fun x => Derives limit depth (.statement x))
    (rounds : Nat) (place : endsStatements tokens = true ∨ Free before) :
    AgreeOn C limit depth .statements before tokens (statementsOf statement rounds)
      (statementsOf statement' rounds) := by
  induction rounds generalizing before tokens with
  | zero => exact .pure rfl .nothing
  | succ rounds ih =>
    refine (agrees_semicolons place).bind ?_
    rintro _ ss rest split ⟨semicolons, place⟩
    refine .get_ite decidedByHead_endsStatements (fun _ => rfl) (fun _ => .pure rfl (.strays semicolons .nothing)) ?_
    intro goesOn
    have free := (place rest split).resolve_left (by simp [goesOn])
    refine ((agree free).toward fun _ x ts first => .of_phrase (.strays semicolons (.last first))).bind ?_
    rintro x ts rest' - ⟨first, closed⟩
    refine ((agrees_separator first).toward fun _ xs us list => .of_phrase (.strays semicolons list)).bind ?_
    rintro _ _ rest'' rfl (⟨l, rfl⟩ | ⟨rfl, ends | block⟩)
    · refine .make (ih (.inr (free_concat.mpr rfl))) (fun _ => rfl) fun xs us list => ?_
      exact .strays semicolons (.separated first list)
    · -- the list ends here, so the rounds that are left read nothing
      rw [List.nil_append] at ends
      refine .make (.nothing (ih (.inl ends)) (statementsOf_of_ends ends rounds) (statementsOf_of_ends ends rounds))
        (fun _ => rfl) ?_
      rintro _ _ ⟨rfl, rfl⟩
      simpa using Derives.strays semicolons (.last first)
    · refine .make (ih (.inr (by simpa using closed block))) (fun _ => rfl) fun xs us list => ?_
      exact .strays semicolons (.adjacent block first list)

end Statements

/-! ## All levels -/

section Level

variable {limit depth : Nat} {below below' : Option Rules} (level : LevelsAgree C limit depth below below')

include level

theorem advances_expression : Advances (expression below) :=
  advances_of_reads (fun _ => (agrees_expression level free_nil).reads) fun _ _ content =>
    (content.ofExpression rfl).ne_nil

theorem advances_statement : Advances (statement below) := by
  refine advances_of_reads (fun _ => (agrees_statement level free_nil).reads) ?_
  rintro x used ⟨content, _⟩
  obtain ⟨first, rest, rfl, _⟩ := content.start_statement
  exact List.cons_ne_nil first rest

theorem rulesOver_agree (expression' : Advances (expression below')) (statement' : Advances (statement below')) :
    RulesAgree C limit depth (rulesOver below) (rulesOver below') where
  unary := agrees_unary level
  operand tier _ _ := agrees_operand level tier
  more reached chain _ _ := agrees_more level reached chain
  expression := agrees_expression level
  block := agrees_block level
  conditional line _ _ := agrees_conditional level line
  statement := agrees_statement level
  statements free := .upTo (enough_statementsOf (advances_statement level)) (enough_statementsOf statement')
    fun rounds _ => agrees_statementsOf (agrees_statement level) rounds (.inr free)
  advances' := expression'

end Level

/-- The rules of the level below the one with so much room. -/
def levelBelow : Nat → Option Rules
  | 0 => none
  | room + 1 => some (rules room)

theorem rules_eq (room : Nat) : rules room = rulesOver (levelBelow room) := by
  cases room <;> rfl

section Rooms

variable (C : Comparison lines) {limit depth room : Nat}

theorem levels_agree_self (same : ¬ C.cuts) (left : depth + room ≤ limit) (spare : C.spare → depth + room < limit) :
    LevelsAgree C limit depth (levelBelow room) (levelBelow room) := by
  induction room generalizing depth with
  | zero => exact .none same spare
  | succ room ih =>
    have level : LevelsAgree C limit (depth + 1) (levelBelow room) (levelBelow room) := by
      refine ih (by omega) fun room => ?_
      have := spare room
      omega
    refine .some (by omega) ?_
    rw [rules_eq]
    exact rulesOver_agree level (advances_expression level) (advances_statement level)

/-- The rules agree with themselves. -/
theorem rules_agree_self (same : ¬ C.cuts) (left : depth + room ≤ limit) (spare : C.spare → depth + room < limit) :
    RulesAgree C limit depth (rules room) (rules room) := by
  have level := levels_agree_self C same left spare
  rw [rules_eq]
  exact rulesOver_agree level (advances_expression level) (advances_statement level)

/-- The rules agree with those that have more room, for comparisons that allow it. -/
theorem rules_agree (cuts : C.cuts) {room' : Nat} (more : room < room') (left : depth + room' ≤ limit) :
    RulesAgree C limit depth (rules room) (rules room') := by
  induction room generalizing depth room' with
  | zero =>
    have second := levels_agree_self (.idle lines False False False.elim) id left False.elim
    obtain ⟨room', rfl⟩ := Nat.exists_eq_add_one_of_ne_zero (Nat.ne_zero_of_lt more)
    refine rulesOver_agree (.cut cuts (by omega) ?_) (advances_expression second) (advances_statement second)
    exact rules_agree_self _ id (by omega) False.elim
  | succ room ih =>
    have second := levels_agree_self (.idle lines False False False.elim) id left False.elim
    obtain ⟨room', rfl⟩ := Nat.exists_eq_add_one_of_ne_zero (Nat.ne_zero_of_lt more)
    have below := ih (Nat.lt_of_succ_lt_succ more) (by omega : depth + 1 + room' ≤ limit)
    exact rulesOver_agree (.some (by omega) below) (advances_expression second) (advances_statement second)

end Rooms

/-! ## Scripts -/

/-- A script is read as a sentence.  What has been read of one that is refused is the start of a list of
    statements. -/
theorem agrees_programWith {limit : Nat} {rules rules' : Rules} (agree : RulesAgree C limit 0 rules rules') :
    Agrees C [] tokens (programWith rules) (programWith rules') (Sentence limit)
      fun xs => Derives limit 0 (.statements xs) := by
  refine Agrees.bind (agree.statements free_nil) ?_
  rintro xs ts rest - list
  have behind : C.spare → Viable (fun xs us => Derives limit 0 (.statements xs) (ts ++ us)) [] :=
    fun _ => ⟨xs, [], by simpa using list⟩
  refine .peek (fun _ _ _ => rfl) (fun _ => .refuse behind) ?_
  rintro token l us rfl
  cases token with
  | endOfInput => exact .skip nofun (.pure rfl ⟨ts, l, rfl, list⟩)
  | _ => exact .refuse behind

end SmallScript.Grammar
