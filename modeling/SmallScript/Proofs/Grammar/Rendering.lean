import SmallScript.Proofs.Grammar.TreeLines

/-! # Reading undoes rendering

An expression can be written down with as few parentheses as the four kinds of chains allow, and what is
written so is read back as the same tree, as long as the nesting limit permits: `expression_render`.

* `Node.render` writes a tree, all of it on one line.  `Node.binding` says which operands need parentheses.
* `Node.deepest` is the deepest level that is opened on the way through the tree.
* `derives_render`: if the limit permits, the tokens of a tree are a phrase of the grammar, so they are read.
* `tooDeep_render`: if it does not, the rules get as far as the first level that is missing.

Both go through the tree by `OneLine`, where a single case covers all operators between two operands, and both
look at an operand in the three places where it can stand: before an operator, behind one and behind a prefix.
-/

namespace SmallScript

open Grammar

/-! ## Rendering -/

namespace Node

/-- The kind of chains that the operator at the root belongs to. -/
def tier? : Node → Option Tier
  | logic .. => some .logic
  | compare .. => some .comparison
  | binary _ .add _ _ | binary _ .sub _ _ => some .additive
  | binary _ .mul _ _ | binary _ .div _ _ => some .multiplicative
  | _ => none

/-- How tightly a tree holds together: chains as their operators bind, and everything else most tightly. -/
def binding (x : Node) : Nat :=
  x.tier?.elim 4 Tier.strength

/-- The operators of a chain that binds so tightly, if the tree is one. -/
def operators (strength : Nat) : Node → Nat
  | binary a op b l => if (binary a op b l).binding = strength then operators strength a + 1 else 0
  | compare a op b l => if (compare a op b l).binding = strength then operators strength a + 1 else 0
  | logic a op b l => if (logic a op b l).binding = strength then operators strength a + 1 else 0
  | _ => 0

/-- Tokens in parentheses, if they need them. -/
def enclosed (n : Nat) (needed : Prop) [Decidable needed] (ts : List Lexeme) : List Lexeme :=
  if needed then ⟨.symbol .openParen, n⟩ :: (ts ++ [⟨.symbol .closeParen, n⟩]) else ts

/-- The depth of what stands at depth `d`, in parentheses if it needs them. -/
def inside (needed : Prop) [Decidable needed] (d : Nat) : Nat :=
  if needed then d + 1 else d

/-- Two operands and the operator between them.  On the left a chain of the same kind is gone on with, and on
    the right it is a chain of its own. -/
def renderInfix (n strength : Nat) (s : Symbol) (a b : Node) (left right : List Lexeme) : List Lexeme :=
  enclosed n (a.binding < strength) left ++
    ⟨.symbol s, n⟩ :: enclosed n (b.binding ≤ strength) right

/-- The deepest level in two operands.  The right one is as deep as the operator before it, which is counted
    from the beginning of the chain. -/
def deepestInfix (strength : Nat) (a b : Node) (left right : Nat → Nat) (d : Nat) : Nat :=
  max (left (inside (a.binding < strength) d))
    (right (inside (b.binding ≤ strength) (d + a.operators strength + 1)))

mutual

/-- An expression on line `n`, with parentheses only where they are needed. -/
def render (n : Nat) : Node → List Lexeme
  | number v _ => [⟨.number v, n⟩]
  | truth v _ => [⟨.truth v, n⟩]
  | text v _ => [⟨.text v, n⟩]
  | name v _ => [⟨.name v, n⟩]
  | input p _ =>
    [⟨.symbol .inputWord, n⟩, ⟨.symbol .openParen, n⟩, ⟨.text p, n⟩, ⟨.symbol .closeParen, n⟩]
  | unary op x _ => ⟨.symbol op.symbol, n⟩ :: enclosed n (x.binding < 4) (render n x)
  | binary a op b l => renderInfix n (binary a op b l).binding op.symbol a b (render n a) (render n b)
  | compare a op b l => renderInfix n (compare a op b l).binding op.symbol a b (render n a) (render n b)
  | logic a op b l => renderInfix n (logic a op b l).binding op.symbol a b (render n a) (render n b)
  | call f xs _ =>
    ⟨.name f, n⟩ :: ⟨.symbol .openParen, n⟩ :: (renderList n xs ++ [⟨.symbol .closeParen, n⟩])
  | _ => []

def renderList (n : Nat) : List Node → List Lexeme
  | [] => []
  | [x] => render n x
  | x :: y :: xs => render n x ++ ⟨.symbol .comma, n⟩ :: renderList n (y :: xs)

end

mutual

/-- The deepest level of an expression that stands at depth `d`. -/
def deepest : Node → Nat → Nat
  | unary _ x _, d => deepest x (inside (x.binding < 4) (d + 1))
  | binary a op b l, d => deepestInfix (binary a op b l).binding a b (deepest a) (deepest b) d
  | compare a op b l, d => deepestInfix (compare a op b l).binding a b (deepest a) (deepest b) d
  | logic a op b l, d => deepestInfix (logic a op b l).binding a b (deepest a) (deepest b) d
  | call _ xs _, d => deepestList xs (d + 1)
  | _, d => d

/-- The deepest level of several expressions, and at least the one on which they stand. -/
def deepestList : List Node → Nat → Nat
  | [], d => d
  | x :: xs, d => max (deepest x d) (deepestList xs d)

end

/-- Expressions on line `n`. -/
inductive OneLine (n : Nat) : Node → Prop where
  | number {v} : OneLine n (.number v n)
  | truth {v} : OneLine n (.truth v n)
  | text {v} : OneLine n (.text v n)
  | name {v} : OneLine n (.name v n)
  | input {p} : OneLine n (.input p n)
  | unary {op x} (operand : OneLine n x) : OneLine n (.unary op x n)
  | joined {tier s build a b} (joins : Joins tier s build) (left : OneLine n a) (right : OneLine n b) :
      OneLine n (build a b n)
  | call {f xs} (arguments : ∀ x ∈ xs, OneLine n x) : OneLine n (.call f xs n)

theorem oneLine_binary {n : Nat} {op : BinaryOp} (computes : op ≠ .assign) {a b : Node} (left : OneLine n a)
    (right : OneLine n b) : OneLine n (.binary a op b n) := by
  cases op with
  | add => exact .joined .add left right
  | sub => exact .joined .sub left right
  | mul => exact .joined .mul left right
  | div => exact .joined .div left right
  | assign => exact absurd rfl computes

theorem OnLines.operands {P : Nat → Prop} {x a b : Node} (lines : x.OnLines P) (pair : x.parts = [a, b]) :
    a.OnLines P ∧ b.OnLines P :=
  ⟨lines.of_mem_parts (by simp [pair]), lines.of_mem_parts (by simp [pair])⟩

theorem oneLine_of_isExpression {n : Nat} {x : Node} (shape : x.IsExpression) (lines : x.OnLines (· = n)) :
    x.OneLine n := by
  induction shape with
  | number => cases lines.line rfl; exact .number
  | truth => cases lines.line rfl; exact .truth
  | text => cases lines.line rfl; exact .text
  | name => cases lines.line rfl; exact .name
  | input => cases lines.line rfl; exact .input
  | unary _ ih =>
    have operand := ih (lines.of_mem_parts List.mem_cons_self)
    cases lines.line rfl
    exact .unary operand
  | binary computes _ _ ih₁ ih₂ =>
    obtain ⟨left, right⟩ := lines.operands rfl
    cases lines.line rfl
    exact oneLine_binary computes (ih₁ left) (ih₂ right)
  | @compare _ op _ _ _ _ ih₁ ih₂ =>
    obtain ⟨left, right⟩ := lines.operands rfl
    cases lines.line rfl
    exact .joined (.comparison op) (ih₁ left) (ih₂ right)
  | @logic _ op _ _ _ _ ih₁ ih₂ =>
    obtain ⟨left, right⟩ := lines.operands rfl
    cases lines.line rfl
    exact .joined (.logic op) (ih₁ left) (ih₂ right)
  | call _ ih =>
    have arguments := fun y member => ih y member (lines.of_mem_parts member)
    cases lines.line rfl
    exact .call arguments

end Node

namespace Grammar

open SmallScript.Node SmallScript.Grammar.Parser

/-! ## One case for all operators between two operands -/

section Joined

variable {tier : Tier} {s : Symbol} {build : Node → Node → Nat → Node}

theorem Joins.tier?_build (joins : Joins tier s build) (a b : Node) (l : Nat) :
    (build a b l).tier? = some tier := by
  cases joins <;> rfl

theorem Joins.binding_build (joins : Joins tier s build) (a b : Node) (l : Nat) :
    (build a b l).binding = tier.strength := by
  rw [binding, joins.tier?_build]
  rfl

theorem Joins.operators_build (joins : Joins tier s build) (a b : Node) (l : Nat) :
    (build a b l).operators tier.strength = a.operators tier.strength + 1 := by
  have binds := joins.binding_build a b l
  cases joins <;> simp [operators, binds]

theorem Joins.render_build (joins : Joins tier s build) (n : Nat) (a b : Node) (l : Nat) :
    (build a b l).render n = renderInfix n tier.strength s a b (a.render n) (b.render n) := by
  have binds := joins.binding_build a b l
  cases joins <;> simp [render, binds]

theorem Joins.deepest_build (joins : Joins tier s build) (a b : Node) (l d : Nat) :
    (build a b l).deepest d = deepestInfix tier.strength a b a.deepest b.deepest d := by
  have binds := joins.binding_build a b l
  cases joins <;> simp [deepest, binds]

end Joined

theorem strength_injective {t t' : Tier} (same : t.strength = t'.strength) : t = t' := by
  cases t <;> cases t' <;> first | rfl | cases same

theorem strength_lt (t : Tier) : t.strength < 4 := by
  cases t <;> decide

theorem le_inside (needed : Prop) [Decidable needed] (d : Nat) : d ≤ inside needed d := by
  unfold inside
  split <;> omega

theorem le_deepestList (xs : List Node) (d : Nat) : d ≤ deepestList xs d := by
  induction xs with
  | nil => exact Nat.le_refl d
  | cons x xs ih => exact Nat.le_trans ih (Nat.le_max_right ..)

theorem le_deepest {n : Nat} {x : Node} (line : x.OneLine n) (d : Nat) : d ≤ x.deepest d := by
  induction line generalizing d with
  | number | truth | text | name | input => exact Nat.le_refl d
  | unary _ ih => exact Nat.le_of_succ_le (Nat.le_trans (le_inside _ (d + 1)) (ih _))
  | joined joins _ _ ih₁ _ =>
    rw [joins.deepest_build]
    exact Nat.le_trans (Nat.le_trans (le_inside _ d) (ih₁ _)) (Nat.le_max_left ..)
  | @call f xs _ _ => exact Nat.le_of_succ_le (le_deepestList xs (d + 1))

theorem operators_of_ne {x : Node} {strength : Nat} (other : x.binding ≠ strength) :
    x.operators strength = 0 := by
  unfold operators
  split <;> first | rfl | exact if_neg other

/-- The last operator of a chain is no deeper than what is behind it. -/
theorem add_operators_le_deepest {n : Nat} {x : Node} (line : x.OneLine n) (strength d : Nat) :
    d + x.operators strength ≤ x.deepest d := by
  have least := le_deepest line d
  cases line with
  | number | truth | text | name | input | unary | call => exact least
  | @joined tier s build a b joins _ right =>
    by_cases same : (build a b n).binding = strength
    · rw [joins.binding_build] at same
      subst same
      rw [joins.operators_build, joins.deepest_build]
      exact Nat.le_trans (Nat.le_trans (le_inside _ _) (le_deepest right _)) (Nat.le_max_right ..)
    · rw [operators_of_ne same]
      exact least

/-- From the chains of one kind, for which `Q` holds, to the operands of all looser kinds. -/
theorem climb {P Q : Tier → Prop} (single : ∀ {t}, P t → Q t)
    (tighter : ∀ {t t'}, t.tighter? = some t' → Q t' → P t) {t t' : Tier}
    (lt : t.strength < t'.strength) (content : Q t') : P t := by
  cases t <;> cases t' <;> simp [Tier.strength] at lt
  case logic.comparison | comparison.additive | additive.multiplicative => exact tighter rfl content
  case logic.additive | comparison.multiplicative => exact tighter rfl (single (tighter rfl content))
  case logic.multiplicative => exact tighter rfl (single (tighter rfl (single (tighter rfl content))))

/-! ## Where the limit permits, the tokens are a phrase -/

/-- How a tree is read where it stands without parentheses. -/
def phraseOf (x : Node) : Phrase :=
  match x.tier? with
  | some tier => .chain tier (x.operators tier.strength) x
  | none => .unary x

theorem phraseOf_chain {x : Node} {tier : Tier} (found : x.tier? = some tier) :
    phraseOf x = .chain tier (x.operators tier.strength) x := by
  rw [phraseOf, found]

theorem phraseOf_unary {x : Node} (none : x.tier? = none) : phraseOf x = .unary x := by
  rw [phraseOf, none]

/-- A tree is no chain, or one of some kind. -/
theorem tier?_cases (x : Node) :
    (x.tier? = none ∧ x.binding = 4) ∨ ∃ tier, x.tier? = some tier ∧ x.binding = tier.strength := by
  match found : x.tier? with
  | none => exact .inl ⟨rfl, by rw [binding, found]; rfl⟩
  | some tier => exact .inr ⟨tier, rfl, by rw [binding, found]; rfl⟩

theorem tier?_of_binding {x : Node} {tier : Tier} (same : x.binding = tier.strength) :
    x.tier? = some tier := by
  have := strength_lt tier
  rcases tier?_cases x with ⟨-, tightest⟩ | ⟨tier', found, binds⟩
  · omega
  · rw [found, strength_injective (binds.symm.trans same)]

theorem tier?_of_tightest {x : Node} (tightest : ¬ x.binding < 4) : x.tier? = none := by
  rcases tier?_cases x with ⟨none, -⟩ | ⟨tier, -, binds⟩
  · exact none
  · have := strength_lt tier
    omega

section Written

variable {limit n d : Nat} {x : Node} {ts : List Lexeme}

theorem operand_of_phrase {tier : Tier} (tighter : ¬ x.binding ≤ tier.strength)
    (content : Derives limit d (phraseOf x) ts) : Derives limit d (.operand tier x) ts := by
  rcases tier?_cases x with ⟨none, -⟩ | ⟨tier', found, binds⟩
  · exact (phraseOf_unary none ▸ content).operand_of_unary tier
  · have chain : ∃ k, Derives limit d (.chain tier' k x) ts := ⟨_, phraseOf_chain found ▸ content⟩
    refine climb (P := fun t => Derives limit d (.operand t x) ts)
      (Q := fun t => ∃ k, Derives limit d (.chain t k x) ts) ?_ ?_ (by omega) chain
    · exact fun operand => ⟨0, .single operand⟩
    · exact fun tighter ⟨k, chain⟩ => .tighter tighter chain

theorem expression_of_phrase (content : Derives limit d (phraseOf x) ts) :
    Derives limit d (.expression x) ts := by
  by_cases loosest : x.binding ≤ Tier.logic.strength
  · have found : x.tier? = some .logic := tier?_of_binding (Nat.le_zero.mp loosest)
    rw [phraseOf_chain found] at content
    exact .loosest content
  · exact .loosest (.single (operand_of_phrase loosest content))

/-- The tree is a phrase wherever the limit permits. -/
def Written (limit n : Nat) (x : Node) : Prop :=
  ∀ d, x.deepest d ≤ limit → Derives limit d (phraseOf x) (x.render n)

/-- An operand is a phrase as it stands or in parentheses. -/
theorem Written.enclosed {goal : Phrase} {needed : Prop} [Decidable needed] (written : Written limit n x)
    (line : x.OneLine n) (le : x.deepest (inside needed d) ≤ limit)
    (bare : ¬ needed → ∀ ts, Derives limit d (phraseOf x) ts → Derives limit d goal ts)
    (grouped : needed → ∀ ts, Derives limit d (.unary x) ts → Derives limit d goal ts) :
    Derives limit d goal (Node.enclosed n needed (x.render n)) := by
  by_cases needs : needed
  · rw [inside, if_pos needs] at le
    rw [Node.enclosed, if_pos needs]
    have room : d < limit := Nat.lt_of_lt_of_le (le_deepest line (d + 1)) le
    exact grouped needs _ (.plain (.group room (expression_of_phrase (written _ le))))
  · rw [inside, if_neg needs] at le
    rw [Node.enclosed, if_neg needs]
    exact bare needs _ (written d le)

theorem Written.behindPrefix (written : Written limit n x) (line : x.OneLine n)
    (le : x.deepest (inside (x.binding < 4) d) ≤ limit) :
    Derives limit d (.unary x) (Node.enclosed n (x.binding < 4) (x.render n)) := by
  refine written.enclosed line le ?_ fun _ _ content => content
  intro tightest ts content
  rwa [phraseOf_unary (tier?_of_tightest tightest)] at content

theorem Written.behindOperator {tier : Tier} (written : Written limit n x) (line : x.OneLine n)
    (le : x.deepest (inside (x.binding ≤ tier.strength) d) ≤ limit) :
    Derives limit d (.operand tier x) (Node.enclosed n (x.binding ≤ tier.strength) (x.render n)) :=
  written.enclosed line le (fun tighter _ => operand_of_phrase tighter)
    fun _ _ content => content.operand_of_unary tier

/-- On the left a chain of the same kind goes on, and everything else is the first operand of a new one. -/
theorem Written.beforeOperator {tier : Tier} (written : Written limit n x) (line : x.OneLine n)
    (le : x.deepest (inside (x.binding < tier.strength) d) ≤ limit) :
    Derives limit d (.chain tier (x.operators tier.strength) x)
      (Node.enclosed n (x.binding < tier.strength) (x.render n)) := by
  refine written.enclosed line le ?_ ?_
  · intro notLooser ts content
    by_cases same : x.binding = tier.strength
    · rwa [phraseOf_chain (tier?_of_binding same)] at content
    · rw [operators_of_ne same]
      exact .single (operand_of_phrase (by omega) content)
  · intro looser ts content
    rw [operators_of_ne (Nat.ne_of_lt looser)]
    exact .single (content.operand_of_unary tier)

theorem derives_renderList {xs : List Node} (some : xs ≠ []) (written : ∀ x ∈ xs, Written limit n x)
    (le : deepestList xs d ≤ limit) : Derives limit d (.arguments xs) (renderList n xs) := by
  match xs with
  | [] => exact absurd rfl some
  | [x] =>
    have first := written x List.mem_cons_self d (Nat.le_trans (Nat.le_max_left ..) le)
    exact .lastArgument (expression_of_phrase first)
  | x :: y :: xs =>
    have first := written x List.mem_cons_self d (Nat.le_trans (Nat.le_max_left ..) le)
    have rest := derives_renderList (List.cons_ne_nil y xs)
      (fun z member => written z (List.mem_cons_of_mem x member)) (Nat.le_trans (Nat.le_max_right ..) le)
    exact .nextArgument (expression_of_phrase first) rest

theorem derives_render (line : x.OneLine n) : Written limit n x := by
  induction line with
  | number => exact fun d _ => .plain .number
  | truth => exact fun d _ => .plain .truth
  | text => exact fun d _ => .plain .text
  | name => exact fun d _ => .plain .name
  | input => exact fun d _ => .plain .input
  | @unary op x line ih =>
    intro d le
    have room : d < limit :=
      Nat.lt_of_lt_of_le (Nat.lt_of_lt_of_le (le_inside _ (d + 1)) (le_deepest line _)) le
    exact .prefixed op room (ih.behindPrefix line le)
  | @joined tier s build a b joins left right ih₁ ih₂ =>
    intro d le
    rw [joins.deepest_build] at le
    rw [phraseOf_chain (joins.tier?_build a b n), joins.operators_build, joins.render_build]
    have leRight := Nat.le_trans (Nat.le_max_right ..) le
    -- the operator is as deep as the operand behind it, so there is a level for it
    have room : d + a.operators tier.strength < limit :=
      Nat.lt_of_lt_of_le (Nat.lt_of_lt_of_le (le_inside _ _) (le_deepest right _)) leRight
    exact .joined room (ih₁.beforeOperator left (Nat.le_trans (Nat.le_max_left ..) le)) joins
      (ih₂.behindOperator right leRight)
  | @call f xs _ ih =>
    intro d le
    have room : d < limit := Nat.lt_of_lt_of_le (le_deepestList xs (d + 1)) le
    by_cases none : xs = []
    · subst none
      exact .plain (.callBare room)
    · exact .plain (.call room (derives_renderList none ih le))

end Written

/-! ## Where it does not, a level is missing -/

section TooDeep

variable {α β : Type} {limit n d : Nat} {x : Node} {ts us : List Lexeme} {below : Option Rules}

/-- Whatever follows, the parser gets as far as a level that is missing, on line `n`. -/
def TooDeep (n : Nat) (parser : Parser α) (ts : List Lexeme) : Prop :=
  ∀ rest, ∃ left, parser (ts ++ rest) = .error ⟨.nestedTooDeep, n⟩ left

theorem TooDeep.bind {parser : Parser α} (deep : TooDeep n parser ts) (next : α → Parser β) :
    TooDeep n (parser >>= next) ts := by
  intro rest
  obtain ⟨left, failed⟩ := deep rest
  exact ⟨left, bind_of_error failed⟩

theorem TooDeep.append {parser : Parser α} (deep : TooDeep n parser ts) (us : List Lexeme) :
    TooDeep n parser (ts ++ us) := by
  intro rest
  rw [List.append_assoc]
  exact deep (us ++ rest)

theorem TooDeep.of_eq {parser parser' : Parser α} (deep : TooDeep n parser' us)
    (same : ∀ rest, parser (ts ++ rest) = parser' (us ++ rest)) : TooDeep n parser ts := by
  intro rest
  rw [same]
  exact deep rest

/-- A level is missing at once or in what it holds. -/
theorem tooDeep_within {content : Rules → Parser α} (token : Token) (depth : d ≤ limit)
    (deep : d < limit → TooDeep n (content (rulesOver (levelBelow (limit - (d + 1))))) (⟨token, n⟩ :: ts)) :
    TooDeep n (within (levelBelow (limit - d)) content) (⟨token, n⟩ :: ts) := by
  rcases Nat.lt_or_eq_of_le depth with room | rfl
  · rw [within_of_room room]
    exact deep room
  · rw [Nat.sub_self]
    exact fun rest => ⟨_, rfl⟩

theorem tooDeep_group (depth : d ≤ limit)
    (deep : d < limit → TooDeep n (expression (levelBelow (limit - (d + 1)))) ts) :
    TooDeep n (unary (levelBelow (limit - d)))
      (⟨.symbol .openParen, n⟩ :: (ts ++ [⟨.symbol .closeParen, n⟩])) := by
  refine TooDeep.of_eq (tooDeep_within (.symbol .openParen) depth fun room => ?_) fun rest => rfl
  exact ((deep room).bind _).append _

theorem tooDeep_prefixed (op : UnaryOp) (depth : d ≤ limit)
    (deep : d < limit → TooDeep n (unary (levelBelow (limit - (d + 1)))) ts) :
    TooDeep n (unary (levelBelow (limit - d))) (⟨.symbol op.symbol, n⟩ :: ts) := by
  refine TooDeep.of_eq (tooDeep_within _ depth fun room => ?_) fun rest => unary_opens _ op n (ts ++ rest)
  exact (deep room).bind _

theorem tooDeep_operand_of_chain {tier tier' : Tier} (lt : tier.strength < tier'.strength)
    (deep : TooDeep n (chain below tier') ts) : TooDeep n ((rulesOver below).operand tier) ts := by
  refine climb (P := fun t => TooDeep n ((rulesOver below).operand t) ts)
    (Q := fun t => TooDeep n (chain below t) ts) ?_ ?_ lt deep
  · exact fun operand => operand.bind _
  · intro t t' tighter chain
    rwa [operand_of_tighter tighter]

theorem tooDeep_operand_of_unary (deep : TooDeep n (unary below) ts) (tier : Tier) :
    TooDeep n ((rulesOver below).operand tier) ts := by
  have tightest : TooDeep n ((rulesOver below).operand .multiplicative) ts := deep
  by_cases same : tier = .multiplicative
  · rwa [same]
  · have lt : tier.strength < Tier.multiplicative.strength := by
      cases tier <;> first | decide | exact absurd rfl same
    exact tooDeep_operand_of_chain lt (tightest.bind _)

/-- The rule for a tree that stands without parentheses. -/
def ruleOf (below : Option Rules) (x : Node) : Parser Node :=
  match x.tier? with
  | some tier => chain below tier
  | none => unary below

theorem ruleOf_chain {tier : Tier} (found : x.tier? = some tier) : ruleOf below x = chain below tier := by
  rw [ruleOf, found]

theorem ruleOf_unary (none : x.tier? = none) : ruleOf below x = unary below := by
  rw [ruleOf, none]

theorem tooDeep_operand {tier : Tier} (tighter : ¬ x.binding ≤ tier.strength)
    (deep : TooDeep n (ruleOf below x) ts) : TooDeep n ((rulesOver below).operand tier) ts := by
  rcases tier?_cases x with ⟨none, -⟩ | ⟨tier', found, binds⟩
  · rw [ruleOf_unary none] at deep
    exact tooDeep_operand_of_unary deep tier
  · rw [ruleOf_chain found] at deep
    exact tooDeep_operand_of_chain (by omega) deep

theorem tooDeep_expression (deep : TooDeep n (ruleOf below x) ts) : TooDeep n (expression below) ts := by
  by_cases loosest : x.binding ≤ Tier.logic.strength
  · have found : x.tier? = some .logic := tier?_of_binding (Nat.le_zero.mp loosest)
    rwa [ruleOf_chain found] at deep
  · exact (tooDeep_operand loosest deep).bind _

/-- The tree is refused wherever the limit does not permit it. -/
def Refused (limit n : Nat) (x : Node) : Prop :=
  ∀ d, d ≤ limit → limit < x.deepest d → TooDeep n (ruleOf (levelBelow (limit - d)) x) (x.render n)

/-- An operand is refused as it stands or in parentheses. -/
theorem Refused.enclosed {goal : Parser Node} {needed : Prop} [Decidable needed] (refused : Refused limit n x)
    (depth : d ≤ limit) (lt : limit < x.deepest (inside needed d))
    (bare : ¬ needed → ∀ ts, TooDeep n (ruleOf (levelBelow (limit - d)) x) ts → TooDeep n goal ts)
    (grouped : needed → ∀ ts, TooDeep n (unary (levelBelow (limit - d))) ts → TooDeep n goal ts) :
    TooDeep n goal (Node.enclosed n needed (x.render n)) := by
  by_cases needs : needed
  · rw [inside, if_pos needs] at lt
    rw [Node.enclosed, if_pos needs]
    exact grouped needs _ (tooDeep_group depth fun room => tooDeep_expression (refused (d + 1) room lt))
  · rw [inside, if_neg needs] at lt
    rw [Node.enclosed, if_neg needs]
    exact bare needs _ (refused d depth lt)

theorem Refused.behindPrefix (refused : Refused limit n x) (depth : d ≤ limit)
    (lt : limit < x.deepest (inside (x.binding < 4) d)) :
    TooDeep n (unary (levelBelow (limit - d))) (Node.enclosed n (x.binding < 4) (x.render n)) := by
  refine refused.enclosed depth lt ?_ fun _ _ deep => deep
  intro tightest ts deep
  rwa [ruleOf_unary (tier?_of_tightest tightest)] at deep

theorem Refused.behindOperator {tier : Tier} (refused : Refused limit n x) (depth : d ≤ limit)
    (lt : limit < x.deepest (inside (x.binding ≤ tier.strength) d)) :
    TooDeep n ((rulesOver (levelBelow (limit - d))).operand tier)
      (Node.enclosed n (x.binding ≤ tier.strength) (x.render n)) :=
  refused.enclosed depth lt (fun tighter _ => tooDeep_operand tighter)
    fun _ _ deep => tooDeep_operand_of_unary deep tier

theorem Refused.beforeOperator {tier : Tier} (refused : Refused limit n x) (depth : d ≤ limit)
    (lt : limit < x.deepest (inside (x.binding < tier.strength) d)) :
    TooDeep n (chain (levelBelow (limit - d)) tier)
      (Node.enclosed n (x.binding < tier.strength) (x.render n)) := by
  refine refused.enclosed depth lt ?_ fun _ _ deep => (tooDeep_operand_of_unary deep tier).bind _
  intro notLooser ts deep
  by_cases same : x.binding = tier.strength
  · rwa [ruleOf_chain (tier?_of_binding same)] at deep
  · exact (tooDeep_operand (by omega) deep).bind _

/-- The left part of a chain is read, and no level is left for the operator or for what is behind it. -/
theorem tooDeep_joined {tier : Tier} {k : Nat} {a : Node} {s : Symbol} {build : Node → Node → Nat → Node}
    (depth : d + k ≤ limit) (first : Derives limit d (.chain tier k a) ts) (joins : Joins tier s build)
    (deep : d + k < limit → TooDeep n ((rulesOver (levelBelow (limit - (d + k + 1)))).operand tier) us) :
    TooDeep n (chain (levelBelow (limit - d)) tier) (ts ++ ⟨.symbol s, n⟩ :: us) := by
  have goesOn (rest : List Lexeme) := (accepted first _ joins.stops).trans
    (more_opens joins (levelBelow (limit - (d + k))) a n (us ++ rest))
  refine TooDeep.of_eq (tooDeep_within (.symbol s) depth fun room => ?_) fun rest =>
    (congrArg _ (List.append_assoc ..)).trans (goesOn rest)
  exact (deep room).bind _

/-- The arguments before the first one that is refused are read. -/
theorem tooDeep_items {xs : List Node} (lines : ∀ x ∈ xs, x.OneLine n)
    (refused : ∀ x ∈ xs, Refused limit n x) (depth : d ≤ limit) (lt : limit < deepestList xs d)
    {rounds : Nat} (enough : (renderList n xs).length < rounds) :
    TooDeep n (items (expression (levelBelow (limit - d))) .closeParen rounds) (renderList n xs) := by
  obtain ⟨rounds, rfl⟩ := Nat.exists_eq_add_one_of_ne_zero (Nat.ne_zero_of_lt enough)
  match xs with
  | [] => exact absurd depth (Nat.not_le_of_lt lt)
  | [x] =>
    have here : limit < x.deepest d := (lt_max_iff.mp lt).resolve_right (Nat.not_lt_of_le depth)
    exact (tooDeep_expression (refused x List.mem_cons_self d depth here)).bind _
  | x :: y :: xs =>
    by_cases here : limit < x.deepest d
    · exact ((tooDeep_expression (refused x List.mem_cons_self d depth here)).bind _).append _
    have later : limit < deepestList (y :: xs) d := (lt_max_iff.mp lt).resolve_left here
    have shorter : (renderList n (y :: xs)).length < rounds := by
      simp only [renderList, List.length_append, List.length_cons] at enough ⊢
      omega
    have others := tooDeep_items (fun z member => lines z (List.mem_cons_of_mem x member))
      (fun z member => refused z (List.mem_cons_of_mem x member)) depth later shorter
    have written : Written limit n x := derives_render (lines x List.mem_cons_self)
    have first := expression_of_phrase (written d (Nat.le_of_not_lt here))
    -- `x` is read up to the comma, and from there on it is the others that fail
    refine TooDeep.of_eq (others.bind fun zs => pure (x :: zs)) fun rest => ?_
    rw [renderList, List.append_assoc, List.cons_append]
    refine (bind_of_ok (accepted first _ (stops_symbol (by decide) rfl 0))).trans ?_
    refine (bind_of_ok (peekSymbol_eq _)).trans ?_
    rw [symbol?_cons, if_pos rfl]
    rfl

/-- No expression starts with the parenthesis that would close the list at once. -/
theorem symbol?_renderList {xs : List Node} (nonempty : xs ≠ []) (lines : ∀ x ∈ xs, x.OneLine n)
    (rest : List Lexeme) : symbol? (renderList n xs ++ rest) ≠ some .closeParen := by
  have written : ∀ x ∈ xs, Written (deepestList xs 0) n x := fun x member => derives_render (lines x member)
  obtain ⟨⟨⟨token, l⟩, us, equal, start⟩, -⟩ :=
    (derives_renderList nonempty written (Nat.le_refl _)).ofExpression rfl
  rw [equal]
  intro closes
  cases token <;> cases closes
  cases start

theorem tooDeep_call {f : String} {xs : List Node} (lines : ∀ x ∈ xs, x.OneLine n)
    (refused : ∀ x ∈ xs, Refused limit n x) (depth : d ≤ limit) (lt : limit < deepestList xs (d + 1)) :
    TooDeep n (unary (levelBelow (limit - d))) ((Node.call f xs n).render n) := by
  refine TooDeep.of_eq (tooDeep_within (.symbol .openParen) depth fun room => ?_) fun rest => rfl
  -- an empty list opens its level too, and nothing in it can be deeper
  have nonempty : xs ≠ [] := by
    rintro rfl
    exact absurd room (Nat.not_lt_of_le (Nat.le_of_lt_succ lt))
  refine TooDeep.bind (TooDeep.append ?_ _) _
  intro rest
  have enough : (renderList n xs).length < (renderList n xs ++ rest).length + 1 := by
    rw [List.length_append]
    omega
  obtain ⟨left, failed⟩ := tooDeep_items lines refused room lt enough rest
  refine ⟨left, (bind_of_ok (peekSymbol_eq _)).trans ?_⟩
  rw [if_neg (symbol?_renderList nonempty lines rest)]
  exact failed

theorem tooDeep_render (line : x.OneLine n) : Refused limit n x := by
  induction line with
  | number | truth | text | name | input =>
    exact fun d depth lt => absurd depth (Nat.not_le_of_lt lt)
  | @unary op x line ih =>
    intro d depth lt
    exact tooDeep_prefixed op depth fun room => ih.behindPrefix room lt
  | @joined tier s build a b joins left right ih₁ ih₂ =>
    intro d depth lt
    rw [joins.deepest_build] at lt
    rw [ruleOf_chain (joins.tier?_build a b n), joins.render_build]
    -- the left operand is refused, or it is read and the level of the operator is what matters
    by_cases here : limit < a.deepest (inside (a.binding < tier.strength) d)
    · exact (ih₁.beforeOperator depth here).append _
    have later := (lt_max_iff.mp lt).resolve_left here
    have written : Written limit n a := derives_render left
    have first := written.beforeOperator left (Nat.le_of_not_lt here)
    have reached : d + a.operators tier.strength ≤ limit := calc
      d + a.operators tier.strength
      _ ≤ inside (a.binding < tier.strength) d + a.operators tier.strength :=
        Nat.add_le_add_right (le_inside _ d) _
      _ ≤ a.deepest (inside (a.binding < tier.strength) d) := add_operators_le_deepest left _ _
      _ ≤ limit := Nat.le_of_not_lt here
    exact tooDeep_joined reached first joins fun room => ih₂.behindOperator room later
  | call lines ih =>
    intro d depth lt
    exact tooDeep_call lines ih depth lt

end TooDeep

/-- An expression on one line is read back from its tokens if its levels are within the limit, and is refused
    for its nesting if they are not. -/
theorem expression_render (n m : Nat) {e : Node} (shape : e.IsExpression) (lines : e.OnLines (· = n)) :
    (e.deepest 0 ≤ nestingLimit →
      (rules nestingLimit).expression (e.render n ++ [⟨.endOfInput, m⟩]) = .ok e [⟨.endOfInput, m⟩]) ∧
    (nestingLimit < e.deepest 0 →
      ∃ left, (rules nestingLimit).expression (e.render n ++ [⟨.endOfInput, m⟩]) =
        .error ⟨.nestedTooDeep, n⟩ left) := by
  have line := oneLine_of_isExpression shape lines
  rw [rules_eq]
  constructor
  · intro le
    exact accepted (expression_of_phrase (derives_render line 0 le)) _ nofun
  · intro lt
    exact tooDeep_expression (tooDeep_render line 0 (Nat.zero_le _) lt) _

/-- A right operand in parentheses, and one minus sign more than there are levels. -/
theorem expression_render_minuses :
    (rules nestingLimit).expression
      [⟨.name "a", 7⟩, ⟨.symbol .minus, 7⟩, ⟨.symbol .openParen, 7⟩, ⟨.name "b", 7⟩, ⟨.symbol .minus, 7⟩,
        ⟨.name "c", 7⟩, ⟨.symbol .closeParen, 7⟩, ⟨.endOfInput, 8⟩] =
      .ok (.binary (.name "a" 7) .sub (.binary (.name "b" 7) .sub (.name "c" 7) 7) 7) [⟨.endOfInput, 8⟩] ∧
    ∃ left, (rules nestingLimit).expression
      (List.replicate 65 ⟨.symbol .minus, 7⟩ ++ [⟨.name "x", 7⟩, ⟨.endOfInput, 8⟩]) =
        .error ⟨.nestedTooDeep, 7⟩ left := by
  have leaf (v : String) : (Node.name v 7).OnLines (· = 7) := .node (by simp [line?]) (by simp [parts])
  constructor
  · have right : (Node.binary (.name "b" 7) .sub (.name "c" 7) 7).OnLines (· = 7) :=
      .node (by simp [line?]) (by simp [parts, leaf])
    have lines : (Node.binary (.name "a" 7) .sub (.binary (.name "b" 7) .sub (.name "c" 7) 7) 7).OnLines
        (· = 7) := .node (by simp [line?]) (by simp [parts, leaf, right])
    have shape : (Node.binary (.name "a" 7) .sub (.binary (.name "b" 7) .sub (.name "c" 7) 7) 7).IsExpression :=
      .binary (by decide) .name (.binary (by decide) .name .name)
    exact (expression_render 7 8 shape lines).1 (by decide)
  · have tower (k : Nat) : ∃ e : Node, e.IsExpression ∧ e.OnLines (· = 7) ∧ e.binding = 4 ∧
        (∀ d, e.deepest d = d + k) ∧
        e.render 7 = List.replicate k ⟨.symbol .minus, 7⟩ ++ [⟨.name "x", 7⟩] := by
      induction k with
      | zero => exact ⟨.name "x" 7, .name, leaf "x", rfl, fun _ => rfl, rfl⟩
      | succ k ih =>
        obtain ⟨e, shape, lines, binds, deep, tokens⟩ := ih
        refine ⟨.unary .negate e 7, .unary shape, .node (by simp [line?]) (by simp [parts, lines]), rfl, ?_, ?_⟩
        · intro d
          simp [deepest, inside, binds, deep, Nat.add_assoc, Nat.add_comm 1]
        · simp [render, enclosed, binds, tokens, List.replicate_succ, UnaryOp.symbol]
    obtain ⟨e, shape, lines, -, deep, tokens⟩ := tower 65
    have refused := (expression_render 7 8 shape lines).2 (by rw [deep]; decide)
    simpa [tokens] using refused

end Grammar

end SmallScript
