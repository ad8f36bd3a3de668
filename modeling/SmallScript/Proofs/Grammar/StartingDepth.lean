import SmallScript.Proofs.Grammar.MoreRoom
import SmallScript.Proofs.Grammar.Soundness

/-! # Rules at a depth

Every rule of the grammar can be started inside other constructs, where some levels are open already.
All that this changes is when the limit is reached: `depth_only_rejects`.  A rule that is not refused for
its nesting does the same at every smaller depth, and one that is refused gets at least as far there.

`Rule` names the rules, and `Rule.atDepth` is the parser of a rule that is started at a depth.  `Rule.agrees` takes
what the traversal says of a rule, whatever two runs are compared.
-/

namespace SmallScript.Grammar

inductive Rule where
  | statements
  | block
  | statement
  /-- What follows the word `if` or `elif` on the given line. -/
  | conditional (line : Nat)
  /-- An expression is a chain of the loosest kind. -/
  | expression
  | comparison
  | additive
  | multiplicative
  | unary

namespace Rule

def Reading : Rule → Type
  | statements => List Node
  | _ => Node

def ofLevel (level : Rules) : (rule : Rule) → Parser rule.Reading
  | statements => level.statements
  | block => level.block
  | statement => level.statement
  | conditional line => level.conditional line
  | expression => level.expression
  | comparison => level.comparison
  | additive => level.additive
  | multiplicative => level.multiplicative
  | unary => level.unary

/-- The parser of a rule that is started where so many levels are open. -/
def atDepth (rule : Rule) (depth : Nat) : Parser rule.Reading :=
  rule.ofLevel (rules (nestingLimit - depth))

instance : (rule : Rule) → Renumber rule.Reading
  | statements => inferInstanceAs (Renumber (List Node))
  | block | statement | conditional _ | expression | comparison | additive | multiplicative | unary =>
    inferInstanceAs (Renumber Node)

/-- The phrase that a rule reads.  A chain is an operand of the next looser kind. -/
def phrase : (rule : Rule) → rule.Reading → Phrase
  | statements, xs => .statements xs
  | block, x => .block x
  | statement, x => .statement x
  | conditional line, x => .branches line x
  | expression, x => .expression x
  | comparison, x => .operand .logic x
  | additive, x => .operand .comparison x
  | multiplicative, x => .operand .additive x
  | unary, x => .unary x

theorem agrees (rule : Rule) {C : Comparison id} {limit depth : Nat} {first second : Rules}
    (agree : RulesAgree C limit depth first second) (tokens : List Lexeme) :
    AgreeOn C limit depth rule.phrase [] tokens (rule.ofLevel first) (rule.ofLevel second) := by
  cases rule with
  | statements => exact agree.statements free_nil
  | block => exact agree.block.imp fun _ _ content => content.1
  | statement => exact (agree.statement free_nil).imp fun _ _ content => content.1
  | conditional line => exact (agree.conditional line).imp fun _ _ content => content.1
  | expression => exact agree.expression free_nil
  | comparison => exact agree.operand .logic free_nil
  | additive => exact agree.operand .comparison free_nil
  | multiplicative => exact agree.operand .additive free_nil
  | unary => exact agree.unary free_nil

/-- A rule that fails is refused at one of its tokens, which it has left in place. -/
theorem located (rule : Rule) {room : Nat} {tokens rest : List Lexeme} {fault : SyntaxFault}
    (failed : rule.ofLevel (rules room) tokens = .error fault rest) : Located fault rest ∧ rest <:+ tokens := by
  have alone := rule.agrees (rules_sound room 0 room (Nat.le_of_eq (Nat.zero_add room))) tokens
  exact ⟨(alone.fails fault rest failed).1, leftover_of_error failed ▸ alone.trims⟩

section MoreRoom

variable (rule : Rule) {room room' : Nat} (le : room ≤ room') {tokens rest : List Lexeme}

include le

theorem ok_of_le {v : rule.Reading} (done : rule.ofLevel (rules room) tokens = .ok v rest) :
    rule.ofLevel (rules room') tokens = .ok v rest := by
  rcases Nat.lt_or_eq_of_le le with more | rfl
  · exact (rule.agrees (rules_outlast more) tokens).holds.ok done
  · exact done

theorem error_of_le {fault : SyntaxFault} (failed : rule.ofLevel (rules room) tokens = .error fault rest)
    (shallow : fault.cause ≠ .nestedTooDeep) : rule.ofLevel (rules room') tokens = .error fault rest := by
  rcases Nat.lt_or_eq_of_le le with more | rfl
  · exact (rule.agrees (rules_outlast more) tokens).holds.error failed shallow
  · exact failed

/-- A rule that is cut off gets at least as far with more room. -/
theorem leftover_of_le {fault : SyntaxFault} (failed : rule.ofLevel (rules room) tokens = .error fault rest)
    (deep : fault.cause = .nestedTooDeep) : leftover (rule.ofLevel (rules room')) tokens <:+ rest := by
  rcases Nat.lt_or_eq_of_le le with more | rfl
  · exact ((rule.agrees (rules_outlast more) tokens).holds.halted failed deep).further
  · exact ⟨[], leftover_of_error failed⟩

end MoreRoom

end Rule

/-- What a rule gives at a depth it also gives at every smaller one, the same tree or the same refusal of
    the same token, unless it is refused for its nesting.  Then it takes off at least as many tokens at the
    smaller depth. -/
theorem depth_only_rejects (rule : Rule) (tokens : List Lexeme) {d d' : Nat} (le : d ≤ d') :
    (∀ v rest, rule.atDepth d' tokens = .ok v rest → rule.atDepth d tokens = .ok v rest) ∧
    ∀ fault rest, rule.atDepth d' tokens = .error fault rest →
      (∃ expected found, fault.cause = .unexpected expected found) ∧
        rule.atDepth d tokens = .error fault rest ∨
      fault.cause = .nestedTooDeep ∧ ∃ k k', k ≤ k' ∧ k' ≤ tokens.length ∧ rest = tokens.drop k ∧
        leftover (rule.atDepth d) tokens = tokens.drop k' := by
  have room : nestingLimit - d' ≤ nestingLimit - d := Nat.sub_le_sub_left le nestingLimit
  refine ⟨fun v rest => rule.ok_of_le room, fun fault rest failed => ?_⟩
  obtain ⟨located, within⟩ := rule.located failed
  rcases located.cause with tooDeep | ⟨expected, unexpected⟩
  · right
    have further : leftover (rule.atDepth d) tokens <:+ rest := rule.leftover_of_le room failed tooDeep
    refine ⟨tooDeep, _, _, ?_, Nat.sub_le _ _, List.suffix_iff_eq_drop.mp within,
      List.suffix_iff_eq_drop.mp (further.trans within)⟩
    exact Nat.sub_le_sub_left further.length_le tokens.length
  · left
    refine ⟨⟨expected, _, unexpected⟩, rule.error_of_le room failed ?_⟩
    rw [unexpected]
    exact nofun

/-- Inside 64 levels `if (a) { b }` is read up to the brace, and inside 63 to its end. -/
theorem depth_only_rejects_last_level :
    let tokens : List Lexeme := [⟨.symbol .ifWord, 1⟩, ⟨.symbol .openParen, 1⟩, ⟨.name "a", 1⟩,
      ⟨.symbol .closeParen, 1⟩, ⟨.symbol .openBrace, 2⟩, ⟨.name "b", 2⟩, ⟨.symbol .closeBrace, 2⟩,
      ⟨.endOfInput, 3⟩]
    Rule.statement.atDepth 64 tokens = .error ⟨.nestedTooDeep, 2⟩ (tokens.drop 4) ∧
    Rule.statement.atDepth 63 tokens =
      .ok (Node.conditional (.name "a" 1) (.block [.name "b" 2] (some 2)) none 1) (tokens.drop 7) ∧
    (∃ k ≥ 4, leftover (Rule.statement.atDepth 63) tokens = tokens.drop k) ∧
    Rule.statement.atDepth 0 tokens =
      .ok (Node.conditional (.name "a" 1) (.block [.name "b" 2] (some 2)) none 1) (tokens.drop 7) := by
  intro tokens
  have refused : Rule.statement.atDepth 64 tokens = .error ⟨.nestedTooDeep, 2⟩ (tokens.drop 4) := by rfl
  have read : Rule.statement.atDepth 63 tokens =
      .ok (Node.conditional (.name "a" 1) (.block [.name "b" 2] (some 2)) none 1) (tokens.drop 7) := by rfl
  refine ⟨refused, read, ?_, (depth_only_rejects .statement tokens (Nat.zero_le 63)).1 _ _ read⟩
  obtain ⟨⟨_, _, unexpected⟩, _⟩ | ⟨_, k, k', le, _, left, left'⟩ :=
    (depth_only_rejects .statement tokens (Nat.le_succ 63)).2 _ _ refused
  · cases unexpected
  · have four := congrArg List.length left
    simp only [List.length_drop, tokens, List.length_cons, List.length_nil] at four
    exact ⟨k', by omega, left'⟩

end SmallScript.Grammar
