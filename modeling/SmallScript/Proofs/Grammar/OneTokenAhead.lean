import SmallScript.Proofs.Grammar.Lookahead
import SmallScript.Proofs.Grammar.StartingDepth

/-! # One token ahead

A rule takes tokens off the front and decides where to stop by looking at the next one.  What comes behind
that token makes no difference, and every rule except the one for lists of statements takes something off
when it succeeds.  `stops_one_token_ahead` states this for all rules at all depths.

* `LooksOneAhead parser`: where the parser stops in front of a token, it does so whatever is behind it.
* `Rule.advances` follows from the grammar: no phrase but a list of statements can be empty.
-/

namespace SmallScript.Grammar

/-- Where the parser stops in front of a token, it depends on nothing behind that token. -/
structure LooksOneAhead {α : Type} (parser : Parser α) : Prop where
  ok : ∀ {used next behind v}, parser (used ++ next :: behind) = .ok v (next :: behind) →
    ∀ behind', parser (used ++ next :: behind') = .ok v (next :: behind')
  error : ∀ {used next behind fault}, parser (used ++ next :: behind) = .error fault (next :: behind) →
    ∀ behind', parser (used ++ next :: behind') = .error fault (next :: behind')

/-- The runs share the tokens up to and including the one that both stop at. -/
theorem looksOneAhead_of_tracksAt {α : Type} [Renumber α] {parser : Parser α}
    (tracks : ∀ c u u', TracksAt id parser parser c u u') : LooksOneAhead parser where
  ok := by
    intro used next behind v done behind'
    have stops : parser ((used ++ [next]) ++ behind) = .ok v ([next] ++ behind) := by simpa using done
    have same := (tracks (used ++ [next]) behind behind').ok (.inl (List.cons_ne_nil next [])) stops
    simpa [Renumber.renumber_id] using same
  error := by
    intro used next behind fault failed behind'
    have stops : parser ((used ++ [next]) ++ behind) = .error fault ([next] ++ behind) := by simpa using failed
    have same := (tracks (used ++ [next]) behind behind').error (.inl (List.cons_ne_nil next [])) stops
    simpa [Renumber.renumber_id] using same

namespace Rule

/-- The run of a rule, compared with those in front of other tokens. -/
theorem agrees_ahead (rule : Rule) (room : Nat) (tokens : List Lexeme) :
    AgreeOn (.ahead id) room 0 rule.phrase [] tokens (rule.ofLevel (rules room)) (rule.ofLevel (rules room)) :=
  rule.agrees (rules_look_ahead id (Nat.le_of_eq (Nat.zero_add room))) tokens

theorem looksOneAhead (rule : Rule) (room : Nat) : LooksOneAhead (rule.ofLevel (rules room)) :=
  looksOneAhead_of_tracksAt fun c u u' => (rule.agrees_ahead room (c ++ u)).holds c u u' rfl

theorem ne_nil_of_derives {rule : Rule} (single : rule ≠ .statements) {limit d : Nat} {x : rule.Reading}
    {ts : List Lexeme} (content : Derives limit d (rule.phrase x) ts) : ts ≠ [] := by
  cases rule with
  | statements => exact absurd rfl single
  | block =>
    obtain ⟨⟩ := content
    exact List.cons_ne_nil _ _
  | statement =>
    obtain ⟨first, rest, rfl, _⟩ := content.start_statement
    exact List.cons_ne_nil first rest
  | conditional line =>
    obtain ⟨⟩ := content
    exact List.cons_ne_nil _ _
  | expression | comparison | additive | multiplicative | unary => exact (content.ofExpression rfl).ne_nil

/-- Only a list of statements can be read off without taking off a token. -/
theorem advances {rule : Rule} (single : rule ≠ .statements) (room : Nat) :
    Advances (rule.ofLevel (rules room)) :=
  advances_of_reads (fun tokens => (rule.agrees_ahead room tokens).reads) fun _ _ content =>
    ne_nil_of_derives single content

end Rule

/-- Lists that agree up to and including their `k`-th element. -/
theorem exists_of_take_succ_eq {α : Type} {xs ys : List α} {k : Nat} (inside : k < xs.length)
    (same : ys.take (k + 1) = xs.take (k + 1)) :
    ∃ used next behind behind', used.length = k ∧ xs = used ++ next :: behind ∧
      ys = used ++ next :: behind' := by
  refine ⟨xs.take k, xs[k], xs.drop (k + 1), ys.drop (k + 1), ?_, ?_, ?_⟩
  · exact List.length_take_of_le (Nat.le_of_lt inside)
  · rw [← List.drop_eq_getElem_cons inside, List.take_append_drop]
  · calc
      ys = ys.take (k + 1) ++ ys.drop (k + 1) := (List.take_append_drop _ _).symm
      _ = (xs.take k ++ [xs[k]]) ++ ys.drop (k + 1) := by rw [same, List.take_succ_eq_append_getElem inside]
      _ = xs.take k ++ xs[k] :: ys.drop (k + 1) := List.append_assoc _ _ _

/-- A rule leaves a suffix of its tokens.  If it succeeds it has taken off at least one, unless it is the rule
    for lists of statements.  If it stops in front of the `k`-th token, with a tree or with a fault, it does
    the same on all tokens that agree with these up to and including the `k`-th one. -/
theorem stops_one_token_ahead (rule : Rule) (depth : Nat) (tokens : List Lexeme) :
    leftover (rule.atDepth depth) tokens <:+ tokens ∧
    (rule ≠ .statements → ∀ v rest, rule.atDepth depth tokens = .ok v rest → rest.length < tokens.length) ∧
    ∀ k < tokens.length, ∀ tokens', tokens'.take (k + 1) = tokens.take (k + 1) →
      (∀ v, rule.atDepth depth tokens = .ok v (tokens.drop k) →
        rule.atDepth depth tokens' = .ok v (tokens'.drop k)) ∧
      ∀ fault, rule.atDepth depth tokens = .error fault (tokens.drop k) →
        rule.atDepth depth tokens' = .error fault (tokens'.drop k) := by
  have ahead : LooksOneAhead (rule.atDepth depth) := rule.looksOneAhead _
  refine ⟨(rule.agrees_ahead _ tokens).trims, fun single => Rule.advances single _ tokens, ?_⟩
  intro k inside tokens' same
  obtain ⟨used, next, behind, behind', rfl, rfl, rfl⟩ := exists_of_take_succ_eq inside same
  rw [List.drop_left, List.drop_left]
  exact ⟨fun v done => ahead.ok done behind', fun fault failed => ahead.error failed behind'⟩

/-- `x = a` in front of a semicolon is read up to there, whatever is behind the semicolon. -/
theorem stops_one_token_ahead_assignment :
    let shared : List Lexeme := [⟨.name "x", 1⟩, ⟨.symbol .assign, 1⟩, ⟨.name "a", 1⟩, ⟨.symbol .semicolon, 1⟩]
    let tree : Node := .binary (.name "x" 1) .assign (.name "a" 1) 1
    Rule.statement.atDepth 0 (shared ++ [⟨.symbol .plus, 1⟩]) = .ok tree [⟨.symbol .semicolon, 1⟩, ⟨.symbol .plus, 1⟩] ∧
    ∀ behind, Rule.statement.atDepth 0 (shared ++ behind) = .ok tree (⟨.symbol .semicolon, 1⟩ :: behind) := by
  intro shared tree
  have read : Rule.statement.atDepth 0 (shared ++ [⟨.symbol .plus, 1⟩]) =
      .ok tree [⟨.symbol .semicolon, 1⟩, ⟨.symbol .plus, 1⟩] := by rfl
  refine ⟨read, fun behind => ?_⟩
  obtain ⟨_, _, ahead⟩ := stops_one_token_ahead .statement 0 (shared ++ [⟨.symbol .plus, 1⟩])
  exact (ahead 3 (by decide) (shared ++ behind) rfl).1 tree read

end SmallScript.Grammar
