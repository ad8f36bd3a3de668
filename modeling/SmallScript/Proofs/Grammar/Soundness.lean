import SmallScript.Proofs.Grammar.Traversal

/-! # What is read is derivable

A single run of the rules, taken from `Traversal` with nothing to compare it with.

* `rules_sound`: where a rule succeeds, the tokens that it has taken off are the phrase that it returns.
* `rules_locate`: where it fails, its fault is about the token that it has left in place, and the tokens before
  that one are the start of a phrase.

Where the room is used up, a rule fails in front of the token that would have opened a level.  The tokens
before it can be continued without that level, or with it under a higher limit: so the derivations of
`rules_locate` have room for one level more than the rules.
-/

namespace SmallScript.Grammar

open SmallScript.Grammar.Parser

/-- The rules for what is read at `depth` are those with as much room as is left there. -/
theorem rules_sound (limit depth room : Nat) (left : depth + room ≤ limit) :
    RulesAgree (.idle id False False False.elim) limit depth (rules room) (rules room) :=
  rules_agree_self _ id left False.elim

/-- The rules fail at the right tokens, if the grammar has room for one level more than they have. -/
theorem rules_locate (limit depth room : Nat) (left : depth + room < limit) :
    RulesAgree (.idle id True False False.elim) limit depth (rules room) (rules room) :=
  rules_agree_self _ id (Nat.le_of_lt left) fun _ => left

/-- A script that is read is a sentence of the grammar. -/
theorem sentence_of_program {tokens rest : List Lexeme} {statements : List Node}
    (read : program tokens = .ok statements rest) :
    ∃ used, tokens = used ++ rest ∧ Sentence nestingLimit statements used := by
  have agree := rules_sound nestingLimit 0 nestingLimit (Nat.le_of_eq (Nat.zero_add _))
  exact (agrees_programWith agree).reads statements rest read

/-- Where a script cannot be read, what has been read of it is the start of a list of statements. -/
theorem fails_program {tokens rest : List Lexeme} {fault : SyntaxFault}
    (refused : program tokens = .error fault rest) :
    Located fault rest ∧ ∃ used, tokens = used ++ rest ∧
      Viable (fun xs => Derives (nestingLimit + 1) 0 (.statements xs)) used := by
  have agree := rules_locate (nestingLimit + 1) 0 nestingLimit (by omega)
  obtain ⟨located, used, split, viable⟩ := (agrees_programWith agree).fails fault rest refused
  exact ⟨located, used, split, viable trivial⟩

/-! ## The end of the input -/

theorem Parameters.ne_endOfInput {ns : List String} {ts : List Lexeme} (params : Parameters ns ts) :
    ∀ t ∈ ts, t.token ≠ .endOfInput := by
  cases params with
  | none => simp
  | some names =>
    induction names with
    | last item =>
      obtain ⟨l, rfl⟩ := item
      simp
    | next item _ ih =>
      obtain ⟨l, rfl⟩ := item
      simpa using ih

/-- The end of the input stands in no phrase. -/
theorem Derives.ne_endOfInput {limit d : Nat} {phrase : Phrase} {ts : List Lexeme}
    (h : Derives limit d phrase ts) : ∀ t ∈ ts, t.token ≠ .endOfInput := by
  induction h with
  | function params _ ih =>
    have names := params.ne_endOfInput
    grind
  | _ => grind

/-- A script that cannot be read is refused at one of its tokens. -/
theorem ne_nil_of_refused {tokens rest : List Lexeme} {fault : SyntaxFault} {l : Nat}
    (ends : ⟨.endOfInput, l⟩ ∈ tokens) (refused : program tokens = .error fault rest) : rest ≠ [] := by
  rintro rfl
  obtain ⟨_, used, split, xs, more, content⟩ := fails_program refused
  rw [List.append_nil] at split
  exact content.ne_endOfInput _ (List.mem_append_left more (split ▸ ends)) rfl

theorem exists_rest_of_refused {tokens : List Lexeme} {fault : SyntaxFault}
    (refused : parseTokens tokens = .error fault) : ∃ rest, program tokens = .error fault rest := by
  unfold parseTokens at refused
  cases read : program tokens with
  | ok statements rest => rw [read] at refused; cases refused
  | error fault' rest => rw [read] at refused; cases refused; exact ⟨rest, rfl⟩

/-- The line of the fault is the line of a token. -/
theorem line_of_refused {tokens : List Lexeme} {fault : SyntaxFault} {l : Nat}
    (ends : ⟨.endOfInput, l⟩ ∈ tokens) (refused : parseTokens tokens = .error fault) :
    ∃ t ∈ tokens, fault.line = t.line := by
  obtain ⟨rest, stops⟩ := exists_rest_of_refused refused
  obtain ⟨located, used, rfl, _⟩ := fails_program stops
  obtain ⟨t, others, rfl⟩ := List.exists_cons_of_ne_nil (ne_nil_of_refused ends stops)
  exact ⟨t, List.mem_append_right used List.mem_cons_self, located.line⟩

end SmallScript.Grammar
