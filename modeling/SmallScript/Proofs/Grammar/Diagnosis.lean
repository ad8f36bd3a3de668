import SmallScript.Proofs.Grammar.Completeness
import SmallScript.Proofs.Grammar.Lookahead
import SmallScript.Proofs.Grammar.MoreRoom

/-! # Syntax faults

A script that cannot be read is refused at the right token: all before it is the start of some script, and
with it no script starts so.  Sentences are taken without a nesting limit here, because the tokens before
the fault need not be the start of a script within the limit.

That a fault does not come too late is a matter of what can be read: if the tokens up to and including the
refused one were the start of a sentence, that sentence would be read with enough room.  But it is refused at
the same token, because a rule looks no further, and with more room as well.
-/

namespace SmallScript.Grammar

open SmallScript.Grammar.Parser

/-! ## Sentences without a limit -/

theorem Derives.of_limit_le {limit limit' d : Nat} (le : limit ≤ limit') {phrase : Phrase} {ts : List Lexeme}
    (h : Derives limit d phrase ts) : Derives limit' d phrase ts := by
  have deeper {d : Nat} (room : d < limit) : d < limit' := Nat.lt_of_lt_of_le room le
  induction h with
  | number => exact .number
  | truth => exact .truth
  | text => exact .text
  | name => exact .name
  | group room _ ih => exact .group (deeper room) ih
  | input => exact .input
  | inputBare => exact .inputBare
  | call room _ ih => exact .call (deeper room) ih
  | callBare room => exact .callBare (deeper room)
  | lastArgument _ ih => exact .lastArgument ih
  | nextArgument _ _ ih₁ ih₂ => exact .nextArgument ih₁ ih₂
  | plain _ ih => exact .plain ih
  | prefixed op room _ ih => exact .prefixed op (deeper room) ih
  | tightest tightest _ ih => exact .tightest tightest ih
  | tighter tighter _ ih => exact .tighter tighter ih
  | single _ ih => exact .single ih
  | joined room _ joins _ ih₁ ih₂ => exact .joined (deeper room) ih₁ joins ih₂
  | loosest _ ih => exact .loosest ih
  | block room _ ih => exact .block (deeper room) ih
  | branches _ _ _ ih₁ ih₂ ih₃ => exact .branches ih₁ ih₂ ih₃
  | noAlternative => exact .noAlternative
  | otherwise _ ih => exact .otherwise ih
  | elseIf room _ ih => exact .elseIf (deeper room) ih
  | elif room _ ih => exact .elif (deeper room) ih
  | print _ ih => exact .print ih
  | ret _ ih => exact .ret ih
  | conditional _ ih => exact .conditional ih
  | loop _ _ ih₁ ih₂ => exact .loop ih₁ ih₂
  | function params _ ih => exact .function params ih
  | assignment _ ih => exact .assignment ih
  | evaluation _ ih => exact .evaluation ih
  | nothing => exact .nothing
  | stray _ ih => exact .stray ih
  | last _ ih => exact .last ih
  | separated _ _ ih₁ ih₂ => exact .separated ih₁ ih₂
  | adjacent closed _ _ ih₁ ih₂ => exact .adjacent closed ih₁ ih₂

/-- The tokens are a script, if nesting is not limited. -/
def Grammatical (tokens : List Lexeme) : Prop :=
  ∃ limit statements, Sentence limit statements tokens

/-- With enough room every sentence is read. -/
theorem Grammatical.exists_read {tokens : List Lexeme} (grammatical : Grammatical tokens) (room : Nat) :
    ∃ room' statements, room < room' ∧ programWith (rules room') tokens = .ok statements [] := by
  obtain ⟨limit, statements, body, line, rfl, content⟩ := grammatical
  refine ⟨max room limit + 1, statements, Nat.lt_succ_of_le (Nat.le_max_left _ _), ?_⟩
  exact programWith_of_sentence ⟨body, line, rfl, content.of_limit_le (Nat.le_succ_of_le (Nat.le_max_right _ _))⟩

/-! ## Scripts that are refused -/

/-- What comes behind the refused token makes no difference. -/
theorem programWith_of_refused {room : Nat} {used others : List Lexeme} {t : Lexeme} {fault : SyntaxFault}
    (refused : programWith (rules room) (used ++ t :: others) = .error fault (t :: others)) (more : List Lexeme) :
    programWith (rules room) (used ++ t :: more) = .error fault (t :: more) := by
  have tracks := (agrees_programWith (rules_look_ahead id (Nat.le_of_eq (Nat.zero_add room)))).holds
    (used ++ [t]) others more rfl
  have stops : programWith (rules room) ((used ++ [t]) ++ others) = .error fault ([t] ++ others) := by
    simpa using refused
  simpa [Renumber.renumber_id] using tracks.error (.inl (List.cons_ne_nil t [])) stops

/-- Nor does more room: the refused token cannot stand there. -/
theorem not_grammatical_of_programWith {room : Nat} {used others : List Lexeme} {t : Lexeme} {fault : SyntaxFault}
    (refused : programWith (rules room) (used ++ t :: others) = .error fault (t :: others))
    (shallow : fault.cause ≠ .nestedTooDeep) (more : List Lexeme) : ¬ Grammatical (used ++ t :: more) := by
  intro grammatical
  -- the sentence is read with enough room, but it starts with the tokens that are refused
  obtain ⟨room', statements, deeper, read⟩ := grammatical.exists_read room
  have outlasts : OutlastsAt [] (used ++ t :: more) (programWith (rules room)) (programWith (rules room')) :=
    (agrees_programWith (rules_outlast deeper)).holds
  cases read.symm.trans (outlasts.error (programWith_of_refused refused more) shallow)

theorem not_grammatical_of_refused {used others : List Lexeme} {t : Lexeme} {fault : SyntaxFault}
    (refused : program (used ++ t :: others) = .error fault (t :: others))
    (shallow : fault.cause ≠ .nestedTooDeep) (more : List Lexeme) : ¬ Grammatical (used ++ t :: more) :=
  not_grammatical_of_programWith (show programWith (rules nestingLimit) _ = _ from refused) shallow more

theorem lineOf_drop (tokens : List Lexeme) (k : Nat) : lineOf (tokens.drop k) = tokens[k]?.elim 0 Lexeme.line := by
  rw [← List.head?_drop]
  cases tokens.drop k <;> rfl

theorem tokenOf_drop (tokens : List Lexeme) (k : Nat) :
    tokenOf (tokens.drop k) = tokens[k]?.elim .endOfInput Lexeme.token := by
  rw [← List.head?_drop]
  cases tokens.drop k <;> rfl

/-- A script that cannot be read is refused at one of its tokens, or behind the last one, and the fault says
    so.  The tokens before it are the start of a script, if nesting is not limited, and together with it
    they are not, unless it is the nesting that is refused. -/
theorem refused_at_first_wrong_token (tokens : List Lexeme) (fault : SyntaxFault)
    (refused : parseTokens tokens = .error fault) :
    ∃ k ≤ tokens.length, program tokens = .error fault (tokens.drop k) ∧
      fault.line = tokens[k]?.elim 0 Lexeme.line ∧
      (fault.cause = .nestedTooDeep ∨ ∃ expected found, fault.cause = .unexpected expected found ∧
        found = tokens[k]?.elim .endOfInput Lexeme.token ∧
        found.describe = tokens[k]?.elim "end of input" fun t => t.token.describe) ∧
      (∃ more, Grammatical (tokens.take k ++ more)) ∧
      (k < tokens.length → fault.cause ≠ .nestedTooDeep →
        ∀ more, ¬ Grammatical (tokens.take (k + 1) ++ more)) := by
  obtain ⟨rest, stops⟩ := exists_rest_of_refused refused
  obtain ⟨located, used, split, xs, more, content⟩ := fails_program stops
  have dropped : tokens.drop used.length = rest := by rw [split, List.drop_left]
  have taken : tokens.take used.length = used := by rw [split, List.take_left]
  refine ⟨used.length, ?_, ?_, ?_, ?_, ?_, ?_⟩
  · rw [split, List.length_append]
    exact Nat.le_add_right _ _
  · rw [dropped, stops]
  · rw [located.line, ← dropped, lineOf_drop]
  · refine located.cause.imp_right ?_
    rintro ⟨expected, cause⟩
    rw [← dropped, tokenOf_drop] at cause
    refine ⟨expected, _, cause, rfl, ?_⟩
    cases tokens[used.length]? <;> rfl
  · rw [taken]
    exact ⟨more ++ [⟨.endOfInput, 0⟩], _, xs, used ++ more, 0, (List.append_assoc _ _ _).symm, content⟩
  · -- one token more is the one that was refused
    intro inside shallow others
    obtain ⟨t, rest', rfl⟩ : ∃ t rest', rest = t :: rest' := by
      rw [← dropped, List.drop_eq_getElem_cons inside]
      exact ⟨_, _, rfl⟩
    have upTo : tokens.take (used.length + 1) = used ++ [t] := by
      rw [split, List.take_length_add_append]
      rfl
    rw [upTo, List.append_assoc]
    exact not_grammatical_of_refused (split ▸ stops) shallow others

/-- In `x = f(b c)` the name `c` is refused, which stands on the second line: `x = f(b` is the start of a
    script and `x = f(b c` is not. -/
theorem refused_at_first_wrong_token_argument :
    let tokens : List Lexeme :=
      [⟨.name "x", 1⟩, ⟨.symbol .assign, 1⟩, ⟨.name "f", 1⟩, ⟨.symbol .openParen, 1⟩, ⟨.name "b", 1⟩,
        ⟨.name "c", 2⟩, ⟨.symbol .closeParen, 2⟩, ⟨.endOfInput, 3⟩]
    parseTokens tokens = .error ⟨.unexpected (.commaOr .closeParen) (.name "c"), 2⟩ ∧
    (∃ more, Grammatical (tokens.take 5 ++ more)) ∧ ∀ more, ¬ Grammatical (tokens.take 6 ++ more) := by
  intro tokens
  have refused : parseTokens tokens = .error ⟨.unexpected (.commaOr .closeParen) (.name "c"), 2⟩ := by rfl
  have stops : program tokens = .error ⟨.unexpected (.commaOr .closeParen) (.name "c"), 2⟩ (tokens.drop 5) := by
    rfl
  obtain ⟨k, le, stops', _, _, start, wrong⟩ := refused_at_first_wrong_token tokens _ refused
  obtain rfl : k = 5 := by
    have left := congrArg List.length (EStateM.Result.error.inj (stops'.symm.trans stops)).2
    simp only [List.length_drop, tokens, List.length_cons, List.length_nil] at left le
    omega
  exact ⟨refused, start, wrong (by decide) nofun⟩

end SmallScript.Grammar
