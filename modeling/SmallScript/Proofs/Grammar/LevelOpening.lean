import SmallScript.Proofs.Grammar.Diagnosis

/-! # Where the nesting limit stops reading

Reading stops for its nesting in front of a token that would open one level too many.  A token opens a level
or not depending on where it stands, and `OpensLevel before token` says so from the tokens before it.  There is
one place where reading stops although nothing opens a level there: a block takes its level before it looks
for the brace.  With all levels taken, a missing brace is therefore reported as too much nesting.
`nestedTooDeep_at_opening_or_missing_brace` says that there is no other such place.

The argument compares the run with one that has a level more.  `Halted` says what that one does where the first
one is cut off.
-/

namespace SmallScript.Grammar

open SmallScript.Grammar.Parser

/-! ## Tokens that are taken off -/

/-- What is taken off, whether reading succeeds or fails, is the start of a list of statements. -/
theorem exists_derives_of_leftover (room : Nat) (tokens : List Lexeme) :
    ∃ used xs more, tokens = used ++ leftover (rules room).statements tokens ∧
      Derives (room + 1) 0 (.statements xs) (used ++ more) := by
  have list : Agrees _ [] tokens _ _ _ _ := (rules_locate (room + 1) 0 room (by omega)).statements free_nil
  cases run : (rules room).statements tokens with
  | ok xs rest =>
    rw [leftover_of_ok run]
    obtain ⟨used, split, content⟩ := list.reads xs rest run
    exact ⟨used, xs, [], split, by rwa [List.append_nil]⟩
  | error fault rest =>
    rw [leftover_of_error run]
    obtain ⟨_, used, split, viable⟩ := list.fails fault rest run
    obtain ⟨xs, more, content⟩ := viable trivial
    exact ⟨used, xs, more, split, content⟩

/-- A token that is taken off can stand where it stands. -/
theorem grammatical_of_leftover {room : Nat} {tokens used others : List Lexeme} {t : Lexeme}
    (split : tokens = used ++ t :: others) (further : leftover (rules room).statements tokens <:+ others) :
    ∃ more, Grammatical (used ++ t :: more) := by
  obtain ⟨taken, xs, more, split', content⟩ := exists_derives_of_leftover room tokens
  obtain ⟨middle, rfl⟩ := further
  have longer : taken = used ++ t :: middle := by
    have same : taken ++ leftover (rules room).statements tokens =
        (used ++ t :: middle) ++ leftover (rules room).statements tokens := by
      simpa using split'.symm.trans split
    exact List.append_cancel_right same
  subst longer
  refine ⟨middle ++ more ++ [⟨.endOfInput, 0⟩], room + 1, xs, used ++ t :: middle ++ more, 0, ?_, content⟩
  simp

/-- Only the statements of a script are nested, not what follows them. -/
theorem statements_of_nestedTooDeep {tokens rest : List Lexeme} {line : Nat}
    (stops : program tokens = .error ⟨.nestedTooDeep, line⟩ rest) :
    (rules nestingLimit).statements tokens = .error ⟨.nestedTooDeep, line⟩ rest := by
  rcases bind_eq_error stops with here | ⟨xs, middle, _, later⟩
  · exact here
  · rcases middle with _ | ⟨⟨token, l⟩, us⟩
    · cases later
    · cases token <;> cases later

/-! ## Blocks inside blocks -/

/-- A conditional up to where its block has to start. -/
def header : List Lexeme :=
  [⟨.symbol .ifWord, 1⟩, ⟨.symbol .openParen, 1⟩, ⟨.name "a", 1⟩, ⟨.symbol .closeParen, 1⟩]

/-- So many blocks of conditionals, one inside the other, none of which is closed. -/
def openBlocks : Nat → List Lexeme
  | 0 => []
  | levels + 1 => header ++ ⟨.symbol .openBrace, 1⟩ :: openBlocks levels

/-- A list of statements fails with its first statement. -/
theorem statements_of_failed {below : Option Rules} {l : Nat} {us rest : List Lexeme} {fault : SyntaxFault}
    (failed : statement below (⟨.symbol .ifWord, l⟩ :: us) = .error fault rest) :
    (rulesOver below).statements (⟨.symbol .ifWord, l⟩ :: us) = .error fault rest := by
  -- there are no semicolons in front of it
  change (statement below >>= fun x => do separator x; return x :: (← statementsOf (statement below) (us.length + 1)))
    (⟨.symbol .ifWord, l⟩ :: us) = _
  exact bind_of_error failed

/-- The statement that fails inside all blocks makes the outermost one fail. -/
theorem statements_openBlocks (levels room : Nat) {behind rest : List Lexeme} {fault : SyntaxFault}
    (failed : (rules room).statements (header ++ behind) = .error fault rest) :
    (rules (room + levels)).statements (openBlocks levels ++ header ++ behind) = .error fault rest := by
  induction levels with
  | zero => exact failed
  | succ levels ih =>
    have body : block (some (rules (room + levels)))
        (⟨.symbol .openBrace, 1⟩ :: (openBlocks levels ++ header ++ behind)) = .error fault rest :=
      (bind_of_ok (expect_cons _ _ _)).trans (bind_of_error ih)
    have test : condition (some (rules (room + levels)))
        (header.tail ++ ⟨.symbol .openBrace, 1⟩ :: (openBlocks levels ++ header ++ behind)) =
        .ok (.name "a" 1) (⟨.symbol .openBrace, 1⟩ :: (openBlocks levels ++ header ++ behind)) := by rfl
    have branches : conditional (some (rules (room + levels))) 1
        (header.tail ++ ⟨.symbol .openBrace, 1⟩ :: (openBlocks levels ++ header ++ behind)) = .error fault rest :=
      (bind_of_ok test).trans (bind_of_error body)
    exact statements_of_failed branches

theorem refused_of_stops {tokens rest : List Lexeme} {fault : SyntaxFault}
    (stops : program tokens = .error fault rest) : parseTokens tokens = .error fault := by
  unfold parseTokens
  rw [stops]

/-! ## Scripts that are nested too deeply -/

/-- Reading that stops for its nesting stops in front of a token that opens a level, and without a limit the
    script can go on with that token; or it stops where a brace is missing, and any higher limit makes that the
    fault. -/
theorem nestedTooDeep_at_opening_or_missing_brace (tokens : List Lexeme) (line : Nat)
    (refused : parseTokens tokens = .error ⟨.nestedTooDeep, line⟩) :
    ∃ used rest, tokens = used ++ rest ∧ program tokens = .error ⟨.nestedTooDeep, line⟩ rest ∧ line = lineOf rest ∧
      ((∃ t others, rest = t :: others ∧ OpensLevel used t.token ∧ ∃ more, Grammatical (used ++ t :: more)) ∨
        symbol? rest ≠ some .openBrace ∧ (∀ t ∈ rest.head?, ∀ more, ¬ Grammatical (used ++ t :: more)) ∧
          ∀ room > nestingLimit, programWith (rules room) tokens = .error (braceMissing rest) rest) := by
  obtain ⟨rest, stops⟩ := exists_rest_of_refused refused
  have failed := statements_of_nestedTooDeep stops
  obtain ⟨located, _⟩ := fails_program stops
  have deeper {room room' : Nat} (more : room < room') :
      OutlastsAt [] tokens (rules room).statements (rules room').statements :=
    ((rules_outlast more).statements free_nil).holds
  cases (deeper (Nat.lt_succ_self nestingLimit)).halted failed rfl with
  | @opening used t others split opens further =>
    refine ⟨used, t :: others, split, stops, located.line, .inl ⟨t, others, rfl, opens, ?_⟩⟩
    exact grammatical_of_leftover split further
  | missing used split other missing =>
    -- with one level more the fault is another one, which every higher limit keeps
    have refusedWith (room : Nat) (more : room > nestingLimit) :
        programWith (rules room) tokens = .error (braceMissing rest) rest := by
      rcases Nat.lt_or_eq_of_le (Nat.succ_le_of_lt more) with further | same
      · exact bind_of_error ((deeper further).error missing nofun)
      · exact bind_of_error (same ▸ missing)
    refine ⟨used, rest, split, stops, located.line, .inr ⟨other, ?_, refusedWith⟩⟩
    intro t first more
    obtain ⟨others, rfl⟩ := List.head?_eq_some_iff.mp first
    refine not_grammatical_of_programWith (split ▸ refusedWith (nestingLimit + 1) (Nat.lt_succ_self _)) ?_ more
    intro deep
    cases deep

/-- The brace of a block inside 64 others opens a level, and only the limit keeps it from standing there. -/
theorem nestedTooDeep_at_opening_or_missing_brace_block :
    let tokens := openBlocks nestingLimit ++ header ++ [⟨.symbol .openBrace, 1⟩]
    parseTokens tokens = .error ⟨.nestedTooDeep, 1⟩ ∧
    ∃ more, Grammatical (openBlocks nestingLimit ++ header ++ ⟨.symbol .openBrace, 1⟩ :: more) := by
  intro tokens
  have stops : program tokens = .error ⟨.nestedTooDeep, 1⟩ [⟨.symbol .openBrace, 1⟩] :=
    bind_of_error (statements_openBlocks nestingLimit 0 rfl)
  have refused := refused_of_stops stops
  refine ⟨refused, ?_⟩
  obtain ⟨used, rest, split, stops', _, place⟩ := nestedTooDeep_at_opening_or_missing_brace tokens 1 refused
  obtain rfl := (EStateM.Result.error.inj (stops'.symm.trans stops)).2
  obtain rfl : openBlocks nestingLimit ++ header = used := List.append_cancel_right split
  rcases place with ⟨t, others, same, _, start⟩ | ⟨other, _⟩
  · cases same
    exact start
  · exact absurd rfl other

/-- Inside 64 blocks the name behind the condition of `if (a) b` is refused for its nesting.  It opens no level,
    and it cannot stand there whatever the limit is. -/
theorem nestedTooDeep_at_name :
    let tokens := openBlocks nestingLimit ++ header ++ [⟨.name "b", 1⟩, ⟨.endOfInput, 1⟩]
    parseTokens tokens = .error ⟨.nestedTooDeep, 1⟩ ∧
    program tokens = .error ⟨.nestedTooDeep, 1⟩ [⟨.name "b", 1⟩, ⟨.endOfInput, 1⟩] ∧
    ¬ OpensLevel (openBlocks nestingLimit ++ header) (.name "b") ∧
    ∀ more, ¬ Grammatical (openBlocks nestingLimit ++ header ++ ⟨.name "b", 1⟩ :: more) := by
  intro tokens
  have stops : program tokens = .error ⟨.nestedTooDeep, 1⟩ [⟨.name "b", 1⟩, ⟨.endOfInput, 1⟩] :=
    bind_of_error (statements_openBlocks nestingLimit 0 rfl)
  have stopsWith : programWith (rules (1 + nestingLimit)) tokens =
      .error ⟨.unexpected (.symbol .openBrace) (.name "b"), 1⟩ [⟨.name "b", 1⟩, ⟨.endOfInput, 1⟩] :=
    bind_of_error (statements_openBlocks nestingLimit 1 rfl)
  refine ⟨refused_of_stops stops, stops, nofun, not_grammatical_of_programWith stopsWith ?_⟩
  intro deep
  cases deep

end SmallScript.Grammar
