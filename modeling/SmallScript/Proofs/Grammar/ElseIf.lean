import SmallScript.Proofs.Grammar.Traversal

/-! # `elif` is `else if`

A conditional goes on with `elif` or with `else if`, and it makes no difference which: any `elif`s of a
script can be written as two words, wherever they stand, and the script is read as the same trees or is
refused on the same line for the same reason.  Only if one of these words is itself the refused token do the
faults name different words.

* `writeApart chosen tokens` has two words for the `elif`s at the chosen positions.
* `BlindAt chosen parser row`: on these tokens the parser does not see which way an `elif` is written.  Tokens
  carry their positions here, so that a part of a row still says which ones were chosen.
* `Comparison.spelling chosen` compares a run with the one on the other spelling, so `rules_agree_self` holds of it.

The one rule that reads either word is the one for what follows a block, in `BlindAt.elif`.  It opens a level in
front of `elif`, or in front of the `if` behind `else`, and both stand on the same line.  All other rules go on
in front of `else` as in front of `elif`.
-/

namespace SmallScript.Grammar

open SmallScript.Grammar.Parser

/-! ## Two spellings -/

/-- What stands for a token where `elif` is written as two words. -/
def asTwoWords : Lexeme → List Lexeme
  | ⟨.symbol .elifWord, l⟩ => [⟨.symbol .elseWord, l⟩, ⟨.symbol .ifWord, l⟩]
  | t => [t]

/-- Tokens with their positions. -/
abbrev Row := List (Lexeme × Nat)

def joined (row : Row) : List Lexeme :=
  row.map Prod.fst

/-- The tokens with two words for each `elif` at a chosen position. -/
def apart (chosen : Nat → Bool) (row : Row) : List Lexeme :=
  row.flatMap fun (t, k) => if chosen k then asTwoWords t else [t]

/-- A script with two words for each `elif` at a chosen position, counted from 0. -/
def writeApart (chosen : Nat → Bool) (tokens : List Lexeme) : List Lexeme :=
  apart chosen tokens.zipIdx

variable {chosen : Nat → Bool}

theorem asTwoWords_of_ne {t : Lexeme} (other : t.token ≠ .symbol .elifWord) : asTwoWords t = [t] := by
  unfold asTwoWords
  split
  next => exact absurd rfl other
  next => rfl

theorem apart_cons_of_ne {t : Lexeme} (other : t.token ≠ .symbol .elifWord) (k : Nat) (row : Row) :
    apart chosen ((t, k) :: row) = t :: apart chosen row := by
  simp [apart, asTwoWords_of_ne other]

theorem apart_cons_of_not_chosen {k : Nat} (kept : chosen k = false) (t : Lexeme) (row : Row) :
    apart chosen ((t, k) :: row) = t :: apart chosen row := by
  simp [apart, kept]

theorem apart_cons_of_chosen {k : Nat} (here : chosen k = true) (l : Nat) (row : Row) :
    apart chosen ((⟨.symbol .elifWord, l⟩, k) :: row) =
      ⟨.symbol .elseWord, l⟩ :: ⟨.symbol .ifWord, l⟩ :: apart chosen row := by
  simp [apart, here, asTwoWords]

/-- A token stays as it is, or it is an `elif` that is written apart. -/
theorem apart_cons_cases (chosen : Nat → Bool) (t : Lexeme) (k : Nat) (row : Row) :
    apart chosen ((t, k) :: row) = t :: apart chosen row ∨
      chosen k = true ∧ ∃ l, t = ⟨.symbol .elifWord, l⟩ := by
  by_cases other : t.token = .symbol .elifWord
  · cases here : chosen k with
    | false => exact .inl (apart_cons_of_not_chosen here t row)
    | true => exact .inr ⟨rfl, t.line, congrArg (Lexeme.mk · t.line) other⟩
  · exact .inl (apart_cons_of_ne other k row)

theorem length_joined_le (chosen : Nat → Bool) (row : Row) : (joined row).length ≤ (apart chosen row).length := by
  induction row with
  | nil => exact Nat.le_refl 0
  | cons item row ih =>
    obtain ⟨t, k⟩ := item
    change (joined row).length + 1 ≤ _
    obtain kept | ⟨here, l, rfl⟩ := apart_cons_cases chosen t k row
    · rw [kept, List.length_cons]
      omega
    · rw [apart_cons_of_chosen here, List.length_cons, List.length_cons]
      omega

theorem joined_dropSemicolons (row : Row) :
    (joined row).dropWhile (·.token = .symbol .semicolon) = joined (row.dropWhile (·.1.token = .symbol .semicolon)) :=
  List.dropWhile_map ..

theorem apart_dropSemicolons (chosen : Nat → Bool) (row : Row) :
    (apart chosen row).dropWhile (·.token = .symbol .semicolon) =
      apart chosen (row.dropWhile (·.1.token = .symbol .semicolon)) := by
  induction row with
  | nil => rfl
  | cons item row ih =>
    obtain ⟨t, k⟩ := item
    obtain kept | ⟨here, l, rfl⟩ := apart_cons_cases chosen t k row
    · rw [kept, List.dropWhile_cons, List.dropWhile_cons, ih]
      split
      · rfl
      · exact kept.symm
    · rw [apart_cons_of_chosen here]
      exact (apart_cons_of_chosen here l row).symm

/-- Neither word is part of the start of an assignment. -/
theorem target?_apart (chosen : Nat → Bool) (row : Row) : target? (apart chosen row) = target? (joined row) := by
  match row with
  | [] => rfl
  | (⟨token, l⟩, k) :: row =>
    obtain kept | ⟨here, _, equal⟩ := apart_cons_cases chosen ⟨token, l⟩ k row
    · rw [kept]
      cases token with
      | name n =>
        match row with
        | [] => rfl
        | (⟨token', l'⟩, k') :: row =>
          obtain kept' | ⟨here, _, equal⟩ := apart_cons_cases chosen ⟨token', l'⟩ k' row
          · rw [kept']
            -- only an `=` in the second place makes a difference, and it is spelled the same
            cases token' with
            | symbol s => cases s <;> rfl
            | _ => rfl
          · cases equal
            rw [apart_cons_of_chosen here]
            rfl
      | _ => rfl
    · cases equal
      rw [apart_cons_of_chosen here]
      rfl

/-! ## Blind parsers -/

/-- The faults are the same, or they are about an `elif` that is written apart. -/
inductive SameFault (chosen : Nat → Bool) : Row → SyntaxFault → SyntaxFault → Prop where
  | same {rest fault} : SameFault chosen rest fault fault
  | apart {l k rest expected} (here : chosen k = true) :
      SameFault chosen ((⟨.symbol .elifWord, l⟩, k) :: rest)
        ⟨.unexpected expected (.symbol .elifWord), l⟩ ⟨.unexpected expected (.symbol .elseWord), l⟩

/-- On these tokens the parser does the same whichever way the chosen `elif`s are written. -/
inductive BlindAt (chosen : Nat → Bool) {α : Type} (x : Parser α) (row : Row) : Prop where
  | ok {v rest} (suffix : rest <:+ row) (before : x (joined row) = .ok v (joined rest))
      (after : x (apart chosen row) = .ok v (apart chosen rest))
  | error {fault fault' rest left} (suffix : rest <:+ row) (before : x (joined row) = .error fault (joined rest))
      (after : x (apart chosen row) = .error fault' left) (same : SameFault chosen rest fault fault')

namespace BlindAt

variable {α β : Type} {row : Row}

/-- Parsers that do on these tokens what others do, perhaps after some tokens. -/
theorem of_eq {x y : Parser α} {rest : Row} (blind : BlindAt chosen y rest) (suffix : rest <:+ row)
    (before : x (joined row) = y (joined rest)) (after : x (apart chosen row) = y (apart chosen rest)) :
    BlindAt chosen x row := by
  cases blind with
  | ok left done done' => exact .ok (left.trans suffix) (before.trans done) (after.trans done')
  | error left failed failed' same =>
    exact .error (left.trans suffix) (before.trans failed) (after.trans failed') same

theorem pure (v : α) : BlindAt chosen (Pure.pure v) row :=
  .ok (List.suffix_refl row) rfl rfl

/-- Parsers that fail do so on the same line, and if the first token is not written apart, with the same
    fault. -/
theorem fail {cause : Token → SyntaxCause}
    (replaced : ∀ {l k rest}, chosen k = true → SameFault chosen ((⟨.symbol .elifWord, l⟩, k) :: rest)
      ⟨cause (.symbol .elifWord), l⟩ ⟨cause (.symbol .elseWord), l⟩) :
    BlindAt chosen (Parser.fail cause : Parser α) row := by
  refine .error (List.suffix_refl row) rfl rfl ?_
  rcases row with _ | ⟨⟨t, k⟩, row⟩
  · exact .same
  · obtain kept | ⟨here, l, rfl⟩ := apart_cons_cases chosen t k row
    · rw [kept]
      exact .same
    · rw [apart_cons_of_chosen here]
      exact replaced here

theorem tooDeep : BlindAt chosen (Parser.fail fun _ => .nestedTooDeep : Parser α) row :=
  fail fun _ => .same

theorem bind {x : Parser α} {next : α → Parser β} (first : BlindAt chosen x row)
    (onward : ∀ {v rest}, x (joined row) = .ok v (joined rest) → BlindAt chosen (next v) rest) :
    BlindAt chosen (x >>= next) row := by
  cases first with
  | ok suffix before after => exact (onward before).of_eq suffix (bind_of_ok before) (bind_of_ok after)
  | error suffix before after same => exact .error suffix (bind_of_error before) (bind_of_error after) same

/-- A token that stays as it is can be taken off. -/
theorem skip {t : Lexeme} {k : Nat} (kept : apart chosen ((t, k) :: row) = t :: apart chosen row) :
    BlindAt chosen Parser.skip ((t, k) :: row) :=
  .ok (v := ()) (List.suffix_cons _ _) rfl (congrArg Parser.skip kept)

theorem semicolons : BlindAt chosen Grammar.semicolons row := by
  refine .ok (v := ()) (List.dropWhile_suffix (·.1.token = .symbol .semicolon)) ?_ ?_
  · exact congrArg (EStateM.Result.ok ()) (joined_dropSemicolons row)
  · exact congrArg (EStateM.Result.ok ()) (apart_dropSemicolons chosen row)

/-- Parsers that look at the first token, and go on in front of `else` as in front of `elif`. -/
theorem peek {next : Option Lexeme → Parser α}
    (alike : ∀ l, (joined row).head? = some ⟨.symbol .elifWord, l⟩ →
      next (some ⟨.symbol .elseWord, l⟩) = next (some ⟨.symbol .elifWord, l⟩))
    (onward : BlindAt chosen (next (joined row).head?) row) : BlindAt chosen (Parser.peek >>= next) row := by
  refine onward.of_eq (List.suffix_refl row) rfl ?_
  rcases row with _ | ⟨⟨t, k⟩, row⟩
  · rfl
  · obtain kept | ⟨here, l, rfl⟩ := apart_cons_cases chosen t k row
    · rw [kept]
      rfl
    · rw [apart_cons_of_chosen here]
      exact congrFun (alike l rfl) _

theorem target {next : Option (String × Nat × Nat) → Parser α}
    (onward : BlindAt chosen (next (target? (joined row))) row) :
    BlindAt chosen (get >>= fun tokens => next (target? tokens)) row := by
  refine onward.of_eq (List.suffix_refl row) rfl ?_
  rw [get_bind, target?_apart]

/-- Written apart, the tokens are more, and a loop has more rounds.  It does not need them. -/
theorem upTo {loop : Nat → Parser α} (enough : Enough loop)
    (blind : ∀ rounds, (joined row).length < rounds → BlindAt chosen (loop rounds) row) :
    BlindAt chosen (Parser.upTo loop) row := by
  have more := Nat.lt_succ_of_le (length_joined_le chosen row)
  exact (blind _ more).of_eq (List.suffix_refl row) (enough (Nat.lt_succ_self _) more) rfl

/-- `elif` and the `if` behind `else` open a level on the same line, and what follows them is read in the
    same way. -/
theorem elif {below : Option Rules} {k l : Nat} (onward : ∀ rules ∈ below, BlindAt chosen (rules.conditional l) row) :
    BlindAt chosen (alternative below) ((⟨.symbol .elifWord, l⟩, k) :: row) := by
  have after : alternative below (apart chosen ((⟨.symbol .elifWord, l⟩, k) :: row)) =
      continued below l (⟨.symbol (if chosen k then .ifWord else .elifWord), l⟩ :: apart chosen row) := by
    cases here : chosen k with
    | true => exact congrArg (alternative below) (apart_cons_of_chosen here l row)
    | false => exact congrArg (alternative below) (apart_cons_of_not_chosen here _ row)
  cases below with
  | none => exact .error (List.suffix_refl _) rfl after .same
  | some rules =>
    have tail : BlindAt chosen (do return some (← rules.conditional l)) row := (onward rules rfl).bind fun _ => .pure _
    exact tail.of_eq (List.suffix_cons _ _) rfl after

end BlindAt

/-- The second run is on the same tokens with two words for each chosen `elif`. -/
def Comparison.spelling (chosen : Nat → Bool) : Comparison id where
  At _ tokens x _ := ∀ row, tokens = joined row → BlindAt chosen x row
  spare := False
  cuts := False
  blind := True
  -- one rule on two spellings: only the first run is looked at by the shared walk
  plain := False.elim
  pure v _ _ := .pure v
  refuse _ _ _ := .fail .apart
  tooDeep _ _ _ := .tooDeep
  skip := by
    rintro _ _ t other (_ | ⟨⟨t, k⟩, row⟩) ⟨⟩
    exact .skip (apart_cons_of_ne (other trivial) k row)
  semicolons _ _ := .semicolons
  bind := by
    rintro _ _ _ _ _ _ _ _ _ _ first next - row rfl
    refine (first row rfl).bind fun read => ?_
    obtain ⟨_, _, _, onward⟩ := next read
    exact onward _ rfl
  peek := by
    rintro _ _ _ _ _ _ alike - onward row rfl
    exact .peek (alike trivial) (onward row rfl)
  target := by
    rintro _ _ _ _ _ _ - - onward row rfl
    exact .target (onward row rfl)
  upTo := by
    rintro _ _ _ _ _ _ enough - blind row rfl
    exact .upTo enough fun rounds more => blind rounds more row rfl
  opening := False.elim
  brace := False.elim
  elif := by
    rintro _ _ l _ _ - onward (_ | ⟨⟨t, k⟩, row⟩) ⟨⟩
    refine .elif fun rules member => ?_
    obtain ⟨_, blind⟩ := onward rules member
    exact blind row rfl

/-! ## Scripts -/

theorem blindAt_program (chosen : Nat → Bool) (row : Row) : BlindAt chosen program row := by
  have agree : RulesAgree (.spelling chosen) nestingLimit 0 (rules nestingLimit) (rules nestingLimit) :=
    rules_agree_self _ id (Nat.le_of_eq (Nat.zero_add _)) False.elim
  exact (agrees_programWith agree).holds row rfl

/-- A part of a script starts where its first position says. -/
theorem joined_eq_drop {tokens : List Lexeme} {t : Lexeme} {k : Nat} {rest : Row}
    (suffix : (t, k) :: rest <:+ tokens.zipIdx) : joined ((t, k) :: rest) = tokens.drop k := by
  obtain ⟨before, split⟩ := suffix
  have position : k = before.length := by
    have found : tokens.zipIdx[before.length]? = some (t, k) := by simp [← split]
    rw [List.getElem?_zipIdx, Option.map_eq_some_iff] at found
    obtain ⟨_, _, equal⟩ := found
    cases equal
    exact Nat.zero_add _
  have whole : joined before ++ joined ((t, k) :: rest) = tokens := by
    rw [joined, joined, ← List.map_append, split, List.zipIdx_map_fst]
  rw [← whole, List.drop_left' (by rw [joined, List.length_map, position])]

/-- Any `elif`s of a script can be written as `else if` on the same line.  The script is read as the same
    statements, or it is refused both ways, with the same fault unless the refused token is an `elif` that
    is written apart: then only the word that was found is a different one. -/
theorem parseTokens_writeApart (chosen : Nat → Bool) (tokens : List Lexeme) :
    (∀ statements, parseTokens tokens = .ok statements ↔
      parseTokens (writeApart chosen tokens) = .ok statements) ∧
    ∀ fault fault', parseTokens tokens = .error fault → parseTokens (writeApart chosen tokens) = .error fault' →
      fault' = fault ∨
      ∃ k l expected, chosen k = true ∧ tokens[k]? = some ⟨.symbol .elifWord, l⟩ ∧
        program tokens = .error fault (tokens.drop k) ∧
        fault = ⟨.unexpected expected (.symbol .elifWord), l⟩ ∧
        fault' = ⟨.unexpected expected (.symbol .elseWord), l⟩ := by
  have plain : joined tokens.zipIdx = tokens := List.zipIdx_map_fst 0 tokens
  cases blindAt_program chosen tokens.zipIdx with
  | @ok xs rest suffix before after =>
    rw [plain] at before
    have read : parseTokens tokens = .ok xs := by simp only [parseTokens, before]
    have read' : parseTokens (writeApart chosen tokens) = .ok xs := by simp only [parseTokens, writeApart, after]
    simp [read, read']
  | @error fault fault' rest left suffix before after same =>
    rw [plain] at before
    have refused : parseTokens tokens = .error fault := by simp only [parseTokens, before]
    have refused' : parseTokens (writeApart chosen tokens) = .error fault' := by
      simp only [parseTokens, writeApart, after]
    refine ⟨by simp [refused, refused'], fun _ _ failed failed' => ?_⟩
    cases refused.symm.trans failed
    cases refused'.symm.trans failed'
    cases same with
    | same => exact .inl rfl
    | apart here =>
      have there := joined_eq_drop suffix
      -- the two faults differ at a chosen `elif` only, where reading has stopped
      refine .inr ⟨_, _, _, here, ?_, there ▸ before, rfl, rfl⟩
      rw [← List.head?_drop, ← there]
      rfl

/-- A chain that is read both ways, and the same chain with an `else` in front of its `elif`. -/
theorem parseTokens_writeApart_misplaced :
    let start : List Lexeme := [⟨.symbol .ifWord, 1⟩, ⟨.symbol .openParen, 1⟩, ⟨.name "p", 1⟩,
      ⟨.symbol .closeParen, 1⟩, ⟨.symbol .openBrace, 1⟩, ⟨.symbol .closeBrace, 1⟩]
    let others : List Lexeme := [⟨.symbol .elifWord, 2⟩, ⟨.symbol .openParen, 2⟩, ⟨.name "q", 2⟩,
      ⟨.symbol .closeParen, 2⟩, ⟨.symbol .openBrace, 2⟩, ⟨.symbol .closeBrace, 2⟩, ⟨.endOfInput, 2⟩]
    let wrong := start ++ ⟨.symbol .elseWord, 1⟩ :: others
    let empty : Node := .block [] none
    let fault : SyntaxFault := ⟨.unexpected (.symbol .openBrace) (.symbol .elifWord), 2⟩
    let fault' : SyntaxFault := ⟨.unexpected (.symbol .openBrace) (.symbol .elseWord), 2⟩
    parseTokens (writeApart (fun _ => true) (start ++ others)) =
      .ok [.conditional (.name "p" 1) empty (some (.conditional (.name "q" 2) empty none 2)) 1] ∧
    parseTokens wrong = .error fault ∧ parseTokens (writeApart (fun _ => true) wrong) = .error fault' ∧
    ∃ k, wrong[k]? = some ⟨.symbol .elifWord, 2⟩ ∧ program wrong = .error fault (wrong.drop k) := by
  intro start others wrong empty fault fault'
  have refused : parseTokens wrong = .error fault := by rfl
  have refused' : parseTokens (writeApart (fun _ => true) wrong) = .error fault' := by rfl
  refine ⟨((parseTokens_writeApart _ (start ++ others)).1 _).mp rfl, refused, refused', ?_⟩
  rcases (parseTokens_writeApart _ wrong).2 fault fault' refused refused' with same | replaced
  · exact absurd same (by simp [fault, fault'])
  · obtain ⟨k, l, _, _, there, stopped, equal, _⟩ := replaced
    obtain rfl : 2 = l := congrArg Fault.line equal
    exact ⟨k, there, stopped⟩

end SmallScript.Grammar
