import SmallScript.Proofs.Grammar.Traversal

/-! # More room

How many levels may be opened makes no difference until there are too few.  A run with less room does what one
with more room does on the same tokens, unless it is cut off, and then something is known about the place:

* `Halted`: there the run with more room takes off a token that opens a level, or it refuses the same token
  because a brace is missing.  A block takes its level before it looks for the brace.
* `Comparison.deeper` is the comparison of the two runs, so `rules_agree` holds of it.
-/

namespace SmallScript.Grammar

open SmallScript.Grammar.Parser
open Renumber (renumber)

def braceMissing (rest : List Lexeme) : SyntaxFault :=
  ⟨.unexpected (.symbol .openBrace) (tokenOf rest), lineOf rest⟩

variable {α β : Type} {before tokens : List Lexeme}

/-- A run with less room than `parser` is cut off in front of `rest`. -/
inductive Halted (parser : Parser α) (before tokens : List Lexeme) : List Lexeme → Prop where
  /-- There a token opens a level, and with more room it is taken off. -/
  | opening (used : List Lexeme) {t others} (split : tokens = used ++ t :: others)
      (opens : OpensLevel (before ++ used) t.token) (further : leftover parser tokens <:+ others) :
      Halted parser before tokens (t :: others)
  /-- There a brace is missing, and with more room that is the fault. -/
  | missing (used : List Lexeme) {rest} (split : tokens = used ++ rest) (other : symbol? rest ≠ some .openBrace)
      (refused : parser tokens = .error (braceMissing rest) rest) : Halted parser before tokens rest

theorem Halted.further {parser : Parser α} {rest : List Lexeme} (halted : Halted parser before tokens rest) :
    leftover parser tokens <:+ rest := by
  cases halted with
  | @opening used t others _ _ further => exact further.trans (List.suffix_cons t others)
  | missing _ _ _ refused => exact ⟨[], leftover_of_error refused⟩

/-- A block without room is cut off in front of its brace, or where that is missing. -/
theorem Halted.brace {y : Parser α}
    (onward : ∀ {l us}, tokens = ⟨.symbol .openBrace, l⟩ :: us → leftover y us <:+ us) :
    Halted (expect .openBrace >>= fun _ => y) before tokens tokens := by
  by_cases brace : symbol? tokens = some .openBrace
  · obtain ⟨l, us, rfl⟩ := exists_of_symbol?_eq_some brace
    exact .opening [] rfl .brace (onward rfl)
  · refine .missing [] rfl brace (bind_of_error ?_)
    unfold expect
    rw [bind_of_ok (peekSymbol_eq tokens), if_neg brace]
    rfl

/-- The second parser does what the first one does, up to where that is cut off. -/
structure OutlastsAt (before tokens : List Lexeme) (x y : Parser α) : Prop where
  ok : ∀ {v rest}, x tokens = .ok v rest → y tokens = .ok v rest
  error : ∀ {fault rest}, x tokens = .error fault rest → fault.cause ≠ .nestedTooDeep → y tokens = .error fault rest
  halted : ∀ {fault rest}, x tokens = .error fault rest → fault.cause = .nestedTooDeep → Halted y before tokens rest

namespace OutlastsAt

theorem of_ok {x y : Parser α} {v : α} {rest : List Lexeme} (read : x tokens = .ok v rest)
    (read' : y tokens = .ok v rest) : OutlastsAt before tokens x y := by
  refine ⟨fun done => ?_, fun failed => ?_, fun failed => ?_⟩
  · rw [read', ← done, read]
  · cases read.symm.trans failed
  · cases read.symm.trans failed

/-- Parsers that do on these tokens what others do. -/
theorem of_eq {x y x' y' : Parser α} (outlasts : OutlastsAt before tokens x y) (left : x' tokens = x tokens)
    (right : y' tokens = y tokens) : OutlastsAt before tokens x' y' where
  ok done := right.trans (outlasts.ok (left.symm.trans done))
  error failed other := right.trans (outlasts.error (left.symm.trans failed) other)
  halted failed deep := by
    cases outlasts.halted (left.symm.trans failed) deep with
    | opening used split opens further =>
      refine .opening used split opens ?_
      rwa [leftover, right]
    | missing used split other refused => exact .missing used split other (right.trans refused)

theorem refuse (expected : Expectation) :
    OutlastsAt before tokens (Parser.refuse expected : Parser α) (Parser.refuse expected) := by
  refine ⟨fun done => done, fun failed _ => failed, ?_⟩
  rintro _ _ ⟨⟩ ⟨⟩

/-- The first run is cut off at once. -/
theorem tooDeep {y : Parser α} (halted : Halted y before tokens tokens) :
    OutlastsAt before tokens (fail fun _ => .nestedTooDeep) y := by
  refine ⟨nofun, ?_, ?_⟩
  · rintro _ _ ⟨⟩ other
    exact absurd rfl other
  · rintro _ _ ⟨⟩ _
    exact halted

theorem bind {x y : Parser α} {k k' : α → Parser β} (first : OutlastsAt before tokens x y)
    (next : ∀ {v rest}, x tokens = .ok v rest → ∃ used, tokens = used ++ rest ∧
      OutlastsAt (before ++ used) rest (k v) (k' v))
    (further : leftover (y >>= k') tokens <:+ leftover y tokens) :
    OutlastsAt before tokens (x >>= k) (y >>= k') where
  ok := by
    intro w rest done
    obtain ⟨v, middle, read, onward⟩ := bind_eq_ok.mp done
    obtain ⟨_, _, outlasts⟩ := next read
    exact (bind_of_ok (first.ok read)).trans (outlasts.ok onward)
  error := by
    intro fault rest failed other
    rcases bind_eq_error failed with here | ⟨v, middle, read, later⟩
    · exact bind_of_error (first.error here other)
    · obtain ⟨_, _, outlasts⟩ := next read
      exact (bind_of_ok (first.ok read)).trans (outlasts.error later other)
  halted := by
    intro fault rest failed deep
    rcases bind_eq_error failed with here | ⟨v, middle, read, later⟩
    · cases first.halted here deep with
      | opening used split opens taken => exact .opening used split opens (further.trans taken)
      | missing used split other refused => exact .missing used split other (bind_of_error refused)
    · obtain ⟨used, rfl, outlasts⟩ := next read
      -- with more room the first half reads the same, so the second one starts at the same place
      have read' := first.ok read
      cases outlasts.halted later deep with
      | opening used' split opens taken =>
        refine .opening (used ++ used') (by rw [split, List.append_assoc]) ?_ ?_
        · rwa [← List.append_assoc]
        · rwa [leftover_bind_of_ok read']
      | missing used' split other refused =>
        exact .missing (used ++ used') (by rw [split, List.append_assoc]) other ((bind_of_ok read').trans refused)

end OutlastsAt

def Comparison.deeper : Comparison id where
  At := OutlastsAt
  spare := False
  cuts := True
  blind := False
  -- both runs read the same tokens, and only the first one is cut off
  plain _ := rfl
  pure v := by
    rw [Renumber.renumber_id]
    exact .of_ok rfl rfl
  refuse := .refuse
  tooDeep same := absurd trivial same
  skip _ := .of_ok rfl rfl
  semicolons := .of_ok rfl rfl
  bind first next further := by
    refine first.bind (fun read => ?_) (further rfl)
    obtain ⟨used, split, _, onward⟩ := next read
    rw [Renumber.renumber_id] at onward
    exact ⟨used, split, onward⟩
  peek _ _ outlasts := by
    rw [Renumber.renumber_id] at outlasts
    exact outlasts.of_eq rfl rfl
  target _ _ outlasts := by
    rw [Renumber.renumber_id] at outlasts
    exact outlasts.of_eq rfl rfl
  upTo _ _ outlasts := (outlasts _ (Nat.lt_succ_self _)).of_eq rfl rfl
  opening _ opens further := by
    refine .tooDeep (.opening [] rfl ?_ further)
    rwa [List.append_nil]
  brace _ onward := .tooDeep (.brace onward)
  elif := False.elim

/-- Rules do what those with more room do, up to where they are cut off. -/
theorem rules_outlast {room room' : Nat} (more : room < room') :
    RulesAgree .deeper room' 0 (rules room) (rules room') :=
  rules_agree _ trivial more (Nat.le_of_eq (Nat.zero_add room'))

end SmallScript.Grammar
