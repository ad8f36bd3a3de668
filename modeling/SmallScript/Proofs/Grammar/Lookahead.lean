import SmallScript.Proofs.Grammar.Traversal

/-! # What reading depends on

A rule depends on the tokens that it takes off and on the one behind them, and on nothing further.  It
copies line numbers and never looks at them.  Both are the same comparison of two runs.

* `TracksAt lines x y c u u'`: where `x` stops on the tokens `c`, with `u` behind them, `y` stops in the same
  place and in the same way on `c` with other lines and with `u'` behind them.
* `Comparison.ahead lines` is that comparison, so `rules_agree_self` holds of it.

The one place where a rule looks at a second token is the start of an assignment, in `TracksAt.target`.  There
the first token is a name, and what starts with a name takes it off in any case.
-/

namespace SmallScript.Grammar

open SmallScript.Grammar.Parser
open Renumber (renumber)

/-- The first token that is left is known to both runs: it is among those that they share, or neither has
    one. -/
def Ahead (lines : Nat → Nat) (r u u' : List Lexeme) : Prop :=
  r ≠ [] ∨ u = [] ∧ u' = [] ∧ lines 0 = 0

theorem Ahead.append {lines : Nat → Nat} {r u u' : List Lexeme} (ahead : Ahead lines r u u')
    (s : List Lexeme) : Ahead lines (s ++ r) u u' := by
  rcases ahead with shared | ends
  · exact .inl (List.append_ne_nil_of_right_ne_nil s shared)
  · exact .inr ends

theorem eq_nil_of_suffix {r u : List Lexeme} (suffix : r ++ u <:+ u) : r = [] := by
  have short := suffix.length_le
  rw [List.length_append] at short
  exact List.length_eq_zero_iff.mp (by omega)

/-- Both runs start on the tokens `c`, renumbered for the second one, and different tokens follow.  Where
    the first run stops within reach of `c`, the second one stops in the same place. -/
structure TracksAt (lines : Nat → Nat) {α : Type} [Renumber α] (x y : Parser α) (c u u' : List Lexeme) : Prop where
  ok : ∀ {r v}, Ahead lines r u u' → x (c ++ u) = .ok v (r ++ u) →
    y (renumber lines c ++ u') = .ok (renumber lines v) (renumber lines r ++ u')
  error : ∀ {r fault}, Ahead lines r u u' → x (c ++ u) = .error fault (r ++ u) →
    y (renumber lines c ++ u') = .error (renumber lines fault) (renumber lines r ++ u')

namespace TracksAt

variable {lines : Nat → Nat} {α β : Type} [Renumber α] [Renumber β] {c u u' : List Lexeme}

theorem pure (v : α) : TracksAt lines (Pure.pure v) (Pure.pure (renumber lines v)) c u u' := by
  refine ⟨?_, nofun⟩
  intro r v' _ done
  obtain ⟨rfl, rest⟩ := EStateM.Result.ok.inj done
  cases List.append_cancel_right rest
  rfl

/-- What is missing at the first token is missing there in both runs. -/
theorem fail {cause : Token → SyntaxCause} :
    TracksAt lines (Parser.fail cause : Parser α) (Parser.fail cause) c u u' := by
  refine ⟨nofun, ?_⟩
  intro r fault ahead failed
  obtain ⟨rfl, rest⟩ := EStateM.Result.error.inj failed
  cases List.append_cancel_right rest
  cases c with
  | cons t c => rfl
  | nil =>
    obtain ⟨rfl, rfl, zero⟩ := ahead.resolve_left (absurd rfl)
    have line : renumber lines (⟨cause .endOfInput, 0⟩ : SyntaxFault) = ⟨cause .endOfInput, 0⟩ :=
      congrArg (Fault.mk _) zero
    exact congrArg (EStateM.Result.error · []) line.symm

theorem bind {x y : Parser α} {k k' : α → Parser β} (first : TracksAt lines x y c u u')
    (next : ∀ {v rest}, x (c ++ u) = .ok v rest → leftover (k v) rest <:+ rest ∧
      ∀ s, rest = s ++ u → TracksAt lines (k v) (k' (renumber lines v)) s u u') :
    TracksAt lines (x >>= k) (y >>= k') c u u' where
  ok := by
    intro r w ahead done
    obtain ⟨v, middle, read, onward⟩ := bind_eq_ok.mp done
    obtain ⟨trims, tracks⟩ := next read
    -- what the second parser leaves is a suffix of what the first one leaves
    obtain ⟨s, rfl⟩ : r ++ u <:+ middle := leftover_of_ok onward ▸ trims
    rw [← List.append_assoc] at read onward
    have read' := first.ok (ahead.append s) read
    exact (bind_of_ok read').trans ((tracks _ (List.append_assoc ..).symm).ok ahead onward)
  error := by
    intro r fault ahead failed
    rcases bind_eq_error failed with here | ⟨v, middle, read, later⟩
    · exact bind_of_error (first.error ahead here)
    · obtain ⟨trims, tracks⟩ := next read
      obtain ⟨s, rfl⟩ : r ++ u <:+ middle := leftover_of_error later ▸ trims
      rw [← List.append_assoc] at read later
      have read' := first.ok (ahead.append s) read
      exact (bind_of_ok read').trans ((tracks _ (List.append_assoc ..).symm).error ahead later)

section Two

variable {x y : Parser α}

/-- Where all that the runs share is taken off, only the end of both can be seen. -/
theorem of_taken (taken : leftover x (c ++ u) <:+ u)
    (ends : u = [] → u' = [] → TracksAt lines x y c [] []) : TracksAt lines x y c u u' where
  ok := by
    intro r v ahead done
    obtain rfl : r = [] := eq_nil_of_suffix (leftover_of_ok done ▸ taken)
    obtain ⟨rfl, rfl, zero⟩ := ahead.resolve_left (absurd rfl)
    exact (ends rfl rfl).ok ahead done
  error := by
    intro r fault ahead failed
    obtain rfl : r = [] := eq_nil_of_suffix (leftover_of_error failed ▸ taken)
    obtain ⟨rfl, rfl, zero⟩ := ahead.resolve_left (absurd rfl)
    exact (ends rfl rfl).error ahead failed

/-- Parsers that do on these tokens what others do. -/
theorem of_eq {x' y' : Parser α} (tracks : TracksAt lines x y c u u') (left : x' (c ++ u) = x (c ++ u))
    (right : y' (renumber lines c ++ u') = y (renumber lines c ++ u')) : TracksAt lines x' y' c u u' where
  ok ahead done := right.trans (tracks.ok ahead (left.symm.trans done))
  error ahead failed := right.trans (tracks.error ahead (left.symm.trans failed))

end Two

theorem skip (t : Lexeme) : TracksAt lines Parser.skip Parser.skip (t :: c) u u' := by
  refine ⟨?_, nofun⟩
  intro r v _ done
  obtain ⟨_, rest⟩ := EStateM.Result.ok.inj done
  cases List.append_cancel_right rest
  rfl

theorem semicolons : TracksAt lines Grammar.semicolons Grammar.semicolons c u u' := by
  refine ⟨?_, nofun⟩
  intro r v ahead done
  have rest := (EStateM.Result.ok.inj done).2
  have shared : (renumber lines c).dropWhile (·.token = .symbol .semicolon) =
      renumber lines (c.dropWhile (·.token = .symbol .semicolon)) :=
    List.dropWhile_map ..
  refine congrArg (EStateM.Result.ok _) ?_
  rw [List.dropWhile_append, shared]
  rw [List.dropWhile_append] at rest
  split at rest
  next none =>
    -- the semicolons go on behind what the runs share
    obtain rfl : r = [] := eq_nil_of_suffix (rest ▸ List.dropWhile_suffix _)
    obtain ⟨rfl, rfl, _⟩ := ahead.resolve_left (absurd rfl)
    rw [List.isEmpty_iff.mp none]
    rfl
  next some =>
    cases List.append_cancel_right rest
    rw [if_neg (by simpa [renumber] using some)]

theorem peek {k k' : Option Lexeme → Parser α} (trims : leftover (k (c ++ u).head?) (c ++ u) <:+ c ++ u)
    (tracks : TracksAt lines (k (c ++ u).head?) (k' (renumber lines (c ++ u).head?)) c u u') :
    TracksAt lines (Parser.peek >>= k) (Parser.peek >>= k') c u u' := by
  cases c with
  | cons t c => exact tracks.of_eq rfl rfl
  | nil =>
    refine .of_taken trims ?_
    rintro rfl rfl
    exact tracks.of_eq rfl rfl

theorem target {k k' : Option (String × Nat × Nat) → Parser α}
    (trims : leftover (k (target? (c ++ u))) (c ++ u) <:+ c ++ u)
    (taken : ∀ {n l us}, c ++ u = ⟨.name n, l⟩ :: us → leftover (k (target? (c ++ u))) (c ++ u) <:+ us)
    (tracks : TracksAt lines (k (target? (c ++ u))) (k' (renumber lines (target? (c ++ u)))) c u u') :
    TracksAt lines (get >>= fun tokens => k (target? tokens)) (get >>= fun tokens => k' (target? tokens)) c u u' := by
  -- where the target is decided among the tokens that the runs share
  have decided (same : target? (renumber lines c ++ u') = renumber lines (target? (c ++ u))) :
      TracksAt lines (get >>= fun tokens => k (target? tokens)) (get >>= fun tokens => k' (target? tokens)) c u u' := by
    refine tracks.of_eq rfl ?_
    rw [get_bind, same]
  rcases c with _ | ⟨⟨token, l⟩, _ | ⟨⟨token', l'⟩, c⟩⟩
  · refine .of_taken trims ?_
    rintro rfl rfl
    exact decided rfl
  · cases token with
    | name n =>
      -- the next token decides, but the name is taken off in any case
      refine .of_taken (taken rfl) ?_
      rintro rfl rfl
      exact decided rfl
    | _ => exact decided rfl
  · cases token with
    | name n =>
      cases token' with
      | symbol s => cases s <;> exact decided rfl
      | _ => exact decided rfl
    | _ => exact decided rfl

/-- The runs have different numbers of tokens, so their loops have different numbers of rounds. -/
theorem upTo {loop loop' : Nat → Parser α} (enough : Enough loop) (enough' : Enough loop')
    (tracks : ∀ rounds, (c ++ u).length < rounds → TracksAt lines (loop rounds) (loop' rounds) c u u') :
    TracksAt lines (Parser.upTo loop) (Parser.upTo loop') c u u' := by
  let rounds := max (c ++ u).length (renumber lines c ++ u').length + 1
  have more : (c ++ u).length < rounds := Nat.lt_succ_of_le (Nat.le_max_left ..)
  have more' : (renumber lines c ++ u').length < rounds := Nat.lt_succ_of_le (Nat.le_max_right ..)
  exact (tracks rounds more).of_eq (enough (Nat.lt_succ_self _) more) (enough' (Nat.lt_succ_self _) more')

end TracksAt

/-- The runs share the tokens up to the one that they look at, on other lines. -/
def Comparison.ahead (lines : Nat → Nat) : Comparison lines where
  At _ tokens x y := ∀ c u u', tokens = c ++ u → TracksAt lines x y c u u'
  spare := False
  cuts := False
  blind := False
  -- no run is cut off, and no symbol is hidden
  plain := False.elim
  pure v _ _ _ _ := .pure v
  refuse _ _ _ _ _ := .fail
  tooDeep _ _ _ _ _ := .fail
  skip := by
    rintro _ tokens t - (_ | ⟨t, c⟩) u u' split
    · cases split
      exact .of_taken (List.suffix_cons t tokens) nofun
    · exact .skip t
  semicolons _ _ _ _ := .semicolons
  bind := by
    rintro _ _ _ _ _ _ _ _ _ _ first next - c u u' rfl
    refine (first c u u' rfl).bind fun read => ?_
    obtain ⟨_, _, trims, onward⟩ := next read
    exact ⟨trims, fun s split => onward s u u' split⟩
  peek := by
    rintro _ _ _ _ _ _ - trims tracks c u u' rfl
    exact .peek trims (tracks c u u' rfl)
  target := by
    rintro _ _ _ _ _ _ trims taken tracks c u u' rfl
    exact .target trims taken (tracks c u u' rfl)
  upTo := by
    rintro _ _ _ _ _ _ enough enough' tracks c u u' rfl
    exact .upTo enough enough' fun rounds more => tracks rounds more c u u' rfl
  opening := False.elim
  brace := False.elim
  elif := False.elim

/-- The rules do the same on other lines and in front of other tokens. -/
theorem rules_look_ahead (lines : Nat → Nat) {limit depth room : Nat} (left : depth + room ≤ limit) :
    RulesAgree (.ahead lines) limit depth (rules room) (rules room) :=
  rules_agree_self _ id left False.elim

end SmallScript.Grammar
