import SmallScript.Proofs.Evaluation.Output
import SmallScript.Proofs.Evaluation.Placement

/-! # The limit on open calls

A run cannot ask how many calls may be open.  It finds out when one call more would be too many, and then
it stops.  So a run with a higher limit does the same as one with a lower limit, up to the point where
the lower one cuts the run off, and it never takes back what was written until then.

* `Likeness.upToLimit` compares the two runs: they are the same, or the first one has been cut off and the
  second one goes on.
* `evaluate_of_limit_le` and `run_of_limit_le` say so about statements and about scripts.
-/

namespace SmallScript

open Eval

/-! ## The fault names the limit -/

section Limit

variable {settings : Settings} {limit l : Nat} {m : Machine}

theorem Eval.Raises.limit_eq {x : Node}
    (raises : Raises settings x m (.fault ⟨.callDepthExceeded limit, l⟩)) : limit = settings.maxCallDepth := by
  cases raises with
  | callDepthExceeded => rfl
  | unary refused => rcases Value.unary_fault refused with same | same <;> cases same
  | arithmetic computes refused => cases Value.arithmetic_fault computes refused
  | compare refused => cases Value.compare_fault refused
  | logic refused | conditional refused | loop refused => cases Value.asBoolean_fault refused

theorem limit_eq_of_evaluate {budget : Nat} {statements : List Node} {m' : Machine}
    (stops : evaluate settings budget statements m = .error (.fault ⟨.callDepthExceeded limit, l⟩) m') :
    limit = settings.maxCallDepth := by
  cases origin_of_evaluate stops with
  | cut unfinished => cases unfinished
  | own _ raises _ => exact raises.limit_eq
  | stray _ _ fault => cases fault

theorem Script.limit_eq_of_run {budget : Nat} {printsValue : Bool} {source : String} {m' : Machine}
    (stops : run settings budget printsValue source m =
      .error (.run (.fault ⟨.callDepthExceeded limit, l⟩)) m') : limit = settings.maxCallDepth := by
  cases parsed : parseAt 1 source with
  | error fault => cases (run_of_refused parsed m).symm.trans stops
  | ok statements =>
    rw [run_of_parsed parsed] at stops
    cases ends : evaluate settings budget statements m with
    | error halt m₁ =>
      cases (bind_of_error (perform_of_error ends)).symm.trans stops
      exact limit_eq_of_evaluate ends
    | ok v m₁ =>
      have rest := (bind_of_ok (perform_of_ok ends)).symm.trans stops
      rcases conclude_cases printsValue statements v m₁ with ⟨c, _, done⟩ | ⟨cause, c, _, _, refused⟩
      · cases done.symm.trans rest
      · cases refused.symm.trans rest

end Limit

/-! ## Two limits -/

namespace Likeness

/-- The runs are the same, or the first one has been cut off because `limit` calls were open, and the
    second one has gone on writing. -/
def upToLimit (limit : Nat) : Likeness Unit where
  lines := Eq
  trees _ _ := Eq
  declarations := Eq
  machines _ := Eq
  cut halt c c' := (∃ line, halt = .fault ⟨.callDepthExceeded limit, line⟩) ∧ c.Extends c'
  onward := fun ⟨halted, before⟩ more => ⟨halted, before.trans more⟩

variable {limit : Nat}

theorem Coupled.self {i : Unit} {α : Type} {x : Eval α} (grows : Grows x) :
    (upToLimit limit).Coupled i x x where
  grows _ := grows
  ends := by
    rintro a _ rfl
    cases ends : x a with
    | ok v a' => exact .value ends ends rfl
    | error halt a' =>
      refine .halt ends ends ?_ rfl
      cases halt with
      | fault => exact .fault rfl
      | unfinished => exact .unfinished

theorem lawful_upToLimit (scoping : Scoping) {limit' : Nat} (le : limit ≤ limit') :
    (upToLimit limit).Lawful ⟨scoping, limit⟩ ⟨scoping, limit'⟩ where
  trees := by
    rintro i use x _ rfl
    exact .refl (fun _ => rfl) (fun _ _ => rfl) (fun _ => rfl) x
  stray := by
    rintro i x _ rfl
    rfl
  params := by
    rintro d _ rfl
    rfl
  lookup := by
    rintro i a _ rfl name
    rfl
  functions := by
    rintro i a _ rfl name
    cases a.functions[name]? with
    | none => exact .none
    | some d => exact .some rfl
  callDepth := by
    rintro i a _ rfl
    rfl
  write := by
    rintro i l _ rfl v
    exact .self (grows_writeLine v l)
  read := by
    rintro i l _ rfl prompt
    exact .self (grows_readValue prompt l)
  define := by
    rintro i a _ rfl name v
    rfl
  declare := by
    rintro i a _ d _ rfl rfl
    rfl
  call := by
    rintro i a _ d _ rfl rfl frame
    refine ⟨(), rfl, rfl, ?_⟩
    rintro a' _ rfl
    rfl
  limit := le
  exceeded := by
    rintro i a _ rfl _
    -- the run with the lower limit is cut off here
    exact .inr fun line => ⟨⟨line, rfl⟩, .refl _⟩
  grows _ := grows_eval _

end Likeness

/-- Printing the value of a script comes behind what the script has written. -/
theorem Script.extends_after_run {settings : Settings} {budget : Nat} {printsValue : Bool} {source : String}
    {statements : List Node} (parsed : parseAt 1 source = .ok statements) (m : Machine) :
    (Eval.after (evaluate settings budget statements) m).console.Extends
      (after (run settings budget printsValue source) m).console := by
  unfold after Eval.after
  rw [run_of_parsed parsed]
  cases ends : evaluate settings budget statements m with
  | error halt m₁ =>
    rw [bind_of_error (perform_of_error ends)]
    exact .refl _
  | ok v m₁ =>
    rw [bind_of_ok (perform_of_ok ends)]
    rcases conclude_cases printsValue statements v m₁ with ⟨c, added, done⟩ | ⟨_, c, _, added, refused⟩
    · rw [done]
      exact added
    · rw [refused]
      exact added

section Limits

variable {limit limit' : Nat} (le : limit ≤ limit') (scoping : Scoping) (budget : Nat) (m : Machine)

include le

theorem evaluate_of_limit_le (statements : List Node) :
    evaluate ⟨scoping, limit'⟩ budget statements m = evaluate ⟨scoping, limit⟩ budget statements m ∨
      ∃ line m', evaluate ⟨scoping, limit⟩ budget statements m =
          .error (.fault ⟨.callDepthExceeded limit, line⟩) m' ∧
        m'.console.Extends (after (evaluate ⟨scoping, limit'⟩ budget statements) m).console := by
  have same : List.Forall₂ ((Likeness.upToLimit limit).trees () .value) statements statements :=
    List.forall₂_same.mpr fun _ _ => rfl
  -- alike machines are the same one, so only a cut makes a difference
  cases ((Likeness.lawful_upToLimit scoping le).evaluate budget same).ends m m rfl with
  | value first second alike =>
    cases alike
    exact .inl (second.trans first.symm)
  | halt first second halts alike =>
    cases alike
    cases halts with
    | fault lines =>
      cases lines
      exact .inl (second.trans first.symm)
    | unfinished => exact .inl (second.trans first.symm)
  | cut first cut =>
    obtain ⟨⟨line, rfl⟩, before⟩ := cut
    exact .inr ⟨line, _, first, before⟩

namespace Script

theorem run_of_limit_le (printsValue : Bool) (source : String) :
    run ⟨scoping, limit'⟩ budget printsValue source m = run ⟨scoping, limit⟩ budget printsValue source m ∨
      ∃ line m', run ⟨scoping, limit⟩ budget printsValue source m =
          .error (.run (.fault ⟨.callDepthExceeded limit, line⟩)) m' ∧
        m'.console.Extends (after (run ⟨scoping, limit'⟩ budget printsValue source) m).console := by
  cases parsed : parseAt 1 source with
  | error fault => exact .inl ((run_of_refused parsed m).trans (run_of_refused parsed m).symm)
  | ok statements =>
    rcases evaluate_of_limit_le le scoping budget m statements with same | ⟨line, m', stops, before⟩
    · left
      rw [run_of_parsed parsed, run_of_parsed parsed]
      exact bind_of_eq (perform_congr same)
    · refine .inr ⟨line, m', ?_, before.trans ?_⟩
      · exact (run_of_parsed parsed m).trans (bind_of_error (perform_of_error stops))
      · exact extends_after_run parsed m

end Script

end Limits

namespace Script

/-- The limit on open calls only cuts runs off.  A script that ends in any other way under a limit ends
    in the same way under every higher one, on the same machine.  If it is cut off, the fault names the
    limit, and whatever the script comes to under a higher limit, what it has written until then is what
    its output starts with. -/
theorem run_under_higher_limit {limit limit' : Nat} (le : limit ≤ limit') (scoping : Scoping) (budget : Nat)
    (printsValue : Bool) (source : String) (m : Machine) :
    let lower := run ⟨scoping, limit⟩ budget printsValue source
    let higher budget := run ⟨scoping, limit'⟩ budget printsValue source
    ((∀ n line, outcome lower m ≠ .error (.run (.fault ⟨.callDepthExceeded n, line⟩))) →
      higher budget m = lower m) ∧
    ∀ n line, outcome lower m = .error (.run (.fault ⟨.callDepthExceeded n, line⟩)) →
      n = limit ∧ ∀ budget', outcome (higher budget') m ≠ .error (.run .unfinished) →
        ∃ more, (after (higher budget') m).console.output = (after lower m).console.output ++ more := by
  intro lower higher
  constructor
  · intro notCut
    rcases run_of_limit_le le scoping budget m printsValue source with same | ⟨line, m', cut, _⟩
    · exact same
    · exact absurd (outcome_of_error cut) (notCut limit line)
  · intro n line fails
    have stops := eq_error_of_outcome fails
    refine ⟨limit_eq_of_run stops, fun budget' ends => ?_⟩
    -- with a budget that is large enough for both, they are the same two runs
    have ample : run ⟨scoping, limit⟩ (max budget budget') printsValue source m = lower m :=
      run_of_le (Nat.le_max_left _ _) (by rw [fails]; nofun)
    have ample' : run ⟨scoping, limit'⟩ (max budget budget') printsValue source m = higher budget' m :=
      run_of_le (Nat.le_max_right _ _) ends
    rcases run_of_limit_le le scoping (max budget budget') m printsValue source with
      same | ⟨line, m', cut, before⟩
    · rw [ample, ample'] at same
      rw [(ends_congr same).2]
      exact ⟨.empty, ByteArray.append_empty.symm⟩
    · rw [ample, stops] at cut
      cases cut
      rwa [(ends_congr ample').2] at before

/-- With room for two calls the script comes to its end, and with room for one it is cut off when it has
    printed the first of two lines. -/
theorem run_under_higher_limit_nested :
    let source := "def f()\x7bprint true; g()\x7ddef g()\x7bprint false\x7df()"
    let m := Machine.fresh (.ofInput [])
    let runs limit := run ⟨.lexical, limit⟩ 9 true source
    1 ≤ 2 ∧ 2 ≤ 3 ∧
    outcome (runs 1) m = .error (.run (.fault ⟨.callDepthExceeded 1, 1⟩)) ∧
    (after (runs 1) m).console.output = "true\n".toUTF8 ∧
    (∃ more, (after (runs 2) m).console.output = "true\n".toUTF8 ++ more) ∧
    outcome (runs 2) m = .ok .empty ∧ runs 3 m = runs 2 m := by
  intro source m runs
  have scanned : lexemes 1 source = .ok
      [⟨.symbol .defWord, 1⟩, ⟨.name "f", 1⟩, ⟨.symbol .openParen, 1⟩, ⟨.symbol .closeParen, 1⟩,
        ⟨.symbol .openBrace, 1⟩, ⟨.symbol .printWord, 1⟩, ⟨.truth true, 1⟩, ⟨.symbol .semicolon, 1⟩,
        ⟨.name "g", 1⟩, ⟨.symbol .openParen, 1⟩, ⟨.symbol .closeParen, 1⟩, ⟨.symbol .closeBrace, 1⟩,
        ⟨.symbol .defWord, 1⟩, ⟨.name "g", 1⟩, ⟨.symbol .openParen, 1⟩, ⟨.symbol .closeParen, 1⟩,
        ⟨.symbol .openBrace, 1⟩, ⟨.symbol .printWord, 1⟩, ⟨.truth false, 1⟩, ⟨.symbol .closeBrace, 1⟩,
        ⟨.name "f", 1⟩, ⟨.symbol .openParen, 1⟩, ⟨.symbol .closeParen, 1⟩, ⟨.endOfInput, 1⟩] := by cbv
  have parsed : parseAt 1 source = .ok
      [.function "f" [] (.block [.print (.truth true 1) 1, .call "g" [] 1] (some 1)) 1,
        .function "g" [] (.block [.print (.truth false 1) 1] (some 1)) 1, .call "f" [] 1] :=
    parseAt_eq_ok_iff.mpr ⟨_, scanned, by rfl⟩
  have evaluated (limit : Nat) := ends_congr (show runs limit m = _ from run_of_parsed parsed m)
  have cut : outcome (runs 1) m = .error (.run (.fault ⟨.callDepthExceeded 1, 1⟩)) :=
    (evaluated 1).1.trans (by rfl)
  have written : (after (runs 1) m).console.output = "true\n".toUTF8 :=
    (congrArg (·.console.output) (evaluated 1).2).trans (by rfl)
  have ends : outcome (runs 2) m = .ok .empty := (evaluated 2).1.trans (by rfl)
  have one := run_under_higher_limit (show 1 ≤ 2 by decide) .lexical 9 true source m
  have two := run_under_higher_limit (show 2 ≤ 3 by decide) .lexical 9 true source m
  refine ⟨by decide, by decide, cut, written, ?_, ends, ?_⟩
  · rw [← written]
    exact (one.2 1 1 cut).2 9 (by rw [ends]; intro equal; cases equal)
  · exact two.1 fun n line cut => by rw [ends] at cut; cases cut

end Script

end SmallScript
