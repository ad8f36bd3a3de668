import SmallScript.Proofs.Evaluation.OpenCalls
import SmallScript.Proofs.Script.LineMode

/-! # Where faults stand

Every fault of a script is on one of its lines.  Where a script is run line by line, all trees of a line
have its number, and so have the bodies of the functions that it declares.  So a fault is on the line that
is being run, or on that of the function whose body is.

* `LineResult`: what one line can do.  `exists_failing_line` finds the line that fails.
* `Declaration.OnLineUpTo`: what the table of functions keeps from line to line.
-/

namespace SmallScript

open Eval

namespace Text

theorem not_mem_dropReturn {a : List Char} (single : '\n' ∉ a) : '\n' ∉ dropReturn a := by
  rcases dropReturn_cases a with same | same
  · rwa [same]
  · rw [same] at single
    exact fun member => single (List.mem_append_left _ member)

theorem not_mem_of_lines (text : List Char) : ∀ a ∈ lines text, '\n' ∉ a := by
  induction text using lines_induction with
  | empty =>
    rw [lines_nil]
    nofun
  | last a nonempty single =>
    rw [lines_single nonempty single]
    intro a' member
    cases List.mem_singleton.mp member
    exact single
  | line a b single ih =>
    rw [lines_append single]
    exact List.forall_mem_cons.mpr ⟨not_mem_dropReturn single, ih⟩

end Text

namespace Script

def Failure.line? : Failure → Option Nat
  | .text fault => some fault.line
  | .run (.fault fault) => some fault.line
  | .run .unfinished => none

/-! ## Whole scripts -/

def IsLineOf (source : String) (l : Nat) : Prop :=
  1 ≤ l ∧ l ≤ 1 + source.toList.count '\n'

theorem lasting_onLines (P : Nat → Prop) : Lasting (fun _ x => x.OnLines P) (fun d => d.body.OnLines P) where
  parts onLines member := onLines.of_mem_parts member
  declared onLines := onLines.of_mem_parts List.mem_cons_self
  body _ := id

section Run

variable {settings : Settings} {budget : Nat} {source : String} {statements : List Node}

theorem line_of_evaluate (parsed : parseAt 1 source = .ok statements) {console : Console} {m' : Machine}
    {fault : RuntimeFault}
    (stops : evaluate settings budget statements (.fresh console) = .error (.fault fault) m') :
    IsLineOf source fault.line := by
  obtain ⟨calls, raised⟩ := exists_raisedIn (.fresh console) parsed stops
  exact raised.onLine (P := fun _ => IsLineOf source) (lasting_onLines _)
    (fun x member => (parseAt_standsOn parsed x member).1) (.fresh console)

theorem line_of_last (parsed : parseAt 1 source = .ok statements) :
    IsLineOf source ((statements.getLast?.bind Node.line?).getD 1) := by
  cases last : statements.getLast?.bind Node.line? with
  -- the first line, which every text has
  | none => exact ⟨Nat.le_refl 1, Nat.le_add_right 1 _⟩
  | some l =>
    obtain ⟨x, final, line⟩ := Option.bind_eq_some_iff.mp last
    exact (parseAt_standsOn parsed x (List.mem_of_getLast? final)).1.line line

theorem line_of_run {printsValue : Bool} {console : Console} {failure : Failure} {m' : Machine}
    (fails : run settings budget printsValue source (.fresh console) = .error failure m') {l : Nat}
    (line : failure.line? = some l) : IsLineOf source l := by
  -- a script fails while it is read, while it is run, or when its value is printed
  cases parsed : parseAt 1 source with
  | error fault =>
    cases (run_of_refused parsed _).symm.trans fails
    cases line
    exact line_of_parseAt_error parsed
  | ok statements =>
    rw [run_of_parsed parsed] at fails
    cases ends : evaluate settings budget statements (.fresh console) with
    | error halt m₁ =>
      cases (bind_of_error (perform_of_error ends)).symm.trans fails
      cases halt with
      | unfinished => cases line
      | fault fault =>
        cases line
        exact line_of_evaluate parsed ends
    | ok v m₁ =>
      rw [bind_of_ok (perform_of_ok ends)] at fails
      rcases conclude_cases printsValue statements v m₁ with ⟨_, _, done⟩ | ⟨_, _, _, _, refused⟩
      · cases done.symm.trans fails
      · cases refused.symm.trans fails
        cases line
        exact line_of_last parsed

end Run

/-! ## Line by line -/

section Lines

variable {settings : Settings} {budget : Nat}

/-- When a script fails, some line fails after all lines before it have been run. -/
theorem exists_failing_line {line : Nat} {texts : List (List Char)} {m m' : Machine} {failure : Failure}
    (fails : runLinesFrom settings budget line texts m = .error failure m') :
    ∃ before text rest m₁, texts = before ++ text :: rest ∧
      runLinesFrom settings budget line before m = .ok () m₁ ∧
      runLine settings budget (line + before.length) text m₁ = .error failure m' := by
  induction texts generalizing line m with
  | nil => cases fails
  | cons text rest ih =>
    rw [runLinesFrom] at fails
    cases first : runLine settings budget line text m with
    | error failure' m₁ =>
      cases (bind_of_error first).symm.trans fails
      exact ⟨[], text, rest, m, rfl, rfl, first⟩
    | ok _ m₁ =>
      rw [bind_of_ok first] at fails
      obtain ⟨before, text', rest', m₂, rfl, done, stops⟩ := ih fails
      refine ⟨text :: before, text', rest', m₂, rfl, ?_, ?_⟩
      · rw [runLinesFrom, bind_of_ok first]
        exact done
      · rwa [List.length_cons, Nat.add_comm before.length, ← Nat.add_assoc]

end Lines

end Script

/-! ### The lines of declarations -/

/-- The declaration stands on one line, up to the given one, with all of its body. -/
structure Declaration.OnLineUpTo (line : Nat) (d : Declaration) : Prop where
  positive : 1 ≤ d.line
  le : d.line ≤ line
  body : d.body.OnLines (· = d.line)

/-- The line of the innermost of the calls, or that of the script if none is open. -/
def lineWithin (line : Nat) (calls : List Declaration) : Nat :=
  calls.head?.elim line Declaration.line

namespace Script

variable {settings : Settings} {budget line : Nat} {text : List Char} {m m' : Machine}

/-- All trees that are run on a line are on that line, or on that of the function whose body is open. -/
theorem lasting_onLineWithin (line : Nat) :
    Lasting (fun calls x => x.OnLines fun l => l = lineWithin line calls ∧ 1 ≤ l ∧ l ≤ line)
      (Declaration.OnLineUpTo line) where
  parts onLines member := onLines.of_mem_parts member
  declared := by
    intro calls n ns b l onLines
    -- a declaration inside a body is on the line of the function around it
    obtain ⟨rfl, positive, le⟩ := onLines.line rfl
    exact ⟨positive, le, (onLines.of_mem_parts List.mem_cons_self).imp fun _ here => here.1⟩
  body calls declared := by
    refine declared.body.imp ?_
    rintro _ rfl
    exact ⟨rfl, declared.positive, declared.le⟩

/-- All lines in the trees of a line are its own. -/
theorem onLineWithin_of_parsed {statements : List Node} (positive : 1 ≤ line) (single : '\n' ∉ text)
    (parsed : parseAt line (String.ofList text) = .ok statements) :
    ∀ x ∈ statements, x.OnLines fun l => l = lineWithin line [] ∧ 1 ≤ l ∧ l ≤ line := by
  intro x member
  refine (parseAt_standsOn parsed x member).1.imp ?_
  rintro l ⟨least, most⟩
  rw [String.toList_ofList, List.count_eq_zero.mpr single] at most
  exact ⟨Nat.le_antisymm most least, Nat.le_trans positive least, most⟩

/-- What is known of the machine before a line is run. -/
structure BeforeLine (line : Nat) (m : Machine) : Prop where
  session : m.InSession
  declares : m.Declares (Declaration.OnLineUpTo line)

/-- One line keeps it for the next one. -/
theorem BeforeLine.after_line (before : BeforeLine line m) (positive : 1 ≤ line) (single : '\n' ∉ text)
    (done : runLine settings budget line text m = .ok () m') : BeforeLine (line + 1) m' := by
  have later {d : Declaration} (declared : d.OnLineUpTo line) : d.OnLineUpTo (line + 1) :=
    ⟨declared.positive, Nat.le_succ_of_le declared.le, declared.body⟩
  have result := lineResult settings budget line text m
  rw [done] at result
  generalize ends : EStateM.Result.ok () m' = final at result
  cases result with
  | blank =>
    cases ends
    exact ⟨before.session, before.declares.imp fun _ => later⟩
  | @done statements v m₁ c parsed evaluated =>
    cases ends
    have trees := onLineWithin_of_parsed positive single parsed
    -- functions are declared on this line, or were on an earlier one
    have kept : (Eval.after (evaluate settings budget statements) m).Declares (Declaration.OnLineUpTo line) :=
      evaluate_keeps (fun x member m₁ declares =>
        (lasting_onLineWithin line).declares_after_eval settings budget [] (trees x member) declares)
        before.declares
    have session := before.session.script parsed settings budget
    rw [after_of_ok evaluated] at kept session
    exact ⟨session.withConsole c, kept.imp fun _ => later⟩
  | _ => cases ends

theorem BeforeLine.after_lines {texts : List (List Char)} (before : BeforeLine line m) (positive : 1 ≤ line)
    (single : ∀ text ∈ texts, '\n' ∉ text) (done : runLinesFrom settings budget line texts m = .ok () m') :
    BeforeLine (line + texts.length) m' := by
  induction texts generalizing line m with
  | nil =>
    cases done
    exact before
  | cons text rest ih =>
    obtain ⟨here, others⟩ := List.forall_mem_cons.mp single
    rw [runLinesFrom] at done
    cases first : runLine settings budget line text m with
    | error => cases (bind_of_error first).symm.trans done
    | ok _ m₁ =>
      rw [bind_of_ok first] at done
      have next := ih (before.after_line positive here first) (Nat.le_add_left 1 line) others done
      rwa [List.length_cons, Nat.add_comm rest.length, ← Nat.add_assoc]

variable (settings budget line text m) in
/-- Where a failure of the line stands: a syntax fault on the line itself, like a value that cannot be
    printed; a fault of the run on the line itself or on that of the function whose body is open. -/
inductive FailsOn : Failure → Machine → Prop where
  | refused {fault} (parsed : parseAt line (String.ofList text) = .error fault) (here : fault.line = line) :
      FailsOn (.text fault) m
  | unprinted {statements v m₁ cause m'} (parsed : parseAt line (String.ofList text) = .ok statements)
      (ends : evaluate settings budget statements m = .ok v m₁)
      (refused : echo v line m₁ = .error (.run (.fault ⟨.console cause, line⟩)) m') :
      FailsOn (.run (.fault ⟨.console cause, line⟩)) m'
  | raised {statements fault m' calls} (parsed : parseAt line (String.ofList text) = .ok statements)
      (stops : evaluate settings budget statements m = .error (.fault fault) m')
      (raised : RaisedIn settings budget statements m calls fault)
      (here : fault.line = lineWithin line calls) : FailsOn (.run (.fault fault)) m'
  | unfinished {statements m'} (parsed : parseAt line (String.ofList text) = .ok statements)
      (stops : evaluate settings budget statements m = .error .unfinished m') :
      FailsOn (.run .unfinished) m'

/-- The line of a fault is the one that is being run, or an earlier one. -/
theorem BeforeLine.failsOn {failure : Failure} (before : BeforeLine line m) (positive : 1 ≤ line)
    (single : '\n' ∉ text) (fails : runLine settings budget line text m = .error failure m') :
    FailsOn settings budget line text m failure m' ∧
      ∀ l, failure.line? = some l → 1 ≤ l ∧ l ≤ line := by
  have own : 1 ≤ line ∧ line ≤ line := ⟨positive, Nat.le_refl line⟩
  have result := lineResult settings budget line text m
  rw [fails] at result
  generalize ends : EStateM.Result.error failure m' = final at result
  cases result with
  | blank | done => cases ends
  | @refused fault parsed =>
    cases ends
    -- a text without line feeds has only one line to be refused on
    obtain ⟨least, most⟩ := line_of_parseAt_error parsed
    rw [String.toList_ofList, List.count_eq_zero.mpr single] at most
    have here : fault.line = line := Nat.le_antisymm most least
    refine ⟨.refused parsed here, ?_⟩
    rintro _ ⟨⟩
    rwa [here]
  | unprinted parsed evaluated refused =>
    cases ends
    refine ⟨.unprinted parsed evaluated refused, ?_⟩
    rintro _ ⟨⟩
    exact own
  | @stopped statements halt _ parsed stops =>
    cases ends
    cases halt with
    | unfinished => exact ⟨.unfinished parsed stops, nofun⟩
    | fault fault =>
      obtain ⟨calls, raised⟩ := exists_raisedIn before.session parsed stops
      obtain ⟨here, bounds⟩ := raised.onLine (lasting_onLineWithin line)
        (onLineWithin_of_parsed positive single parsed) before.declares
      refine ⟨.raised parsed stops raised here, ?_⟩
      rintro _ ⟨⟩
      exact bounds

/-- Every failure of a script names one of its lines.  Run line by line, the script fails on some line when
    all lines before it have been run, and the failure names that line or an earlier one: an earlier one only
    if a function that was declared there is being called. -/
theorem failures_name_lines (settings : Settings) (budget : Nat) (source : String) (console : Console) :
    (∀ printsValue failure l,
      outcome (run settings budget printsValue source) (.fresh console) = .error failure →
      failure.line? = some l → 1 ≤ l ∧ l ≤ 1 + source.toList.count '\n') ∧
    ∀ failure m', runLines settings budget source (.fresh console) = .error failure m' →
      ∃ i before text rest m₁, Text.lines source.toList = before ++ text :: rest ∧ i = before.length + 1 ∧
        runLinesFrom settings budget 1 before (.fresh console) = .ok () m₁ ∧
        FailsOn settings budget i text m₁ failure m' ∧
        ∀ l, failure.line? = some l → 1 ≤ l ∧ l ≤ i := by
  constructor
  · intro printsValue failure l fails line
    exact line_of_run (eq_error_of_outcome fails) line
  · intro failure m' fails
    obtain ⟨before, text, rest, m₁, split, done, stops⟩ := exists_failing_line fails
    have single := Text.not_mem_of_lines source.toList
    rw [split] at single
    -- the invariant of the lines before the one that fails
    have start : BeforeLine 1 (Machine.fresh console) := ⟨.fresh console, .fresh console⟩
    have here := start.after_lines (Nat.le_refl 1)
      (fun text' member => single text' (List.mem_append_left _ member)) done
    rw [Nat.add_comm] at here stops
    obtain ⟨failsOn, bounds⟩ := here.failsOn (Nat.le_add_left 1 _) (single text (by simp)) stops
    exact ⟨before.length + 1, before, text, rest, m₁, split, rfl, done, failsOn, bounds⟩

/-- The third line calls a function of the first one, whose body fails. -/
theorem failures_name_lines_of_call :
    let source := "def f()\x7bx\x7d\n\nf()"
    let m := Machine.fresh (.ofInput [])
    let failure : Failure := .run (.fault ⟨.unknownVariable "x", 1⟩)
    outcome (run .standard 9 true source) m = .error failure ∧ 1 ≤ 1 + source.toList.count '\n' ∧
    ∃ m', runLines .standard 9 source m = .error failure m' ∧
      ∃ i before text rest m₁, Text.lines source.toList = before ++ text :: rest ∧ i = before.length + 1 ∧
        runLinesFrom .standard 9 1 before m = .ok () m₁ ∧
        FailsOn .standard 9 i text m₁ failure m' := by
  intro source m failure
  have cut : Text.lines source.toList = ["def f()\x7bx\x7d".toList, [], "f()".toList] := by cbv
  have declared : parseAt 1 "def f()\x7bx\x7d" = .ok [.function "f" [] (.block [.name "x" 1] (some 1)) 1] := by
    have scanned : lexemes 1 "def f()\x7bx\x7d" = .ok
      [⟨.symbol .defWord, 1⟩, ⟨.name "f", 1⟩, ⟨.symbol .openParen, 1⟩, ⟨.symbol .closeParen, 1⟩,
        ⟨.symbol .openBrace, 1⟩, ⟨.name "x", 1⟩, ⟨.symbol .closeBrace, 1⟩, ⟨.endOfInput, 1⟩] := by cbv
    exact parseAt_eq_ok_iff.mpr ⟨_, scanned, by rfl⟩
  have called : parseAt 3 "f()" = .ok [.call "f" [] 3] := by
    have scanned : lexemes 3 "f()" = .ok
      [⟨.name "f", 3⟩, ⟨.symbol .openParen, 3⟩, ⟨.symbol .closeParen, 3⟩, ⟨.endOfInput, 3⟩] := by cbv
    exact parseAt_eq_ok_iff.mpr ⟨_, scanned, by rfl⟩
  have whole : parseAt 1 source = .ok
      [.function "f" [] (.block [.name "x" 1] (some 1)) 1, .call "f" [] 3] := by
    have scanned : lexemes 1 source = .ok
      [⟨.symbol .defWord, 1⟩, ⟨.name "f", 1⟩, ⟨.symbol .openParen, 1⟩, ⟨.symbol .closeParen, 1⟩,
        ⟨.symbol .openBrace, 1⟩, ⟨.name "x", 1⟩, ⟨.symbol .closeBrace, 1⟩, ⟨.name "f", 3⟩,
        ⟨.symbol .openParen, 3⟩, ⟨.symbol .closeParen, 3⟩, ⟨.endOfInput, 3⟩] := by cbv
    exact parseAt_eq_ok_iff.mpr ⟨_, scanned, by rfl⟩
  let m₁ := m.declare ⟨"f", [], .block [.name "x" 1] (some 1), 1⟩
  have evaluated : evaluate .standard 9 [.function "f" [] (.block [.name "x" 1] (some 1)) 1] m = .ok .empty m₁ := by
    rfl
  have stops : evaluate .standard 9 [.call "f" [] 3] m₁ = .error (.fault ⟨.unknownVariable "x", 1⟩) m₁ := by rfl
  have fails : runLines .standard 9 source m = .error failure m₁ := by
    have first : runLinesFrom .standard 9 1 ["def f()\x7bx\x7d".toList, [], "f()".toList] m = _ :=
      runLinesFrom_of_parsed declared _ m
    have last : runLinesFrom .standard 9 3 ["f()".toList] m₁ = _ := runLinesFrom_of_parsed called [] m₁
    rw [bind_of_ok (perform_of_ok evaluated)] at first
    rw [bind_of_error (perform_of_error stops)] at last
    unfold runLines
    rw [cut]
    exact first.trans last
  have ends : outcome (run .standard 9 true source) m = .error failure :=
    (ends_congr (run_of_parsed whole m)).1.trans (by rfl)
  obtain ⟨onWhole, onLines⟩ := failures_name_lines .standard 9 source (.ofInput [])
  obtain ⟨i, before, text, rest, m₂, split, here, done, failsOn, _⟩ := onLines failure m₁ fails
  exact ⟨ends, (onWhole true failure 1 ends rfl).2, m₁, fails, i, before, text, rest, m₂, split, here, done, failsOn⟩

end Script

end SmallScript
