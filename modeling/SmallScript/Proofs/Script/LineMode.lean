import Mathlib
import SmallScript.Proofs.Evaluation.Output
import SmallScript.Proofs.Script.Lines
import SmallScript.Proofs.Script.Session

/-! # Line by line and as a whole

A script can be run line by line, or as a whole.  If each of its lines is a script of its own, and the
lines are kept apart by semicolons when the script is run as a whole, the two differ in one thing only:
line by line, the value of each line is printed behind what the line prints, unless there is none.

* `lineRuns` runs the statements of the lines one after another, and notes what each line prints and
  what its value is.
* `runLinesFrom_agrees` takes the lines and the list of all their statements through the run at once.
  What has been written differs between the two, and nothing else does.
* `runLines_agrees_with_run` is about the text of a script.
-/

namespace SmallScript

open Eval

/-! ## Statements one after another -/

section Statements

variable {settings : Settings} {budget : Nat} {xs ys : List Node} {last v : Value} {m m' : Machine}
  {halt : Halt}

theorem evaluateFrom_append_of_ok (ends : evaluateFrom settings budget last xs m = .ok v m') :
    evaluateFrom settings budget last (xs ++ ys) m = evaluateFrom settings budget v ys m' := by
  induction xs generalizing last m with
  | nil => cases ends; rfl
  | cons x xs ih =>
    cases first : valueOf (eval settings budget) x m with
    | ok w m₁ => exact (bind_of_ok first).trans (ih ((bind_of_ok first).symm.trans ends))
    | error halt m₁ => cases (bind_of_error first).symm.trans ends

theorem evaluateFrom_append_of_error (stops : evaluateFrom settings budget last xs m = .error halt m') :
    evaluateFrom settings budget last (xs ++ ys) m = .error halt m' := by
  induction xs generalizing last m with
  | nil => cases stops
  | cons x xs ih =>
    cases first : valueOf (eval settings budget) x m with
    | ok w m₁ => exact (bind_of_ok first).trans (ih ((bind_of_ok first).symm.trans stops))
    | error halt m₁ => exact (bind_of_error first).trans ((bind_of_error first).symm.trans stops)

/-- The value so far is that of a list without statements, and of no other. -/
theorem evaluateFrom_of_ok (ends : evaluate settings budget xs m = .ok v m') (last : Value) :
    ∃ w, evaluateFrom settings budget last xs m = .ok w m' := by
  cases xs with
  | nil => cases ends; exact ⟨last, rfl⟩
  | cons x xs => exact ⟨v, ends⟩

theorem evaluateFrom_of_error (stops : evaluate settings budget xs m = .error halt m') (last : Value) :
    evaluateFrom settings budget last xs m = .error halt m' := by
  cases xs with
  | nil => cases stops
  | cons x xs => exact stops

end Statements

namespace Script

/-! ## What lines print -/

/-- A value as it is printed behind a line. -/
def echoed (v : Value) : ByteArray :=
  if v.isEmpty then .empty else (v.display ++ "\n").toUTF8

/-- What the statements of a line print, and their value if they come to their end. -/
structure LineRun where
  printed : ByteArray
  value : Option Value

/-- Runs the statements of lines one after another, up to the first line that stops. -/
def lineRuns (settings : Settings) (budget : Nat) : List (List Node) → Machine → List LineRun
  | [], _ => []
  | statements :: rest, m =>
    match evaluate settings budget statements m.silent with
    | .ok v m' => ⟨m'.console.output, some v⟩ :: lineRuns settings budget rest m'
    | .error _ m' => [⟨m'.console.output, none⟩]

def printed : List LineRun → ByteArray
  | [] => .empty
  | run :: runs => run.printed ++ printed runs

/-- What the lines print, and behind each line its value. -/
def printedWithValues : List LineRun → ByteArray
  | [] => .empty
  | ⟨bytes, some v⟩ :: runs => bytes ++ (echoed v ++ printedWithValues runs)
  | ⟨bytes, none⟩ :: runs => bytes ++ printedWithValues runs

variable {settings : Settings} {budget : Nat}

theorem lineRuns_congr {a b : Machine} (same : a.silent = b.silent) (parts : List (List Node)) :
    lineRuns settings budget parts a = lineRuns settings budget parts b := by
  cases parts with
  | nil => rfl
  | cons statements rest => rw [lineRuns, lineRuns, same]

/-! ## One line -/

theorem echo_of_steady {m : Machine} (steady : m.console.sink.Steady) (v : Value) (line : Nat) :
    ∃ m', echo v line m = .ok () m' ∧ m'.silent = m.silent ∧
      m'.console.output = m.console.output ++ echoed v := by
  unfold echo echoed
  split
  · exact ⟨m, rfl, rfl, ByteArray.append_empty.symm⟩
  · exact ⟨_, perform_of_ok (onConsole_of_ok (Console.write_of_storesAll steady.write _) line), rfl, rfl⟩

/-- A line that can be read is run, and a blank one is no exception: it has no statements. -/
theorem runLinesFrom_of_parsed {line : Nat} {text : List Char} {statements : List Node}
    (parsed : parseAt line (String.ofList text) = .ok statements) (rest : List (List Char)) (m : Machine) :
    runLinesFrom settings budget line (text :: rest) m =
      (do
        let v ← perform (evaluate settings budget statements)
        echo v line
        runLinesFrom settings budget (line + 1) rest : Session Unit) m := by
  rw [runLinesFrom, runLine]
  by_cases blank : Text.isBlankText text = true
  · rw [eq_nil_of_blankText blank parsed, blank]
    rfl
  · simp only [blank, Bool.false_eq_true, if_false, bind_assoc]
    exact bind_of_ok (read_ok parsed m)

/-! ## All lines -/

/-- Lines that are run one after another end as the list of all their statements does, on machines that
    differ in their output only. -/
theorem runLinesFrom_agrees {line : Nat} {texts : List (List Char)} {parts : List (List Node)}
    (parsed : LinesParse line texts parts) {a b : Machine} (same : a.silent = b.silent)
    (steady : a.console.sink.Steady) (last : Value) :
    let lines := runLinesFrom settings budget line texts
    let whole := perform (evaluateFrom settings budget last parts.flatten)
    let runs := lineRuns settings budget parts a
    outcome lines a = (outcome whole b).map (fun _ => ()) ∧
    (after lines a).silent = (after whole b).silent ∧
    (after lines a).console.output = a.console.output ++ printedWithValues runs ∧
    (after whole b).console.output = b.console.output ++ printed runs := by
  induction parsed generalizing a b last with
  | none =>
    refine ⟨rfl, same, ?_, ?_⟩
    · exact ByteArray.append_empty.symm
    · exact ByteArray.append_empty.symm
  | @next line text texts statements parts first rest ih =>
    intro lines whole runs
    have onLines := evaluate_behind settings budget statements a.console (m := a.silent) steady
    have onWhole := evaluate_behind settings budget statements b.console (m := a.silent) steady
    rw [Machine.behind_silent] at onLines
    rw [same, Machine.behind_silent, ← same] at onWhole
    have stepLines : lines a = _ := runLinesFrom_of_parsed first texts a
    cases result : evaluate settings budget statements a.silent with
    | ok v c =>
      rw [result] at onLines onWhole
      obtain ⟨steady', endsLines⟩ := onLines
      obtain ⟨_, endsWhole⟩ := onWhole
      -- behind the line its value is printed, and then both runs go on
      obtain ⟨a', echoes, silent, added⟩ := echo_of_steady (m := c.behind a.console) steady' v line
      let b' := c.behind b.console
      have nextLines : lines a = runLinesFrom settings budget (line + 1) texts a' :=
        stepLines.trans ((bind_of_ok (perform_of_ok endsLines)).trans (bind_of_ok echoes))
      obtain ⟨w, endsFrom⟩ := evaluateFrom_of_ok endsWhole last
      have nextWhole : whole b = perform (evaluateFrom settings budget w parts.flatten) b' :=
        perform_congr (evaluateFrom_append_of_ok endsFrom)
      obtain ⟨ends, machines, written, written'⟩ :=
        ih (a := a') (b := b') silent (Machine.steady_of_silent silent steady') w
      have runs_eq : runs = ⟨c.console.output, some v⟩ :: lineRuns settings budget parts a' := by
        have silent' : c.silent = a'.silent := silent.symm
        simp only [runs, lineRuns, result, lineRuns_congr silent' parts]
      rw [(ends_congr nextLines).1, (ends_congr nextLines).2, (ends_congr nextWhole).1,
        (ends_congr nextWhole).2, runs_eq]
      refine ⟨ends, machines, ?_, ?_⟩
      · rw [written, added]
        simp [printedWithValues, ByteArray.append_assoc]
      · rw [written']
        simp [b', printed, ByteArray.append_assoc]
    | error halt c =>
      rw [result] at onLines onWhole
      have nextLines : lines a = .error (.run halt) (c.behind a.console) :=
        stepLines.trans (bind_of_error (perform_of_error onLines.2))
      have nextWhole : whole b = .error (.run halt) (c.behind b.console) :=
        perform_of_error (evaluateFrom_append_of_error (evaluateFrom_of_error onWhole.2 last))
      have runs_eq : runs = [⟨c.console.output, none⟩] := by simp only [runs, lineRuns, result]
      unfold outcome after
      rw [nextLines, nextWhole, runs_eq]
      simp [printed, printedWithValues, Except.map]

/-- A script each of whose lines is a script of its own, on a machine whose output stream never fails.  Line
    by line it ends as it does as a whole with a semicolon behind every line feed: both come to their end,
    or both fail alike, or both use up their budget.  The machines they leave behind differ in nothing
    but what has been written, so they have read the same input.  As a whole the script has written what
    the lines print; line by line it has written this, and behind what a line prints the line's value,
    unless it is empty. -/
theorem runLines_agrees_with_run (settings : Settings) (budget : Nat) (source : String)
    (parts : List (List Node)) (m : Machine) (parsed : LinesParse 1 (Text.lines source.toList) parts)
    (steady : m.console.sink.Steady) :
    let lines := runLines settings budget source
    let whole := run settings budget false (String.ofList (Text.closeLines source.toList))
    let runs := lineRuns settings budget parts m
    outcome lines m = (outcome whole m).map (fun _ => ()) ∧
    (after lines m).silent = (after whole m).silent ∧
    (after lines m).console.output = m.console.output ++ printedWithValues runs ∧
    (after whole m).console.output = m.console.output ++ printed runs := by
  intro lines whole runs
  have same : whole m = perform (evaluateFrom settings budget .empty parts.flatten) m := by
    refine (bind_of_ok (read_ok (parseAt_closeLines parsed) m)).trans ?_
    cases result : evaluate settings budget parts.flatten m with
    | ok v m' => exact (bind_of_ok (perform_of_ok result)).trans (perform_of_ok result).symm
    | error halt m' => exact (bind_of_error (perform_of_error result)).trans (perform_of_error result).symm
  rw [(ends_congr same).1, (ends_congr same).2]
  exact runLinesFrom_agrees parsed rfl steady .empty

/-- A line that prints and has a value, a blank one, and one that fails. -/
theorem runLines_agrees_with_run_failing :
    let source := "print true; true\r\n\nprint y"
    let parts : List (List Node) :=
      [[.print (.truth true 1) 1, .truth true 1], [], [.print (.name "y" 3) 3]]
    let m := Machine.fresh (.ofInput [])
    let lines := runLines .standard 3 source
    let whole := run .standard 3 false (String.ofList (Text.closeLines source.toList))
    LinesParse 1 (Text.lines source.toList) parts ∧ m.console.sink.Steady ∧
    outcome lines m = (outcome whole m).map (fun _ => ()) ∧
    (after lines m).silent = (after whole m).silent ∧
    (after lines m).console.output = "true\ntrue\n".toUTF8 ∧
    (after whole m).console.output = "true\n".toUTF8 := by
  intro source parts m lines whole
  have cut : Text.lines source.toList = ["print true; true".toList, [], "print y".toList] := by cbv
  have first : lexemes 1 "print true; true" = .ok
      [⟨.symbol .printWord, 1⟩, ⟨.truth true, 1⟩, ⟨.symbol .semicolon, 1⟩, ⟨.truth true, 1⟩,
        ⟨.endOfInput, 1⟩] := by cbv
  have last : lexemes 3 "print y" = .ok
      [⟨.symbol .printWord, 3⟩, ⟨.name "y", 3⟩, ⟨.endOfInput, 3⟩] := by cbv
  have parsed : LinesParse 1 (Text.lines source.toList) parts := by
    rw [cut]
    refine .next (parseAt_eq_ok_iff.mpr ⟨_, first, by rfl⟩) (.next ?_ (.next ?_ .none))
    · cbv
    · exact parseAt_eq_ok_iff.mpr ⟨_, last, by rfl⟩
  obtain ⟨ends, machines, written, written'⟩ := runLines_agrees_with_run .standard 3 source parts m parsed
    Sink.steady_endless
  exact ⟨parsed, Sink.steady_endless, ends, machines, written.trans (by rfl), written'.trans (by rfl)⟩

end Script

end SmallScript
