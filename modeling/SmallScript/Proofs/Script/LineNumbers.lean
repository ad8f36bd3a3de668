import SmallScript.Proofs.Evaluation.Renumbered
import SmallScript.Proofs.Grammar.TreeLines
import SmallScript.Proofs.Script.Session

/-! # Line numbers are labels

Empty lines in front of a script move it down and change nothing else: the numbers that it counts its lines
with are only copied, from the text to the tokens, to the trees and to the faults.

* `Script.Alike f x y a b`: on these machines `y` ends as `x` does, with `f l` for every line `l`.
* `Script.alike_run` takes a run through reading, running and printing.
-/

namespace SmallScript

namespace Renumber

/-- A value holds no lines. -/
instance : Renumber Value := ⟨fun _ v => v, fun _ => rfl⟩

instance : Renumber Halt where
  renumber f
    | .fault value => .fault (renumber f value)
    | .unfinished => .unfinished
  renumber_id
    | .fault _ => rfl
    | .unfinished => rfl

instance : Renumber Script.Failure where
  renumber f
    | .text fault => .text (renumber f fault)
    | .run halt => .run (renumber f halt)
  renumber_id
    | .text _ => rfl
    | .run halt => congrArg Script.Failure.run (renumber_id halt)

end Renumber

open Renumber

theorem Likeness.Halts.eq_renumber {f : Nat → Nat} {h h' : Halt} (halts : (renumbered f).Halts h h') :
    h' = Renumber.renumber f h := by
  cases halts with
  | fault lines =>
    cases lines
    rfl
  | unfinished => rfl

namespace Script

open Likeness

section Alike

variable {α β : Type} [Renumber α] [Renumber β] {f : Nat → Nat} {a b : Machine}

/-- The second session ends as the first one does, with other lines. -/
structure Alike (f : Nat → Nat) (x y : Session α) (a b : Machine) : Prop where
  outcome : outcome y b = renumber f (outcome x a)
  machines : (after x a).Renumbered f (after y b)

theorem Alike.of_ok {x y : Session α} {v : α} {a' b' : Machine} (first : x a = .ok v a')
    (second : y b = .ok (renumber f v) b') (machines : a'.Renumbered f b') : Alike f x y a b where
  outcome := by
    unfold Script.outcome
    rw [first, second]
    rfl
  machines := by
    unfold after
    rw [first, second]
    exact machines

theorem Alike.of_error {x y : Session α} {failure : Failure} {a' b' : Machine} (first : x a = .error failure a')
    (second : y b = .error (renumber f failure) b') (machines : a'.Renumbered f b') : Alike f x y a b where
  outcome := by
    rw [outcome_of_error first, outcome_of_error second]
    rfl
  machines := by
    unfold after
    rw [first, second]
    exact machines

theorem Alike.of_eq {x y x' y' : Session α} {a₀ b₀ : Machine} (alike : Alike f x y a b)
    (left : x' a₀ = x a) (right : y' b₀ = y b) : Alike f x' y' a₀ b₀ where
  outcome := by
    rw [(ends_congr left).1, (ends_congr right).1]
    exact alike.outcome
  machines := by
    rw [(ends_congr left).2, (ends_congr right).2]
    exact alike.machines

theorem Alike.bind {x y : Session α} {k k' : α → Session β} (first : Alike f x y a b)
    (next : ∀ v a' b', x a = .ok v a' → a'.Renumbered f b' → Alike f (k v) (k' (renumber f v)) a' b') :
    Alike f (x >>= k) (y >>= k') a b := by
  obtain ⟨same, machines⟩ := first
  unfold Script.outcome at same
  unfold after at machines
  -- alike runs end both or fail both
  cases ends : x a with
  | ok v a' =>
    cases ends' : y b with
    | error => rw [ends, ends'] at same; cases same
    | ok w b' =>
      rw [ends, ends'] at same machines
      cases same
      exact (next v a' b' ends machines).of_eq (Eval.bind_of_ok ends) (Eval.bind_of_ok ends')
  | error failure a' =>
    cases ends' : y b with
    | ok => rw [ends, ends'] at same; cases same
    | error failure' b' =>
      rw [ends, ends'] at same machines
      cases same
      exact .of_error (Eval.bind_of_error ends) (Eval.bind_of_error ends') machines

theorem Alike.perform {x y : Eval α} (ends : (renumbered f).Ends () x y a b)
    (plain : ∀ v : α, renumber f v = v) : Alike f (perform x) (perform y) a b := by
  cases ends with
  | @value v _ _ first second machines =>
    refine .of_ok (perform_of_ok first) ?_ machines
    rw [plain v]
    exact perform_of_ok second
  | halt first second halts machines =>
    rw [halts.eq_renumber] at second
    exact .of_error (perform_of_error first) (perform_of_error second) machines
  | cut _ cut => exact cut.elim

end Alike

variable {f : Nat → Nat} {a b : Machine}

theorem alike_echo (v : Value) (l : Nat) (machines : a.Renumbered f b) :
    Alike f (echo v l) (echo v (f l)) a b := by
  unfold echo
  split
  · exact .of_ok rfl rfl machines
  · have write := (lawful_renumbered (f := f) ⟨.lexical, 0⟩).write (i := ()) (l := l) rfl v
    exact .perform (write.ends a b machines) fun _ => rfl

theorem alike_conclude {statements : List Node} {l : Nat}
    (last : statements.getLast?.bind Node.line? = some l) (printsValue : Bool) (v : Value)
    (machines : a.Renumbered f b) :
    Alike f (conclude printsValue statements v) (conclude printsValue (renumber f statements) v) a b := by
  have last' : (renumber f statements).getLast?.bind Node.line? = some (f l) := by
    obtain ⟨x, final, line⟩ := Option.bind_eq_some_iff.mp last
    change (statements.map (Node.renumber f)).getLast?.bind Node.line? = _
    rw [List.getLast?_map, final, Option.map_some, Option.bind_some, Node.line?_renumber, line]
    rfl
  cases printsValue with
  | false => exact .of_ok rfl rfl machines
  | true =>
    unfold conclude
    simp only [if_true, last, last', Option.getD_some]
    exact (alike_echo v l machines).bind fun _ _ _ _ machines => .of_ok rfl rfl machines

/-- A script whose trees have other lines. -/
theorem alike_run {source source' : String} (parsed : parseAt 1 source' = renumber f (parseAt 1 source))
    (machines : a.Renumbered f b) (settings : Settings) (budget : Nat) (printsValue : Bool) :
    Alike f (run settings budget printsValue source) (run settings budget printsValue source') a b := by
  cases first : parseAt 1 source with
  | error fault =>
    rw [first] at parsed
    exact .of_error (run_of_refused first a) (run_of_refused parsed b) machines
  | ok statements =>
    rw [first] at parsed
    have lines := parseAt_standsOn first
    obtain ⟨tokens, scanned, _⟩ := parseAt_eq_ok_iff.mp first
    have trees : List.Forall₂ ((renumbered f).trees () .value) statements (renumber f statements) :=
      forall₂_renumber fun x member =>
        ⟨rfl, (isStatement_of_parseAt scanned first member).imp fun _ _ => trivial, fun _ => (lines x member).2⟩
    have evaluated := ((lawful_renumbered settings).evaluate budget trees).ends a b machines
    refine Alike.of_eq ?_ (run_of_parsed first a) (run_of_parsed parsed b)
    refine (Alike.perform evaluated fun _ => rfl).bind fun v a' b' ends machines => ?_
    cases last : statements.getLast? with
    | none =>
      -- without statements there is no value to print
      obtain rfl := List.getLast?_eq_none_iff.mp last
      cases ends
      cases printsValue <;> exact .of_ok rfl rfl machines
    | some x =>
      obtain ⟨l, line⟩ := (lines x (List.mem_of_getLast? last)).2
      exact alike_conclude (by rw [last, Option.bind_some, line]) printsValue v machines

/-- The script with `k` line feeds in front of it. -/
def below (k : Nat) (source : String) : String :=
  String.ofList (List.replicate k '\n') ++ source

theorem parseAt_below (line k : Nat) (source : String) :
    parseAt line (below k source) = renumber (· + k) (parseAt line source) := by
  rw [← parseAt_add]
  unfold below parseAt lexemes
  rw [String.toList_append, String.toList_ofList, Lexeme.scan_replicate_lineFeed]

/-- Empty lines in front of a script change the lines in its trees and in its faults, by as many as they
    are, and nothing else.  It is read, or refused, as before; with every budget it comes to the same value,
    stops with the same fault or does not end; and it takes the same from the input and writes the same. -/
theorem run_below_empty_lines (k : Nat) (source : String) :
    parse (below k source) = renumber (· + k) (parse source) ∧
    ∀ settings budget printsValue console,
      outcome (run settings budget printsValue (below k source)) (.fresh console) =
        renumber (· + k) (outcome (run settings budget printsValue source) (.fresh console)) ∧
      (after (run settings budget printsValue (below k source)) (.fresh console)).console =
        (after (run settings budget printsValue source) (.fresh console)).console := by
  have parsed := parseAt_below 1 k source
  refine ⟨parsed, fun settings budget printsValue console => ?_⟩
  have alike := alike_run parsed (.fresh console) settings budget printsValue
  refine ⟨alike.outcome, ?_⟩
  rw [alike.machines.same]

end Script

end SmallScript
