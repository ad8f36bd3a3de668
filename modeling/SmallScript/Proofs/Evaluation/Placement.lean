import Mathlib
import SmallScript.Proofs.Evaluation.Reached
import SmallScript.Proofs.Grammar.Shape
import SmallScript.Proofs.Script.Session

/-! # Faults that parsed scripts cannot have

`eval` is defined for all trees, and so it has an answer where something other than a variable is
assigned to, and where a tree that has to give a value returns instead.  The grammar rules both out.
The bodies that a call finds in the table of functions come from earlier scripts, so this is a fact
about whole sessions.

* `callDepth_after_eval` and `eval_ne_returned` hold of all trees: the number of open calls is exact, and
  nothing returns where no call is open.
* `Reached.placed` is about parsed scripts: what is run for its value is an expression, or it is a
  statement of the script itself.
* `Machine.InSession`: machines on which scripts have been run.
-/

namespace SmallScript

/-! ## The faults of operators -/

namespace Value

variable {line : Nat} {fault : RuntimeFault}

theorem asBoolean_fault {v : Value} (refused : v.asBoolean line = .error fault) :
    fault = ⟨.expectedBoolean, line⟩ := by
  cases v <;> cases refused <;> rfl

theorem unary_fault {op : UnaryOp} {v : Value} (refused : unary op v line = .error fault) :
    fault = ⟨.expectedNumber, line⟩ ∨ fault = ⟨.expectedBoolean, line⟩ := by
  cases op with
  | plus | negate => cases v <;> cases refused <;> exact .inl rfl
  | not => cases v <;> cases refused <;> exact .inr rfl

theorem arithmetic_fault {op : BinaryOp} {v w : Value} (computes : op ≠ .assign)
    (refused : arithmetic op v w line = .error fault) :
    fault = ⟨.typeMismatch op.symbol v.kind w.kind, line⟩ := by
  cases op with
  | assign => exact absurd rfl computes
  | _ => cases v <;> cases w <;> cases refused <;> rfl

theorem compare_fault {op : CompareOp} {v w : Value} (refused : compare op v w line = .error fault) :
    fault = ⟨.typeMismatch op.symbol v.kind w.kind, line⟩ := by
  unfold compare at refused
  split at refused
  · cases refused
  · cases refused
  · split at refused <;> cases refused
    rfl
  · split at refused <;> cases refused
    rfl
  · cases refused
    rfl

end Value

/-- Which trees find something misplaced by themselves. -/
theorem Eval.Raises.misplaced {settings : Settings} {x : Node} {m : Machine} {cause : RuntimeCause}
    {l : Nat} (raises : Raises settings x m (.fault ⟨cause, l⟩)) :
    (cause = .invalidTarget → ∃ y z, x = .binary y .assign z l ∧ ∀ n k, y ≠ .name n k) ∧
      (cause = .strayReturn → ∃ y, x = .ret y l ∧ m.callDepth = 0) := by
  cases raises with
  | invalidTarget noName => exact ⟨fun _ => ⟨_, _, rfl, noName⟩, nofun⟩
  | strayReturn outside => exact ⟨nofun, fun _ => ⟨_, rfl, outside⟩⟩
  | unary refused =>
    rcases Value.unary_fault refused with same | same
    · cases same
      exact ⟨nofun, nofun⟩
    · cases same
      exact ⟨nofun, nofun⟩
  | arithmetic computes refused =>
    cases Value.arithmetic_fault computes refused
    exact ⟨nofun, nofun⟩
  | compare refused =>
    cases Value.compare_fault refused
    exact ⟨nofun, nofun⟩
  | logic refused | conditional refused | loop refused =>
    cases Value.asBoolean_fault refused
    exact ⟨nofun, nofun⟩
  | _ => exact ⟨nofun, nofun⟩

open Eval

/-! ## Open calls -/

/-- However a run ends, as many calls are open as when it started. -/
theorem callDepth_after_eval (settings : Settings) (budget : Nat) (node : Node) (m : Machine) :
    (after (eval settings budget node) m).callDepth = m.callDepth := by
  induction budget generalizing node m with
  | zero => rfl
  | succ budget ih =>
    apply step_keeps (I := fun m' => m'.callDepth = m.callDepth)
      (J := fun m' => m'.callDepth = m.callDepth + 1) (m := m)
    · rfl
    · exact fun m' c same => same
    · exact fun m' name value same => (m'.callDepth_define name value).trans same
    · exact fun name params body line _ => rfl
    · exact fun use x m' _ same => (ih x m').trans same
    · intro d frame m' _ same
      rw [ih d.body (m'.enter frame)]
      exact congrArg Nat.succ same
    · intro m' same
      rw [Machine.callDepth_leave, same, Nat.add_sub_cancel]

theorem Eval.Starts.callDepth_eq {settings : Settings} {budget : Nat} {node x : Node} {m m' : Machine}
    {use : Use} (starts : Starts (eval settings budget) settings budget node m use x m') :
    m'.callDepth = m.callDepth :=
  starts.keeps (I := fun m' => m'.callDepth = m.callDepth)
    (fun y _ m₁ same => (callDepth_after_eval settings budget y m₁).trans same) rfl

/-- Where no call is open, nothing ends with `return`. -/
theorem eval_ne_returned (settings : Settings) (budget : Nat) (node : Node) {m : Machine}
    (outside : m.callDepth = 0) (v : Value) (m' : Machine) :
    eval settings budget node m ≠ .ok (.returned v) m' := by
  induction budget generalizing node m with
  | zero => nofun
  | succ budget ih =>
    intro returns
    rcases returns_cases returns with ⟨x, line, rfl, inCall⟩ | ⟨x, m₁, starts, ends⟩
    · exact inCall outside
    · exact ih x (starts.callDepth_eq.trans outside) ends

/-! ## Parsed trees -/

/-- An expression gives a value if it ends, also inside a call. -/
theorem Node.IsExpression.eval_ne_returned {x : Node} (shape : x.IsExpression) (settings : Settings)
    (budget : Nat) (m : Machine) (v : Value) (m' : Machine) :
    eval settings budget x m ≠ .ok (.returned v) m' := by
  cases budget with
  | zero => nofun
  | succ budget =>
    intro returns
    rcases returns_cases returns with ⟨y, line, rfl, _⟩ | ⟨y, m₁, starts, _⟩
    · cases shape
    · cases shape <;> cases starts

namespace Node

theorem IsExpression.of_mem_parts {x y : Node} (shape : x.IsExpression) (member : y ∈ x.parts) :
    y.IsExpression := by
  cases shape with
  | number | truth | text | name | input => cases member
  | unary operand =>
    cases List.mem_singleton.mp member
    exact operand
  | binary _ left right | compare left right | logic left right =>
    simp only [parts, List.mem_cons, List.not_mem_nil, or_false] at member
    rcases member with rfl | rfl
    · exact left
    · exact right
  | call arguments => exact arguments y member

theorem IsStatement.of_mem_parts {returns : Nat → Prop} {x y : Node} (shape : x.IsStatement returns)
    (member : y ∈ x.parts) : y.IsStatement returns := by
  cases shape with
  | expression shape => exact .expression (shape.of_mem_parts member)
  | assign value =>
    simp only [parts, List.mem_cons, List.not_mem_nil, or_false] at member
    rcases member with rfl | rfl
    · exact .expression .name
    · exact .expression value
  | print value | ret _ value =>
    cases List.mem_singleton.mp member
    exact .expression value
  | conditional condition thenBlock elseBranch =>
    simp only [parts, List.mem_cons, Option.mem_toList] at member
    rcases member with rfl | rfl | member
    · exact .expression condition
    · exact thenBlock
    · exact elseBranch y member
  | block statements => exact statements y member
  | loop condition body =>
    simp only [parts, List.mem_cons, List.not_mem_nil, or_false] at member
    rcases member with rfl | rfl
    · exact .expression condition
    · exact body
  | function body =>
    cases List.mem_singleton.mp member
    exact body

end Node

namespace Eval

variable {run : Node → Eval Completion} {settings : Settings} {rounds : Nat} {node x : Node}
  {m m' : Machine} {use : Use} {returns : Nat → Prop}

/-- What is started for its value is an expression. -/
theorem Starts.isExpression (starts : Starts run settings rounds node m use x m')
    (shape : node.IsStatement returns) (value : use = .value) : x.IsExpression := by
  have member := starts.mem_parts
  cases starts with
  | operand | compared | decides | undecided | argument =>
    cases shape with
    | expression shape => exact shape.of_mem_parts member
  | operands computes order =>
    cases shape with
    | assign => exact absurd rfl computes
    | expression shape => exact shape.of_mem_parts member
  | assigned =>
    cases shape with
    | assign value => exact value
    | expression shape => exact shape.of_mem_parts member
  | loop order =>
    cases order.eq_condition value
    cases shape with
    | loop condition => exact condition
    | expression shape => cases shape
  | printed | condition | returned =>
    cases shape with
    | expression shape => cases shape
    | _ => assumption
  | thenBlock | elseBranch | statement => cases value

end Eval

/-- The bodies in the table are those of parsed functions. -/
def Machine.Tidy (m : Machine) : Prop :=
  m.Declares fun d => d.body.IsStatement fun _ => True

theorem Eval.lasting_isStatement : Lasting (fun _ x => x.IsStatement fun _ => True)
    (fun d => d.body.IsStatement fun _ => True) where
  parts shape member := shape.of_mem_parts member
  declared shape := by
    cases shape with
    | function body => exact body
    | expression shape => cases shape
  body _ := id

theorem tidy_after_eval (settings : Settings) (budget : Nat) {node : Node} {m : Machine}
    (shape : node.IsStatement fun _ => True) (tidy : m.Tidy) :
    (after (eval settings budget node) m).Tidy :=
  Eval.lasting_isStatement.declares_after_eval settings budget [] shape tidy

/-! ## Runs of parsed scripts -/

/-- A run at the place that the grammar has for it.  Outside of calls, `return` stands on the lines that
    `returns` allows. -/
structure Placed (returns : Nat → Prop) (use : Use) (x : Node) (m : Machine) : Prop where
  tidy : m.Tidy
  value : use = .value → x.IsExpression ∨ m.callDepth = 0
  shape : x.IsStatement fun l => m.callDepth = 0 → returns l

/-- Running the statements comes to a `return` on line `l` while no call is open, and that stops it. -/
def Eval.ReachesStrayReturn (settings : Settings) (budget : Nat) (statements : List Node) (m : Machine)
    (l : Nat) : Prop :=
  ∃ calls use b y m' m'', Reached settings budget statements m calls use b (.ret y l) m' ∧ m'.callDepth = 0 ∧
    eval settings b (.ret y l) m' = .error (.fault ⟨.strayReturn, l⟩) m''

section Script

variable {settings : Settings} {budget : Nat} {statements : List Node} {m : Machine}
  {returns : Nat → Prop} (shapes : ∀ x ∈ statements, x.IsStatement returns) (tidy : m.Tidy)
  (outside : m.callDepth = 0)

include shapes tidy outside

theorem Eval.Reached.placed {calls : List Declaration} {use : Use} {b : Nat} {x : Node} {m' : Machine}
    (reached : Reached settings budget statements m calls use b x m') : Placed returns use x m' := by
  have any {x : Node} {returns : Nat → Prop} (shape : x.IsStatement returns) :
      x.IsStatement fun _ => True := shape.imp fun _ _ => trivial
  have parts {use : Use} {b : Nat} {x : Node} {m₁ : Machine} (placed : Placed returns use x m₁)
      (y : Node) (member : y ∈ x.parts) (m : Machine) (tidy : m.Tidy) :
      (after (eval settings b y) m).Tidy :=
    tidy_after_eval settings b (any (placed.shape.of_mem_parts member)) tidy
  -- a part stands where its tree stands, and a body is that of a parsed function
  induction reached with
  | @statement x m' order =>
    have kept : m'.Tidy ∧ m'.callDepth = 0 := by
      apply order.keeps (I := fun m => m.Tidy ∧ m.callDepth = 0) _ ⟨tidy, outside⟩
      rintro y member m₁ ⟨tidy₁, outside₁⟩
      exact ⟨tidy_after_eval settings budget (any (shapes y member)) tidy₁,
        (callDepth_after_eval settings budget y m₁).trans outside₁⟩
    exact ⟨kept.1, fun _ => .inr kept.2, (shapes x order.mem).imp fun l allowed _ => allowed⟩
  | @part _ _ b x m₁ use' y m₂ _ starts ih =>
    have kept : m₂.Tidy := starts.keeps (parts ih) ih.tidy
    refine ⟨kept, fun value => .inl (starts.isExpression ih.shape value), ?_⟩
    rw [starts.callDepth_eq]
    exact ih.shape.of_mem_parts starts.mem_parts
  | @body _ _ b x m₁ d frame m₂ _ enters ih =>
    have kept : m₂.Tidy := enters.keeps (parts ih) ih.tidy
    obtain ⟨admitted, _⟩ := enters
    refine ⟨kept, nofun, (ih.tidy _ _ admitted.found).imp ?_⟩
    intro l _ inside
    exact absurd inside (Nat.succ_ne_zero _)

/-- What is run for its value gives one, if it ends. -/
theorem Eval.Reached.ne_returned {calls : List Declaration} {b : Nat} {x : Node} {m' : Machine}
    (reached : Reached settings budget statements m calls .value b x m') (v : Value) (m'' : Machine) :
    eval settings b x m' ≠ .ok (.returned v) m'' := by
  rcases (reached.placed shapes tidy outside).value rfl with expression | noCall
  · exact expression.eval_ne_returned settings b m' v m''
  · exact eval_ne_returned settings b x noCall v m''

theorem Eval.Origin.ne_invalidTarget {l : Nat}
    (origin : Origin settings budget statements m (.fault ⟨.invalidTarget, l⟩)) : False := by
  cases origin with
  | cut unfinished => cases unfinished
  | stray reached ends _ => exact reached.ne_returned shapes tidy outside _ _ ends
  | own reached raises =>
    obtain ⟨y, z, rfl, noName⟩ := raises.misplaced.1 rfl
    cases (reached.placed shapes tidy outside).shape with
    | assign => exact noName _ _ rfl
    | expression shape =>
      cases shape with
      | binary computes => exact computes rfl

theorem Eval.Origin.reachesStrayReturn {l : Nat}
    (origin : Origin settings budget statements m (.fault ⟨.strayReturn, l⟩)) :
    ReachesStrayReturn settings budget statements m l ∧ returns l := by
  cases origin with
  | cut unfinished => cases unfinished
  | stray reached ends _ => exact absurd ends (reached.ne_returned shapes tidy outside _ _)
  | own reached raises stops =>
    obtain ⟨y, rfl, noCall⟩ := raises.misplaced.2 rfl
    refine ⟨⟨_, _, _, y, _, _, reached, noCall, stops⟩, ?_⟩
    cases (reached.placed shapes tidy outside).shape with
    | ret line => exact line noCall
    | expression shape => cases shape

end Script

/-! ## Sessions -/

/-- A machine on which scripts have been run one after another, each with settings and a budget of its
    own and however it ended, and whose console may have changed in between. -/
inductive Machine.InSession : Machine → Prop where
  | fresh (console : Console) : InSession (.fresh console)
  | withConsole {m} (before : InSession m) (console : Console) : InSession { m with console := console }
  | script {m line source statements} (before : InSession m)
      (parsed : parseAt line source = .ok statements) (settings : Settings) (budget : Nat) :
      InSession (after (evaluate settings budget statements) m)

theorem isStatement_of_parsed {line : Nat} {source : String} {statements : List Node}
    (parsed : parseAt line source = .ok statements) :
    ∃ tokens, lexemes line source = .ok tokens ∧
      ∀ x ∈ statements, x.IsStatement fun l => ⟨.symbol .returnWord, l⟩ ∈ tokens := by
  obtain ⟨tokens, scanned, _⟩ := parseAt_eq_ok_iff.mp parsed
  exact ⟨tokens, scanned, fun x member => isStatement_of_parseAt scanned parsed member⟩

namespace Machine.InSession

theorem tidy_outside {m : Machine} (session : m.InSession) : m.Tidy ∧ m.callDepth = 0 := by
  induction session with
  | fresh console => exact ⟨fun name declaration found => by simp [Machine.fresh] at found, rfl⟩
  | withConsole _ _ ih => exact ih
  | script _ parsed settings budget ih =>
    obtain ⟨_, _, shapes⟩ := isStatement_of_parsed parsed
    apply evaluate_keeps (I := fun m => m.Tidy ∧ m.callDepth = 0) _ ih
    rintro x member m₁ ⟨tidy, outside⟩
    have shape := (shapes x member).imp fun _ _ => trivial
    exact ⟨tidy_after_eval settings budget shape tidy,
      (callDepth_after_eval settings budget x m₁).trans outside⟩

end Machine.InSession

/-! ### Whole scripts and lines -/

namespace Script

variable {settings : Settings} {budget : Nat} {m m' : Machine} {fault : RuntimeFault}

/-- The fault comes from running the text on a machine of a session, or from the console. -/
def FaultOf (settings : Settings) (budget line : Nat) (source : String) (fault : RuntimeFault) : Prop :=
  (∃ m m' statements, Machine.InSession m ∧ parseAt line source = .ok statements ∧
    evaluate settings budget statements m = .error (.fault fault) m') ∨
  ∃ cause, fault.cause = .console cause

theorem faultOf_of_run {printsValue : Bool} {source : String} (session : m.InSession)
    (fails : run settings budget printsValue source m = .error (.run (.fault fault)) m') :
    FaultOf settings budget 1 source fault := by
  cases parsed : parseAt 1 source with
  | error refusal => cases (run_of_refused parsed m).symm.trans fails
  | ok statements =>
    rw [run_of_parsed parsed] at fails
    cases ends : evaluate settings budget statements m with
    | error halt m₁ =>
      cases (bind_of_error (perform_of_error ends)).symm.trans fails
      exact .inl ⟨m, m', statements, session, parsed, ends⟩
    | ok v m₁ =>
      rw [bind_of_ok (perform_of_ok ends)] at fails
      rcases conclude_cases printsValue statements v m₁ with ⟨c, _, done⟩ | ⟨cause, c, _, _, refused⟩
      · cases done.symm.trans fails
      · cases refused.symm.trans fails
        exact .inr ⟨cause, rfl⟩

theorem faultOf_of_runLinesFrom {line : Nat} {lines : List (List Char)} (session : m.InSession)
    (fails : runLinesFrom settings budget line lines m = .error (.run (.fault fault)) m') :
    ∃ i text, lines[i]? = some text ∧ FaultOf settings budget (line + i) (String.ofList text) fault := by
  induction lines generalizing line m with
  | nil => cases fails
  | cons text rest ih =>
    have later {m₁ : Machine} (session : m₁.InSession)
        (fails : runLinesFrom settings budget (line + 1) rest m₁ = .error (.run (.fault fault)) m') :
        ∃ i text', (text :: rest)[i]? = some text' ∧
          FaultOf settings budget (line + i) (String.ofList text') fault := by
      obtain ⟨i, text', found, faultOf⟩ := ih session fails
      exact ⟨i + 1, text', found, by rwa [Nat.add_right_comm] at faultOf⟩
    -- a blank line and one that runs to its end both leave a machine of the session
    have result := lineResult settings budget line text m
    rw [runLinesFrom] at fails
    cases ran : runLine settings budget line text m with
    | error failure m₁ =>
      rw [ran] at result
      cases (bind_of_error ran).symm.trans fails
      cases result with
      | stopped parsed stops => exact ⟨0, text, rfl, .inl ⟨m, m', _, session, parsed, stops⟩⟩
      | unprinted => exact ⟨0, text, rfl, .inr ⟨_, rfl⟩⟩
    | ok _ m₁ =>
      rw [ran] at result
      rw [bind_of_ok ran] at fails
      cases result with
      | blank => exact later session fails
      | @done _ _ m₂ c parsed ends =>
        have session₂ : m₂.InSession := after_of_ok ends ▸ .script session parsed settings budget
        exact later (.withConsole session₂ c) fails

theorem FaultOf.ne_invalidTarget {line : Nat} {source : String}
    (faultOf : FaultOf settings budget line source fault) : fault.cause ≠ .invalidTarget := by
  obtain ⟨cause, l⟩ := fault
  rintro rfl
  rcases faultOf with ⟨m, m', statements, session, parsed, stops⟩ | ⟨cause, same⟩
  · obtain ⟨_, _, shapes⟩ := isStatement_of_parsed parsed
    obtain ⟨tidy, outside⟩ := session.tidy_outside
    exact (origin_of_evaluate stops).ne_invalidTarget shapes tidy outside
  · cases same

theorem FaultOf.return_mem {line : Nat} {source : String}
    (faultOf : FaultOf settings budget line source fault) (stray : fault.cause = .strayReturn) :
    ∃ tokens, lexemes line source = .ok tokens ∧ ⟨.symbol .returnWord, fault.line⟩ ∈ tokens := by
  obtain ⟨cause, l⟩ := fault
  cases stray
  rcases faultOf with ⟨m, m', statements, session, parsed, stops⟩ | ⟨cause, same⟩
  · obtain ⟨tokens, scanned, shapes⟩ := isStatement_of_parsed parsed
    obtain ⟨tidy, outside⟩ := session.tidy_outside
    exact ⟨tokens, scanned, ((origin_of_evaluate stops).reachesStrayReturn shapes tidy outside).2⟩
  · cases same

end Script

/-- In a session, no run of a parsed script, however deep inside another one, finds something other than
    a variable assigned to, and none that is for a value returns.  A stray `return` is one that is reached
    while no call is open, and the fault is on the line of its word.  The same holds when scripts are run
    as a whole or line by line.  And where no call is open, no tree at all ends with `return`. -/
theorem misplaced_unreachable :
    (∀ (settings : Settings) (budget : Nat) (m : Machine) (line : Nat) (source : String)
      (tokens : List Lexeme) (statements : List Node), m.InSession →
      lexemes line source = .ok tokens → parseAt line source = .ok statements →
      (∀ calls use b x m', Reached settings budget statements m calls use b x m' →
        (∀ l m'', eval settings b x m' ≠ .error (.fault ⟨.invalidTarget, l⟩) m'') ∧
        (use = .value → ∀ v m'', eval settings b x m' ≠ .ok (.returned v) m'') ∧
        ∀ l m'', eval settings b x m' = .error (.fault ⟨.strayReturn, l⟩) m'' →
          ReachesStrayReturn settings budget statements m l ∧ ⟨.symbol .returnWord, l⟩ ∈ tokens) ∧
      (∀ l, outcome (evaluate settings budget statements) m ≠ .error (.fault ⟨.invalidTarget, l⟩)) ∧
      ∀ l, outcome (evaluate settings budget statements) m = .error (.fault ⟨.strayReturn, l⟩) →
        ReachesStrayReturn settings budget statements m l ∧ ⟨.symbol .returnWord, l⟩ ∈ tokens) ∧
    (∀ (settings : Settings) (budget : Nat) (printsValue : Bool) (source : String) (m m' : Machine)
      (fault : RuntimeFault), m.InSession →
      Script.run settings budget printsValue source m = .error (.run (.fault fault)) m' →
      fault.cause ≠ .invalidTarget ∧
      (fault.cause = .strayReturn → ∃ tokens, lexemes 1 source = .ok tokens ∧
        ⟨.symbol .returnWord, fault.line⟩ ∈ tokens)) ∧
    (∀ (settings : Settings) (budget : Nat) (source : String) (m m' : Machine) (fault : RuntimeFault),
      m.InSession → Script.runLines settings budget source m = .error (.run (.fault fault)) m' →
      fault.cause ≠ .invalidTarget ∧
      (fault.cause = .strayReturn → ∃ i text tokens, (Text.lines source.toList)[i]? = some text ∧
        lexemes (i + 1) (String.ofList text) = .ok tokens ∧
        ⟨.symbol .returnWord, fault.line⟩ ∈ tokens)) ∧
    ∀ (settings : Settings) (budget : Nat) (node : Node) (m : Machine), m.callDepth = 0 →
      ∀ v m', eval settings budget node m ≠ .ok (.returned v) m' := by
  refine ⟨?_, ?_, ?_, fun settings budget node m => eval_ne_returned settings budget node⟩
  · -- running a tree is traced back to a tree that stops by itself, and that one is placed
    intro settings budget m line source tokens statements session scanned parsed
    obtain ⟨tidy, outside⟩ := session.tidy_outside
    have shapes (x : Node) (member : x ∈ statements) := isStatement_of_parseAt scanned parsed member
    have stops {halt : Halt} (ends : outcome (evaluate settings budget statements) m = .error halt) :
        Origin settings budget statements m halt := by
      unfold outcome at ends
      cases result : evaluate settings budget statements m with
      | ok v m' => rw [result] at ends; cases ends
      | error halt m' => rw [result] at ends; cases ends; exact origin_of_evaluate result
    refine ⟨?_, fun l ends => (stops ends).ne_invalidTarget shapes tidy outside,
      fun l ends => (stops ends).reachesStrayReturn shapes tidy outside⟩
    intro calls use b x m' reached
    refine ⟨fun l m'' ends => (reached.origin ends).ne_invalidTarget shapes tidy outside, ?_,
      fun l m'' ends => (reached.origin ends).reachesStrayReturn shapes tidy outside⟩
    rintro rfl
    exact reached.ne_returned shapes tidy outside
  · intro settings budget printsValue source m m' fault session fails
    have faultOf := Script.faultOf_of_run session fails
    exact ⟨faultOf.ne_invalidTarget, faultOf.return_mem⟩
  · -- a line fails as the script that it is
    intro settings budget source m m' fault session fails
    obtain ⟨i, text, found, faultOf⟩ := Script.faultOf_of_runLinesFrom session fails
    rw [Nat.add_comm] at faultOf
    refine ⟨faultOf.ne_invalidTarget, fun stray => ?_⟩
    obtain ⟨tokens, scanned, member⟩ := faultOf.return_mem stray
    exact ⟨i, text, tokens, found, scanned, member⟩

/-- A script whose call fails inside its body, and after it one with a `return` on its second line. -/
theorem misplaced_unreachable_after_failed_call :
    let first := "def f()\x7breturn z\x7df()"
    let second := "\nreturn z"
    let script : List Node := [.function "f" [] (.block [.ret (.name "z" 1) 1] (some 1)) 1, .call "f" [] 1]
    let m := after (evaluate .standard 9 script) (.fresh (.ofInput []))
    parseAt 1 first = .ok script ∧
    outcome (evaluate .standard 9 script) (.fresh (.ofInput [])) =
      .error (.fault ⟨.unknownVariable "z", 1⟩) ∧
    m.InSession ∧ parseAt 1 second = .ok [.ret (.name "z" 2) 2] ∧
    ReachesStrayReturn .standard 9 [.ret (.name "z" 2) 2] m 2 ∧
    (∃ tokens, lexemes 1 second = .ok tokens ∧ ⟨.symbol .returnWord, 2⟩ ∈ tokens) ∧
    ∃ m', Script.run .standard 9 false second m = .error (.run (.fault ⟨.strayReturn, 2⟩)) m' := by
  intro first second script m
  have scanned : lexemes 1 first = .ok
      [⟨.symbol .defWord, 1⟩, ⟨.name "f", 1⟩, ⟨.symbol .openParen, 1⟩, ⟨.symbol .closeParen, 1⟩,
        ⟨.symbol .openBrace, 1⟩, ⟨.symbol .returnWord, 1⟩, ⟨.name "z", 1⟩, ⟨.symbol .closeBrace, 1⟩,
        ⟨.name "f", 1⟩, ⟨.symbol .openParen, 1⟩, ⟨.symbol .closeParen, 1⟩, ⟨.endOfInput, 1⟩] := by cbv
  have scanned' : lexemes 1 second = .ok
      [⟨.symbol .returnWord, 2⟩, ⟨.name "z", 2⟩, ⟨.endOfInput, 2⟩] := by cbv
  have parsed : parseAt 1 first = .ok script := parseAt_eq_ok_iff.mpr ⟨_, scanned, by rfl⟩
  have parsed' : parseAt 1 second = .ok [.ret (.name "z" 2) 2] :=
    parseAt_eq_ok_iff.mpr ⟨_, scanned', by rfl⟩
  have failed : outcome (evaluate .standard 9 script) (.fresh (.ofInput [])) =
      .error (.fault ⟨.unknownVariable "z", 1⟩) := by rfl
  have session : m.InSession := .script (.fresh _) parsed .standard 9
  have fails : evaluate .standard 9 [.ret (.name "z" 2) 2] m = .error (.fault ⟨.strayReturn, 2⟩) m := by
    rfl
  have ends : outcome (evaluate .standard 9 [.ret (.name "z" 2) 2]) m =
      .error (.fault ⟨.strayReturn, 2⟩) := by
    unfold outcome
    rw [fails]
  obtain ⟨reaches, member⟩ :=
    (misplaced_unreachable.1 .standard 9 m 1 second _ _ session scanned' parsed').2.2 2 ends
  exact ⟨parsed, failed, session, parsed', reaches, ⟨_, scanned', member⟩, m,
    (bind_of_ok (Script.read_ok parsed' m)).trans (bind_of_error (Script.perform_of_error fails))⟩

end SmallScript
