import SmallScript.Proofs.Evaluation.Placement
import SmallScript.Proofs.Evaluation.ScopeDiscipline

/-! # Expressions leave variables alone

Only an assignment sets a variable, and it sets one of the innermost scope.  An expression holds no
assignment, and the assignments in the functions that it calls go to scopes that are gone when the calls
are closed.  So an expression leaves all scopes as they were, with whatever it ends.

* `scopes_after_expression` is the induction: what is started in the scope of an expression are expressions
  again, and a body is run above scopes that it keeps.
* `Machine.Above outer m`: the scopes `outer` lie below those of the calls that have been opened since.
  `Reached.above` says so of all runs inside the body of a function.
-/

namespace SmallScript

open Eval

/-- What the rule for expressions returns is an expression. -/
theorem Grammar.isExpression_of_expression {room : Nat} {tokens rest : List Lexeme} {x : Node}
    (read : (rules room).expression tokens = .ok x rest) : x.IsExpression := by
  obtain ⟨used, _, content⟩ := ((rules_sound room 0 room (by omega)).expression free_nil).reads x rest read
  have shape : (Phrase.expression x).Shaped fun _ => True := content.shaped fun _ _ => trivial
  exact shape

/-! ## Scopes below a call -/

/-- The scopes `outer` lie below the scope of a call, and perhaps of others that it has opened. -/
def Machine.Above (outer : List Scope) (m : Machine) : Prop :=
  ∃ frame inner, m.scopes = frame :: (inner ++ outer)

namespace Machine.Above

variable {outer : List Scope} {m : Machine}

theorem enter (above : m.Above outer) (frame : Scope) : (m.enter frame).Above outer := by
  obtain ⟨top, inner, split⟩ := above
  exact ⟨frame, top :: inner, by rw [scopes_enter, split]; rfl⟩

theorem after_eval (above : m.Above outer) (settings : Settings) (budget : Nat) (node : Node) :
    (after (eval settings budget node) m).Above outer := by
  obtain ⟨top, inner, split⟩ := above
  have opened : m.scopes ≠ [] := by rw [split]; exact List.cons_ne_nil _ _
  obtain ⟨_, top', below, before, ends, _⟩ := (kept_after_eval settings budget node opened).scopes
  cases split.symm.trans before
  exact ⟨top', inner, ends⟩

end Machine.Above

/-- Wherever a run inside the body of a call has come to, the scopes below the call are as they were. -/
theorem Eval.Reached.above {settings : Settings} {budget : Nat} {body : Node} {frame : Scope}
    {m m' : Machine} {calls : List Declaration} {use : Use} {b : Nat} {x : Node}
    (reached : Reached settings budget [body] (m.enter frame) calls use b x m') : m'.Above m.scopes := by
  induction reached with
  | statement order =>
    refine order.keeps (fun y _ m₁ above => above.after_eval settings budget y) ?_
    exact ⟨frame, [], rfl⟩
  | part _ starts ih => exact starts.keeps (fun y _ m₁ above => above.after_eval settings _ y) ih
  | body _ enters ih =>
    have arguments := enters.keeps (fun y _ m₁ above => above.after_eval settings _ y) ih
    exact arguments.enter _

/-- A body changes no scope but its own. -/
theorem scopes_after_body (settings : Settings) (budget : Nat) (body : Node) (frame : Scope) (m : Machine) :
    ∃ frame', (after (eval settings budget body) (m.enter frame)).scopes = frame' :: m.scopes := by
  obtain ⟨_, frame', outer, before, ends, _⟩ :=
    (kept_after_eval settings budget body (m := m.enter frame) (List.cons_ne_nil _ _)).scopes
  cases before
  exact ⟨frame', ends⟩

/-- What it does to that one is gone when the call is closed. -/
theorem scopes_after_inFrame (settings : Settings) (budget : Nat) (body : Node) (frame : Scope)
    {m : Machine} (opened : m.scopes ≠ []) :
    (after (inFrame frame (eval settings budget body)) m).scopes = m.scopes := by
  have closed : after (inFrame frame (eval settings budget body)) m =
      (after (eval settings budget body) (m.enter frame)).leave := by
    unfold after inFrame
    cases eval settings budget body (m.enter frame) <;> rfl
  obtain ⟨frame', ends⟩ := scopes_after_body settings budget body frame m
  rw [closed]
  exact Machine.scopes_leave ends opened

/-! ## Expressions -/

theorem scopes_after_expression (settings : Settings) (budget : Nat) {x : Node} (shape : x.IsExpression)
    {m : Machine} (opened : m.scopes ≠ []) : (after (eval settings budget x) m).scopes = m.scopes := by
  induction budget generalizing x m with
  | zero => rfl
  | succ budget ih =>
    have agree : Agree (fun m' => m'.scopes = m.scopes) (fun _ => True)
        (step (eval settings budget) settings budget x) (step (eval settings budget) settings budget x) m := by
      -- between the steps the scopes are those at the start, and in a body one more lies above them
      apply step_agree (I := fun m' => m'.scopes = m.scopes)
        (J := fun m' => ∃ frame, m'.scopes = frame :: m.scopes) rfl
      case console => exact fun m' c same => same
      case define =>
        rintro m' name value ⟨l, y, line, rfl⟩ _
        -- an expression assigns nothing itself
        cases shape with
        | binary computes => exact absurd rfl computes
      case declare =>
        rintro name params body line rfl
        cases shape
      case parts =>
        intro use y m' starts same
        have part := ih (shape.of_mem_parts starts.mem_parts) (m := m') (same ▸ opened)
        exact .of_keeps (part.trans same)
      case bodies =>
        intro d frame m' _ same
        obtain ⟨frame', ends⟩ := scopes_after_body settings budget d.body frame m'
        exact ⟨rfl, fine_of_after ⟨frame', same ▸ ends⟩⟩
      case leave =>
        rintro m' ⟨frame, split⟩
        exact Machine.scopes_leave split opened
      case own => exact fun _ _ => trivial
    exact agree.fine.after

theorem after_valueOf (run : Node → Eval Completion) (x : Node) (m : Machine) :
    after (valueOf run x) m = after (run x) m := by
  unfold after
  cases ends : run x m with
  | error halt m' => rw [valueOf_of_error ends]
  | ok completion m' =>
    cases completion with
    | normal v => rw [valueOf_of_normal ends]
    | returned v => rw [valueOf_of_returned ends]

theorem after_truthOf (run : Node → Eval Completion) (x : Node) (line : Nat) (m : Machine) :
    after (truthOf run x line) m = after (run x) m := by
  rw [← after_valueOf]
  unfold after
  cases ends : valueOf run x m with
  | error halt m' => rw [truthOf_of_error ends]
  | ok v m' =>
    have rest : truthOf run x line m = ofExcept (v.asBoolean line) m' := bind_of_ok ends
    rw [rest]
    cases v.asBoolean line <;> rfl

/-! ## Statements whose expression fails -/

theorem scopes_of_failed_value {settings : Settings} {budget : Nat} {x : Node} (shape : x.IsExpression)
    {m m' : Machine} (opened : m.scopes ≠ []) {halt : Halt}
    (fails : valueOf (eval settings budget) x m = .error halt m') : m'.scopes = m.scopes := by
  have kept := scopes_after_expression settings budget shape opened
  rw [← after_valueOf, after, fails] at kept
  exact kept

theorem scopes_of_failed_condition {settings : Settings} {budget : Nat} {x : Node} (shape : x.IsExpression)
    {m m' : Machine} (opened : m.scopes ≠ []) {line : Nat} {halt : Halt}
    (fails : truthOf (eval settings budget) x line m = .error halt m') : m'.scopes = m.scopes := by
  have kept := scopes_after_expression settings budget shape opened
  rw [← after_truthOf _ x line, after, fails] at kept
  exact kept

/-- Outside of calls a `return` fails before it looks at its expression. -/
theorem scopes_of_failed_return {settings : Settings} {budget : Nat} {x : Node} (shape : x.IsExpression)
    {m m' : Machine} (opened : m.scopes ≠ []) {halt : Halt}
    (fails : valueOf (eval settings budget) x m = .error halt m') (line : Nat) :
    (after (eval settings (budget + 1) (.ret x line)) m).scopes = m.scopes := by
  by_cases outside : m.callDepth = 0
  · have stops : eval settings (budget + 1) (.ret x line) m = .error (.fault ⟨.strayReturn, line⟩) m := by
      change (if m.callDepth = 0 then _ else _ : Eval Completion) m = _
      rw [if_pos outside]
      rfl
    rw [after, stops]
  · have stops : eval settings (budget + 1) (.ret x line) m = .error halt m' := by
      change (if m.callDepth = 0 then _ else _ : Eval Completion) m = _
      rw [if_neg outside]
      exact bind_of_error fails
    rw [after, stops]
    exact scopes_of_failed_value shape opened fails

/-- A condition that fails in some round stops the loop. -/
theorem Eval.Looping.repeatWhile_fails {run : Node → Eval Completion} {condition body x : Node} {n : Nat}
    {m m₁ m₂ : Machine} {use : Use} {line : Nat} {halt : Halt}
    (order : Looping run condition body n m use x m₁) (value : use = .value)
    (fails : truthOf run x line m₁ = .error halt m₂) (last : Value) :
    repeatWhile run condition body line n last m = .error halt m₂ := by
  induction order generalizing last with
  | test => exact bind_of_error fails
  | round => cases value
  | again holds ends _ ih =>
    refine (bind_of_ok (truthOf_of_normal holds line)).trans ?_
    exact (bind_of_ok ends).trans (ih value fails _)

/-- What is read as an expression leaves all scopes as they were, whether it ends with a value or with a
    fault, and whatever functions it calls.  So a statement whose expression fails leaves them as they were,
    and a loop whose condition fails leaves them as the rounds before did.  While the body of a function is
    run the scopes below its own are those of the caller, and after it the scopes are again the caller's. -/
theorem expressions_leave_variables (settings : Settings) (budget : Nat) :
    (∀ room tokens x rest, (Grammar.rules room).expression tokens = .ok x rest → x.IsExpression) ∧
    (∀ x m, x.IsExpression → m.scopes ≠ [] →
      (after (valueOf (eval settings budget) x) m).scopes = m.scopes) ∧
    (∀ x m halt m', x.IsExpression → m.scopes ≠ [] → valueOf (eval settings budget) x m = .error halt m' →
      ∀ n l line, ∀ statement ∈ [Node.binary (.name n l) .assign x line, .print x line, .ret x line],
        (after (eval settings (budget + 1) statement) m).scopes = m.scopes) ∧
    (∀ c b e line m halt m', c.IsExpression → m.scopes ≠ [] →
      truthOf (eval settings budget) c (c.line?.getD line) m = .error halt m' →
      (after (eval settings (budget + 1) (.conditional c b e line)) m).scopes = m.scopes) ∧
    (∀ c b line m m₁ halt m', c.IsExpression → m.scopes ≠ [] →
      Looping (eval settings budget) c b budget m .value c m₁ →
      truthOf (eval settings budget) c (c.line?.getD line) m₁ = .error halt m' →
      (after (eval settings (budget + 1) (.loop c b line)) m).scopes = m₁.scopes) ∧
    ∀ body frame m, m.scopes ≠ [] →
      (∀ calls use b x m', Reached settings budget [body] (m.enter frame) calls use b x m' →
        ∃ inner, m'.scopes = inner ++ m.scopes) ∧
      (after (inFrame frame (eval settings budget body)) m).scopes = m.scopes := by
  refine ⟨fun room tokens x rest => Grammar.isExpression_of_expression, ?_, ?_, ?_, ?_, ?_⟩
  · intro x m shape opened
    rw [after_valueOf]
    exact scopes_after_expression settings budget shape opened
  · -- the expression fails, so the statement does nothing of its own
    intro x m halt m' shape opened fails n l line statement member
    have same := scopes_of_failed_value shape opened fails
    simp only [List.mem_cons, List.not_mem_nil, or_false] at member
    rcases member with rfl | rfl | rfl
    · have stops : eval settings (budget + 1) (.binary (.name n l) .assign x line) m = .error halt m' :=
        bind_of_error (bind_of_error fails)
      rwa [after, stops]
    · have stops : eval settings (budget + 1) (.print x line) m = .error halt m' := bind_of_error fails
      rwa [after, stops]
    · exact scopes_of_failed_return shape opened fails line
  · intro c b e line m halt m' shape opened fails
    have stops : eval settings (budget + 1) (.conditional c b e line) m = .error halt m' := bind_of_error fails
    rw [after, stops]
    exact scopes_of_failed_condition shape opened fails
  · -- the rounds before may change variables: what is kept are those they leave in `m₁`
    intro c b line m m₁ halt m' shape opened order fails
    have stops : eval settings (budget + 1) (.loop c b line) m = .error halt m' :=
      order.repeatWhile_fails rfl fails .empty
    have opened₁ : m₁.scopes ≠ [] := by
      refine order.keeps (I := fun m => m.scopes ≠ []) (fun y _ m₂ opened₂ => ?_) opened
      exact (kept_after_eval settings budget y opened₂).ne_nil
    rw [after, stops]
    exact scopes_of_failed_condition shape opened₁ fails
  · intro body frame m opened
    refine ⟨fun calls use b x m' reached => ?_, scopes_after_inFrame settings budget body frame opened⟩
    obtain ⟨top, inner, split⟩ := reached.above
    exact ⟨top :: inner, split⟩

/-- The assignment `x = f()`, where the function sets a variable `x` of its own before it fails. -/
theorem expressions_leave_variables_failed_call :
    let globals : Scope := (∅ : Scope).insert "x" (.boolean true)
    let body : Node := .block [.binary (.name "x" 2) .assign (.truth false 2) 2, .ret (.name "y" 3) 3] none
    let m : Machine := ⟨[globals], Std.TreeMap.empty.insert "f" ⟨"f", [], body, 1⟩, 0, .ofInput []⟩
    let call : Node := .call "f" [] 5
    call.IsExpression ∧ m.scopes ≠ [] ∧
    (∃ m', valueOf (eval .standard 6) call m = .error (.fault ⟨.unknownVariable "y", 3⟩) m') ∧
    (after (eval .standard 7 (.binary (.name "x" 5) .assign call 5)) m).scopes = [globals] := by
  intro globals body m call
  have shape : call.IsExpression := .call (by simp)
  have opened : m.scopes ≠ [] := List.cons_ne_nil _ _
  obtain ⟨m', fails⟩ : ∃ m', valueOf (eval .standard 6) call m =
      .error (.fault ⟨.unknownVariable "y", 3⟩) m' := ⟨_, rfl⟩
  obtain ⟨_, _, statements, _⟩ := expressions_leave_variables .standard 6
  exact ⟨shape, opened, ⟨m', fails⟩,
    statements call m _ m' shape opened fails "x" 5 5 _ List.mem_cons_self⟩

end SmallScript
