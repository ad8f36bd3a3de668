import SmallScript.Proofs.Evaluation.TwoRuns

/-! # Which parts a run starts

A step runs some of the parts of its tree, each on the machine that the ones before it leave behind,
and a call runs the body that it finds in the table of functions.  Nothing else that a step depends on
is a run, so a step is known once the runs it starts are known.

* `Starts run settings rounds node m use x m'`: a step of `node` on `m` runs `x` on `m'`.
* `Enters run settings node m d frame m'`: it runs the body of `d` in the new scope `frame` above `m'`.
* `Raises settings node m halt`: a step of `node` on `m` can stop with `halt` by itself.
* `step_agree` is the one place where the kinds of trees are gone through.  Steps whose parts agree
  agree, and what the parts keep the step keeps.  `step_congr`, `step_keeps` and `stopsBy_of_step` are
  what it says about results, machines and faults.
* `Starts.propagates` is the converse: a run that is started and stops, stops the step.
-/

namespace SmallScript

namespace Eval

/-! ## Values of parts -/

section Console

variable {α : Type} {action : Console.Action α} {m : Machine} {c : Console}

theorem onConsole_of_ok {v : α} (done : action m.console = .ok v c) (line : Nat) :
    onConsole line action m = .ok v { m with console := c } := by
  unfold onConsole
  simp only [done]

theorem onConsole_of_error {cause : String} (refused : action m.console = .error cause c) (line : Nat) :
    onConsole line action m = .error (.fault ⟨.console cause, line⟩) { m with console := c } := by
  unfold onConsole
  simp only [refused]

end Console

theorem asBoolean_eq_ok {v : Value} {line : Nat} {b : Bool} (is : v.asBoolean line = .ok b) :
    v = .boolean b := by
  cases v with
  | boolean => cases is; rfl
  | _ => cases is

section Values

variable {run : Node → Eval Completion} {x : Node} {m m' : Machine}

theorem valueOf_of_normal {v : Value} (ends : run x m = .ok (.normal v) m') :
    valueOf run x m = .ok v m' :=
  bind_of_ok ends

theorem valueOf_of_returned {v : Value} (ends : run x m = .ok (.returned v) m') :
    valueOf run x m = .error (.fault ⟨.strayReturn, x.line?.getD 0⟩) m' :=
  bind_of_ok ends

theorem valueOf_of_error {halt : Halt} (ends : run x m = .error halt m') :
    valueOf run x m = .error halt m' :=
  bind_of_error ends

theorem normal_of_valueOf {v : Value} (ends : valueOf run x m = .ok v m') :
    run x m = .ok (.normal v) m' := by
  cases first : run x m with
  | error halt m₁ => rw [valueOf_of_error first] at ends; cases ends
  | ok completion m₁ =>
    cases completion with
    | normal v' => rw [valueOf_of_normal first] at ends; cases ends; rfl
    | returned v' => rw [valueOf_of_returned first] at ends; cases ends

theorem truthOf_of_normal {b : Bool} (ends : run x m = .ok (.normal (.boolean b)) m') (line : Nat) :
    truthOf run x line m = .ok b m' :=
  bind_of_ok (valueOf_of_normal ends)

theorem truthOf_of_error {halt : Halt} (ends : valueOf run x m = .error halt m') (line : Nat) :
    truthOf run x line m = .error halt m' :=
  bind_of_error ends

theorem normal_of_truthOf {b : Bool} {line : Nat} (ends : truthOf run x line m = .ok b m') :
    run x m = .ok (.normal (.boolean b)) m' := by
  cases first : valueOf run x m with
  | error halt m₁ => rw [truthOf_of_error first] at ends; cases ends
  | ok v m₁ =>
    have rest : ofExcept (v.asBoolean line) m₁ = .ok b m' := (bind_of_ok first).symm.trans ends
    cases is : v.asBoolean line with
    | error fault => rw [is] at rest; cases rest
    | ok b' =>
      rw [is] at rest
      cases rest
      rw [← asBoolean_eq_ok is]
      exact normal_of_valueOf first

end Values

/-! ## The runs that a step starts -/

/-- A call that gets as far as its arguments. -/
structure Admits (settings : Settings) (m : Machine) (name : String) (arguments : List Node)
    (declaration : Declaration) : Prop where
  found : m.functions[name]? = some declaration
  fits : arguments.length = declaration.params.length
  below : m.callDepth < settings.maxCallDepth

section Relations

variable (run : Node → Eval Completion)

/-- Trees that are run one after another: `x` is run on `m'` after those before it have given values. -/
inductive Sequence : List Node → Machine → Node → Machine → Prop where
  | first {x xs m} : Sequence (x :: xs) m x m
  | later {x xs m v m₁ y m'} (ends : run x m = .ok (.normal v) m₁) (rest : Sequence xs m₁ y m') :
      Sequence (x :: xs) m y m'

/-- The rounds of a loop, of which there are at most so many. -/
inductive Looping (condition body : Node) : Nat → Machine → Use → Node → Machine → Prop where
  | test {n m} : Looping condition body (n + 1) m .value condition m
  | round {n m m₁} (holds : run condition m = .ok (.normal (.boolean true)) m₁) :
      Looping condition body (n + 1) m .statement body m₁
  | again {n m m₁ v m₂ use x m'} (holds : run condition m = .ok (.normal (.boolean true)) m₁)
      (ends : run body m₁ = .ok (.normal v) m₂) (rest : Looping condition body n m₂ use x m') :
      Looping condition body (n + 1) m use x m'

/-- A step of the first tree on the first machine runs the second tree on the second machine. -/
inductive Starts (settings : Settings) (rounds : Nat) :
    Node → Machine → Use → Node → Machine → Prop where
  | operand {op x line m} : Starts settings rounds (.unary op x line) m .value x m
  | operands {x op y line m z m'} (computes : op ≠ .assign) (order : Sequence run [x, y] m z m') :
      Starts settings rounds (.binary x op y line) m .value z m'
  | compared {x op y line m z m'} (order : Sequence run [x, y] m z m') :
      Starts settings rounds (.compare x op y line) m .value z m'
  | assigned {n l x line m} : Starts settings rounds (.binary (.name n l) .assign x line) m .value x m
  | decides {x op y line m} : Starts settings rounds (.logic x op y line) m .value x m
  | undecided {x op y line m m'}
      (first : run x m = .ok (.normal (.boolean (decide (op = .and)))) m') :
      Starts settings rounds (.logic x op y line) m .value y m'
  | printed {x line m} : Starts settings rounds (.print x line) m .value x m
  | condition {c b e line m} : Starts settings rounds (.conditional c b e line) m .value c m
  | thenBlock {c b e line m m'} (holds : run c m = .ok (.normal (.boolean true)) m') :
      Starts settings rounds (.conditional c b e line) m .statement b m'
  | elseBranch {c b e line m m'} (fails : run c m = .ok (.normal (.boolean false)) m') :
      Starts settings rounds (.conditional c b (some e) line) m .statement e m'
  | statement {xs line m x m'} (order : Sequence run xs m x m') :
      Starts settings rounds (.block xs line) m .statement x m'
  | loop {c b line m use x m'} (order : Looping run c b rounds m use x m') :
      Starts settings rounds (.loop c b line) m use x m'
  | argument {n xs line m declaration x m'} (admitted : Admits settings m n xs declaration)
      (order : Sequence run xs m x m') : Starts settings rounds (.call n xs line) m .value x m'
  | returned {x line m} (inCall : m.callDepth ≠ 0) : Starts settings rounds (.ret x line) m .value x m

/-- A step of the tree on the first machine runs a body in a new scope above the second machine. -/
inductive Enters (settings : Settings) : Node → Machine → Declaration → Scope → Machine → Prop where
  | body {n xs line m declaration frame m'} (admitted : Admits settings m n xs declaration)
      (bound : bindArguments run declaration.params xs ∅ m = .ok frame m') :
      Enters settings (.call n xs line) m declaration frame m'

end Relations

/-- The ways in which a step can stop by itself. -/
inductive Raises (settings : Settings) : Node → Machine → Halt → Prop where
  | unknownVariable {n line m} (unknown : m.lookup settings.scoping n = none) :
      Raises settings (.name n line) m (.fault ⟨.unknownVariable n, line⟩)
  | unary {op x line m v fault} (refused : Value.unary op v line = .error fault) :
      Raises settings (.unary op x line) m (.fault fault)
  | arithmetic {x op y line m v w fault} (computes : op ≠ .assign)
      (refused : Value.arithmetic op v w line = .error fault) :
      Raises settings (.binary x op y line) m (.fault fault)
  | invalidTarget {x y line m} (noName : ∀ n l, x ≠ .name n l) :
      Raises settings (.binary x .assign y line) m (.fault ⟨.invalidTarget, line⟩)
  | compare {x op y line m v w fault} (refused : Value.compare op v w line = .error fault) :
      Raises settings (.compare x op y line) m (.fault fault)
  | logic {x op y line m v fault} (refused : Value.asBoolean line v = .error fault) :
      Raises settings (.logic x op y line) m (.fault fault)
  | print {x line m} (cause : String) :
      Raises settings (.print x line) m (.fault ⟨.console cause, line⟩)
  | input {prompt line m} (cause : String) :
      Raises settings (.input prompt line) m (.fault ⟨.console cause, line⟩)
  | conditional {c b e line m v fault}
      (refused : Value.asBoolean (c.line?.getD line) v = .error fault) :
      Raises settings (.conditional c b e line) m (.fault fault)
  | loop {c b line m v fault} (refused : Value.asBoolean (c.line?.getD line) v = .error fault) :
      Raises settings (.loop c b line) m (.fault fault)
  | unfinished {c b line m} : Raises settings (.loop c b line) m .unfinished
  | unknownFunction {n xs line m} (unknown : m.functions[n]? = none) :
      Raises settings (.call n xs line) m (.fault ⟨.unknownFunction n, line⟩)
  | argumentCount {n xs line m declaration} (found : m.functions[n]? = some declaration)
      (differs : xs.length ≠ declaration.params.length) :
      Raises settings (.call n xs line) m
        (.fault ⟨.argumentCount n declaration.params.length xs.length, line⟩)
  | callDepthExceeded {n xs line m} (full : settings.maxCallDepth ≤ m.callDepth) :
      Raises settings (.call n xs line) m (.fault ⟨.callDepthExceeded settings.maxCallDepth, line⟩)
  | strayReturn {x line m} (outside : m.callDepth = 0) :
      Raises settings (.ret x line) m (.fault ⟨.strayReturn, line⟩)

/-! ## Agreement -/

/-- A result whose machine and whose halt, if it is one, are allowed. -/
def Fine {α : Type} (I : Machine → Prop) (E : Halt → Prop) : EStateM.Result Halt Machine α → Prop
  | .ok _ m => I m
  | .error halt m => E halt ∧ I m

section Fine

variable {α : Type} {I : Machine → Prop} {E : Halt → Prop} {x : Eval α} {m : Machine}

theorem Fine.after (fine : Fine I E (x m)) : I (Eval.after x m) := by
  unfold Eval.after
  cases ends : x m with
  | ok v m' =>
    rw [ends] at fine
    exact fine
  | error halt m' =>
    rw [ends] at fine
    exact fine.2

theorem fine_of_after (kept : I (Eval.after x m)) : Fine I (fun _ => True) (x m) := by
  unfold Eval.after at kept
  cases ends : x m with
  | ok v m' =>
    rw [ends] at kept
    exact kept
  | error halt m' =>
    rw [ends] at kept
    exact ⟨trivial, kept⟩

end Fine

/-- Two actions do the same on a machine, and the result is allowed. -/
structure Agree {α : Type} (I : Machine → Prop) (E : Halt → Prop) (x y : Eval α) (m : Machine) :
    Prop where
  same : x m = y m
  fine : Fine I E (x m)

/-- Two ways to run a part agree on it; where its value is needed, a `return` in it has to be an
    allowed fault. -/
structure AgreeOn (run run' : Node → Eval Completion) (I : Machine → Prop) (E : Halt → Prop)
    (use : Use) (x : Node) (m : Machine) : Prop extends Agree I E (run x) (run' x) m where
  stray : use = .value → ∀ v m', run x m = .ok (.returned v) m' →
    E (.fault ⟨.strayReturn, x.line?.getD 0⟩)

namespace Agree

variable {α β : Type} {I : Machine → Prop} {E : Halt → Prop} {m : Machine}

/-- Agreement where everything is allowed. -/
theorem of_same {x y : Eval α} (same : x m = y m) : Agree (fun _ => True) (fun _ => True) x y m := by
  refine ⟨same, ?_⟩
  cases x m with
  | ok => trivial
  | error => exact ⟨trivial, trivial⟩

theorem imp {J : Machine → Prop} {x y : Eval α} (agree : Agree I E x y m) (weaker : ∀ m, I m → J m) :
    Agree J E x y m := by
  refine ⟨agree.same, ?_⟩
  have fine := agree.fine
  cases ends : x m with
  | ok v m' =>
    rw [ends] at fine
    exact weaker m' fine
  | error halt m' =>
    rw [ends] at fine
    exact ⟨fine.1, weaker m' fine.2⟩

theorem pure (start : I m) (v : α) : Agree I E (Pure.pure v) (Pure.pure v) m :=
  ⟨rfl, start⟩

theorem throw (start : I m) {halt : Halt} (allowed : E halt) :
    Agree I E (MonadExcept.throw halt : Eval α) (MonadExcept.throw halt) m :=
  ⟨rfl, allowed, start⟩

theorem bind {x y : Eval α} {f g : α → Eval β} (first : Agree I E x y m)
    (next : ∀ v m', x m = .ok v m' → I m' → Agree I E (f v) (g v) m') :
    Agree I E (x >>= f) (y >>= g) m := by
  obtain ⟨same, fine⟩ := first
  cases ends : x m with
  | ok v m' =>
    rw [ends] at fine
    obtain ⟨same', fine'⟩ := next v m' ends fine
    refine ⟨?_, ?_⟩
    · rw [bind_of_ok ends, bind_of_ok (same.symm.trans ends), same']
    · rw [bind_of_ok ends]
      exact fine'
  | error halt m' =>
    rw [ends] at fine
    refine ⟨?_, ?_⟩
    · rw [bind_of_error ends, bind_of_error (same.symm.trans ends)]
    · rw [bind_of_error ends]
      exact fine

theorem get_bind {f g : Machine → Eval α} (next : Agree I E (f m) (g m) m) :
    Agree I E (get >>= f) (get >>= g) m :=
  ⟨next.same, next.fine⟩

theorem bind_pure {x y : Eval α} (first : Agree I E x y m) (f : α → β) :
    Agree I E (x >>= fun v => Pure.pure (f v)) (y >>= fun v => Pure.pure (f v)) m :=
  first.bind fun v _ _ start => .pure start (f v)

theorem ofExcept (start : I m) {result : Except RuntimeFault α}
    (allowed : ∀ fault, result = .error fault → E (.fault fault)) :
    Agree I E (Eval.ofExcept result) (Eval.ofExcept result) m := by
  cases result with
  | ok v => exact .pure start v
  | error fault => exact .throw start (allowed fault rfl)

theorem onConsole (start : I m) (console : ∀ m c, I m → I { m with console := c }) {line : Nat}
    (allowed : ∀ cause, E (.fault ⟨.console cause, line⟩)) (action : Console.Action α) :
    Agree I E (Eval.onConsole line action) (Eval.onConsole line action) m := by
  refine ⟨rfl, ?_⟩
  cases done : action m.console with
  | ok v c =>
    rw [onConsole_of_ok done]
    exact console m c start
  | error cause c =>
    rw [onConsole_of_error done]
    exact ⟨allowed cause, console m c start⟩

/-- A body that agrees in its own scope.  When it is closed, what `J` says of the machine has to give
    what `I` says. -/
theorem inFrame {J : Machine → Prop} {frame : Scope} {x y : Eval α}
    (body : Agree J E x y (m.enter frame)) (leave : ∀ m, J m → I m.leave) :
    Agree I E (Eval.inFrame frame x) (Eval.inFrame frame y) m := by
  obtain ⟨same, fine⟩ := body
  refine ⟨?_, ?_⟩
  · unfold Eval.inFrame
    rw [same]
  · unfold Eval.inFrame
    cases ends : x (m.enter frame) with
    | ok v m' =>
      rw [ends] at fine
      exact leave m' fine
    | error halt m' =>
      rw [ends] at fine
      exact ⟨fine.1, leave m' fine.2⟩

end Agree

/-! ### Parts of a tree -/

namespace AgreeOn

variable {run run' : Node → Eval Completion} {I : Machine → Prop} {E : Halt → Prop} {m : Machine}

theorem of_same {use : Use} {x : Node} (same : run x m = run' x m) :
    AgreeOn run run' (fun _ => True) (fun _ => True) use x m :=
  ⟨.of_same same, fun _ _ _ _ => trivial⟩

/-- A run agrees with itself, and what it keeps is kept. -/
theorem of_keeps {use : Use} {x : Node} (keeps : I (after (run x) m)) :
    AgreeOn run run I (fun _ => True) use x m :=
  ⟨⟨rfl, fine_of_after keeps⟩, fun _ _ _ _ => trivial⟩

theorem valueOf {x : Node} (part : AgreeOn run run' I E .value x m) :
    Agree I E (Eval.valueOf run x) (Eval.valueOf run' x) m := by
  refine part.toAgree.bind fun completion m' ends start => ?_
  cases completion with
  | normal v => exact .pure start v
  | returned v => exact .throw start (part.stray rfl v m' ends)

theorem truthOf {x : Node} {line : Nat} (part : AgreeOn run run' I E .value x m)
    (allowed : ∀ v fault, Value.asBoolean line v = .error fault → E (.fault fault)) :
    Agree I E (Eval.truthOf run x line) (Eval.truthOf run' x line) m :=
  part.valueOf.bind fun v _ _ start => .ofExcept start fun fault => allowed v fault

theorem inOrder {xs : List Node} (start : I m)
    (parts : ∀ x m', Sequence run xs m x m' → I m' → AgreeOn run run' I E .statement x m')
    (last : Value) : Agree I E (Eval.inOrder run last xs) (Eval.inOrder run' last xs) m := by
  induction xs generalizing m last with
  | nil => exact .pure start _
  | cons x xs ih =>
    refine (parts x m .first start).toAgree.bind fun completion m₁ ends start₁ => ?_
    cases completion with
    | normal v => exact ih start₁ (fun y m' order => parts y m' (.later ends order)) v
    | returned v => exact .pure start₁ _

theorem repeatWhile {condition body : Node} {line n : Nat} (start : I m)
    (allowed : ∀ v fault, Value.asBoolean line v = .error fault → E (.fault fault))
    (unfinished : E .unfinished)
    (parts : ∀ use x m', Looping run condition body n m use x m' → I m' →
      AgreeOn run run' I E use x m') (last : Value) :
    Agree I E (Eval.repeatWhile run condition body line n last)
      (Eval.repeatWhile run' condition body line n last) m := by
  induction n generalizing m last with
  | zero => exact .throw start unfinished
  | succ n ih =>
    refine ((parts _ _ _ .test start).truthOf allowed).bind fun goesOn m₁ test start₁ => ?_
    -- the test is over, so the places of the next rounds come behind it
    have holds := normal_of_truthOf test
    cases goesOn with
    | false => exact .pure start₁ _
    | true =>
      refine (parts _ _ _ (.round holds) start₁).toAgree.bind fun completion m₂ ends start₂ => ?_
      cases completion with
      | normal v =>
        exact ih start₂ (fun use x m' order => parts use x m' (.again holds ends order)) v
      | returned v => exact .pure start₂ _

theorem bindArguments {xs : List Node} (start : I m)
    (parts : ∀ x m', Sequence run xs m x m' → I m' → AgreeOn run run' I E .value x m')
    (params : List String) (frame : Scope) :
    Agree I E (Eval.bindArguments run params xs frame) (Eval.bindArguments run' params xs frame) m := by
  induction xs generalizing m params frame with
  | nil => cases params <;> exact .pure start _
  | cons x xs ih =>
    cases params with
    | nil => exact .pure start _
    | cons param params =>
      refine (parts x m .first start).valueOf.bind fun v m₁ ends start₁ => ?_
      have normal := normal_of_valueOf ends
      exact ih start₁ (fun y m' order => parts y m' (.later normal order)) params _

theorem connect {x y : Node} {op : LogicOp} {line : Nat}
    (allowed : ∀ v fault, Value.asBoolean line v = .error fault → E (.fault fault))
    (first : AgreeOn run run' I E .value x m)
    (second : ∀ m', run x m = .ok (.normal (.boolean (decide (op = .and)))) m' → I m' →
      AgreeOn run run' I E .value y m') :
    Agree I E (Eval.connect run x op y line) (Eval.connect run' x op y line) m := by
  refine (first.truthOf allowed).bind fun decided m₁ ends start₁ => ?_
  have other (undecided : decided = decide (op = .and)) :=
    ((second m₁ (undecided ▸ normal_of_truthOf ends) start₁).truthOf allowed).bind_pure Value.boolean
  cases op <;> cases decided
  -- `and` is decided by false, `or` by true
  · exact .pure start₁ _
  · exact other rfl
  · exact other rfl
  · exact .pure start₁ _

end AgreeOn

/-! ### One step -/

section Step

variable {run run' : Node → Eval Completion} {I J : Machine → Prop} {E : Halt → Prop}
  {settings : Settings} {rounds : Nat} {node : Node} {m : Machine}

theorem callFunction_agree {n : String} {xs : List Node} {line : Nat} (start : I m)
    (parts : ∀ use x m', Starts run settings rounds (.call n xs line) m use x m' → I m' →
      AgreeOn run run' I E use x m')
    (bodies : ∀ d frame m', Enters run settings (.call n xs line) m d frame m' → I m' →
      Agree J E (run d.body) (run' d.body) (m'.enter frame))
    (leave : ∀ m, J m → I m.leave)
    (own : ∀ halt, Raises settings (.call n xs line) m halt → E halt) :
    Agree I E (callFunction run settings.maxCallDepth n xs line)
      (callFunction run' settings.maxCallDepth n xs line) m := by
  refine .get_bind ?_
  cases found : m.functions[n]? with
  | none => exact .throw start (own _ (.unknownFunction found))
  | some declaration =>
    dsimp only
    -- the arguments are counted before the depth is looked at, and before any of them is evaluated
    by_cases fits : xs.length = declaration.params.length
    · rw [if_neg (not_not_intro fits), if_neg (not_not_intro fits)]
      by_cases full : settings.maxCallDepth ≤ m.callDepth
      · rw [if_pos full, if_pos full]
        exact .throw start (own _ (.callDepthExceeded full))
      · rw [if_neg full, if_neg full]
        have admitted : Admits settings m n xs declaration := ⟨found, fits, Nat.lt_of_not_le full⟩
        have bound := AgreeOn.bindArguments start
          (fun x m' order => parts .value x m' (.argument admitted order)) declaration.params ∅
        refine bound.bind fun frame m₁ ends start₁ => ?_
        have body := bodies declaration frame m₁ (.body admitted ends) start₁
        refine (body.inFrame leave).bind fun completion _ _ start₂ => ?_
        cases completion <;> exact .pure start₂ _
    · rw [if_pos fits, if_pos fits]
      exact .throw start (own _ (.argumentCount found fits))

/-- Where the runs that a step starts agree, the step agrees.  `I` is kept in the scope of the step and
    `J` in that of a call that it makes.  A step sets no variable but the one that its tree assigns to. -/
theorem step_agree (start : I m) (console : ∀ m c, I m → I { m with console := c })
    (define : ∀ m name value, (∃ l x line, node = .binary (.name name l) .assign x line) → I m →
      I (m.define name value))
    (declare : ∀ name params body line, node = .function name params body line →
      I (m.declare ⟨name, params, body, line⟩))
    (parts : ∀ use x m', Starts run settings rounds node m use x m' → I m' →
      AgreeOn run run' I E use x m')
    (bodies : ∀ d frame m', Enters run settings node m d frame m' → I m' →
      Agree J E (run d.body) (run' d.body) (m'.enter frame))
    (leave : ∀ m, J m → I m.leave) (own : ∀ halt, Raises settings node m halt → E halt) :
    Agree I E (step run settings rounds node) (step run' settings rounds node) m := by
  -- operators with two operands differ in what they make of the values only
  have ofTwo (x y : Node) (f : Value → Value → Except RuntimeFault Value)
      (parts : ∀ z m', Sequence run [x, y] m z m' → I m' → AgreeOn run run' I E .value z m')
      (refused : ∀ v w fault, f v w = .error fault → E (.fault fault)) :=
    (parts x m .first start).valueOf.bind fun v m₁ ends start₁ =>
      (parts y m₁ (.later (normal_of_valueOf ends) .first) start₁).valueOf.bind fun w _ _ start₂ =>
        (Agree.ofExcept start₂ (refused v w)).bind_pure Completion.normal
  cases node with
  | number | truth | text => exact .pure start _
  | name n line =>
    refine Agree.bind_pure ?_ _
    refine .get_bind ?_
    cases found : m.lookup settings.scoping n with
    | some v => exact .pure start v
    | none => exact .throw start (own _ (.unknownVariable found))
  | unary op x line =>
    refine (parts _ _ _ .operand start).valueOf.bind fun v _ _ start₁ => ?_
    exact (Agree.ofExcept start₁ fun fault refused => own _ (.unary refused)).bind_pure _
  | binary x op y line =>
    by_cases assigns : op = .assign
    · subst assigns
      by_cases isName : ∃ n l, x = .name n l
      · obtain ⟨n, l, rfl⟩ := isName
        refine Agree.bind_pure ?_ _
        refine (parts _ _ _ .assigned start).valueOf.bind fun v m₁ _ start₁ => ?_
        exact ⟨rfl, define m₁ n v ⟨l, y, line, rfl⟩ start₁⟩
      · have noName : ∀ n l, x ≠ .name n l := fun n l same => isName ⟨n, l, same⟩
        have fails : E (.fault ⟨.invalidTarget, line⟩) := own _ (.invalidTarget noName)
        cases x with
        | name n l => exact absurd rfl (noName n l)
        | _ => exact .throw start fails
    · have two := ofTwo x y (fun v w => v.arithmetic op w line)
        (fun z m' order => parts .value z m' (.operands assigns order))
        (fun v w fault refused => own _ (.arithmetic assigns refused))
      cases op with
      | assign => exact absurd rfl assigns
      | _ => exact two
  | compare x op y line =>
    exact ofTwo x y (fun v w => v.compare op w line)
      (fun z m' order => parts .value z m' (.compared order))
      (fun v w fault refused => own _ (.compare refused))
  | logic x op y line =>
    exact (AgreeOn.connect (fun v fault refused => own _ (.logic refused))
      (parts _ _ _ .decides start)
      (fun m' first start₁ => parts _ _ _ (.undecided first) start₁)).bind_pure _
  | print x line =>
    refine (parts _ _ _ .printed start).valueOf.bind fun v _ _ start₁ => ?_
    exact (Agree.onConsole start₁ console (fun cause => own _ (.print cause)) _).bind_pure _
  | input prompt line =>
    exact ((Agree.onConsole start console (fun cause => own _ (.input cause)) _).bind_pure _).bind_pure _
  | conditional c b e line =>
    refine ((parts _ _ _ .condition start).truthOf
      fun v fault refused => own _ (.conditional refused)).bind fun holds m₁ ends start₁ => ?_
    have test := normal_of_truthOf ends
    cases holds with
    | true => exact (parts _ _ _ (.thenBlock test) start₁).toAgree
    | false =>
      cases e with
      | none => exact .pure start₁ _
      | some e => exact (parts _ _ _ (.elseBranch test) start₁).toAgree
  | block xs line =>
    exact AgreeOn.inOrder start (fun x m' order => parts _ x m' (.statement order)) .empty
  | loop c b line =>
    exact AgreeOn.repeatWhile start (fun v fault refused => own _ (.loop refused))
      (own _ .unfinished) (fun use x m' order => parts use x m' (.loop order)) .empty
  | function n params body line => exact ⟨rfl, declare n params body line rfl⟩
  | call n xs line => exact (callFunction_agree start parts bodies leave own).bind_pure _
  | ret x line =>
    refine .get_bind ?_
    by_cases outside : m.callDepth = 0
    · rw [if_pos outside, if_pos outside]
      exact .throw start (own _ (.strayReturn outside))
    · rw [if_neg outside, if_neg outside]
      exact (parts _ _ _ (.returned outside) start).valueOf.bind_pure _

/-- A step depends only on the runs that it starts. -/
theorem step_congr
    (parts : ∀ use x m', Starts run settings rounds node m use x m' → run x m' = run' x m')
    (bodies : ∀ d frame m', Enters run settings node m d frame m' →
      run d.body (m'.enter frame) = run' d.body (m'.enter frame)) :
    step run settings rounds node m = step run' settings rounds node m := by
  have agree : Agree (fun _ => True) (fun _ => True) (step run settings rounds node)
      (step run' settings rounds node) m := by
    apply step_agree (J := fun _ => True)
    case parts => exact fun use x m' starts _ => .of_same (parts use x m' starts)
    case bodies => exact fun d frame m' enters _ => .of_same (bodies d frame m' enters)
    all_goals intros; trivial
  exact agree.same

/-- What a step keeps, if the runs that it starts keep it.  Closing a call has to lead from `J`, which
    is kept in the body, back to `I`. -/
theorem step_keeps (start : I m) (console : ∀ m c, I m → I { m with console := c })
    (define : ∀ m name value, I m → I (m.define name value))
    (declare : ∀ name params body line, node = .function name params body line →
      I (m.declare ⟨name, params, body, line⟩))
    (parts : ∀ use x m', Starts run settings rounds node m use x m' → I m' → I (after (run x) m'))
    (bodies : ∀ d frame m', Enters run settings node m d frame m' → I m' →
      J (after (run d.body) (m'.enter frame)))
    (leave : ∀ m, J m → I m.leave) : I (after (step run settings rounds node) m) := by
  have agree : Agree I (fun _ => True) (step run settings rounds node)
      (step run settings rounds node) m := by
    apply step_agree start console (fun m name value _ => define m name value) declare
    case parts =>
      intro use x m' starts start'
      exact .of_keeps (parts use x m' starts start')
    case bodies =>
      intro d frame m' enters start'
      exact ⟨rfl, fine_of_after (bodies d frame m' enters start')⟩
    case leave => exact leave
    case own => exact fun _ _ => trivial
  exact agree.fine.after

variable (run settings rounds node m) in
/-- Where it comes from that a step stops. -/
inductive StopsBy (halt : Halt) : Prop where
  | own (raises : Raises settings node m halt)
  | part {use x m₁ m₂} (starts : Starts run settings rounds node m use x m₁)
      (stops : run x m₁ = .error halt m₂)
  | body {d frame m₁ m₂} (enters : Enters run settings node m d frame m₁)
      (stops : run d.body (m₁.enter frame) = .error halt m₂)
  | stray {x m₁ v m₂} (starts : Starts run settings rounds node m .value x m₁)
      (returns : run x m₁ = .ok (.returned v) m₂)
      (fault : halt = .fault ⟨.strayReturn, x.line?.getD 0⟩)

/-- A step stops by itself, or a run that it starts stops, or one that should give a value returns. -/
theorem stopsBy_of_step {halt : Halt} {m' : Machine}
    (stops : step run settings rounds node m = .error halt m') :
    StopsBy run settings rounds node m halt := by
  have fine {x : Node} {m₁ : Machine} {E : Halt → Prop}
      (halts : ∀ halt m₂, run x m₁ = .error halt m₂ → E halt) : Fine (fun _ => True) E (run x m₁) := by
    cases ends : run x m₁ with
    | ok => trivial
    | error halt m₂ => exact ⟨halts halt m₂ ends, trivial⟩
  -- the step beside itself: what is allowed to stop it is what does
  have agree : Agree (fun _ => True) (StopsBy run settings rounds node m)
      (step run settings rounds node) (step run settings rounds node) m := by
    apply step_agree (J := fun _ => True)
    case parts =>
      intro use x m₁ starts _
      refine ⟨⟨rfl, fine fun halt m₂ stops => .part starts stops⟩, ?_⟩
      rintro rfl v m₂ returns
      exact .stray starts returns rfl
    case bodies =>
      intro d frame m₁ enters _
      exact ⟨rfl, fine fun halt m₂ stops => .body enters stops⟩
    case own => exact fun halt => .own
    all_goals intros; trivial
  have allowed := agree.fine
  rw [stops] at allowed
  exact allowed.1

end Step

/-! ## A run that is started and stops, stops the step -/

section Propagation

variable {run : Node → Eval Completion} {x : Node} {m m₁ m₂ : Machine} {halt : Halt}

theorem Sequence.inOrder_stops {xs : List Node} (order : Sequence run xs m x m₁)
    (stops : run x m₁ = .error halt m₂) (last : Value) : inOrder run last xs m = .error halt m₂ := by
  induction order generalizing last with
  | first => exact bind_of_error stops
  | later ends _ ih => exact (bind_of_ok ends).trans (ih stops _)

theorem Sequence.bindArguments_stops {xs : List Node} (order : Sequence run xs m x m₁)
    (stops : run x m₁ = .error halt m₂) {params : List String} (fits : xs.length = params.length)
    (frame : Scope) : bindArguments run params xs frame m = .error halt m₂ := by
  induction order generalizing params frame with
  | first =>
    obtain ⟨param, params, rfl⟩ := List.exists_cons_of_length_eq_add_one fits.symm
    exact bind_of_error (valueOf_of_error stops)
  | later ends _ ih =>
    obtain ⟨param, params, rfl⟩ := List.exists_cons_of_length_eq_add_one fits.symm
    exact (bind_of_ok (valueOf_of_normal ends)).trans (ih stops (Nat.succ.inj fits) _)

theorem Looping.repeatWhile_stops {condition body : Node} {n : Nat} {use : Use}
    (order : Looping run condition body n m use x m₁) (stops : run x m₁ = .error halt m₂)
    (line : Nat) (last : Value) : repeatWhile run condition body line n last m = .error halt m₂ := by
  induction order generalizing last with
  | test => exact bind_of_error (truthOf_of_error (valueOf_of_error stops) line)
  | round holds => exact (bind_of_ok (truthOf_of_normal holds line)).trans (bind_of_error stops)
  | again holds ends _ ih =>
    refine (bind_of_ok (truthOf_of_normal holds line)).trans ?_
    exact (bind_of_ok ends).trans (ih stops _)

/-- Operators with two operands differ in what they make of the values only. -/
theorem Sequence.operands_stops {y z : Node} (order : Sequence run [x, y] m z m₁)
    (stops : run z m₁ = .error halt m₂) {α : Type} (f : Value → Value → Eval α) :
    (do let v ← valueOf run x; let w ← valueOf run y; f v w) m = .error halt m₂ := by
  cases order with
  | first => exact bind_of_error (valueOf_of_error stops)
  | later ends rest =>
    cases rest with
    | first => exact (bind_of_ok (valueOf_of_normal ends)).trans (bind_of_error (valueOf_of_error stops))
    | later _ rest => cases rest

theorem callFunction_of_admits {settings : Settings} {n : String} {xs : List Node}
    {declaration : Declaration} (admitted : Admits settings m n xs declaration) (line : Nat) :
    callFunction run settings.maxCallDepth n xs line m =
      callBody run xs declaration.params declaration.body m := by
  have fits := not_not_intro admitted.fits
  have below := Nat.not_le.mpr admitted.below
  rw [callFunction_of_some run admitted.found, if_neg fits, if_neg below]

variable {settings : Settings} {rounds : Nat} {node : Node}

theorem Starts.propagates {use : Use} (starts : Starts run settings rounds node m use x m₁)
    (stops : run x m₁ = .error halt m₂) : step run settings rounds node m = .error halt m₂ := by
  have first {m : Machine} (stops : run x m = .error halt m₂) : valueOf run x m = .error halt m₂ :=
    valueOf_of_error stops
  -- what comes before the part has ended, so the step stops as the part does
  cases starts with
  | operand | printed => exact bind_of_error (first stops)
  | @operands _ op _ _ _ _ _ computes order =>
    cases op with
    | assign => exact absurd rfl computes
    | _ => exact order.operands_stops stops _
  | compared order => exact order.operands_stops stops _
  | assigned => exact bind_of_error (bind_of_error (first stops))
  | decides => exact bind_of_error (bind_of_error (truthOf_of_error (first stops) _))
  | @undecided _ op _ line _ _ decided =>
    refine bind_of_error ((bind_of_ok (truthOf_of_normal decided line)).trans ?_)
    cases op <;> exact bind_of_error (truthOf_of_error (first stops) line)
  | condition => exact bind_of_error (truthOf_of_error (first stops) _)
  | thenBlock holds => exact (bind_of_ok (truthOf_of_normal holds _)).trans stops
  | elseBranch fails => exact (bind_of_ok (truthOf_of_normal fails _)).trans stops
  | statement order => exact order.inOrder_stops stops _
  | loop order => exact order.repeatWhile_stops stops _ _
  | argument admitted order =>
    refine bind_of_error ((callFunction_of_admits admitted _).trans ?_)
    exact bind_of_error (order.bindArguments_stops stops admitted.fits ∅)
  | returned inCall =>
    change (if m.callDepth = 0 then _ else _ : Eval Completion) m = _
    rw [if_neg inCall]
    exact bind_of_error (first stops)

theorem Enters.propagates {d : Declaration} {frame : Scope} (enters : Enters run settings node m d frame m₁)
    (stops : run d.body (m₁.enter frame) = .error halt m₂) :
    step run settings rounds node m = .error halt m₂.leave := by
  cases enters with
  | body admitted bound =>
    have closed : inFrame frame (run d.body) m₁ = .error halt m₂.leave := by
      unfold inFrame
      rw [stops]
    refine bind_of_error ((callFunction_of_admits admitted _).trans ?_)
    exact (bind_of_ok bound).trans (bind_of_error closed)

end Propagation

end Eval

/-! ## Scripts

The statements of a script are run for their values, one after another. -/

section Script

open Eval

variable {settings : Settings} {budget : Nat} {xs : List Node} {m : Machine}

theorem evaluateFrom_agree {settings' : Settings} {budget' : Nat} {I : Machine → Prop} {E : Halt → Prop}
    (start : I m)
    (parts : ∀ x m', Sequence (eval settings budget) xs m x m' → I m' →
      AgreeOn (eval settings budget) (eval settings' budget') I E .value x m') (last : Value) :
    Agree I E (evaluateFrom settings budget last xs) (evaluateFrom settings' budget' last xs) m := by
  induction xs generalizing m last with
  | nil => exact .pure start last
  | cons x xs ih =>
    refine (parts x m .first start).valueOf.bind fun v m₁ ends start₁ => ?_
    have normal := normal_of_valueOf ends
    exact ih start₁ (fun y m' order => parts y m' (.later normal order)) v

theorem Eval.Sequence.evaluateFrom_stops {x : Node} {m₁ m₂ : Machine} {halt : Halt}
    (order : Sequence (eval settings budget) xs m x m₁)
    (stops : eval settings budget x m₁ = .error halt m₂) (last : Value) :
    evaluateFrom settings budget last xs m = .error halt m₂ := by
  induction order generalizing last with
  | first => exact bind_of_error (valueOf_of_error stops)
  | later ends _ ih => exact (bind_of_ok (valueOf_of_normal ends)).trans (ih stops _)

end Script

end SmallScript
