import SmallScript.Evaluation
import Mathlib.Data.List.Forall2

/-! # Alike runs

Two runs are compared step by step.  They may run different trees, with different settings, on machines
that differ, as long as all of these are alike; and then they end alike.  In which sense things are alike
is a parameter, because each comparison has its own.

* `Eval.outcome` and `Eval.after` say how a run ends and which machine it leaves behind, be it after a
  value or after a fault.
* `Likeness` says which lines, trees, declarations and machines are alike.  It may also allow that the
  first run is cut off: it has stopped, and the second one goes on alone.
* `Likeness.Coupled i x y`: on alike machines the runs `x` and `y` end alike.  There is one lemma for each
  way to put runs together.
* `Likeness.Matches i x y`: the roots of two trees are of the same kind, and their parts are alike.
* `UpToReturn R xs ys`: the statements of two blocks go together up to a `return`, and nothing is said of
  what stands behind it, because it is not run.
* `Likeness.Lawful` collects what the primitive operations have to keep.  `Lawful.eval` is the result:
  they are all that matters.

Calls are why machines are alike in a family of ways.  While a call is open, the variables of its caller
are out of reach, so the machines are alike in a different way than before, and they have to be alike
in the old way when the call is closed.
-/

namespace SmallScript

/-! ## Opening and closing a call -/

namespace Machine

variable (m : Machine)

@[simp] theorem scopes_enter (frame : Scope) : (m.enter frame).scopes = frame :: m.scopes := rfl

@[simp] theorem callDepth_leave : m.leave.callDepth = m.callDepth - 1 := rfl

@[simp] theorem functions_leave : m.leave.functions = m.functions := by
  simp only [leave, popScope]
  split <;> rfl

@[simp] theorem console_leave : m.leave.console = m.console := by
  simp only [leave, popScope]
  split <;> rfl

/-- Closing a call brings back the scopes below its own, of which there is always one. -/
theorem scopes_leave {m : Machine} {frame : Scope} {outer : List Scope}
    (split : m.scopes = frame :: outer) (opened : outer ≠ []) : m.leave.scopes = outer := by
  obtain ⟨next, rest, rfl⟩ := List.exists_cons_of_ne_nil opened
  simp [leave, popScope, split]

theorem console_define (m : Machine) (name : String) (value : Value) :
    (m.define name value).console = m.console := by
  obtain ⟨scopes, functions, callDepth, console⟩ := m
  cases scopes <;> rfl

end Machine

namespace Eval

/-! ## How a run ends -/

section Ends

variable {α β : Type}

/-- The value of a run, or why it stopped. -/
def outcome (action : Eval α) (m : Machine) : Except Halt α :=
  match action m with
  | .ok value _ => .ok value
  | .error halt _ => .error halt

/-- The machine that a run leaves behind, however it ends. -/
def after (action : Eval α) (m : Machine) : Machine :=
  match action m with
  | .ok _ m => m
  | .error _ m => m

theorem outcome_bind (action : Eval α) (next : α → Eval β) (m : Machine) :
    outcome (action >>= next) m =
      match outcome action m with
      | .ok value => outcome (next value) (after action m)
      | .error halt => .error halt := by
  unfold outcome after
  change (match EStateM.bind action next m with | .ok value _ => _ | .error halt _ => _) = _
  unfold EStateM.bind
  cases action m <;> rfl

theorem after_bind (action : Eval α) (next : α → Eval β) (m : Machine) :
    after (action >>= next) m =
      match outcome action m with
      | .ok value => after (next value) (after action m)
      | .error _ => after action m := by
  unfold outcome after
  change (match EStateM.bind action next m with | .ok _ m => m | .error _ m => m) = _
  unfold EStateM.bind
  cases action m <;> rfl

theorem after_of_ok {x : Eval α} {m m' : Machine} {v : α} (ends : x m = .ok v m') : after x m = m' := by
  rw [after, ends]

theorem console_after_inFrame (x : Eval α) (frame : Scope) (m : Machine) :
    (after (inFrame frame x) m).console = (after x (m.enter frame)).console := by
  unfold after inFrame
  cases x (m.enter frame) <;> exact Machine.console_leave _

end Ends

section Bind

variable {ε σ α β : Type} {x : EStateM ε σ α} {f : α → EStateM ε σ β} {m m' : σ}

theorem bind_of_ok {v : α} (first : x m = .ok v m') : (x >>= f) m = f v m' := by
  change EStateM.bind x f m = _
  rw [EStateM.bind, first]

theorem bind_of_error {halt : ε} (first : x m = .error halt m') : (x >>= f) m = .error halt m' := by
  change EStateM.bind x f m = _
  rw [EStateM.bind, first]

theorem bind_of_eq {y : EStateM ε σ α} (same : x m = y m') : (x >>= f) m = (y >>= f) m' := by
  change EStateM.bind x f m = EStateM.bind y f m'
  rw [EStateM.bind, EStateM.bind, same]

end Bind

section Call

variable {run : Node → Eval Completion} {m : Machine} {name : String}

/-- What is left of a call when the function has been found and the call has been allowed. -/
def callBody (run : Node → Eval Completion) (xs : List Node) (params : List String) (body : Node) :
    Eval Value := do
  let frame ← bindArguments run params xs ∅
  match ← inFrame frame (run body) with
  | .returned value => return value
  | .normal _ => return .empty

theorem callFunction_of_none (unknown : m.functions[name]? = none) {maxCallDepth line : Nat}
    {xs : List Node} :
    callFunction run maxCallDepth name xs line m = (fail (.unknownFunction name) line : Eval Value) m := by
  unfold callFunction
  refine (bind_of_ok (m := m) rfl).trans ?_
  rw [unknown]

variable (run) in
theorem callFunction_of_some {declaration : Declaration} (found : m.functions[name]? = some declaration)
    (maxCallDepth : Nat) (xs : List Node) (line : Nat) :
    callFunction run maxCallDepth name xs line m =
      (if xs.length ≠ declaration.params.length then
        fail (.argumentCount name declaration.params.length xs.length) line
      else if maxCallDepth ≤ m.callDepth then fail (.callDepthExceeded maxCallDepth) line
      else callBody run xs declaration.params declaration.body : Eval Value) m := by
  unfold callFunction
  refine (bind_of_ok (m := m) rfl).trans ?_
  rw [found]
  rfl

end Call

/-- What a part is run for. -/
inductive Use where
  /-- For its value; a `return` in it would be a fault. -/
  | value
  /-- As a statement; a `return` in it is passed on. -/
  | statement
  deriving DecidableEq

/-! ## Behind a `return` -/

/-- A run that never goes on to what comes next. -/
def Abrupt (action : Eval Completion) : Prop :=
  ∀ m v m', action m ≠ .ok (.normal v) m'

section Abrupt

variable {run : Node → Eval Completion} {x : Node}

/-- The statements behind one that does not go on are not run. -/
theorem inOrder_of_abrupt (abrupt : Abrupt (run x)) (last : Value) (xs : List Node) :
    inOrder run last (x :: xs) = run x := by
  funext m
  cases ends : run x m with
  | error halt m' => exact bind_of_error ends
  | ok completion m' =>
    cases completion with
    | normal v => exact absurd ends (abrupt m v m')
    | returned v => exact bind_of_ok ends

theorem valueOf_of_abrupt (abrupt : Abrupt (run x)) (m : Machine) :
    ∃ halt m', valueOf run x m = .error halt m' := by
  cases ends : run x m with
  | error halt m' => exact ⟨halt, m', bind_of_error ends⟩
  | ok completion m' =>
    cases completion with
    | normal v => exact absurd ends (abrupt m v m')
    | returned v => exact ⟨_, m', bind_of_ok ends⟩

end Abrupt

end Eval

/-- Lists that go together one by one, up to a `return` in both.  What stands behind it may be anything. -/
inductive UpToReturn (R : Node → Node → Prop) : List Node → List Node → Prop where
  | nil : UpToReturn R [] []
  | cons {x y xs ys} (first : R x y) (rest : UpToReturn R xs ys) : UpToReturn R (x :: xs) (y :: ys)
  | ret {x l y k xs ys} (last : R (.ret x l) (.ret y k)) : UpToReturn R (.ret x l :: xs) (.ret y k :: ys)

namespace UpToReturn

variable {R S : Node → Node → Prop} {xs ys : List Node}

theorem imp (upTo : UpToReturn R xs ys) (weaker : ∀ x y, R x y → S x y) : UpToReturn S xs ys := by
  induction upTo with
  | nil => exact .nil
  | cons first _ ih => exact .cons (weaker _ _ first) ih
  | ret last => exact .ret (weaker _ _ last)

theorem of_forall₂ (all : List.Forall₂ R xs ys) : UpToReturn R xs ys := by
  induction all with
  | nil => exact .nil
  | cons first _ ih => exact .cons first ih

end UpToReturn

/-! ## The faults of operators

An operator puts the line that it is given into its fault and uses it for nothing else. -/

namespace Value

/-- A result that depends on the line in its fault only. -/
def OnLine {α : Type} (f : Nat → Except RuntimeFault α) : Prop :=
  ∃ result : Except RuntimeCause α, ∀ line, f line = result.mapError (Fault.mk · line)

theorem asNumber_onLine (v : Value) : OnLine fun line => v.asNumber line := by
  cases v with
  | number x => exact ⟨.ok x, fun _ => rfl⟩
  | _ => exact ⟨.error .expectedNumber, fun _ => rfl⟩

theorem asBoolean_onLine (v : Value) : OnLine fun line => v.asBoolean line := by
  cases v with
  | boolean b => exact ⟨.ok b, fun _ => rfl⟩
  | _ => exact ⟨.error .expectedBoolean, fun _ => rfl⟩

theorem OnLine.map {α β : Type} {f : Nat → Except RuntimeFault α} (onLine : OnLine f) (g : α → β) :
    OnLine fun line => return g (← f line) := by
  obtain ⟨result, same⟩ := onLine
  refine ⟨result.map g, fun line => ?_⟩
  dsimp only
  rw [same line]
  cases result <;> rfl

theorem unary_onLine (op : UnaryOp) (v : Value) : OnLine fun line => v.unary op line := by
  cases op with
  | plus => exact v.asNumber_onLine.map _
  | negate => exact v.asNumber_onLine.map _
  | not => exact v.asBoolean_onLine.map _

theorem arithmetic_onLine (op : BinaryOp) (v w : Value) : OnLine fun line => v.arithmetic op w line := by
  refine ⟨(v.arithmetic op w 0).mapError Fault.cause, fun line => ?_⟩
  cases op <;> cases v <;> cases w <;> rfl

theorem compare_onLine (op : CompareOp) (v w : Value) : OnLine fun line => v.compare op w line := by
  refine ⟨(v.compare op w 0).mapError Fault.cause, fun line => ?_⟩
  cases op <;> cases v <;> cases w <;> rfl

end Value

/-! ## Output only grows -/

/-- The second console has written what the first one has, and perhaps more. -/
def Console.Extends (c c' : Console) : Prop :=
  ∃ more, c'.output = c.output ++ more

namespace Console.Extends

theorem refl (c : Console) : c.Extends c :=
  ⟨.empty, ByteArray.append_empty.symm⟩

theorem trans {c c' c'' : Console} (first : c.Extends c') (second : c'.Extends c'') : c.Extends c'' := by
  obtain ⟨more, written⟩ := first
  obtain ⟨more', written'⟩ := second
  exact ⟨more ++ more', by rw [written', written, ByteArray.append_assoc]⟩

end Console.Extends

namespace Eval

/-- A run that takes back nothing that has been written. -/
def Grows {α : Type} (action : Eval α) : Prop :=
  ∀ m : Machine, m.console.Extends (after action m).console

namespace Grows

variable {α β : Type}

theorem pure (v : α) : Grows (Pure.pure v) := fun _ => .refl _

theorem throw (halt : Halt) : Grows (MonadExcept.throw halt : Eval α) := fun _ => .refl _

theorem bind {x : Eval α} {f : α → Eval β} (first : Grows x) (next : ∀ v, Grows (f v)) :
    Grows (x >>= f) := by
  intro m
  rw [after_bind]
  cases outcome x m with
  | ok v => exact (first m).trans (next v _)
  | error halt => exact first m

theorem get_bind {f : Machine → Eval α} (next : ∀ m, Grows (f m)) : Grows (get >>= f) :=
  fun m => next m m

theorem inFrame {x : Eval α} (body : Grows x) (frame : Scope) : Grows (Eval.inFrame frame x) := by
  intro m
  rw [console_after_inFrame]
  exact body (m.enter frame)

section Parts

variable {run : Node → Eval Completion}

theorem valueOf {x : Node} (part : Grows (run x)) : Grows (Eval.valueOf run x) := by
  refine part.bind fun completion => ?_
  cases completion with
  | normal v => exact .pure v
  | returned v => exact .throw _

theorem bindArguments (parts : ∀ x, Grows (run x)) (params : List String) (xs : List Node)
    (frame : Scope) : Grows (Eval.bindArguments run params xs frame) := by
  induction xs generalizing params frame with
  | nil => cases params <;> exact .pure _
  | cons x xs ih =>
    cases params with
    | nil => exact .pure _
    | cons param params => exact (parts x).valueOf.bind fun v => ih params _

theorem callFunction (parts : ∀ x, Grows (run x)) (maxCallDepth : Nat) (name : String) (xs : List Node)
    (line : Nat) : Grows (Eval.callFunction run maxCallDepth name xs line) := by
  refine .get_bind fun m => ?_
  cases m.functions[name]? with
  | none => exact .throw _
  | some declaration =>
    dsimp only
    split
    · exact .throw _
    split
    · exact .throw _
    refine (Grows.bindArguments parts _ _ _).bind fun frame => ?_
    refine ((parts declaration.body).inFrame frame).bind fun completion => ?_
    cases completion <;> exact .pure _

end Parts

end Grows

end Eval

open Eval

theorem abrupt_eval_ret (settings : Settings) (budget : Nat) (x : Node) (line : Nat) :
    Abrupt (eval settings budget (.ret x line)) := by
  intro m v m' ends
  cases budget with
  | zero => cases ends
  | succ budget =>
    change (if m.callDepth = 0 then _ else _ : Eval Completion) m = _ at ends
    split at ends
    · cases ends
    · cases value : valueOf (eval settings budget) x m with
      | ok w m₁ => cases (bind_of_ok value).symm.trans ends
      | error halt m₁ => cases (bind_of_error value).symm.trans ends

/-- A script stops at a `return`, if it gets there. -/
theorem evaluateFrom_ret (settings : Settings) (budget : Nat) (last : Value) (x : Node) (line : Nat)
    (xs : List Node) :
    evaluateFrom settings budget last (.ret x line :: xs) = valueOf (eval settings budget) (.ret x line) := by
  funext m
  obtain ⟨halt, m', stops⟩ := valueOf_of_abrupt (abrupt_eval_ret settings budget x line) m
  exact (bind_of_error stops).trans stops.symm

/-! ## Likeness -/

/-- In which sense two runs are alike. -/
structure Likeness (ι : Type) where
  /-- Lines on which one and the same fault may stand. -/
  lines : Nat → Nat → Prop
  /-- Trees that are run for the same use. -/
  trees : ι → Use → Node → Node → Prop
  declarations : Declaration → Declaration → Prop
  machines : ι → Machine → Machine → Prop
  /-- The first run has been cut off, with this halt and this console, while the second one has come to
      the other console. -/
  cut : Halt → Console → Console → Prop
  /-- A cut stays one when the second run writes more. -/
  onward : ∀ {halt c c' c''}, cut halt c c' → c'.Extends c'' → cut halt c c''

namespace Likeness

variable {ι : Type} (K : Likeness ι) {α β : Type}

/-- There are runs that are cut off. -/
def Cuts : Prop :=
  ∃ halt c c', K.cut halt c c'

/-- The same fault on alike lines, or no end for both. -/
inductive Halts : Halt → Halt → Prop where
  | fault {cause l l'} (lines : K.lines l l') : Halts (.fault ⟨cause, l⟩) (.fault ⟨cause, l'⟩)
  | unfinished : Halts .unfinished .unfinished

/-- On these machines the two runs end alike. -/
inductive Ends (i : ι) (x y : Eval α) (a b : Machine) : Prop where
  | value {v a' b'} (first : x a = .ok v a') (second : y b = .ok v b') (alike : K.machines i a' b')
  | halt {h k a' b'} (first : x a = .error h a') (second : y b = .error k b') (halts : K.Halts h k)
      (alike : K.machines i a' b')
  | cut {h a'} (first : x a = .error h a') (cut : K.cut h a'.console (after y b).console)

variable {K} in
theorem Ends.of_eq {i : ι} {x y x' y' : Eval α} {a b a₀ b₀ : Machine} (ends : K.Ends i x y a b)
    (left : x' a₀ = x a) (right : y' b₀ = y b) : K.Ends i x' y' a₀ b₀ := by
  cases ends with
  | value first second alike => exact .value (left.trans first) (right.trans second) alike
  | halt first second halts alike => exact .halt (left.trans first) (right.trans second) halts alike
  | cut first cut =>
    refine .cut (left.trans first) ?_
    unfold after
    rw [right]
    exact cut

variable {K} in
/-- Where lines are the same and nothing is cut off, the runs end in the same way. -/
theorem Ends.outcome_eq {i : ι} {x y : Eval α} {a b : Machine} (ends : K.Ends i x y a b)
    (lines : ∀ l l', K.lines l l' → l = l') (whole : ¬ K.Cuts) :
    outcome x a = outcome y b ∧ K.machines i (after x a) (after y b) := by
  unfold outcome after
  cases ends with
  | value first second alike =>
    rw [first, second]
    exact ⟨rfl, alike⟩
  | halt first second halts alike =>
    rw [first, second]
    cases halts with
    | fault same =>
      cases lines _ _ same
      exact ⟨rfl, alike⟩
    | unfinished => exact ⟨rfl, alike⟩
  | cut _ cut => exact absurd ⟨_, _, _, cut⟩ whole

/-- On alike machines the two runs end alike. -/
structure Coupled (i : ι) (x y : Eval α) : Prop where
  ends : ∀ a b, K.machines i a b → K.Ends i x y a b
  /-- Where the first run may be cut off, the second one must not undo what it was compared with. -/
  grows : K.Cuts → Grows y

variable {K} {i : ι}

namespace Coupled

theorem pure (v : α) : K.Coupled i (Pure.pure v) (Pure.pure v) where
  ends _ _ alike := .value rfl rfl alike
  grows _ := .pure v

theorem throw {h k : Halt} (halts : K.Halts h k) :
    K.Coupled i (MonadExcept.throw h : Eval α) (MonadExcept.throw k) where
  ends _ _ alike := .halt rfl rfl halts alike
  grows _ := .throw k

theorem fail (cause : RuntimeCause) {l l' : Nat} (lines : K.lines l l') :
    K.Coupled i (Eval.fail cause l : Eval α) (Eval.fail cause l') :=
  .throw (.fault lines)

theorem bind {x y : Eval α} {f g : α → Eval β} (first : K.Coupled i x y)
    (next : ∀ v, K.Coupled i (f v) (g v)) : K.Coupled i (x >>= f) (y >>= g) where
  grows cuts := (first.grows cuts).bind fun v => (next v).grows cuts
  ends := by
    intro a b alike
    cases first.ends a b alike with
    | @value v a' b' ends ends' alike =>
      exact ((next v).ends a' b' alike).of_eq (bind_of_ok ends) (bind_of_ok ends')
    | halt ends ends' halts alike => exact .halt (bind_of_error ends) (bind_of_error ends') halts alike
    | cut ends cut =>
      refine .cut (bind_of_error ends) ?_
      rw [after_bind]
      cases outcome y b with
      | ok v => exact K.onward cut ((next v).grows ⟨_, _, _, cut⟩ _)
      | error halt => exact cut

/-- Runs that look at the machine first. -/
theorem get_bind {f g : Machine → Eval α} (next : ∀ a b, K.machines i a b → K.Coupled i (f a) (g b))
    (grows : K.Cuts → ∀ b, Grows (g b)) : K.Coupled i (get >>= f) (get >>= g) where
  grows cuts := .get_bind (grows cuts)
  ends a b alike := ((next a b alike).ends a b alike).of_eq rfl rfl

theorem modify {f g : Machine → Machine} (alike : ∀ a b, K.machines i a b → K.machines i (f a) (g b))
    (console : ∀ b, (g b).console = b.console) : K.Coupled i (modify f : Eval PUnit) (modify g) where
  ends a b related := .value rfl rfl (alike a b related)
  grows _ b := by
    change b.console.Extends (g b).console
    rw [console]
    exact .refl _

theorem ofExcept {f : Nat → Except RuntimeFault α} (onLine : Value.OnLine f) {l l' : Nat}
    (lines : K.lines l l') : K.Coupled i (Eval.ofExcept (f l)) (Eval.ofExcept (f l')) := by
  obtain ⟨result, same⟩ := onLine
  rw [same l, same l']
  cases result with
  | ok v => exact .pure v
  | error cause => exact .fail cause lines

/-- A call whose body is run on machines that are alike in some other way, from opening the call to
    closing it. -/
theorem inFrame {frame : Scope} {x y : Eval α}
    (body : ∀ a b, K.machines i a b → ∃ j, K.machines j (a.enter frame) (b.enter frame) ∧
      K.Coupled j x y ∧ ∀ a' b', K.machines j a' b' → K.machines i a'.leave b'.leave)
    (grows : K.Cuts → Grows y) : K.Coupled i (Eval.inFrame frame x) (Eval.inFrame frame y) where
  grows cuts := (grows cuts).inFrame frame
  ends := by
    intro a b alike
    obtain ⟨j, opened, run, closed⟩ := body a b alike
    have ok {z : Eval α} {m m' : Machine} {v : α} (ends : z (m.enter frame) = .ok v m') :
        Eval.inFrame frame z m = .ok v m'.leave := by
      unfold Eval.inFrame
      rw [ends]
    have error {z : Eval α} {m m' : Machine} {h : Halt} (stops : z (m.enter frame) = .error h m') :
        Eval.inFrame frame z m = .error h m'.leave := by
      unfold Eval.inFrame
      rw [stops]
    cases run.ends _ _ opened with
    | value ends ends' alike => exact .value (ok ends) (ok ends') (closed _ _ alike)
    | halt ends ends' halts alike => exact .halt (error ends) (error ends') halts (closed _ _ alike)
    | cut ends cut =>
      refine .cut (error ends) ?_
      rw [Machine.console_leave, console_after_inFrame]
      exact cut

/-! ### Parts of a tree -/

section Parts

variable {run run' : Node → Eval Completion} {x y : Node}

theorem valueOf (part : K.Coupled i (run x) (run' y))
    (stray : K.lines (x.line?.getD 0) (y.line?.getD 0)) :
    K.Coupled i (Eval.valueOf run x) (Eval.valueOf run' y) := by
  refine part.bind fun completion => ?_
  cases completion with
  | normal v => exact .pure v
  | returned v => exact .fail _ stray

theorem truthOf (value : K.Coupled i (Eval.valueOf run x) (Eval.valueOf run' y)) {l l' : Nat}
    (lines : K.lines l l') : K.Coupled i (Eval.truthOf run x l) (Eval.truthOf run' y l') :=
  value.bind fun v => .ofExcept v.asBoolean_onLine lines

theorem inOrder (returns : ∀ x l, Abrupt (run (.ret x l))) (returns' : ∀ x l, Abrupt (run' (.ret x l)))
    {xs ys : List Node} (parts : UpToReturn (fun x y => K.Coupled i (run x) (run' y)) xs ys) (last : Value) :
    K.Coupled i (Eval.inOrder run last xs) (Eval.inOrder run' last ys) := by
  induction parts generalizing last with
  | nil => exact .pure _
  | cons first _ ih =>
    refine first.bind fun completion => ?_
    cases completion with
    | normal v => exact ih v
    | returned v => exact .pure _
  | ret both =>
    rw [inOrder_of_abrupt (returns _ _), inOrder_of_abrupt (returns' _ _)]
    exact both

theorem repeatWhile {condition condition' body body' : Node} {l l' : Nat}
    (test : K.Coupled i (Eval.truthOf run condition l) (Eval.truthOf run' condition' l'))
    (round : K.Coupled i (run body) (run' body')) (rounds : Nat) (last : Value) :
    K.Coupled i (Eval.repeatWhile run condition body l rounds last)
      (Eval.repeatWhile run' condition' body' l' rounds last) := by
  induction rounds generalizing last with
  | zero => exact .throw .unfinished
  | succ rounds ih =>
    refine test.bind fun goesOn => ?_
    cases goesOn with
    | false => exact .pure _
    | true =>
      refine round.bind fun completion => ?_
      cases completion with
      | normal v => exact ih v
      | returned v => exact .pure _

theorem bindArguments {xs ys : List Node}
    (parts : List.Forall₂ (fun x y => K.Coupled i (Eval.valueOf run x) (Eval.valueOf run' y)) xs ys)
    (params : List String) (frame : Scope) :
    K.Coupled i (Eval.bindArguments run params xs frame) (Eval.bindArguments run' params ys frame) := by
  induction parts generalizing params frame with
  | nil => cases params <;> exact .pure _
  | cons first _ ih =>
    cases params with
    | nil => exact .pure _
    | cons param params => exact first.bind fun v => ih params _

theorem connect {x' y' : Node} {l l' : Nat}
    (first : K.Coupled i (Eval.truthOf run x l) (Eval.truthOf run' x' l'))
    (second : K.Coupled i (Eval.truthOf run y l) (Eval.truthOf run' y' l')) (op : LogicOp) :
    K.Coupled i (Eval.connect run x op y l) (Eval.connect run' x' op y' l') := by
  refine first.bind fun decided => ?_
  have other := second.bind fun value => Coupled.pure (K := K) (i := i) (Value.boolean value)
  cases op <;> cases decided
  -- `and` is decided by false, `or` by true
  · exact .pure _
  · exact other
  · exact other
  · exact .pure _

end Parts

end Coupled

/-! ## Alike trees -/

variable (K) in
/-- The roots of the trees are of the same kind and hold the same, and their parts are alike.  Lines
    have to be alike where a fault can stand on them. -/
inductive Matches (i : ι) : Node → Node → Prop where
  | number {v l l'} : Matches i (.number v l) (.number v l')
  | truth {v l l'} : Matches i (.truth v l) (.truth v l')
  | text {v l l'} : Matches i (.text v l) (.text v l')
  | name {n l l'} (lines : K.lines l l') : Matches i (.name n l) (.name n l')
  | unary {op x x' l l'} (lines : K.lines l l') (operand : K.trees i .value x x') :
      Matches i (.unary op x l) (.unary op x' l')
  | binary {x op y x' y' l l'} (computes : op ≠ .assign) (lines : K.lines l l')
      (left : K.trees i .value x x') (right : K.trees i .value y y') :
      Matches i (.binary x op y l) (.binary x' op y' l')
  | assign {n k x k' x' l l'} (value : K.trees i .value x x') :
      Matches i (.binary (.name n k) .assign x l) (.binary (.name n k') .assign x' l')
  | noTarget {x y x' y' l l'} (lines : K.lines l l') (left : ∀ n k, x ≠ .name n k)
      (right : ∀ n k, x' ≠ .name n k) : Matches i (.binary x .assign y l) (.binary x' .assign y' l')
  | compare {x op y x' y' l l'} (lines : K.lines l l') (left : K.trees i .value x x')
      (right : K.trees i .value y y') : Matches i (.compare x op y l) (.compare x' op y' l')
  | logic {x op y x' y' l l'} (lines : K.lines l l') (left : K.trees i .value x x')
      (right : K.trees i .value y y') : Matches i (.logic x op y l) (.logic x' op y' l')
  | print {x x' l l'} (lines : K.lines l l') (value : K.trees i .value x x') :
      Matches i (.print x l) (.print x' l')
  | input {p l l'} (lines : K.lines l l') : Matches i (.input p l) (.input p l')
  | conditional {c b e c' b' e' l l'} (lines : K.lines (c.line?.getD l) (c'.line?.getD l'))
      (condition : K.trees i .value c c') (thenBlock : K.trees i .statement b b')
      (elseBranch : Option.Rel (K.trees i .statement) e e') :
      Matches i (.conditional c b e l) (.conditional c' b' e' l')
  | block {xs xs' l l'} (statements : UpToReturn (K.trees i .statement) xs xs') :
      Matches i (.block xs l) (.block xs' l')
  | loop {c b c' b' l l'} (lines : K.lines (c.line?.getD l) (c'.line?.getD l'))
      (condition : K.trees i .value c c') (body : K.trees i .statement b b') :
      Matches i (.loop c b l) (.loop c' b' l')
  | function {n ns b b' l l'} (alike : K.declarations ⟨n, ns, b, l⟩ ⟨n, ns, b', l'⟩) :
      Matches i (.function n ns b l) (.function n ns b' l')
  | call {n xs xs' l l'} (lines : K.lines l l') (arguments : List.Forall₂ (K.trees i .value) xs xs') :
      Matches i (.call n xs l) (.call n xs' l')
  | ret {x x' l l'} (lines : K.lines l l') (value : K.trees i .value x x') :
      Matches i (.ret x l) (.ret x' l')

/-- Where a tree and its parts are alike themselves, its root matches itself. -/
theorem Matches.refl (lines : ∀ l, K.lines l l) (trees : ∀ use x, K.trees i use x x)
    (declarations : ∀ d, K.declarations d d) (x : Node) : K.Matches i x x := by
  have all (use : Use) (xs : List Node) : List.Forall₂ (K.trees i use) xs xs :=
    List.forall₂_same.mpr fun x _ => trees use x
  cases x with
  | number => exact .number
  | truth => exact .truth
  | text => exact .text
  | name n l => exact .name (lines l)
  | unary op x l => exact .unary (lines l) (trees _ x)
  | binary x op y l =>
    by_cases assigns : op = .assign
    · subst assigns
      cases x with
      | name n k => exact .assign (trees _ y)
      | _ => exact .noTarget (lines l) nofun nofun
    · exact .binary assigns (lines l) (trees _ x) (trees _ y)
  | compare x op y l => exact .compare (lines l) (trees _ x) (trees _ y)
  | logic x op y l => exact .logic (lines l) (trees _ x) (trees _ y)
  | print x l => exact .print (lines l) (trees _ x)
  | input p l => exact .input (lines l)
  | conditional c b e l =>
    refine .conditional (lines _) (trees _ c) (trees _ b) ?_
    cases e with
    | none => exact .none
    | some e => exact .some (trees _ e)
  | block xs l => exact .block (.of_forall₂ (all _ xs))
  | loop c b l => exact .loop (lines _) (trees _ c) (trees _ b)
  | function n ns b l => exact .function (declarations _)
  | call n xs l => exact .call (lines l) (all _ xs)
  | ret x l => exact .ret (lines l) (trees _ x)

/-! ## The primitive operations -/

variable (K) in
/-- What the primitive operations have to keep, so that runs with these settings keep it. -/
structure Lawful (s s' : Settings) : Prop where
  trees {i use x y} : K.trees i use x y → K.Matches i x y
  stray {i x y} : K.trees i .value x y → K.lines (x.line?.getD 0) (y.line?.getD 0)
  params {d d'} : K.declarations d d' → d.params = d'.params
  lookup {i a b} : K.machines i a b → ∀ name, a.lookup s.scoping name = b.lookup s'.scoping name
  functions {i a b} : K.machines i a b → ∀ name : String,
    Option.Rel K.declarations a.functions[name]? b.functions[name]?
  callDepth {i a b} : K.machines i a b → a.callDepth = b.callDepth
  write {i l l'} : K.lines l l' → ∀ v, K.Coupled i (writeLine v l) (writeLine v l')
  read {i l l'} : K.lines l l' → ∀ prompt, K.Coupled i (readValue prompt l) (readValue prompt l')
  define {i a b} : K.machines i a b → ∀ name v, K.machines i (a.define name v) (b.define name v)
  declare {i a b d d'} : K.machines i a b → K.declarations d d' →
    K.machines i (a.declare d) (b.declare d')
  call {i a b d d'} : K.machines i a b → K.declarations d d' → ∀ frame, ∃ j,
    K.machines j (a.enter frame) (b.enter frame) ∧ K.trees j .statement d.body d'.body ∧
      ∀ a' b', K.machines j a' b' → K.machines i a'.leave b'.leave
  /-- The first run may have less room for calls, and then running out of it is a cut. -/
  limit : s.maxCallDepth ≤ s'.maxCallDepth
  exceeded {i a b} : K.machines i a b → s.maxCallDepth ≤ a.callDepth →
    s.maxCallDepth = s'.maxCallDepth ∨
      ∀ line, K.cut (.fault ⟨.callDepthExceeded s.maxCallDepth, line⟩) a.console b.console
  grows : K.Cuts → ∀ budget x, Grows (eval s' budget x)

namespace Lawful

variable {s s' : Settings}

theorem readVariable (lawful : K.Lawful s s') {l l' : Nat} (lines : K.lines l l') (name : String) :
    K.Coupled i (Eval.readVariable s.scoping name l) (Eval.readVariable s'.scoping name l') := by
  refine .get_bind (fun a b alike => ?_) fun _ b => ?_
  · rw [lawful.lookup alike name]
    cases b.lookup s'.scoping name with
    | none => exact .fail _ lines
    | some v => exact .pure v
  · cases b.lookup s'.scoping name with
    | none => exact .throw _
    | some v => exact .pure v

section Parts

variable {run run' : Node → Eval Completion}

theorem callFunction (lawful : K.Lawful s s')
    (parts : ∀ j use x y, K.trees j use x y → K.Coupled j (run x) (run' y))
    (grows : K.Cuts → ∀ x, Grows (run' x)) {xs ys : List Node}
    (arguments : List.Forall₂ (K.trees i .value) xs ys) {l l' : Nat} (lines : K.lines l l')
    (name : String) :
    K.Coupled i (Eval.callFunction run s.maxCallDepth name xs l)
      (Eval.callFunction run' s'.maxCallDepth name ys l') := by
  have values : List.Forall₂ (fun x y => K.Coupled i (valueOf run x) (valueOf run' y)) xs ys :=
    arguments.imp fun x y alike => (parts i .value x y alike).valueOf (lawful.stray alike)
  have growing (cuts : K.Cuts) : Grows (Eval.callFunction run' s'.maxCallDepth name ys l') :=
    .callFunction (grows cuts) _ _ _ _
  refine ⟨fun a b alike => ?_, growing⟩
  have found := lawful.functions alike name
  generalize left : a.functions[name]? = d at found
  generalize right : b.functions[name]? = d' at found
  cases found with
  | none =>
    exact ((Coupled.fail _ lines).ends a b alike).of_eq (callFunction_of_none left)
      (callFunction_of_none right)
  | @some d d' declared =>
    have params := lawful.params declared
    have count := arguments.length_eq
    -- the whole call, and the two calls from the point on where the limit has been checked
    have first := callFunction_of_some run left s.maxCallDepth xs l
    have second := callFunction_of_some run' right s'.maxCallDepth ys l'
    rw [params, count] at first
    by_cases fits : ys.length = d'.params.length
    · rw [if_neg (not_not_intro fits)] at first second
      by_cases full : s.maxCallDepth ≤ a.callDepth
      · rw [if_pos full] at first
        rcases lawful.exceeded alike full with same | cut
        · rw [lawful.callDepth alike, same] at full
          rw [if_pos full] at second
          rw [same] at first ⊢
          exact ((Coupled.fail _ lines).ends a b alike).of_eq first second
        · exact .cut first (K.onward (cut l) (growing ⟨_, _, _, cut l⟩ b))
      · have below : ¬ s'.maxCallDepth ≤ b.callDepth := by
          have limit := lawful.limit
          have depth := lawful.callDepth alike
          omega
        rw [if_neg full] at first
        rw [if_neg below] at second
        have call : K.Coupled i (callBody run xs d'.params d.body) (callBody run' ys d'.params d'.body) := by
          refine (Coupled.bindArguments values _ ∅).bind fun frame => ?_
          have body : K.Coupled i (inFrame frame (run d.body)) (inFrame frame (run' d'.body)) := by
            refine .inFrame (fun a b alike => ?_) fun cuts => grows cuts _
            obtain ⟨j, opened, trees, closed⟩ := lawful.call alike declared frame
            exact ⟨j, opened, parts j .statement _ _ trees, closed⟩
          refine body.bind fun completion => ?_
          cases completion <;> exact .pure _
        exact (call.ends a b alike).of_eq first second
    · rw [if_pos fits] at first second
      exact ((Coupled.fail _ lines).ends a b alike).of_eq first second

theorem assign (lawful : K.Lawful s s') {x y : Node}
    (value : K.Coupled i (valueOf run x) (valueOf run' y)) (n : String) (k k' l l' : Nat) :
    K.Coupled i (Eval.assign run (.name n k) x l) (Eval.assign run' (.name n k') y l') := by
  refine value.bind fun v => ?_
  have defined : K.Coupled i (modify (·.define n v) : Eval PUnit) (modify (·.define n v)) :=
    .modify (fun _ _ alike => lawful.define alike n v) fun b => b.console_define n v
  exact defined.bind fun _ => .pure _

/-- One step keeps what the runs of the parts keep. -/
theorem step (lawful : K.Lawful s s')
    (parts : ∀ j use x y, K.trees j use x y → K.Coupled j (run x) (run' y))
    (returns : ∀ x l, Abrupt (run (.ret x l))) (returns' : ∀ x l, Abrupt (run' (.ret x l)))
    (grows : K.Cuts → ∀ x, Grows (run' x)) (rounds : Nat) {x y : Node} (root : K.Matches i x y) :
    K.Coupled i (Eval.step run s rounds x) (Eval.step run' s' rounds y) := by
  have value {x y : Node} (alike : K.trees i .value x y) : K.Coupled i (valueOf run x) (valueOf run' y) :=
    (parts i .value x y alike).valueOf (lawful.stray alike)
  -- operators with two operands differ in what they make of the values only
  have ofTwo {x y x' y' : Node} (left : K.trees i .value x x') (right : K.trees i .value y y')
      {f : Value → Value → Nat → Except RuntimeFault Value} (onLine : ∀ a b, Value.OnLine (f a b))
      {l l' : Nat} (lines : K.lines l l') :=
    (value left).bind fun a => (value right).bind fun b =>
      (Coupled.ofExcept (K := K) (i := i) (onLine a b) lines).bind fun v => .pure (Completion.normal v)
  cases root with
  | number | truth | text => exact .pure _
  | name lines => exact (lawful.readVariable lines _).bind fun _ => .pure _
  | @unary op _ _ _ _ lines operand =>
    refine (value operand).bind fun v => ?_
    exact (Coupled.ofExcept (v.unary_onLine op) lines).bind fun _ => .pure _
  | @binary _ op _ _ _ _ _ computes lines left right =>
    cases op with
    | assign => exact absurd rfl computes
    | _ => exact ofTwo left right (fun a b => a.arithmetic_onLine _ b) lines
  | assign operand => exact (lawful.assign (value operand) _ _ _ _ _).bind fun _ => .pure _
  | @noTarget x y x' y' l l' lines left right =>
    have refused (run : Node → Eval Completion) {x : Node} (other : ∀ n k, x ≠ .name n k) (y : Node)
        (l : Nat) : Eval.assign run x y l = Eval.fail .invalidTarget l := by
      cases x with
      | name n k => exact absurd rfl (other n k)
      | _ => rfl
    have both : K.Coupled i (Eval.assign run x y l) (Eval.assign run' x' y' l') := by
      rw [refused run left, refused run' right]
      exact .fail _ lines
    exact both.bind fun _ => .pure _
  | @compare _ op _ _ _ _ _ lines left right => exact ofTwo left right (fun a b => a.compare_onLine op b) lines
  | @logic _ op _ _ _ _ _ lines left right =>
    exact (Coupled.connect (.truthOf (value left) lines) (.truthOf (value right) lines) op).bind
      fun _ => .pure _
  | print lines operand =>
    refine (value operand).bind fun v => ?_
    exact (lawful.write lines v).bind fun _ => .pure _
  | input lines => exact (lawful.read lines _).bind fun _ => .pure _
  | conditional lines condition thenBlock elseBranch =>
    refine (Coupled.truthOf (value condition) lines).bind fun holds => ?_
    cases holds with
    | true => exact parts i _ _ _ thenBlock
    | false =>
      cases elseBranch with
      | none => exact .pure _
      | some branch => exact parts i _ _ _ branch
  | block statements =>
    exact .inOrder returns returns' (statements.imp fun _ _ alike => parts i _ _ _ alike) .empty
  | loop lines condition body =>
    exact .repeatWhile (.truthOf (value condition) lines) (parts i _ _ _ body) rounds .empty
  | @function n ns b b' l l' alike =>
    have declared : K.Coupled i (modify (·.declare ⟨n, ns, b, l⟩) : Eval PUnit)
        (modify (·.declare ⟨n, ns, b', l'⟩)) :=
      .modify (fun _ _ related => lawful.declare related alike) fun _ => rfl
    exact declared.bind fun _ => .pure _
  | call lines arguments =>
    exact (lawful.callFunction parts grows arguments lines _).bind fun _ => .pure _
  | ret lines operand =>
    have returned := (value operand).bind fun v => Coupled.pure (K := K) (i := i) (Completion.returned v)
    refine .get_bind (fun a b alike => ?_) fun cuts b => ?_
    · rw [lawful.callDepth alike]
      split
      · exact .fail _ lines
      · exact returned
    · split
      · exact .throw _
      · exact returned.grows cuts

end Parts

/-! ### Whole runs -/

/-- Runs of alike trees end alike. -/
theorem eval (lawful : K.Lawful s s') (budget : Nat) (use : Use) {x y : Node} (alike : K.trees i use x y) :
    K.Coupled i (SmallScript.eval s budget x) (SmallScript.eval s' budget y) := by
  induction budget generalizing i use x y with
  | zero => exact .throw .unfinished
  | succ budget ih =>
    exact lawful.step (fun _ _ _ _ alike => ih _ alike) (abrupt_eval_ret s budget)
      (abrupt_eval_ret s' budget) (fun cuts => lawful.grows cuts budget) budget (lawful.trees alike)

/-- Scripts that are alike up to a `return` end alike. -/
theorem evaluate_upToReturn (lawful : K.Lawful s s') (budget : Nat) {xs ys : List Node}
    (alike : UpToReturn (K.trees i .value) xs ys) :
    K.Coupled i (SmallScript.evaluate s budget xs) (SmallScript.evaluate s' budget ys) := by
  -- the value so far changes from statement to statement
  suffices run : ∀ last, K.Coupled i (evaluateFrom s budget last xs) (evaluateFrom s' budget last ys) from
    run .empty
  induction alike with
  | nil => exact fun last => .pure last
  | cons first _ ih =>
    exact fun _ => ((lawful.eval budget .value first).valueOf (lawful.stray first)).bind ih
  | ret last =>
    intro soFar
    rw [evaluateFrom_ret, evaluateFrom_ret]
    exact (lawful.eval budget .value last).valueOf (lawful.stray last)

theorem evaluate (lawful : K.Lawful s s') (budget : Nat) {xs ys : List Node}
    (alike : List.Forall₂ (K.trees i .value) xs ys) :
    K.Coupled i (SmallScript.evaluate s budget xs) (SmallScript.evaluate s' budget ys) :=
  lawful.evaluate_upToReturn budget (.of_forall₂ alike)

end Lawful

end Likeness

end SmallScript
