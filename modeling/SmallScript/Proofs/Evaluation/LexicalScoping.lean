import SmallScript.Proofs.Evaluation.TwoRuns

/-! # Lexical scoping hides the callers

With lexical scoping a run reads and writes its own variables and reads the global ones.  What lies in
the scopes between, which belong to the open calls, has no influence on it.

* `Machine.AlikeAround hidden hidden' a b`: the machines differ in nothing but the scopes between the
  innermost and the global one, which are `hidden` on `a` and `hidden'` on `b`.
* `simulation_alikeAround`: a run cannot tell such machines apart.  When a call is opened, the scope of
  the caller joins the hidden ones on both machines, and it comes back when the call is closed.
* `Machine.AlikeGlobally`: the global scope alone is the same.  That is enough for a call whose
  arguments do not depend on the caller.
-/

namespace SmallScript

namespace Machine

/-- The machines have declared the same functions, have as many calls open and the same console. -/
structure AlikeOutside (a b : Machine) : Prop where
  functions : a.functions.Equiv b.functions
  callDepth : a.callDepth = b.callDepth
  console : a.console = b.console

/-- The machines differ in the scopes between the innermost and the global one only. -/
structure AlikeAround (hidden hidden' : List Scope) (a b : Machine) : Prop extends AlikeOutside a b where
  scopes : ∃ inner inner' globals globals' : Scope,
    a.scopes = inner :: (hidden ++ [globals]) ∧ b.scopes = inner' :: (hidden' ++ [globals']) ∧
      inner.Equiv inner' ∧ globals.Equiv globals'

/-- The machines have the same global variables, whatever calls are open. -/
structure AlikeGlobally (a b : Machine) : Prop extends AlikeOutside a b where
  scopes : ∃ (outer outer' : List Scope) (globals globals' : Scope),
    a.scopes = outer ++ [globals] ∧ b.scopes = outer' ++ [globals'] ∧ globals.Equiv globals'

namespace AlikeOutside

variable {a b : Machine}

theorem getElem?_functions (alike : AlikeOutside a b) (name : String) :
    a.functions[name]? = b.functions[name]? :=
  alike.functions.getElem?_eq

theorem enter (alike : AlikeOutside a b) (frame : Scope) :
    AlikeOutside (a.enter frame) (b.enter frame) :=
  ⟨alike.functions, congrArg (· + 1) alike.callDepth, alike.console⟩

theorem leave (alike : AlikeOutside a b) : AlikeOutside a.leave b.leave := by
  refine ⟨?_, ?_, ?_⟩
  · simpa using alike.functions
  · simp [alike.callDepth]
  · simp [alike.console]

end AlikeOutside

namespace AlikeAround

variable {hidden hidden' : List Scope} {a b : Machine}

theorem lookup (alike : AlikeAround hidden hidden' a b) (name : String) :
    a.lookup .lexical name = b.lookup .lexical name := by
  obtain ⟨inner, inner', globals, globals', left, right, sameInner, sameGlobals⟩ := alike.scopes
  have last (scope : Scope) (scopes : List Scope) (outermost : Scope) :
      (scope :: (scopes ++ [outermost])).getLast? = some outermost := by
    rw [← List.cons_append, List.getLast?_concat]
  simp only [Machine.lookup, left, right, last, List.head?_cons, Option.bind_some]
  rw [sameInner.getElem?_eq, sameGlobals.getElem?_eq]

theorem define (alike : AlikeAround hidden hidden' a b) (name : String) (value : Value) :
    AlikeAround hidden hidden' (a.define name value) (b.define name value) := by
  obtain ⟨outside, inner, inner', globals, globals', left, right, sameInner, sameGlobals⟩ := alike
  obtain ⟨_, _, _, _⟩ := a
  obtain ⟨_, _, _, _⟩ := b
  cases left
  cases right
  exact ⟨⟨outside.functions, outside.callDepth, outside.console⟩, _, _, globals, globals', rfl, rfl,
    sameInner.insert name value, sameGlobals⟩

theorem declare (alike : AlikeAround hidden hidden' a b) (declaration : Declaration) :
    AlikeAround hidden hidden' (a.declare declaration) (b.declare declaration) :=
  ⟨⟨alike.functions.insert _ _, alike.callDepth, alike.console⟩, alike.scopes⟩

end AlikeAround

end Machine

open Machine Eval

/-- With lexical scoping, runs cannot tell apart machines that differ in hidden scopes only. -/
theorem simulation_alikeAround :
    Simulation .lexical fun (hidden : List Scope × List Scope) => AlikeAround hidden.1 hidden.2 where
  lookup := AlikeAround.lookup
  functions alike := alike.getElem?_functions
  callDepth alike := alike.callDepth
  write _ line := .onConsole (fun _ _ alike => alike.console)
    (fun _ _ alike _ => ⟨⟨alike.functions, alike.callDepth, rfl⟩, alike.scopes⟩) line _
  read := .readValue (fun _ _ alike => alike.console)
    (fun _ _ alike _ => ⟨⟨alike.functions, alike.callDepth, rfl⟩, alike.scopes⟩)
  define := AlikeAround.define
  declare := AlikeAround.declare
  call := by
    intro hidden a b alike frame
    obtain ⟨inner, inner', globals, globals', left, right, sameInner, sameGlobals⟩ := alike.scopes
    refine ⟨(inner :: hidden.1, inner' :: hidden.2), ⟨alike.enter frame, ?_⟩, ?_⟩
    · exact ⟨frame, frame, globals, globals', by simp [left], by simp [right], .rfl, sameGlobals⟩
    · intro a' b' body
      obtain ⟨_, _, globals, globals', left, right, _, sameGlobals⟩ := body.scopes
      -- what was hidden during the call is untouched, the callers' own scopes among it
      exact ⟨body.leave, inner, inner', globals, globals', scopes_leave left (by simp),
        scopes_leave right (by simp), sameInner, sameGlobals⟩

theorem together_eval_of_alikeAround (maxCallDepth budget : Nat) (hidden hidden' : List Scope)
    (node : Node) :
    Together (AlikeAround hidden hidden') (eval ⟨.lexical, maxCallDepth⟩ budget node)
      (eval ⟨.lexical, maxCallDepth⟩ budget node) :=
  have sim : Simulation (Settings.mk .lexical maxCallDepth).scoping _ := simulation_alikeAround
  sim.eval budget (hidden, hidden') node

/-! ## Calls from different places -/

/-- Trees that have the same value everywhere. -/
def Node.isLiteral : Node → Bool
  | .number .. | .truth .. | .text .. => true
  | _ => false

theorem together_eval_literal {R : Machine → Machine → Prop} (settings : Settings) (budget : Nat)
    {node : Node} (literal : node.isLiteral) :
    Together R (eval settings budget node) (eval settings budget node) := by
  cases budget with
  | zero => exact .throw _
  | succ budget =>
    cases node with
    | number | truth | text => exact .pure _
    | _ => cases literal

/-- The body of a call sees nothing of the caller but the global variables. -/
theorem together_inFrame_of_alikeGlobally (maxCallDepth budget : Nat) (frame : Scope) (body : Node) :
    Together AlikeGlobally (inFrame frame (eval ⟨.lexical, maxCallDepth⟩ budget body))
      (inFrame frame (eval ⟨.lexical, maxCallDepth⟩ budget body)) := by
  refine .inFrame fun a b alike => ?_
  obtain ⟨outer, outer', globals, globals', left, right, sameGlobals⟩ := alike.scopes
  -- all scopes of the callers but the global one are hidden from the body
  refine ⟨AlikeAround outer outer', ⟨alike.enter frame, ?_⟩,
    together_eval_of_alikeAround maxCallDepth budget outer outer' body, ?_⟩
  · exact ⟨frame, frame, globals, globals', by simp [left], by simp [right], .rfl, sameGlobals⟩
  · intro a' b' after
    obtain ⟨_, _, globals, globals', left, right, _, sameGlobals⟩ := after.scopes
    exact ⟨after.leave, outer, outer', globals, globals', scopes_leave left (by simp),
      scopes_leave right (by simp), sameGlobals⟩

theorem together_call_of_alikeGlobally (maxCallDepth budget : Nat) (name : String)
    {arguments : List Node} (literals : ∀ x ∈ arguments, x.isLiteral) (line : Nat) :
    Together AlikeGlobally (eval ⟨.lexical, maxCallDepth⟩ budget (.call name arguments line))
      (eval ⟨.lexical, maxCallDepth⟩ budget (.call name arguments line)) := by
  cases budget with
  | zero => exact .throw _
  | succ budget =>
    have call := Together.callFunction (fun _ _ (alike : AlikeGlobally _ _) => alike.getElem?_functions)
      (fun _ _ alike => alike.callDepth)
      (fun x member => together_eval_literal ⟨.lexical, maxCallDepth⟩ budget (literals x member))
      (together_inFrame_of_alikeGlobally maxCallDepth budget) maxCallDepth name line
    exact call.bind fun _ => .pure _

/-- With lexical scoping, two runs of a tree whose machines differ only in the scopes between the
    innermost and the global one end in the same way, and so do their machines, where the scopes between
    are what they were.  A call with literals for arguments does the same wherever it stands, as long as
    the global variables are the same. -/
theorem eval_lexical_noninterference (maxCallDepth budget : Nat) :
    (∀ (node : Node) (hidden hidden' : List Scope) (a b : Machine), AlikeAround hidden hidden' a b →
      outcome (eval ⟨.lexical, maxCallDepth⟩ budget node) a =
        outcome (eval ⟨.lexical, maxCallDepth⟩ budget node) b ∧
      AlikeAround hidden hidden' (after (eval ⟨.lexical, maxCallDepth⟩ budget node) a)
        (after (eval ⟨.lexical, maxCallDepth⟩ budget node) b)) ∧
    ∀ (name : String) (arguments : List Node) (line : Nat) (a b : Machine),
      (∀ x ∈ arguments, x.isLiteral) → AlikeGlobally a b →
      outcome (eval ⟨.lexical, maxCallDepth⟩ budget (.call name arguments line)) a =
        outcome (eval ⟨.lexical, maxCallDepth⟩ budget (.call name arguments line)) b ∧
      AlikeGlobally (after (eval ⟨.lexical, maxCallDepth⟩ budget (.call name arguments line)) a)
        (after (eval ⟨.lexical, maxCallDepth⟩ budget (.call name arguments line)) b) := by
  constructor
  · intro node hidden hidden' a b alike
    exact together_eval_of_alikeAround maxCallDepth budget hidden hidden' node a b alike
  · intro name arguments line a b literals alike
    exact together_call_of_alikeGlobally maxCallDepth budget name literals line a b alike

/-- A function that asks for a variable of its caller does not find it, wherever it is called. -/
theorem eval_lexical_noninterference_callers :
    let globals : Scope := (∅ : Scope).insert "g" (.boolean true)
    let inner : Scope := (∅ : Scope).insert "x" (.text "inner")
    let hidden : Scope := (∅ : Scope).insert "y" (.text "hidden")
    let functions := Std.TreeMap.empty.insert "f" ⟨"f", ["p"], .ret (.name "y" 2) 2, 1⟩
    let a : Machine := ⟨[inner, hidden, globals], functions, 2, .ofInput []⟩
    let b : Machine := ⟨[inner, ∅, ∅, globals], functions, 2, .ofInput []⟩
    let c : Machine := ⟨[globals], functions, 2, .ofInput []⟩
    let ofVariable := eval ⟨.lexical, 128⟩ 6 (.call "f" [.name "x" 3] 3)
    let ofLiteral := eval ⟨.lexical, 128⟩ 6 (.call "f" [.truth true 3] 3)
    AlikeAround [hidden] [∅, ∅] a b ∧ AlikeGlobally a c ∧
    outcome ofVariable b = .error (.fault ⟨.unknownVariable "y", 2⟩) ∧
    (outcome ofVariable a = outcome ofVariable b ∧
      AlikeAround [hidden] [∅, ∅] (after ofVariable a) (after ofVariable b)) ∧
    outcome ofLiteral a = outcome ofLiteral c ∧
      AlikeGlobally (after ofLiteral a) (after ofLiteral c) := by
  intro globals inner hidden functions a b c ofVariable ofLiteral
  have around : AlikeAround [hidden] [∅, ∅] a b :=
    ⟨⟨.rfl, rfl, rfl⟩, inner, inner, globals, globals, rfl, rfl, .rfl, .rfl⟩
  have globally : AlikeGlobally a c :=
    ⟨⟨.rfl, rfl, rfl⟩, [inner, hidden], [], globals, globals, rfl, rfl, .rfl⟩
  obtain ⟨anywhere, calls⟩ := eval_lexical_noninterference 128 6
  exact ⟨around, globally, rfl, anywhere _ _ _ a b around,
    calls "f" [.truth true 3] 3 a c (by simp [Node.isLiteral]) globally⟩

end SmallScript
