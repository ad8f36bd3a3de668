import SmallScript.Proofs.Evaluation.Budget
import SmallScript.Proofs.Evaluation.Reached

/-! # Scripts without loops end

Without loops only calls can keep a run going.  The bodies that are called come from a table that the
run itself changes, so they need not be parts of the tree that is run.  But a call is one more open
call, of which there are at most `maxCallDepth`, and everything else goes from a tree to its parts.

* `Node.hasLoop` looks for a loop anywhere in a tree.
* `Machine.Bounded size depth m`: as many calls are open, and the bodies in the table have no loops and
  at most that size.  Every run keeps it.
* `eval_fine_of_hasLoop` has the measure: the size of the tree, and `size` for each call that can still
  be opened.
-/

namespace SmallScript

namespace Node

mutual

def hasLoop : Node → Bool
  | number .. | truth .. | text .. | name .. | input .. => false
  | unary _ a _ | print a _ | ret a _ | function _ _ a _ => hasLoop a
  | binary a _ b _ | compare a _ b _ | logic a _ b _ => hasLoop a || hasLoop b
  | conditional c t e _ => hasLoop c || hasLoop t || hasLoopElse e
  | block s _ | call _ s _ => hasLoopList s
  | loop .. => true

def hasLoopList : List Node → Bool
  | [] => false
  | a :: s => hasLoop a || hasLoopList s

def hasLoopElse : Option Node → Bool
  | none => false
  | some a => hasLoop a

end

theorem hasLoopList_eq_any (s : List Node) : hasLoopList s = s.any hasLoop := by
  induction s with
  | nil => rfl
  | cons a s ih => simp [hasLoopList, ih]

theorem hasLoop_of_mem_parts {x y : Node} (member : y ∈ x.parts) (free : x.hasLoop = false) :
    y.hasLoop = false := by
  cases x with
  | conditional c t e line =>
    cases e <;> simp_all [parts, hasLoop, hasLoopElse] <;> grind
  | block s line | call n s line => simp_all [parts, hasLoop, hasLoopList_eq_any]
  | loop => cases free
  | _ => simp_all [parts, hasLoop] <;> grind

end Node

/-! ## What runs without loops keep -/

namespace Machine

/-- The bodies in the table have no loops and at most a given size, and so many calls are open. -/
structure Bounded (size depth : Nat) (m : Machine) : Prop where
  bodies : m.Declares fun d => d.body.hasLoop = false ∧ sizeOf d.body ≤ size
  callDepth : m.callDepth = depth

namespace Bounded

variable {size depth : Nat} {m : Machine}

theorem define (bounded : Bounded size depth m) (name : String) (value : Value) :
    Bounded size depth (m.define name value) :=
  ⟨bounded.bodies.define name value, (m.callDepth_define name value).trans bounded.callDepth⟩

theorem declare (bounded : Bounded size depth m) {declaration : Declaration}
    (free : declaration.body.hasLoop = false) (small : sizeOf declaration.body ≤ size) :
    Bounded size depth (m.declare declaration) :=
  ⟨bounded.bodies.declare ⟨free, small⟩, bounded.callDepth⟩

theorem enter (bounded : Bounded size depth m) (frame : Scope) :
    Bounded size (depth + 1) (m.enter frame) :=
  ⟨bounded.bodies, congrArg Nat.succ bounded.callDepth⟩

theorem leave (bounded : Bounded size (depth + 1) m) : Bounded size depth m.leave := by
  refine ⟨bounded.bodies.leave, ?_⟩
  simp [bounded.callDepth]

end Bounded

/-- A table is finite, so its bodies are of some greatest size. -/
theorem sizeOf_le_of_found {m : Machine} {name : String} {declaration : Declaration}
    (found : m.functions[name]? = some declaration) :
    sizeOf declaration.body ≤ sizeOf m.functions.toList := by
  have entry := List.sizeOf_lt_of_mem (Std.TreeMap.mem_toList_iff_getElem?_eq_some.mpr found)
  obtain ⟨_, params, body, line⟩ := declaration
  simp only [Prod.mk.sizeOf_spec, Declaration.mk.sizeOf_spec] at entry
  show sizeOf body ≤ _
  omega

end Machine

/-! ## The measure -/

section Measure

open Eval

variable {settings : Settings} {size : Nat}

/-- With a budget for the tree itself and for the bodies of all calls that can still be opened, a run
    without loops ends. -/
theorem eval_fine_of_hasLoop {budget depth : Nat} {x : Node} {m : Machine}
    (free : x.hasLoop = false) (small : sizeOf x ≤ size) (bounded : m.Bounded size depth)
    (enough : sizeOf x + (settings.maxCallDepth - depth) * size ≤ budget) :
    Fine (Machine.Bounded size depth) (· ≠ .unfinished) (eval settings budget x m) := by
  induction budget generalizing x m depth with
  | zero =>
    have positive := x.sizeOf_pos
    omega
  | succ budget ih =>
    have positive := x.sizeOf_pos
    have agree : Agree (Machine.Bounded size depth) (· ≠ .unfinished)
        (step (eval settings budget) settings budget x) (step (eval settings budget) settings budget x) m := by
      apply step_agree (J := Machine.Bounded size (depth + 1)) bounded
      case console => exact fun m c kept => ⟨kept.bodies, kept.callDepth⟩
      case define => exact fun m name value _ kept => kept.define name value
      case declare =>
        rintro name params body line rfl
        have member : body ∈ (Node.function name params body line).parts := List.mem_singleton_self _
        have smaller := Node.sizeOf_lt_of_mem_parts member
        exact bounded.declare (Node.hasLoop_of_mem_parts member free)
          (Nat.le_trans (Nat.le_of_lt smaller) small)
      case parts =>
        intro use y m₁ starts kept
        have smaller := Node.sizeOf_lt_of_mem_parts starts.mem_parts
        have ends := ih (Node.hasLoop_of_mem_parts starts.mem_parts free) (by omega) kept (by omega)
        exact ⟨⟨rfl, ends⟩, fun _ _ _ _ => nofun⟩
      case bodies =>
        rintro _ frame m₁ ⟨admitted, bound⟩ kept
        obtain ⟨free', small'⟩ := bounded.bodies _ _ admitted.found
        -- the call uses up one of those that can still be opened
        obtain ⟨left, open_⟩ : ∃ left, settings.maxCallDepth - depth = left + 1 := by
          have below := admitted.below
          rw [bounded.callDepth] at below
          exact ⟨settings.maxCallDepth - depth - 1, by omega⟩
        have left_eq : settings.maxCallDepth - (depth + 1) = left := by omega
        rw [open_, Nat.succ_mul] at enough
        refine ⟨rfl, ih free' small' (kept.enter frame) ?_⟩
        rw [left_eq]
        omega
      case leave => exact fun _ => .leave
      case own =>
        rintro halt raises rfl
        cases raises
        cases free
    exact agree.fine

theorem evaluate_fine_of_hasLoop {budget depth : Nat} {statements : List Node} {m : Machine}
    (free : ∀ x ∈ statements, x.hasLoop = false) (small : ∀ x ∈ statements, sizeOf x ≤ size)
    (bounded : m.Bounded size depth)
    (enough : size + (settings.maxCallDepth - depth) * size ≤ budget) :
    Fine (Machine.Bounded size depth) (· ≠ .unfinished) (evaluate settings budget statements m) := by
  have agree : Agree (Machine.Bounded size depth) (· ≠ .unfinished)
      (evaluate settings budget statements) (evaluate settings budget statements) m := by
    refine evaluateFrom_agree bounded (fun x m₁ order kept => ⟨⟨rfl, ?_⟩, fun _ _ _ _ => nofun⟩) .empty
    have small' := small x order.mem
    exact eval_fine_of_hasLoop (free x order.mem) small' kept (by omega)
  exact agree.fine

end Measure

/-- A script without loops ends, on every machine whose functions have none, whatever it calls and
    redeclares: from some budget on, all runs of it are one and the same finished run.  And it leaves
    a machine whose functions have no loops. -/
theorem evaluate_terminates (settings : Settings) (statements : List Node) (m : Machine)
    (script : ∀ x ∈ statements, x.hasLoop = false) (table : m.Declares fun d => d.body.hasLoop = false) :
    ∃ (enough : Nat) (result : EStateM.Result Halt Machine Value),
      (∀ budget, enough ≤ budget → evaluate settings budget statements m = result) ∧
      (∀ m', result ≠ .error .unfinished m') ∧
      (Eval.after (evaluate settings enough statements) m).Declares fun d => d.body.hasLoop = false := by
  -- a call evaluates a body, which need not be smaller than the call: the depth of calls counts as well
  let size := sizeOf m.functions.toList + sizeOf statements
  have bounded : m.Bounded size m.callDepth := by
    refine ⟨fun name declaration found => ⟨table name declaration found, ?_⟩, rfl⟩
    exact Nat.le_trans (Machine.sizeOf_le_of_found found) (Nat.le_add_right _ _)
  have small (x : Node) (member : x ∈ statements) : sizeOf x ≤ size := by
    have lt := List.sizeOf_lt_of_mem member
    exact Nat.le_trans (Nat.le_of_lt lt) (Nat.le_add_left _ _)
  let enough := size + (settings.maxCallDepth - m.callDepth) * size
  have fine := evaluate_fine_of_hasLoop script small bounded (Nat.le_refl enough)
  have ends : Eval.Finishes (evaluate settings enough statements) m := by
    intro m' cut
    rw [cut] at fine
    exact fine.1 rfl
  have kept := fine.after.bodies
  exact ⟨enough, _, fun budget le => evaluate_of_le le ends, ends, kept.imp fun _ => And.left⟩

/-- A function that declares itself anew before it calls itself, and is called by one that the machine
    already knows.  Only the limit on open calls ends this run. -/
theorem evaluate_terminates_redeclared :
    let again : Node := .function "f" ["n"] (.block [.ret (.call "f" [.name "n" 2] 2) 2] (some 2)) 2
    let script : List Node :=
      [.function "f" ["n"] (.block [again, .ret (.call "f" [.name "n" 3] 3) 3] (some 2)) 1,
        .call "g" [] 4]
    let g : Declaration := ⟨"g", [], .block [.ret (.call "f" [.truth true 1] 1) 1] (some 1), 1⟩
    let m : Machine := ⟨[∅], Std.TreeMap.empty.insert "g" g, 1, .ofInput []⟩
    (∀ x ∈ script, x.hasLoop = false) ∧ (m.Declares fun d => d.body.hasLoop = false) ∧
    Eval.outcome (evaluate ⟨.dynamic, 5⟩ 20 script) m = .error (.fault ⟨.callDepthExceeded 5, 2⟩) ∧
    ∃ (enough : Nat) (result : EStateM.Result Halt Machine Value),
      (∀ budget, enough ≤ budget → evaluate ⟨.dynamic, 5⟩ budget script m = result) ∧
      (∀ m', result ≠ .error .unfinished m') ∧
      (Eval.after (evaluate ⟨.dynamic, 5⟩ enough script) m).Declares
        fun d => d.body.hasLoop = false := by
  intro again script g m
  have free : ∀ x ∈ script, x.hasLoop = false := by decide
  have table : m.Declares fun d => d.body.hasLoop = false := by
    intro name declaration found
    simp only [m, Std.TreeMap.getElem?_insert] at found
    split at found
    · cases found
      rfl
    · simp at found
  have ends : Eval.outcome (evaluate ⟨.dynamic, 5⟩ 20 script) m =
      .error (.fault ⟨.callDepthExceeded 5, 2⟩) := by
    simp only [m, g, script, again]
    rfl
  exact ⟨free, table, ends, evaluate_terminates ⟨.dynamic, 5⟩ script m free table⟩

end SmallScript
