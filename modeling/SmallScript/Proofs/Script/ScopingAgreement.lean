import Mathlib
import SmallScript.Proofs.Evaluation.Termination
import SmallScript.Proofs.Grammar.Shape
import SmallScript.Proofs.Script.Session

/-! # Where lexical and dynamic scoping agree

The two ways of scoping differ for a name that is not in the innermost scope: one goes on to the global
scope, the other first to the scopes of the open calls.  These hold parameters and what function bodies
assign to.  So they agree where no function reads a name of this kind, unless it is its own parameter,
which is always in its own scope.

* `Node.reads`, `Node.assigned` and `Node.declared` collect from a tree what it reads in its own scope,
  assigns to and declares.
* `NoForeignLocals` is the condition on the functions of a script.
* `Machine.Framed` says what the scopes of the open calls hold; `Framed.lookup_eq` is why the condition is
  enough.
* `eval_scopings_agree` goes through a run.
-/

namespace SmallScript

/-! ## Names in a tree -/

namespace Node

mutual

/-- The tree and all trees in it, those in the bodies of functions only if `inside` is set.  What an
    assignment assigns to is left out. -/
def subtrees (inside : Bool) (x : Node) : List Node :=
  x :: match x with
    | number .. | truth .. | text .. | name .. | input .. => []
    | unary _ a _ | print a _ | ret a _ => subtrees inside a
    | function _ _ a _ => if inside then subtrees inside a else []
    | binary a op b _ => (if op = .assign then [] else subtrees inside a) ++ subtrees inside b
    | compare a _ b _ | logic a _ b _ | loop a b _ => subtrees inside a ++ subtrees inside b
    | conditional c t e _ => subtrees inside c ++ (subtrees inside t ++ subtreesElse inside e)
    | block s _ | call _ s _ => subtreesList inside s

def subtreesList (inside : Bool) : List Node → List Node
  | [] => []
  | a :: s => subtrees inside a ++ subtreesList inside s

def subtreesElse (inside : Bool) : Option Node → List Node
  | none => []
  | some a => subtrees inside a

end

/-- The trees right below the root that `subtrees` goes on to. -/
def ownParts (inside : Bool) : Node → List Node
  | function _ _ a _ => if inside then [a] else []
  | binary a op b _ => if op = .assign then [b] else [a, b]
  | x => x.parts

theorem subtreesList_eq_flatMap (inside : Bool) (s : List Node) :
    subtreesList inside s = s.flatMap (subtrees inside) := by
  induction s with
  | nil => rfl
  | cons a s ih => rw [subtreesList, ih, List.flatMap_cons]

theorem subtrees_eq (inside : Bool) (x : Node) :
    x.subtrees inside = x :: (x.ownParts inside).flatMap (subtrees inside) := by
  cases x with
  | binary a op b l => by_cases assigns : op = .assign <;> simp [subtrees, ownParts, assigns]
  | function n ns a l => cases inside <;> simp [subtrees, ownParts]
  | conditional c t e l => cases e <;> simp [subtrees, subtreesElse, ownParts, parts]
  | block s l | call n s l => simp [subtrees, ownParts, parts, subtreesList_eq_flatMap]
  | _ => simp [subtrees, ownParts, parts]

theorem mem_parts_of_mem_ownParts {inside : Bool} {x y : Node} (member : y ∈ x.ownParts inside) : y ∈ x.parts := by
  cases x with
  | binary a op b l => by_cases assigns : op = .assign <;> simp_all [ownParts, parts]
  | function n ns a l => cases inside <;> simp_all [ownParts, parts]
  | _ => exact member

theorem self_mem_subtrees (inside : Bool) (x : Node) : x ∈ x.subtrees inside := by
  rw [subtrees_eq]
  exact List.mem_cons_self

theorem subtrees_subset_of_mem_ownParts {inside : Bool} {x y : Node} (member : y ∈ x.ownParts inside) :
    y.subtrees inside ⊆ x.subtrees inside := by
  intro z inner
  rw [subtrees_eq inside x]
  exact List.mem_cons_of_mem x (List.mem_flatMap.mpr ⟨y, member, inner⟩)

theorem subtrees_subset {inside : Bool} {x y : Node} (member : y ∈ x.subtrees inside) :
    y.subtrees inside ⊆ x.subtrees inside := by
  have unfolded := member
  rw [subtrees_eq, List.mem_cons, List.mem_flatMap] at unfolded
  rcases unfolded with rfl | ⟨part, here, deeper⟩
  · exact List.Subset.refl _
  · have smaller := sizeOf_lt_of_mem_parts (mem_parts_of_mem_ownParts here)
    exact List.Subset.trans (subtrees_subset deeper) (subtrees_subset_of_mem_ownParts here)
termination_by sizeOf x

def read? : Node → Option String
  | name n _ => some n
  | _ => none

def target? : Node → Option String
  | binary (name n _) .assign _ _ => some n
  | _ => none

def declaration? : Node → Option Declaration
  | function n ns b l => some ⟨n, ns, b, l⟩
  | _ => none

/-- The variables that are read in the tree, outside the functions that are declared in it. -/
def reads (x : Node) : List String :=
  (x.subtrees false).filterMap read?

/-- The variables that are assigned to anywhere in the tree. -/
def assigned (x : Node) : List String :=
  (x.subtrees true).filterMap target?

/-- The functions that are declared anywhere in the tree, in the bodies of others too. -/
def declared (x : Node) : List Declaration :=
  (x.subtrees true).filterMap declaration?

end Node

/-- The names that the scope of a call of some function can hold: parameters, and what is assigned to in
    the body. -/
def localsOf (functions : List Declaration) : List String :=
  functions.flatMap fun d => d.params ++ d.body.assigned

/-- The functions of a script, those in the bodies of others too. -/
def functionsOf (program : List Node) : List Declaration :=
  program.flatMap Node.declared

/-- No function of the script reads a name that is local to some function, unless it is its own
    parameter. -/
def NoForeignLocals (program : List Node) : Prop :=
  ∀ d ∈ functionsOf program, ∀ name ∈ d.body.reads,
    name ∈ d.params ∨ name ∉ localsOf (functionsOf program)

instance (program : List Node) : Decidable (NoForeignLocals program) :=
  inferInstanceAs (Decidable (∀ d ∈ _, ∀ name ∈ _, _ ∨ _))

namespace Node

theorem declared_body_subset {x : Node} {d : Declaration} (member : d ∈ x.declared) :
    d.body.declared ⊆ x.declared := by
  obtain ⟨y, inner, declares⟩ := List.mem_filterMap.mp member
  cases y with
  | function n ns b l =>
    cases declares
    have body : b ∈ (function n ns b l).ownParts true := List.mem_singleton_self b
    have below := List.Subset.trans (subtrees_subset_of_mem_ownParts body) (subtrees_subset inner)
    exact List.filterMap_subset _ below
  | _ => cases declares

/-- A tree that is run while the calls `calls` are open, in a script with these functions. -/
structure Within (functions calls : List Declaration) (x : Node) : Prop where
  declared : x.declared ⊆ functions
  reads : ∀ d ∈ calls.head?, ∀ name ∈ x.reads, name ∈ d.params ∨ name ∉ localsOf functions
  assigned : calls ≠ [] → x.assigned ⊆ localsOf functions

theorem Within.of_mem_ownParts {functions calls : List Declaration} {x y : Node} (tree : x.Within functions calls)
    (part : ∀ inside, y ∈ x.ownParts inside) : y.Within functions calls := by
  have own := subtrees_subset_of_mem_ownParts (part false)
  have all := subtrees_subset_of_mem_ownParts (part true)
  refine ⟨fun d member => ?_, fun d innermost name member => ?_, fun inCall name member => ?_⟩
  · exact tree.declared (List.filterMap_subset _ all member)
  · exact tree.reads d innermost name (List.filterMap_subset _ own member)
  · exact tree.assigned inCall (List.filterMap_subset _ all member)

end Node

/-! ## The scopes of open calls -/

namespace Machine

/-- The calls `calls` of functions of the script are open.  The scope of each has the parameters of its
    function, and it has only names that are local to some function. -/
structure Framed (functions calls : List Declaration) (m : Machine) : Prop where
  declares : m.Declares (· ∈ functions)
  scopes : ∃ frames globals, m.scopes = frames ++ [globals] ∧
    List.Forall₂ (fun d (frame : Scope) => ∀ name ∈ d.params, name ∈ frame) calls frames ∧
    ∀ frame ∈ frames, ∀ name ∈ frame, name ∈ localsOf functions

namespace Framed

variable {functions calls : List Declaration} {m : Machine}

theorem fresh (functions : List Declaration) (console : Console) :
    (Machine.fresh console).Framed functions [] :=
  ⟨.fresh console, [], ∅, rfl, .nil, nofun⟩

theorem withConsole (framed : m.Framed functions calls) (c : Console) :
    ({ m with console := c } : Machine).Framed functions calls :=
  ⟨framed.declares, framed.scopes⟩

theorem define (framed : m.Framed functions calls) {name : String}
    (isLocal : calls ≠ [] → name ∈ localsOf functions) (value : Value) :
    (m.define name value).Framed functions calls := by
  refine ⟨framed.declares.define name value, ?_⟩
  obtain ⟨frames, globals, split, params, only⟩ := framed.scopes
  obtain ⟨scopes, table, callDepth, console⟩ := m
  cases split
  cases params with
  | nil => exact ⟨[], globals.insert name value, rfl, .nil, nofun⟩
  | @cons d inner ds outer first rest =>
    obtain ⟨only_inner, only_outer⟩ := List.forall_mem_cons.mp only
    refine ⟨inner.insert name value :: outer, globals, rfl, .cons ?_ rest, List.forall_mem_cons.mpr ⟨?_, only_outer⟩⟩
    · exact fun n member => Std.TreeMap.mem_insert.mpr (.inr (first n member))
    · intro n member
      rcases Std.TreeMap.mem_insert.mp member with same | old
      · cases Std.LawfulEqCmp.eq_of_compare same
        exact isLocal (List.cons_ne_nil d ds)
      · exact only_inner n old

theorem declare (framed : m.Framed functions calls) {d : Declaration} (member : d ∈ functions) :
    (m.declare d).Framed functions calls :=
  ⟨framed.declares.declare member, framed.scopes⟩

theorem enter (framed : m.Framed functions calls) {d : Declaration} (member : d ∈ functions) {frame : Scope}
    (bound : ∀ name, name ∈ frame ↔ name ∈ d.params) : (m.enter frame).Framed functions (d :: calls) := by
  refine ⟨framed.declares, ?_⟩
  obtain ⟨frames, globals, split, params, only⟩ := framed.scopes
  have opened : (m.enter frame).scopes = frame :: frames ++ [globals] := by
    rw [scopes_enter, split, List.cons_append]
  refine ⟨frame :: frames, globals, opened, .cons (fun name => (bound name).mpr) params, ?_⟩
  refine List.forall_mem_cons.mpr ⟨fun name inFrame => ?_, only⟩
  exact List.mem_flatMap.mpr ⟨d, member, List.mem_append_left _ ((bound name).mp inFrame)⟩

theorem leave {d : Declaration} (framed : m.Framed functions (d :: calls)) : m.leave.Framed functions calls := by
  refine ⟨framed.declares.leave, ?_⟩
  obtain ⟨frames, globals, split, params, only⟩ := framed.scopes
  cases params with
  | @cons _ inner _ outer _ rest =>
    exact ⟨outer, globals, scopes_leave split (by simp), rest, (List.forall_mem_cons.mp only).2⟩

/-- A name that the innermost function may read is found in its scope or in the global one, and in none
    between. -/
theorem lookup_eq (framed : m.Framed functions calls) {name : String}
    (allowed : ∀ d ∈ calls.head?, name ∈ d.params ∨ name ∉ localsOf functions) :
    m.lookup .lexical name = m.lookup .dynamic name := by
  obtain ⟨frames, globals, split, params, only⟩ := framed.scopes
  simp only [lookup, split, List.getLast?_concat, Option.bind_some, List.findSome?_append,
    List.findSome?_singleton]
  cases params with
  | nil => simp
  | @cons d inner ds outer first rest =>
    rw [List.cons_append, List.head?_cons, Option.bind_some, List.findSome?_cons]
    cases found : inner[name]? with
    | some v => rfl
    | none =>
      -- the name is no parameter, so it is local to no function, and no scope of a call has it
      have absent : name ∉ inner := by
        rw [Std.TreeMap.mem_iff_isSome_getElem?, found]
        exact Bool.false_ne_true
      have noLocal : name ∉ localsOf functions :=
        (allowed d rfl).resolve_left fun param => absent (first name param)
      have between : outer.findSome? (fun scope => scope[name]?) = none := by
        refine List.findSome?_eq_none_iff.mpr fun scope member => ?_
        exact Std.TreeMap.getElem?_eq_none fun has => noLocal (only scope (List.mem_cons_of_mem inner member) name has)
      rw [between]

end Framed

end Machine

/-! ## Runs -/

namespace Eval

variable {run : Node → Eval Completion} {settings : Settings} {rounds : Nat} {m m' : Machine}

/-- Besides what it starts with, the frame of a call has the parameters. -/
theorem mem_of_bindArguments {params : List String} {xs : List Node} {frame frame' : Scope}
    (fits : xs.length = params.length) (bound : bindArguments run params xs frame m = .ok frame' m')
    (name : String) : name ∈ frame' ↔ name ∈ params ∨ name ∈ frame := by
  induction params generalizing xs frame m with
  | nil =>
    cases bound
    simp
  | cons param params ih =>
    cases xs with
    | nil => cases fits
    | cons x xs =>
      cases value : valueOf run x m with
      | error halt m₁ => cases (bind_of_error value).symm.trans bound
      | ok v m₁ =>
        have rest := ih (Nat.succ.inj fits) ((bind_of_ok value).symm.trans bound)
        rw [rest, Std.TreeMap.mem_insert, Std.LawfulEqCmp.compare_eq_iff_eq, List.mem_cons]
        grind

/-- What a step runs in its own scope is neither the body of a function nor what is assigned to. -/
theorem Starts.mem_ownParts {node x : Node} {use : Use} (starts : Starts run settings rounds node m use x m')
    (inside : Bool) : x ∈ node.ownParts inside := by
  cases starts with
  | operands computes order =>
    have member := order.mem
    simpa [Node.ownParts, computes] using member
  | compared order | statement order | argument _ order => exact order.mem
  | loop order => simpa [Node.ownParts, Node.parts] using order.eq_or_eq
  | _ => simp [Node.ownParts, Node.parts]

end Eval

open Eval

variable {functions calls : List Declaration} {maxCallDepth : Nat} {x : Node} {m : Machine}

/-- A step asks for the scoping only where a variable is read. -/
theorem step_scopings_agree (run : Node → Eval Completion) (rounds : Nat) (tree : x.Within functions calls)
    (framed : m.Framed functions calls) :
    step run ⟨.lexical, maxCallDepth⟩ rounds x m = step run ⟨.dynamic, maxCallDepth⟩ rounds x m := by
  cases x with
  | name n line =>
    have same : readVariable .lexical n line m = readVariable .dynamic n line m := by
      have reads : n ∈ (Node.name n line).reads := List.mem_filterMap.mpr ⟨_, Node.self_mem_subtrees false _, rfl⟩
      have found := framed.lookup_eq fun d innermost => tree.reads d innermost n reads
      unfold readVariable
      refine (bind_of_ok (m := m) rfl).trans ?_
      rw [found]
      exact (bind_of_ok (m := m) rfl).symm
    exact bind_of_eq same
  | binary a op b line => cases op <;> rfl
  | _ => rfl

/-- Both ways of scoping lead to the same run, and the scopes of the open calls hold what they have to. -/
theorem eval_scopings_agree (bodies : ∀ d ∈ functions, ∀ calls, d.body.Within functions (d :: calls))
    (budget : Nat) (tree : x.Within functions calls) (framed : m.Framed functions calls) :
    Agree (Machine.Framed functions calls) (fun _ => True) (eval ⟨.lexical, maxCallDepth⟩ budget x)
      (eval ⟨.dynamic, maxCallDepth⟩ budget x) m := by
  induction budget generalizing calls x m with
  | zero => exact .throw framed trivial
  | succ budget ih =>
    -- first the parts under the two scopings in one step, then the step itself
    have agree : Agree (Machine.Framed functions calls) (fun _ => True)
        (step (eval ⟨.lexical, maxCallDepth⟩ budget) ⟨.lexical, maxCallDepth⟩ budget x)
        (step (eval ⟨.dynamic, maxCallDepth⟩ budget) ⟨.lexical, maxCallDepth⟩ budget x) m := by
      apply step_agree (J := fun m => ∃ d, m.Framed functions (d :: calls)) framed
      · exact fun m c framed => framed.withConsole c
      · rintro m name value ⟨l, v, line, rfl⟩ framed
        have target : name ∈ (Node.binary (.name name l) .assign v line).assigned :=
          List.mem_filterMap.mpr ⟨_, Node.self_mem_subtrees true _, rfl⟩
        exact framed.define (fun inCall => tree.assigned inCall target) value
      · rintro name params body line rfl
        have declared : ⟨name, params, body, line⟩ ∈ (Node.function name params body line).declared :=
          List.mem_filterMap.mpr ⟨_, Node.self_mem_subtrees true _, rfl⟩
        exact framed.declare (tree.declared declared)
      · intro use y m' starts framed'
        exact ⟨ih (tree.of_mem_ownParts starts.mem_ownParts) framed', fun _ _ _ _ => trivial⟩
      · -- a body starts with its parameters, and what it declares is known beforehand
        rintro _ frame m' ⟨admitted, bound⟩ framed'
        have member := framed.declares _ _ admitted.found
        have params := mem_of_bindArguments admitted.fits bound
        have opened := framed'.enter member fun name => (params name).trans (or_iff_left Std.TreeMap.not_mem_emptyc)
        exact (ih (bodies _ member calls) opened).imp fun _ framed => ⟨_, framed⟩
      · exact fun m ⟨d, framed⟩ => framed.leave
      · exact fun _ _ => trivial
    exact ⟨agree.same.trans (step_scopings_agree _ budget tree framed), agree.fine⟩

/-- Outside of all calls a statement may read and assign to what it likes. -/
theorem within_of_mem {program : List Node} (member : x ∈ program) : x.Within (functionsOf program) [] where
  declared _ declared := List.mem_flatMap.mpr ⟨x, member, declared⟩
  reads := nofun
  assigned inCall := absurd rfl inCall

theorem NoForeignLocals.within_body {program : List Node} (noForeign : NoForeignLocals program)
    (d : Declaration) (member : d ∈ functionsOf program) (calls : List Declaration) :
    d.body.Within (functionsOf program) (d :: calls) where
  declared e nested := by
    obtain ⟨x, statement, declared⟩ := List.mem_flatMap.mp member
    exact List.mem_flatMap.mpr ⟨x, statement, Node.declared_body_subset declared nested⟩
  reads := by
    rintro _ ⟨⟩
    exact noForeign d member
  assigned _ name target := List.mem_flatMap.mpr ⟨d, member, List.mem_append_right _ target⟩

theorem evaluate_scopings_agree {program : List Node} (noForeign : NoForeignLocals program)
    (maxCallDepth budget : Nat) (console : Console) :
    evaluate ⟨.lexical, maxCallDepth⟩ budget program (.fresh console) =
      evaluate ⟨.dynamic, maxCallDepth⟩ budget program (.fresh console) := by
  have statements (x : Node) (m : Machine) (member : x ∈ program) (framed : m.Framed (functionsOf program) []) :
      AgreeOn (eval ⟨.lexical, maxCallDepth⟩ budget) (eval ⟨.dynamic, maxCallDepth⟩ budget)
        (Machine.Framed (functionsOf program) []) (fun _ => True) .value x m :=
    ⟨eval_scopings_agree noForeign.within_body budget (within_of_mem member) framed, fun _ _ _ _ => trivial⟩
  have agree := evaluateFrom_agree (.fresh _ console) (fun x m order => statements x m order.mem) .empty
  exact agree.same

/-! ## Scripts -/

namespace Script

/-- Lexical and dynamic scoping agree on a script whose functions read no foreign locals: with every limit
    on calls, every budget, every console and whether or not the value is printed, they lead to the same
    value or the same failure, and to the same machine, with the same output and the same input left. -/
theorem scopings_agree_without_foreign_locals {source : String} {program : List Node}
    (parsed : parse source = .ok program) (noForeign : NoForeignLocals program) (maxCallDepth budget : Nat)
    (printsValue : Bool) (console : Console) :
    let lexical := run ⟨.lexical, maxCallDepth⟩ budget printsValue source
    let dynamic := run ⟨.dynamic, maxCallDepth⟩ budget printsValue source
    outcome lexical (.fresh console) = outcome dynamic (.fresh console) ∧
    after lexical (.fresh console) = after dynamic (.fresh console) := by
  intro lexical dynamic
  have evaluated := perform_congr (evaluate_scopings_agree noForeign maxCallDepth budget console)
  refine ends_congr ?_
  calc lexical (.fresh console)
    _ = _ := run_of_parsed parsed _
    _ = _ := bind_of_eq evaluated
    _ = dynamic (.fresh console) := (run_of_parsed parsed _).symm

/-- The inner function reads its parameter and a global variable, while the scope of its caller lies
    between. -/
theorem scopings_agree_without_foreign_locals_nested :
    let source := "s=true;def f(a)\x7bprint a;print s\x7ddef g(b)\x7bf(b)\x7dg(false)"
    let console := Console.ofInput []
    let lexical := run ⟨.lexical, 2⟩ 9 false source
    let dynamic := run ⟨.dynamic, 2⟩ 9 false source
    (∃ program, parse source = .ok program ∧ NoForeignLocals program) ∧
    outcome lexical (.fresh console) = outcome dynamic (.fresh console) ∧
    (after lexical (.fresh console)).console.output = "false\ntrue\n".toUTF8 := by
  intro source console lexical dynamic
  have scanned : lexemes 1 source = .ok
      [⟨.name "s", 1⟩, ⟨.symbol .assign, 1⟩, ⟨.truth true, 1⟩, ⟨.symbol .semicolon, 1⟩, ⟨.symbol .defWord, 1⟩,
        ⟨.name "f", 1⟩, ⟨.symbol .openParen, 1⟩, ⟨.name "a", 1⟩, ⟨.symbol .closeParen, 1⟩,
        ⟨.symbol .openBrace, 1⟩, ⟨.symbol .printWord, 1⟩, ⟨.name "a", 1⟩, ⟨.symbol .semicolon, 1⟩,
        ⟨.symbol .printWord, 1⟩, ⟨.name "s", 1⟩, ⟨.symbol .closeBrace, 1⟩, ⟨.symbol .defWord, 1⟩,
        ⟨.name "g", 1⟩, ⟨.symbol .openParen, 1⟩, ⟨.name "b", 1⟩, ⟨.symbol .closeParen, 1⟩,
        ⟨.symbol .openBrace, 1⟩, ⟨.name "f", 1⟩, ⟨.symbol .openParen, 1⟩, ⟨.name "b", 1⟩,
        ⟨.symbol .closeParen, 1⟩, ⟨.symbol .closeBrace, 1⟩, ⟨.name "g", 1⟩, ⟨.symbol .openParen, 1⟩,
        ⟨.truth false, 1⟩, ⟨.symbol .closeParen, 1⟩, ⟨.endOfInput, 1⟩] := by cbv
  let program : List Node :=
    [.binary (.name "s" 1) .assign (.truth true 1) 1,
      .function "f" ["a"] (.block [.print (.name "a" 1) 1, .print (.name "s" 1) 1] (some 1)) 1,
      .function "g" ["b"] (.block [.call "f" [.name "b" 1] 1] (some 1)) 1, .call "g" [.truth false 1] 1]
  have parsed : parseAt 1 source = .ok program := parseAt_eq_ok_iff.mpr ⟨_, scanned, by rfl⟩
  have noForeign : NoForeignLocals program := by decide
  obtain ⟨outcomes, machines⟩ := scopings_agree_without_foreign_locals parsed noForeign 2 9 false console
  refine ⟨⟨program, parsed, noForeign⟩, outcomes, ?_⟩
  rw [machines, (ends_congr (run_of_parsed parsed _)).2]
  rfl

end Script

end SmallScript
