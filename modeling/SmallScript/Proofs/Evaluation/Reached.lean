import SmallScript.Proofs.Evaluation.Parts
import SmallScript.Proofs.Grammar.Trees

/-! # The runs inside a run

Running a script starts runs, and these start runs in turn.  `Reached` is all of them, each with the
machine on which it is started.

* `Starts.mem_parts`, `Starts.keeps`: what is started in a scope is a part of the tree, on a machine that
  has what the parts keep.
* `Lasting`: what trees hand on to their parts, and declarations to their bodies, holds of the table of
  functions after every run.
* `returns_cases`: where a `return` can come from.
* `Reached.origin`: when a run stops, some reached tree has stopped it by itself, or a tree that should
  have given a value has returned.
-/

namespace SmallScript

/-! ## The table of functions -/

namespace Machine

/-- All declarations in the table of functions have a property. -/
def Declares (D : Declaration → Prop) (m : Machine) : Prop :=
  ∀ (name : String) (declaration : Declaration), m.functions[name]? = some declaration → D declaration

namespace Declares

variable {D D' : Declaration → Prop} {m : Machine}

theorem fresh (console : Console) : (Machine.fresh console).Declares D := by
  intro name declaration found
  simp [Machine.fresh] at found

theorem imp (declares : m.Declares D) (weaker : ∀ d, D d → D' d) : m.Declares D' :=
  fun name declaration found => weaker _ (declares name declaration found)

theorem define (declares : m.Declares D) (name : String) (value : Value) :
    (m.define name value).Declares D := by
  obtain ⟨scopes, functions, callDepth, console⟩ := m
  cases scopes <;> exact declares

theorem declare (declares : m.Declares D) {declaration : Declaration} (added : D declaration) :
    (m.declare declaration).Declares D := by
  intro name other found
  simp only [Machine.declare, Std.TreeMap.getElem?_insert] at found
  split at found
  · cases found
    exact added
  · exact declares name other found

theorem leave (declares : m.Declares D) : m.leave.Declares D := by
  unfold Declares
  rw [functions_leave]
  exact declares

end Declares

theorem callDepth_define (m : Machine) (name : String) (value : Value) :
    (m.define name value).callDepth = m.callDepth := by
  obtain ⟨scopes, functions, callDepth, console⟩ := m
  cases scopes <;> rfl

end Machine

namespace Eval

/-! ## What is started -/

section Starts

variable {run : Node → Eval Completion} {settings : Settings} {rounds : Nat} {I : Machine → Prop}
  {m m' : Machine} {x : Node}

theorem Sequence.mem {xs : List Node} (order : Sequence run xs m x m') : x ∈ xs := by
  induction order with
  | first => exact List.mem_cons_self
  | later _ _ ih => exact List.mem_cons_of_mem _ ih

theorem Sequence.keeps {xs : List Node} (order : Sequence run xs m x m')
    (parts : ∀ y ∈ xs, ∀ m, I m → I (after (run y) m)) (start : I m) : I m' := by
  induction order with
  | first => exact start
  | later ends _ ih =>
    have next := parts _ List.mem_cons_self _ start
    rw [after_of_ok ends] at next
    exact ih (fun y member => parts y (List.mem_cons_of_mem _ member)) next

theorem Looping.eq_or_eq {condition body : Node} {n : Nat} {use : Use}
    (order : Looping run condition body n m use x m') : x = condition ∨ x = body := by
  induction order with
  | test => exact .inl rfl
  | round => exact .inr rfl
  | again _ _ _ ih => exact ih

theorem Looping.eq_condition {condition body : Node} {n : Nat} {use : Use}
    (order : Looping run condition body n m use x m') (value : use = .value) : x = condition := by
  induction order with
  | test => rfl
  | round => cases value
  | again _ _ _ ih => exact ih value

theorem Looping.keeps {condition body : Node} {n : Nat} {use : Use}
    (order : Looping run condition body n m use x m')
    (parts : ∀ y ∈ [condition, body], ∀ m, I m → I (after (run y) m)) (start : I m) : I m' := by
  have test {m m₁ : Machine} {c : Completion} (ends : run condition m = .ok c m₁) (start : I m) : I m₁ :=
    after_of_ok ends ▸ parts condition (by simp) m start
  have round {m m₁ : Machine} {c : Completion} (ends : run body m = .ok c m₁) (start : I m) : I m₁ :=
    after_of_ok ends ▸ parts body (by simp) m start
  induction order with
  | test => exact start
  | round holds => exact test holds start
  | again holds ends _ ih => exact ih (round ends (test holds start))

/-- What a step runs in its own scope is a part of its tree. -/
theorem Starts.mem_parts {node : Node} {use : Use}
    (starts : Starts run settings rounds node m use x m') : x ∈ node.parts := by
  cases starts with
  | operands _ order | compared order | statement order | argument _ order => exact order.mem
  | loop order => simpa [Node.parts] using order.eq_or_eq
  | _ => simp [Node.parts]

theorem Starts.keeps {node : Node} {use : Use} (starts : Starts run settings rounds node m use x m')
    (parts : ∀ y ∈ node.parts, ∀ m, I m → I (after (run y) m)) (start : I m) : I m' := by
  cases starts with
  | operand | assigned | decides | printed | condition | returned => exact start
  | operands _ order | compared order | statement order | argument _ order =>
    exact order.keeps parts start
  | undecided ends | thenBlock ends | elseBranch ends =>
    exact after_of_ok ends ▸ parts _ (by simp [Node.parts]) m start
  | loop order => exact order.keeps parts start

theorem Enters.keeps {node : Node} {d : Declaration} {frame : Scope} (enters : Enters run settings node m d frame m')
    (parts : ∀ y ∈ node.parts, ∀ m, I m → I (after (run y) m)) (start : I m) : I m' := by
  obtain @⟨_, xs, _, _, _, _, _, admitted, bound⟩ := enters
  have agree := AgreeOn.bindArguments start
    (fun y m₁ order start₁ => .of_keeps (parts y order.mem m₁ start₁)) d.params ∅
  have kept : I (after (bindArguments run d.params xs ∅) m) := agree.fine.after
  rwa [after_of_ok bound] at kept

end Starts

/-! ## What trees and declarations keep -/

/-- A property of trees, which may depend on the calls that are open, and one of declarations.  A tree
    hands its own on to its parts and to what it declares, and a declaration to its body. -/
structure Lasting (T : List Declaration → Node → Prop) (D : Declaration → Prop) : Prop where
  parts {calls x y} : T calls x → y ∈ x.parts → T calls y
  declared {calls n ns b l} : T calls (.function n ns b l) → D ⟨n, ns, b, l⟩
  body {d} (calls) : D d → T (d :: calls) d.body

theorem Lasting.declares_after_eval {T : List Declaration → Node → Prop} {D : Declaration → Prop}
    (lasting : Lasting T D) (settings : Settings) (budget : Nat) (calls : List Declaration) {x : Node}
    {m : Machine} (tree : T calls x) (declares : m.Declares D) :
    (after (eval settings budget x) m).Declares D := by
  induction budget generalizing calls x m with
  | zero => exact declares
  | succ budget ih =>
    apply step_keeps (I := Machine.Declares D) (J := Machine.Declares D) declares
    · exact fun m' c kept => kept
    · exact fun m' name value kept => kept.define name value
    · rintro name params body line rfl
      exact declares.declare (lasting.declared tree)
    · exact fun use y m' starts kept => ih calls (lasting.parts tree starts.mem_parts) kept
    · rintro _ frame m' ⟨admitted, _⟩ kept
      exact ih _ (lasting.body calls (declares _ _ admitted.found)) kept
    · exact fun m' kept => kept.leave

/-! ## Where a `return` comes from -/

/-- An action that never ends with a `return`. -/
def Normal (x : Eval Completion) : Prop :=
  ∀ m v m', x m ≠ .ok (.returned v) m'

namespace Normal

variable {α : Type}

theorem pure (v : Value) : Normal (Pure.pure (.normal v)) :=
  nofun

theorem bind (x : Eval α) {f : α → Eval Completion} (next : ∀ v, Normal (f v)) : Normal (x >>= f) := by
  intro m v m' returns
  cases ends : x m with
  | ok w m₁ => exact next w m₁ v m' ((bind_of_ok ends).symm.trans returns)
  | error halt m₁ => cases (bind_of_error ends).symm.trans returns

theorem bind_pure (x : Eval α) (f : α → Value) : Normal (x >>= fun v => Pure.pure (.normal (f v))) :=
  bind x fun v => pure (f v)

end Normal

section Returns

variable {run : Node → Eval Completion} {settings : Settings} {rounds : Nat} {node : Node}
  {m m' : Machine} {v : Value}

theorem inOrder_returns {xs : List Node} {last : Value}
    (returns : inOrder run last xs m = .ok (.returned v) m') :
    ∃ x m₁, Sequence run xs m x m₁ ∧ run x m₁ = .ok (.returned v) m' := by
  induction xs generalizing m last with
  | nil => cases returns
  | cons x xs ih =>
    cases first : run x m with
    | error halt m₁ => cases (bind_of_error first).symm.trans returns
    | ok completion m₁ =>
      have rest := (bind_of_ok first).symm.trans returns
      cases completion with
      | normal w =>
        obtain ⟨y, m₂, order, ends⟩ := ih rest
        exact ⟨y, m₂, .later first order, ends⟩
      | returned w =>
        cases rest
        exact ⟨x, m, .first, first⟩

theorem repeatWhile_returns {condition body : Node} {line n : Nat} {last : Value}
    (returns : repeatWhile run condition body line n last m = .ok (.returned v) m') :
    ∃ x m₁, Looping run condition body n m .statement x m₁ ∧ run x m₁ = .ok (.returned v) m' := by
  induction n generalizing m last with
  | zero => cases returns
  | succ n ih =>
    -- the condition is not a place to return from, so the body returns, in this round or in a later one
    cases test : truthOf run condition line m with
    | error halt m₁ => cases (bind_of_error test).symm.trans returns
    | ok goesOn m₁ =>
      have rest := (bind_of_ok test).symm.trans returns
      have holds := normal_of_truthOf test
      cases goesOn with
      | false => cases rest
      | true =>
        cases round : run body m₁ with
        | error halt m₂ => cases (bind_of_error round).symm.trans rest
        | ok completion m₂ =>
          have rest := (bind_of_ok round).symm.trans rest
          cases completion with
          | normal w =>
            obtain ⟨x, m₃, order, ends⟩ := ih rest
            exact ⟨x, m₃, .again holds round order, ends⟩
          | returned w =>
            cases rest
            exact ⟨body, m₁, .round holds, round⟩

/-- A step ends with `return` only in a call, or because a statement in it does. -/
theorem returns_cases (returns : step run settings rounds node m = .ok (.returned v) m') :
    (∃ x line, node = .ret x line ∧ m.callDepth ≠ 0) ∨
      ∃ x m₁, Starts run settings rounds node m .statement x m₁ ∧ run x m₁ = .ok (.returned v) m' := by
  have never {P : Prop} (normal : Normal (step run settings rounds node)) : P :=
    absurd returns (normal m v m')
  -- most kinds of trees go on with a value, and a `return` is not one
  cases node with
  | number | truth | text | function => cases returns
  | name | input | logic | call => exact never (.bind_pure _ _)
  | unary | print => exact never (.bind _ fun _ => .bind_pure _ _)
  | binary x op y line =>
    cases op with
    | assign => exact never (.bind_pure _ _)
    | _ => exact never (.bind _ fun _ => .bind _ fun _ => .bind_pure _ _)
  | compare => exact never (.bind _ fun _ => .bind _ fun _ => .bind_pure _ _)
  | conditional c b e line =>
    cases test : truthOf run c (c.line?.getD line) m with
    | error halt m₁ => cases (bind_of_error test).symm.trans returns
    | ok holds m₁ =>
      have rest := (bind_of_ok test).symm.trans returns
      have ends := normal_of_truthOf test
      cases holds with
      | true => exact .inr ⟨b, m₁, .thenBlock ends, rest⟩
      | false =>
        cases e with
        | none => cases rest
        | some e => exact .inr ⟨e, m₁, .elseBranch ends, rest⟩
  | block xs line =>
    obtain ⟨x, m₁, order, ends⟩ := inOrder_returns returns
    exact .inr ⟨x, m₁, .statement order, ends⟩
  | loop c b line =>
    obtain ⟨x, m₁, order, ends⟩ := repeatWhile_returns returns
    exact .inr ⟨x, m₁, .loop order, ends⟩
  | ret x line =>
    refine .inl ⟨x, line, rfl, ?_⟩
    intro outside
    change (if m.callDepth = 0 then _ else _ : Eval Completion) m = _ at returns
    rw [if_pos outside] at returns
    cases returns

end Returns

end Eval

/-! ## All runs of a script -/

namespace Eval

section Reached

variable (settings : Settings) (budget : Nat) (statements : List Node) (m : Machine)

/-- Running the statements on `m` comes to running a tree on a machine, with what is left of the budget and
    while the bodies of these declarations are open, the innermost one first. -/
inductive Reached : List Declaration → Use → Nat → Node → Machine → Prop where
  | statement {x m'} (order : Sequence (eval settings budget) statements m x m') :
      Reached [] .value budget x m'
  | part {calls use b x m₁ use' y m₂} (outer : Reached calls use (b + 1) x m₁)
      (starts : Starts (eval settings b) settings b x m₁ use' y m₂) : Reached calls use' b y m₂
  | body {calls use b x m₁ d frame m₂} (outer : Reached calls use (b + 1) x m₁)
      (enters : Enters (eval settings b) settings x m₁ d frame m₂) :
      Reached (d :: calls) .statement b d.body (m₂.enter frame)

end Reached

/-- What the statements of a script keep, the script keeps. -/
theorem evaluate_keeps {settings : Settings} {budget : Nat} {statements : List Node} {m : Machine}
    {I : Machine → Prop} (parts : ∀ x ∈ statements, ∀ m, I m → I (after (eval settings budget x) m))
    (start : I m) : I (after (evaluate settings budget statements) m) := by
  have agree := evaluateFrom_agree start
    (fun x m₁ order start₁ => .of_keeps (parts x order.mem m₁ start₁)) .empty
  exact agree.fine.after

/-- Where it comes from that a script stops: a tree that is reached stops by itself, or it should give
    a value and returns. -/
inductive Origin (settings : Settings) (budget : Nat) (statements : List Node) (m : Machine)
    (halt : Halt) : Prop where
  | cut (unfinished : halt = .unfinished)
  | own {calls use b x m' m''} (reached : Reached settings budget statements m calls use b x m')
      (raises : Raises settings x m' halt) (stops : eval settings b x m' = .error halt m'')
  | stray {calls b x m' v m''} (reached : Reached settings budget statements m calls .value b x m')
      (returns : eval settings b x m' = .ok (.returned v) m'')
      (fault : halt = .fault ⟨.strayReturn, x.line?.getD 0⟩)

variable {settings : Settings} {budget : Nat} {statements : List Node} {m : Machine} {halt : Halt}

theorem Reached.origin {calls : List Declaration} {use : Use} {b : Nat} {x : Node} {m' m'' : Machine}
    (reached : Reached settings budget statements m calls use b x m')
    (stops : eval settings b x m' = .error halt m'') : Origin settings budget statements m halt := by
  induction b generalizing calls use x m' m'' with
  | zero =>
    cases stops
    exact .cut rfl
  | succ b ih =>
    cases stopsBy_of_step stops with
    | own raises => exact .own reached raises stops
    | part starts stops => exact ih (.part reached starts) stops
    | body enters stops => exact ih (.body reached enters) stops
    | stray starts returns fault => exact .stray (.part reached starts) returns fault

theorem origin_of_evaluate {m' : Machine} (stops : evaluate settings budget statements m = .error halt m') :
    Origin settings budget statements m halt := by
  have fine {x : Node} {m₁ : Machine} (order : Sequence (eval settings budget) statements m x m₁) :
      AgreeOn (eval settings budget) (eval settings budget) (fun _ => True)
        (Origin settings budget statements m) .value x m₁ := by
    refine ⟨⟨rfl, ?_⟩, fun _ v m₂ returns => .stray (.statement order) returns rfl⟩
    cases ends : eval settings budget x m₁ with
    | ok => trivial
    | error halt m₂ => exact ⟨(Reached.statement order).origin ends, trivial⟩
  have agree := evaluateFrom_agree (E := Origin settings budget statements m) trivial
    (fun x m₁ order _ => fine order) .empty
  have allowed := agree.fine
  unfold evaluate at stops
  rw [stops] at allowed
  exact allowed.1

end Eval

end SmallScript
