import SmallScript.Proofs.Evaluation.Placement
import SmallScript.Proofs.Evaluation.ScopeDiscipline

/-! # One scope for each open call

How many calls are open is counted, and the limit is checked against that count.  The scopes of the calls
are on a stack of their own.  The two never drift apart, at no point of a run: wherever a tree is run,
however deep inside another run, there is one scope for each open call besides the global one, and no more
calls are open than the limit allows.

* `Machine.Balanced limit m` says so of a machine.
* `Balanced.of_kept`: a run that has ended leaves the balance as it was.  `Balanced.enter`: a call that is
  allowed moves both sides up by one.
* `Reached.balanced` goes from one run to the runs inside it.
-/

namespace SmallScript

open Eval

/-- There is one scope for each open call and the global one, and at most `limit` calls are open. -/
structure Machine.Balanced (limit : Nat) (m : Machine) : Prop where
  scopes : m.scopes.length = m.callDepth + 1
  callDepth : m.callDepth ≤ limit

namespace Machine.Balanced

variable {limit : Nat} {m m' : Machine}

theorem fresh (limit : Nat) (console : Console) : (Machine.fresh console).Balanced limit :=
  ⟨rfl, Nat.zero_le limit⟩

theorem ne_nil (balanced : m.Balanced limit) : m.scopes ≠ [] := by
  apply List.ne_nil_of_length_pos
  have scopes := balanced.scopes
  omega

theorem of_kept (balanced : m.Balanced limit) (kept : m.Kept m') : m'.Balanced limit := by
  obtain ⟨inner, inner', outer, before, after, _⟩ := kept.scopes
  obtain ⟨scopes, callDepth⟩ := balanced
  refine ⟨?_, ?_⟩
  · rw [kept.callDepth, ← scopes, before, after]
    simp
  · rwa [kept.callDepth]

theorem after_eval (balanced : m.Balanced limit) (settings : Settings) (budget : Nat) (node : Node) :
    (after (eval settings budget node) m).Balanced limit :=
  balanced.of_kept (kept_after_eval settings budget node balanced.ne_nil)

theorem enter (balanced : m.Balanced limit) (below : m.callDepth < limit) (frame : Scope) :
    (m.enter frame).Balanced limit := by
  refine ⟨?_, below⟩
  rw [scopes_enter, List.length_cons, balanced.scopes]
  rfl

/-- At most one scope more than there may be open calls. -/
theorem length_scopes_le (balanced : m.Balanced limit) : m.scopes.length ≤ limit + 1 := by
  rw [balanced.scopes]
  exact Nat.succ_le_succ balanced.callDepth

end Machine.Balanced

/-- Between scripts no call is open, and the global scope is the only one. -/
theorem Machine.InSession.balanced {m : Machine} (session : m.InSession) (limit : Nat) : m.Balanced limit := by
  induction session with
  | fresh console => exact .fresh limit console
  | withConsole _ console ih => exact ⟨ih.scopes, ih.callDepth⟩
  | script _ _ settings budget ih => exact ih.of_kept (kept_after_evaluate settings budget _ ih.ne_nil)

namespace Eval

variable {settings : Settings} {budget : Nat} {m m' : Machine}

/-- The arguments of a call do not change how many calls are open. -/
theorem Enters.callDepth_eq {node : Node} {d : Declaration} {frame : Scope}
    (enters : Enters (eval settings budget) settings node m d frame m') : m'.callDepth = m.callDepth :=
  enters.keeps (I := fun m' => m'.callDepth = m.callDepth)
    (fun y _ m₁ same => (callDepth_after_eval settings budget y m₁).trans same) rfl

theorem Enters.callDepth_lt {node : Node} {d : Declaration} {frame : Scope}
    (enters : Enters (eval settings budget) settings node m d frame m') :
    m'.callDepth < settings.maxCallDepth := by
  rw [enters.callDepth_eq]
  obtain ⟨admitted, _⟩ := enters
  exact admitted.below

theorem Reached.balanced {statements : List Node} {calls : List Declaration} {use : Use} {b : Nat} {x : Node}
    (start : m.Balanced settings.maxCallDepth) (reached : Reached settings budget statements m calls use b x m') :
    m'.Balanced settings.maxCallDepth := by
  -- a run before the one in question has ended, and then it has kept the balance
  have ended (b : Nat) (y : Node) (m : Machine) (balanced : m.Balanced settings.maxCallDepth) :
      (after (eval settings b y) m).Balanced settings.maxCallDepth :=
    balanced.after_eval settings b y
  induction reached with
  | statement order => exact order.keeps (fun y _ => ended budget y) start
  | part _ starts ih => exact starts.keeps (fun y _ => ended _ y) ih
  | body _ enters ih =>
    have bound := enters.keeps (fun y _ => ended _ y) ih
    exact bound.enter enters.callDepth_lt _

end Eval

/-- Where there is one scope for each open call besides the global one, and no more calls are open than
    may be, a run of trees keeps it so at every point: on every machine on which a tree is run inside that
    run, at any depth, and on the machine that is left when this has ended.  A run of one tree is that of
    the list that holds nothing else.  A fresh machine has this, and so has each one between the scripts of
    a session; so whatever is run there, never are more calls open than the limit allows, and never are
    there more scopes than that and one. -/
theorem one_scope_for_each_open_call (settings : Settings) :
    (∀ (budget : Nat) (trees : List Node) (m : Machine), m.Balanced settings.maxCallDepth →
      ∀ calls use b x m', Reached settings budget trees m calls use b x m' →
        m'.Balanced settings.maxCallDepth ∧
        (after (eval settings b x) m').Balanced settings.maxCallDepth) ∧
    (∀ console, (Machine.fresh console).Balanced settings.maxCallDepth) ∧
    ∀ (m : Machine), m.InSession → m.Balanced settings.maxCallDepth ∧
      ∀ budget trees calls use b x m', Reached settings budget trees m calls use b x m' →
        m'.callDepth ≤ settings.maxCallDepth ∧ m'.scopes.length ≤ settings.maxCallDepth + 1 := by
  refine ⟨?_, Machine.Balanced.fresh settings.maxCallDepth, ?_⟩
  · intro budget trees m start calls use b x m' reached
    have here := reached.balanced start
    exact ⟨here, here.after_eval settings b x⟩
  · intro m session
    have start := session.balanced settings.maxCallDepth
    refine ⟨start, fun budget trees calls use b x m' reached => ?_⟩
    have here := reached.balanced start
    exact ⟨here.callDepth, here.length_scopes_le⟩

/-- A call inside a call inside the call that is open to begin with, with room for no other. -/
theorem one_scope_for_each_open_call_nested :
    let inner : Node := .ret (.truth true 1) 1
    let g : Declaration := ⟨"g", [], inner, 1⟩
    let f : Declaration := ⟨"f", [], .ret (.call "g" [] 2) 2, 2⟩
    let m : Machine := ⟨[∅, ∅], (Std.TreeMap.empty.insert "g" g).insert "f" f, 1, .ofInput []⟩
    let m' := (m.enter ∅).enter ∅
    m.Balanced 3 ∧ Reached ⟨.dynamic, 3⟩ 9 [.call "f" [] 3] m [g, f] .statement 6 inner m' ∧
    m'.callDepth = 3 ∧ m'.Balanced 3 ∧ (after (eval ⟨.dynamic, 3⟩ 6 inner) m').Balanced 3 := by
  intro inner g f m m'
  have start : m.Balanced 3 := ⟨rfl, by decide⟩
  have outer : Admits ⟨.dynamic, 3⟩ m "f" [] f := ⟨rfl, rfl, by decide⟩
  have deeper : Admits ⟨.dynamic, 3⟩ (m.enter ∅) "g" [] g := ⟨rfl, rfl, by decide⟩
  have called : Reached ⟨.dynamic, 3⟩ 9 [.call "f" [] 3] m [f] .statement 8 f.body (m.enter ∅) :=
    .body (.statement .first) (.body outer rfl)
  have again : Reached ⟨.dynamic, 3⟩ 9 [.call "f" [] 3] m [f] .value 7 (.call "g" [] 2) (m.enter ∅) :=
    .part called (.returned (by decide))
  have inside : Reached ⟨.dynamic, 3⟩ 9 [.call "f" [] 3] m [g, f] .statement 6 inner m' :=
    .body again (.body deeper rfl)
  have balanced := (one_scope_for_each_open_call ⟨.dynamic, 3⟩).1 9 _ m start _ _ _ _ _ inside
  exact ⟨start, inside, rfl, balanced⟩

end SmallScript
