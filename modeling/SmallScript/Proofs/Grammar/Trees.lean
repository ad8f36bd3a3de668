import SmallScript.Node

/-! # Trees and the paths in them

* `Node.parts` are the trees right below the root, and a path goes from the root to a leaf through them.
* `Node.height` is the number of nodes on a longest path, and `Node.PathOf` a path of so many.
* `Node.Path counted uncounted` is a path with so many levels.  Prefix and infix operators, calls, blocks and
  conditionals that continue a conditional are one level each.  An infix operator is among the `uncounted`
  ones if the path takes the operand before it.
* `Node.levels weight` is the most levels on a path, if an uncounted one weighs `weight`.
-/

namespace SmallScript

namespace Node

def parts : Node → List Node
  | number .. | truth .. | text .. | name .. | input .. => []
  | unary _ a _ | print a _ | ret a _ | function _ _ a _ => [a]
  | binary a _ b _ | compare a _ b _ | logic a _ b _ | loop a b _ => [a, b]
  | conditional c t e _ => c :: t :: e.toList
  | block s _ | call _ s _ => s

theorem sizeOf_lt_of_mem_parts {x y : Node} (member : y ∈ x.parts) : sizeOf y < sizeOf x := by
  cases x with
  | conditional c t e line =>
    cases e <;> simp_all [parts] <;> grind
  | block s line | call n s line =>
    have lt : sizeOf y < sizeOf s := List.sizeOf_lt_of_mem member
    simp
    omega
  | _ => simp_all [parts] <;> grind

theorem sizeOf_pos (x : Node) : 0 < sizeOf x := by
  cases x <;> simp +arith

/-! ## Heights -/

mutual

/-- The number of nodes on a longest path from the root to a leaf. -/
def height : Node → Nat
  | number .. | truth .. | text .. | name .. | input .. => 1
  | unary _ a _ | print a _ | ret a _ | function _ _ a _ => 1 + height a
  | binary a _ b _ | compare a _ b _ | logic a _ b _ | loop a b _ => 1 + max (height a) (height b)
  | conditional c t e _ => 1 + max (height c) (max (height t) (heightOption e))
  | block s _ | call _ s _ => 1 + heightList s

def heightList : List Node → Nat
  | [] => 0
  | a :: s => max (height a) (heightList s)

def heightOption : Option Node → Nat
  | none => 0
  | some a => height a

end

/-- A path from the root to a leaf, with so many nodes. -/
inductive PathOf : Node → Nat → Prop where
  | leaf {x} (bare : x.parts = []) : PathOf x 1
  | through {x y n} (part : y ∈ x.parts) (rest : PathOf y n) : PathOf x (n + 1)

theorem heightList_le_iff {n : Nat} {s : List Node} : heightList s ≤ n ↔ ∀ a ∈ s, a.height ≤ n := by
  induction s with
  | nil => simp [heightList]
  | cons a s ih => rw [heightList, Nat.max_le, ih, List.forall_mem_cons]

theorem exists_highest {s : List Node} (some : s ≠ []) : ∃ a ∈ s, a.height = heightList s := by
  induction s with
  | nil => exact absurd rfl some
  | cons a s ih =>
    simp only [heightList, List.mem_cons, exists_eq_or_imp]
    by_cases higher : heightList s ≤ a.height
    · exact .inl (Nat.max_eq_left higher).symm
    · have others : s ≠ [] := by
        rintro rfl
        exact higher (Nat.zero_le _)
      obtain ⟨b, member, same⟩ := ih others
      exact .inr ⟨b, member, by omega⟩

/-- A tree is one node higher than the highest tree right below its root. -/
theorem height_eq (x : Node) : x.height = 1 + heightList x.parts := by
  cases x with
  | conditional c t e l => cases e <;> simp [height, heightOption, parts, heightList]
  | _ => simp [height, parts, heightList]

theorem height_lt_of_mem_parts {x y : Node} (part : y ∈ x.parts) : y.height < x.height := by
  have le := heightList_le_iff.mp (Nat.le_refl (heightList x.parts)) y part
  rw [height_eq x]
  omega

theorem PathOf.le_height {x : Node} {n : Nat} (path : x.PathOf n) : n ≤ x.height := by
  induction path with
  | leaf => rw [height_eq]; omega
  | through part _ ih =>
    have lower := height_lt_of_mem_parts part
    omega

theorem pathOf_height (x : Node) : x.PathOf x.height := by
  by_cases bare : x.parts = []
  · rw [height_eq, bare]
    exact .leaf bare
  · obtain ⟨y, part, same⟩ := exists_highest bare
    have lower := height_lt_of_mem_parts part
    have path := PathOf.through part (pathOf_height y)
    rwa [same, Nat.add_comm, ← height_eq] at path
termination_by x.height

theorem height_pos (x : Node) : 0 < x.height := by
  rw [height_eq]
  omega

/-! ## Levels -/

/-- Conditionals continue a conditional with `elif` or `else if`. -/
def isConditional : Node → Bool
  | conditional .. => true
  | _ => false

/-- The trees right below the root, each with the counted and the uncounted levels on the way there. -/
def branches : Node → List (Nat × Nat × Node)
  | number .. | truth .. | text .. | name .. | input .. => []
  | unary _ a _ => [(1, 0, a)]
  | binary a op b _ => if op = .assign then [(0, 0, a), (0, 0, b)] else [(0, 1, a), (1, 0, b)]
  | compare a _ b _ | logic a _ b _ => [(0, 1, a), (1, 0, b)]
  | print a _ | ret a _ | function _ _ a _ => [(0, 0, a)]
  | conditional c t none _ => [(0, 0, c), (0, 0, t)]
  | conditional c t (some e) _ =>
    [(0, 0, c), (0, 0, t), (if e.isConditional then 1 else 0, 0, e)]
  | block s _ | call _ s _ => s.map fun a => (1, 0, a)
  | loop c b _ => [(0, 0, c), (0, 0, b)]

/-- The levels of a tree that has nothing below its root. -/
def bareLevels : Node → Nat
  | block .. | call .. => 1
  | _ => 0

/-- A path from the root to a leaf, with so many counted and uncounted levels. -/
inductive Path : Node → Nat → Nat → Prop where
  | ends {x} (bare : x.branches = []) : Path x x.bareLevels 0
  | goesOn {x a c u c' u'} (branch : (c, u, a) ∈ x.branches) (rest : Path a c' u') :
      Path x (c + c') (u + u')

mutual

/-- The most levels on a path, an uncounted one weighing `weight`. -/
def levels (weight : Nat) : Node → Nat
  | number .. | truth .. | text .. | name .. | input .. => 0
  | unary _ a _ => 1 + levels weight a
  | binary a op b _ =>
    if op = .assign then max (levels weight a) (levels weight b)
    else max (weight + levels weight a) (1 + levels weight b)
  | compare a _ b _ | logic a _ b _ => max (weight + levels weight a) (1 + levels weight b)
  | print a _ | ret a _ | function _ _ a _ => levels weight a
  | conditional c t e _ => max (levels weight c) (max (levels weight t) (levelsElse weight e))
  | block s _ => 1 + levelsList weight s
  | loop c b _ => max (levels weight c) (levels weight b)
  | call _ s _ => 1 + levelsList weight s

def levelsList (weight : Nat) : List Node → Nat
  | [] => 0
  | a :: s => max (levels weight a) (levelsList weight s)

def levelsElse (weight : Nat) : Option Node → Nat
  | none => 0
  | some a => (if a.isConditional then 1 else 0) + levels weight a

end

/-- The most levels on the way into one of these trees and below. -/
def branchLevels (weight : Nat) : List (Nat × Nat × Node) → Nat
  | [] => 0
  | (c, u, a) :: bs => max (c + weight * u + a.levels weight) (branchLevels weight bs)

theorem levelsList_le_iff {weight n : Nat} {s : List Node} :
    levelsList weight s ≤ n ↔ ∀ a ∈ s, a.levels weight ≤ n := by
  induction s with
  | nil => simp [levelsList]
  | cons a s ih => rw [levelsList, Nat.max_le, ih, List.forall_mem_cons]

section Branches

variable {weight : Nat}

theorem branchLevels_le_iff {n : Nat} {bs : List (Nat × Nat × Node)} :
    branchLevels weight bs ≤ n ↔ ∀ c u a, (c, u, a) ∈ bs → c + weight * u + a.levels weight ≤ n := by
  induction bs with
  | nil => simp [branchLevels]
  | cons b bs ih =>
    obtain ⟨c, u, a⟩ := b
    simp only [branchLevels, Nat.max_le, ih, List.mem_cons, Prod.mk.injEq]
    constructor
    · rintro ⟨first, others⟩ c' u' a' (⟨rfl, rfl, rfl⟩ | member)
      · exact first
      · exact others c' u' a' member
    · intro all
      exact ⟨all c u a (.inl ⟨rfl, rfl, rfl⟩), fun c' u' a' member => all c' u' a' (.inr member)⟩

theorem exists_branchLevels {bs : List (Nat × Nat × Node)} (some : bs ≠ []) :
    ∃ c u a, (c, u, a) ∈ bs ∧ c + weight * u + a.levels weight = branchLevels weight bs := by
  induction bs with
  | nil => exact absurd rfl some
  | cons b bs ih =>
    obtain ⟨c, u, a⟩ := b
    by_cases most : branchLevels weight bs ≤ c + weight * u + a.levels weight
    · exact ⟨c, u, a, List.mem_cons_self, (Nat.max_eq_left most).symm⟩
    · have others : bs ≠ [] := by
        rintro rfl
        exact most (Nat.zero_le _)
      obtain ⟨c', u', a', member, same⟩ := ih others
      refine ⟨c', u', a', List.mem_cons_of_mem _ member, ?_⟩
      simp only [branchLevels]
      omega

theorem branchLevels_map (s : List Node) :
    max 1 (branchLevels weight (s.map fun a => (1, 0, a))) = 1 + levelsList weight s := by
  induction s with
  | nil => rfl
  | cons a s ih =>
    simp only [List.map_cons, branchLevels, levelsList]
    omega

/-- The levels of a tree are those on the way to some tree right below its root, and those of that tree. -/
theorem levels_eq (x : Node) : x.levels weight = max x.bareLevels (branchLevels weight x.branches) := by
  cases x with
  | binary left op right l =>
    by_cases assigns : op = .assign <;> simp [levels, bareLevels, branches, branchLevels, assigns]
  | conditional test body otherwise l =>
    cases otherwise <;> simp [levels, levelsElse, bareLevels, branches, branchLevels]
  | block s l | call _ s l =>
    rw [levels, bareLevels, branches, branchLevels_map]
  | _ => simp [levels, bareLevels, branches, branchLevels]

theorem bareLevels_le_branchLevels {x : Node} (some : x.branches ≠ []) :
    x.bareLevels ≤ branchLevels weight x.branches := by
  cases x with
  | block s l | call _ s l =>
    cases s with
    | nil => exact absurd rfl some
    | cons a s =>
      simp only [bareLevels, branches, List.map_cons, branchLevels]
      omega
  | _ => exact Nat.zero_le _

theorem mem_parts_of_branch {x a : Node} {c u : Nat} (branch : (c, u, a) ∈ x.branches) : a ∈ x.parts := by
  cases x with
  | number | truth | text | name | input => cases branch
  | binary left op right l =>
    by_cases assigns : op = .assign <;> simp [branches, assigns] at branch <;> grind [parts]
  | conditional test body otherwise l => cases otherwise <;> simp [branches] at branch <;> grind [parts]
  | block s l | call _ s l =>
    obtain ⟨_, member, same⟩ := List.mem_map.mp branch
    cases same
    exact member
  | _ => simp [branches] at branch; grind [parts]

end Branches

theorem Path.le_levels (weight : Nat) {x : Node} {c u : Nat} (path : x.Path c u) :
    c + weight * u ≤ x.levels weight := by
  induction path with
  | ends =>
    rw [levels_eq]
    exact Nat.le_max_left _ _
  | @goesOn x a c u c' u' branch _ ih =>
    have step := branchLevels_le_iff.mp (Nat.le_refl (branchLevels weight x.branches)) c u a branch
    rw [levels_eq, Nat.mul_add]
    omega

theorem exists_path_levels (weight : Nat) (x : Node) :
    ∃ c u, x.Path c u ∧ c + weight * u = x.levels weight := by
  by_cases bare : x.branches = []
  · exact ⟨_, _, .ends bare, by simp [levels_eq, bare, branchLevels]⟩
  · obtain ⟨c, u, a, branch, most⟩ := @exists_branchLevels weight _ bare
    have lower := height_lt_of_mem_parts (mem_parts_of_branch branch)
    obtain ⟨c', u', rest, same⟩ := exists_path_levels weight a
    refine ⟨_, _, .goesOn branch rest, ?_⟩
    rw [levels_eq, Nat.max_eq_right (bareLevels_le_branchLevels bare), ← most, ← same, Nat.mul_add]
    omega
termination_by x.height

end Node

end SmallScript
