import SmallScript.Proofs.Grammar.Nesting
import SmallScript.Proofs.Grammar.Shape

/-! # How high the trees of a script can be

Running a tree goes as deep as the tree is high, so the nesting limit has to bound the height.  It does, but
the bound is quadratic in the room that is left: four kinds of chains start with the same room, one inside
the other, and what a parenthesis or a call holds starts over with one level less.

* `height_le_levels`: in an expression every node but the last one of a path is a level.  Its height is thus
  bounded by `outerLevels`, where all levels weigh the same.
* `heightWithin_of_derives` goes through statements, which hold blocks and these statements again.
* `tower` reaches the bound.
-/

namespace SmallScript

namespace Node

/-- In an expression, every node of a path that is not its last one is a level. -/
theorem height_le_levels {x : Node} (shape : x.IsExpression) : x.height ≤ x.levels 1 + 1 := by
  induction shape with
  | number | truth | text | name | input => exact Nat.le_refl _
  | unary _ ih =>
    simp only [height, levels]
    omega
  | @binary _ op _ _ computes _ _ ih₁ ih₂ =>
    simp only [height, levels, if_neg computes]
    omega
  | compare _ _ ih₁ ih₂ | logic _ _ ih₁ ih₂ =>
    simp only [height, levels]
    omega
  | @call n xs l _ ih =>
    have highest : heightList xs ≤ levelsList 1 xs + 1 := by
      refine heightList_le_iff.mpr fun a member => ?_
      have levels := levelsList_le_iff.mp (Nat.le_refl (levelsList 1 xs)) a member
      have height := ih a member
      omega
    simp only [height, levels]
    omega

end Node

namespace Grammar

/-! ## The bound -/

/-- What is known of the heights of a phrase that is read with so much room.  Parts of expressions are
    known by their levels. -/
def HeightWithin (room : Nat) : Phrase → Prop
  | .expression x => x.height ≤ outerLevels 1 room + 1
  | .block x => x.height ≤ innerLevels 1 room + 2
  | .branches _ x | .statement x => x.height ≤ outerLevels 1 room + 2
  | .alternative e => Node.heightOption e ≤ innerLevels 1 room + 2
  | .statements xs => Node.heightList xs ≤ outerLevels 1 room + 2
  | _ => True

theorem height_expression {limit d : Nat} {x : Node} {ts : List Lexeme}
    (content : Derives limit d (.expression x) ts) : HeightWithin (limit - d) (.expression x) := by
  have shape : (Phrase.expression x).Shaped fun _ => True := content.shaped fun _ _ => trivial
  have levels : x.levels 1 ≤ outerLevels 1 (limit - d) := levelsWithin_of_derives 1 content
  have height := Node.height_le_levels shape
  exact Nat.le_trans height (Nat.succ_le_succ levels)

/-- Where there is a block, the chains of an expression beside it can be longer than the level that the
    block takes. -/
theorem innerLevels_lt_outerLevels {limit d : Nat} {b : Node} {ts : List Lexeme}
    (body : Derives limit d (.block b) ts) :
    innerLevels 1 (limit - d) < outerLevels 1 (limit - d) := by
  have room : d < limit := by
    cases body with
    | block room => exact room
  simp only [outerLevels]
  omega

theorem heightWithin_of_derives {limit d : Nat} {phrase : Phrase} {ts : List Lexeme}
    (h : Derives limit d phrase ts) : HeightWithin (limit - d) phrase := by
  -- expressions are bounded by their levels, so only statements and blocks are cases of their own
  induction h with
  | number | truth | text | name | group | input | inputBare | call | callBare | lastArgument | nextArgument
  | plain | prefixed | tightest | tighter | single | joined => trivial
  | loosest content => exact height_expression (.loosest content)
  | block room _ ih =>
    simp only [HeightWithin, Node.height] at *
    rw [innerLevels_of_room 1 room]
    omega
  | branches test body rest ih₁ ih₂ ih₃ =>
    have lower := innerLevels_lt_outerLevels body
    simp only [HeightWithin, Node.height] at *
    omega
  | noAlternative => exact Nat.zero_le _
  | otherwise _ ih => exact ih
  | elseIf room _ ih | elif room _ ih =>
    simp only [HeightWithin, Node.heightOption] at *
    rw [innerLevels_of_room 1 room]
    omega
  | print _ ih | ret _ ih =>
    simp only [HeightWithin, Node.height] at *
    omega
  | conditional _ ih => exact ih
  | loop _ body ih₁ ih₂ =>
    have lower := innerLevels_lt_outerLevels body
    simp only [HeightWithin, Node.height] at *
    omega
  | function _ body ih =>
    have lower := innerLevels_lt_outerLevels body
    simp only [HeightWithin, Node.height] at *
    omega
  | assignment _ ih =>
    simp only [HeightWithin, Node.height] at *
    omega
  | evaluation _ ih => exact Nat.le_succ_of_le ih
  | nothing => exact Nat.zero_le _
  | stray _ ih => exact ih
  | last _ ih => simpa [HeightWithin, Node.heightList] using ih
  | separated _ _ ih₁ ih₂ | adjacent _ _ _ ih₁ ih₂ => exact Nat.max_le.mpr ⟨ih₁, ih₂⟩

/-- The bound as a polynomial. -/
theorem outerLevels_one (room : Nat) : outerLevels 1 room = 2 * room * room + 3 * room := by
  rw [outerLevels_eq]
  ring

/-! ## The bound is reached -/

theorem Joins.height {tier : Tier} {s : Symbol} {build : Node → Node → Nat → Node}
    (joins : Joins tier s build) (left right : Node) (line : Nat) :
    (build left right line).height = 1 + max left.height right.height := by
  cases joins <;> rfl

theorem height_repeated {tier : Tier} {s : Symbol} {build : Node → Node → Nat → Node}
    (joins : Joins tier s build) (x : Node) (n : Nat) : (repeated build x n).height = x.height + n := by
  induction n with
  | zero => rfl
  | succ n ih =>
    have leaf : leaf.height = 1 := rfl
    have some := x.height_pos
    rw [repeated, joins.height, ih, leaf]
    omega

theorem height_tower (room : Nat) : (tower room).height = outerLevels 1 room + 1 := by
  induction room with
  | zero => rfl
  | succ room ih =>
    have called : (Node.call "f" [tower room] 1).height = outerLevels 1 room + 2 := by
      simp only [Node.height, Node.heightList]
      omega
    rw [tower, height_repeated (.logic .and), height_repeated (.comparison .equal), height_repeated .add,
      height_repeated .mul, called, outerLevels_succ]
    omega

/-! ## The rules -/

section Rules

variable {room : Nat} {tokens rest : List Lexeme} {x : Node}

theorem height_of_statement (read : (rules room).statement tokens = .ok x rest) :
    x.height ≤ 2 * room * room + 3 * room + 2 := by
  obtain ⟨_, _, content, _⟩ := ((rules_sound room 0 room (by omega)).statement free_nil).reads x rest read
  have bound : x.height ≤ outerLevels 1 room + 2 := heightWithin_of_derives content
  rwa [outerLevels_one] at bound

theorem height_of_expression (read : (rules room).expression tokens = .ok x rest) :
    x.height ≤ 2 * room * room + 3 * room + 1 := by
  obtain ⟨_, _, content⟩ := ((rules_sound room 0 room (by omega)).expression free_nil).reads x rest read
  have bound : x.height ≤ outerLevels 1 room + 1 := heightWithin_of_derives content
  rwa [outerLevels_one] at bound

theorem height_of_parseTokens {statements : List Node} (read : parseTokens tokens = .ok statements)
    (member : x ∈ statements) : x.height ≤ 2 * nestingLimit * nestingLimit + 3 * nestingLimit + 2 := by
  obtain ⟨_, _, _, body, _, _, content⟩ := sentence_of_parseTokens read
  have bound : Node.heightList statements ≤ outerLevels 1 nestingLimit + 2 := heightWithin_of_derives content
  rw [outerLevels_one] at bound
  exact Node.heightList_le_iff.mp bound x member

variable (room)

theorem expression_tower : (rules room).expression (towerTokens room ++ [⟨.endOfInput, 1⟩]) =
    .ok (tower room) [⟨.endOfInput, 1⟩] := by
  rw [rules_eq]
  exact accepted (derives_tower room (Nat.zero_add room)) _ nofun

theorem statement_tower :
    (rules room).statement (⟨.symbol .printWord, 1⟩ :: towerTokens room ++ [⟨.endOfInput, 1⟩]) =
      .ok (.print (tower room) 1) [⟨.endOfInput, 1⟩] := by
  rw [rules_eq]
  exact accepted (.print (derives_tower room (Nat.zero_add room))) _ ⟨nofun, nofun⟩

end Rules

/-- What the nesting limit guarantees of the trees that are read.  Where `r` levels are left, a statement has
    no path of more than `2 * r * r + 3 * r + 2` nodes and an expression none of more than one less, and both
    bounds are reached.  So no statement of a script is higher than 8386. -/
theorem height_of_rules :
    (∀ x : Node, (∀ n, x.PathOf n → n ≤ x.height) ∧ x.PathOf x.height) ∧
    (∀ d ≤ nestingLimit, ∀ r, r = nestingLimit - d →
      (∀ tokens x rest, (rules r).statement tokens = .ok x rest → x.height ≤ 2 * r * r + 3 * r + 2) ∧
      (∀ tokens x rest, (rules r).expression tokens = .ok x rest → x.height ≤ 2 * r * r + 3 * r + 1) ∧
      (∃ tokens x rest, (rules r).statement tokens = .ok x rest ∧ x.height = 2 * r * r + 3 * r + 2) ∧
      ∃ tokens x rest, (rules r).expression tokens = .ok x rest ∧ x.height = 2 * r * r + 3 * r + 1) ∧
    ∀ tokens statements, parseTokens tokens = .ok statements → ∀ x ∈ statements, x.height ≤ 8386 := by
  refine ⟨fun x => ⟨fun n => Node.PathOf.le_height, x.pathOf_height⟩, ?_, ?_⟩
  · rintro d _ r rfl
    refine ⟨fun tokens x rest => height_of_statement, fun tokens x rest => height_of_expression,
      ⟨_, _, _, statement_tower _, ?_⟩, ⟨_, _, _, expression_tower _, ?_⟩⟩
    · rw [Node.height, height_tower, outerLevels_one]
      omega
    · rw [height_tower, outerLevels_one]
  · intro tokens statements read x member
    exact height_of_parseTokens read member

/-- With one level left, `print f(a) * a + a == a && a` is as high as a statement can be. -/
theorem height_of_rules_last_level :
    let tokens : List Lexeme := [⟨.symbol .printWord, 1⟩, ⟨.name "f", 1⟩, ⟨.symbol .openParen, 1⟩, ⟨.name "a", 1⟩,
      ⟨.symbol .closeParen, 1⟩, ⟨.symbol .star, 1⟩, ⟨.name "a", 1⟩, ⟨.symbol .plus, 1⟩, ⟨.name "a", 1⟩,
      ⟨.symbol .equal, 1⟩, ⟨.name "a", 1⟩, ⟨.symbol .both, 1⟩, ⟨.name "a", 1⟩, ⟨.endOfInput, 1⟩]
    63 ≤ nestingLimit ∧
    ∃ x, (rules 1).statement tokens = .ok x [⟨.endOfInput, 1⟩] ∧ x.height = 7 ∧
      ∀ tokens y rest, (rules 1).statement tokens = .ok y rest → y.height ≤ x.height := by
  intro tokens
  have within : 63 ≤ nestingLimit := by decide
  have read : (rules 1).statement tokens = .ok (.print (tower 1) 1) [⟨.endOfInput, 1⟩] := by rfl
  have high : (Node.print (tower 1) 1).height = 7 := by decide
  obtain ⟨highest, _⟩ := height_of_rules.2.1 63 within 1 rfl
  refine ⟨within, _, read, high, fun tokens y rest other => ?_⟩
  rw [high]
  exact highest tokens y rest other

end Grammar

end SmallScript
