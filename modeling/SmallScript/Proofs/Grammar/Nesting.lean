import SmallScript.Proofs.Grammar.Completeness
import SmallScript.Proofs.Grammar.Trees
import Mathlib.Tactic.Ring

/-! # How deep the trees of a script can be

The nesting limit bounds how many levels are open while a script is read.  This module says what that
means for the trees that are read.

* `levelsWithin_of_derives`: a tree that is read with room for `r` levels has at most
  `outerLevels weight r` of them on a path, if an uncounted one weighs `weight`.
* `tower` reaches that bound for all weights at once.

That some levels on a path count and others do not comes from how a chain is read: an operand in front of an
operator is read before its chain opens any level.  Chains of the four kinds therefore start with the same
room, one inside the other, and each of them can fill it; a call or a parenthesis in front of all that takes
one level and starts over.
-/

namespace SmallScript

namespace Grammar

theorem Joins.levels {tier : Tier} {s : Symbol} {build : Node → Node → Nat → Node}
    (joins : Joins tier s build) (weight : Nat) (left right : Node) (line : Nat) :
    (build left right line).levels weight =
      max (weight + left.levels weight) (1 + right.levels weight) := by
  cases joins <;> simp [Node.levels]

theorem Joins.branches {tier : Tier} {s : Symbol} {build : Node → Node → Nat → Node}
    (joins : Joins tier s build) (left right : Node) (line : Nat) :
    (build left right line).branches = [(0, 1, left), (1, 0, right)] := by
  cases joins <;> rfl

/-! ## The bound -/

/-- The most levels of a prefix operator, a parenthesis, a call or a block, read with so much room. -/
def innerLevels (weight : Nat) : Nat → Nat
  | 0 => 0
  | room + 1 => innerLevels weight room + 4 * (weight * room) + 1

/-- The most levels of an expression or a statement: in front of the innermost chain there are three
    more, and each can have as many operators as there is room. -/
def outerLevels (weight room : Nat) : Nat :=
  innerLevels weight room + 4 * (weight * room)

theorem innerLevels_succ (weight room : Nat) :
    innerLevels weight (room + 1) = outerLevels weight room + 1 := rfl

theorem outerLevels_succ (weight room : Nat) :
    outerLevels weight (room + 1) = outerLevels weight room + 1 + 4 * (weight * (room + 1)) := rfl

theorem innerLevels_lt {weight r r' : Nat} (lt : r < r') :
    innerLevels weight r < innerLevels weight r' := by
  induction lt with
  | refl =>
    simp only [innerLevels]
    omega
  | step _ ih =>
    simp only [innerLevels]
    omega

theorem outerLevels_eq (weight room : Nat) :
    outerLevels weight room = 2 * weight * (room * (room + 1)) + room := by
  induction room with
  | zero => simp [outerLevels, innerLevels]
  | succ room ih =>
    rw [outerLevels_succ, ih]
    ring

/-- The most levels of an operand in a chain of this kind: those of the tighter chains in it. -/
def operandLevels (weight : Nat) (tier : Tier) (room : Nat) : Nat :=
  innerLevels weight room + (3 - tier.strength) * (weight * room)

theorem operandLevels_lt {weight r r' : Nat} (tier : Tier) (lt : r < r') :
    operandLevels weight tier r < operandLevels weight tier r' :=
  Nat.add_lt_add_of_lt_of_le (innerLevels_lt lt)
    (Nat.mul_le_mul_left _ (Nat.mul_le_mul_left _ (Nat.le_of_lt lt)))

/-- What is known of the levels of a phrase that is read with so much room. -/
def LevelsWithin (weight room : Nat) : Phrase → Prop
  | .primary x | .unary x | .block x => x.levels weight ≤ innerLevels weight room
  | .operand tier x => x.levels weight ≤ operandLevels weight tier room
  | .chain tier n x => n ≤ room ∧ x.levels weight ≤ operandLevels weight tier room + weight * n
  | .expression x | .branches _ x | .statement x => x.levels weight ≤ outerLevels weight room
  | .arguments xs | .statements xs => Node.levelsList weight xs ≤ outerLevels weight room
  | .alternative e => Node.levelsElse weight e ≤ innerLevels weight room

section Cases

variable {weight limit d : Nat}

/-- One level further down there is one level less to fill. -/
theorem innerLevels_of_room (weight : Nat) (room : d < limit) :
    innerLevels weight (limit - d) = outerLevels weight (limit - (d + 1)) + 1 := by
  obtain ⟨r, rfl⟩ : ∃ r, limit = d + 1 + r := ⟨limit - (d + 1), by omega⟩
  have here : d + 1 + r - d = r + 1 := by omega
  rw [here, Nat.add_sub_cancel_left, innerLevels_succ]

theorem innerLevels_le_outerLevels (weight room : Nat) :
    innerLevels weight room ≤ outerLevels weight room :=
  Nat.le_add_right _ _

theorem levels_tighter {tier tier' : Tier} {n room : Nat} {x : Node}
    (tighter : tier.tighter? = some tier') (content : LevelsWithin weight room (.chain tier' n x)) :
    LevelsWithin weight room (.operand tier x) := by
  obtain ⟨count, bound⟩ := content
  have operators : weight * n ≤ weight * room := Nat.mul_le_mul_left _ count
  refine Nat.le_trans bound ?_
  cases tier <;> cases tighter <;> simp only [operandLevels, Tier.strength] <;> omega

theorem levels_joined {tier : Tier} {n l : Nat} {left right : Node} {s : Symbol}
    {build : Node → Node → Nat → Node} (room : d + n < limit)
    (first : LevelsWithin weight (limit - d) (.chain tier n left)) (joins : Joins tier s build)
    (last : LevelsWithin weight (limit - (d + n + 1)) (.operand tier right)) :
    LevelsWithin weight (limit - d) (.chain tier (n + 1) (build left right l)) := by
  obtain ⟨_, bound⟩ := first
  -- the operand after the operator is read with less room, which makes up for the level it opens
  have lower : limit - (d + n + 1) < limit - d := by omega
  have right_lt := Nat.lt_of_le_of_lt last (operandLevels_lt tier lower)
  refine ⟨by omega, ?_⟩
  rw [joins.levels, Nat.mul_succ]
  omega

theorem levels_loosest {n room : Nat} {x : Node}
    (content : LevelsWithin weight room (.chain .logic n x)) :
    LevelsWithin weight room (.expression x) := by
  obtain ⟨count, bound⟩ := content
  have operators : weight * n ≤ weight * room := Nat.mul_le_mul_left _ count
  simp only [LevelsWithin, operandLevels, Tier.strength, outerLevels] at *
  omega

theorem levels_branches {room : Nat} {x b : Node} {e : Option Node} {l : Nat}
    (test : LevelsWithin weight room (.expression x)) (body : LevelsWithin weight room (.block b))
    (alternative : LevelsWithin weight room (.alternative e)) :
    LevelsWithin weight room (.branches l (.conditional x b e l)) := by
  have inner := innerLevels_le_outerLevels weight room
  simp only [LevelsWithin, Node.levels, Nat.max_le] at *
  exact ⟨test, Nat.le_trans body inner, Nat.le_trans alternative inner⟩

/-- Both ways to continue a conditional open a level. -/
theorem levels_continued {x : Node} (room : d < limit)
    (content : x.levels weight ≤ outerLevels weight (limit - (d + 1))) :
    LevelsWithin weight (limit - d) (.alternative (some x)) := by
  simp only [LevelsWithin, Node.levelsElse]
  rw [innerLevels_of_room weight room]
  split <;> omega

end Cases

/-- The levels of a phrase are bounded by the room that is left where it is read. -/
theorem levelsWithin_of_derives (weight : Nat) {limit d : Nat} {phrase : Phrase} {ts : List Lexeme}
    (h : Derives limit d phrase ts) : LevelsWithin weight (limit - d) phrase := by
  induction h with
  | number | truth | text | name | input | inputBare => exact Nat.zero_le _
  | group room _ ih =>
    exact Nat.le_trans ih (by rw [innerLevels_of_room weight room]; omega)
  | call room _ ih =>
    simp only [LevelsWithin, Node.levels] at *
    rw [innerLevels_of_room weight room]
    omega
  | callBare room =>
    simp only [LevelsWithin, Node.levels, Node.levelsList]
    rw [innerLevels_of_room weight room]
    omega
  | lastArgument _ ih => simpa [LevelsWithin, Node.levelsList] using ih
  | nextArgument _ _ ih₁ ih₂ => exact Nat.max_le.mpr ⟨ih₁, ih₂⟩
  | plain _ ih | evaluation _ ih | conditional _ ih => exact ih
  | @prefixed d x ts l op room _ ih =>
    have inner := innerLevels_le_outerLevels weight (limit - (d + 1))
    simp only [LevelsWithin, Node.levels] at *
    rw [innerLevels_of_room weight room]
    omega
  | tightest tightest _ ih =>
    simpa [LevelsWithin, operandLevels, strength_of_tightest tightest] using ih
  | tighter tighter _ ih => exact levels_tighter tighter ih
  | single _ ih => exact ⟨Nat.zero_le _, ih⟩
  | joined room _ joins _ ih₁ ih₂ => exact levels_joined room ih₁ joins ih₂
  | loosest _ ih => exact levels_loosest ih
  | block room _ ih =>
    simp only [LevelsWithin, Node.levels] at *
    rw [innerLevels_of_room weight room]
    omega
  | branches _ _ _ ih₁ ih₂ ih₃ => exact levels_branches ih₁ ih₂ ih₃
  | noAlternative => exact Nat.zero_le _
  | otherwise body ih =>
    -- a block is no conditional, so it counts no level for being continued with
    cases body
    simpa [LevelsWithin, Node.levelsElse, Node.isConditional] using ih
  | elseIf room _ ih | elif room _ ih => exact levels_continued room ih
  | print _ ih | ret _ ih => simpa [LevelsWithin, Node.levels] using ih
  | loop _ _ ih₁ ih₂ =>
    exact Nat.max_le.mpr ⟨ih₁, Nat.le_trans ih₂ (innerLevels_le_outerLevels weight _)⟩
  | function _ _ ih => exact Nat.le_trans ih (innerLevels_le_outerLevels weight _)
  | assignment _ ih => simpa [LevelsWithin, Node.levels] using ih
  | nothing => exact Nat.zero_le _
  | stray _ ih => exact ih
  | last _ ih => simpa [LevelsWithin, Node.levelsList] using ih
  | separated _ _ ih₁ ih₂ => exact Nat.max_le.mpr ⟨ih₁, ih₂⟩
  | adjacent _ _ _ ih₁ ih₂ => exact Nat.max_le.mpr ⟨ih₁, ih₂⟩

/-! ## The bound is reached -/

def leaf : Node := .name "a" 1

/-- So many times an operator and a variable. -/
def repeatedTokens (s : Symbol) : Nat → List Lexeme
  | 0 => []
  | n + 1 => repeatedTokens s n ++ [⟨.symbol s, 1⟩, ⟨.name "a", 1⟩]

/-- A chain that starts with `x` and goes on with variables. -/
def repeated (build : Node → Node → Nat → Node) (x : Node) : Nat → Node
  | 0 => x
  | n + 1 => build (repeated build x n) leaf 1

/-- A call, as the first operand of a product, which is the first operand of a sum, of a comparison
    and of a conjunction.  Each chain takes all the room, and the argument of the call is again such a
    tree. -/
def tower : Nat → Node
  | 0 => leaf
  | room + 1 =>
    let product := repeated (fun left right line => .binary left .mul right line)
      (.call "f" [tower room] 1) (room + 1)
    let sum := repeated (fun left right line => .binary left .add right line) product (room + 1)
    let comparison := repeated (fun left right line => .compare left .equal right line) sum (room + 1)
    repeated (fun left right line => .logic left .and right line) comparison (room + 1)

def towerTokens : Nat → List Lexeme
  | 0 => [⟨.name "a", 1⟩]
  | room + 1 =>
    ⟨.name "f", 1⟩ :: ⟨.symbol .openParen, 1⟩ :: (towerTokens room ++ [⟨.symbol .closeParen, 1⟩]) ++
      repeatedTokens .star (room + 1) ++ repeatedTokens .plus (room + 1) ++
      repeatedTokens .equal (room + 1) ++ repeatedTokens .both (room + 1)

def negations : Nat → Node
  | 0 => leaf
  | n + 1 => .unary .negate (negations n) 1

def negationsTokens : Nat → List Lexeme
  | 0 => [⟨.name "a", 1⟩]
  | n + 1 => ⟨.symbol .minus, 1⟩ :: negationsTokens n

section Tower

variable {limit d : Nat}

theorem derives_repeated {tier : Tier} {s : Symbol} {build : Node → Node → Nat → Node} {x : Node}
    {ts : List Lexeme} (joins : Joins tier s build) (first : Derives limit d (.operand tier x) ts)
    {n : Nat} (room : d + n ≤ limit) :
    Derives limit d (.chain tier n (repeated build x n)) (ts ++ repeatedTokens s n) := by
  induction n with
  | zero => simpa [repeated, repeatedTokens] using .single first
  | succ n ih =>
    have shorter := ih (by omega)
    have last : Derives limit (d + n + 1) (.operand tier leaf) [⟨.name "a", 1⟩] :=
      Derives.operand_of_unary (.plain .name) tier
    have longer := Derives.joined (l := 1) (by omega) shorter joins last
    simpa [repeated, repeatedTokens] using longer

theorem derives_tower (room : Nat) (left : d + room = limit) :
    Derives limit d (.expression (tower room)) (towerTokens room) := by
  induction room generalizing d with
  | zero => exact .loosest (.single (Derives.operand_of_unary (.plain .name) .logic))
  | succ room ih =>
    have called : Derives limit d (.unary (.call "f" [tower room] 1))
        (⟨.name "f", 1⟩ :: ⟨.symbol .openParen, 1⟩ ::
          (towerTokens room ++ [⟨.symbol .closeParen, 1⟩])) :=
      .plain (.call (by omega) (.lastArgument (ih (by omega))))
    have fits : d + (room + 1) ≤ limit := by omega
    have product := derives_repeated .mul (called.operand_of_unary .multiplicative) fits
    have sum := derives_repeated .add (.tighter rfl product) fits
    have comparison := derives_repeated (.comparison .equal) (.tighter rfl sum) fits
    have conjunction := derives_repeated (.logic .and) (.tighter rfl comparison) fits
    exact .loosest conjunction

theorem derives_negations {n : Nat} (room : d + n ≤ limit) :
    Derives limit d (.unary (negations n)) (negationsTokens n) := by
  induction n generalizing d with
  | zero => exact .plain .name
  | succ n ih => exact .prefixed .negate (by omega) (ih (by omega))

end Tower

theorem path_repeated {tier : Tier} {s : Symbol} {build : Node → Node → Nat → Node}
    (joins : Joins tier s build) {x : Node} {c u : Nat} (path : x.Path c u) (n : Nat) :
    (repeated build x n).Path c (u + n) := by
  induction n with
  | zero => exact path
  | succ n ih =>
    have branch : (0, 1, repeated build x n) ∈ (repeated build x (n + 1)).branches := by
      rw [repeated, joins.branches]
      exact List.mem_cons_self
    have longer := Node.Path.goesOn branch ih
    rwa [Nat.zero_add, Nat.add_left_comm, Nat.add_comm 1] at longer

/-- The path to the variable at the bottom takes the operand before every operator. -/
theorem path_tower (room : Nat) : (tower room).Path room (2 * (room * (room + 1))) := by
  induction room with
  | zero => exact .ends rfl
  | succ room ih =>
    have called : (Node.call "f" [tower room] 1).Path (1 + room) (0 + 2 * (room * (room + 1))) :=
      .goesOn List.mem_cons_self ih
    have product := path_repeated .mul called (room + 1)
    have sum := path_repeated .add product (room + 1)
    have comparison := path_repeated (.comparison .equal) sum (room + 1)
    have conjunction := path_repeated (.logic .and) comparison (room + 1)
    have total : 0 + 2 * (room * (room + 1)) + (room + 1) + (room + 1) + (room + 1) + (room + 1) =
        2 * ((room + 1) * (room + 1 + 1)) := by ring
    rwa [total, Nat.add_comm 1] at conjunction

theorem path_negations (n : Nat) : (negations n).Path n 0 := by
  induction n with
  | zero => exact .ends rfl
  | succ n ih =>
    have longer := Node.Path.goesOn (x := negations (n + 1)) List.mem_cons_self ih
    rwa [Nat.add_comm 1] at longer

/-! ## Scripts -/

theorem path_le_of_parseTokens {tokens : List Lexeme} {statements : List Node}
    (read : parseTokens tokens = .ok statements) {x : Node} (member : x ∈ statements) {c u : Nat}
    (path : x.Path c u) :
    c ≤ nestingLimit ∧ u ≤ 2 * (nestingLimit * (nestingLimit + 1)) := by
  obtain ⟨used, _, _, body, line, _, content⟩ := sentence_of_parseTokens read
  have bound (weight : Nat) : c + weight * u ≤ outerLevels weight nestingLimit := by
    have levels := Node.levelsList_le_iff.mp (levelsWithin_of_derives weight content) x member
    exact Nat.le_trans (path.le_levels weight) levels
  simp only [outerLevels_eq] at bound
  -- a weight of 0 leaves the counted levels, and one above the limit outweighs them
  have counted := bound 0
  have uncounted := bound (nestingLimit + 1)
  simp only [nestingLimit] at *
  omega

theorem parseTokens_tower :
    parseTokens (towerTokens nestingLimit ++ [⟨.endOfInput, 1⟩]) = .ok [tower nestingLimit] := by
  have content := derives_tower nestingLimit (Nat.zero_add nestingLimit)
  exact parseTokens_of_sentence ⟨_, 1, rfl, .last (.evaluation content)⟩

theorem parseTokens_negations_plus (n : Nat) (room : n ≤ nestingLimit) :
    parseTokens (negationsTokens n ++ repeatedTokens .plus 1 ++ [⟨.endOfInput, 1⟩]) =
      .ok [repeated (fun left right line => .binary left .add right line) (negations n) 1] := by
  have first : Derives nestingLimit 0 (.unary (negations n)) (negationsTokens n) :=
    derives_negations (by omega)
  have sum := derives_repeated .add (first.operand_of_unary .additive) (n := 1) (by decide)
  -- the two looser kinds of chains have no operator here
  have expression := Derives.loosest (.single (.tighter rfl (.single (.tighter rfl sum))))
  exact parseTokens_of_sentence ⟨_, 1, rfl, .last (.evaluation expression)⟩

/-- What the nesting limit says about the paths in the trees of a script.  The counted levels are within the
    limit, and there can be up to `2 * limit * (limit + 1)` others on a path; one script has so many.  All levels
    are within the limit exactly if `Node.levelsList 1` says so, which can be evaluated. -/
theorem path_le_nestingLimit_iff (tokens : List Lexeme) (statements : List Node)
    (read : parseTokens tokens = .ok statements) :
    ((∀ x ∈ statements, ∀ c u, x.Path c u → c + u ≤ nestingLimit) ↔
      Node.levelsList 1 statements ≤ nestingLimit) ∧
    (∀ x ∈ statements, ∀ c u, x.Path c u →
      c ≤ nestingLimit ∧ u ≤ 2 * (nestingLimit * (nestingLimit + 1))) ∧
    ∃ tokens x, parseTokens tokens = .ok [x] ∧
      x.Path nestingLimit (2 * (nestingLimit * (nestingLimit + 1))) := by
  refine ⟨?_, fun x member c u path => path_le_of_parseTokens read member path,
    _, _, parseTokens_tower, path_tower nestingLimit⟩
  -- the number of levels is the length of the longest path
  rw [Node.levelsList_le_iff]
  constructor
  · intro all x member
    obtain ⟨c, u, path, most⟩ := x.exists_path_levels 1
    rw [← most, Nat.one_mul]
    exact all x member c u path
  · intro all x member c u path
    have le := path.le_levels 1
    rw [Nat.one_mul] at le
    exact Nat.le_trans le (all x member)

/-- A sum is within the limit if its first operand leaves a level for it. -/
theorem path_le_nestingLimit_iff_negations :
    let tokens := negationsTokens 63 ++ repeatedTokens .plus 1 ++ [⟨.endOfInput, 1⟩]
    let x := repeated (fun left right line => .binary left .add right line) (negations 63) 1
    parseTokens tokens = .ok [x] ∧ x.Path 63 1 ∧ ∀ c u, x.Path c u → c + u ≤ 64 := by
  intro tokens x
  have read : parseTokens tokens = .ok [x] := parseTokens_negations_plus 63 (by decide)
  have within : Node.levelsList 1 [x] ≤ nestingLimit := by decide
  have all := (path_le_nestingLimit_iff tokens [x] read).1.mpr within
  exact ⟨read, path_repeated .add (path_negations 63) 1, all x List.mem_cons_self⟩

/-- An operator does not count against what the operand before it may hold: the operand takes all 64
    levels here, and the operator is one more. -/
theorem path_negations_plus :
    let tokens := negationsTokens 64 ++ repeatedTokens .plus 1 ++ [⟨.endOfInput, 1⟩]
    let x := repeated (fun left right line => .binary left .add right line) (negations 64) 1
    parseTokens tokens = .ok [x] ∧ x.Path 64 1 ∧ ¬ 64 + 1 ≤ nestingLimit :=
  ⟨parseTokens_negations_plus 64 (Nat.le_refl _), path_repeated .add (path_negations 64) 1, by decide⟩

end Grammar

end SmallScript
