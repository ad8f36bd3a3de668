import SmallScript.Proofs.Grammar.Completeness
import SmallScript.Script

/-! # The shape of parsed trees

Most trees are not the trees of any script.  In those that are, assignments, `return` and blocks stand
only where statements can stand, what is assigned to is a variable, and every operand, condition and
argument is an expression.

* `Node.IsExpression` and `Node.IsStatement` are the two shapes.
* `Derives.shaped` goes through the grammar, `isStatement_of_parseAt` is about scripts.
-/

namespace SmallScript

namespace Node

inductive IsExpression : Node → Prop where
  | number {v l} : IsExpression (.number v l)
  | truth {v l} : IsExpression (.truth v l)
  | text {v l} : IsExpression (.text v l)
  | name {n l} : IsExpression (.name n l)
  | input {p l} : IsExpression (.input p l)
  | unary {op x l} (operand : IsExpression x) : IsExpression (.unary op x l)
  | binary {x op y l} (computes : op ≠ .assign) (left : IsExpression x) (right : IsExpression y) :
      IsExpression (.binary x op y l)
  | compare {x op y l} (left : IsExpression x) (right : IsExpression y) :
      IsExpression (.compare x op y l)
  | logic {x op y l} (left : IsExpression x) (right : IsExpression y) : IsExpression (.logic x op y l)
  | call {n xs l} (arguments : ∀ x ∈ xs, IsExpression x) : IsExpression (.call n xs l)

/-- A statement in which `return` stands only on lines that `returns` allows. -/
inductive IsStatement (returns : Nat → Prop) : Node → Prop where
  | expression {x} (shape : IsExpression x) : IsStatement returns x
  | assign {n m x l} (value : IsExpression x) : IsStatement returns (.binary (.name n m) .assign x l)
  | print {x l} (value : IsExpression x) : IsStatement returns (.print x l)
  | ret {x l} (line : returns l) (value : IsExpression x) : IsStatement returns (.ret x l)
  | conditional {c b e l} (condition : IsExpression c) (thenBlock : IsStatement returns b)
      (elseBranch : ∀ x ∈ e, IsStatement returns x) : IsStatement returns (.conditional c b e l)
  | block {xs l} (statements : ∀ x ∈ xs, IsStatement returns x) : IsStatement returns (.block xs l)
  | loop {c b l} (condition : IsExpression c) (body : IsStatement returns b) :
      IsStatement returns (.loop c b l)
  | function {n ns b l} (body : IsStatement returns b) : IsStatement returns (.function n ns b l)

theorem IsStatement.imp {returns returns' : Nat → Prop} {x : Node} (shape : IsStatement returns x)
    (allowed : ∀ l, returns l → returns' l) : IsStatement returns' x := by
  induction shape with
  | expression shape => exact .expression shape
  | assign value => exact .assign value
  | print value => exact .print value
  | ret line value => exact .ret (allowed _ line) value
  | conditional condition _ _ ih₁ ih₂ => exact .conditional condition ih₁ ih₂
  | block _ ih => exact .block ih
  | loop condition _ ih => exact .loop condition ih
  | function _ ih => exact .function ih

end Node

namespace Grammar

/-- The shape of what a phrase denotes. -/
def Phrase.Shaped (returns : Nat → Prop) : Phrase → Prop
  | primary x | unary x | operand _ x | chain _ _ x | expression x => x.IsExpression
  | arguments xs => ∀ x ∈ xs, x.IsExpression
  | block x | branches _ x | statement x => x.IsStatement returns
  | alternative e => ∀ x ∈ e, x.IsStatement returns
  | statements xs => ∀ x ∈ xs, x.IsStatement returns

theorem Joins.isExpression {tier : Tier} {s : Symbol} {build : Node → Node → Nat → Node}
    (joins : Joins tier s build) {left right : Node} (first : left.IsExpression)
    (last : right.IsExpression) (line : Nat) : (build left right line).IsExpression := by
  cases joins with
  | logic => exact .logic first last
  | comparison => exact .compare first last
  | add | sub | mul | div => exact .binary nofun first last

/-- In the trees of a phrase, `return` stands on the lines of its `return` tokens. -/
theorem Derives.shaped {limit d : Nat} {phrase : Phrase} {ts : List Lexeme}
    (h : Derives limit d phrase ts) {returns : Nat → Prop}
    (lines : ∀ l, ⟨.symbol .returnWord, l⟩ ∈ ts → returns l) : phrase.Shaped returns := by
  -- the tokens of a part are among those of the whole, with their lines
  induction h with
  | number => exact .number
  | truth => exact .truth
  | text => exact .text
  | name => exact .name
  | input | inputBare => exact .input
  | group _ _ ih => exact ih fun l member => lines l (by simp [member])
  | call _ _ ih => exact .call (ih fun l member => lines l (by simp [member]))
  | callBare => exact .call (by simp)
  | lastArgument _ ih =>
    intro x member
    cases List.mem_singleton.mp member
    exact ih lines
  | nextArgument _ _ ih₁ ih₂ =>
    have first := ih₁ fun l member => lines l (by simp [member])
    have rest := ih₂ fun l member => lines l (by simp [member])
    exact List.forall_mem_cons.mpr ⟨first, rest⟩
  | plain _ ih | tightest _ _ ih | tighter _ _ ih | single _ ih | loosest _ ih => exact ih lines
  | prefixed _ _ _ ih => exact .unary (ih fun l member => lines l (by simp [member]))
  | joined _ _ joins _ ih₁ ih₂ =>
    have first := ih₁ fun l member => lines l (by simp [member])
    have last := ih₂ fun l member => lines l (by simp [member])
    exact joins.isExpression first last _
  | block _ _ ih => exact .block (ih fun l member => lines l (by simp [member]))
  | branches _ _ _ ih₁ ih₂ ih₃ =>
    have test := ih₁ fun l member => lines l (by simp [member])
    have body := ih₂ fun l member => lines l (by simp [member])
    have rest := ih₃ fun l member => lines l (by simp [member])
    exact .conditional test body rest
  | noAlternative => nofun
  | otherwise _ ih | elseIf _ _ ih | elif _ _ ih =>
    rintro x ⟨⟩
    exact ih fun l member => lines l (by simp [member])
  | print _ ih => exact .print (ih fun l member => lines l (by simp [member]))
  | ret _ ih => exact .ret (lines _ (by simp)) (ih fun l member => lines l (by simp [member]))
  | conditional _ ih => exact ih fun l member => lines l (by simp [member])
  | loop _ _ ih₁ ih₂ =>
    have test := ih₁ fun l member => lines l (by simp [member])
    have body := ih₂ fun l member => lines l (by simp [member])
    exact .loop test body
  | function _ _ ih => exact .function (ih fun l member => lines l (by simp [member]))
  | assignment _ ih => exact .assign (ih fun l member => lines l (by simp [member]))
  | evaluation _ ih => exact .expression (ih lines)
  | nothing => nofun
  | stray _ ih => exact ih fun l member => lines l (by simp [member])
  | last _ ih =>
    intro x member
    cases List.mem_singleton.mp member
    exact ih lines
  | separated _ _ ih₁ ih₂ | adjacent _ _ _ ih₁ ih₂ =>
    have first := ih₁ fun l member => lines l (by simp [member])
    have rest := ih₂ fun l member => lines l (by simp [member])
    exact List.forall_mem_cons.mpr ⟨first, rest⟩

end Grammar

theorem parseAt_eq_ok_iff {line : Nat} {source : String} {statements : List Node} :
    parseAt line source = .ok statements ↔
      ∃ tokens, lexemes line source = .ok tokens ∧ Grammar.parseTokens tokens = .ok statements := by
  unfold parseAt
  cases lexemes line source with
  | error fault => simp [bind, Except.bind]
  | ok tokens => simp [bind, Except.bind]

/-- The statements of a script are statements, and `return` stands in them where it stands in the
    text. -/
theorem isStatement_of_parseAt {line : Nat} {source : String} {statements : List Node}
    {tokens : List Lexeme} (scanned : lexemes line source = .ok tokens)
    (parsed : parseAt line source = .ok statements) {x : Node} (member : x ∈ statements) :
    x.IsStatement fun l => ⟨.symbol .returnWord, l⟩ ∈ tokens := by
  obtain ⟨_, scanned', accepted⟩ := parseAt_eq_ok_iff.mp parsed
  cases scanned.symm.trans scanned'
  obtain ⟨_, rest, rfl, body, last, rfl, derives⟩ := Grammar.sentence_of_parseTokens accepted
  exact derives.shaped (fun l member => by simp [member]) x member

end SmallScript
