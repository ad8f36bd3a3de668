import SmallScript.Proofs.Grammar.Trees
import SmallScript.Proofs.Grammar.Diagnosis
import SmallScript.Proofs.Grammar.Shape
import SmallScript.Proofs.Token.LineBreaks

/-! # The lines of tokens, trees and syntax faults

Every line in a tree is the line of some token of it, every fault is about a token, and every token stands
on a line of the text.  Which number the first line has makes no further difference.

* `Node.OnLines P`: all lines in the tree have the property.
* `Derives.onLines` goes from tokens to trees, `parseAt_standsOn` and `line_of_parseAt_error` from a text to
  its trees and its fault.
* `parseAt_add`: counting from a later line on adds to all lines alike.
-/

namespace SmallScript

/-! ## Trees -/

inductive Node.OnLines (P : Nat → Prop) : Node → Prop where
  | node {x} (root : ∀ l, x.line? = some l → P l) (parts : ∀ y ∈ x.parts, OnLines P y) : OnLines P x

namespace Node

variable {P Q : Nat → Prop} {x : Node}

theorem OnLines.line (onLines : x.OnLines P) {l : Nat} (line : x.line? = some l) : P l := by
  obtain ⟨root, _⟩ := onLines
  exact root l line

theorem OnLines.of_mem_parts (onLines : x.OnLines P) {y : Node} (part : y ∈ x.parts) : y.OnLines P := by
  obtain ⟨_, parts⟩ := onLines
  exact parts y part

theorem OnLines.imp (onLines : x.OnLines P) (weaker : ∀ l, P l → Q l) : x.OnLines Q := by
  induction onLines with
  | node root _ ih => exact .node (fun l line => weaker l (root l line)) ih

/-- A tree with a line, which has the property like all others in it. -/
def StandsOn (P : Nat → Prop) (x : Node) : Prop :=
  x.OnLines P ∧ ∃ l, x.line? = some l

theorem StandsOn.mk {l : Nat} (line : x.line? = some l) (here : P l) (parts : ∀ y ∈ x.parts, y.OnLines P) :
    x.StandsOn P := by
  refine ⟨.node (fun l' line' => ?_) parts, l, line⟩
  cases line.symm.trans line'
  exact here

end Node

namespace Grammar

/-- The lines in what a phrase denotes have the property.  The line of a conditional is that of the word
    before the phrase. -/
def Phrase.OnLines (P : Nat → Prop) : Phrase → Prop
  | primary x | unary x | operand _ x | chain _ _ x | expression x | statement x => x.StandsOn P
  | branches l x => P l → x.StandsOn P
  | block x => x.OnLines P
  | alternative e => ∀ x ∈ e, x.OnLines P
  | arguments xs | statements xs => ∀ x ∈ xs, x.StandsOn P

theorem Joins.standsOn {tier : Tier} {s : Symbol} {build : Node → Node → Nat → Node}
    (joins : Joins tier s build) {P : Nat → Prop} {left right : Node} (first : left.OnLines P)
    (last : right.OnLines P) {line : Nat} (here : P line) : (build left right line).StandsOn P := by
  cases joins <;> exact .mk rfl here (by simp [Node.parts, first, last])

/-- The lines in the trees of a phrase are the lines of its tokens. -/
theorem Derives.onLines {limit d : Nat} {phrase : Phrase} {ts : List Lexeme} (h : Derives limit d phrase ts)
    {P : Nat → Prop} (lines : ∀ t ∈ ts, P t.line) : phrase.OnLines P := by
  induction h with
  | number | truth | text | name | input | inputBare | callBare =>
    exact .mk rfl (lines _ List.mem_cons_self) (by simp [Node.parts])
  | group _ _ ih => exact ih fun t member => lines t (by simp [member])
  | call _ _ ih =>
    have arguments := ih fun t member => lines t (by simp [member])
    exact .mk rfl (lines _ List.mem_cons_self) fun x member => (arguments x member).1
  | lastArgument _ ih | last _ ih =>
    intro x member
    cases List.mem_singleton.mp member
    exact ih lines
  | nextArgument _ _ ih₁ ih₂ | separated _ _ ih₁ ih₂ | adjacent _ _ _ ih₁ ih₂ =>
    have first := ih₁ fun t member => lines t (by simp [member])
    have rest := ih₂ fun t member => lines t (by simp [member])
    exact List.forall_mem_cons.mpr ⟨first, rest⟩
  | plain _ ih | tightest _ _ ih | tighter _ _ ih | single _ ih | loosest _ ih | evaluation _ ih => exact ih lines
  | prefixed _ _ _ ih | print _ ih | ret _ ih =>
    have content := ih fun t member => lines t (by simp [member])
    exact .mk rfl (lines _ List.mem_cons_self) (by simp [Node.parts, content.1])
  | joined _ _ joins _ ih₁ ih₂ =>
    have first := ih₁ fun t member => lines t (by simp [member])
    have last := ih₂ fun t member => lines t (by simp [member])
    exact joins.standsOn first.1 last.1 (lines _ (List.mem_append_right _ List.mem_cons_self))
  | block _ _ ih =>
    have content := ih fun t member => lines t (by simp [member])
    -- a block has the line of its first statement
    refine .node (fun l line => ?_) fun x member => (content x member).1
    obtain ⟨first, head, here⟩ := Option.bind_eq_some_iff.mp line
    exact (content first (List.mem_of_head? head)).1.line here
  | branches _ _ _ ih₁ ih₂ ih₃ =>
    intro here
    have test := ih₁ fun t member => lines t (by simp [member])
    have body := ih₂ fun t member => lines t (by simp [member])
    have rest := ih₃ fun t member => lines t (by simp [member])
    refine .mk rfl here ?_
    simp only [Node.parts, List.mem_cons, Option.mem_toList]
    rintro y (rfl | rfl | other)
    · exact test.1
    · exact body
    · exact rest y other
  | noAlternative | nothing =>
    intro x member
    cases member
  | otherwise _ ih =>
    rintro x ⟨⟩
    exact ih fun t member => lines t (by simp [member])
  | elseIf _ _ ih =>
    rintro x ⟨⟩
    have word := lines _ (List.mem_cons_of_mem _ List.mem_cons_self)
    exact (ih (fun t member => lines t (by simp [member])) word).1
  | elif _ _ ih =>
    rintro x ⟨⟩
    exact (ih (fun t member => lines t (by simp [member])) (lines _ List.mem_cons_self)).1
  | conditional _ ih => exact ih (fun t member => lines t (by simp [member])) (lines _ List.mem_cons_self)
  | loop _ _ ih₁ ih₂ =>
    have test := ih₁ fun t member => lines t (by simp [member])
    have body : Node.OnLines P _ := ih₂ fun t member => lines t (by simp [member])
    exact .mk rfl (lines _ List.mem_cons_self) (by simp [Node.parts, test.1, body])
  | function _ _ ih =>
    have body : Node.OnLines P _ := ih fun t member => lines t (by simp [member])
    exact .mk rfl (lines _ List.mem_cons_self) (by simp [Node.parts, body])
  | @assignment _ n m _ _ _ _ ih =>
    have value := ih fun t member => lines t (by simp [member])
    have target : Node.OnLines P (.name n m) :=
      (Node.StandsOn.mk rfl (lines _ List.mem_cons_self) (by simp [Node.parts])).1
    have sign := lines _ (List.mem_cons_of_mem _ List.mem_cons_self)
    exact .mk rfl sign (by simp [Node.parts, value.1, target])
  | stray _ ih => exact ih fun t member => lines t (by simp [member])

/-! ## Reading -/

open SmallScript.Grammar.Parser
open Renumber

theorem exists_endOfInput_of_program {tokens rest : List Lexeme} {statements : List Node}
    (read : program tokens = .ok statements rest) :
    ∃ l others, (rules nestingLimit).statements tokens = .ok statements (⟨.endOfInput, l⟩ :: others) := by
  obtain ⟨xs, middle, list, onward⟩ := bind_eq_ok.mp read
  rcases middle with _ | ⟨⟨token, l⟩, others⟩
  · cases onward
  · cases token with
    | endOfInput =>
      cases onward
      exact ⟨l, others, list⟩
    | _ => cases onward

/-- Other lines on the tokens are other lines in the trees, or in the fault. -/
theorem parseTokens_renumber (f : Nat → Nat) {tokens : List Lexeme} {l : Nat}
    (ends : ⟨.endOfInput, l⟩ ∈ tokens) :
    parseTokens (renumber f tokens) = renumber f (parseTokens tokens) := by
  have agree : RulesAgree (.ahead f) nestingLimit 0 (rules nestingLimit) (rules nestingLimit) :=
    rules_look_ahead f (Nat.le_of_eq (Nat.zero_add _))
  have all : tokens = tokens ++ [] := (List.append_nil tokens).symm
  unfold parseTokens
  cases read : program tokens with
  | error fault rest =>
    -- the refused token is one of those that were renumbered
    have shared := ne_nil_of_refused ends read
    have tracks := (agrees_programWith agree).holds tokens [] [] all
    have same := tracks.error (.inl shared) (by simpa using show programWith (rules nestingLimit) tokens = _ from read)
    simp only [List.append_nil] at same
    have refused : program (renumber f tokens) = .error (renumber f fault) (renumber f rest) := same
    rw [refused]
    rfl
  | ok xs rest =>
    -- nothing is left of a whole script, so the statements are compared, in front of the end of the input
    obtain ⟨l, others, list⟩ := exists_endOfInput_of_program read
    have tracks := (agree.statements free_nil).holds tokens [] [] all
    have same := tracks.ok (.inl (List.cons_ne_nil _ _)) (by simpa using list)
    simp only [List.append_nil] at same
    have onward : program (renumber f tokens) = .ok (renumber f xs) (renumber f others) := bind_of_ok same
    rw [onward]
    rfl

end Grammar

/-! ## Scanning -/

namespace Lexeme

open Token Renumber

theorem line_of_located {line : Nat} {pieces : List Piece} {t : Lexeme} (member : t ∈ located line pieces) :
    line ≤ t.line ∧ t.line ≤ line + (pieces.flatMap Piece.chars).count '\n' := by
  induction pieces generalizing line with
  | nil => cases member
  | cons p ps ih =>
    rw [located_cons] at member
    rw [List.flatMap_cons, List.count_append]
    rcases List.mem_append.mp member with here | later
    · split at here
      · cases here
      · cases List.mem_singleton.mp here
        exact ⟨Nat.le_refl _, Nat.le_add_right _ _⟩
    · have bounds := ih later
      omega

/-- All tokens stand on lines of the text. -/
theorem line_of_scan {line : Nat} {text : List Char} {ts : List Lexeme} (scanned : scan line text = .ok ts) :
    ∀ t ∈ ts, line ≤ t.line ∧ t.line ≤ line + text.count '\n' := by
  obtain ⟨pieces, cut, rfl⟩ := exists_segments_of_scan scanned
  intro t member
  rcases List.mem_append.mp member with inside | last
  · have whole := cut.flatMap_chars
    rw [List.append_nil] at whole
    rw [whole]
    exact line_of_located inside
  · cases List.mem_singleton.mp last
    exact ⟨Nat.le_add_right _ _, Nat.le_refl _⟩

/-- A text without tokens is refused on one of its lines. -/
theorem line_of_scan_error {line : Nat} {text : List Char} {fault : SyntaxFault}
    (refused : scan line text = .error fault) : line ≤ fault.line ∧ fault.line ≤ line + text.count '\n' := by
  obtain ⟨pieces, left, cut, nothing⟩ := exists_segments text
  cases left with
  | nil =>
    rw [scan_of_segments_nil cut] at refused
    cases refused
  | cons c rest =>
    rw [scan_of_segments_cons cut nothing] at refused
    cases refused
    have whole := congrArg (List.count '\n') cut.flatMap_chars
    rw [List.count_append] at whole
    dsimp only
    omega

theorem located_add (line k : Nat) (pieces : List Piece) :
    located (line + k) pieces = renumber (· + k) (located line pieces) := by
  induction pieces generalizing line with
  | nil => rfl
  | cons p ps ih =>
    rw [located_cons, located_cons, renumber_append, Nat.add_right_comm, ih]
    split <;> rfl

/-- Counting from a later line on adds to all lines alike. -/
theorem scan_add (line k : Nat) (text : List Char) :
    scan (line + k) text = renumber (· + k) (scan line text) := by
  obtain ⟨pieces, left, cut, nothing⟩ := exists_segments text
  cases left with
  | nil =>
    rw [scan_of_segments_nil cut, scan_of_segments_nil cut, located_add, Nat.add_right_comm]
    have joined := renumber_append (· + k) (located line pieces) [Lexeme.mk .endOfInput (line + text.count '\n')]
    exact congrArg Except.ok joined.symm
  | cons c rest =>
    rw [scan_of_segments_cons cut nothing, scan_of_segments_cons cut nothing, Nat.add_right_comm]
    rfl

/-- Line feeds in front of a text only move it down. -/
theorem scan_replicate_lineFeed (line k : Nat) (text : List Char) :
    scan line (List.replicate k '\n' ++ text) = scan (line + k) text := by
  induction k generalizing line with
  | zero => rfl
  | succ k ih =>
    rw [List.replicate_succ, List.cons_append, scan_lineFeed, ih, Nat.add_assoc, Nat.add_comm 1]

theorem endOfInput_mem_of_scan {line : Nat} {text : List Char} {ts : List Lexeme}
    (scanned : scan line text = .ok ts) : ⟨.endOfInput, line + text.count '\n'⟩ ∈ ts := by
  obtain ⟨pieces, _, rfl⟩ := exists_segments_of_scan scanned
  simp

end Lexeme

/-! ## Whole texts -/

open Renumber Lexeme

theorem parseAt_add (line k : Nat) (source : String) :
    parseAt (line + k) source = renumber (· + k) (parseAt line source) := by
  unfold parseAt lexemes
  rw [scan_add]
  cases scanned : scan line source.toList with
  | error fault => rfl
  | ok tokens => exact Grammar.parseTokens_renumber (· + k) (endOfInput_mem_of_scan scanned)

/-- The lines in the trees of a text are lines of the text. -/
theorem parseAt_standsOn {line : Nat} {source : String} {statements : List Node}
    (parsed : parseAt line source = .ok statements) : ∀ x ∈ statements,
      x.StandsOn fun l => line ≤ l ∧ l ≤ line + source.toList.count '\n' := by
  obtain ⟨tokens, scanned, accepted⟩ := parseAt_eq_ok_iff.mp parsed
  obtain ⟨_, rest, rfl, body, last, rfl, derives⟩ := Grammar.sentence_of_parseTokens accepted
  exact derives.onLines fun t member => line_of_scan scanned t (by simp [member])

/-- A text that is refused is refused on one of its lines. -/
theorem line_of_parseAt_error {line : Nat} {source : String} {fault : SyntaxFault}
    (refused : parseAt line source = .error fault) :
    line ≤ fault.line ∧ fault.line ≤ line + source.toList.count '\n' := by
  unfold parseAt lexemes at refused
  cases scanned : scan line source.toList with
  | error fault' =>
    rw [scanned] at refused
    cases refused
    exact line_of_scan_error scanned
  | ok tokens =>
    rw [scanned] at refused
    change Grammar.parseTokens tokens = _ at refused
    obtain ⟨t, member, here⟩ := Grammar.line_of_refused (endOfInput_mem_of_scan scanned) refused
    rw [here]
    exact line_of_scan scanned t member

end SmallScript
