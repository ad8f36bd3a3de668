import SmallScript.Proofs.Grammar.Boundaries
import SmallScript.Proofs.Grammar.Shape
import SmallScript.Proofs.Token.LineBreaks

/-! # Lines that are scripts of their own

If every line of a text can be read on its own, the whole text can be read once a semicolon separates
what the lines hold, and its statements are those of the lines, in order.

* `Text.closeLines` puts the semicolons in.
* `LinesParse line texts parts`: the texts, read on consecutive lines, have the statements `parts`.
* `parseAt_closeLines` is the result.
-/

namespace SmallScript

namespace Text

/-- The text with a semicolon behind every line feed. -/
def closeLines (text : List Char) : List Char :=
  text.flatMap fun c => if c = '\n' then ['\n', ';'] else [c]

variable {a : List Char}

theorem closeLines_single (single : '\n' ∉ a) : closeLines a = a := by
  induction a with
  | nil => rfl
  | cons c cs ih =>
    obtain ⟨other, rest⟩ : c ≠ '\n' ∧ '\n' ∉ cs := by simpa [eq_comm] using single
    rw [closeLines, List.flatMap_cons, if_neg other]
    exact congrArg (c :: ·) (ih rest)

theorem closeLines_append (single : '\n' ∉ a) (b : List Char) :
    closeLines (a ++ '\n' :: b) = a ++ '\n' :: ';' :: closeLines b := by
  have before := closeLines_single single
  unfold closeLines at before ⊢
  rw [List.flatMap_append, before]
  rfl

theorem lines_nil : lines [] = [] := by
  rw [lines]
  rfl

theorem lines_single (nonempty : a ≠ []) (single : '\n' ∉ a) : lines a = [a] := by
  have none := (Token.span_append (Token.bne_of_not_mem single) [] (by simp)).2
  rw [List.append_nil] at none
  rw [lines, if_neg (by simpa using nonempty)]
  split
  next => rfl
  next equal => rw [none] at equal; cases equal

theorem lines_append (single : '\n' ∉ a) (b : List Char) :
    lines (a ++ '\n' :: b) = dropReturn a :: lines b := by
  obtain ⟨before, after⟩ := Token.span_append (Token.bne_of_not_mem single) ('\n' :: b) (by simp)
  rw [lines, if_neg (by simp)]
  split
  next equal => rw [after] at equal; cases equal
  next equal =>
    rw [after] at equal
    cases equal
    rw [before]

/-- A text is empty, or one line, or a line and the text behind it. -/
theorem lines_induction {P : List Char → Prop} (empty : P [])
    (last : ∀ a, a ≠ [] → '\n' ∉ a → P a) (line : ∀ a b, '\n' ∉ a → P b → P (a ++ '\n' :: b))
    (text : List Char) : P text := by
  by_cases single : '\n' ∈ text
  · obtain ⟨a, b, rfl, before⟩ := List.eq_append_cons_of_mem single
    exact line a b before (lines_induction empty last line b)
  · cases text with
    | nil => exact empty
    | cons c cs => exact last _ (List.cons_ne_nil c cs) single
termination_by text.length

theorem dropReturn_cases (a : List Char) : dropReturn a = a ∨ a = dropReturn a ++ ['\r'] := by
  unfold dropReturn
  split
  next ends =>
    obtain ⟨before, rfl⟩ := List.getLast?_eq_some_iff.mp ends
    simp
  next => exact .inl rfl

end Text

/-- The texts, read on consecutive lines, have these statements. -/
inductive LinesParse : Nat → List (List Char) → List (List Node) → Prop where
  | none {line} : LinesParse line [] []
  | next {line text texts statements parts} (first : parseAt line (String.ofList text) = .ok statements)
      (rest : LinesParse (line + 1) texts parts) :
      LinesParse line (text :: texts) (statements :: parts)

open Lexeme Grammar

/-- The tokens of a text with statements, up to the end of the input. -/
theorem exists_body_of_parseAt {line : Nat} {text : List Char} {statements : List Node}
    (parsed : parseAt line (String.ofList text) = .ok statements) :
    ∃ body l, scan line text = .ok (body ++ [⟨.endOfInput, l⟩]) ∧
      Derives nestingLimit 0 (.statements statements) body := by
  obtain ⟨tokens, scanned, read⟩ := parseAt_eq_ok_iff.mp parsed
  rw [lexemes, String.toList_ofList] at scanned
  obtain ⟨body, rfl, once, _⟩ := scan_append_lineFeed scanned
  exact ⟨body, _, scanned, derives_of_parseTokens once read⟩

theorem scan_closeLines {line : Nat} {text : List Char} {parts : List (List Node)}
    (parsed : LinesParse line (Text.lines text) parts) :
    ∃ body l, scan line (Text.closeLines text) = .ok (body ++ [⟨.endOfInput, l⟩]) ∧
      Derives nestingLimit 0 (.statements parts.flatten) body := by
  induction text using Text.lines_induction generalizing line parts with
  | empty =>
    rw [Text.lines_nil] at parsed
    cases parsed
    exact ⟨[], line, scan_nil line, .nothing⟩
  | last a nonempty single =>
    rw [Text.lines_single nonempty single] at parsed
    obtain ⟨⟩ | ⟨first, ⟨⟩⟩ := parsed
    rw [Text.closeLines_single single, List.flatten_singleton]
    exact exists_body_of_parseAt first
  | line a b single ih =>
    rw [Text.lines_append single] at parsed
    obtain ⟨⟩ | @⟨_, _, _, statements, parts, first, rest⟩ := parsed
    obtain ⟨body', l, scanned', derives'⟩ := ih rest
    obtain ⟨body, ending, scanned, derives⟩ := exists_body_of_parseAt first
    have scanned : scan line a = .ok (body ++ [⟨.endOfInput, ending⟩]) := by
      -- a carriage return at the end of the line is layout
      rcases Text.dropReturn_cases a with same | ends
      · rwa [same] at scanned
      · rw [ends]
        exact scan_append_return scanned
    obtain ⟨_, same, _, onward⟩ := scan_append_lineFeed scanned
    cases (List.append_inj' same rfl).1
    -- the semicolon between two lines stands on the second one
    have whole : scan line (Text.closeLines (a ++ '\n' :: b)) =
        .ok ((body ++ ⟨.symbol .semicolon, line + 1⟩ :: body') ++ [⟨.endOfInput, l⟩]) := by
      rw [Text.closeLines_append single, onward, List.count_eq_zero.mpr single, scan_semicolon,
        Nat.add_zero, scanned']
      simp [Except.map]
    exact ⟨_, l, whole, derives.append_statements derives'⟩

/-- A text whose lines are scripts of their own, with semicolons behind its lines, is the script that
    does what the lines do. -/
theorem parseAt_closeLines {line : Nat} {text : List Char} {parts : List (List Node)}
    (parsed : LinesParse line (Text.lines text) parts) :
    parseAt line (String.ofList (Text.closeLines text)) = .ok parts.flatten := by
  obtain ⟨body, l, scanned, derives⟩ := scan_closeLines parsed
  refine parseAt_eq_ok_iff.mpr ⟨_, ?_, parseTokens_of_sentence ⟨body, l, rfl, derives⟩⟩
  rw [lexemes, String.toList_ofList, scanned]

/-- A blank line has no statements. -/
theorem eq_nil_of_blankText {line : Nat} {text : List Char} {statements : List Node}
    (blank : Text.isBlankText text = true) (parsed : parseAt line (String.ofList text) = .ok statements) :
    statements = [] := by
  obtain ⟨tokens, scanned, read⟩ := parseAt_eq_ok_iff.mp parsed
  rw [lexemes, String.toList_ofList] at scanned
  rw [scan_blankText blank scanned] at read
  cases read
  rfl

end SmallScript
