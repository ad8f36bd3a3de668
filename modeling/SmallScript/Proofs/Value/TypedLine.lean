import SmallScript.Proofs.Number.ReadBack
import SmallScript.Proofs.Token.LineBreaks
import SmallScript.Value

/-! # Typed lines

The value of a typed line is a number or a text, and typing what is displayed for it gives the same value
again.  Line ends are left out of a line once and for all, so a text has none at its end, and the text of
a finite number reads back, see `Number.read?_text`.
-/

namespace SmallScript.Text

variable {α : Type} {p : α → Bool}

theorem dropEndWhile_append {tail : List α} (all : ∀ x ∈ tail, p x = true) (xs : List α) :
    dropEndWhile p (xs ++ tail) = dropEndWhile p xs := by
  have reversed : ∀ x ∈ tail.reverse, p x = true := fun x member => all x (List.mem_reverse.mp member)
  rw [dropEndWhile, List.reverse_append, List.dropWhile_append_of_pos reversed]
  rfl

theorem dropEndWhile_dropEndWhile (xs : List α) :
    dropEndWhile p (dropEndWhile p xs) = dropEndWhile p xs :=
  List.rdropWhile_idempotent p xs

theorem dropEndWhile_eq_self {xs : List α} (none : ∀ x ∈ xs, p x = false) : dropEndWhile p xs = xs := by
  refine List.rdropWhile_eq_self_iff.mpr fun some => ?_
  rw [none _ (List.getLast_mem some)]
  exact Bool.false_ne_true

theorem trim_eq_self {text : List Char} (visible : ∀ c ∈ text, isBlank c = false) : trim text = text := by
  have front : text.dropWhile isBlank = text := by
    cases text with
    | nil => rfl
    | cons c cs => exact List.dropWhile_cons_of_neg (by simp [visible c List.mem_cons_self])
  rw [trim, front]
  exact dropEndWhile_eq_self visible

end SmallScript.Text

namespace SmallScript.Number

theorem not_isBlank_of_isDigit {c : Char} (digit : c.isDigit = true) : Text.isBlank c = false := by
  apply Token.not_isBlank_of_continuesName
  simp [Token.continuesName, Char.isAlphanum, digit]

/-- No blank occurs in the text of a finite number. -/
theorem not_isBlank_of_mem_text {x : Float} (finite : x.isFinite = true) :
    ∀ c ∈ (text x).toList, Text.isBlank c = false := by
  have magnitude : ∀ c ∈ (Decimal.shortest x).text.toList, Text.isBlank c = false := by
    obtain ⟨whole, fraction, -, digits, digitsBehind, -, spelled⟩ := (Decimal.shortest x).exists_spelling
    intro c member
    rw [spelled] at member
    split_ifs at member
    · exact not_isBlank_of_isDigit (digits c member)
    · rcases List.mem_append.mp member with member | member
      · exact not_isBlank_of_isDigit (digits c member)
      · rcases List.mem_cons.mp member with rfl | member
        · rfl
        · exact not_isBlank_of_isDigit (digitsBehind c member)
  rw [text_of_isFinite finite]
  split_ifs
  · intro c member
    rcases List.mem_append.mp (String.toList_append ▸ member) with member | member
    · cases List.mem_singleton.mp member
      rfl
    · exact magnitude c member
  · exact magnitude

end SmallScript.Number

namespace SmallScript.Value

theorem isBlank_of_endsLine {c : Char} (ends : endsLine c = true) : Text.isBlank c = true := by
  rcases (Bool.or_eq_true ..).mp ends with feed | ret
  · rw [eq_of_beq feed]
    rfl
  · rw [eq_of_beq ret]
    rfl

theorem ofInput_cases (typed : String) :
    (∃ x : Float, x.isFinite = true ∧ ofInput typed = .number x) ∨
      ofInput typed = .text (String.ofList (Text.dropEndWhile endsLine typed.toList)) := by
  simp only [ofInput]
  split
  next x read =>
    split_ifs with finite
    · exact .inl ⟨x, finite, rfl⟩
    · exact .inr rfl
  next => exact .inr rfl

/-- Only what stands in front of the line ends counts. -/
theorem ofInput_congr {typed other : String}
    (same : Text.dropEndWhile endsLine typed.toList = Text.dropEndWhile endsLine other.toList) :
    ofInput typed = ofInput other := by
  simp only [ofInput, same]

theorem ofInput_append {ending : String} (ends : ∀ c ∈ ending.toList, endsLine c = true) (typed : String) :
    ofInput (typed ++ ending) = ofInput typed := by
  apply ofInput_congr
  rw [String.toList_append, Text.dropEndWhile_append ends]

theorem ofInput_text {x : Float} (finite : x.isFinite = true) : ofInput (Number.text x) = .number x := by
  have visible := Number.not_isBlank_of_mem_text finite
  have noEnd : ∀ c ∈ (Number.text x).toList, endsLine c = false := by
    intro c member
    by_contra ends
    have blank := isBlank_of_endsLine (Bool.eq_true_of_not_eq_false ends)
    rw [visible c member] at blank
    cases blank
  simp only [ofInput, Text.dropEndWhile_eq_self noEnd, Text.trim_eq_self visible,
    Number.read?_text finite]
  exact if_pos finite

/-- What is displayed for a typed line is typed again as the same value. -/
theorem ofInput_display (typed : String) : ofInput (ofInput typed).display = ofInput typed := by
  rcases ofInput_cases typed with ⟨x, finite, isNumber⟩ | isText
  · rw [isNumber]
    exact ofInput_text finite
  · apply ofInput_congr
    rw [isText, display, String.toList_ofList, Text.dropEndWhile_dropEndWhile]

/-- A typed line is a finite number or a text, and what is displayed for it stands for the same value when it
    is typed with a line end or without one.  Numbers are the same if their encodings are, so the sign of a
    zero counts. -/
theorem typed_value_stable (typed : String) :
    (∀ ending ∈ ["", "\n", "\r\n"], ofInput ((ofInput typed).display ++ ending) = ofInput typed) ∧
      ofInput typed ≠ .empty ∧ (∀ b, ofInput typed ≠ .boolean b) ∧
      ∀ x, ofInput typed = .number x → x.isFinite = true := by
  refine ⟨?_, ?_⟩
  · intro ending member
    have ends : ∀ c ∈ ending.toList, endsLine c = true := by
      simp only [List.mem_cons, List.not_mem_nil, or_false] at member
      rcases member with rfl | rfl | rfl <;> simp [endsLine]
    rw [ofInput_append ends]
    exact ofInput_display typed
  · rcases ofInput_cases typed with ⟨x, finite, isNumber⟩ | isText
    · rw [isNumber]
      refine ⟨nofun, nofun, ?_⟩
      rintro _ ⟨⟩
      exact finite
    · rw [isText]
      exact ⟨nofun, nofun, nofun⟩

/-- A zero keeps its sign, and loses the blanks around it. -/
theorem typed_value_stable_negative_zero :
    ofInput " -0 \r\n" = .number (-0.0) ∧
      ofInput ((ofInput " -0 \r\n").display ++ "\r\n") = ofInput " -0 \r\n" :=
  ⟨by decide +kernel, (typed_value_stable " -0 \r\n").1 "\r\n" (by decide)⟩

end SmallScript.Value
