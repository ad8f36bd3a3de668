import SmallScript.Proofs.Token.LongestMatch
import SmallScript.Text

/-! # Tokens and line ends

No lexeme but a quoted text goes past the end of a line.  So a text that has tokens can be scanned up to
a line feed behind it and from there on anew: `scan_append_lineFeed`, and `lexemesFrom_append_lineFeed` for
whole texts.  A carriage return at the end of a text makes no difference to its tokens either: it is a blank
of its own, or it joins a blank or a comment (`scan_append_return`).  And a text of blanks has no tokens
(`scan_blankText`).
-/

namespace SmallScript

namespace Token

theorem Spells.ne_nil {piece : List Char} {token : Token} (lexeme : Spells piece token) :
    piece ≠ [] := by
  rintro rfl
  obtain ⟨t, left, taken, -, -⟩ := piece?_of_spells lexeme []
  cases taken

theorem Spells.ne_endOfInput {piece : List Char} {token : Token} (lexeme : Spells piece token) :
    token ≠ .endOfInput := by
  cases lexeme with
  | reserved listed =>
    have none : ∀ entry ∈ reservedWords, entry.2 ≠ .endOfInput := by decide
    exact none _ listed
  | _ => nofun

theorem not_isBlank_of_continuesName {c : Char} (inside : continuesName c = true) :
    Text.isBlank c = false := by
  simp only [continuesName, Char.isAlphanum, Char.isAlpha, Char.isUpper, Char.isLower, Char.isDigit,
    Bool.or_eq_true, Bool.and_eq_true, decide_eq_true_eq, beq_iff_eq, UInt32.le_iff_toNat_le,
    ge_iff_le] at inside
  simp only [Text.isBlank, Char.toNat]
  rcases inside with ((inside | inside) | inside) | rfl
  · simp at inside
    simp
    omega
  · simp at inside
    simp
    omega
  · simp at inside
    simp
    omega
  · rfl

/-- A lexeme of blanks is layout. -/
theorem Spells.isLayout_of_blank {piece : List Char} {token : Token} (lexeme : Spells piece token)
    (blank : ∀ c ∈ piece, Text.isBlank c = true) : token.isLayout = true := by
  have noDigit {digits : List Char} (nonempty : digits ≠ []) (all : ∀ c ∈ digits, c.isDigit = true)
      (blank : ∀ c ∈ digits, Text.isBlank c = true) : False := by
    obtain ⟨c, cs, rfl⟩ := List.exists_cons_of_ne_nil nonempty
    have inside : continuesName c = true := by simp [continuesName, Char.isAlphanum, all c]
    have visible := not_isBlank_of_continuesName inside
    rw [blank c List.mem_cons_self] at visible
    cases visible
  -- only layout can be spelled with blanks: everything else has a visible character
  cases lexeme with
  | whole nonempty all => exact (noDigit nonempty all blank).elim
  | fraction nonempty all =>
    exact (noDigit nonempty all fun c member => blank c (List.mem_append_left _ member)).elim
  | text => exact absurd (blank '"' List.mem_cons_self) (by decide)
  | reserved listed =>
    have visible : ∀ entry ∈ reservedWords, Text.isBlankText entry.1.toList = false := by decide
    exact absurd (List.all_eq_true.mpr blank) (Bool.eq_false_iff.mp (visible _ listed))
  | @name c cs start =>
    have visible := not_isBlank_of_continuesName (continuesName_of_startsName start)
    rw [blank c List.mem_cons_self] at visible
    cases visible
  | mark listed =>
    have visible : ∀ s ∈ Symbol.marks, Text.isBlankText s.spelling.toList = false := by decide
    exact absurd (List.all_eq_true.mpr blank) (Bool.eq_false_iff.mp (visible _ listed))
  | lineBreak | blank | comment => rfl

/-- A line feed is a lexeme of its own or stands in a quoted text. -/
theorem Spells.eq_of_lineFeed {piece : List Char} {token : Token} (lexeme : Spells piece token)
    (member : '\n' ∈ piece) :
    piece = ['\n'] ∨ ∃ content, piece = '"' :: (content ++ ['"']) ∧ '"' ∉ content := by
  have positive : token.lineFeeds ≠ 0 := by
    rw [← lexeme.count_lineFeed]
    exact Nat.pos_iff_ne_zero.mp (List.count_pos_iff.mpr member)
  cases lexeme with
  | @text content closed => exact .inr ⟨content, rfl, closed⟩
  | lineBreak => exact .inl rfl
  | reserved listed =>
    have none : ∀ entry ∈ reservedWords, entry.2.lineFeeds = 0 := by decide
    exact absurd (none _ listed) positive
  | mark listed =>
    have none : ∀ s ∈ Symbol.marks, (symbol s).lineFeeds = 0 := by decide
    exact absurd (none _ listed) positive
  | whole | fraction | name | blank | comment => exact absurd rfl positive

/-- A lexeme that starts with a quote has another one. -/
theorem Spells.closed {cs : List Char} {token : Token} (lexeme : Spells ('"' :: cs) token) :
    '"' ∈ cs := by
  obtain ⟨t, left, taken, -, -⟩ := piece?_of_spells lexeme []
  rw [List.append_nil] at taken
  have quoted : takeQuoted? cs = some (t, left) := taken
  unfold takeQuoted? at quoted
  split at quoted
  next => cases quoted
  next quote rest equal =>
    by_contra absent
    have none := (span_append (bne_of_not_mem absent) [] (by simp)).2
    rw [List.append_nil, equal] at none
    cases none

/-- The longest lexeme stays the longest in front of a line feed. -/
theorem Longest.append_lineFeed {a piece rest : List Char} {token : Token}
    (here : Longest a piece rest token) (b : List Char) :
    Longest (a ++ '\n' :: b) piece (rest ++ '\n' :: b) token := by
  refine ⟨by rw [here.cut, List.append_assoc], here.spells, ?_⟩
  intro other t lexeme starts
  by_cases short : other.length ≤ a.length
  · exact here.longest other t lexeme ((List.isPrefix_append_of_length short).mp starts)
  -- a lexeme that goes past the line feed would be a quoted text, and `piece` closes it before
  exfalso
  have past : a ++ ['\n'] <+: other := by
    refine List.prefix_of_prefix_length_le ⟨b, by simp⟩ starts ?_
    simp only [List.length_append, List.length_singleton]
    omega
  obtain ⟨c, cs, nonempty⟩ := List.exists_cons_of_ne_nil here.spells.ne_nil
  have starting := here.cut
  rw [nonempty, List.cons_append] at starting
  rw [starting] at past
  rcases lexeme.eq_of_lineFeed (past.subset (by simp)) with rfl | ⟨content, rfl, closed⟩
  · simp at past
  · rw [List.cons_append, List.cons_prefix_cons, List.prefix_concat_iff] at past
    obtain ⟨rfl, ends | inside⟩ := past
    · have last := (List.append_inj' ends rfl).2
      cases last
    · have quote := (nonempty ▸ here.spells).closed
      exact closed (inside.subset (by simp [quote]))

/-- A lexeme with a carriage return at its end is a blank or a comment, or is one without it. -/
theorem Spells.of_append_return {a : List Char} {token : Token} (lexeme : Spells (a ++ ['\r']) token)
    (nonempty : a ≠ []) : Spells a token ∧ token.isLayout = true := by
  have noReturn {p : Char → Bool} {cs : List Char} (all : ∀ c ∈ cs, p c = true)
      (equal : a ++ ['\r'] = cs) (other : p '\r' = false) : False := by
    rw [all '\r' (by simp [← equal])] at other
    cases other
  -- each kind of lexeme is left with an equation for its last character
  generalize equal : a ++ ['\r'] = piece at lexeme
  cases lexeme with
  | whole _ all _ => exact (noReturn all equal rfl).elim
  | @fraction digits behind _ _ all _ allBehind _ =>
    have either : ∀ c ∈ digits ++ '.' :: behind, (c.isDigit || c == '.') = true := by
      intro c member
      rcases List.mem_append.mp member with member | member
      · simp [all c member]
      · rcases List.mem_cons.mp member with rfl | member
        · rfl
        · simp [allBehind c member]
    exact (noReturn either equal rfl).elim
  | text =>
    have last := congrArg List.getLast? equal
    simp [List.getLast?_cons] at last
  | reserved member =>
    have none : ∀ entry ∈ reservedWords, '\r' ∉ entry.1.toList := by decide
    exact absurd (by simp [← equal]) (none _ member)
  | @name c cs start all _ =>
    have goesOn : ∀ x ∈ c :: cs, continuesName x = true := by
      simpa [continuesName_of_startsName start] using all
    exact (noReturn goesOn equal rfl).elim
  | mark member =>
    have none : ∀ s ∈ Symbol.marks, '\r' ∉ s.spelling.toList := by decide
    exact absurd (by simp [← equal]) (none _ member)
  | lineBreak =>
    have last := congrArg List.getLast? equal
    simp at last
  | blank _ all =>
    subst equal
    exact ⟨.blank nonempty fun c member => all c (List.mem_append_left _ member), rfl⟩
  | comment ends =>
    match a, equal with
    | [_], equal => simp at equal
    | _ :: _ :: inside, equal =>
      simp only [List.cons_append, List.cons.injEq] at equal
      obtain ⟨rfl, rfl, rfl⟩ := equal
      exact ⟨.comment fun member => ends (List.mem_append_left _ member), rfl⟩

/-- The longest lexeme stays the longest in front of a carriage return, or takes it in. -/
theorem Longest.append_return {a piece rest : List Char} {token : Token}
    (here : Longest a piece rest token) :
    Longest (a ++ ['\r']) piece (rest ++ ['\r']) token ∨
      rest = [] ∧ token.isLayout = true ∧ Longest (a ++ ['\r']) (a ++ ['\r']) [] token := by
  have nonempty : a ≠ [] := by
    rw [here.cut]
    exact List.append_ne_nil_of_left_ne_nil here.spells.ne_nil rest
  by_cases joins : ∃ t, Spells (a ++ ['\r']) t
  · obtain ⟨t, lexeme⟩ := joins
    obtain ⟨without, layout⟩ := lexeme.of_append_return nonempty
    -- `a` is a lexeme too, so the longest one in it is all of it
    have all := here.longest a t without (List.prefix_refl a)
    have sizes := congrArg List.length here.cut
    rw [List.length_append] at sizes
    have empty : rest = [] := List.length_eq_zero_iff.mp (by omega)
    have whole : a = piece := by simpa [empty] using here.cut
    have same : t = token := without.token_unique (whole ▸ here.spells)
    subst same
    refine .inr ⟨empty, layout, (List.append_nil _).symm, lexeme, ?_⟩
    intro other t' _ starts
    exact starts.length_le
  · refine .inl ⟨by rw [here.cut, List.append_assoc], here.spells, ?_⟩
    intro other t lexeme starts
    rcases List.prefix_concat_iff.mp starts with rfl | starts
    · exact absurd ⟨t, lexeme⟩ joins
    · exact here.longest other t lexeme starts

end Token

namespace Lexeme

open Token

/-! ## Line feeds -/

theorem Segments.append_lineFeed {a left : List Char} {pieces : List Piece}
    (cut : Segments a pieces left) (b : List Char) :
    Segments (a ++ '\n' :: b) pieces (left ++ '\n' :: b) := by
  induction cut with
  | done => exact .done
  | piece first _ ih => exact .piece (first.append_lineFeed b) ih

/-- Layout is read over. -/
theorem scan_of_layout {text rest : List Char} {token : Token} (taken : piece? text = some (token, rest))
    (layout : token.isLayout = true) (line : Nat) : scan line text = scan (line + token.lineFeeds) rest := by
  rw [scan_of_piece? taken, if_pos layout]
  cases scan (line + token.lineFeeds) rest <;> rfl

theorem scan_lineFeed (line : Nat) (b : List Char) : scan line ('\n' :: b) = scan (line + 1) b := by
  have taken : piece? ('\n' :: b) = some (.symbol .lineBreak, b) := rfl
  exact scan_of_layout taken rfl line

theorem scan_semicolon (line : Nat) (b : List Char) :
    scan line (';' :: b) = (scan line b).map (⟨.symbol .semicolon, line⟩ :: ·) := by
  have taken : piece? (';' :: b) = some (.symbol .semicolon, b) := rfl
  exact scan_of_piece? taken line

theorem ne_endOfInput_of_located {text left : List Char} {pieces : List Piece}
    (cut : Segments text pieces left) (line : Nat) :
    ∀ t ∈ located line pieces, t.token ≠ .endOfInput := by
  induction cut generalizing line with
  | done => simp
  | @piece _ p _ _ _ first _ ih =>
    intro t member
    rw [located_cons] at member
    rcases List.mem_append.mp member with here | later
    · split at here
      · cases here
      · cases List.mem_singleton.mp here
        exact first.spells.ne_endOfInput
    · exact ih _ t later

/-- A text with tokens is scanned up to a line feed behind it, and from there on anew. -/
theorem scan_append_lineFeed {line : Nat} {a : List Char} {ts : List Lexeme}
    (scanned : scan line a = .ok ts) :
    ∃ body, ts = body ++ [⟨.endOfInput, line + a.count '\n'⟩] ∧
      (∀ t ∈ body, t.token ≠ .endOfInput) ∧
      ∀ b, scan line (a ++ '\n' :: b) = (scan (line + a.count '\n' + 1) b).map (body ++ ·) := by
  obtain ⟨pieces, cut, rfl⟩ := exists_segments_of_scan scanned
  refine ⟨located line pieces, rfl, ne_endOfInput_of_located cut line, fun b => ?_⟩
  have whole := cut.flatMap_chars
  rw [List.append_nil] at whole
  rw [scan_of_segments (cut.append_lineFeed b), List.nil_append, scan_lineFeed, ← whole]

/-! ## Carriage returns -/

theorem located_of_layout {p : Piece} (layout : p.token.isLayout = true) (line : Nat) :
    located line [p] = [] := by
  rw [located_cons, if_pos layout]
  rfl

theorem Segments.append_return {a left : List Char} {pieces : List Piece}
    (cut : Segments a pieces left) (ends : left = []) :
    ∃ others, Segments (a ++ ['\r']) others [] ∧
      ∀ line, located line others = located line pieces := by
  induction cut with
  | done =>
    subst ends
    obtain ⟨chars, first⟩ := piece?_eq_some_iff.mp (rfl : piece? ['\r'] = some (.symbol .blank, []))
    exact ⟨[⟨chars, .symbol .blank⟩], .piece first .done, located_of_layout rfl⟩
  | @piece text p rest ps left first others ih =>
    obtain ⟨ps', cut', same⟩ := ih ends
    -- the return is a piece of its own, or it goes on with a last piece of layout
    rcases first.append_return with apart | ⟨rfl, layout, joined⟩
    · refine ⟨p :: ps', .piece apart cut', fun line => ?_⟩
      rw [located_cons, located_cons, same]
    · have none : ps = [] := by
        cases others with
        | done => rfl
        | piece next _ => exact absurd (List.append_eq_nil_iff.mp next.cut.symm).1 next.spells.ne_nil
      subst none
      refine ⟨[⟨text ++ ['\r'], p.token⟩], .piece joined .done, fun line => ?_⟩
      exact (located_of_layout layout line).trans (located_of_layout layout line).symm

/-- A carriage return at the end of a text with tokens changes nothing. -/
theorem scan_append_return {line : Nat} {a : List Char} {ts : List Lexeme}
    (scanned : scan line a = .ok ts) : scan line (a ++ ['\r']) = .ok ts := by
  obtain ⟨pieces, cut, rfl⟩ := exists_segments_of_scan scanned
  obtain ⟨others, cut', same⟩ := cut.append_return rfl
  rw [scan_of_segments_nil cut', same, List.count_append]
  rfl

/-! ## Blank lines -/

theorem located_of_blank {text left : List Char} {pieces : List Piece} (cut : Segments text pieces left)
    (blank : ∀ c ∈ text, Text.isBlank c = true) (line : Nat) : located line pieces = [] := by
  induction cut generalizing line with
  | done => rfl
  | @piece text p rest ps left first _ ih =>
    rw [first.cut] at blank
    have here := first.spells.isLayout_of_blank fun c member => blank c (List.mem_append_left _ member)
    have later := ih fun c member => blank c (List.mem_append_right _ member)
    rw [located_cons, if_pos here, later]
    rfl

theorem scan_blankText {line : Nat} {text : List Char} {ts : List Lexeme}
    (blank : Text.isBlankText text = true) (scanned : scan line text = .ok ts) :
    ts = [⟨.endOfInput, line + text.count '\n'⟩] := by
  obtain ⟨pieces, cut, rfl⟩ := exists_segments_of_scan scanned
  rw [located_of_blank cut (List.all_eq_true.mp blank), List.nil_append]

end Lexeme

/-! ## Texts that are put together -/

/-- Words count on from wherever the count stands. -/
theorem lexemesFrom_eq_of_wordLine {n : UInt64} {line : Nat} (same : wordLine line = n.toNat) (b : String) :
    lexemesFrom n b = match lexemes line b with
      | .ok tokens => .ok (tokens.map Lexeme.inWord)
      | .error fault => .error { fault with line := wordLine fault.line } := by
  have onward (k : Nat) : wordLine (n.toNat + k) = wordLine (line + k) := by
    rw [← same]
    exact Nat.mod_add_mod line UInt64.size k
  obtain ⟨pieces, left, cut, nothing⟩ := Lexeme.exists_segments b.toList
  cases left with
  | nil =>
    rw [lexemesFrom_of_segments_nil cut, lexemes, Lexeme.scan_of_segments_nil cut]
    simp only [List.map_append, Lexeme.located, Lexeme.map_inWord_numbered, onward]
    rfl
  | cons c rest =>
    rw [lexemesFrom_of_segments_cons cut nothing, lexemes, Lexeme.scan_of_segments_cons cut nothing]
    simp only [onward]

/-- The tokens of two texts with a line feed between them are those of the first and then those of the
    second, which starts on the line behind the end of the first.  Where the second has no tokens, its fault
    is the fault of both.  Lines are words, and so is the number `m + 1`. -/
theorem lexemesFrom_append_lineFeed {n m : UInt64} {a : String} {ts : List Lexeme}
    (scanned : lexemesFrom n a = .ok (ts ++ [⟨.endOfInput, m.toNat⟩])) (b : String) :
    lexemesFrom n (a ++ "\n" ++ b) = (lexemesFrom (m + 1) b).map (ts ++ ·) := by
  have text : (a ++ "\n" ++ b).toList = a.toList ++ '\n' :: b.toList := by simp
  cases first : lexemes n.toNat a with
  | error fault =>
    rw [lexemesFrom, first] at scanned
    cases scanned
  | ok tokens =>
    rw [lexemesFrom, first] at scanned
    obtain ⟨body, rfl, _, onward⟩ := Lexeme.scan_append_lineFeed first
    have split : body.map Lexeme.inWord ++ [⟨.endOfInput, wordLine (n.toNat + a.toList.count '\n')⟩] =
        ts ++ [⟨.endOfInput, m.toNat⟩] := by
      simpa [Lexeme.inWord] using Except.ok.inj scanned
    obtain ⟨rfl, last⟩ := List.append_inj' split rfl
    have line : wordLine (n.toNat + a.toList.count '\n') = m.toNat := by simpa using last
    -- a sum of words is the word of the sum
    have behind : wordLine (n.toNat + a.toList.count '\n' + 1) = (m + 1).toNat := by
      rw [UInt64.toNat_add, ← line]
      exact (Nat.mod_add_mod _ _ _).symm
    rw [lexemesFrom, lexemes, text, onward, lexemesFrom_eq_of_wordLine behind, lexemes]
    cases Lexeme.scan (n.toNat + a.toList.count '\n' + 1) b.toList with
    | ok others => simp [Except.map]
    | error fault => rfl

/-- A quoted text over two lines and a comment with a quote in it, in front of a text that has tokens and of
    one with a quote that nothing closes; and a text on the last line that has a number. -/
theorem lexemesFrom_append_lineFeed_quotes :
    let a := "\"(\n)\" // \""
    let last : UInt64 := 18446744073709551615
    lexemesFrom 7 a = .ok [⟨.text "(\n)", 7⟩, ⟨.endOfInput, 8⟩] ∧
    lexemesFrom 7 (a ++ "\n" ++ "; \"") = .error ⟨.unterminatedText, 9⟩ ∧
    lexemesFrom 7 (a ++ "\n" ++ ";\n") = .ok [⟨.text "(\n)", 7⟩, ⟨.symbol .semicolon, 9⟩, ⟨.endOfInput, 10⟩] ∧
    lexemesFrom last ("" ++ "\n" ++ "x") = .ok [⟨.name "x", 0⟩, ⟨.endOfInput, 0⟩] := by
  intro a last
  have scanned : lexemesFrom 7 a = .ok ([⟨.text "(\n)", 7⟩] ++ [⟨.endOfInput, (8 : UInt64).toNat⟩]) := by cbv
  have empty : lexemesFrom last "" = .ok ([] ++ [⟨.endOfInput, last.toNat⟩]) := by cbv
  have refused : lexemesFrom 9 "; \"" = .error ⟨.unterminatedText, 9⟩ := by cbv
  have second : lexemesFrom 9 ";\n" = .ok [⟨.symbol .semicolon, 9⟩, ⟨.endOfInput, 10⟩] := by cbv
  have name : lexemesFrom (last + 1) "x" = .ok [⟨.name "x", 0⟩, ⟨.endOfInput, 0⟩] := by cbv
  refine ⟨scanned, ?_, ?_, ?_⟩
  · exact (lexemesFrom_append_lineFeed scanned _).trans (congrArg _ refused)
  · exact (lexemesFrom_append_lineFeed scanned _).trans (congrArg _ second)
  · exact (lexemesFrom_append_lineFeed empty _).trans (congrArg _ name)

end SmallScript
