import SmallScript.Proofs.Token.LineBreaks

/-! # Spelling and layout

A list of lexemes can be written down with any layout between them, and the tokens that the scan finds
are those of the list: `lexemesFrom_written`.

* `Layout` is the text between two lexemes: white characters, and comments that a line feed closes.
* `Written` is a lexeme as it stands in a text, with the layout behind it.
* `Separated` says which rows of written lexemes keep them apart.  Behind the last one the text may end
  at once, or in a comment that nothing closes.

Layout is read over (`scan_layout`).  A white character ends every lexeme in front of it, as only layout
and quoted texts hold such characters (`Spells.layout_or_quoted`), and a quoted text is over at its second
quote: `Longest.before_white`.
-/

namespace SmallScript

namespace Token

/-- The characters with which the layout behind a lexeme starts. -/
def isWhite (c : Char) : Bool :=
  isSpace c || c == '\n'

theorem eq_of_isWhite {c : Char} (white : isWhite c = true) :
    c = ' ' ∨ c = '\t' ∨ c = '\r' ∨ c = '\x0c' ∨ c = '\n' := by
  simpa [isWhite, isSpace, or_assoc] using white

/-! ## White characters end a lexeme -/

/-- A white character is part of layout or stands in a quoted text. -/
theorem Spells.layout_or_quoted {piece : List Char} {token : Token} (lexeme : Spells piece token)
    {c : Char} (white : isWhite c = true) (member : c ∈ piece) :
    token.isLayout = true ∨ ∃ content, piece = '"' :: (content ++ ['"']) ∧ '"' ∉ content := by
  -- a class of characters without the five white ones
  have none {p : Char → Bool} {cs : List Char} (all : ∀ x ∈ cs, p x = true) (inside : c ∈ cs)
      (other : [' ', '\t', '\r', '\x0c', '\n'].any p = false) : False := by
    have listed : c ∈ [' ', '\t', '\r', '\x0c', '\n'] := by simpa using eq_of_isWhite white
    exact List.any_eq_false.mp other c listed (all c inside)
  have dark {cs : List Char} (other : cs.any isWhite = false) (inside : c ∈ cs) : False :=
    List.any_eq_false.mp other c inside white
  cases lexeme with
  | whole _ all _ => exact (none all member rfl).elim
  | @fraction digits behind _ _ all _ allBehind _ =>
    rcases List.mem_append.mp member with inside | inside
    · exact (none all inside rfl).elim
    · rcases List.mem_cons.mp inside with rfl | inside
      · cases white
      · exact (none allBehind inside rfl).elim
  | @text content closed => exact .inr ⟨content, rfl, closed⟩
  | reserved listed =>
    have each : ∀ entry ∈ reservedWords, entry.1.toList.any isWhite = false := by decide
    exact (dark (each _ listed) member).elim
  | @name d ds start all _ =>
    have goesOn : ∀ x ∈ d :: ds, continuesName x = true := by
      simpa [continuesName_of_startsName start] using all
    exact (none goesOn member rfl).elim
  | mark listed =>
    have each : ∀ s ∈ Symbol.marks, s.spelling.toList.any isWhite = false := by decide
    exact (dark (each _ listed) member).elim
  | lineBreak | blank | comment => exact .inl rfl

/-- Only layout goes on with a white character to longer layout. -/
theorem Spells.isLayout_of_extended {piece other : List Char} {token t : Token} {c : Char}
    (lexeme : Spells piece token) (longer : Spells other t) (layout : t.isLayout = true)
    (white : isWhite c = true) (past : piece ++ [c] <+: other) : token.isLayout = true := by
  have starts : piece <+: other := (List.prefix_append piece [c]).trans past
  cases longer with
  | whole | fraction | text | name => cases layout
  | reserved listed =>
    have visible : ∀ entry ∈ reservedWords, entry.2.isLayout = false := by decide
    rw [visible _ listed] at layout
    cases layout
  | mark listed =>
    have visible : ∀ s ∈ Symbol.marks, (symbol s).isLayout = false := by decide
    rw [visible _ listed] at layout
    cases layout
  | lineBreak =>
    have short := past.length_le
    have nonempty := List.length_pos_iff.mpr lexeme.ne_nil
    simp only [List.length_append, List.length_singleton] at short
    omega
  | blank _ all =>
    have same := lexeme.token_unique (.blank lexeme.ne_nil fun x member => all x (starts.subset member))
    rw [same]
    rfl
  | comment ends =>
    -- a single slash is no comment, but what follows it is not the second one
    match piece, lexeme, past, starts with
    | [], lexeme, _, _ => exact absurd rfl lexeme.ne_nil
    | [_], _, past, _ =>
      simp only [List.cons_append, List.nil_append, List.cons_prefix_cons] at past
      obtain ⟨-, rfl, -⟩ := past
      cases white
    | _ :: _ :: body, lexeme, _, starts =>
      simp only [List.cons_prefix_cons] at starts
      obtain ⟨rfl, rfl, inside⟩ := starts
      rw [lexeme.token_unique (.comment fun member => ends (inside.subset member))]
      rfl

/-- In front of a white character a lexeme that is no layout is the longest one. -/
theorem Longest.before_white {piece : List Char} {token : Token} (lexeme : Spells piece token)
    (visible : token.isLayout = false) {c : Char} (white : isWhite c = true) (rest : List Char) :
    Longest (piece ++ c :: rest) piece (c :: rest) token := by
  refine ⟨rfl, lexeme, ?_⟩
  intro other t longer starts
  by_contra long
  -- a longer lexeme takes the white character in
  have past : piece ++ [c] <+: other := by
    refine List.prefix_of_prefix_length_le ⟨rest, by simp⟩ starts ?_
    simp only [List.length_append, List.length_singleton]
    omega
  rcases longer.layout_or_quoted white (past.subset (by simp)) with layout | ⟨content, rfl, closed⟩
  · rw [lexeme.isLayout_of_extended longer layout white past] at visible
    cases visible
  · obtain ⟨d, ds, rfl⟩ := List.exists_cons_of_ne_nil lexeme.ne_nil
    rw [List.cons_append, List.cons_prefix_cons, List.prefix_concat_iff] at past
    obtain ⟨rfl, ends | inside⟩ := past
    · cases (List.append_inj' ends rfl).2
      cases white
    · exact closed (inside.subset (by simp [lexeme.closed]))

theorem Longest.at_end {piece : List Char} {token : Token} (lexeme : Spells piece token) :
    Longest piece piece [] token :=
  ⟨(List.append_nil piece).symm, lexeme, fun _ _ _ starts => starts.length_le⟩

/-! ## Numbers -/

/-- Digits are a number, and so are digits with a point and digits behind it. -/
theorem spells_number {digits : List Char} (nonempty : digits ≠ [])
    (all : ∀ c ∈ digits, c.isDigit = true) :
    (∃ v, Spells digits (.number v)) ∧
      ∀ behind, behind ≠ [] → (∀ c ∈ behind, c.isDigit = true) →
        ∃ v, Spells (digits ++ '.' :: behind) (.number v) := by
  refine ⟨⟨_, .whole nonempty all (read?_whole nonempty all)⟩, ?_⟩
  intro behind nonemptyBehind allBehind
  exact ⟨_, .fraction nonempty all nonemptyBehind allBehind (read?_fraction nonempty all allBehind)⟩

theorem Spells.read?_eq {piece : List Char} {v : Float} (lexeme : Spells piece (.number v)) :
    Number.read? piece = some v := by
  generalize equal : Token.number v = token at lexeme
  cases lexeme with
  | whole _ _ value | fraction _ _ _ _ value =>
    cases equal
    exact value
  | reserved listed =>
    have noNumber : ∀ entry ∈ reservedWords, ∀ v, entry.2 ≠ .number v := by
      simp [reservedWords, Symbol.reserved]
    exact absurd equal.symm (noNumber _ listed v)
  | text | name | mark | lineBreak | blank | comment => cases equal

end Token

namespace Lexeme

open Token

/-! ## Layout is read over -/

/-- Layout that may stand anywhere between two lexemes. -/
inductive Layout : List Char → Prop where
  | nil : Layout []
  | white {c rest} (white : isWhite c = true) (others : Layout rest) : Layout (c :: rest)
  | comment {body rest} (ends : '\n' ∉ body) (others : Layout rest) :
      Layout ('/' :: '/' :: (body ++ '\n' :: rest))

theorem scan_of_blank {c : Char} (space : isSpace c = true) (line : Nat) (text : List Char) :
    scan line (c :: text) = scan line (text.dropWhile isSpace) := by
  have taken : piece? (c :: text) = some (.symbol .blank, text.dropWhile isSpace) := by
    simp only [isSpace, Bool.or_eq_true, beq_iff_eq] at space
    rcases space with ((rfl | rfl) | rfl) | rfl <;> rfl
  exact scan_of_layout taken rfl line

theorem scan_space {c : Char} (space : isSpace c = true) (line : Nat) (text : List Char) :
    scan line (c :: text) = scan line text := by
  rw [scan_of_blank space]
  -- a run of spaces is one piece, from whichever of them it is taken
  cases text with
  | nil => rfl
  | cons d ds =>
    by_cases next : isSpace d = true
    · rw [List.dropWhile_cons_of_pos next, scan_of_blank next]
    · rw [List.dropWhile_cons_of_neg next]

/-- A comment goes up to a line feed or the end of the text. -/
theorem scan_comment {body : List Char} (ends : '\n' ∉ body) (line : Nat) {rest : List Char}
    (stops : ∀ c, rest.head? = some c → c = '\n') :
    scan line ('/' :: '/' :: (body ++ rest)) = scan line rest := by
  have left := (span_append (bne_of_not_mem ends) rest fun c first => by simp [stops c first]).2
  have taken : piece? ('/' :: '/' :: (body ++ rest)) = some (.symbol .comment, rest) := by
    nth_rewrite 2 [← left]
    rfl
  exact scan_of_layout taken rfl line

theorem scan_layout {gap : List Char} (layout : Layout gap) (line : Nat) (text : List Char) :
    scan line (gap ++ text) = scan (line + gap.count '\n') text := by
  induction layout generalizing line with
  | nil => rfl
  | @white c rest white _ ih =>
    rw [List.cons_append]
    rcases (Bool.or_eq_true ..).mp white with space | feed
    · have other : c ≠ '\n' := by
        rintro rfl
        cases space
      rw [scan_space space, ih, List.count_cons_of_ne other]
    · cases beq_iff_eq.mp feed
      rw [scan_lineFeed, ih, List.count_cons_self, Nat.add_assoc, Nat.add_comm 1]
  | @comment body rest ends _ ih =>
    have none : body.count '\n' = 0 := List.count_eq_zero.mpr ends
    rw [List.cons_append, List.cons_append, List.append_assoc, List.cons_append,
      scan_comment ends line (by simp), scan_lineFeed, ih]
    simp [none, Nat.add_assoc, Nat.add_comm 1]

/-! ## Written lexemes -/

/-- A lexeme that is no layout, as it is written, and the text between it and the next one. -/
structure Written extends Piece where
  behind : List Char
  spells : Spells chars token
  visible : token.isLayout = false

namespace Written

def text (w : Written) : List Char :=
  w.chars ++ w.behind

/-- There is layout behind the lexeme, and no comment with which it starts. -/
def Apart (w : Written) : Prop :=
  Layout w.behind ∧ ∃ c, w.behind.head? = some c ∧ isWhite c = true

/-- The tokens of the lexemes, each on the line that the line feeds before it lead to. -/
def tokens (line : Nat) (ws : List Written) : List Lexeme :=
  (ws.inits.zip ws).map fun (before, w) => ⟨w.token, line + (before.flatMap text).count '\n'⟩

theorem tokens_cons (line : Nat) (w : Written) (ws : List Written) :
    tokens line (w :: ws) = ⟨w.token, line⟩ :: tokens (line + w.text.count '\n') ws := by
  simp [tokens, List.zip_map_left, Nat.add_assoc]

end Written

/-- What may stand behind all layout: a comment that nothing closes. -/
def Unclosed (tail : List Char) : Prop :=
  tail = [] ∨ ∃ body, '\n' ∉ body ∧ tail = '/' :: '/' :: body

/-- The layout keeps the lexemes apart.  Only the last one needs none, if the text ends there. -/
inductive Separated : List Written → List Char → Prop where
  | done {tail} (ends : Unclosed tail) : Separated [] tail
  | last {w} (bare : w.behind = []) : Separated [w] []
  | apart {w ws tail} (gap : w.Apart) (others : Separated ws tail) : Separated (w :: ws) tail

/-- One lexeme is scanned, up to what follows it. -/
theorem scan_of_longest {text rest : List Char} (w : Written) (first : Longest text w.chars rest w.token)
    (line : Nat) :
    scan line text = (scan (line + w.chars.count '\n') rest).map (⟨w.token, line⟩ :: ·) := by
  have taken := piece?_eq_some_iff.mpr ⟨_, first⟩
  rw [scan_of_piece? taken, w.visible, ← w.spells.count_lineFeed]
  rfl

/-- One lexeme and the layout behind it are scanned. -/
theorem scan_of_apart {w : Written} (gap : w.Apart) (line : Nat) (rest : List Char) :
    scan line (w.text ++ rest) =
      (scan (line + w.text.count '\n') rest).map (⟨w.token, line⟩ :: ·) := by
  obtain ⟨layout, c, starts, white⟩ := gap
  obtain ⟨cs, behind⟩ := List.head?_eq_some_iff.mp starts
  have first : Longest (w.text ++ rest) w.chars (w.behind ++ rest) w.token := by
    rw [Written.text, List.append_assoc, behind]
    exact .before_white w.spells w.visible white (cs ++ rest)
  rw [scan_of_longest w first, scan_layout layout, Written.text, List.count_append, Nat.add_assoc]

theorem scan_of_separated {ws : List Written} {tail : List Char} (row : Separated ws tail) (line : Nat) :
    scan line (ws.flatMap Written.text ++ tail) =
      .ok (Written.tokens line ws ++
        [⟨.endOfInput, line + (ws.flatMap Written.text ++ tail).count '\n'⟩]) := by
  induction row generalizing line with
  | done ends =>
    rcases ends with rfl | ⟨body, ends, rfl⟩
    · exact scan_nil line
    · -- a comment at the end runs up to the end of the text
      have skipped : scan line ('/' :: '/' :: (body ++ [])) = scan line [] :=
        scan_comment ends line (by simp)
      have none : ('/' :: '/' :: body).count '\n' = 0 := by simpa using List.count_eq_zero.mpr ends
      rw [List.append_nil] at skipped
      rw [List.flatMap_nil, List.nil_append, skipped, scan_nil, none]
      rfl
  | @last w bare =>
    have whole : [w].flatMap Written.text ++ [] = w.chars := by simp [Written.text, bare]
    rw [whole, scan_of_longest w (.at_end w.spells), scan_nil]
    rfl
  | @apart w ws tail gap _ ih =>
    have total : (w.text ++ (ws.flatMap Written.text ++ tail)).count '\n' =
        w.text.count '\n' + (ws.flatMap Written.text ++ tail).count '\n' := List.count_append
    rw [List.flatMap_cons, List.append_assoc, scan_of_apart gap, ih, Written.tokens_cons, total,
      ← Nat.add_assoc]
    rfl

end Lexeme

open Token Lexeme in
/-- Tokens of a text that is written from lexemes, whatever the layout.  Digits with or without a
    fraction are lexemes, and the number that is meant is the one that their spelling is read as.  Lines are
    counted in words; while there are numbers for them, each is the first one plus the line feeds before. -/
theorem lexemesFrom_written :
    (∀ digits, digits ≠ [] → (∀ c ∈ digits, c.isDigit = true) →
      (∃ v, Spells digits (.number v)) ∧
        ∀ behind, behind ≠ [] → (∀ c ∈ behind, c.isDigit = true) →
          ∃ v, Spells (digits ++ '.' :: behind) (.number v)) ∧
    (∀ (w : Written) (v : Float), w.token = .number v → Number.read? w.chars = some v) ∧
    ∀ (n : UInt64) (front : List Char) (ws : List Written) (tail : List Char),
      Layout front → Separated ws tail →
        let text := front ++ (ws.flatMap Written.text ++ tail)
        let tokens := Written.tokens (n.toNat + front.count '\n') ws ++
          [⟨.endOfInput, n.toNat + text.count '\n'⟩]
        lexemesFrom n (String.ofList text) = .ok (tokens.map inWord) ∧
        (n.toNat + text.count '\n' < UInt64.size → lexemesFrom n (String.ofList text) = .ok tokens) := by
  refine ⟨fun digits => spells_number, ?_, ?_⟩
  · intro w v number
    exact Spells.read?_eq (number ▸ w.spells)
  · intro n front ws tail layout row text tokens
    have total : text.count '\n' = front.count '\n' + (ws.flatMap Written.text ++ tail).count '\n' :=
      List.count_append
    have scanned : lexemes n.toNat (String.ofList text) = .ok tokens := by
      rw [lexemes, String.toList_ofList, scan_layout layout, scan_of_separated row, Nat.add_assoc, ← total]
    constructor
    · rw [lexemesFrom, scanned]
    · intro fits
      rw [lexemesFrom_eq_lexemes (by rwa [String.toList_ofList]), scanned]

open Token Lexeme in
/-- A quoted text with a comment mark and a line feed in it, a comment with a quote in it, a name that
    starts like a reserved word, a fraction, and a slash in front of a comment that stays open. -/
theorem lexemesFrom_written_mixed :
    lexemesFrom 7 "\n\"a//\nb\" // say \"x\n iffy\t1.5\r/ // end" =
      .ok [⟨.text "a//\nb", 8⟩, ⟨.name "iffy", 10⟩,
        ⟨.number (Decimal.ofDigits ['1'] ['5']).toFloat, 10⟩, ⟨.symbol .slash, 10⟩,
        ⟨.endOfInput, 10⟩] := by
  have quoted : Spells ('"' :: (['a', '/', '/', '\n', 'b'] ++ ['"'])) (.text "a//\nb") :=
    .text (by decide)
  have name : Spells ['i', 'f', 'f', 'y'] (.name "iffy") :=
    .name (by decide) (by simp [continuesName]) (by simp [reservedWords, Symbol.reserved, Symbol.spelling])
  have number : Spells (['1'] ++ '.' :: ['5']) (.number (Decimal.ofDigits ['1'] ['5']).toFloat) :=
    .fraction (by simp) (by simp) (by simp) (by simp) (read?_fraction (by simp) (by simp) (by simp))
  have slash : Spells ['/'] (.symbol .slash) := Spells.mark (s := .slash) (by decide)
  have remark : Layout (' ' :: '/' :: '/' :: ([' ', 's', 'a', 'y', ' ', '"', 'x'] ++ '\n' :: [' '])) :=
    .white rfl (.comment (by decide) (.white rfl .nil))
  have row : Separated [⟨⟨_, _⟩, _, quoted, rfl⟩, ⟨⟨_, _⟩, ['\t'], name, rfl⟩,
      ⟨⟨_, _⟩, ['\r'], number, rfl⟩, ⟨⟨_, _⟩, [' '], slash, rfl⟩] ['/', '/', ' ', 'e', 'n', 'd'] :=
    .apart ⟨remark, ' ', rfl, rfl⟩ (.apart ⟨.white rfl .nil, '\t', rfl, rfl⟩
      (.apart ⟨.white rfl .nil, '\r', rfl, rfl⟩ (.apart ⟨.white rfl .nil, ' ', rfl, rfl⟩
        (.done (.inr ⟨[' ', 'e', 'n', 'd'], by decide, rfl⟩)))))
  have scanned := (lexemesFrom_written.2.2 7 ['\n'] _ _ (.white rfl .nil) row).2 (by simp [Written.text, UInt64.size])
  exact (congrArg (lexemesFrom 7) rfl).trans (scanned.trans rfl)

open Token Lexeme in
/-- A name on the second line of a text whose first line has the last number that there is. -/
theorem lexemesFrom_written_behind_last_line :
    let first : UInt64 := 18446744073709551615
    ∃ w : Written, Layout ['\n'] ∧ Separated [w] [] ∧
      "\nx" = String.ofList (['\n'] ++ ([w].flatMap Written.text ++ [])) ∧
      lexemesFrom first "\nx" = .ok [⟨w.token, 0⟩, ⟨.endOfInput, 0⟩] ∧
      lexemesFrom first "\nx" ≠ .ok (Written.tokens (first.toNat + ['\n'].count '\n') [w] ++
        [⟨.endOfInput, first.toNat + "\nx".toList.count '\n'⟩]) := by
  intro first
  have name : Spells ['x'] (.name "x") :=
    .name (by decide) (by simp) (by simp [reservedWords, Symbol.reserved, Symbol.spelling])
  have scanned : lexemesFrom first "\nx" = .ok [⟨.name "x", 0⟩, ⟨.endOfInput, 0⟩] := by cbv
  refine ⟨⟨⟨['x'], .name "x"⟩, [], name, rfl⟩, .white rfl .nil, .last rfl, rfl, scanned, ?_⟩
  rw [scanned]
  intro same
  have last := congrArg List.getLast? (Except.ok.inj same)
  simp [first] at last

end SmallScript
