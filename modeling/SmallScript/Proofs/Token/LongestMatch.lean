import SmallScript.Token.Scan
import Mathlib

/-! # Tokens are longest matches

What a token is, said without how it is found.  `Spells piece token` lists the lexemes of the language,
and `Longest text piece rest token` says that no longer one starts where `piece` does.

* `piece?_eq_some_iff` and `piece?_eq_none_iff`: one piece is taken off exactly as these relations say.
* `Segments text pieces left` cuts a text into longest pieces, up to `left`.
* `lexemesFrom_longest_match` is about whole texts: which ones are cut up to their end, into which tokens,
  on which lines, and what is reported of the others.

A taken piece is a lexeme (`spells_of_piece?`), and in front of a lexeme at least that lexeme is taken
(`piece?_of_spells`).  Together that makes it the longest one, so no two kinds of lexemes ever have to
be compared with each other.
-/

namespace SmallScript

/-! ## Lexemes -/

/-- Operators and punctuation. -/
def Symbol.marks : List Symbol :=
  [plus, minus, star, slash, assign, equal, notEqual, less, lessEqual, greater, greaterEqual, both,
    either, bang, openParen, closeParen, openBrace, closeBrace, comma, semicolon]

namespace Token

/-- The words that are no names, and their tokens. -/
def reservedWords : List (String × Token) :=
  ("true", .truth true) :: ("false", .truth false) ::
    Symbol.reserved.map fun s => (s.spelling, .symbol s)

/-- `Spells piece token`: the characters are a lexeme, and this is its token. -/
inductive Spells : List Char → Token → Prop where
  | whole {digits v} (some : digits ≠ []) (all : ∀ c ∈ digits, c.isDigit = true)
      (value : Number.read? digits = .some v) : Spells digits (.number v)
  | fraction {digits behind v} (some : digits ≠ []) (all : ∀ c ∈ digits, c.isDigit = true)
      (someBehind : behind ≠ []) (allBehind : ∀ c ∈ behind, c.isDigit = true)
      (value : Number.read? (digits ++ '.' :: behind) = .some v) :
      Spells (digits ++ '.' :: behind) (.number v)
  | text {content} (closed : '"' ∉ content) :
      Spells ('"' :: (content ++ ['"'])) (.text (String.ofList content))
  | reserved {word token} (member : (word, token) ∈ reservedWords) : Spells word.toList token
  | name {c cs} (start : startsName c = true) (all : ∀ x ∈ cs, continuesName x = true)
      (free : ∀ token, (String.ofList (c :: cs), token) ∉ reservedWords) :
      Spells (c :: cs) (.name (String.ofList (c :: cs)))
  | mark {s} (member : s ∈ Symbol.marks) : Spells s.spelling.toList (.symbol s)
  | lineBreak : Spells ['\n'] (.symbol .lineBreak)
  | blank {spaces} (some : spaces ≠ []) (all : ∀ c ∈ spaces, isSpace c = true) :
      Spells spaces (.symbol .blank)
  | comment {body} (ends : '\n' ∉ body) : Spells ('/' :: '/' :: body) (.symbol .comment)

/-- The text starts with the lexeme `piece`, and with no longer one. -/
structure Longest (text piece rest : List Char) (token : Token) : Prop where
  cut : text = piece ++ rest
  spells : Spells piece token
  longest : ∀ other t, Spells other t → other <+: text → other.length ≤ piece.length

/-! ## Numbers and words -/

/-- A run of characters of one kind, cut off in front of a character of another kind. -/
theorem span_append {p : Char → Bool} {run : List Char} (all : ∀ c ∈ run, p c = true)
    (rest : List Char) (stops : ∀ c, rest.head? = some c → p c = false) :
    (run ++ rest).takeWhile p = run ∧ (run ++ rest).dropWhile p = rest := by
  rw [List.takeWhile_append_of_pos all, List.dropWhile_append_of_pos all]
  cases rest with
  | nil => simp
  | cons c cs => simp [stops c rfl]

theorem bne_of_not_mem {c : Char} {cs : List Char} (absent : c ∉ cs) : ∀ x ∈ cs, (x != c) = true := by
  intro x member
  simp only [bne_iff_ne, ne_eq]
  rintro rfl
  exact absent member

theorem signed_of_isDigit {c : Char} {cs : List Char} (digit : c.isDigit = true) :
    Number.signed (c :: cs) = (false, c :: cs) := by
  unfold Number.signed
  split
  next rest equal => cases equal; cases digit
  next rest equal => cases equal; cases digit
  next => rfl

theorem ofWord?_of_isDigit {c : Char} {cs : List Char} (digit : c.isDigit = true) :
    Number.ofWord? (c :: cs) = none := by
  have lower : c.toLower = c := by
    simp only [Char.isDigit, Char.toLower] at *
    grind
  have other (word : String) (first : word.toList.head? ≠ some c) :
      String.ofList ((c :: cs).map Char.toLower) ≠ word := by
    intro same
    rw [← same] at first
    simp [lower] at first
  have notI : 'i' ≠ c := by rintro rfl; cases digit
  have notN : 'n' ≠ c := by rintro rfl; cases digit
  simp only [Number.ofWord?]
  rw [if_neg, if_neg]
  · exact other "nan" (by simpa using notN)
  · rintro (same | same)
    · exact other "inf" (by simpa using notI) same
    · exact other "infinity" (by simpa using notI) same

/-- A text that starts with a digit has no sign and is no word. -/
theorem read?_eq_ofDigits? {c : Char} {cs : List Char} (digit : c.isDigit = true) :
    Number.read? (c :: cs) = Number.ofDigits? (c :: cs) := by
  simp [Number.read?, signed_of_isDigit digit, ofWord?_of_isDigit digit]

theorem read?_whole {digits : List Char} (nonempty : digits ≠ [])
    (all : ∀ c ∈ digits, c.isDigit = true) :
    Number.read? digits = some (Decimal.ofDigits digits []).toFloat := by
  obtain ⟨taken, dropped⟩ := span_append all [] (by simp)
  rw [List.append_nil] at taken dropped
  have read : Number.read? digits = Number.ofDigits? digits := by
    obtain ⟨c, cs, rfl⟩ := List.exists_cons_of_ne_nil nonempty
    exact read?_eq_ofDigits? (all c List.mem_cons_self)
  rw [read, Number.ofDigits?, taken, dropped]
  simp [nonempty, Number.power?, Decimal.ofDigits, Decimal.toFloat]

theorem read?_fraction {digits behind : List Char} (nonempty : digits ≠ [])
    (all : ∀ c ∈ digits, c.isDigit = true) (allBehind : ∀ c ∈ behind, c.isDigit = true) :
    Number.read? (digits ++ '.' :: behind) = some (Decimal.ofDigits digits behind).toFloat := by
  obtain ⟨taken, dropped⟩ := span_append all ('.' :: behind) (by simp)
  obtain ⟨takenBehind, droppedBehind⟩ := span_append allBehind [] (by simp)
  rw [List.append_nil] at takenBehind droppedBehind
  have read : Number.read? (digits ++ '.' :: behind) = Number.ofDigits? (digits ++ '.' :: behind) := by
    obtain ⟨c, cs, rfl⟩ := List.exists_cons_of_ne_nil nonempty
    exact read?_eq_ofDigits? (all c List.mem_cons_self)
  rw [read, Number.ofDigits?, taken, dropped]
  simp [nonempty, takenBehind, droppedBehind, Number.power?, Decimal.ofDigits, Decimal.toFloat]

theorem continuesName_of_startsName {c : Char} (start : startsName c = true) :
    continuesName c = true := by
  simp only [startsName, continuesName, Char.isAlphanum, Bool.or_eq_true] at *
  rcases start with start | start <;> simp [start]

theorem not_isDigit_of_startsName {c : Char} (start : startsName c = true) : ¬ c.isDigit = true := by
  rcases (Bool.or_eq_true ..).mp start with letter | underscore
  · simp only [Char.isAlpha, Char.isUpper, Char.isLower, Char.isDigit] at *
    grind
  · rw [beq_iff_eq.mp underscore]
    decide

theorem ofWord_reserved {word : String} {token : Token} (member : (word, token) ∈ reservedWords) :
    ofWord word = token := by
  simp only [reservedWords, Symbol.reserved, List.map, List.mem_cons, Prod.mk.injEq,
    List.not_mem_nil, or_false] at member
  rcases member with ⟨rfl, rfl⟩ | ⟨rfl, rfl⟩ | ⟨rfl, rfl⟩ | ⟨rfl, rfl⟩ | ⟨rfl, rfl⟩ | ⟨rfl, rfl⟩ |
    ⟨rfl, rfl⟩ | ⟨rfl, rfl⟩ | ⟨rfl, rfl⟩ | ⟨rfl, rfl⟩ <;> rfl

theorem ofWord_free {word : String} (free : ∀ token, (word, token) ∉ reservedWords) :
    ofWord word = .name word := by
  have notTrue : word ≠ "true" := by
    rintro rfl
    exact free (.truth true) (by simp [reservedWords])
  have notFalse : word ≠ "false" := by
    rintro rfl
    exact free (.truth false) (by simp [reservedWords])
  have notReserved : Symbol.ofWord? word = none := by
    simp only [Symbol.ofWord?, List.find?_eq_none, decide_eq_true_eq]
    intro s member same
    refine free (.symbol s) ?_
    simp only [reservedWords, List.mem_cons, List.mem_map]
    exact .inr (.inr ⟨s, member, by rw [same]⟩)
  rw [ofWord, if_neg notTrue, if_neg notFalse, notReserved]

/-- Reserved words are words. -/
theorem word_of_reserved {word : String} {token : Token} (member : (word, token) ∈ reservedWords) :
    ∃ c cs, word.toList = c :: cs ∧ startsName c = true ∧ ∀ x ∈ cs, continuesName x = true := by
  have all : ∀ entry ∈ reservedWords, ∃ c cs, entry.1.toList = c :: cs ∧ startsName c = true ∧
      ∀ x ∈ cs, continuesName x = true := by
    simp [reservedWords, Symbol.reserved, Symbol.spelling, startsName, continuesName]
  exact all _ member

theorem spells_word {c : Char} {cs : List Char} (start : startsName c = true)
    (all : ∀ x ∈ cs, continuesName x = true) :
    Spells (c :: cs) (ofWord (String.ofList (c :: cs))) := by
  by_cases free : ∀ token, (String.ofList (c :: cs), token) ∉ reservedWords
  · rw [ofWord_free free]
    exact .name start all free
  · obtain ⟨token, member⟩ := not_forall_not.mp free
    rw [ofWord_reserved member]
    simpa using Spells.reserved member

/-! ## A taken piece is a lexeme -/

theorem takeWhile_all (p : Char → Bool) (text : List Char) : ∀ c ∈ text.takeWhile p, p c = true :=
  fun c member => List.all_eq_true.mp List.all_takeWhile c member

theorem spells_takeNumber {c : Char} (digit : c.isDigit = true) (cs : List Char) :
    ∃ piece, c :: cs = piece ++ (takeNumber (c :: cs)).2 ∧ Spells piece (takeNumber (c :: cs)).1 := by
  have cut : (c :: cs).takeWhile Char.isDigit ++ (c :: cs).dropWhile Char.isDigit = c :: cs :=
    List.takeWhile_append_dropWhile
  have nonempty : (c :: cs).takeWhile Char.isDigit ≠ [] := by simp [digit]
  have all := takeWhile_all Char.isDigit (c :: cs)
  have whole := Spells.whole nonempty all (read?_whole nonempty all)
  -- a point belongs to the number only if a digit follows it
  unfold takeNumber
  split
  next d rest left =>
    rw [left] at cut
    by_cases second : d.isDigit = true
    · have nonemptyBehind : (d :: rest).takeWhile Char.isDigit ≠ [] := by simp [second]
      have allBehind := takeWhile_all Char.isDigit (d :: rest)
      rw [if_pos second]
      refine ⟨_, ?_, .fraction nonempty all nonemptyBehind allBehind
        (read?_fraction nonempty all allBehind)⟩
      rw [List.append_assoc, List.cons_append, List.takeWhile_append_dropWhile, cut]
    · rw [if_neg second]
      exact ⟨_, cut.symm, whole⟩
  next => exact ⟨_, cut.symm, whole⟩

theorem spells_takeWord {c : Char} (start : startsName c = true) (cs : List Char) :
    ∃ piece, c :: cs = piece ++ (takeWord (c :: cs)).2 ∧ Spells piece (takeWord (c :: cs)).1 := by
  have goesOn := continuesName_of_startsName start
  refine ⟨(c :: cs).takeWhile continuesName, List.takeWhile_append_dropWhile.symm, ?_⟩
  simp only [takeWord, List.takeWhile_cons, goesOn, if_true]
  exact spells_word start (takeWhile_all continuesName cs)

theorem spells_takeQuoted? {cs rest : List Char} {token : Token}
    (taken : takeQuoted? cs = some (token, rest)) :
    ∃ piece, '"' :: cs = piece ++ rest ∧ Spells piece token := by
  have cut : cs.takeWhile (· != '"') ++ cs.dropWhile (· != '"') = cs :=
    List.takeWhile_append_dropWhile
  have closed : '"' ∉ cs.takeWhile (· != '"') := by
    intro member
    simpa using takeWhile_all _ cs _ member
  unfold takeQuoted? at taken
  split at taken
  next => cases taken
  next quote rest' left =>
    cases taken
    have closing : quote = '"' := by
      have stops := List.head?_dropWhile_not (· != '"') cs
      simpa [left] using stops
    rw [left, closing] at cut
    exact ⟨_, by rw [List.cons_append, List.append_assoc, List.singleton_append, cut], .text closed⟩

theorem spells_takeSymbol? {text rest : List Char} {s : Symbol}
    (taken : takeSymbol? text = some (s, rest)) :
    ∃ piece, text = piece ++ rest ∧ Spells piece (.symbol s) := by
  unfold takeSymbol? at taken
  split at taken <;> cases taken
  case h_7 body =>
    have ends : '\n' ∉ body.takeWhile (· != '\n') := by
      intro member
      simpa using takeWhile_all _ body _ member
    exact ⟨_, by simp, Spells.comment ends⟩
  case h_22 => exact ⟨['\n'], rfl, .lineBreak⟩
  all_goals exact ⟨_, rfl, .mark (by decide)⟩

/-- What is taken off the front of a text is a lexeme. -/
theorem spells_of_piece? {text rest : List Char} {token : Token}
    (taken : piece? text = some (token, rest)) :
    ∃ piece, text = piece ++ rest ∧ Spells piece token := by
  cases text with
  | nil => cases taken
  | cons c cs =>
    -- the first character decides what is taken
    simp only [piece?] at taken
    by_cases digit : c.isDigit = true
    · have number := spells_takeNumber digit cs
      rw [if_pos digit] at taken
      rwa [Option.some.inj taken] at number
    rw [if_neg digit] at taken
    by_cases start : startsName c = true
    · have word := spells_takeWord start cs
      rw [if_pos start] at taken
      rwa [Option.some.inj taken] at word
    rw [if_neg start] at taken
    by_cases space : isSpace c = true
    · rw [if_pos space] at taken
      cases taken
      refine ⟨c :: cs.takeWhile isSpace, ?_, .blank (List.cons_ne_nil _ _) ?_⟩
      · rw [List.cons_append, List.takeWhile_append_dropWhile]
      · simpa [space] using takeWhile_all isSpace cs
    rw [if_neg space] at taken
    by_cases quote : c = '"'
    · rw [if_pos quote] at taken
      rw [quote]
      exact spells_takeQuoted? taken
    rw [if_neg quote] at taken
    obtain ⟨⟨s, left⟩, symbol, equal⟩ := Option.map_eq_some_iff.mp taken
    cases equal
    exact spells_takeSymbol? symbol

/-! ## A lexeme is taken, or a longer one -/

theorem takeNumber_rest_le (text : List Char) :
    (takeNumber text).2.length ≤ (text.dropWhile Char.isDigit).length := by
  unfold takeNumber
  split
  next d rest left =>
    rw [left]
    split
    · have := length_dropWhile_le Char.isDigit (d :: rest)
      exact Nat.le_trans this (Nat.le_succ _)
    · exact Nat.le_refl _
  next => exact Nat.le_refl _

/-- In front of a lexeme a piece is taken that is at least as long.  If nothing follows the lexeme, that
    piece is the lexeme itself. -/
def TakenFrom (piece rest : List Char) (token : Token) : Prop :=
  ∃ t left, piece? (piece ++ rest) = some (t, left) ∧ left.length ≤ rest.length ∧
    (rest = [] → t = token)

theorem taken_whole {digits : List Char} {v : Float} (nonempty : digits ≠ [])
    (all : ∀ c ∈ digits, c.isDigit = true) (value : Number.read? digits = some v)
    (rest : List Char) : TakenFrom digits rest (.number v) := by
  obtain ⟨c, cs, rfl⟩ := List.exists_cons_of_ne_nil nonempty
  have digit : c.isDigit = true := all c List.mem_cons_self
  refine ⟨(takeNumber (c :: cs ++ rest)).1, (takeNumber (c :: cs ++ rest)).2, ?_, ?_, ?_⟩
  · rw [List.cons_append, piece?, if_pos digit]
  · have le := takeNumber_rest_le (c :: cs ++ rest)
    rw [List.dropWhile_append_of_pos all] at le
    exact Nat.le_trans le (length_dropWhile_le Char.isDigit rest)
  · rintro rfl
    obtain ⟨taken, dropped⟩ := span_append all [] (by simp)
    rw [read?_whole nonempty all] at value
    cases value
    rw [takeNumber, taken, dropped]

theorem taken_fraction {digits behind : List Char} {v : Float} (nonempty : digits ≠ [])
    (all : ∀ c ∈ digits, c.isDigit = true) (nonemptyBehind : behind ≠ [])
    (allBehind : ∀ c ∈ behind, c.isDigit = true)
    (value : Number.read? (digits ++ '.' :: behind) = some v) (rest : List Char) :
    TakenFrom (digits ++ '.' :: behind) rest (.number v) := by
  obtain ⟨c, cs, rfl⟩ := List.exists_cons_of_ne_nil nonempty
  obtain ⟨d, ds, rfl⟩ := List.exists_cons_of_ne_nil nonemptyBehind
  have digit : c.isDigit = true := all c List.mem_cons_self
  have second : d.isDigit = true := allBehind d List.mem_cons_self
  obtain ⟨taken, dropped⟩ := span_append all ('.' :: d :: (ds ++ rest)) (by simp)
  -- the digits end at the point, and those behind it go on into the rest
  have number : takeNumber (c :: cs ++ '.' :: d :: ds ++ rest) =
      (.number (Decimal.ofDigits (c :: cs) ((d :: ds ++ rest).takeWhile Char.isDigit)).toFloat,
        (d :: ds ++ rest).dropWhile Char.isDigit) := by
    simp only [List.append_assoc, List.cons_append] at *
    rw [takeNumber, taken, dropped]
    simp only [second, if_true]
  refine ⟨_, _, (if_pos digit).trans (congrArg some number), ?_, ?_⟩
  · rw [List.dropWhile_append_of_pos allBehind]
    exact length_dropWhile_le Char.isDigit rest
  · rintro rfl
    obtain ⟨takenBehind, -⟩ := span_append allBehind [] (by simp)
    rw [read?_fraction nonempty all allBehind] at value
    cases value
    rw [takenBehind]

theorem taken_word {c : Char} {cs : List Char} (start : startsName c = true)
    (all : ∀ x ∈ cs, continuesName x = true) (rest : List Char) :
    TakenFrom (c :: cs) rest (ofWord (String.ofList (c :: cs))) := by
  have goesOn : ∀ x ∈ c :: cs, continuesName x = true := by
    simpa [continuesName_of_startsName start] using all
  refine ⟨(takeWord (c :: cs ++ rest)).1, (takeWord (c :: cs ++ rest)).2, ?_, ?_, ?_⟩
  · rw [List.cons_append, piece?, if_neg (not_isDigit_of_startsName start), if_pos start]
  · rw [takeWord, List.dropWhile_append_of_pos goesOn]
    exact length_dropWhile_le continuesName rest
  · rintro rfl
    rw [takeWord, (span_append goesOn [] (by simp)).1]

theorem taken_text {content : List Char} (closed : '"' ∉ content) (rest : List Char) :
    TakenFrom ('"' :: (content ++ ['"'])) rest (.text (String.ofList content)) := by
  obtain ⟨taken, dropped⟩ := span_append (bne_of_not_mem closed) ('"' :: rest) (by simp)
  refine ⟨.text (String.ofList content), rest, ?_, Nat.le_refl _, fun _ => rfl⟩
  have opening : piece? ('"' :: (content ++ ['"']) ++ rest) = takeQuoted? (content ++ '"' :: rest) := by
    rw [List.cons_append, List.append_assoc, List.singleton_append]
    rfl
  rw [opening, takeQuoted?, taken, dropped]

theorem taken_symbol {c : Char} {cs left rest : List Char} {s t : Symbol}
    (other : (c.isDigit || startsName c || isSpace c || c == '"') = false)
    (taken : takeSymbol? (c :: cs ++ rest) = some (t, left)) (le : left.length ≤ rest.length)
    (same : rest = [] → t = s) : TakenFrom (c :: cs) rest (.symbol s) := by
  simp only [Bool.or_eq_false_iff, beq_eq_false_iff_ne] at other
  obtain ⟨⟨⟨noDigit, noName⟩, noSpace⟩, noQuote⟩ := other
  refine ⟨.symbol t, left, ?_, le, fun empty => by rw [same empty]⟩
  rw [List.cons_append] at taken ⊢
  simp [piece?, noDigit, noName, noSpace, noQuote, taken]

/-- A mark with which a longer symbol starts is taken for that one if the text goes on so. -/
theorem taken_extensible (c d : Char) {s longer : Symbol} {left : List Char → List Char}
    (other : (c.isDigit || startsName c || isSpace c || c == '"') = false)
    (goesOn : ∀ rest, takeSymbol? (c :: d :: rest) = some (longer, left rest))
    (le : ∀ rest, (left rest).length ≤ rest.length)
    (alone : ∀ rest, (∀ ds, rest ≠ d :: ds) → takeSymbol? (c :: rest) = some (s, rest))
    (rest : List Char) : TakenFrom [c] rest (.symbol s) := by
  by_cases longer : ∃ ds, rest = d :: ds
  · obtain ⟨ds, rfl⟩ := longer
    exact taken_symbol other (goesOn ds) (Nat.le_succ_of_le (le ds)) nofun
  · have stops := alone rest fun ds equal => longer ⟨ds, equal⟩
    exact taken_symbol other stops (Nat.le_refl _) fun _ => rfl

theorem taken_mark {s : Symbol} (member : s ∈ Symbol.marks) (rest : List Char) :
    TakenFrom s.spelling.toList rest (.symbol s) := by
  have same (n : Nat) : n ≤ n := Nat.le_refl n
  -- five marks can be the start of a longer piece
  cases s with
  | printWord | inputWord | ifWord | elseWord | elifWord | whileWord | defWord | returnWord
  | lineBreak | comment | blank => simp [Symbol.marks] at member
  | assign =>
    refine taken_extensible '=' '=' (by decide) (fun _ => rfl) (fun _ => same _) ?_ rest
    exact fun rest stops => by rw [takeSymbol?]; exact stops
  | less =>
    refine taken_extensible '<' '=' (by decide) (fun _ => rfl) (fun _ => same _) ?_ rest
    exact fun rest stops => by rw [takeSymbol?]; exact stops
  | greater =>
    refine taken_extensible '>' '=' (by decide) (fun _ => rfl) (fun _ => same _) ?_ rest
    exact fun rest stops => by rw [takeSymbol?]; exact stops
  | bang =>
    refine taken_extensible '!' '=' (by decide) (fun _ => rfl) (fun _ => same _) ?_ rest
    exact fun rest stops => by rw [takeSymbol?]; exact stops
  | slash =>
    refine taken_extensible '/' '/' (by decide) (fun _ => rfl) (length_dropWhile_le _) ?_ rest
    exact fun rest stops => by rw [takeSymbol?]; exact stops
  | _ => exact taken_symbol (by decide) rfl (same _) fun _ => rfl

theorem taken_blank {spaces : List Char} (nonempty : spaces ≠ [])
    (all : ∀ c ∈ spaces, isSpace c = true) (rest : List Char) :
    TakenFrom spaces rest (.symbol .blank) := by
  obtain ⟨c, cs, rfl⟩ := List.exists_cons_of_ne_nil nonempty
  have space : isSpace c = true := all c List.mem_cons_self
  have other : ¬ c.isDigit = true ∧ ¬ startsName c = true := by
    simp only [isSpace, Bool.or_eq_true, beq_iff_eq] at space
    rcases space with ((rfl | rfl) | rfl) | rfl <;> decide
  refine ⟨.symbol .blank, rest.dropWhile isSpace, ?_, length_dropWhile_le isSpace rest, fun _ => rfl⟩
  rw [List.cons_append, piece?, if_neg other.1, if_neg other.2, if_pos space,
    List.dropWhile_append_of_pos fun x member => all x (List.mem_cons_of_mem c member)]

theorem taken_comment {body : List Char} (ends : '\n' ∉ body) (rest : List Char) :
    TakenFrom ('/' :: '/' :: body) rest (.symbol .comment) := by
  have taken : takeSymbol? ('/' :: '/' :: body ++ rest) =
      some (.comment, rest.dropWhile (· != '\n')) := by
    rw [← List.dropWhile_append_of_pos (bne_of_not_mem ends)]
    rfl
  exact taken_symbol (by decide) taken (length_dropWhile_le _ rest) fun _ => rfl

/-- In front of a lexeme at least that lexeme is taken. -/
theorem piece?_of_spells {piece : List Char} {token : Token} (lexeme : Spells piece token)
    (rest : List Char) : TakenFrom piece rest token := by
  cases lexeme with
  | whole nonempty all value => exact taken_whole nonempty all value rest
  | fraction nonempty all nonemptyBehind allBehind value =>
    exact taken_fraction nonempty all nonemptyBehind allBehind value rest
  | text closed => exact taken_text closed rest
  | @reserved word _ member =>
    obtain ⟨c, cs, equal, start, all⟩ := word_of_reserved member
    have taken := taken_word start all rest
    rwa [← equal, String.ofList_toList, ofWord_reserved member] at taken
  | name start all free =>
    have taken := taken_word start all rest
    rwa [ofWord_free free] at taken
  | mark member => exact taken_mark member rest
  | lineBreak => exact taken_symbol (by decide) rfl (Nat.le_refl _) fun _ => rfl
  | blank nonempty all => exact taken_blank nonempty all rest
  | comment ends => exact taken_comment ends rest

/-! ## The longest lexeme is taken -/

theorem Spells.token_unique {piece : List Char} {t t' : Token} (first : Spells piece t)
    (second : Spells piece t') : t = t' := by
  obtain ⟨_, _, taken, -, same⟩ := piece?_of_spells first []
  obtain ⟨_, _, taken', -, same'⟩ := piece?_of_spells second []
  rw [taken] at taken'
  cases taken'
  exact (same rfl).symm.trans (same' rfl)

theorem piece?_eq_some_iff {text rest : List Char} {token : Token} :
    piece? text = some (token, rest) ↔ ∃ piece, Longest text piece rest token := by
  constructor
  · intro taken
    obtain ⟨piece, rfl, lexeme⟩ := spells_of_piece? taken
    refine ⟨piece, rfl, lexeme, ?_⟩
    rintro other t spelled ⟨after, equal⟩
    obtain ⟨t', left, taken', le, -⟩ := piece?_of_spells spelled after
    rw [equal, taken] at taken'
    cases taken'
    have total := congrArg List.length equal
    simp only [List.length_append] at total
    omega
  · rintro ⟨piece, rfl, lexeme, longest⟩
    obtain ⟨t, left, taken, le, -⟩ := piece?_of_spells lexeme rest
    obtain ⟨piece', equal, lexeme'⟩ := spells_of_piece? taken
    -- what is taken is a lexeme, so it is no longer than `piece`, and it is no shorter
    have short := longest piece' t lexeme' ⟨left, equal.symm⟩
    have sizes := congrArg List.length equal
    simp only [List.length_append] at sizes
    obtain ⟨rfl, rfl⟩ := List.append_inj equal (by omega)
    rw [taken, lexeme'.token_unique lexeme]

theorem piece?_eq_none_iff {text : List Char} :
    piece? text = none ↔ ∀ piece token, Spells piece token → ¬ piece <+: text := by
  constructor
  · rintro nothing piece token lexeme ⟨rest, rfl⟩
    obtain ⟨t, left, taken, -, -⟩ := piece?_of_spells lexeme rest
    rw [nothing] at taken
    cases taken
  · intro none
    rw [Option.eq_none_iff_forall_ne_some]
    rintro ⟨token, rest⟩ taken
    obtain ⟨piece, rfl, lexeme⟩ := spells_of_piece? taken
    exact none piece token lexeme (List.prefix_append piece rest)

/-- The lines that a lexeme spans are those of its token. -/
theorem Spells.count_lineFeed {piece : List Char} {token : Token} (lexeme : Spells piece token) :
    piece.count '\n' = token.lineFeeds := by
  have none {p : Char → Bool} {cs : List Char} (all : ∀ c ∈ cs, p c = true) (other : p '\n' = false) :
      cs.count '\n' = 0 := by
    rw [List.count_eq_zero]
    intro member
    rw [all _ member] at other
    cases other
  -- only a line break and a quoted text can hold line feeds
  cases lexeme with
  | whole _ all _ => exact none all rfl
  | fraction _ all _ allBehind _ =>
    rw [List.count_append, List.count_cons, none all rfl, none allBehind rfl]
    rfl
  | text closed => simp [lineFeeds]
  | reserved member =>
    have all : ∀ entry ∈ reservedWords, entry.1.toList.count '\n' = entry.2.lineFeeds := by decide
    exact all _ member
  | @name c cs start all _ =>
    have goesOn : ∀ x ∈ c :: cs, continuesName x = true := by
      simpa [continuesName_of_startsName start] using all
    exact none goesOn rfl
  | mark member =>
    have all : ∀ s ∈ Symbol.marks, s.spelling.toList.count '\n' = (symbol s).lineFeeds := by decide
    exact all _ member
  | lineBreak => rfl
  | blank _ all => exact none all rfl
  | comment ends => simp [lineFeeds, List.count_eq_zero.mpr ends]

end Token

/-! ## Whole texts -/

namespace Lexeme

open Token

/-- A lexeme where it stands in a text. -/
structure Piece where
  chars : List Char
  token : Token

/-- `Segments text pieces left`: from left to right the text is cut into the pieces, each of them the
    longest lexeme where it starts, and `left` is what remains. -/
inductive Segments : List Char → List Piece → List Char → Prop where
  | done {text} : Segments text [] text
  | piece {text p rest ps left} (first : Longest text p.chars rest p.token)
      (others : Segments rest ps left) : Segments text (p :: ps) left

/-- The pieces that are no layout.  Each stands on the line that the line feeds before it lead to, which has
    the number `number k` behind `k` line feeds. -/
def numbered (number : Nat → Nat) (pieces : List Piece) : List Lexeme :=
  (pieces.inits.zip pieces).filterMap fun (before, p) =>
    if p.token.isLayout then none
    else some ⟨p.token, number ((before.flatMap Piece.chars).count '\n')⟩

/-- The same with lines that are counted from `line` on. -/
def located (line : Nat) (pieces : List Piece) : List Lexeme :=
  numbered (line + ·) pieces

@[simp] theorem located_nil (line : Nat) : located line [] = [] := rfl

theorem located_cons (line : Nat) (p : Piece) (ps : List Piece) :
    located line (p :: ps) =
      (if p.token.isLayout then [] else [⟨p.token, line⟩]) ++ located (line + p.chars.count '\n') ps := by
  simp only [located, numbered, List.inits_cons, List.zip_cons_cons, List.filterMap_cons, List.zip_map_left,
    List.filterMap_map]
  by_cases layout : p.token.isLayout = true <;> simp [layout, ← Nat.add_assoc]

theorem map_inWord_numbered (number : Nat → Nat) (pieces : List Piece) :
    (numbered number pieces).map inWord = numbered (wordLine ∘ number) pieces := by
  unfold numbered
  rw [List.map_filterMap]
  refine List.filterMap_congr ?_
  rintro ⟨before, p⟩ _
  by_cases layout : p.token.isLayout = true <;> simp [layout, inWord]

/-- Only lines on which a piece starts are numbered. -/
theorem numbered_congr {f g : Nat → Nat} {pieces : List Piece}
    (same : ∀ k ≤ (pieces.flatMap Piece.chars).count '\n', f k = g k) : numbered f pieces = numbered g pieces := by
  refine List.filterMap_congr ?_
  rintro ⟨before, p⟩ member
  have start : before <+: pieces := (List.mem_inits before pieces).mp (List.of_mem_zip member).1
  have fewer := (start.sublist.flatMap Piece.chars).count_le '\n'
  simp only [same _ fewer]

/-! ### The scan goes from piece to piece -/

theorem scan_of_piece? {text rest : List Char} {token : Token}
    (taken : piece? text = some (token, rest)) (line : Nat) :
    scan line text = (scan (line + token.lineFeeds) rest).map
      ((if token.isLayout then [] else [⟨token, line⟩]) ++ ·) := by
  rw [scan]
  split
  next t left taken' =>
    cases taken.symm.trans taken'
    cases scan (line + token.lineFeeds) rest with
    | error fault => rfl
    | ok others => by_cases layout : token.isLayout = true <;> simp [layout, Except.map]
  next nothing =>
    rw [taken] at nothing
    cases nothing

theorem scan_nil (line : Nat) : scan line [] = .ok [⟨.endOfInput, line⟩] := by
  rw [scan]
  split
  next taken => cases taken
  next => rfl

theorem scan_of_none {c : Char} {cs : List Char} (nothing : piece? (c :: cs) = none) (line : Nat) :
    scan line (c :: cs) = .error ⟨refusal c, line⟩ := by
  rw [scan]
  split
  next taken =>
    rw [nothing] at taken
    cases taken
  next => rfl

theorem scan_of_segments {text left : List Char} {pieces : List Piece}
    (cut : Segments text pieces left) (line : Nat) :
    scan line text = (scan (line + (pieces.flatMap Piece.chars).count '\n') left).map
      (located line pieces ++ ·) := by
  induction cut generalizing line with
  | @done text =>
    simp only [List.flatMap_nil, List.count_nil, Nat.add_zero]
    cases scan line text <;> rfl
  | @piece text p rest ps left first others ih =>
    have taken := piece?_eq_some_iff.mpr ⟨_, first⟩
    rw [scan_of_piece? taken, ← first.spells.count_lineFeed, ih, located_cons, List.flatMap_cons,
      List.count_append, Nat.add_assoc]
    cases scan (line + (p.chars.count '\n' + (ps.flatMap Piece.chars).count '\n')) left <;>
      simp [Except.map]

/-- Every text can be cut up to a place where no lexeme starts. -/
theorem exists_segments (text : List Char) :
    ∃ pieces left, Segments text pieces left ∧ piece? left = none := by
  match taken : piece? text with
  | none => exact ⟨[], text, .done, taken⟩
  | some (token, rest) =>
    have shorter := piece?_shorter taken
    obtain ⟨ps, left, others, nothing⟩ := exists_segments rest
    obtain ⟨chars, first⟩ := piece?_eq_some_iff.mp taken
    exact ⟨⟨chars, token⟩ :: ps, left, .piece first others, nothing⟩
termination_by text.length

theorem Segments.flatMap_chars {text left : List Char} {pieces : List Piece}
    (cut : Segments text pieces left) : text = pieces.flatMap Piece.chars ++ left := by
  induction cut with
  | done => rfl
  | piece first _ ih => rw [first.cut, ih, List.flatMap_cons, List.append_assoc]

theorem scan_of_segments_nil {text : List Char} {pieces : List Piece}
    (cut : Segments text pieces []) (line : Nat) :
    scan line text = .ok (located line pieces ++ [⟨.endOfInput, line + text.count '\n'⟩]) := by
  rw [scan_of_segments cut, scan_nil, cut.flatMap_chars, List.append_nil]
  rfl

theorem scan_of_segments_cons {text rest : List Char} {c : Char} {pieces : List Piece}
    (cut : Segments text pieces (c :: rest)) (nothing : piece? (c :: rest) = none) (line : Nat) :
    scan line text = .error ⟨refusal c, line + (pieces.flatMap Piece.chars).count '\n'⟩ := by
  rw [scan_of_segments cut, scan_of_none nothing]
  rfl

/-- A text that has tokens is cut into pieces up to its end. -/
theorem exists_segments_of_scan {line : Nat} {text : List Char} {ts : List Lexeme}
    (scanned : scan line text = .ok ts) : ∃ pieces, Segments text pieces [] ∧
      ts = located line pieces ++ [⟨.endOfInput, line + text.count '\n'⟩] := by
  obtain ⟨pieces, left, cut, nothing⟩ := exists_segments text
  cases left with
  | nil =>
    rw [scan_of_segments_nil cut] at scanned
    exact ⟨pieces, cut, (Except.ok.inj scanned).symm⟩
  | cons c rest =>
    rw [scan_of_segments_cons cut nothing] at scanned
    cases scanned

end Lexeme

open Token Lexeme

/-! ## Tokens and faults -/

/-- A text has tokens exactly if it can be cut into longest lexemes up to its end.  Then they are those of
    the pieces that are no layout, each on the line on which it starts, and the end of the input stands
    on the last line.  Otherwise the fault is at the first place that the cut comes to where no lexeme
    starts: an open quote, or a character that starts nothing.  The line behind `k` line feeds has the
    number `number k`. -/
structure LongestMatch (source : String) (number : Nat → Nat) (scanned : Except SyntaxFault (List Lexeme)) : Prop where
  tokens : ∀ ts, scanned = .ok ts ↔ ∃ pieces, Segments source.toList pieces [] ∧
    ts = numbered number pieces ++ [⟨.endOfInput, number (source.toList.count '\n')⟩]
  fault : ∀ fault, scanned = .error fault ↔ ∃ pieces c rest, Segments source.toList pieces (c :: rest) ∧
    (∀ piece token, Spells piece token → ¬ piece <+: c :: rest) ∧
    fault = ⟨if c = '"' then .unterminatedText else .invalidCharacter c,
      number ((pieces.flatMap Piece.chars).count '\n')⟩

theorem LongestMatch.of_segments {source : String} {number : Nat → Nat} {scanned : Except SyntaxFault (List Lexeme)}
    (whole : ∀ {pieces}, Segments source.toList pieces [] →
      scanned = .ok (numbered number pieces ++ [⟨.endOfInput, number (source.toList.count '\n')⟩]))
    (stopped : ∀ {pieces c rest}, Segments source.toList pieces (c :: rest) → piece? (c :: rest) = none →
      scanned = .error ⟨refusal c, number ((pieces.flatMap Piece.chars).count '\n')⟩) :
    LongestMatch source number scanned := by
  -- every text has one such cut, so both directions compare with it
  obtain ⟨pieces, left, cut, nothing⟩ := exists_segments source.toList
  constructor
  · intro ts
    constructor
    · rintro rfl
      cases left with
      | nil => exact ⟨pieces, cut, Except.ok.inj (whole cut)⟩
      | cons c rest => cases stopped cut nothing
    · rintro ⟨pieces, cut, rfl⟩
      exact whole cut
  · intro fault
    constructor
    · rintro rfl
      cases left with
      | nil => cases whole cut
      | cons c rest =>
        exact ⟨pieces, c, rest, cut, piece?_eq_none_iff.mp nothing, Except.error.inj (stopped cut nothing)⟩
    · rintro ⟨pieces, c, rest, cut, nothing, rfl⟩
      exact stopped cut (piece?_eq_none_iff.mpr nothing)

theorem lexemesFrom_of_segments_nil {source : String} {pieces : List Piece} (cut : Segments source.toList pieces [])
    (first : UInt64) : lexemesFrom first source = .ok (numbered (fun k => wordLine (first.toNat + k)) pieces ++
      [⟨.endOfInput, wordLine (first.toNat + source.toList.count '\n')⟩]) := by
  unfold lexemesFrom lexemes
  rw [scan_of_segments_nil cut]
  dsimp only
  rw [List.map_append, located, map_inWord_numbered]
  rfl

theorem lexemesFrom_of_segments_cons {source : String} {pieces : List Piece} {c : Char} {rest : List Char}
    (cut : Segments source.toList pieces (c :: rest)) (nothing : piece? (c :: rest) = none) (first : UInt64) :
    lexemesFrom first source =
      .error ⟨refusal c, wordLine (first.toNat + (pieces.flatMap Piece.chars).count '\n')⟩ := by
  unfold lexemesFrom lexemes
  rw [scan_of_segments_cons cut nothing]

theorem wordLine_of_lt {line : Nat} (fits : line < UInt64.size) : wordLine line = line :=
  Nat.mod_eq_of_lt fits

/-- While the lines of a text have numbers, words count them as numbers do. -/
theorem lexemesFrom_eq_lexemes {first : UInt64} {source : String}
    (fits : first.toNat + source.toList.count '\n' < UInt64.size) :
    lexemesFrom first source = lexemes first.toNat source := by
  obtain ⟨pieces, left, cut, nothing⟩ := exists_segments source.toList
  have within : (pieces.flatMap Piece.chars).count '\n' ≤ source.toList.count '\n' := by
    rw [cut.flatMap_chars, List.count_append]
    exact Nat.le_add_right _ _
  have counted (k : Nat) (le : k ≤ source.toList.count '\n') : wordLine (first.toNat + k) = first.toNat + k :=
    wordLine_of_lt (by omega)
  cases left with
  | nil =>
    rw [lexemesFrom_of_segments_nil cut, lexemes, scan_of_segments_nil cut, counted _ (Nat.le_refl _), located,
      numbered_congr fun k le => counted k (le.trans within)]
  | cons c rest =>
    rw [lexemesFrom_of_segments_cons cut nothing, lexemes, scan_of_segments_cons cut nothing, counted _ within]

/-- Tokens are longest matches, whichever line a text starts on, and lines are counted in words.  Where the
    last line of the text still has a number, each line is the first one plus the line feeds before. -/
theorem lexemesFrom_longest_match (first : UInt64) (source : String) :
    LongestMatch source (fun k => wordLine (first.toNat + k)) (lexemesFrom first source) ∧
    (first.toNat + source.toList.count '\n' < UInt64.size →
      LongestMatch source (first.toNat + ·) (lexemesFrom first source)) := by
  constructor
  · exact .of_segments (lexemesFrom_of_segments_nil · first) (lexemesFrom_of_segments_cons · · first)
  · intro fits
    rw [lexemesFrom_eq_lexemes fits]
    exact .of_segments (scan_of_segments_nil · first.toNat) (scan_of_segments_cons · · first.toNat)

/-- Behind the last word there is no further number: the line behind it is line 0. -/
theorem lexemesFrom_behind_last_line :
    let first : UInt64 := 18446744073709551615
    lexemesFrom first "\nx" = .ok [⟨.name "x", 0⟩, ⟨.endOfInput, 0⟩] ∧
    ¬ LongestMatch "\nx" (first.toNat + ·) (lexemesFrom first "\nx") := by
  intro first
  have scanned : lexemesFrom first "\nx" = .ok [⟨.name "x", 0⟩, ⟨.endOfInput, 0⟩] := by cbv
  refine ⟨scanned, fun cut => ?_⟩
  obtain ⟨pieces, _, tokens⟩ := (cut.tokens _).mp scanned
  have last := congrArg List.getLast? tokens
  simp [first] at last

end SmallScript
