import SmallScript.Fault

/-! # From text to tokens

A script is cut, from left to right, into the longest pieces that are tokens.  `Token.piece?` takes
one piece off the front of a text, layout included; `Lexeme.scan` goes through the whole text, counts
lines and leaves the layout out.

The rules for a piece:

* a number is digits, with a point and digits behind it if both are there;
* a text goes from one double quote to the next and may hold anything else, line feeds included;
* a word is letters, digits and underscores, no digit first;
* a comment goes from two slashes to the end of the line;
* of two operators that fit, the longer one is meant.
-/

namespace SmallScript

namespace Token

/-! ## One piece -/

/-- Letters are the 52 of ASCII. -/
def startsName (c : Char) : Bool :=
  c.isAlpha || c == '_'

/-- A name goes on with letters, digits and underscores. -/
def continuesName (c : Char) : Bool :=
  c.isAlphanum || c == '_'

/-- Spaces, tabulators, carriage returns and form feeds separate tokens within a line. -/
def isSpace (c : Char) : Bool :=
  c == ' ' || c == '\t' || c == '\r' || c == '\x0c'

/-- A word is a truth value, a reserved word or else a name. -/
def ofWord (word : String) : Token :=
  if word = "true" then .truth true
  else if word = "false" then .truth false
  else
    match Symbol.ofWord? word with
    | some s => .symbol s
    | none => .name word

/-- Takes a number off the front of a text that starts with a digit. -/
def takeNumber (text : List Char) : Token × List Char :=
  let whole := text.takeWhile Char.isDigit
  match text.dropWhile Char.isDigit with
  | '.' :: c :: rest =>
    if c.isDigit then
      let fraction := (c :: rest).takeWhile Char.isDigit
      (.number (Decimal.ofDigits whole fraction).toFloat, (c :: rest).dropWhile Char.isDigit)
    else (.number (Decimal.ofDigits whole []).toFloat, '.' :: c :: rest)
  | rest => (.number (Decimal.ofDigits whole []).toFloat, rest)

/-- Takes a word off the front of a text that starts with a letter or an underscore. -/
def takeWord (text : List Char) : Token × List Char :=
  (ofWord (String.ofList (text.takeWhile continuesName)), text.dropWhile continuesName)

/-- Takes the rest of a quoted text, its closing quote included. -/
def takeQuoted? (text : List Char) : Option (Token × List Char) :=
  match text.dropWhile (· != '"') with
  | [] => none
  | _ :: rest => some (.text (String.ofList (text.takeWhile (· != '"'))), rest)

/-- Takes an operator, punctuation, a line break or a comment. -/
def takeSymbol? : List Char → Option (Symbol × List Char)
  -- the marks of two characters come before those they start with
  | '=' :: '=' :: rest => some (.equal, rest)
  | '!' :: '=' :: rest => some (.notEqual, rest)
  | '<' :: '=' :: rest => some (.lessEqual, rest)
  | '>' :: '=' :: rest => some (.greaterEqual, rest)
  | '&' :: '&' :: rest => some (.both, rest)
  | '|' :: '|' :: rest => some (.either, rest)
  | '/' :: '/' :: rest => some (.comment, rest.dropWhile (· != '\n'))
  | '+' :: rest => some (.plus, rest)
  | '-' :: rest => some (.minus, rest)
  | '*' :: rest => some (.star, rest)
  | '/' :: rest => some (.slash, rest)
  | '=' :: rest => some (.assign, rest)
  | '<' :: rest => some (.less, rest)
  | '>' :: rest => some (.greater, rest)
  | '!' :: rest => some (.bang, rest)
  | '(' :: rest => some (.openParen, rest)
  | ')' :: rest => some (.closeParen, rest)
  | '{' :: rest => some (.openBrace, rest)
  | '}' :: rest => some (.closeBrace, rest)
  | ',' :: rest => some (.comma, rest)
  | ';' :: rest => some (.semicolon, rest)
  | '\n' :: rest => some (.lineBreak, rest)
  | _ => none

/-- Takes the longest token off the front of a text, if one starts there. -/
def piece? : List Char → Option (Token × List Char)
  | [] => none
  | c :: cs =>
    if c.isDigit then some (takeNumber (c :: cs))
    else if startsName c then some (takeWord (c :: cs))
    else if isSpace c then some (.symbol .blank, cs.dropWhile isSpace)
    else if c = '"' then takeQuoted? cs
    else (takeSymbol? (c :: cs)).map fun (s, rest) => (.symbol s, rest)

/-! ## A piece is never empty -/

theorem length_dropWhile_le (p : Char → Bool) (text : List Char) :
    (text.dropWhile p).length ≤ text.length :=
  (List.dropWhile_sublist p).length_le

theorem takeNumber_shorter {c : Char} (cs : List Char) (h : c.isDigit = true) :
    (takeNumber (c :: cs)).2.length < (c :: cs).length := by
  have hle := length_dropWhile_le Char.isDigit cs
  have hcs : (c :: cs).dropWhile Char.isDigit = cs.dropWhile Char.isDigit := by
    rw [List.dropWhile_cons, if_pos h]
  unfold takeNumber
  rw [hcs]
  split
  · next d rest heq =>
    rw [heq] at hle
    have := length_dropWhile_le Char.isDigit (d :: rest)
    simp only [List.length_cons] at *
    split
    · exact Nat.lt_of_le_of_lt this (by omega)
    · simp only [List.length_cons]; omega
  · simp only [List.length_cons]; omega

theorem takeWord_shorter {c : Char} (cs : List Char) (h : startsName c = true) :
    (takeWord (c :: cs)).2.length < (c :: cs).length := by
  have hc : continuesName c = true := by
    simp only [startsName, continuesName, Char.isAlphanum, Bool.or_eq_true] at *
    rcases h with h | h <;> simp [h]
  have := length_dropWhile_le continuesName cs
  simp only [takeWord, List.dropWhile_cons, if_pos hc, List.length_cons]
  omega

theorem takeQuoted?_shorter {text rest : List Char} {t : Token}
    (h : takeQuoted? text = some (t, rest)) : rest.length < text.length := by
  have hle := length_dropWhile_le (· != '"') text
  unfold takeQuoted? at h
  split at h
  · contradiction
  · next heq =>
    rw [heq, List.length_cons] at hle
    cases h
    omega

theorem takeSymbol?_shorter {text rest : List Char} {s : Symbol}
    (h : takeSymbol? text = some (s, rest)) : rest.length < text.length := by
  unfold takeSymbol? at h
  split at h <;> cases h <;> simp only [List.length_cons] <;> try omega
  exact Nat.lt_of_le_of_lt (length_dropWhile_le _ _) (by omega)

/-- What follows a piece is shorter than the text that the piece was taken from. -/
theorem piece?_shorter {text rest : List Char} {t : Token} (h : piece? text = some (t, rest)) :
    rest.length < text.length := by
  unfold piece? at h
  split at h
  · contradiction
  · next c cs =>
    split at h
    · next hd =>
      have := takeNumber_shorter cs hd
      rw [Option.some.inj h] at this
      exact this
    · split at h
      · next hn =>
        have := takeWord_shorter cs hn
        rw [Option.some.inj h] at this
        exact this
      · split at h
        · cases h
          exact Nat.lt_succ_of_le (length_dropWhile_le _ _)
        · split at h
          · exact Nat.lt_succ_of_lt (takeQuoted?_shorter h)
          · obtain ⟨⟨s, r⟩, hs, heq⟩ := Option.map_eq_some_iff.1 h
            cases heq
            exact takeSymbol?_shorter hs

end Token

/-! ## The whole text -/

namespace Lexeme

/-- Why no piece starts with this character. -/
def refusal (c : Char) : SyntaxCause :=
  if c = '"' then .unterminatedText else .invalidCharacter c

/-- The tokens of a text whose first character stands on `line`, closed by the end of the input. -/
def scan (line : Nat) (text : List Char) : Except SyntaxFault (List Lexeme) :=
  match _h : Token.piece? text with
  | some (token, rest) => do
    let others ← scan (line + token.lineFeeds) rest
    return if token.isLayout then others else ⟨token, line⟩ :: others
  | none =>
    match text with
    | [] => .ok [⟨.endOfInput, line⟩]
    | c :: _ => .error ⟨refusal c, line⟩
termination_by text.length
decreasing_by exact Token.piece?_shorter _h

end Lexeme

/-- The tokens of a script whose first line has the number `line`. -/
def lexemes (line : Nat) (source : String) : Except SyntaxFault (List Lexeme) :=
  Lexeme.scan line source.toList

/-! ## Any first line

A script starts on line 1, and no text is so long that its lines could not be numbered from there.  A text
that is scanned from a line of the caller's choice can run out of numbers: lines are counted in words of 64
bits, and behind the last word counting goes on with 0. -/

def wordLine (line : Nat) : Nat :=
  line % UInt64.size

def Lexeme.inWord (t : Lexeme) : Lexeme :=
  { t with line := wordLine t.line }

def lexemesFrom (first : UInt64) (source : String) : Except SyntaxFault (List Lexeme) :=
  match lexemes first.toNat source with
  | .ok tokens => .ok (tokens.map Lexeme.inWord)
  | .error fault => .error { fault with line := wordLine fault.line }

end SmallScript
