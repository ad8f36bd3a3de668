import SmallScript.Proofs.Grammar.Completeness

/-! # Where statements end

Two lists of statements with a semicolon between them are one list.  Conversely a list of statements comes
apart at every semicolon outside all braces.  Such a semicolon belongs to no statement, because the
semicolons of a statement stand in its blocks.

* `Balanced tokens`: braces are closed as often as they are opened, and never before.
* `Shielded tokens`: braces are balanced, and every semicolon stands inside some of them.
* `Derives.shielded`: so are the tokens of all phrases, except for lists of statements.
* `Derives.append_statements` and `Derives.split_statements` are the two directions.
-/

namespace SmallScript.Grammar

/-! ## Braces -/

def occurrences (s : Symbol) (tokens : List Lexeme) : Nat :=
  tokens.countP (·.token = .symbol s)

@[simp] theorem occurrences_nil (s : Symbol) : occurrences s [] = 0 := rfl

@[simp] theorem occurrences_cons (s : Symbol) (t : Lexeme) (tokens : List Lexeme) :
    occurrences s (t :: tokens) = occurrences s tokens + if t.token = .symbol s then 1 else 0 := by
  simp [occurrences, List.countP_cons]

@[simp] theorem occurrences_append (s : Symbol) (ts us : List Lexeme) :
    occurrences s (ts ++ us) = occurrences s ts + occurrences s us :=
  List.countP_append

theorem occurrences_eq_zero {s : Symbol} {tokens : List Lexeme} (absent : ∀ t ∈ tokens, t.token ≠ .symbol s) :
    occurrences s tokens = 0 := by
  simpa [occurrences, List.countP_eq_zero] using absent

/-- No start of the tokens closes more braces than it opens, and all together close as many. -/
structure Balanced (tokens : List Lexeme) : Prop where
  starts : ∀ start, start <+: tokens → occurrences .closeBrace start ≤ occurrences .openBrace start
  whole : occurrences .closeBrace tokens = occurrences .openBrace tokens

/-- Braces are balanced, and in front of every semicolon more of them are opened than closed. -/
structure Shielded (tokens : List Lexeme) : Prop extends Balanced tokens where
  semicolons : ∀ before l behind, tokens = before ++ ⟨.symbol .semicolon, l⟩ :: behind →
    occurrences .closeBrace before < occurrences .openBrace before

def isPlain : Token → Bool
  | .symbol .openBrace | .symbol .closeBrace | .symbol .semicolon => false
  | _ => true

/-- A token in a row that is put together stands in one of its two parts. -/
theorem cut_append {ts us before behind : List Lexeme} {t : Lexeme} (cut : ts ++ us = before ++ t :: behind) :
    (∃ more, before = ts ++ more ∧ us = more ++ t :: behind) ∨
      ∃ more, ts = before ++ t :: more ∧ behind = more ++ us := by
  rcases List.append_eq_append_iff.mp cut with second | ⟨more, rfl, rest⟩
  · exact .inl second
  · rcases List.cons_eq_append_iff.mp rest with ⟨rfl, rfl⟩ | ⟨more, rfl, rfl⟩
    · exact .inl ⟨[], by simp, rfl⟩
    · exact .inr ⟨more, rfl, rfl⟩

namespace Balanced

variable {ts us : List Lexeme}

/-- Without braces there is nothing to balance. -/
theorem of_absent (absent : ∀ t ∈ ts, t.token ≠ .symbol .openBrace ∧ t.token ≠ .symbol .closeBrace) :
    Balanced ts := by
  have none {start : List Lexeme} (within : start <+: ts) :
      occurrences .closeBrace start = 0 ∧ occurrences .openBrace start = 0 :=
    ⟨occurrences_eq_zero fun t member => (absent t (within.subset member)).2,
      occurrences_eq_zero fun t member => (absent t (within.subset member)).1⟩
  refine ⟨fun start within => ?_, ?_⟩
  · obtain ⟨closed, opened⟩ := none within
    omega
  · obtain ⟨closed, opened⟩ := none (List.prefix_refl ts)
    omega

theorem append (first : Balanced ts) (second : Balanced us) : Balanced (ts ++ us) where
  starts := by
    intro start within
    rcases List.prefix_or_prefix_of_prefix within (List.prefix_append ts us) with short | ⟨more, rfl⟩
    · exact first.starts start short
    · have here := first.whole
      have later := second.starts more ((List.prefix_append_right_inj ts).mp within)
      simp only [occurrences_append]
      omega
  whole := by
    have here := first.whole
    have later := second.whole
    simp only [occurrences_append]
    omega

/-- What is left behind balanced tokens is balanced if all of them are. -/
theorem behind (first : Balanced ts) (all : Balanced (ts ++ us)) : Balanced us where
  starts := by
    intro start within
    have here := first.whole
    have both := all.starts (ts ++ start) ((List.prefix_append_right_inj ts).mpr within)
    simp only [occurrences_append] at both
    omega
  whole := by
    have here := first.whole
    have both := all.whole
    simp only [occurrences_append] at both
    omega

theorem semicolon (l : Nat) : Balanced [⟨.symbol .semicolon, l⟩] :=
  of_absent (by simp)

/-- Braces around balanced tokens shield all that is between them. -/
theorem braces (content : Balanced ts) (o c : Nat) :
    Shielded (⟨.symbol .openBrace, o⟩ :: (ts ++ [⟨.symbol .closeBrace, c⟩])) where
  starts := by
    intro start within
    rcases List.prefix_cons_iff.mp within with rfl | ⟨inside, rfl, short⟩
    · simp
    have all := content.whole
    rcases List.prefix_concat_iff.mp short with rfl | shorter
    · simp [all]
    · have here := content.starts inside shorter
      simp
      omega
  whole := by simp [content.whole]
  semicolons := by
    intro before l behind cut
    -- the semicolon stands behind the opening brace and in front of the closing one
    obtain ⟨⟨⟩, _⟩ | ⟨inside, rfl, rest⟩ := List.cons_eq_append_iff.mp cut
    · simp at *
    rcases cut_append rest with ⟨more, rfl, last⟩ | ⟨more, rfl, _⟩
    · rcases List.cons_eq_append_iff.mp last with ⟨rfl, other⟩ | ⟨_, rfl, other⟩
      · cases other
      · simp at other
    · have here := content.starts inside (List.prefix_append _ _)
      simp
      omega

end Balanced

namespace Shielded

variable {ts us : List Lexeme}

theorem of_plain (plain : ∀ t ∈ ts, isPlain t.token = true) : Shielded ts where
  toBalanced := by
    refine .of_absent fun t member => ⟨?_, ?_⟩ <;>
    · intro brace
      have free := plain t member
      rw [brace] at free
      cases free
  semicolons := by
    rintro before l behind rfl
    cases plain ⟨.symbol .semicolon, l⟩ (by simp)

theorem append (first : Shielded ts) (second : Shielded us) : Shielded (ts ++ us) where
  toBalanced := first.toBalanced.append second.toBalanced
  semicolons := by
    intro before l behind cut
    rcases cut_append cut with ⟨more, rfl, later⟩ | ⟨more, here, _⟩
    · have balanced := first.whole
      have inside := second.semicolons more l behind later
      simp only [occurrences_append]
      omega
    · exact first.semicolons before l more here

theorem cons {t : Lexeme} (plain : isPlain t.token = true) (rest : Shielded ts) : Shielded (t :: ts) := by
  have single : Shielded [t] := of_plain (by simpa using plain)
  exact single.append rest

/-- No semicolon stands behind balanced tokens. -/
theorem not_cut (all : Shielded ts) {before behind : List Lexeme} {l : Nat} (balanced : Balanced before)
    (cut : ts = before ++ ⟨.symbol .semicolon, l⟩ :: behind) : False :=
  Nat.ne_of_lt (all.semicolons before l behind cut) balanced.whole

end Shielded

/-! ## Phrases -/

theorem OfExpression.shielded {ts : List Lexeme} (content : OfExpression ts) : Shielded ts := by
  refine .of_plain fun ⟨token, _⟩ member => ?_
  have inside := content.all _ member
  cases token with
  | symbol s => cases s <;> first | rfl | cases inside
  | _ => rfl

theorem Parameters.shielded {ns : List String} {ts : List Lexeme} (params : Parameters ns ts) :
    Shielded ts := by
  cases params with
  | none => exact .of_plain (by simp [isPlain])
  | some names =>
    refine Shielded.append ?_ (.of_plain (by simp [isPlain]))
    induction names with
    | last first =>
      obtain ⟨l, rfl⟩ := first
      exact .of_plain (by simp [isPlain])
    | next first _ ih =>
      obtain ⟨l, rfl⟩ := first
      exact .cons rfl (.cons rfl ih)

/-- What is known of the braces of a phrase. -/
def Phrase.BracesIn (ts : List Lexeme) : Phrase → Prop
  | .statements _ => Balanced ts
  | _ => Shielded ts

theorem Derives.braces {limit d : Nat} {phrase : Phrase} {ts : List Lexeme} (h : Derives limit d phrase ts) :
    phrase.isExpression = false → phrase.BracesIn ts := by
  -- tokens of expressions have no braces, so only the blocks matter
  induction h with
  | block _ _ ih => exact fun _ => (ih rfl).braces _ _
  | branches test _ _ _ ih₁ ih₂ =>
    intro _
    exact .cons rfl ((test.ofExpression rfl).shielded.append (.cons rfl ((ih₁ rfl).append (ih₂ rfl))))
  | noAlternative => exact fun _ => .of_plain (by simp)
  | otherwise _ ih => exact fun _ => .cons rfl (ih rfl)
  | elseIf _ _ ih => exact fun _ => .cons rfl (.cons rfl (ih rfl))
  | elif _ _ ih => exact fun _ => .cons rfl (ih rfl)
  | print content => exact fun _ => .cons rfl (content.ofExpression rfl).shielded
  | ret content => exact fun _ => .cons rfl (content.ofExpression rfl).shielded
  | conditional _ ih => exact fun _ => .cons rfl (ih rfl)
  | loop test _ _ ih =>
    intro _
    exact .cons rfl (.cons rfl ((test.ofExpression rfl).shielded.append (.cons rfl (ih rfl))))
  | function params _ ih => exact fun _ => .cons rfl (.cons rfl (.cons rfl (params.shielded.append (ih rfl))))
  | assignment content => exact fun _ => .cons rfl (.cons rfl (content.ofExpression rfl).shielded)
  | evaluation content => exact fun _ => (content.ofExpression rfl).shielded
  | nothing => exact fun _ => .of_absent (by simp)
  | stray _ ih => exact fun _ => (Balanced.semicolon _).append (ih rfl)
  | last _ ih => exact fun _ => (ih rfl).toBalanced
  | separated _ _ ih₁ ih₂ => exact fun _ => (ih₁ rfl).toBalanced.append ((Balanced.semicolon _).append (ih₂ rfl))
  | adjacent _ _ _ ih₁ ih₂ => exact fun _ => (ih₁ rfl).toBalanced.append (ih₂ rfl)
  | _ => simp [Phrase.isExpression]

/-- The semicolons of a statement stand in its blocks. -/
theorem Derives.shielded {limit d : Nat} {x : Node} {ts : List Lexeme} (h : Derives limit d (.statement x) ts) :
    Shielded ts :=
  h.braces rfl

/-! ## Lists of statements -/

/-- Two lists of statements with a semicolon between them are one. -/
theorem Derives.append_statements {limit d l : Nat} {xs ys : List Node} {ts us : List Lexeme}
    (first : Derives limit d (.statements xs) ts) (second : Derives limit d (.statements ys) us) :
    Derives limit d (.statements (xs ++ ys)) (ts ++ ⟨.symbol .semicolon, l⟩ :: us) := by
  -- the induction is along the first list, which ends where the second one is put
  generalize phrase : Phrase.statements xs = all at first
  induction first generalizing xs with
  | nothing =>
    cases phrase
    exact .stray second
  | stray _ ih =>
    cases phrase
    exact .stray (ih second rfl)
  | last head =>
    cases phrase
    exact .separated head second
  | separated head _ _ ih =>
    cases phrase
    rw [List.append_assoc]
    exact .separated head (ih second rfl)
  | adjacent closed head _ _ ih =>
    cases phrase
    rw [List.append_assoc]
    exact .adjacent closed head (ih second rfl)
  | _ => cases phrase

/-- A list of statements comes apart at a semicolon outside all braces. -/
theorem Derives.split_statements {limit d l : Nat} {zs : List Node} {ts before behind : List Lexeme}
    (h : Derives limit d (.statements zs) ts) (balanced : Balanced before)
    (cut : ts = before ++ ⟨.symbol .semicolon, l⟩ :: behind) :
    ∃ xs ys, zs = xs ++ ys ∧ Derives limit d (.statements xs) before ∧
      Derives limit d (.statements ys) behind := by
  generalize phrase : Phrase.statements zs = all at h
  -- the semicolon is a stray one, or one that separates, or it is looked for further behind
  induction h generalizing zs before with
  | nothing =>
    simp at cut
  | @stray _ zs' _ us rest ih =>
    cases phrase
    obtain ⟨rfl, equal⟩ | ⟨before, rfl, later⟩ := List.cons_eq_append_iff.mp cut
    · cases equal
      exact ⟨[], zs', rfl, .nothing, rest⟩
    · obtain ⟨xs, ys, rfl, first, second⟩ := ih ((Balanced.semicolon _).behind balanced) later rfl
      exact ⟨xs, ys, rfl, .stray first, second⟩
  | last head =>
    cases phrase
    exact (head.shielded.not_cut balanced cut).elim
  | @separated _ x zs' _ us vs head rest _ ih =>
    cases phrase
    obtain ⟨more, rfl, later⟩ | ⟨_, inside, _⟩ := cut_append cut
    · obtain ⟨rfl, equal⟩ | ⟨more, rfl, further⟩ := List.cons_eq_append_iff.mp later
      · cases equal
        exact ⟨[x], zs', rfl, by simpa using .last head, rest⟩
      · have balanced' := (Balanced.semicolon _).behind (head.shielded.toBalanced.behind balanced)
        obtain ⟨xs, ys, rfl, first, second⟩ := ih balanced' further rfl
        exact ⟨x :: xs, ys, rfl, .separated head first, second⟩
    · exact (head.shielded.not_cut balanced inside).elim
  | @adjacent _ x zs' us vs closed head _ _ ih =>
    cases phrase
    obtain ⟨more, rfl, later⟩ | ⟨_, inside, _⟩ := cut_append cut
    · obtain ⟨xs, ys, rfl, first, second⟩ := ih (head.shielded.toBalanced.behind balanced) later rfl
      exact ⟨x :: xs, ys, rfl, .adjacent closed head first, second⟩
    · exact (head.shielded.not_cut balanced inside).elim
  | _ => cases phrase

/-! ## Scripts -/

/-- Where the end of the input stands only at the end, what is read is all that stands before it. -/
theorem derives_of_parseTokens {statements : List Node} {body : List Lexeme} {l : Nat}
    (once : ∀ t ∈ body, t.token ≠ .endOfInput)
    (read : parseTokens (body ++ [⟨.endOfInput, l⟩]) = .ok statements) :
    Derives nestingLimit 0 (.statements statements) body := by
  obtain ⟨used, rest, split, body', l', rfl, derives⟩ := sentence_of_parseTokens read
  have regrouped : body ++ [⟨.endOfInput, l⟩] = body' ++ ⟨.endOfInput, l'⟩ :: rest := by simpa using split
  rcases cut_append regrouped with ⟨more, rfl, last⟩ | ⟨more, rfl, _⟩
  · obtain ⟨rfl, _⟩ | ⟨_, rfl, none⟩ := List.cons_eq_append_iff.mp last
    · simpa using derives
    · simp at none
  · -- an end of input before the last token would stand in the body
    exact absurd rfl (once ⟨.endOfInput, l'⟩ (by simp))

theorem parseTokens_of_derives {statements : List Node} {body : List Lexeme}
    (content : Derives nestingLimit 0 (.statements statements) body) (l : Nat) :
    parseTokens (body ++ [⟨.endOfInput, l⟩]) = .ok statements :=
  parseTokens_of_sentence ⟨body, l, rfl, content⟩

/-- Two rows of tokens with a semicolon between them are read exactly if both are read on their own, and
    the statements are those of the first and then those of the second.  The braces of the first row have
    to be balanced, and the lines of the semicolon and of the ends make no difference. -/
theorem parseTokens_at_semicolon {a b : List Lexeme} (first : ∀ t ∈ a, t.token ≠ .endOfInput)
    (second : ∀ t ∈ b, t.token ≠ .endOfInput) (balanced : Balanced a) (l m m₁ m₂ : Nat) (statements : List Node) :
    parseTokens (a ++ [⟨.symbol .semicolon, l⟩] ++ b ++ [⟨.endOfInput, m⟩]) = .ok statements ↔
      ∃ xs ys, parseTokens (a ++ [⟨.endOfInput, m₁⟩]) = .ok xs ∧
        parseTokens (b ++ [⟨.endOfInput, m₂⟩]) = .ok ys ∧ statements = xs ++ ys := by
  have joined : a ++ [⟨.symbol .semicolon, l⟩] ++ b = a ++ ⟨.symbol .semicolon, l⟩ :: b := by simp
  rw [joined]
  constructor
  · intro read
    have once : ∀ t ∈ a ++ ⟨.symbol .semicolon, l⟩ :: b, t.token ≠ .endOfInput := by
      simpa [or_imp, forall_and] using ⟨first, second⟩
    obtain ⟨xs, ys, rfl, before, behind⟩ := (derives_of_parseTokens once read).split_statements balanced rfl
    exact ⟨xs, ys, parseTokens_of_derives before m₁, parseTokens_of_derives behind m₂, rfl⟩
  · rintro ⟨xs, ys, before, behind, rfl⟩
    have left := derives_of_parseTokens first before
    have right := derives_of_parseTokens second behind
    exact parseTokens_of_derives (left.append_statements right) m

/-- A loop with semicolons in its block, and behind it an assignment between stray semicolons. -/
theorem parseTokens_at_semicolon_loop :
    let a : List Lexeme := [⟨.symbol .whileWord, 1⟩, ⟨.symbol .openParen, 1⟩, ⟨.name "p", 1⟩,
      ⟨.symbol .closeParen, 1⟩, ⟨.symbol .openBrace, 1⟩, ⟨.name "q", 2⟩, ⟨.symbol .semicolon, 2⟩,
      ⟨.name "r", 2⟩, ⟨.symbol .semicolon, 2⟩, ⟨.symbol .closeBrace, 3⟩]
    let b : List Lexeme := [⟨.symbol .semicolon, 5⟩, ⟨.name "x", 5⟩, ⟨.symbol .assign, 5⟩, ⟨.name "y", 6⟩,
      ⟨.symbol .semicolon, 6⟩]
    let loop : Node := .loop (.name "p" 1) (.block [.name "q" 2, .name "r" 2] (some 2)) 1
    let assignment : Node := .binary (.name "x" 5) .assign (.name "y" 6) 5
    (∀ t ∈ a ++ b, t.token ≠ .endOfInput) ∧ Balanced a ∧
    parseTokens (a ++ [⟨.endOfInput, 3⟩]) = .ok [loop] ∧
    parseTokens (b ++ [⟨.endOfInput, 6⟩]) = .ok [assignment] ∧
    parseTokens (a ++ [⟨.symbol .semicolon, 4⟩] ++ b ++ [⟨.endOfInput, 7⟩]) = .ok [loop, assignment] := by
  intro a b loop assignment
  have once : ∀ t ∈ a ++ b, t.token ≠ .endOfInput := by simp [a, b]
  have head : Shielded (a.take 4) := .of_plain (by simp [a, isPlain])
  have body : Balanced [⟨.name "q", 2⟩, ⟨.symbol .semicolon, 2⟩, ⟨.name "r", 2⟩, ⟨.symbol .semicolon, 2⟩] :=
    .of_absent (by simp)
  have balanced : Balanced a := (head.append (body.braces 1 3)).toBalanced
  have first : parseTokens (a ++ [⟨.endOfInput, 3⟩]) = .ok [loop] := by rfl
  have second : parseTokens (b ++ [⟨.endOfInput, 6⟩]) = .ok [assignment] := by rfl
  refine ⟨once, balanced, first, second, ?_⟩
  exact (parseTokens_at_semicolon (fun t member => once t (List.mem_append_left b member))
    (fun t member => once t (List.mem_append_right a member)) balanced 4 7 3 6 _).mpr ⟨_, _, first, second, rfl⟩

-- Inside the braces of `if (p) { q; r }` a semicolon ends nothing that is a script.
example :
    let a : List Lexeme := [⟨.symbol .ifWord, 1⟩, ⟨.symbol .openParen, 1⟩, ⟨.name "p", 1⟩,
      ⟨.symbol .closeParen, 1⟩, ⟨.symbol .openBrace, 1⟩, ⟨.name "q", 1⟩]
    let b : List Lexeme := [⟨.name "r", 1⟩, ⟨.symbol .closeBrace, 1⟩]
    parseTokens (a ++ [⟨.symbol .semicolon, 1⟩] ++ b ++ [⟨.endOfInput, 1⟩]) =
      .ok [.conditional (.name "p" 1) (.block [.name "q" 1, .name "r" 1] (some 1)) none 1] ∧
    parseTokens (a ++ [⟨.endOfInput, 1⟩]) = .error ⟨.unexpected (.symbol .closeBrace) .endOfInput, 1⟩ :=
  ⟨rfl, rfl⟩

end SmallScript.Grammar
