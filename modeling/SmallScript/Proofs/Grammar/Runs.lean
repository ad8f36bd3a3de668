import SmallScript.Proofs.Grammar.Derivation

/-! # Single runs of parsers

What a parser does on one row of tokens, and what all runs have in common.

* `ReadsAt parser tokens phrase`: where the parser succeeds, the tokens that it has taken off are the phrase
  of its result.
* `FailsAt spare parser tokens aim`: where it fails, its fault is about the token that it has left in place,
  and the tokens before it are the start of a phrase, if the grammar has a level to spare.
* `leftover parser tokens` is what is left, whether the parser succeeds or fails.
* `Enough loop`: the loop needs no more rounds than there are tokens.
-/

namespace SmallScript.Grammar

open SmallScript.Grammar.Parser

def symbol? : List Lexeme → Option Symbol
  | ⟨.symbol s, _⟩ :: _ => some s
  | _ => none

@[simp] theorem symbol?_cons (s : Symbol) (l : Nat) (rest : List Lexeme) :
    symbol? (⟨.symbol s, l⟩ :: rest) = some s := rfl

theorem exists_of_symbol?_eq_some {tokens : List Lexeme} {s : Symbol} (first : symbol? tokens = some s) :
    ∃ l us, tokens = ⟨.symbol s, l⟩ :: us := by
  unfold symbol? at first
  split at first
  next => cases first; exact ⟨_, _, rfl⟩
  next => cases first

theorem target?_eq_some {tokens : List Lexeme} {n : String} {m l : Nat}
    (found : target? tokens = some (n, m, l)) :
    ∃ us, tokens = ⟨.name n, m⟩ :: ⟨.symbol .assign, l⟩ :: us := by
  unfold target? at found
  split at found
  next n' m' l' us => cases found; exact ⟨us, rfl⟩
  next => cases found

variable {α β γ : Type} {tokens : List Lexeme}

/-! ## Results -/

section Results

variable {parser : Parser α} {next : α → Parser β} {rest : List Lexeme} {fault : SyntaxFault}

theorem bind_of_ok {v : α} {middle : List Lexeme} (ok : parser tokens = .ok v middle) :
    (parser >>= next) tokens = next v middle := by
  change EStateM.bind parser next tokens = _
  unfold EStateM.bind
  rw [ok]

theorem bind_of_error (failed : parser tokens = .error fault rest) :
    (parser >>= next) tokens = .error fault rest := by
  change EStateM.bind parser next tokens = _
  unfold EStateM.bind
  rw [failed]

theorem bind_eq_ok {w : β} :
    (parser >>= next) tokens = .ok w rest ↔
      ∃ v middle, parser tokens = .ok v middle ∧ next v middle = .ok w rest := by
  change EStateM.bind parser next tokens = .ok w rest ↔ _
  unfold EStateM.bind
  cases parser tokens with
  | ok v middle => exact ⟨fun ok => ⟨v, middle, rfl, ok⟩, by rintro ⟨_, _, ⟨⟩, ok⟩; exact ok⟩
  | error => simp

theorem bind_eq_error (failed : (parser >>= next) tokens = .error fault rest) :
    parser tokens = .error fault rest ∨
      ∃ v middle, parser tokens = .ok v middle ∧ next v middle = .error fault rest := by
  cases first : parser tokens with
  | ok v middle => exact .inr ⟨v, middle, rfl, (bind_of_ok first).symm.trans failed⟩
  | error fault' rest' =>
    rw [bind_of_error first] at failed
    cases failed
    exact .inl rfl

/-- What follows matters only where it is reached. -/
theorem bind_congr_right {next' : α → Parser β}
    (same : ∀ v middle, parser tokens = .ok v middle → next v middle = next' v middle) :
    (parser >>= next) tokens = (parser >>= next') tokens := by
  cases first : parser tokens with
  | ok v middle => rw [bind_of_ok first, bind_of_ok first, same v middle first]
  | error fault rest => rw [bind_of_error first, bind_of_error first]

theorem bind_congr_left {parser' : Parser α} (same : parser tokens = parser' tokens) :
    (parser >>= next) tokens = (parser' >>= next) tokens := by
  cases first : parser tokens with
  | ok v middle => rw [bind_of_ok first, bind_of_ok (same.symm.trans first)]
  | error fault rest => rw [bind_of_error first, bind_of_error (same.symm.trans first)]

end Results

theorem get_bind (next : List Lexeme → Parser α) : (get >>= next : Parser α) tokens = next tokens tokens := rfl

theorem peek_cons (t : Lexeme) (rest : List Lexeme) :
    peek (t :: rest) = .ok (some t) (t :: rest) := rfl

theorem skip_cons (t : Lexeme) (rest : List Lexeme) : skip (t :: rest) = .ok () rest := rfl

theorem identifier_cons (n : String) (l : Nat) (rest : List Lexeme) :
    identifier (⟨.name n, l⟩ :: rest) = .ok n rest := rfl

theorem peekSymbol_eq (tokens : List Lexeme) : peekSymbol tokens = .ok (symbol? tokens) tokens := by
  rcases tokens with _ | ⟨⟨token, l⟩, us⟩
  · rfl
  · cases token <;> rfl

theorem peekSymbol_bind (next : Option Symbol → Parser α) :
    (peekSymbol >>= next) = peek >>= fun t => next (symbol? t.toList) := by
  funext tokens
  rw [bind_of_ok (peekSymbol_eq tokens)]
  rcases tokens with _ | ⟨⟨token, l⟩, us⟩
  · rfl
  · cases token <;> rfl

theorem expect_cons (s : Symbol) (l : Nat) (rest : List Lexeme) :
    expect s (⟨.symbol s, l⟩ :: rest) = .ok () rest := by
  refine (bind_of_ok (peekSymbol_eq _)).trans ?_
  rw [symbol?_cons, if_pos rfl]
  rfl

/-- Tests that look at the kind of the first token alone. -/
def DecidedByHead (p : List Lexeme → Bool) : Prop :=
  ∀ t ts t' ts', t.token = t'.token → p (t :: ts) = p (t' :: ts')

theorem DecidedByHead.or {p : List Lexeme → Bool} (decided : DecidedByHead p) (b : Bool) :
    DecidedByHead fun tokens => p tokens || b := by
  intro t ts t' ts' same
  exact congrArg (· || b) (decided t ts t' ts' same)

theorem decidedByHead_endsStatements : DecidedByHead endsStatements := by
  rintro ⟨token, l⟩ ts ⟨token', l'⟩ ts' same
  cases same
  cases token with
  | symbol s => cases s <;> rfl
  | _ => rfl

theorem get_bind_ite {p : List Lexeme → Bool} (decided : DecidedByHead p) (x x' : Parser α) :
    (get >>= fun tokens => if p tokens then x else x' : Parser α) =
      peek >>= fun t => if p t.toList then x else x' := by
  funext tokens
  change (if p tokens then x else x') tokens = (if p tokens.head?.toList then x else x') tokens
  rcases tokens with _ | ⟨t, us⟩
  · rfl
  · rw [decided t us t [] rfl]
    rfl

/-! ## Phrases that are read -/

/-- Where `parser` succeeds on `tokens`, it takes off a row of tokens that is the phrase of its
    result. -/
def ReadsAt (parser : Parser α) (tokens : List Lexeme) (phrase : α → List Lexeme → Prop) : Prop :=
  ∀ v rest, parser tokens = .ok v rest → ∃ used, tokens = used ++ rest ∧ phrase v used

theorem readsAt_pure {phrase : α → List Lexeme → Prop} {v : α} (empty : phrase v []) :
    ReadsAt (pure v) tokens phrase := by
  rintro _ _ ⟨⟩
  exact ⟨[], rfl, empty⟩

theorem readsAt_fail {cause : Token → SyntaxCause} {phrase : α → List Lexeme → Prop} :
    ReadsAt (fail cause) tokens phrase := by
  intro v rest read
  cases read

theorem ReadsAt.imp {parser : Parser α} {phrase weaker : α → List Lexeme → Prop}
    (reads : ReadsAt parser tokens phrase) (h : ∀ v used, phrase v used → weaker v used) :
    ReadsAt parser tokens weaker := by
  intro v rest ok
  obtain ⟨used, split, content⟩ := reads v rest ok
  exact ⟨used, split, h v used content⟩

theorem ReadsAt.bind {parser : Parser α} {next : α → Parser β} {first : α → List Lexeme → Prop}
    {phrase : β → List Lexeme → Prop} (head : ReadsAt parser tokens first)
    (tail : ∀ v used rest, tokens = used ++ rest → first v used →
      ReadsAt (next v) rest fun w us => phrase w (used ++ us)) :
    ReadsAt (parser >>= next) tokens phrase := by
  intro w rest ok
  obtain ⟨v, middle, read, readNext⟩ := bind_eq_ok.mp ok
  obtain ⟨used, rfl, content⟩ := head v middle read
  obtain ⟨used', rfl, content'⟩ := tail v used middle rfl content w rest readNext
  exact ⟨used ++ used', by rw [List.append_assoc], content'⟩

/-! ## Faults -/

/-- The fault is about the first of the tokens, or about their end. -/
structure Located (fault : SyntaxFault) (rest : List Lexeme) : Prop where
  line : fault.line = lineOf rest
  cause : fault.cause = .nestedTooDeep ∨ ∃ expected, fault.cause = .unexpected expected (tokenOf rest)

/-- The tokens are the start of a phrase. -/
def Viable (phrase : α → List Lexeme → Prop) (used : List Lexeme) : Prop :=
  ∃ x more, phrase x (used ++ more)

theorem Viable.of_phrase {phrase : α → List Lexeme → Prop} {x : α} {used : List Lexeme}
    (content : phrase x used) : Viable phrase used :=
  ⟨x, [], by rwa [List.append_nil]⟩

/-- Where `parser` fails on `tokens`, it does so at the token that it has left, and what it has taken off
    is the start of a phrase, if that may open one level more than the parser may. -/
def FailsAt (spare : Prop) (parser : Parser α) (tokens : List Lexeme) (aim : β → List Lexeme → Prop) : Prop :=
  ∀ fault rest, parser tokens = .error fault rest →
    Located fault rest ∧ ∃ used, tokens = used ++ rest ∧ (spare → Viable aim used)

section Faults

variable {spare : Prop} {parser : Parser α} {aim : γ → List Lexeme → Prop}

theorem failsAt_refuse {expected : Expectation} (viable : spare → Viable aim []) :
    FailsAt spare (refuse expected : Parser α) tokens aim := by
  rintro _ _ ⟨⟩
  exact ⟨⟨rfl, .inr ⟨expected, rfl⟩⟩, [], rfl, viable⟩

theorem failsAt_tooDeep (viable : spare → Viable aim []) :
    FailsAt spare (fail (fun _ => .nestedTooDeep) : Parser α) tokens aim := by
  rintro _ _ ⟨⟩
  exact ⟨⟨rfl, .inl rfl⟩, [], rfl, viable⟩

/-- The failed part of a phrase is completed first, and then the phrase. -/
theorem FailsAt.imp {first : β → List Lexeme → Prop} (fails : FailsAt spare parser tokens first)
    (complete : spare → ∀ v used, first v used → Viable aim used) : FailsAt spare parser tokens aim := by
  intro fault rest failed
  obtain ⟨located, used, split, viable⟩ := fails fault rest failed
  refine ⟨located, used, split, fun room => ?_⟩
  obtain ⟨v, more, content⟩ := viable room
  obtain ⟨z, more', complete⟩ := complete room v _ content
  exact ⟨z, more ++ more', by rwa [← List.append_assoc]⟩

theorem FailsAt.bind {next : α → Parser β} {first : α → List Lexeme → Prop}
    (head : FailsAt spare parser tokens aim) (reads : ReadsAt parser tokens first)
    (tail : ∀ v used rest, tokens = used ++ rest → first v used →
      FailsAt spare (next v) rest fun z us => aim z (used ++ us)) :
    FailsAt spare (parser >>= next) tokens aim := by
  intro fault rest failed
  rcases bind_eq_error failed with here | ⟨v, middle, read, later⟩
  · exact head fault rest here
  · obtain ⟨used, rfl, content⟩ := reads v middle read
    obtain ⟨located, used', rfl, viable⟩ := tail v used middle rfl content fault rest later
    refine ⟨located, used ++ used', by rw [List.append_assoc], fun room => ?_⟩
    obtain ⟨z, more, complete⟩ := viable room
    exact ⟨z, more, by rwa [List.append_assoc]⟩

end Faults

/-! ## What is left -/

/-- The tokens that are left, whether the parser succeeds or fails. -/
def leftover (parser : Parser α) (tokens : List Lexeme) : List Lexeme :=
  match parser tokens with
  | .ok _ rest => rest
  | .error _ rest => rest

theorem leftover_of_ok {parser : Parser α} {rest : List Lexeme} {v : α}
    (ok : parser tokens = .ok v rest) : leftover parser tokens = rest := by
  rw [leftover, ok]

theorem leftover_of_error {parser : Parser α} {rest : List Lexeme} {fault : SyntaxFault}
    (failed : parser tokens = .error fault rest) : leftover parser tokens = rest := by
  rw [leftover, failed]

theorem leftover_bind_of_ok {parser : Parser α} {next : α → Parser β} {middle : List Lexeme} {v : α}
    (ok : parser tokens = .ok v middle) : leftover (parser >>= next) tokens = leftover (next v) middle := by
  unfold leftover
  rw [bind_of_ok ok]

theorem leftover_bind_suffix {parser : Parser α} {next : α → Parser β}
    (onward : ∀ v middle, parser tokens = .ok v middle → leftover (next v) middle <:+ middle) :
    leftover (parser >>= next) tokens <:+ leftover parser tokens := by
  cases first : parser tokens with
  | ok v middle =>
    rw [leftover_bind_of_ok first, leftover_of_ok first]
    exact onward v middle first
  | error fault rest =>
    exact ⟨[], (leftover_of_error (bind_of_error first)).trans (leftover_of_error first).symm⟩

/-! ## Loops -/

/-- On every success at least one token is taken off. -/
def Advances (parser : Parser α) : Prop :=
  ∀ tokens v rest, parser tokens = .ok v rest → rest.length < tokens.length

theorem advances_of_reads {parser : Parser α} {phrase : α → List Lexeme → Prop}
    (reads : ∀ tokens, ReadsAt parser tokens phrase) (nonempty : ∀ v used, phrase v used → used ≠ []) :
    Advances parser := by
  intro tokens v rest ok
  obtain ⟨used, rfl, content⟩ := reads tokens v rest ok
  have taken := List.length_pos_iff.mpr (nonempty v used content)
  rw [List.length_append]
  omega

theorem advances_identifier : Advances identifier := by
  intro tokens n rest ok
  rcases tokens with _ | ⟨⟨token, l⟩, us⟩
  · cases ok
  · cases token with
    | name n => cases ok; exact Nat.lt_succ_self _
    | _ => cases ok

/-- As many rounds as there are tokens, and one more, are as good as any more. -/
def Enough (loop : Nat → Parser α) : Prop :=
  ∀ {tokens : List Lexeme} {rounds rounds' : Nat}, tokens.length < rounds → tokens.length < rounds' →
    loop rounds tokens = loop rounds' tokens

theorem enough_items {item : Parser α} (advances : Advances item) (closing : Symbol) :
    Enough (items item closing) := by
  intro tokens rounds rounds' enough enough'
  induction rounds generalizing tokens rounds' with
  | zero => omega
  | succ rounds ih =>
    obtain ⟨rounds', rfl⟩ := Nat.exists_eq_add_one_of_ne_zero (Nat.ne_zero_of_lt enough')
    refine bind_congr_right fun first rest read => ?_
    rw [bind_of_ok (peekSymbol_eq rest), bind_of_ok (peekSymbol_eq rest)]
    split
    · -- the item has been taken off, and the comma is
      have shorter := advances tokens first rest read
      have tail : rest.tail.length ≤ rest.length := by
        rw [List.length_tail]
        omega
      have same : items item closing rounds rest.tail = items item closing rounds' rest.tail := ih (by omega) (by omega)
      exact bind_congr_left same
    · rfl

/-- Behind the last statement of a list there is nothing more to read. -/
theorem statementsOf_of_ends {statement : Parser Node} (ends : endsStatements tokens = true) (rounds : Nat) :
    statementsOf statement rounds tokens = .ok [] tokens := by
  cases rounds with
  | zero => rfl
  | succ rounds =>
    have unmoved : semicolons tokens = .ok () tokens := by
      unfold semicolons
      cases tokens with
      | nil => rfl
      | cons t ts =>
        have other : ¬ t.token = .symbol .semicolon := by
          intro same
          obtain ⟨token, line⟩ := t
          cases same
          cases ends
        simp [other]
    refine bind_eq_ok.mpr ⟨(), tokens, unmoved, ?_⟩
    refine bind_eq_ok.mpr ⟨tokens, tokens, rfl, ?_⟩
    rw [if_pos ends]
    rfl

theorem length_le_of_separator {x : Node} {u : Unit} {rest : List Lexeme}
    (ok : separator x tokens = .ok u rest) : rest.length ≤ tokens.length := by
  unfold separator at ok
  rw [bind_of_ok (peekSymbol_eq tokens)] at ok
  split at ok
  · cases ok
    rw [List.length_tail]
    omega
  · rw [get_bind] at ok
    split at ok <;> cases ok
    exact Nat.le_refl _

theorem enough_statementsOf {statement : Parser Node} (advances : Advances statement) :
    Enough (statementsOf statement) := by
  intro tokens rounds rounds' enough enough'
  induction rounds generalizing tokens rounds' with
  | zero => omega
  | succ rounds ih =>
    obtain ⟨rounds', rfl⟩ := Nat.exists_eq_add_one_of_ne_zero (Nat.ne_zero_of_lt enough')
    refine bind_congr_right fun _ rest semicolons => ?_
    have stray : rest.length ≤ tokens.length := by
      cases semicolons
      exact (List.dropWhile_suffix _).length_le
    rw [get_bind, get_bind]
    split
    · rfl
    · refine bind_congr_right fun first rest' read => bind_congr_right fun _ rest'' separated => ?_
      have shorter := advances rest first rest' read
      have le := length_le_of_separator separated
      exact bind_congr_left (ih (by omega) (by omega))

end SmallScript.Grammar
