import SmallScript.Proofs.Grammar.Renumber
import SmallScript.Proofs.Grammar.Runs

/-! # Comparisons of runs

What is proved about the rules of the grammar compares two runs: on other lines, with other tokens behind
those that are read, with another spelling, or with more room.  In each case the rules are walked through
in the same way, so that is done once, for every `Comparison`: a relation between parsers with one clause for
each way to put parsers together.

* `OpensLevel before token`: the token opens a level, if it can stand behind the tokens `before`.
* `Comparison lines`: a relation `At` between two parsers on the same tokens, of which the second one gives
  the lines that `lines` says.
* `Agrees C before tokens x y phrase aim`: the relation holds, and besides the first parser reads a `phrase`
  or fails on the way to an `aim`.  Where both runs are on the same lines, the second parser reads one too.

What may follow a statement, which parenthesis opens a level and which chain is gone on with depends on what
has been read.  That is why the relation is not enough by itself.
-/

namespace SmallScript.Grammar

open SmallScript.Grammar.Parser
open Renumber (renumber)

/-! ## Tokens that open a level -/

/-- Behind these tokens a parenthesis opens no level, or not by itself. -/
def announcesParen : Token → Bool
  | .symbol .ifWord | .symbol .elifWord | .symbol .whileWord | .symbol .inputWord => true
  | .symbol .defWord | .name _ => true
  | _ => false

/-- The next parenthesis is that of a condition, of a prompt or of parameters. -/
def awaitsHeader (before : List Lexeme) : Bool :=
  match before.reverse with
  | ⟨.name _, _⟩ :: ⟨.symbol .defWord, _⟩ :: _ => true
  | ⟨.name _, _⟩ :: _ => false
  | ⟨token, _⟩ :: _ => announcesParen token
  | [] => false

/-- The token opens a level if it can stand behind the given ones. -/
inductive OpensLevel (before : List Lexeme) : Token → Prop where
  | prefixed (op : UnaryOp) : OpensLevel before (.symbol op.symbol)
  | joining {tier s build} (joins : Joins tier s build) : OpensLevel before (.symbol s)
  | paren (inside : awaitsHeader before = false) : OpensLevel before (.symbol .openParen)
  | brace : OpensLevel before (.symbol .openBrace)
  | elseIf (after : symbol? before.getLast?.toList = some .elseWord) : OpensLevel before (.symbol .ifWord)
  | elif : OpensLevel before (.symbol .elifWord)

/-- The last token says nothing about a parenthesis, so an operand may start here. -/
def Free (before : List Lexeme) : Prop :=
  ∀ t ∈ before.getLast?, announcesParen t.token = false

theorem free_nil : Free [] := nofun

theorem free_concat {before : List Lexeme} {t : Lexeme} : Free (before ++ [t]) ↔ announcesParen t.token = false := by
  simp [Free]

theorem free_behind {before ts : List Lexeme} {o t : Lexeme} :
    Free (before ++ o :: (ts ++ [t])) ↔ announcesParen t.token = false := by
  rw [← List.cons_append, ← List.append_assoc, free_concat]

theorem Free.awaitsHeader_eq {before : List Lexeme} (free : Free before) : awaitsHeader before = false := by
  rcases List.eq_nil_or_concat before with rfl | ⟨before, ⟨token, l⟩, rfl⟩
  · rfl
  · rw [List.concat_eq_append] at free ⊢
    have plain := free_concat.mp free
    unfold awaitsHeader
    rw [List.reverse_append]
    cases token with
    | name n => cases plain
    | _ => exact plain

/-- Behind a name a parenthesis is that of a call, unless a function is declared. -/
theorem Free.awaitsHeader_name {before : List Lexeme} (free : Free before) (n : String) (l : Nat) :
    awaitsHeader (before ++ [⟨.name n, l⟩]) = false := by
  rcases List.eq_nil_or_concat before with rfl | ⟨before, ⟨token, l⟩, rfl⟩
  · rfl
  · rw [List.concat_eq_append] at free ⊢
    have plain := free_concat.mp free
    unfold awaitsHeader
    rw [List.reverse_append, List.reverse_append]
    cases token with
    | symbol s =>
      cases s with
      | defWord => cases plain
      | _ => rfl
    | _ => rfl

/-! ## Relations between parsers -/

/-- A relation between two parsers, closed under the ways to put parsers together.  The clauses say what they
    need of the run so far; what it has taken off is in `before`. -/
structure Comparison (lines : Nat → Nat) where
  /-- What is compared of two parsers in front of `tokens` and behind `before`. -/
  At : {α : Type} → [Renumber α] → (before tokens : List Lexeme) → (x y : Parser α) → Prop
  /-- The grammar has room for one level more than the first run. -/
  spare : Prop
  /-- The first run has less room than the second one. -/
  cuts : Prop
  /-- An `elif` need not be there in this form, so no rule but one may tell it from an `else`. -/
  blind : Prop
  plain : cuts → lines = id
  pure : ∀ {α : Type} [Renumber α] {before tokens : List Lexeme} (v : α),
    At before tokens (Pure.pure v) (Pure.pure (renumber lines v))
  refuse : ∀ {α : Type} [Renumber α] {before tokens : List Lexeme} (expected : Expectation),
    At before tokens (Parser.refuse expected : Parser α) (Parser.refuse expected)
  tooDeep : ∀ {α : Type} [Renumber α] {before tokens : List Lexeme}, ¬ cuts →
    At before tokens (fail (fun _ => .nestedTooDeep) : Parser α) (fail fun _ => .nestedTooDeep)
  skip : ∀ {before tokens : List Lexeme} {t : Lexeme}, (blind → t.token ≠ .symbol .elifWord) →
    At before (t :: tokens) Parser.skip Parser.skip
  semicolons : ∀ {before tokens : List Lexeme}, At before tokens Grammar.semicolons Grammar.semicolons
  bind : ∀ {α β : Type} [Renumber α] [Renumber β] {before tokens : List Lexeme} {x y : Parser α}
    {k k' : α → Parser β}, At before tokens x y →
    (∀ {v rest}, x tokens = .ok v rest → ∃ used, tokens = used ++ rest ∧ leftover (k v) rest <:+ rest ∧
      At (before ++ used) rest (k v) (k' (renumber lines v))) →
    (lines = id → leftover (y >>= k') tokens <:+ leftover y tokens) →
    At before tokens (x >>= k) (y >>= k')
  peek : ∀ {α : Type} [Renumber α] {before tokens : List Lexeme} {k k' : Option Lexeme → Parser α},
    (blind → ∀ l, tokens.head? = some ⟨.symbol .elifWord, l⟩ →
      k (some ⟨.symbol .elseWord, l⟩) = k (some ⟨.symbol .elifWord, l⟩)) →
    leftover (k tokens.head?) tokens <:+ tokens →
    At before tokens (k tokens.head?) (k' (renumber lines tokens.head?)) →
    At before tokens (Parser.peek >>= k) (Parser.peek >>= k')
  /-- An assignment is told by its first two tokens.  Whatever comes of it, the first one is taken off. -/
  target : ∀ {α : Type} [Renumber α] {before tokens : List Lexeme} {k k' : Option (String × Nat × Nat) → Parser α},
    leftover (k (target? tokens)) tokens <:+ tokens →
    (∀ {n l us}, tokens = ⟨.name n, l⟩ :: us → leftover (k (target? tokens)) tokens <:+ us) →
    At before tokens (k (target? tokens)) (k' (renumber lines (target? tokens))) →
    At before tokens (get >>= fun tokens => k (target? tokens)) (get >>= fun tokens => k' (target? tokens))
  upTo : ∀ {α : Type} [Renumber α] {before tokens : List Lexeme} {loop loop' : Nat → Parser α},
    Enough loop → Enough loop' → (∀ rounds, tokens.length < rounds → At before tokens (loop rounds) (loop' rounds)) →
    At before tokens (Parser.upTo loop) (Parser.upTo loop')
  /-- Only the second run goes on with the token that opens a level. -/
  opening : ∀ {α : Type} [Renumber α] {before tokens : List Lexeme} {s : Symbol} {l : Nat} {y : Parser α}, cuts →
    OpensLevel before (.symbol s) → leftover y tokens <:+ tokens →
    At before (⟨.symbol s, l⟩ :: tokens) (fail fun _ => .nestedTooDeep) (Parser.skip >>= fun _ => y)
  /-- Only the second run looks for the brace of a block. -/
  brace : ∀ {α : Type} [Renumber α] {before tokens : List Lexeme} {y : Parser α}, cuts →
    (∀ {l us}, tokens = ⟨.symbol .openBrace, l⟩ :: us → leftover y us <:+ us) →
    At before tokens (fail fun _ => .nestedTooDeep) (expect .openBrace >>= fun _ => y)
  /-- The one rule that reads an `elif`. -/
  elif : ∀ {before tokens : List Lexeme} {l : Nat} {below below' : Option Rules}, blind →
    (∀ rules ∈ below, ∃ y, At (before ++ [⟨.symbol .elifWord, l⟩]) tokens (rules.conditional l) y) →
    At before (⟨.symbol .elifWord, l⟩ :: tokens) (alternative below) (alternative below')

/-- Nothing is compared, and only what the parsers read counts. -/
def Comparison.idle (lines : Nat → Nat) (spare cuts : Prop) (plain : cuts → lines = id) : Comparison lines where
  At _ _ _ _ := True
  spare := spare
  cuts := cuts
  blind := False
  plain := plain
  pure _ := trivial
  refuse _ := trivial
  tooDeep _ := trivial
  skip _ := trivial
  semicolons := trivial
  bind _ _ _ := trivial
  peek _ _ _ := trivial
  target _ _ _ := trivial
  upTo _ _ _ := trivial
  opening _ _ _ := trivial
  brace _ _ := trivial
  elif _ _ := trivial

/-! ## Parsers that agree -/

/-- The first parser reads a phrase or fails on the way to an aim, and on the same lines the second one reads
    a phrase too, as the comparison has it. -/
structure Agrees {lines : Nat → Nat} (C : Comparison lines) {α γ : Type} [Renumber α] (before tokens : List Lexeme)
    (x y : Parser α) (phrase : α → List Lexeme → Prop) (aim : γ → List Lexeme → Prop) : Prop where
  reads : ReadsAt x tokens phrase
  fails : FailsAt C.spare x tokens aim
  reads' : lines = id → ReadsAt y tokens phrase
  trims' : lines = id → leftover y tokens <:+ tokens
  holds : C.At before tokens x y

namespace Agrees

variable {lines : Nat → Nat} {C : Comparison lines} {α β γ : Type} [Renumber α] [Renumber β]
  {before tokens : List Lexeme} {phrase : α → List Lexeme → Prop} {aim : γ → List Lexeme → Prop}

section Single

variable {x y : Parser α}

theorem trims (h : Agrees C before tokens x y phrase aim) : leftover x tokens <:+ tokens := by
  cases run : x tokens with
  | ok v rest =>
    obtain ⟨used, split, _⟩ := h.reads v rest run
    rw [leftover_of_ok run]
    exact ⟨used, split.symm⟩
  | error fault rest =>
    obtain ⟨_, used, split, _⟩ := h.fails fault rest run
    rw [leftover_of_error run]
    exact ⟨used, split.symm⟩

theorem imp {weaker : α → List Lexeme → Prop} (h : Agrees C before tokens x y phrase aim)
    (content : ∀ v used, phrase v used → weaker v used) : Agrees C before tokens x y weaker aim :=
  { h with reads := h.reads.imp content, reads' := fun same => (h.reads' same).imp content }

/-- Where the first parser fails, what it would have read has to be completed as well. -/
theorem toward {δ : Type} {first : δ → List Lexeme → Prop} (h : Agrees C before tokens x y phrase first)
    (complete : C.spare → ∀ v used, first v used → Viable aim used) : Agrees C before tokens x y phrase aim :=
  { h with fails := h.fails.imp complete }

/-- One phrase is another one. -/
theorem weaken {weaker : α → List Lexeme → Prop} (h : Agrees C before tokens x y phrase phrase)
    (content : ∀ v used, phrase v used → weaker v used) : Agrees C before tokens x y weaker weaker :=
  (h.imp content).toward fun _ v used first => .of_phrase (content v used first)

/-- What the parsers read does not hang on the comparison. -/
theorem idle (h : Agrees C before tokens x y phrase aim) :
    Agrees (.idle lines C.spare C.cuts C.plain) before tokens x y phrase aim :=
  { h with holds := trivial }

/-- Parsers that take nothing off here, and do not fail. -/
theorem nothing {v : α} (h : Agrees C before tokens x y phrase aim) (done : x tokens = .ok v tokens)
    (done' : y tokens = .ok v tokens) :
    Agrees C before tokens x y (fun w used => w = v ∧ used = []) fun w used => w = v ∧ used = [] where
  reads := by
    intro w rest read
    cases done.symm.trans read
    exact ⟨[], rfl, rfl, rfl⟩
  fails := by
    intro fault rest failed
    cases done.symm.trans failed
  reads' _ := by
    intro w rest read
    cases done'.symm.trans read
    exact ⟨[], rfl, rfl, rfl⟩
  trims' := h.trims'
  holds := h.holds

end Single

theorem pure {v w : α} (same : w = renumber lines v) (empty : phrase v []) :
    Agrees C before tokens (Pure.pure v) (Pure.pure w) phrase aim where
  reads := readsAt_pure empty
  fails := by
    intro fault rest failed
    cases failed
  reads' plain := by
    subst plain same
    rw [Renumber.renumber_id]
    exact readsAt_pure empty
  trims' _ := List.suffix_refl tokens
  holds := same ▸ C.pure v

theorem refuse {expected : Expectation} (viable : C.spare → Viable aim []) :
    Agrees C before tokens (Parser.refuse expected : Parser α) (Parser.refuse expected) phrase aim where
  reads := readsAt_fail
  fails := failsAt_refuse viable
  reads' _ := readsAt_fail
  trims' _ := List.suffix_refl tokens
  holds := C.refuse expected

theorem tooDeep (bare : ¬ C.cuts) (viable : C.spare → Viable aim []) :
    Agrees C before tokens (fail (fun _ => .nestedTooDeep) : Parser α) (fail fun _ => .nestedTooDeep) phrase aim where
  reads := readsAt_fail
  fails := failsAt_tooDeep viable
  reads' _ := readsAt_fail
  trims' _ := List.suffix_refl tokens
  holds := C.tooDeep bare

/-- The first run is cut off, and only what the second one reads counts. -/
theorem cut {spare cuts : Prop} {plain : cuts → lines = id} {x y : Parser α}
    (second : Agrees (.idle lines spare cuts plain) before tokens x y phrase aim) (viable : C.spare → Viable aim [])
    (holds : C.At before tokens (fail fun _ => .nestedTooDeep) y) :
    Agrees C before tokens (fail fun _ => .nestedTooDeep) y phrase aim where
  reads := readsAt_fail
  fails := failsAt_tooDeep viable
  reads' := second.reads'
  trims' := second.trims'
  holds := holds

/-- On the same lines the second run goes on with the value itself. -/
theorem second_of_plain {x : Parser β} {k' : α → Parser β} {v : α} {phrase : β → List Lexeme → Prop}
    (h : Agrees C before tokens x (k' (renumber lines v)) phrase aim) (plain : lines = id) :
    ReadsAt (k' v) tokens phrase ∧ leftover (k' v) tokens <:+ tokens := by
  have reads := h.reads' plain
  have trims := h.trims' plain
  rw [plain, Renumber.renumber_id] at reads trims
  exact ⟨reads, trims⟩

theorem bind {x y : Parser α} {k k' : α → Parser β} {first : α → List Lexeme → Prop}
    {phrase : β → List Lexeme → Prop} (head : Agrees C before tokens x y first aim)
    (tail : ∀ v used rest, tokens = used ++ rest → first v used →
      Agrees C (before ++ used) rest (k v) (k' (renumber lines v)) (fun w us => phrase w (used ++ us))
        fun z us => aim z (used ++ us)) :
    Agrees C before tokens (x >>= k) (y >>= k') phrase aim := by
  -- only runs on the same lines are compared by how far they get
  have further (plain : lines = id) : leftover (y >>= k') tokens <:+ leftover y tokens := by
    refine leftover_bind_suffix fun w rest read => ?_
    obtain ⟨used, split, content⟩ := head.reads' plain w rest read
    exact ((tail w used rest split content).second_of_plain plain).2
  refine ⟨head.reads.bind fun v used rest split content => (tail v used rest split content).reads,
    head.fails.bind head.reads fun v used rest split content => (tail v used rest split content).fails, ?_,
    fun plain => (further plain).trans (head.trims' plain), C.bind head.holds ?_ further⟩
  · intro plain
    exact (head.reads' plain).bind fun v used rest split content =>
      ((tail v used rest split content).second_of_plain plain).1
  · intro v rest read
    obtain ⟨used, split, content⟩ := head.reads v rest read
    have onward := tail v used rest split content
    exact ⟨used, split, onward.trims, onward.holds⟩

/-- Only a tree is made of what has been read. -/
theorem map {x y : Parser α} {f f' : α → β} {first : α → List Lexeme → Prop} {first' : γ → List Lexeme → Prop}
    {phrase : β → List Lexeme → Prop} {δ : Type} {aim : δ → List Lexeme → Prop}
    (h : Agrees C before tokens x y first first') (same : ∀ v, f' (renumber lines v) = renumber lines (f v))
    (build : ∀ v used, first v used → phrase (f v) used)
    (complete : C.spare → ∀ v used, first' v used → Viable aim used) :
    Agrees C before tokens (x >>= fun v => Pure.pure (f v)) (y >>= fun v => Pure.pure (f' v)) phrase aim := by
  refine (h.toward complete).bind fun v used rest _ content => .pure (same v) ?_
  rw [List.append_nil]
  exact build v used content

theorem make {x y : Parser α} {f f' : α → β} {first : α → List Lexeme → Prop} {phrase : β → List Lexeme → Prop}
    (h : Agrees C before tokens x y first first) (same : ∀ v, f' (renumber lines v) = renumber lines (f v))
    (build : ∀ v used, first v used → phrase (f v) used) :
    Agrees C before tokens (x >>= fun v => Pure.pure (f v)) (y >>= fun v => Pure.pure (f' v)) phrase phrase :=
  h.map same build fun _ v used content => .of_phrase (build v used content)

/-- Parsers that look at the first token, and go on in front of `else` as in front of `elif`. -/
theorem peek {k k' : Option Lexeme → Parser α}
    (alike : C.blind → ∀ l, tokens.head? = some ⟨.symbol .elifWord, l⟩ →
      k (some ⟨.symbol .elseWord, l⟩) = k (some ⟨.symbol .elifWord, l⟩))
    (none : tokens = [] → Agrees C before tokens (k none) (k' none) phrase aim)
    (some : ∀ token l us, tokens = ⟨token, l⟩ :: us →
      Agrees C before tokens (k (some ⟨token, l⟩)) (k' (some ⟨token, lines l⟩)) phrase aim) :
    Agrees C before tokens (Parser.peek >>= k) (Parser.peek >>= k') phrase aim := by
  have here : Agrees C before tokens (k tokens.head?) (k' (renumber lines tokens.head?)) phrase aim := by
    rcases tokens with _ | ⟨⟨token, l⟩, us⟩
    · exact none rfl
    · exact some token l us rfl
  exact ⟨here.reads, here.fails, fun plain => (here.second_of_plain plain).1,
    fun plain => (here.second_of_plain plain).2, C.peek alike here.trims here.holds⟩

theorem peekSymbol {k k' : Option Symbol → Parser α}
    (alike : k (some .elseWord) = k (some .elifWord))
    (other : Agrees C before tokens (k none) (k' none) phrase aim)
    (symbol : ∀ s l us, tokens = ⟨.symbol s, l⟩ :: us → Agrees C before tokens (k (some s)) (k' (some s)) phrase aim) :
    Agrees C before tokens (Parser.peekSymbol >>= k) (Parser.peekSymbol >>= k') phrase aim := by
  rw [peekSymbol_bind, peekSymbol_bind]
  refine .peek (fun _ _ _ => alike) (fun _ => other) fun token l us split => ?_
  cases token with
  | symbol s => exact symbol s l us split
  | _ => exact other

theorem get_ite {p : List Lexeme → Bool} (decided : DecidedByHead p)
    (alike : ∀ l, p [⟨.symbol .elseWord, l⟩] = p [⟨.symbol .elifWord, l⟩]) {x y x' y' : Parser α}
    (yes : p tokens = true → Agrees C before tokens x y phrase aim)
    (no : p tokens = false → Agrees C before tokens x' y' phrase aim) :
    Agrees C before tokens (get >>= fun tokens => if p tokens then x else x')
      (get >>= fun tokens => if p tokens then y else y') phrase aim := by
  rw [get_bind_ite decided, get_bind_ite decided]
  refine .peek (fun _ l _ => congrArg (fun b : Bool => if b then x else x') (alike l)) ?_ ?_
  · rintro rfl
    cases ends : p [] with
    | true => simpa [ends] using yes ends
    | false => simpa [ends] using no ends
  · rintro token l us rfl
    have same : p [⟨token, l⟩] = p (⟨token, l⟩ :: us) := decided _ _ _ _ rfl
    have same' : p [⟨token, lines l⟩] = p (⟨token, l⟩ :: us) := decided _ _ _ _ rfl
    cases ends : p (⟨token, l⟩ :: us) with
    | true => simpa [same, same', ends] using yes ends
    | false => simpa [same, same', ends] using no ends

/-- A token that has been looked at is taken off. -/
theorem take {t : Lexeme} {us : List Lexeme} (other : C.blind → t.token ≠ .symbol .elifWord) :
    Agrees C before (t :: us) Parser.skip Parser.skip (fun _ used => used = [t]) aim := by
  have taken : ReadsAt Parser.skip (t :: us) fun _ used => used = [t] := by
    rintro _ _ ⟨⟩
    exact ⟨[t], rfl, rfl⟩
  refine ⟨taken, ?_, fun _ => taken, fun _ => List.suffix_cons t us, C.skip other⟩
  intro fault rest failed
  cases failed

theorem skip {k k' : Unit → Parser α} {t : Lexeme} {us : List Lexeme} (other : C.blind → t.token ≠ .symbol .elifWord)
    (onward : Agrees C (before ++ [t]) us (k ()) (k' ()) (fun v vs => phrase v (t :: vs)) fun z vs => aim z (t :: vs)) :
    Agrees C before (t :: us) (Parser.skip >>= k) (Parser.skip >>= k') phrase aim := by
  refine (take other).bind ?_
  rintro _ _ rest split rfl
  cases split
  exact onward

/-- A missing symbol is found missing before anything is taken off. -/
theorem expect {s : Symbol} {k k' : Unit → Parser α} (other : s ≠ .elseWord ∧ s ≠ .elifWord)
    (viable : C.spare → Viable aim [])
    (onward : ∀ l us, tokens = ⟨.symbol s, l⟩ :: us → Agrees C (before ++ [⟨.symbol s, l⟩]) us (k ()) (k' ())
      (fun v vs => phrase v (⟨.symbol s, l⟩ :: vs)) fun z vs => aim z (⟨.symbol s, l⟩ :: vs)) :
    Agrees C before tokens (Parser.expect s >>= k) (Parser.expect s >>= k') phrase aim := by
  have head : Agrees C before tokens (Parser.expect s) (Parser.expect s) (fun _ used => ∃ l, used = [⟨.symbol s, l⟩])
      aim := by
    refine .peekSymbol ?_ (.refuse viable) ?_
    · simp [other.1.symm, other.2.symm]
    rintro s' l us rfl
    split
    next same =>
      cases same
      exact (take fun _ => by simpa using other.2).imp fun _ _ taken => ⟨l, taken⟩
    next => exact .refuse viable
  refine head.bind ?_
  rintro _ _ rest split ⟨l, rfl⟩
  exact onward l rest split

theorem upTo {loop loop' : Nat → Parser α} (enough : Enough loop) (enough' : Enough loop')
    (h : ∀ rounds, tokens.length < rounds → Agrees C before tokens (loop rounds) (loop' rounds) phrase aim) :
    Agrees C before tokens (Parser.upTo loop) (Parser.upTo loop') phrase aim := by
  have here := h _ (Nat.lt_succ_self tokens.length)
  exact ⟨here.reads, here.fails, here.reads', here.trims', C.upTo enough enough' fun rounds lt => (h rounds lt).holds⟩

end Agrees

end SmallScript.Grammar
