import SmallScript.Proofs.Script.FaultLines

/-! # A console with room for so many bytes

A run cannot ask how much may still be written.  It finds out when a text does not fit, and then it stops.
So a run on a stream that stores `n` bytes does the same as one on a stream that stores everything, up to the
point where that one writes its byte number `n + 1`; and there it is cut off, with the first `n` bytes written
and with the error of the stream.

* `Console.Fits n error c c'`: `c` is `c'` with room for `n` bytes in all, and so far there was room for
  everything.  `Console.CutAt n c c'`: there was not, and `c` holds what fitted.
* `Cutoff.Truncates` is about anything that is done on such a pair of consoles: it ends alike on both, or it
  is cut off on the first.  It composes, for actions on a console as well as for sessions.
* `Likeness.truncated` takes it through the evaluation of trees.
-/

namespace SmallScript

open Eval

/-! ## Consoles -/

namespace Console

def limited (n : Nat) (error : String) (c : Console) : Console :=
  { c with sink := c.sink.upTo n error }

/-- What has been written on the second console fits on the first one, which has room for `n` bytes. -/
structure Fits (n : Nat) (error : String) (c c' : Console) : Prop where
  storesAll : c'.sink.StoresAll
  size : c'.output.size ≤ n
  same : c = c'.limited n error

/-- What has been written on the second console does not fit on the first one. -/
structure CutAt (n : Nat) (c c' : Console) : Prop where
  size : n < c'.output.size
  output : c.output = c'.output.extract 0 n

/-- What is written later does not change which bytes have been written first. -/
theorem CutAt.onward {n : Nat} {c c' c'' : Console} (cut : CutAt n c c') (more : c'.Extends c'') :
    CutAt n c c'' := by
  obtain ⟨bytes, written⟩ := more
  obtain ⟨size, output⟩ := cut
  refine ⟨?_, ?_⟩
  · rw [written, ByteArray.size_append]
    omega
  · have none : bytes.extract (0 - c'.output.size) (n - c'.output.size) = .empty := by
      rw [ByteArray.extract_eq_empty_iff]
      omega
    rw [written, ByteArray.extract_append, none, ByteArray.append_empty, output]

end Console

/-! ## Being cut off -/

/-- A kind of program that is run on two states, of which the first has less room for output. -/
structure Cutoff (ε σ : Type) where
  console : σ → Console
  /-- The states differ in the room for output only. -/
  alike : σ → σ → Prop
  /-- The errors which say that there is no more room. -/
  full : ε → Prop

namespace Cutoff

variable {ε σ α β : Type} (K : Cutoff ε σ) (n : Nat)

/-- The console of the state that a run leaves behind, however it ends. -/
def consoleAfter (x : EStateM ε σ α) (s : σ) : Console :=
  match x s with
  | .ok _ s => K.console s
  | .error _ s => K.console s

/-- On these two states the program ends alike, or it is cut off on the first. -/
inductive Ends (x : EStateM ε σ α) (a b : σ) : Prop where
  | value {v a' b'} (first : x a = .ok v a') (second : x b = .ok v b') (alike : K.alike a' b')
  | error {e a' b'} (first : x a = .error e a') (second : x b = .error e b') (alike : K.alike a' b')
  | cut {e a'} (first : x a = .error e a') (full : K.full e)
      (cut : (K.console a').CutAt n (K.consoleAfter x b))

/-- A program that is only cut off by a limit of `n` bytes, and that takes back nothing it has written. -/
structure Truncates (x : EStateM ε σ α) : Prop where
  ends : ∀ a b, K.alike a b → K.Ends n x a b
  grows : ∀ b, (K.console b).Extends (K.consoleAfter x b)

namespace Truncates

variable {K n}

theorem pure (v : α) : K.Truncates n (Pure.pure v : EStateM ε σ α) where
  ends _ _ alike := .value rfl rfl alike
  grows _ := .refl _

theorem throw (e : ε) : K.Truncates n (MonadExcept.throw e : EStateM ε σ α) where
  ends _ _ alike := .error rfl rfl alike
  grows _ := .refl _

theorem bind {x : EStateM ε σ α} {f : α → EStateM ε σ β} (first : K.Truncates n x)
    (next : ∀ v, K.Truncates n (f v)) : K.Truncates n (x >>= f) := by
  have goesOn (b : σ) : (K.consoleAfter x b).Extends (K.consoleAfter (x >>= f) b) := by
    unfold consoleAfter
    cases ends : x b with
    | ok v b' =>
      rw [bind_of_ok ends]
      exact (next v).grows b'
    | error e b' =>
      rw [bind_of_error ends]
      exact .refl _
  -- once cut off, nothing that follows can bring the output back below the limit
  refine ⟨fun a b alike => ?_, fun b => (first.grows b).trans (goesOn b)⟩
  cases first.ends a b alike with
  | @value v a' b' ends ends' alike =>
    have same := bind_of_ok (f := f) ends
    have same' := bind_of_ok (f := f) ends'
    cases (next v).ends a' b' alike with
    | value ends ends' alike => exact .value (same.trans ends) (same'.trans ends') alike
    | error ends ends' alike => exact .error (same.trans ends) (same'.trans ends') alike
    | cut ends full cut =>
      refine .cut (same.trans ends) full ?_
      unfold consoleAfter at cut ⊢
      rwa [same']
  | error ends ends' alike => exact .error (bind_of_error ends) (bind_of_error ends') alike
  | cut ends full cut => exact .cut (bind_of_error ends) full (cut.onward (goesOn b))

end Truncates

end Cutoff

/-! ## Actions on the console -/

namespace Console

def cutoff (n : Nat) (error : String) : Cutoff String Console where
  console := id
  alike := Fits n error
  full e := e = error

variable {n : Nat} {error : String}

theorem Adds.grows {α : Type} {action : Action α} (adds : Adds action) (c : Console) :
    c.Extends ((cutoff n error).consoleAfter action c) := by
  have added := adds c
  unfold Cutoff.consoleAfter
  cases ends : action c with
  | ok v c' =>
    rw [ends] at added
    exact added
  | error e c' =>
    rw [ends] at added
    exact added

theorem write_limited_of_le {c : Console} (storesAll : c.sink.StoresAll) {text : String}
    (fits : c.output.size + text.toUTF8.size ≤ n) :
    write text (c.limited n error) =
      .ok () { c.limited n error with calls := .write text :: c.calls, output := c.output ++ text.toUTF8 } := by
  unfold write limited Sink.upTo
  simp only [fits, if_true, storesAll _ _ _]

theorem write_limited_of_lt {c : Console} {text : String} (full : n < c.output.size + text.toUTF8.size) :
    write text (c.limited n error) = .error error
      { c.limited n error with
        calls := .write text :: c.calls
        output := c.output ++ text.toUTF8.extract 0 (n - c.output.size) } := by
  unfold write limited Sink.upTo
  simp only [Nat.not_le.mpr full, if_false]

theorem truncates_write (text : String) : (cutoff n error).Truncates n (write text) where
  grows := (Adds.write text).grows
  ends := by
    rintro _ c ⟨storesAll, size, rfl⟩
    have second := write_of_storesAll storesAll text
    by_cases fits : c.output.size + text.toUTF8.size ≤ n
    · refine .value (write_limited_of_le storesAll fits) second ⟨storesAll, ?_, rfl⟩
      rwa [ByteArray.size_append]
    · have full := Nat.not_le.mp fits
      have after : ((cutoff n error).consoleAfter (write text) c).output = c.output ++ text.toUTF8 := by
        unfold Cutoff.consoleAfter
        rw [second]
        rfl
      refine .cut (write_limited_of_lt full) rfl ⟨?_, ?_⟩
      · rwa [after, ByteArray.size_append]
      · have whole : c.output.extract 0 n = c.output := by
          rw [← Nat.max_eq_left size, ByteArray.extract_zero_max_size]
        rw [after]
        simp only [cutoff, id, ByteArray.extract_append, whole, Nat.zero_sub]

/-- An action that writes nothing and does not look at the room for it. -/
theorem truncates_of_silent {α : Type} {action : Action α} (adds : Adds action)
    (silent : ∀ c, match action c with
      | .ok v c' =>
        c'.sink = c.sink ∧ c'.output = c.output ∧ action (c.limited n error) = .ok v (c'.limited n error)
      | .error e c' =>
        c'.sink = c.sink ∧ c'.output = c.output ∧ action (c.limited n error) = .error e (c'.limited n error)) :
    (cutoff n error).Truncates n action where
  grows := adds.grows
  ends := by
    rintro _ c ⟨storesAll, size, rfl⟩
    have same := silent c
    cases ends : action c with
    | ok v c' =>
      rw [ends] at same
      obtain ⟨sink, output, first⟩ := same
      exact .value first ends ⟨sink ▸ storesAll, output ▸ size, rfl⟩
    | error e c' =>
      rw [ends] at same
      obtain ⟨sink, output, first⟩ := same
      exact .error first ends ⟨sink ▸ storesAll, output ▸ size, rfl⟩

theorem truncates_flush : (cutoff n error).Truncates n flush := by
  refine truncates_of_silent .flush ?_
  rintro ⟨input, asked, sink, calls, output⟩
  cases answer : sink.flush calls output with
  | ok _ => simp [flush, limited, Sink.upTo, answer]
  | error e => simp [flush, limited, Sink.upTo, answer]

theorem truncates_readLine : (cutoff n error).Truncates n readLine := by
  refine truncates_of_silent .readLine ?_
  rintro ⟨input, asked, sink, calls, output⟩
  cases answer : input asked with
  | ok text => simp [readLine, limited, answer]
  | error e => simp [readLine, limited, answer]

end Console

/-! ## Runs -/

namespace Machine

/-- The machines differ in their consoles only, and there in the room for output. -/
structure Fits (n : Nat) (error : String) (a b : Machine) : Prop where
  console : a.console.Fits n error b.console
  same : a = { b with console := a.console }

namespace Fits

variable {n : Nat} {error : String} {a b : Machine}

theorem withConsole (fits : a.Fits n error b) {c c' : Console} (consoles : c.Fits n error c') :
    ({ a with console := c } : Machine).Fits n error { b with console := c' } where
  console := consoles
  same := by rw [fits.same]

theorem define (fits : a.Fits n error b) (name : String) (v : Value) :
    (a.define name v).Fits n error (b.define name v) := by
  obtain ⟨scopes, functions, callDepth, console⟩ := b
  obtain ⟨consoles, same⟩ := fits
  rw [same]
  cases scopes <;> exact ⟨consoles, rfl⟩

theorem declare (fits : a.Fits n error b) (declaration : Declaration) :
    (a.declare declaration).Fits n error (b.declare declaration) where
  console := fits.console
  same := by
    rw [fits.same]
    rfl

theorem enter (fits : a.Fits n error b) (frame : Scope) : (a.enter frame).Fits n error (b.enter frame) where
  console := fits.console
  same := by
    rw [fits.same]
    rfl

theorem leave (fits : a.Fits n error b) : a.leave.Fits n error b.leave := by
  obtain ⟨scopes, functions, callDepth, console⟩ := b
  obtain ⟨consoles, same⟩ := fits
  rw [same]
  match scopes with
  | [] | [_] | _ :: _ :: _ => exact ⟨consoles, rfl⟩

end Fits

end Machine

namespace Likeness

/-- The runs are the same, or the first one has been cut off because its console is full. -/
def truncated (n : Nat) (error : String) : Likeness Unit where
  lines := Eq
  trees _ _ := Eq
  declarations := Eq
  machines _ := Machine.Fits n error
  cut halt c c' := (∃ line, halt = .fault ⟨.console error, line⟩) ∧ c.CutAt n c'
  onward := fun ⟨halted, cut⟩ more => ⟨halted, cut.onward more⟩

variable {n : Nat} {error : String}

theorem console_after_onConsole {α : Type} (action : Console.Action α) (line : Nat) (m : Machine) :
    (after (onConsole line action) m).console = (Console.cutoff n error).consoleAfter action m.console := by
  unfold after Cutoff.consoleAfter
  cases done : action m.console with
  | ok v c =>
    rw [onConsole_of_ok done]
    rfl
  | error cause c =>
    rw [onConsole_of_error done]
    rfl

theorem Coupled.onConsole_truncated {i : Unit} {α : Type} {action : Console.Action α}
    (truncates : (Console.cutoff n error).Truncates n action) (line : Nat) :
    (truncated n error).Coupled i (Eval.onConsole line action) (Eval.onConsole line action) where
  grows _ m := by
    rw [console_after_onConsole]
    exact truncates.grows m.console
  ends a b fits := by
    cases truncates.ends a.console b.console fits.console with
    | value first second alike =>
      exact .value (onConsole_of_ok first line) (onConsole_of_ok second line) (fits.withConsole alike)
    | error first second alike =>
      exact .halt (onConsole_of_error first line) (onConsole_of_error second line) (.fault rfl)
        (fits.withConsole alike)
    | cut first full cut =>
      cases full
      refine .cut (onConsole_of_error first line) ⟨⟨line, rfl⟩, ?_⟩
      rw [console_after_onConsole]
      exact cut

theorem lawful_truncated (settings : Settings) : (truncated n error).Lawful settings settings where
  trees := by
    rintro i use x _ rfl
    exact .refl (fun _ => rfl) (fun _ _ => rfl) (fun _ => rfl) x
  stray := by
    rintro i x _ rfl
    rfl
  params := by
    rintro d _ rfl
    rfl
  lookup fits name := by
    rw [fits.same]
    rfl
  functions := by
    intro i a b fits name
    have same : a.functions = b.functions := by rw [fits.same]
    rw [same]
    cases b.functions[name]? with
    | none => exact .none
    | some d => exact .some rfl
  callDepth fits := by rw [fits.same]
  write := by
    rintro i l _ rfl v
    exact .onConsole_truncated (Console.truncates_write _) l
  read := by
    rintro i l _ rfl prompt
    have wrote : (Console.cutoff n error).Truncates n (Console.write prompt) := Console.truncates_write prompt
    have truncates := wrote.bind fun _ => Console.truncates_flush.bind fun _ => Console.truncates_readLine
    exact (Coupled.onConsole_truncated truncates l).bind fun _ => .pure _
  define fits := fits.define
  declare := by
    rintro i a b d _ fits rfl
    exact fits.declare d
  call := by
    rintro i a b d _ fits rfl frame
    exact ⟨(), fits.enter frame, rfl, fun _ _ fits => fits.leave⟩
  limit := Nat.le_refl _
  exceeded _ _ := .inl rfl
  grows _ := grows_eval settings

end Likeness

/-! ## Sessions -/

namespace Script

/-- Sessions on two machines, of which the first has room for `n` bytes. -/
def cutoff (n : Nat) (error : String) : Cutoff Failure Machine where
  console := Machine.console
  alike := Machine.Fits n error
  full failure := ∃ line, failure = .run (.fault ⟨.console error, line⟩)

variable {n : Nat} {error : String}

theorem consoleAfter_eq {α : Type} (x : Session α) (m : Machine) :
    (cutoff n error).consoleAfter x m = (after x m).console := by
  unfold Cutoff.consoleAfter after
  cases x m <;> rfl

theorem after_perform {α : Type} (x : Eval α) (m : Machine) : after (perform x) m = Eval.after x m := by
  unfold after Eval.after
  cases ends : x m with
  | ok v m' => rw [perform_of_ok ends]
  | error halt m' => rw [perform_of_error ends]

theorem truncates_perform {α : Type} {x : Eval α} (coupled : (Likeness.truncated n error).Coupled () x x)
    (grows : Grows x) : (cutoff n error).Truncates n (perform x) where
  grows m := by
    rw [consoleAfter_eq, after_perform]
    exact grows m
  ends a b fits := by
    cases coupled.ends a b fits with
    | value first second alike => exact .value (perform_of_ok first) (perform_of_ok second) alike
    | halt first second halts alike =>
      refine .error (perform_of_error first) ?_ alike
      cases halts with
      | fault same => cases same; exact perform_of_error second
      | unfinished => exact perform_of_error second
    | cut first cut =>
      obtain ⟨⟨line, rfl⟩, cut⟩ := cut
      refine .cut (perform_of_error first) ⟨line, rfl⟩ ?_
      rw [consoleAfter_eq, after_perform]
      exact cut

theorem truncates_read (line : Nat) (source : String) : (cutoff n error).Truncates n (read line source) := by
  unfold read
  cases parseAt line source with
  | ok statements => exact .pure statements
  | error fault => exact .throw _

theorem truncates_evaluate (settings : Settings) (budget : Nat) (statements : List Node) :
    (cutoff n error).Truncates n (perform (evaluate settings budget statements)) := by
  have same : List.Forall₂ ((Likeness.truncated n error).trees () .value) statements statements :=
    List.forall₂_same.mpr fun _ _ => rfl
  exact truncates_perform ((Likeness.lawful_truncated settings).evaluate budget same)
    (grows_evaluate settings budget statements)

theorem truncates_echo (v : Value) (line : Nat) : (cutoff n error).Truncates n (echo v line) := by
  unfold echo
  split
  · exact .pure ()
  · exact truncates_perform (.onConsole_truncated (Console.truncates_write _) line) (grows_writeLine v line)

theorem truncates_conclude (printsValue : Bool) (statements : List Node) (v : Value) :
    (cutoff n error).Truncates n (conclude printsValue statements v) := by
  cases printsValue with
  | false => exact .pure v
  | true => exact (truncates_echo v _).bind fun _ => .pure v

variable (settings : Settings) (budget : Nat)

theorem truncates_run (printsValue : Bool) (source : String) :
    (cutoff n error).Truncates n (run settings budget printsValue source) := by
  refine (truncates_read 1 source).bind fun statements => ?_
  refine (truncates_evaluate settings budget statements).bind fun v => ?_
  exact truncates_conclude printsValue statements v

theorem truncates_runLine (line : Nat) (text : List Char) :
    (cutoff n error).Truncates n (runLine settings budget line text) := by
  unfold runLine
  cases Text.isBlankText text with
  | true => exact .pure ()
  | false =>
    refine (truncates_read line _).bind fun statements => ?_
    exact (truncates_evaluate settings budget statements).bind fun v => truncates_echo v line

theorem truncates_runLinesFrom (line : Nat) (texts : List (List Char)) :
    (cutoff n error).Truncates n (runLinesFrom settings budget line texts) := by
  induction texts generalizing line with
  | nil => exact .pure ()
  | cons text rest ih =>
    rw [runLinesFrom]
    exact (truncates_runLine settings budget line text).bind fun _ => ih (line + 1)

/-- What a stream does to a session if it stores `n` bytes and then fails with `error`.  If all that the
    session writes on a stream that stores everything fits, it ends in the same way, it has written the same
    and has read the same lines.  Otherwise it fails with that error, and what has been written are the first
    `n` bytes. -/
def TruncatedAt {α : Type} (n : Nat) (error : String) (action : Session α) (input : Nat → Except String String)
    (sink : Sink) : Prop :=
  let unlimited := Machine.fresh (.fresh input sink)
  let limited := Machine.fresh (.fresh input (sink.upTo n error))
  let written := (after action unlimited).console.output
  (written.size ≤ n → outcome action limited = outcome action unlimited ∧
    (after action limited).console.output = written ∧
    (after action limited).console.asked = (after action unlimited).console.asked) ∧
  (n < written.size → (∃ line, outcome action limited = .error (.run (.fault ⟨.console error, line⟩))) ∧
    (after action limited).console.output = written.extract 0 n)

theorem truncatedAt_of_truncates {α : Type} {action : Session α} (truncates : (cutoff n error).Truncates n action)
    (input : Nat → Except String String) {sink : Sink} (storesAll : sink.StoresAll) :
    TruncatedAt n error action input sink := by
  unfold TruncatedAt
  intro unlimited limited written
  have start : limited.Fits n error unlimited := ⟨⟨storesAll, Nat.zero_le n, rfl⟩, rfl⟩
  -- when both end alike, all that has been written fits
  have alike (same : outcome action limited = outcome action unlimited)
      (fits : (after action limited).Fits n error (after action unlimited)) :
      written.size ≤ n ∧ outcome action limited = outcome action unlimited ∧
        (after action limited).console.output = written ∧
        (after action limited).console.asked = (after action unlimited).console.asked := by
    obtain ⟨_, size, console⟩ := fits.console
    refine ⟨size, same, ?_, ?_⟩
    · rw [console]
      rfl
    · rw [console]
      rfl
  have apart (fits : written.size ≤ n) {P : Prop} (more : n < written.size) : P :=
    absurd fits (Nat.not_le.mpr more)
  cases truncates.ends limited unlimited start with
  | value first second fits | error first second fits =>
    obtain ⟨size, same⟩ := alike (by unfold outcome; rw [first, second])
      (by unfold after; rw [first, second]; exact fits)
    exact ⟨fun _ => same, apart size⟩
  | cut first full cut =>
    rw [consoleAfter_eq] at cut
    obtain ⟨line, rfl⟩ := full
    refine ⟨fun size => apart size cut.size, fun _ => ⟨⟨line, outcome_of_error first⟩, ?_⟩⟩
    unfold after
    rw [first]
    exact cut.output

/-- A full stream cuts a script off and does nothing else, be the script run as a whole or line by line, and the
    fault carries the error of the stream.  This is so with every budget, and hence for each run that ends on a
    stream that stores everything, whatever that one says when it is flushed. -/
theorem full_stream_truncates (settings : Settings) (budget : Nat) (source : String)
    (input : Nat → Except String String) (flush : List OutputCall → ByteArray → Except String Unit) (n : Nat)
    (error : String) :
    (∀ printsValue,
      TruncatedAt n error (run settings budget printsValue source) input { Sink.endless with flush }) ∧
    TruncatedAt n error (runLines settings budget source) input { Sink.endless with flush } := by
  have storesAll : ({ Sink.endless with flush } : Sink).StoresAll := fun _ _ _ => rfl
  constructor
  · intro printsValue
    exact truncatedAt_of_truncates (truncates_run settings budget printsValue source) input storesAll
  · exact truncatedAt_of_truncates (truncates_runLinesFrom settings budget 1 _) input storesAll

/-- The limit is reached in the middle of the second line that the script prints. -/
theorem full_stream_truncates_second_print :
    let script := run .standard 5 false "print true; print false"
    let unlimited := Machine.fresh (.fresh (Console.ofBytes []) .endless)
    let limited := Machine.fresh (.fresh (Console.ofBytes []) (Sink.endless.upTo 7 "disk full"))
    (after script unlimited).console.output = "true\nfalse\n".toUTF8 ∧
    (∃ line, outcome script limited = .error (.run (.fault ⟨.console "disk full", line⟩))) ∧
    (after script limited).console.output = "true\nfa".toUTF8 := by
  intro script unlimited limited
  have scanned : lexemes 1 "print true; print false" = .ok
      [⟨.symbol .printWord, 1⟩, ⟨.truth true, 1⟩, ⟨.symbol .semicolon, 1⟩, ⟨.symbol .printWord, 1⟩,
        ⟨.truth false, 1⟩, ⟨.endOfInput, 1⟩] := by cbv
  have parsed : parseAt 1 "print true; print false" = .ok [.print (.truth true 1) 1, .print (.truth false 1) 1] :=
    parseAt_eq_ok_iff.mpr ⟨_, scanned, by rfl⟩
  have written : (after script unlimited).console.output = "true\nfalse\n".toUTF8 :=
    (congrArg (·.console.output) (ends_congr (run_of_parsed parsed unlimited)).2).trans (by rfl)
  have more : 7 < (after script unlimited).console.output.size := by
    rw [written]
    decide
  obtain ⟨full, first⟩ := ((full_stream_truncates .standard 5 "print true; print false" (Console.ofBytes [])
    Sink.endless.flush 7 "disk full").1 false).2 more
  refine ⟨written, full, first.trans ?_⟩
  rw [written]
  rfl

end Script

end SmallScript
