import SmallScript.Proofs.Evaluation.Parts

/-! # What has been written before

A run cannot look at what has been written, it can only write more.  On a stream that stores everything
and does not look back either, what has been done before a run makes no difference to it and stays where
it is.

* `Machine.behind before m` is `m` as it would be if all that was done on the console `before` had been
  done first.
* `evaluate_behind`: a run on `m.behind before` is the run on `m`, with the output of `before` in front.
* `grows_eval`: on any stream, what has been written stays where it is.
-/

namespace SmallScript

/-! ## Consoles -/

def Sink.StoresAll (sink : Sink) : Prop :=
  ∀ calls stored text, sink.write calls stored text = .ok ()

/-- A stream that stores every text.  What it says when it is flushed does not depend on earlier calls. -/
structure Sink.Steady (sink : Sink) : Prop where
  write : sink.StoresAll
  flush : ∃ answer, ∀ calls stored, sink.flush calls stored = answer

theorem Sink.steady_endless : Sink.endless.Steady :=
  ⟨fun _ _ _ => rfl, .ok (), fun _ _ => rfl⟩

namespace Console

/-- The console with nothing written yet. -/
def silent (c : Console) : Console :=
  { c with calls := [], output := .empty }

/-- The console as it would be if all that was done on the other one had been done first. -/
def behind (c before : Console) : Console :=
  { c with calls := c.calls ++ before.calls, output := before.output ++ c.output }

/-- On a steady stream the action can only add to what has been done before. -/
def Appends {α : Type} (action : Action α) : Prop :=
  ∀ before c : Console, c.sink.Steady →
    match action c with
    | .ok v c' => c'.sink.Steady ∧ action (c.behind before) = .ok v (c'.behind before)
    | .error error c' => c'.sink.Steady ∧ action (c.behind before) = .error error (c'.behind before)

theorem write_of_storesAll {c : Console} (storesAll : c.sink.StoresAll) (text : String) :
    write text c = .ok () { c with calls := .write text :: c.calls, output := c.output ++ text.toUTF8 } := by
  obtain ⟨input, asked, sink, calls, output⟩ := c
  unfold write
  dsimp only
  rw [storesAll]

namespace Appends

variable {α β : Type}

theorem bind {x : Action α} {f : α → Action β} (first : Appends x) (next : ∀ v, Appends (f v)) :
    Appends (x >>= f) := by
  intro before c steady
  have started := first before c steady
  cases ends : x c with
  | ok v c' =>
    rw [ends] at started
    rw [Eval.bind_of_ok ends, Eval.bind_of_ok started.2]
    exact next v before c' started.1
  | error error c' =>
    rw [ends] at started
    rw [Eval.bind_of_error ends, Eval.bind_of_error started.2]
    exact ⟨started.1, rfl⟩

theorem write (text : String) : Appends (Console.write text) := by
  intro before c steady
  have storesAll : (c.behind before).sink.StoresAll := steady.write
  rw [write_of_storesAll steady.write, write_of_storesAll storesAll]
  refine ⟨steady, ?_⟩
  simp [behind, ByteArray.append_assoc]

theorem flush : Appends Console.flush := by
  rintro before ⟨input, asked, sink, calls, output⟩ steady
  obtain ⟨answer, always⟩ : ∃ answer, ∀ calls stored, sink.flush calls stored = answer := steady.flush
  cases answer with
  | ok _ => simpa [Console.flush, behind, always] using steady
  | error error => simpa [Console.flush, behind, always] using steady

theorem readLine : Appends Console.readLine := by
  rintro before ⟨input, asked, sink, calls, output⟩ steady
  cases answer : input asked with
  | ok text => simpa [Console.readLine, behind, answer] using steady
  | error error => simpa [Console.readLine, behind, answer] using steady

end Appends

/-- The action can only add to what has been written. -/
def Adds {α : Type} (action : Action α) : Prop :=
  ∀ c : Console, match action c with
    | .ok _ c' => c.Extends c'
    | .error _ c' => c.Extends c'

namespace Adds

variable {α β : Type}

theorem bind {x : Action α} {f : α → Action β} (first : Adds x) (next : ∀ v, Adds (f v)) :
    Adds (x >>= f) := by
  intro c
  have started := first c
  cases ends : x c with
  | ok v c' =>
    have added := next v c'
    rw [ends] at started
    rw [Eval.bind_of_ok ends]
    cases ends' : f v c' with
    | ok w c'' =>
      rw [ends'] at added
      exact started.trans added
    | error cause c'' =>
      rw [ends'] at added
      exact started.trans added
  | error cause c' =>
    rw [ends] at started
    rw [Eval.bind_of_error ends]
    exact started

theorem write (text : String) : Adds (Console.write text) := by
  rintro ⟨input, asked, sink, calls, output⟩
  cases answer : sink.write calls output text with
  | ok _ =>
    simp only [Console.write, answer]
    exact ⟨_, rfl⟩
  | error refusal =>
    simp only [Console.write, answer]
    exact ⟨_, rfl⟩

theorem flush : Adds Console.flush := by
  rintro ⟨input, asked, sink, calls, output⟩
  cases answer : sink.flush calls output with
  | ok _ =>
    simp only [Console.flush, answer]
    exact ⟨.empty, by simp⟩
  | error error =>
    simp only [Console.flush, answer]
    exact ⟨.empty, by simp⟩

theorem readLine : Adds Console.readLine := by
  rintro ⟨input, asked, sink, calls, output⟩
  cases answer : input asked with
  | ok text =>
    simp only [Console.readLine, answer]
    exact ⟨.empty, by simp⟩
  | error error =>
    simp only [Console.readLine, answer]
    exact ⟨.empty, by simp⟩

end Adds

end Console

/-! ## Machines -/

namespace Machine

def silent (m : Machine) : Machine :=
  { m with console := m.console.silent }

def behind (before : Console) (m : Machine) : Machine :=
  { m with console := m.console.behind before }

variable {before : Console} {m m' : Machine}

theorem behind_silent (m : Machine) : m.silent.behind m.console = m := by
  simp [silent, behind, Console.silent, Console.behind]

@[simp] theorem silent_behind (before : Console) (m : Machine) : (m.behind before).silent = m.silent := rfl

@[simp] theorem output_behind (before : Console) (m : Machine) :
    (m.behind before).console.output = before.output ++ m.console.output := rfl

theorem steady_of_silent (same : m'.silent = m.silent) (steady : m.console.sink.Steady) :
    m'.console.sink.Steady := by
  have sinks : m'.console.sink = m.console.sink := congrArg (·.console.sink) same
  rwa [sinks]

theorem define_behind (name : String) (value : Value) :
    (m.behind before).define name value = (m.define name value).behind before := by
  obtain ⟨scopes, functions, callDepth, console⟩ := m
  cases scopes <;> rfl

theorem leave_behind : (m.behind before).leave = m.leave.behind before := by
  obtain ⟨scopes, functions, callDepth, console⟩ := m
  match scopes with
  | [] | [_] | _ :: _ :: _ => rfl

end Machine

open Eval

/-- On the second machine all that was done on the console had been done before, and the stream is steady. -/
def BehindBy (before : Console) (a b : Machine) : Prop :=
  a.console.sink.Steady ∧ b = a.behind before

theorem together_onConsole_behindBy {α : Type} {action : Console.Action α} (appends : Console.Appends action)
    (before : Console) (line : Nat) :
    Together (BehindBy before) (onConsole line action) (onConsole line action) := by
  rintro a _ ⟨steady, rfl⟩
  have started := appends before a.console steady
  unfold outcome after
  cases ends : action a.console with
  | ok v c =>
    rw [ends] at started
    rw [onConsole_of_ok ends, onConsole_of_ok started.2]
    exact ⟨rfl, started.1, rfl⟩
  | error error c =>
    rw [ends] at started
    rw [onConsole_of_error ends, onConsole_of_error started.2]
    exact ⟨rfl, started.1, rfl⟩

theorem simulation_behindBy (scoping : Scoping) : Simulation scoping BehindBy where
  lookup := by
    rintro before a _ ⟨_, rfl⟩ name
    rfl
  functions := by
    rintro before a _ ⟨_, rfl⟩ name
    rfl
  callDepth := by
    rintro before a _ ⟨_, rfl⟩
    rfl
  write := fun _ line => together_onConsole_behindBy (.write _) _ line
  read := by
    intro before prompt line
    -- the prompt is written and flushed before the line is read
    have appends := (Console.Appends.write prompt).bind fun _ => Console.Appends.flush.bind fun _ => .readLine
    exact (together_onConsole_behindBy appends before line).bind fun _ => .pure _
  define := by
    rintro before a _ ⟨steady, rfl⟩ name value
    exact ⟨by rwa [Machine.console_define], Machine.define_behind name value⟩
  declare := by
    rintro before a _ ⟨steady, rfl⟩ declaration
    exact ⟨steady, rfl⟩
  call := by
    rintro before a _ ⟨steady, rfl⟩ frame
    refine ⟨before, ⟨steady, rfl⟩, ?_⟩
    rintro a' _ ⟨steady', rfl⟩
    exact ⟨by rwa [Machine.console_leave], Machine.leave_behind⟩

/-- What has been done before a run makes no difference to it, and what has been written stays in front. -/
theorem evaluate_behind (settings : Settings) (budget : Nat) (statements : List Node) (before : Console)
    {m : Machine} (steady : m.console.sink.Steady) :
    match evaluate settings budget statements m with
    | .ok v m' => m'.console.sink.Steady ∧
        evaluate settings budget statements (m.behind before) = .ok v (m'.behind before)
    | .error halt m' => m'.console.sink.Steady ∧
        evaluate settings budget statements (m.behind before) = .error halt (m'.behind before) := by
  obtain ⟨same, steady', alike⟩ := (simulation_behindBy settings.scoping).evaluate budget before statements m
    (m.behind before) ⟨steady, rfl⟩
  unfold outcome at same
  unfold after at steady' alike
  cases ends : evaluate settings budget statements m <;>
    cases ends' : evaluate settings budget statements (m.behind before) <;> simp_all

/-! ## What has been written stays -/

/-- The machines are the same, and hold all that had been written on the console. -/
def Beyond (c : Console) (a b : Machine) : Prop :=
  a = b ∧ c.Extends a.console

theorem together_onConsole_beyond {α : Type} {action : Console.Action α} (adds : Console.Adds action)
    (c : Console) (line : Nat) : Together (Beyond c) (onConsole line action) (onConsole line action) := by
  rintro a _ ⟨rfl, beyond⟩
  have added := adds a.console
  refine ⟨rfl, rfl, ?_⟩
  unfold after
  cases ends : action a.console with
  | ok v c' =>
    rw [ends] at added
    rw [onConsole_of_ok ends]
    exact beyond.trans added
  | error cause c' =>
    rw [ends] at added
    rw [onConsole_of_error ends]
    exact beyond.trans added

theorem simulation_beyond (scoping : Scoping) : Simulation scoping Beyond where
  lookup := by
    rintro c a _ ⟨rfl, _⟩ name
    rfl
  functions := by
    rintro c a _ ⟨rfl, _⟩ name
    rfl
  callDepth := by
    rintro c a _ ⟨rfl, _⟩
    rfl
  write := fun _ line => together_onConsole_beyond (.write _) _ line
  read := by
    intro c prompt line
    have adds := (Console.Adds.write prompt).bind fun _ => Console.Adds.flush.bind fun _ => .readLine
    exact (together_onConsole_beyond adds c line).bind fun _ => .pure _
  define := by
    rintro c a _ ⟨rfl, beyond⟩ name value
    exact ⟨rfl, by rwa [Machine.console_define]⟩
  declare := by
    rintro c a _ ⟨rfl, beyond⟩ declaration
    exact ⟨rfl, beyond⟩
  call := by
    rintro c a _ ⟨rfl, beyond⟩ frame
    refine ⟨c, ⟨rfl, beyond⟩, ?_⟩
    rintro a' _ ⟨rfl, beyond'⟩
    exact ⟨rfl, by rwa [Machine.console_leave]⟩

/-- Runs only add to the output. -/
theorem grows_eval (settings : Settings) (budget : Nat) (node : Node) : Grows (eval settings budget node) := by
  intro m
  exact ((simulation_beyond settings.scoping).eval budget m.console node m m ⟨rfl, .refl _⟩).2.2

theorem grows_evaluate (settings : Settings) (budget : Nat) (statements : List Node) :
    Grows (evaluate settings budget statements) := by
  intro m
  exact ((simulation_beyond settings.scoping).evaluate budget m.console statements m m ⟨rfl, .refl _⟩).2.2

theorem grows_writeLine (v : Value) (line : Nat) : Grows (writeLine v line) := by
  intro m
  exact (together_onConsole_beyond (.write _) m.console line m m ⟨rfl, .refl _⟩).2.2

theorem grows_readValue (prompt : String) (line : Nat) : Grows (readValue prompt line) := by
  intro m
  exact ((simulation_beyond .lexical).read prompt line m m ⟨rfl, .refl _⟩).2.2

end SmallScript
