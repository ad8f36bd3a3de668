import SmallScript.Fault

/-! # The console

Where a script reads lines and writes text.  Both streams belong to whoever runs the script, and any
stream will do: a console holds the answers of its streams as functions, and asks them.

* `Console.input k` is what the call for line number `k` gives, counted from 0.  Behind the end of the
  input that is an empty text.
* `Sink` says how an output stream answers, given all that has been done on it before.  Of a text that it
  refuses it may have stored the first bytes.
* An error is known by its text.  A call that is only interrupted is made again by the stream's own
  library, so an interruption is no answer.
-/

namespace SmallScript

inductive OutputCall where
  | write (text : String)
  | flush
  deriving DecidableEq, Repr, Inhabited

/-- The answers of an output stream, which depend on the earlier calls, the latest one first, and on the
    bytes that are stored. -/
structure Sink where
  /-- The text is stored, or so many of its bytes are and then the call fails. -/
  write : List OutputCall → ByteArray → String → Except (Nat × String) Unit
  flush : List OutputCall → ByteArray → Except String Unit

namespace Sink

def endless : Sink where
  write _ _ _ := .ok ()
  flush _ _ := .ok ()

/-- The stream with room for `n` bytes in all.  A text that does not fit is stored as far as it does, and
    fails with `error`. -/
def upTo (n : Nat) (error : String) (sink : Sink) : Sink where
  write calls stored text :=
    if stored.size + text.toUTF8.size ≤ n then sink.write calls stored text
    else .error (n - stored.size, error)
  flush := sink.flush

end Sink

structure Console where
  input : Nat → Except String String
  /-- How many lines have been asked for. -/
  asked : Nat
  sink : Sink
  /-- The calls that have been made, the latest one first. -/
  calls : List OutputCall
  /-- The bytes that have been stored. -/
  output : ByteArray

namespace Console

def fresh (input : Nat → Except String String) (sink : Sink) : Console :=
  ⟨input, 0, sink, [], .empty⟩

/-! ## Typed bytes -/

/-- Cuts bytes into lines, their line feeds included. -/
def cutLines (bytes : List UInt8) : List (List UInt8) :=
  bytes.foldr (fun byte lines =>
    match lines with
    | [] => [[byte]]
    | line :: others => if byte = 10 then [byte] :: lines else (byte :: line) :: others) []

def lineOfBytes (line : List UInt8) : Except String String :=
  match String.fromUTF8? ⟨line.toArray⟩ with
  | some text => .ok text
  | none => .error "stream did not contain valid UTF-8"

def ofBytes (bytes : List UInt8) : Nat → Except String String :=
  let lines := ((cutLines bytes).map lineOfBytes).toArray
  fun k => (lines[k]?).getD (.ok "")

/-- A console without limits on which the given bytes are typed. -/
def ofInput (bytes : List UInt8) : Console :=
  fresh (ofBytes bytes) .endless

/-! ## Actions -/

/-- Something done on a console.  A failure keeps what was done before it. -/
abbrev Action := EStateM String Console

def write (text : String) : Action Unit := fun ⟨input, asked, sink, calls, output⟩ =>
  match sink.write calls output text with
  | .ok () => .ok () ⟨input, asked, sink, .write text :: calls, output ++ text.toUTF8⟩
  | .error (stored, error) =>
    .error error ⟨input, asked, sink, .write text :: calls, output ++ text.toUTF8.extract 0 stored⟩

def flush : Action Unit := fun ⟨input, asked, sink, calls, output⟩ =>
  match sink.flush calls output with
  | .ok () => .ok () ⟨input, asked, sink, .flush :: calls, output⟩
  | .error error => .error error ⟨input, asked, sink, .flush :: calls, output⟩

def readLine : Action String := fun ⟨input, asked, sink, calls, output⟩ =>
  match input asked with
  | .ok text => .ok text ⟨input, asked + 1, sink, calls, output⟩
  | .error error => .error error ⟨input, asked + 1, sink, calls, output⟩

end Console

end SmallScript
