import SmallScript.Script

/-! # The command line

Arguments are read from left to right.  Flags and the one argument that is no flag come in any order;
one-letter flags may be joined; after `--` nothing is a flag any more.

* `Request.ofArguments` is what the arguments ask for, if they can be read.  Asking for the version or for
  help ends the reading at once, so what follows is not looked at; what flags mean together is checked at
  the end only.
* `respond` is the whole program: what is written and the exit code, given the arguments, the files and the
  typed input.  What is said about arguments that cannot be read, or as help, is left to the library that
  reads them, and is no part of a report.
-/

namespace SmallScript.CommandLine

inductive Flag where
  | file
  | pipeMode
  | lineMode
  | dynamicScope
  deriving DecidableEq, Repr, Inhabited

def Flag.ofLetter? : Char → Option Flag
  | 'f' => some file
  | 'p' => some pipeMode
  | 'l' => some lineMode
  | _ => none

def Flag.ofName? (name : String) : Option Flag :=
  if name = "file" then some file
  else if name = "pipe-mode" then some pipeMode
  else if name = "line-mode" then some lineMode
  else if name = "dynamic-scope" then some dynamicScope
  else none

structure Options where
  flags : List Flag
  maxDepth : Option Nat
  contents : Option String
  deriving DecidableEq, Repr, Inhabited

inductive Request where
  | version
  | help
  /-- Runs `contents`, or the file of that name. -/
  | execute (options : Options) (contents : String)
  deriving DecidableEq, Repr

/-! ## Reading arguments

No flag and no other argument can be given twice. -/

/-- A number of calls: digits after an optional plus sign, below `2 ^ 64`. -/
def count? (text : List Char) : Option Nat :=
  let digits := match text with
    | '+' :: rest => rest
    | _ => text
  if digits.isEmpty || digits.any (!·.isDigit) then none
  else
    let n := Decimal.natOfDigits digits
    if n < UInt64.size then some n else none

namespace Options

def set (options : Options) (flag : Flag) : Option Options :=
  if flag ∈ options.flags then none else some { options with flags := flag :: options.flags }

def setMaxDepth (options : Options) (value : String) : Option Options := do
  let n ← count? value.toList
  if options.maxDepth.isSome then none else some { options with maxDepth := some n }

def setContents (options : Options) (contents : String) : Option Options :=
  if options.contents.isSome then none else some { options with contents := some contents }

end Options

/-- Either a finished request or the options so far. -/
abbrev Progress := Request ⊕ Options

def readLetters (options : Options) : List Char → Option Progress
  | [] => some (.inr options)
  | 'V' :: _ => some (.inl .version)
  | 'h' :: _ => some (.inl .help)
  | letter :: letters => do readLetters (← options.set (← Flag.ofLetter? letter)) letters

/-- Splits a long flag at its first equals sign. -/
def splitValue (text : List Char) : String × Option String :=
  let name := String.ofList (text.takeWhile (· != '='))
  match text.dropWhile (· != '=') with
  | [] => (name, none)
  | _ :: value => (name, some (String.ofList value))

/-- Reads a long flag other than the call depth.  None of them has a value. -/
def readName (options : Options) (name : String) (value : Option String) : Option Progress :=
  if value.isSome then none
  else if name = "version" then some (.inl .version)
  else if name = "help" then some (.inl .help)
  else do return .inr (← options.set (← Flag.ofName? name))

def finish (options : Options) : Option Request :=
  if .pipeMode ∈ options.flags ∧ .lineMode ∈ options.flags then none
  else options.contents.map (.execute options)

/-- Reads arguments none of which is a flag. -/
def readPlain (options : Options) : List String → Option Request
  | [] => finish options
  | argument :: rest => do readPlain (← options.setContents argument) rest

/-- Reads arguments.  The call depth takes its value from the next argument unless it has one of its
    own; an argument that looks like a flag is no value. -/
def readArguments (options : Options) : List String → Option Request
  | [] => finish options
  | argument :: rest => do
    match argument.toList with
    | '-' :: '-' :: [] => readPlain options rest
    | '-' :: '-' :: long =>
      match splitValue long with
      | ("max-depth", some value) => readArguments (← options.setMaxDepth value) rest
      | ("max-depth", none) =>
        match rest with
        | [] => none
        | value :: others =>
          if value.toList.head? = some '-' then none
          else readArguments (← options.setMaxDepth value) others
      | (name, value) =>
        match ← readName options name value with
        | .inl request => return request
        | .inr options => readArguments options rest
    | '-' :: letter :: letters =>
      match ← readLetters options (letter :: letters) with
      | .inl request => return request
      | .inr options => readArguments options rest
    | _ => readArguments (← options.setContents argument) rest

def Request.ofArguments (arguments : List String) : Option Request :=
  readArguments ⟨[], none, none⟩ arguments

/-! ## Answering -/

/-- What the program leaves behind. -/
structure Report where
  exitCode : Nat
  output : ByteArray
  errors : String

/-- The arguments cannot be read. -/
def Report.refused : Report := ⟨2, .empty, ""⟩

def Options.settings (options : Options) : Settings where
  scoping := if .dynamicScope ∈ options.flags then .dynamic else .lexical
  maxCallDepth := options.maxDepth.getD Settings.standard.maxCallDepth

def failureMessage : Script.Failure → String
  | .text fault => SyntaxFault.message fault
  | .run (.fault fault) => RuntimeFault.message fault
  | .run .unfinished => "The run was given up before its end."

def execute (budget : Nat) (options : Options) (source : String) (input : List UInt8) : Report :=
  let session : Script.Session Unit :=
    if .lineMode ∈ options.flags then Script.runLines options.settings budget source
    else
      discard (Script.run options.settings budget (decide (.pipeMode ∈ options.flags)) source)
  match session (Machine.fresh (Console.ofInput input)) with
  | .ok _ m => ⟨0, m.console.output, ""⟩
  | .error failure m => ⟨1, m.console.output, failureMessage failure ++ "\n"⟩

/-- The script that is to be run: the contents themselves or those of a file, which must be text. -/
def source? (files : String → Option ByteArray) (options : Options) (contents : String) :
    Option String :=
  if .file ∈ options.flags then (files contents).bind String.fromUTF8? else some contents

def Request.respond (budget : Nat) (files : String → Option ByteArray) (input : List UInt8) :
    Request → Report
  | version => ⟨0, "quill 0.1.0\n".toUTF8, ""⟩
  | help => ⟨0, .empty, ""⟩
  | execute options contents =>
    match source? files options contents with
    | some source => CommandLine.execute budget options source input
    | none =>
      ⟨1, .empty, "Failed to read the input file '" ++ contents ++
        "'. Perhaps this file does not exist?\n"⟩

def respond (budget : Nat) (files : String → Option ByteArray) (input : List UInt8)
    (arguments : List String) : Report :=
  match Request.ofArguments arguments with
  | some request => request.respond budget files input
  | none => .refused

/-! ## What a request reads -/

def Request.file? : Request → Option String
  | execute options contents => if .file ∈ options.flags then some contents else none
  | _ => none

/-- Only a script with the word `input` in it can read from the console. -/
def mayReadInput (source : String) : Bool :=
  1 < (source.splitOn Symbol.inputWord.spelling).length

end SmallScript.CommandLine
