import L3Lowering.Source.Highlight

namespace L3Lowering.CommandLine

structure Options where
  source : String
  output : String
  emitL3 : Bool

inductive Request where
  | help
  | version
  | compile (options : Options)

inductive Argument where
  | source
  | output
  | emitL3
  | help
  | version
  deriving DecidableEq

def Argument.text : Argument → String
  | .source => "<SOURCE_FILE>"
  | .output => "--output <OUTPUT>"
  | .emitL3 => "--emit-l3"
  | .help => "--help"
  | .version => "--version"

inductive UsageError where
  | unexpected (text : String)
  | valueMissing (argument : Argument)
  | repeated (argument : Argument)
  | extraValue (argument : Argument) (value : String)
  | sourceMissing
  | noSuchSource (path : String)
  | sourceNotFile (path : String)

def culprit : String → String :=
  Palette.rendition ["33"]

def wanted : String → String :=
  Palette.rendition ["32"]

def literal : String → String :=
  Palette.rendition ["1"]

def UsageError.message : UsageError → String
  | .unexpected text => "unexpected argument '" ++ culprit text ++ "' found"
  | .valueMissing argument =>
    "a value is required for '" ++ culprit argument.text ++ "' but none was supplied"
  | .repeated argument =>
    "the argument '" ++ culprit argument.text ++ "' cannot be used multiple times"
  | .extraValue argument value =>
    "unexpected value '" ++ culprit value ++ "' for '" ++ literal argument.text
      ++ "' found; no more were expected"
  | .sourceMissing =>
    "the following required arguments were not provided:\n  " ++ wanted "<SOURCE_FILE>"
  | .noSuchSource path => "Source file '" ++ path ++ "' does not exist!"
  | .sourceNotFile path => "Input path '" ++ path ++ "' is not a file!"

/-- A value that is read but not yet settled, or that is still to come. -/
inductive Pending where
  | none
  | source (value : String)
  | output (value : Option String)

structure Reading where
  source : Option String
  output : Option String
  emitL3 : Bool
  pending : Pending

namespace Reading

def start : Reading :=
  ⟨none, none, false, .none⟩

/-- Settles the place to write to. It is named once, and not by an empty text. -/
def setOutput (reading : Reading) (value : String) : Except UsageError Reading :=
  if reading.output.isSome then .error (.repeated .output)
  else if value = "" then .error (.valueMissing .output)
  else .ok { reading with output := some value, pending := .none }

def settle (reading : Reading) : Except UsageError Reading :=
  match reading.pending with
  | .none => .ok reading
  | .source value =>
    if value = "" then .error (.valueMissing .source)
    else .ok { reading with source := some value, pending := .none }
  | .output none => .error (.valueMissing .output)
  | .output (some value) => reading.setOutput value

def takeSource (reading : Reading) (text : String) : Except UsageError Reading :=
  match reading.source, reading.pending with
  | some _, _ => .error (.unexpected text)
  | _, .source _ => .error (.unexpected text)
  | none, _ => do return { ← reading.settle with pending := .source text }

def takeEmitL3 (reading : Reading) : Except UsageError Reading := do
  let settled ← reading.settle
  if settled.emitL3 then throw (.repeated .emitL3) else return { settled with emitL3 := true }

def finish (reading : Reading) : Except UsageError Request := do
  let settled ← reading.settle
  match settled.source with
  | none => throw .sourceMissing
  | some source => return .compile ⟨source, settled.output.getD "prog.L2", settled.emitL3⟩

end Reading

def splitValue (cs : List Char) : String × Option String :=
  match cs.dropWhile (· != '=') with
  | [] => (String.ofList cs, none)
  | _ :: value => (String.ofList (cs.takeWhile (· != '=')), some (String.ofList value))

def readPlain (reading : Reading) : List String → Except UsageError Request
  | [] => reading.finish
  | text :: texts => do readPlain (← reading.takeSource text) texts

def read (reading : Reading) : List String → Except UsageError Request
  | [] => reading.finish
  | text :: texts =>
    match text.toList with
    | ['-', '-'] => readPlain reading texts
    | '-' :: '-' :: cs =>
      match splitValue cs with
      | ("output", none) => do read { ← reading.settle with pending := .output none } texts
      | ("output", some value) => do read (← (← reading.settle).setOutput value) texts
      | ("emit-l3", none) => do read (← reading.takeEmitL3) texts
      | ("emit-l3", some value) => throw (.extraValue .emitL3 value)
      | ("help", none) => reading.settle.map fun _ => .help
      | ("help", some value) => throw (.extraValue .help value)
      | ("version", none) => reading.settle.map fun _ => .version
      | ("version", some value) => throw (.extraValue .version value)
      | (name, _) => throw (.unexpected ("--" ++ name))
    | ['-', 'o'] => do read { ← reading.settle with pending := .output none } texts
    | '-' :: 'o' :: '=' :: cs => do
      read (← (← reading.settle).setOutput (String.ofList cs)) texts
    | '-' :: 'o' :: cs => do read (← (← reading.settle).setOutput (String.ofList cs)) texts
    | '-' :: 'h' :: _ => reading.settle.map fun _ => .help
    | '-' :: 'V' :: _ => reading.settle.map fun _ => .version
    | '-' :: c :: _ => throw (.unexpected (String.ofList ['-', c]))
    | _ =>
      match reading.pending with
      | .output none => read { reading with pending := .output (some text) } texts
      | _ => do read (← reading.takeSource text) texts

def Request.ofArguments (texts : List String) : Except UsageError Request :=
  read .start texts

end L3Lowering.CommandLine
