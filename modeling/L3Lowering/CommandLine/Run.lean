import L3Lowering.CommandLine.Arguments
import L3Lowering.CommandLine.Display
import L3Lowering.Compile

namespace L3Lowering.CommandLine

structure Outcome where
  status : Nat
  stdout : String
  stderr : String

def versionText : String :=
  "l3c 0.1.0\n"

def heading : String → String :=
  Palette.rendition ["1", "4"]

def usageText : String :=
  heading "Usage:" ++ " " ++ literal "l3c" ++ " [OPTIONS] <SOURCE_FILE>\n"

def helpText : String :=
  "Compiles L3 to L2\n\n" ++ usageText
    ++ "\n" ++ heading "Arguments:" ++ "\n  <SOURCE_FILE>  L3 source file to compile\n"
    ++ "\n" ++ heading "Options:" ++ "\n  " ++ literal "-o" ++ ", " ++ literal "--output"
    ++ " <OUTPUT>  Where to write the L2 program [default: prog.L2]\n"
    ++ "      " ++ literal "--emit-l3"
    ++ "          Print the program with hygienic labels as L3 instead of compiling it\n"
    ++ "  " ++ literal "-h" ++ ", " ++ literal "--help" ++ "             Print help\n"
    ++ "  " ++ literal "-V" ++ ", " ++ literal "--version" ++ "          Print version\n"

def Outcome.ofHelp (display : Display) : Outcome :=
  ⟨0, display.rendered helpText, ""⟩

/-- The complaint is rendered as a whole, so a path with an open escape sequence in it can take some
of the text after it along. -/
def Outcome.ofUsageError (display : Display) (error : UsageError) : Outcome :=
  ⟨2, "", display.rendered (Palette.rendition ["1", "31"] "error:" ++ " " ++ error.message ++ "\n\n"
    ++ usageText ++ "\nFor more information, try '" ++ literal "--help" ++ "'.\n")⟩

def complain (palette : Palette) (word message : String) : String :=
  palette.severity word ++ ": " ++ message ++ "\n"

def excerpt? (palette : Palette) (source : Source) (span : Span) : Option String := do
  let position ← source.position? span
  let highlight ← source.highlight? palette span
  return palette.pointer "-->" ++ " " ++ position ++ "\n" ++ highlight ++ "\n"

def report (palette : Palette) : CompileError → String
  | .parse source error =>
    complain palette "error" error.message
      ++ (excerpt? palette source (error.span source)).getD ""
  | .tile error => complain palette "internal compiler error" error.message
  | .file error => complain palette "error" error.text

def Outcome.ofFailure (palette : Palette) (error : CompileError) : Outcome :=
  ⟨1, "", report palette error⟩

/-- A source file cannot be read; unlike a failed run, this is reported with its context. -/
def Outcome.ofUnreadable (palette : Palette) (error : FileError) : Outcome :=
  ⟨1, "", complain palette "error" (CompileError.file error).message⟩

inductive Input where
  | missing
  | notFile
  | unreadable (error : FileError)
  | text (contents : String)

inductive Answer where
  | done (outcome : Outcome)
  | write (path text : String)

def Options.answer (display : Display) (options : Options) : Input → Answer
  | .missing => .done (.ofUsageError display (.noSuchSource options.source))
  | .notFile => .done (.ofUsageError display (.sourceNotFile options.source))
  | .unreadable error => .done (.ofUnreadable display.palette error)
  | .text contents =>
    let source : Source := ⟨contents, .file options.source⟩
    if options.emitL3 then
      match source.scopedText with
      | .error e => .done (.ofFailure display.palette e)
      | .ok text => .done ⟨0, text, ""⟩
    else
      match source.compile.value with
      | .error e => .done (.ofFailure display.palette e)
      | .ok text => .write options.output text

def Outcome.ofWrite (palette : Palette) : Option FileError → Outcome
  | none => ⟨0, "", ""⟩
  | some error => .ofFailure palette (.file error)

def inputOf (folder : Folder) (path : String) : Input :=
  match folder.find path with
  | .error _ => .missing
  | .ok .folder => .notFile
  | .ok (.file _) =>
    match folder.read path with
    | .error e => .unreadable e
    | .ok text => .text text

def run (display : Display) (texts : List String) (folder : Folder) : Outcome × Folder :=
  match Request.ofArguments texts with
  | .error e => (.ofUsageError display e, folder)
  | .ok .help => (.ofHelp display, folder)
  | .ok .version => (⟨0, versionText, ""⟩, folder)
  | .ok (.compile options) =>
    match options.answer display (inputOf folder options.source) with
    | .done outcome => (outcome, folder)
    | .write path text =>
      match folder.write path text with
      | .error e => (.ofWrite display.palette (some e), folder)
      | .ok after => (.ofWrite display.palette none, after)

end L3Lowering.CommandLine
