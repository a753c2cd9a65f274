import L3Lowering.CommandLine.Run

namespace L3Lowering.CommandLine

def fileError : IO.Error → FileError
  | .inappropriateType _ code _ => if code = 20 then .notFolder else .isFolder
  | .invalidArgument _ code _ => if code = 36 then .nameTooLong else .missing
  | _ => .missing

def systemInput (path : String) : IO Input := do
  try
    let content ← IO.FS.readBinFile path
    match String.fromUTF8? content with
    | none => return .unreadable .notText
    | some text => return .text text
  catch e =>
    match fileError e with
    | .isFolder => return .notFile
    | _ => return .missing

def systemWrite (path text : String) : IO (Option FileError) := do
  try
    IO.FS.writeFile path text
    return none
  catch e => return some (fileError e)

/-- Colours are used on a terminal, unless the environment forbids or forces them. -/
def systemDisplay : IO Display := do
  if (← IO.getEnv "NO_COLOR").isSome then return .plain
  if (← IO.getEnv "CLICOLOR_FORCE").any (· != "0") then return .terminal
  if ← (← IO.getStdout).isTty then return .terminal else return .plain

def systemRun (texts : List String) : IO Outcome := do
  let display ← systemDisplay
  match Request.ofArguments texts with
  | .error e => return .ofUsageError display e
  | .ok .help => return .ofHelp display
  | .ok .version => return ⟨0, versionText, ""⟩
  | .ok (.compile options) =>
    match options.answer display (← systemInput options.source) with
    | .done outcome => return outcome
    | .write path text => return .ofWrite display.palette (← systemWrite path text)

end L3Lowering.CommandLine

def main (texts : List String) : IO UInt32 := do
  let outcome ← L3Lowering.CommandLine.systemRun texts
  IO.print outcome.stdout
  IO.eprint outcome.stderr
  return outcome.status.toUInt32
