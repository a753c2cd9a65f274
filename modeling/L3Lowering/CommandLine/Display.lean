import L3Lowering.Source.Highlight

namespace L3Lowering.CommandLine

/-- How much of a terminal's escape sequence has been read. -/
inductive EscapeState where
  | ground
  | escape
  | intermediate
  | control
  | command
  | device
  | deviceParameter
  | deviceIntermediate
  | body
  deriving DecidableEq

def isLayout (c : Char) : Bool :=
  c = '\t' || c = '\n' || c = '\x0c' || c = '\r'

def isAscii (c : Char) : Bool :=
  c.toNat < 0x80

/-- Whether the encoding of a character goes on with the byte that terminates strings. -/
def hidesTerminator (c : Char) : Bool :=
  !isAscii c && (String.utf8EncodeChar c).contains 0x9c

def isCancel (c : Char) : Bool :=
  c = '\x18' || c = '\x1a'

def isBetween (low high : Nat) (c : Char) : Bool :=
  low ≤ c.toNat && c.toNat ≤ high

namespace EscapeState

def advance (state : EscapeState) (c : Char) : EscapeState :=
  match state with
  | .ground => .ground
  | .escape =>
    if isBetween 0x20 0x2f c then .intermediate
    else if c = '[' then .control
    else if c = ']' then .command
    else if c = 'P' then .device
    else if c = 'X' || c = '^' || c = '_' then .body
    else if isBetween 0x30 0x7e c then .ground
    else .escape
  | .intermediate => if isBetween 0x30 0x7e c then .ground else .intermediate
  | .control => if isBetween 0x40 0x7e c then .ground else .control
  | .command => if c = '\x07' then .ground else .command
  | .device =>
    if isBetween 0x20 0x2f c then .deviceIntermediate
    else if isBetween 0x30 0x3f c then .deviceParameter
    else if isBetween 0x40 0x7e c then .body
    else .device
  | .deviceParameter =>
    if isBetween 0x20 0x2f c then .deviceIntermediate
    else if isBetween 0x3c 0x7e c then .body
    else .deviceParameter
  | .deviceIntermediate => if isBetween 0x30 0x7e c then .body else .deviceIntermediate
  | .body => if hidesTerminator c then .ground else .body

def step (state : EscapeState) (c : Char) : EscapeState :=
  if isCancel c then .ground
  else if c = '\x1b' then .escape
  else state.advance c

def shows (state : EscapeState) (c : Char) : Bool :=
  match state with
  | .ground => isLayout c || isBetween 0x20 0x7e c || !isAscii c
  | .escape | .intermediate | .control => isLayout c
  | .command | .device | .deviceParameter | .deviceIntermediate | .body => false

/-- The characters that are shown. A shown character starts a run, in which text is shown whatever
is open; the first control after the run is read in the state that the run was entered with, or
in the ground state if the run has a character that is not ASCII. -/
def showFrom (state : EscapeState) (inRun : Bool) : List Char → List Char
  | [] => []
  | c :: cs =>
    if inRun && ground.shows c then
      c :: showFrom (if isAscii c then state else .ground) true cs
    else if !inRun && state.shows c then
      c :: showFrom (state.step c) true cs
    else showFrom (state.step c) false cs

end EscapeState

def withoutEscapes (text : String) : String :=
  String.ofList (EscapeState.ground.showFrom false text.toList)

/-- How a run shows its texts: the palette of its reports, and what is left of a text that comes
with renditions of its own. -/
structure Display where
  palette : Palette
  rendered : String → String

namespace Display

def plain : Display :=
  ⟨.plain, withoutEscapes⟩

def terminal : Display :=
  ⟨.terminal, id⟩

end Display

end L3Lowering.CommandLine
