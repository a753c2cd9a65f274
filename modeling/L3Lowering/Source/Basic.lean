import L3Lowering.Text.Bytes
import L3Lowering.Text.Decimal

namespace L3Lowering

/-- A stretch of a source, from the byte offset `start` up to `stop`. -/
structure Span where
  start : Nat
  stop : Nat
  deriving DecidableEq

inductive Origin where
  | memory
  | file (path : String)

def Origin.text : Origin → String
  | .memory => "<memory>"
  | .file path => path

structure Source where
  contents : String
  origin : Origin

namespace Source

open Text

def ofString (contents : String) : Source :=
  ⟨contents, .memory⟩

def chars (s : Source) : List Char :=
  s.contents.toList

def byteLength (s : Source) : Nat :=
  byteSize s.chars

def endSpan (s : Source) : Span :=
  ⟨s.byteLength, s.byteLength⟩

/-- The text on both sides of an offset. An offset past the end means the end, and one inside a
character has no answer. -/
def around? (s : Source) (offset : Nat) : Option (List Char × List Char) :=
  cut? (min offset s.byteLength) s.chars

def row? (s : Source) (offset : Nat) : Option Nat :=
  (s.around? offset).map fun sides => sides.1.count '\n' + 1

def column? (s : Source) (offset : Nat) : Option Nat :=
  (s.around? offset).map fun sides => byteSize (lastLine sides.1) + 1

def position? (s : Source) (span : Span) : Option String := do
  let row ← s.row? span.start
  let column ← s.column? span.start
  return s.origin.text ++ ":" ++ natText row ++ ":" ++ natText column

/-- The text of a span; here an offset past the end has no answer either. -/
def valueOf? (s : Source) (span : Span) : Option String :=
  (slice? span.start span.stop s.chars).map String.ofList

end Source

end L3Lowering
