import L3Lowering.Source.Basic

namespace L3Lowering

/-- How the parts of a report are set off from each other. -/
structure Palette where
  frame : String → String
  mark : String → String
  severity : String → String
  pointer : String → String

namespace Palette

def plain : Palette :=
  ⟨id, id, id, id⟩

def rendition (codes : List String) (text : String) : String :=
  String.join (codes.map fun code => "\x1b[" ++ code ++ "m") ++ text ++ "\x1b[0m"

def terminal : Palette where
  frame := rendition ["34"]
  mark := rendition ["31"]
  severity := rendition ["1;31"]
  pointer := rendition ["1;34"]

end Palette

namespace Source

open Text

/-- The line in which the span starts, under its row number, with carets below the characters of
the line that the span covers. A span that covers none of them gets one caret at its start. -/
def highlight? (palette : Palette) (s : Source) (span : Span) : Option String := do
  let start := min span.start s.byteLength
  let (before, after) ← s.around? start
  let row ← s.row? start
  let lead := lastLine before
  let tail := firstLine after
  let (covered, _) ← cut? (min (span.stop - start) (byteSize tail)) tail
  let number := natText row
  let gutter := replicate number.length ' '
  let bar := palette.frame "|"
  return gutter ++ " " ++ bar ++ "\n"
    ++ palette.frame number ++ " " ++ bar ++ " " ++ String.ofList (lead ++ tail) ++ "\n"
    ++ gutter ++ " " ++ bar ++ " " ++ replicate lead.length ' '
    ++ palette.mark (replicate (max covered.length 1) '^')

end Source

end L3Lowering
