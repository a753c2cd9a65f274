import L3Lowering.Token.Basic

namespace L3Lowering

inductive Expectation where
  | define
  | label
  | var
  | openParen
  | openBrace
  | arrow
  | parameterOrClose
  | argumentOrClose
  | commaOrClose
  | instruction
  | instructionOrClose
  | rightHandSide
  | operand
  | branchTarget
  | callee
  deriving DecidableEq

def Expectation.text : Expectation → String
  | .define => "`define`"
  | .label => "label"
  | .var => "variable"
  | .openParen => "`(`"
  | .openBrace => "`\x7b`"
  | .arrow => "`<-`"
  | .parameterOrClose => "parameter or `)`"
  | .argumentOrClose => "argument or `)`"
  | .commaOrClose => "`,` or `)`"
  | .instruction => "instruction"
  | .instructionOrClose => "instruction or `\x7d`"
  | .rightHandSide => "right hand side of assignment"
  | .operand => "variable or number"
  | .branchTarget => "label or condition variable"
  | .callee => "callee"

inductive ParseError where
  | atEnd (expected : Expectation)
  | unexpected (expected : Expectation) (found : Token)
  | literalRange (literal : Token)
  | unknownFunction (label : Token)
  deriving DecidableEq

namespace ParseError

def message : ParseError → String
  | .atEnd expected => "Expected " ++ expected.text ++ " but reached end of file"
  | .unexpected expected found =>
    match found.kind with
    | .unknown => "Unexpected character `" ++ found.text ++ "`"
    | _ => "Expected " ++ expected.text ++ " but found `" ++ found.text ++ "`"
  | .literalRange literal => "Integer literal `" ++ literal.text ++ "` does not fit in 64 bits"
  | .unknownFunction label =>
    "Label `" ++ label.text ++ "` is used in a call but no function is named `" ++ label.text ++ "`"

/-- The offending token, or the end of the source. -/
def span (source : Source) : ParseError → Span
  | .atEnd _ => source.endSpan
  | .unexpected _ found => found.span
  | .literalRange literal => literal.span
  | .unknownFunction label => label.span

end ParseError

end L3Lowering
