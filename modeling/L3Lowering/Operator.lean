namespace L3Lowering

inductive Arithmetic where
  | add
  | multiply
  | subtract
  | and
  | shiftLeft
  | shiftRight
  deriving DecidableEq

inductive Comparison where
  | less
  | lessEqual
  | equal
  deriving DecidableEq

inductive Operator where
  | arithmetic (operator : Arithmetic)
  | comparison (operator : Comparison)
  | greater
  | greaterEqual
  deriving DecidableEq

def Arithmetic.symbol : Arithmetic → String
  | .add => "+"
  | .multiply => "*"
  | .subtract => "-"
  | .and => "&"
  | .shiftLeft => "<<"
  | .shiftRight => ">>"

def Comparison.symbol : Comparison → String
  | .less => "<"
  | .lessEqual => "<="
  | .equal => "="

namespace Operator

def symbol : Operator → String
  | .arithmetic operator => operator.symbol
  | .comparison operator => operator.symbol
  | .greater => ">"
  | .greaterEqual => ">="

def isComparison : Operator → Bool
  | .arithmetic _ => false
  | _ => true

def all : List Operator :=
  [.arithmetic .add, .arithmetic .multiply, .arithmetic .subtract, .arithmetic .and,
    .arithmetic .shiftLeft, .arithmetic .shiftRight, .comparison .less, .comparison .lessEqual,
    .comparison .equal, .greater, .greaterEqual]

def ofSymbol? (text : String) : Option Operator :=
  all.find? (·.symbol == text)

end Operator

end L3Lowering
