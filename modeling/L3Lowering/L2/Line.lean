import L3Lowering.Program.Basic
import L3Lowering.Text.Decimal

namespace L3Lowering.L2

inductive Register where
  | rdi
  | rsi
  | rdx
  | rcx
  | r8
  | r9
  | rax
  | rsp
  deriving DecidableEq

def Register.name : Register → String
  | .rdi => "rdi"
  | .rsi => "rsi"
  | .rdx => "rdx"
  | .rcx => "rcx"
  | .r8 => "r8"
  | .r9 => "r9"
  | .rax => "rax"
  | .rsp => "rsp"

inductive Place where
  | var (name : String)
  | register (register : Register)
  deriving DecidableEq

inductive Value where
  | var (name : String)
  | label (name : String)
  | literal (value : Int64)
  | register (register : Register)
  deriving DecidableEq

structure Cell where
  base : Place
  offset : Int
  deriving DecidableEq

inductive Callee where
  | var (name : String)
  | label (name : String)
  | runtime (function : Runtime)
  deriving DecidableEq

inductive Line where
  | move (target : Place) (value : Value)
  | load (target : Place) (cell : Cell)
  | store (cell : Cell) (value : Value)
  | compare (target : Place) (operator : Comparison) (lhs rhs : Value)
  | update (target : Place) (operator : Arithmetic) (rhs : Value)
  | goto (label : String)
  | branch (condition : Place) (onTrue onFalse : String)
  | call (callee : Callee) (arguments : Nat)
  | ret
  | label (name : String)
  deriving DecidableEq

def Place.text : Place → String
  | .var name => name
  | .register r => r.name

def Value.text : Value → String
  | .var name => name
  | .label name => name
  | .literal value => Text.intText value.toInt
  | .register r => r.name

/-- The word that stands for an offset. Addresses are words, so offsets that differ by a multiple of
`2 ^ 64` lead to the same cell. -/
def offsetWord (offset : Int) : Int64 :=
  .ofInt offset

def Cell.text (cell : Cell) : String :=
  "(mem " ++ cell.base.text ++ " " ++ Text.intText (offsetWord cell.offset).toInt ++ ")"

def Callee.text : Callee → String
  | .var name => name
  | .label name => name
  | .runtime function => function.name

def Line.text : Line → String
  | .move target value => "(" ++ target.text ++ " <- " ++ value.text ++ ")"
  | .load target cell => "(" ++ target.text ++ " <- " ++ cell.text ++ ")"
  | .store cell value => "(" ++ cell.text ++ " <- " ++ value.text ++ ")"
  | .compare target operator lhs rhs =>
    "(" ++ target.text ++ " <- " ++ lhs.text ++ " " ++ operator.symbol ++ " " ++ rhs.text ++ ")"
  | .update target operator rhs =>
    "(" ++ target.text ++ " " ++ operator.symbol ++ "= " ++ rhs.text ++ ")"
  | .goto name => "(goto " ++ name ++ ")"
  | .branch condition onTrue onFalse =>
    "(cjump " ++ condition.text ++ " = 1 " ++ onTrue ++ " " ++ onFalse ++ ")"
  | .call callee arguments => "(call " ++ callee.text ++ " " ++ Text.natText arguments ++ ")"
  | .ret => "(return)"
  | .label name => name

end L3Lowering.L2
