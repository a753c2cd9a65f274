import L3Lowering.Program.Basic
import L3Lowering.Text.Decimal

namespace L3Lowering

def Var.text (var : Var) : String :=
  var.name

def Label.text (label : Label) : String :=
  label.name

def Literal.text (literal : Literal) : String :=
  Text.intText literal.value.toInt

def RuntimeRef.text (runtime : RuntimeRef) : String :=
  runtime.function.name

def Atom.text : Atom → String
  | .var v => v.text
  | .label l => l.text
  | .literal n => n.text
  | .runtime r => r.text

def Binop.text (binop : Binop) : String :=
  binop.lhs.text ++ " " ++ binop.operator.symbol ++ " " ++ binop.rhs.text

def Load.text (load : Load) : String :=
  "load " ++ load.address.text

def Store.text (store : Store) : String :=
  "store " ++ store.address.text

def Callee.text : Callee → String
  | .var v => v.text
  | .label l => l.text
  | .runtime r => r.text

def Call.text (call : Call) : String :=
  "call " ++ call.callee.text ++ "(" ++ ", ".intercalate (call.arguments.map Atom.text) ++ ")"

def Expression.text : Expression → String
  | .atom a => a.text
  | .binop b => b.text
  | .load l => l.text
  | .call c => c.text

def Target.text : Target → String
  | .var v => v.text
  | .store s => s.text

def Assignment.text (assignment : Assignment) : String :=
  assignment.target.text ++ " <- " ++ assignment.value.text

def Goto.text (goto : Goto) : String :=
  "br " ++ goto.target.text

def Branch.text (branch : Branch) : String :=
  "br " ++ branch.condition.text ++ " " ++ branch.onTrue.text ++ " " ++ branch.onFalse.text

def Instruction.text : Instruction → String
  | .assign a => a.text
  | .goto g => g.text
  | .branch b => b.text
  | .call c => c.text
  | .returnValue _ value => "return " ++ value.text
  | .returnVoid _ => "return"
  | .label l => l.text

def Function.text (function : Function) : String :=
  "define " ++ function.name.text ++ "(" ++ ", ".intercalate (function.parameters.map Var.text)
    ++ ") \x7b\n" ++ String.join (function.body.map fun i => "\t" ++ i.text ++ "\n") ++ "\x7d\n"

def Program.text (program : Program) : String :=
  "\n".intercalate (program.functions.map Function.text)

end L3Lowering
