import L3Lowering.Program.Printer

namespace L3Lowering

/-- A node below a function. Values are listed as atoms, and first as expressions where they are
assigned to a target; targets, addresses, conditions, callees and jump targets are listed only as
the variables, labels and runtime functions that they are. -/
inductive Node where
  | instruction (instruction : Instruction)
  | assignment (assignment : Assignment)
  | expression (expression : Expression)
  | binop (binop : Binop)
  | load (load : Load)
  | store (store : Store)
  | goto (goto : Goto)
  | branch (branch : Branch)
  | call (call : Call)
  | atom (atom : Atom)
  | var (var : Var)
  | label (label : Label)
  | runtime (runtime : RuntimeRef)

def Atom.nodes (atom : Atom) : List Node :=
  .atom atom ::
    match atom with
    | .var v => [.var v]
    | .label l => [.label l]
    | .literal _ => []
    | .runtime r => [.runtime r]

def Binop.nodes (binop : Binop) : List Node :=
  .binop binop :: (binop.lhs.nodes ++ binop.rhs.nodes)

def Load.nodes (load : Load) : List Node :=
  [.load load, .var load.address]

def Store.nodes (store : Store) : List Node :=
  [.store store, .var store.address]

def Callee.nodes : Callee → List Node
  | .var v => [.var v]
  | .label l => [.label l]
  | .runtime r => [.runtime r]

def Call.nodes (call : Call) : List Node :=
  .call call :: (call.callee.nodes ++ call.arguments.flatMap Atom.nodes)

def Expression.nodes (expression : Expression) : List Node :=
  .expression expression ::
    match expression with
    | .atom a => a.nodes
    | .binop b => b.nodes
    | .load l => l.nodes
    | .call c => c.nodes

def Target.nodes : Target → List Node
  | .var v => [.var v]
  | .store s => s.nodes

def Assignment.nodes (assignment : Assignment) : List Node :=
  .assignment assignment :: (assignment.target.nodes ++ assignment.value.nodes)

def Goto.nodes (goto : Goto) : List Node :=
  [.goto goto, .label goto.target]

def Branch.nodes (branch : Branch) : List Node :=
  [.branch branch, .var branch.condition, .label branch.onTrue, .label branch.onFalse]

def Instruction.nodes (instruction : Instruction) : List Node :=
  .instruction instruction ::
    match instruction with
    | .assign a => a.nodes
    | .goto g => g.nodes
    | .branch b => b.nodes
    | .call c => c.nodes
    | .returnValue _ value => value.nodes
    | .returnVoid _ => []
    | .label l => [.label l]

namespace Function

def bodyNodes (function : Function) : List Node :=
  function.body.flatMap Instruction.nodes

def nodes (function : Function) : List Node :=
  .label function.name :: (function.parameters.map Node.var ++ function.bodyNodes)

end Function

namespace Node

def id : Node → NodeId
  | .instruction i => i.id
  | .assignment a => a.id
  | .expression e => e.id
  | .binop b => b.id
  | .load l => l.id
  | .store s => s.id
  | .goto g => g.id
  | .branch b => b.id
  | .call c => c.id
  | .atom a => a.id
  | .var v => v.id
  | .label l => l.id
  | .runtime r => r.id

def var? : Node → Option Var
  | .var v => some v
  | _ => none

def label? : Node → Option Label
  | .label l => some l
  | _ => none

/-- The text of a variable, label or runtime function that stands for itself. -/
def leaf? : Node → Option String
  | .var v => some v.text
  | .label l => some l.text
  | .runtime r => some r.text
  | _ => none

def describe : Node → String
  | .instruction i => "instruction " ++ i.text
  | .assignment a => "assignment " ++ a.text
  | .expression e => "expression " ++ e.text ++ " #" ++ Text.natText e.id.toNat
  | .binop b => "binop " ++ b.text
  | .load l => "load " ++ l.text
  | .store s => "store " ++ s.text
  | .goto g => "goto " ++ g.target.text
  | .branch b => "cjump " ++ b.condition.text
  | .call c => "call " ++ c.text
  | .atom a => "atom " ++ a.text ++ " #" ++ Text.natText a.id.toNat
  | .var v => "var " ++ v.text
  | .label l => "label " ++ l.text ++ " bare " ++ l.bareName
  | .runtime r => "runtime " ++ r.text

end Node

namespace Function

def leaves (function : Function) : List String :=
  function.nodes.filterMap Node.leaf?

def bodyLeaves (function : Function) : List String :=
  function.bodyNodes.filterMap Node.leaf?

def varNames (function : Function) : List String :=
  ((function.bodyNodes.filterMap Node.var?).map Var.name).eraseDups

def labelNames (function : Function) : List String :=
  ((function.nodes.filterMap Node.label?).map Label.bareName).eraseDups

end Function

end L3Lowering
