import L3Lowering.Operator

namespace L3Lowering

/-- The number of a node. Numbers are handed out in order and wrap around at 32 bits. -/
abbrev NodeId :=
  UInt32

structure Var where
  id : NodeId
  name : String
  deriving DecidableEq

structure Label where
  id : NodeId
  name : String
  deriving DecidableEq

structure Literal where
  id : NodeId
  value : Int64
  deriving DecidableEq

inductive Runtime where
  | print
  | allocate
  | arrayError
  deriving DecidableEq

structure RuntimeRef where
  id : NodeId
  function : Runtime
  deriving DecidableEq

inductive Atom where
  | var (var : Var)
  | label (label : Label)
  | literal (literal : Literal)
  | runtime (runtime : RuntimeRef)
  deriving DecidableEq

structure Binop where
  id : NodeId
  operator : Operator
  lhs : Atom
  rhs : Atom
  deriving DecidableEq

structure Load where
  id : NodeId
  address : Var
  deriving DecidableEq

structure Store where
  id : NodeId
  address : Var
  deriving DecidableEq

inductive Callee where
  | var (var : Var)
  | label (label : Label)
  | runtime (runtime : RuntimeRef)
  deriving DecidableEq

structure Call where
  id : NodeId
  callee : Callee
  arguments : List Atom
  deriving DecidableEq

inductive Expression where
  | atom (atom : Atom)
  | binop (binop : Binop)
  | load (load : Load)
  | call (call : Call)
  deriving DecidableEq

inductive Target where
  | var (var : Var)
  | store (store : Store)
  deriving DecidableEq

structure Assignment where
  id : NodeId
  target : Target
  value : Expression
  deriving DecidableEq

structure Goto where
  id : NodeId
  target : Label
  deriving DecidableEq

structure Branch where
  id : NodeId
  condition : Var
  onTrue : Label
  onFalse : Label
  deriving DecidableEq

/-- A label that stands alone is the place that jumps to it arrive at. -/
inductive Instruction where
  | assign (assignment : Assignment)
  | goto (goto : Goto)
  | branch (branch : Branch)
  | call (call : Call)
  | returnValue (id : NodeId) (value : Atom)
  | returnVoid (id : NodeId)
  | label (label : Label)
  deriving DecidableEq

structure Function where
  name : Label
  parameters : List Var
  body : List Instruction
  deriving DecidableEq

structure Program where
  functions : List Function
  deriving DecidableEq

namespace Label

def ofName (id : NodeId) (name : String) : Label :=
  ⟨id, if name.toList.head? = some ':' then name else ":" ++ name⟩

def bare (name : String) : String :=
  match name.toList with
  | ':' :: cs => String.ofList cs
  | _ => name

def bareName (label : Label) : String :=
  bare label.name

end Label

namespace Runtime

def name : Runtime → String
  | .print => "print"
  | .allocate => "allocate"
  | .arrayError => "array_error"

def all : List Runtime :=
  [.print, .allocate, .arrayError]

def ofName? (name : String) : Option Runtime :=
  all.find? (·.name == name)

end Runtime

def Atom.id : Atom → NodeId
  | .var v => v.id
  | .label l => l.id
  | .literal n => n.id
  | .runtime r => r.id

def Expression.id : Expression → NodeId
  | .atom a => a.id
  | .binop b => b.id
  | .load l => l.id
  | .call c => c.id

def Instruction.id : Instruction → NodeId
  | .assign a => a.id
  | .goto g => g.id
  | .branch b => b.id
  | .call c => c.id
  | .returnValue id _ => id
  | .returnVoid id => id
  | .label l => l.id

def Program.functionNames (program : Program) : List String :=
  program.functions.map (·.name.name)

end L3Lowering
