import L3Lowering.Program.Basic

namespace L3Lowering

inductive CallScope where
  | enter
  | skip
  deriving DecidableEq

def Label.mapName (rename : String → String) (label : Label) : Label :=
  { label with name := rename label.name }

def Atom.mapLabels (rename : String → String) : Atom → Atom
  | .label l => .label (l.mapName rename)
  | a => a

def Binop.mapLabels (rename : String → String) (binop : Binop) : Binop :=
  { binop with lhs := binop.lhs.mapLabels rename, rhs := binop.rhs.mapLabels rename }

def Callee.mapLabels (rename : String → String) : Callee → Callee
  | .label l => .label (l.mapName rename)
  | c => c

def Call.mapLabels (calls : CallScope) (rename : String → String) (call : Call) : Call :=
  match calls with
  | .enter =>
    { call with
      callee := call.callee.mapLabels rename
      arguments := call.arguments.map (Atom.mapLabels rename) }
  | .skip => call

def Expression.mapLabels (calls : CallScope) (rename : String → String) : Expression → Expression
  | .atom a => .atom (a.mapLabels rename)
  | .binop b => .binop (b.mapLabels rename)
  | .load l => .load l
  | .call c => .call (c.mapLabels calls rename)

def Instruction.mapLabels (calls : CallScope) (rename : String → String) :
    Instruction → Instruction
  | .assign a =>
    .assign { a with value := a.value.mapLabels calls rename }
  | .goto g => .goto { g with target := g.target.mapName rename }
  | .branch b =>
    .branch { b with
      onTrue := b.onTrue.mapName rename
      onFalse := b.onFalse.mapName rename }
  | .call c => .call (c.mapLabels calls rename)
  | .returnValue id value => .returnValue id (value.mapLabels rename)
  | .returnVoid id => .returnVoid id
  | .label l => .label (l.mapName rename)

/-- Renames the labels of the body; the function's own name stays. -/
def Function.mapLabels (calls : CallScope) (rename : String → String) (function : Function) :
    Function :=
  { function with body := function.body.map (Instruction.mapLabels calls rename) }

end L3Lowering
