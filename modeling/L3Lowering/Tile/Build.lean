import L3Lowering.Program.Printer
import L3Lowering.Tile.Basic

namespace L3Lowering

inductive Misfit where
  | notAtom
  | notLoad
  | notBinop
  | notCall
  | notStore
  | runtimeValue
  | labelOperand
  | bareReturnLabel
  deriving DecidableEq

def Misfit.text : Misfit → String
  | .notAtom => "right hand side is not an atom"
  | .notLoad => "right hand side is not a load"
  | .notBinop => "right hand side is not a binop"
  | .notCall => "right hand side is not a call"
  | .notStore => "left hand side is not a store"
  | .runtimeValue => "runtime functions can only be called"
  | .labelOperand => "labels cannot be binop operands"
  | .bareReturnLabel => "return label is missing its leading `:`"

inductive TileError where
  | unmatched (instruction : Instruction)
  | comparison (binop : Binop)
  | malformed (tile : TileKind) (construct : String) (misfit : Misfit)
  deriving DecidableEq

def TileError.message : TileError → String
  | .unmatched instruction => "no tile matches instruction `" ++ instruction.text ++ "`"
  | .comparison binop =>
    "comparison `" ++ binop.operator.symbol ++ "` reached instruction selection in `" ++ binop.text
      ++ "` (the front end must rewrite it to `<` or `<=`)"
  | .malformed tile construct misfit =>
    "cannot build a " ++ tile.name ++ " tile from `" ++ construct ++ "`: " ++ misfit.text

def Atom.toValue (tile : TileKind) : Atom → Except TileError L2.Value
  | .var v => .ok (.var v.name)
  | .label l => .ok (.label l.name)
  | .literal n => .ok (.literal n.value)
  | .runtime r => .error (.malformed tile r.text .runtimeValue)

/-- The value that an operand of an operation stands for: labels cannot be computed with. -/
def Atom.toOperand (binop : Binop) : Atom → Except TileError L2.Value
  | .var v => .ok (.var v.name)
  | .literal n => .ok (.literal n.value)
  | .runtime r => .error (.malformed .binopAssignment r.text .runtimeValue)
  | .label _ => .error (.malformed .binopAssignment binop.text .labelOperand)

def Callee.toL2 : Callee → L2.Callee
  | .var v => .var v.name
  | .label l => .label l.name
  | .runtime r => .runtime r.function

def CallSite.ofCall (call : Call) (returnLabel : String) : Except TileError CallSite := do
  let arguments ← call.arguments.mapM (Atom.toValue .call)
  if returnLabel.toList.head? = some ':' then
    return ⟨call.callee.toL2, arguments, returnLabel⟩
  else throw (.malformed .call call.text .bareReturnLabel)

namespace Tile

def ofAtomAssignment (target : Var) : Expression → Except TileError Tile
  | .atom a => return .assign target.name (← a.toValue .atomAssignment)
  | value => throw (.malformed .atomAssignment value.text .notAtom)

def ofLoadAssignment (target : Var) : Expression → Except TileError Tile
  | .load l => return .load target.name l.address.name
  | value => throw (.malformed .loadAssignment value.text .notLoad)

def ofBinopAssignment (target : Var) : Expression → Except TileError Tile
  | .binop b =>
    match b.operator with
    | .arithmetic op =>
      return .arithmetic target.name op (← b.lhs.toOperand b) (← b.rhs.toOperand b)
    | .comparison op =>
      return .comparison target.name op (← b.lhs.toOperand b) (← b.rhs.toOperand b)
    | .greater => throw (.comparison b)
    | .greaterEqual => throw (.comparison b)
  | value => throw (.malformed .binopAssignment value.text .notBinop)

def ofCallAssignment (target : Var) (value : Expression) (returnLabel : String) :
    Except TileError Tile :=
  match value with
  | .call c => return .assignCall target.name (← CallSite.ofCall c returnLabel)
  | _ => throw (.malformed .callAssignment value.text .notCall)

def ofStoreAssignment (target : Target) (value : Expression) : Except TileError Tile :=
  match target, value with
  | .store s, .atom a => return .store s.address.name (← a.toValue .storeAssignment)
  | .store _, _ => throw (.malformed .storeAssignment value.text .notAtom)
  | .var _, _ => throw (.malformed .storeAssignment target.text .notStore)

def ofCall (call : Call) (returnLabel : String) : Except TileError Tile :=
  return .call (← CallSite.ofCall call returnLabel)

def ofReturn (value : Atom) : Except TileError Tile :=
  return .returnValue (← value.toValue .valueReturn)

end Tile

end L3Lowering
