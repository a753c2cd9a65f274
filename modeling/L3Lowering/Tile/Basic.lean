import L3Lowering.L2.Convention

namespace L3Lowering

inductive TileKind where
  | atomAssignment
  | loadAssignment
  | binopAssignment
  | callAssignment
  | storeAssignment
  | goto
  | branch
  | call
  | valueReturn
  | voidReturn
  | label
  deriving DecidableEq

def TileKind.name : TileKind → String
  | .atomAssignment => "atom-assignment"
  | .loadAssignment => "load-assignment"
  | .binopAssignment => "binop-assignment"
  | .callAssignment => "call-assignment"
  | .storeAssignment => "store-assignment"
  | .goto => "goto"
  | .branch => "cjump"
  | .call => "call"
  | .valueReturn => "value-return"
  | .voidReturn => "void-return"
  | .label => "label"

structure CallSite where
  callee : L2.Callee
  arguments : List L2.Value
  returnLabel : String
  deriving DecidableEq

inductive Tile where
  | assign (target : String) (value : L2.Value)
  | load (target address : String)
  | arithmetic (target : String) (operator : Arithmetic) (lhs rhs : L2.Value)
  | comparison (target : String) (operator : Comparison) (lhs rhs : L2.Value)
  | assignCall (target : String) (call : CallSite)
  | store (address : String) (value : L2.Value)
  | goto (label : String)
  | branch (condition onTrue onFalse : String)
  | call (call : CallSite)
  | returnValue (value : L2.Value)
  | returnVoid
  | label (name : String)
  deriving DecidableEq

def CallSite.setup (site : CallSite) : List L2.Line :=
  site.arguments.mapIdx L2.passArgument
    ++ [.store (L2.stackCell L2.returnOffset) (.label site.returnLabel)]

def CallSite.lines (site : CallSite) : List L2.Line :=
  site.setup ++ [.call site.callee site.arguments.length, .label site.returnLabel]

namespace Tile

def kind : Tile → TileKind
  | .assign .. => .atomAssignment
  | .load .. => .loadAssignment
  | .arithmetic .. => .binopAssignment
  | .comparison .. => .binopAssignment
  | .assignCall .. => .callAssignment
  | .store .. => .storeAssignment
  | .goto .. => .goto
  | .branch .. => .branch
  | .call .. => .call
  | .returnValue .. => .valueReturn
  | .returnVoid => .voidReturn
  | .label .. => .label

def lines : Tile → List L2.Line
  | .assign x a => [.move (.var x) a]
  | .load x y => [.load (.var x) ⟨.var y, 0⟩]
  | .arithmetic x op a b => [.move (.var x) a, .update (.var x) op b]
  | .comparison x op a b => [.compare (.var x) op a b]
  | .assignCall x site => site.lines ++ [.move (.var x) (.register L2.resultRegister)]
  | .store y a => [.store ⟨.var y, 0⟩ a]
  | .goto target => [.goto target]
  | .branch x onTrue onFalse => [.branch (.var x) onTrue onFalse]
  | .call site => site.lines
  | .returnValue a => [.move (.register L2.resultRegister) a, .ret]
  | .returnVoid => [.ret]
  | .label name => [.label name]

/-- Whether the tile ends its last line. -/
def endsLine : Tile → Bool
  | .assign .. => false
  | .load .. => false
  | .store .. => false
  | .goto .. => false
  | .label .. => false
  | _ => true

def text (tile : Tile) : String :=
  "\n".intercalate (tile.lines.map L2.Line.text) ++ if tile.endsLine then "\n" else ""

end Tile

end L3Lowering
