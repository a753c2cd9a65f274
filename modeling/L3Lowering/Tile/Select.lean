import L3Lowering.Label.Supply
import L3Lowering.Log
import L3Lowering.Program.Walk
import L3Lowering.Tile.Build

namespace L3Lowering

/-- The supply of return labels, and the ids of the nodes covered so far. -/
structure Selector (σ : Type) where
  supply : LabelSupply σ
  covered : List NodeId

structure Selection (σ α : Type) where
  result : Except TileError α
  selector : Selector σ
  log : Log

namespace Selector

variable {σ : Type}

def ofSupply (supply : LabelSupply σ) : Selector σ :=
  ⟨supply, []⟩

def covers (selector : Selector σ) (id : NodeId) : Bool :=
  selector.covered.contains id

/-- A call takes its return label before its tile is built, and keeps it taken when the building
fails. -/
def choose (supply : LabelSupply σ) (instruction : Instruction) :
    Except TileError Tile × LabelSupply σ :=
  match instruction with
  | .assign ⟨_, .var x, value⟩ =>
    match value with
    | .atom (.runtime _) => (.error (.unmatched instruction), supply)
    | .atom _ => (Tile.ofAtomAssignment x value, supply)
    | .load _ => (Tile.ofLoadAssignment x value, supply)
    | .binop _ => (Tile.ofBinopAssignment x value, supply)
    | .call _ =>
      let (label, supply) := supply.take
      (Tile.ofCallAssignment x value label, supply)
  | .assign ⟨_, .store s, value⟩ =>
    match value with
    | .atom (.runtime _) => (.error (.unmatched instruction), supply)
    | .atom _ => (Tile.ofStoreAssignment (.store s) value, supply)
    | _ => (.error (.unmatched instruction), supply)
  | .goto g => (.ok (.goto g.target.name), supply)
  | .branch b => (.ok (.branch b.condition.name b.onTrue.name b.onFalse.name), supply)
  | .call c =>
    let (label, supply) := supply.take
    (Tile.ofCall c label, supply)
  | .returnValue _ value => (Tile.ofReturn value, supply)
  | .returnVoid _ => (.ok .returnVoid, supply)
  | .label l => (.ok (.label l.name), supply)

def select (selector : Selector σ) (instruction : Instruction) : Selection σ (Option Tile) :=
  if selector.covers instruction.id then
    ⟨.ok none, selector, [⟨.trace, "skipping already tiled `" ++ instruction.text ++ "`"⟩]⟩
  else
    match choose selector.supply instruction with
    | (.error e, supply) => ⟨.error e, { selector with supply }, []⟩
    | (.ok tile, supply) =>
      ⟨.ok (some tile), ⟨supply, instruction.nodes.map Node.id ++ selector.covered⟩,
        [⟨.trace, tile.kind.name ++ " tile for `" ++ instruction.text ++ "`"⟩]⟩

def selectAll (selector : Selector σ) : List Instruction → Selection σ (List Tile)
  | [] => ⟨.ok [], selector, []⟩
  | instruction :: instructions =>
    match selector.select instruction with
    | ⟨.error e, after, log⟩ => ⟨.error e, after, log⟩
    | ⟨.ok tile?, after, log⟩ =>
      let others := after.selectAll instructions
      ⟨others.result.map (tile?.toList ++ ·), others.selector, log ++ others.log⟩

end Selector

end L3Lowering
