import L3Lowering.Tile.Select

namespace L3Lowering

structure TiledFunction where
  name : String
  parameters : List String
  tiles : List Tile

structure TiledProgram where
  functions : List TiledFunction

namespace TiledFunction

def ofTiles (function : Function) (tiles : List Tile) : TiledFunction :=
  ⟨function.name.name, function.parameters.map Var.name, tiles⟩

def spillCount (function : TiledFunction) : Nat :=
  L2.spillCount function.parameters.length

def bindings (function : TiledFunction) : List L2.Line :=
  function.parameters.mapIdx (L2.bindParameter function.parameters.length)

def text (function : TiledFunction) : String :=
  "(" ++ function.name ++ "\n"
    ++ Text.natText function.parameters.length ++ " " ++ Text.natText function.spillCount ++ "\n"
    ++ String.join (function.bindings.map fun line => line.text ++ "\n")
    ++ "\n".intercalate (function.tiles.map Tile.text) ++ ")"

end TiledFunction

def TiledProgram.entryPoint : String :=
  ":main"

def TiledProgram.text (program : TiledProgram) : String :=
  "(" ++ entryPoint ++ "\n\n"
    ++ String.join (program.functions.map fun function => function.text ++ "\n") ++ ")\n"

/-- A result with the supply after it, which is there also after a failure, and what was told. -/
structure Emission (σ α : Type) where
  result : Except TileError α
  supply : LabelSupply σ
  log : Log

section Emission

variable {σ : Type}

def Function.emit (supply : LabelSupply σ) (function : Function) : Emission σ TiledFunction :=
  let selection := (Selector.ofSupply supply).selectAll function.body
  ⟨selection.result.map (TiledFunction.ofTiles function), selection.selector.supply,
    ⟨.debug, "tiling " ++ function.name.text⟩ :: selection.log⟩

def Program.emitAll (supply : LabelSupply σ) : List Function → Emission σ (List TiledFunction)
  | [] => ⟨.ok [], supply, []⟩
  | function :: functions =>
    match function.emit supply with
    | ⟨.error e, after, log⟩ => ⟨.error e, after, log⟩
    | ⟨.ok tiled, after, log⟩ =>
      let others := emitAll after functions
      ⟨others.result.map (tiled :: ·), others.supply, log ++ others.log⟩

def Program.emit (supply : LabelSupply σ) (program : Program) : Emission σ TiledProgram :=
  let emission := emitAll supply program.functions
  ⟨emission.result.map TiledProgram.mk, emission.supply, emission.log⟩

end Emission

end L3Lowering
