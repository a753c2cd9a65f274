import L3Lowering.Folder
import L3Lowering.Label.Scope
import L3Lowering.Parser.Grammar
import L3Lowering.Source.Highlight
import L3Lowering.Tile.Emit

namespace L3Lowering

inductive CompileError where
  | parse (source : Source) (error : ParseError)
  | tile (error : TileError)
  | file (error : FileError)

def CompileError.message : CompileError → String
  | .parse _ error => error.message
  | .tile error => error.message
  | .file error => "failed to write output: " ++ error.text

def Source.parseTraced (source : Source) : Traced (Except CompileError Program) :=
  match source.parse with
  | .error e => ⟨.error (.parse source e), []⟩
  | .ok program =>
    ⟨.ok program, [⟨.debug, "parsed " ++ Text.natText program.functions.length
      ++ " function(s) from " ++ source.origin.text⟩]⟩

/-- The L2 program of a program. Its labels are put into scopes first, and the stem of the scopes
also starts its return labels. -/
def Program.lower (program : Program) : Emission Nat TiledProgram :=
  program.scopeLabels.emit (.ofStem program.stem)

def Program.compile (program : Program) : Traced (Except TileError String) :=
  let emission := program.lower
  match emission.result with
  | .error e => ⟨.error e, program.scopeLog ++ emission.log⟩
  | .ok tiled =>
    ⟨.ok tiled.text, program.scopeLog ++ emission.log
      ++ [⟨.debug, "compiled " ++ Text.natText program.functions.length ++ " function(s) with "
        ++ Text.natText emission.supply.state ++ " call site(s)"⟩]⟩

namespace Source

def compile (source : Source) : Traced (Except CompileError String) :=
  match source.parseTraced with
  | ⟨.error e, log⟩ => ⟨.error e, log⟩
  | ⟨.ok program, log⟩ =>
    let compiled := program.compile
    ⟨compiled.value.mapError .tile, log ++ compiled.log⟩

def scopedText (source : Source) : Except CompileError String :=
  match source.parse with
  | .error e => .error (.parse source e)
  | .ok program => .ok program.scopeLabels.text

end Source

namespace Folder

def source (folder : Folder) (path : String) : Except CompileError Source :=
  match folder.read path with
  | .error e => .error (.file e)
  | .ok contents => .ok ⟨contents, .file path⟩

def output (folder : Folder) (path text : String) : Traced (Except FileError Folder) :=
  match folder.write path text with
  | .error e => ⟨.error e, []⟩
  | .ok after =>
    ⟨.ok after, [⟨.debug, "wrote " ++ Text.natText text.utf8ByteSize ++ " byte(s) to " ++ path⟩]⟩

def compile (folder : Folder) (input output : String) :
    Traced (Except CompileError (Source × Folder)) :=
  match folder.source input with
  | .error e => ⟨.error e, []⟩
  | .ok source =>
    match source.compile with
    | ⟨.error e, log⟩ => ⟨.error e, log⟩
    | ⟨.ok text, log⟩ =>
      match folder.output output text with
      | ⟨.error e, written⟩ => ⟨.error (.file e), log ++ written⟩
      | ⟨.ok after, written⟩ => ⟨.ok (source, after), log ++ written⟩

end Folder

end L3Lowering
