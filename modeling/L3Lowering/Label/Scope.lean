import L3Lowering.Label.Stem
import L3Lowering.Log
import L3Lowering.Program.Rename
import L3Lowering.Program.Walk

namespace L3Lowering

def Label.scopedName (stem : String) (globals : List String) (name : String) : String :=
  if globals.contains (Label.bare name) then name else ":" ++ stem ++ Label.bare name

/-- Labels in calls stay as they are, because they have to find the functions. -/
def Function.scopeLabels (stem : String) (globals : List String) (function : Function) :
    Function :=
  function.mapLabels .skip (Label.scopedName stem globals)

namespace Program

def labels (program : Program) : List String :=
  (program.functions.flatMap Function.labelNames).eraseDups

def globals (program : Program) : List String :=
  program.functions.map (·.name.bareName)

def stem (program : Program) : String :=
  Stem.find program.labels

def placeStem (stem : String) (place : Nat) : String :=
  stem ++ Text.natText place

def scopeLabels (program : Program) : Program :=
  let stem := program.stem
  let globals := program.globals
  ⟨program.functions.mapIdx fun i f => f.scopeLabels (placeStem stem i) globals⟩

def scopeLog (program : Program) : Log :=
  let stem := program.stem
  ⟨.debug, "label prefix `" ++ stem ++ "` chosen from " ++ Text.natText program.labels.length
      ++ " distinct label(s)"⟩ ::
    program.functions.mapIdx fun i f =>
      ⟨.debug, "scoping labels of " ++ f.name.text ++ " with `" ++ placeStem stem i ++ "`"⟩

end Program

end L3Lowering
