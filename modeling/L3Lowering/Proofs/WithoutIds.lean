import L3Lowering.Proofs.LabelPlaces

namespace L3Lowering

def Var.withoutId (var : Var) : Var :=
  { var with id := 0 }

def Label.withoutId (label : Label) : Label :=
  { label with id := 0 }

def Atom.withoutIds : Atom → Atom
  | .var v => .var v.withoutId
  | .label l => .label l.withoutId
  | .literal n => .literal { n with id := 0 }
  | .runtime r => .runtime { r with id := 0 }

def Callee.withoutIds : Callee → Callee
  | .var v => .var v.withoutId
  | .label l => .label l.withoutId
  | .runtime r => .runtime { r with id := 0 }

def Call.withoutIds (call : Call) : Call :=
  ⟨0, call.callee.withoutIds, call.arguments.map Atom.withoutIds⟩

def Expression.withoutIds : Expression → Expression
  | .atom a => .atom a.withoutIds
  | .binop b => .binop ⟨0, b.operator, b.lhs.withoutIds, b.rhs.withoutIds⟩
  | .load l => .load ⟨0, l.address.withoutId⟩
  | .call c => .call c.withoutIds

def Target.withoutIds : Target → Target
  | .var v => .var v.withoutId
  | .store s => .store ⟨0, s.address.withoutId⟩

def Instruction.withoutIds : Instruction → Instruction
  | .assign a => .assign ⟨0, a.target.withoutIds, a.value.withoutIds⟩
  | .goto g => .goto ⟨0, g.target.withoutId⟩
  | .branch b => .branch ⟨0, b.condition.withoutId, b.onTrue.withoutId, b.onFalse.withoutId⟩
  | .call c => .call c.withoutIds
  | .returnValue _ value => .returnValue 0 value.withoutIds
  | .returnVoid _ => .returnVoid 0
  | .label l => .label l.withoutId

def Function.withoutIds (function : Function) : Function :=
  ⟨function.name.withoutId, function.parameters.map Var.withoutId,
    function.body.map Instruction.withoutIds⟩

/-- The program with all ids alike: what programs of the same structure have in common. -/
def Program.withoutIds (program : Program) : Program :=
  ⟨program.functions.map Function.withoutIds⟩

theorem Atom.labels_withoutIds (atom : Atom) :
    atom.withoutIds.labels.map Label.name = atom.labels.map Label.name := by
  cases atom <;> rfl

theorem Call.labels_withoutIds (call : Call) :
    call.withoutIds.labels.map Label.name = call.labels.map Label.name := by
  have hcallee : call.callee.withoutIds.labels.map Label.name
      = call.callee.labels.map Label.name := by
    cases call.callee <;> rfl
  simp only [labels, withoutIds, List.map_append, hcallee, List.flatMap_map, List.map_flatMap,
    Atom.labels_withoutIds]

theorem Instruction.callLabels_withoutIds (instruction : Instruction) :
    instruction.withoutIds.callLabels.map Label.name = instruction.callLabels.map Label.name := by
  cases instruction with
  | assign a =>
      obtain ⟨id, target, value⟩ := a
      cases value with
      | call c => exact c.labels_withoutIds
      | atom | binop | load => rfl
  | call c => exact c.labels_withoutIds
  | goto | branch | returnValue | returnVoid | label => rfl

theorem Function.callLabels_withoutIds (function : Function) :
    function.withoutIds.callLabels.map Label.name = function.callLabels.map Label.name := by
  simp only [callLabels, withoutIds, List.flatMap_map, List.map_flatMap,
    Instruction.callLabels_withoutIds]

theorem Program.functionNames_withoutIds (program : Program) :
    program.withoutIds.functionNames = program.functionNames := by
  simp [functionNames, withoutIds, Function.withoutIds, Label.withoutId]

theorem Program.calls_of_withoutIds {program other : Program}
    (heq : other.withoutIds = program.withoutIds)
    (h : ∀ function ∈ program.functions, ∀ label ∈ function.callLabels,
      label.name ∈ program.functionNames) :
    ∀ function ∈ other.functions, ∀ name ∈ function.callLabels.map Label.name,
      name ∈ other.functionNames := by
  intro function hfunction name hname
  have hmem : function.withoutIds ∈ program.withoutIds.functions :=
    heq ▸ List.mem_map_of_mem hfunction
  obtain ⟨original, horiginal, hsame⟩ := List.mem_map.1 hmem
  rw [← Function.callLabels_withoutIds, ← hsame, Function.callLabels_withoutIds] at hname
  obtain ⟨label, hlabel, rfl⟩ := List.mem_map.1 hname
  rw [← functionNames_withoutIds, heq, functionNames_withoutIds]
  exact h original horiginal label hlabel

end L3Lowering
