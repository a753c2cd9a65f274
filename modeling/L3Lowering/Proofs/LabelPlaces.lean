import L3Lowering.Program.Rename
import L3Lowering.Program.Walk
import Mathlib.Data.List.Basic

namespace L3Lowering

def Atom.labels : Atom → List Label
  | .label l => [l]
  | _ => []

def Callee.labels : Callee → List Label
  | .label l => [l]
  | _ => []

def Call.labels (call : Call) : List Label :=
  call.callee.labels ++ call.arguments.flatMap Atom.labels

namespace Expression

def callLabels : Expression → List Label
  | .call c => c.labels
  | _ => []

def outerLabels : Expression → List Label
  | .atom a => a.labels
  | .binop b => b.lhs.labels ++ b.rhs.labels
  | _ => []

end Expression

namespace Instruction

def callLabels : Instruction → List Label
  | .assign a => a.value.callLabels
  | .call c => c.labels
  | _ => []

def outerLabels : Instruction → List Label
  | .assign a => a.value.outerLabels
  | .goto g => [g.target]
  | .branch b => [b.onTrue, b.onFalse]
  | .returnValue _ value => value.labels
  | .label l => [l]
  | _ => []

def labels (instruction : Instruction) : List Label :=
  instruction.nodes.filterMap Node.label?

end Instruction

namespace Function

def callLabels (function : Function) : List Label :=
  function.body.flatMap Instruction.callLabels

def outerLabels (function : Function) : List Label :=
  function.body.flatMap Instruction.outerLabels

def bodyLabels (function : Function) : List Label :=
  function.body.flatMap Instruction.labels

end Function

theorem Atom.labels_eq (atom : Atom) : atom.nodes.filterMap Node.label? = atom.labels := by
  cases atom <;> rfl

theorem Callee.labels_eq (callee : Callee) : callee.nodes.filterMap Node.label? = callee.labels := by
  cases callee <;> rfl

theorem Call.labels_eq (call : Call) : call.nodes.filterMap Node.label? = call.labels := by
  have hargs : (call.arguments.flatMap Atom.nodes).filterMap Node.label?
      = call.arguments.flatMap Atom.labels := by
    rw [List.filterMap_flatMap]
    exact congrArg (call.arguments.flatMap ·) (funext Atom.labels_eq)
  rw [Call.nodes, List.filterMap_cons_none rfl, List.filterMap_append, hargs, Callee.labels_eq]
  rfl

theorem Target.labels_eq (target : Target) : target.nodes.filterMap Node.label? = [] := by
  cases target <;> rfl

theorem Expression.labels_eq (value : Expression) :
    value.nodes.filterMap Node.label? = value.outerLabels ++ value.callLabels := by
  cases value with
  | atom a => simp [nodes, List.filterMap_cons, Node.label?, Atom.labels_eq, outerLabels, callLabels]
  | binop b =>
      have hnodes : b.nodes.filterMap Node.label? = b.lhs.labels ++ b.rhs.labels := by
        rw [Binop.nodes, List.filterMap_cons_none rfl, List.filterMap_append, Atom.labels_eq,
          Atom.labels_eq]
      simp [nodes, List.filterMap_cons, Node.label?, hnodes, outerLabels, callLabels]
  | load l => rfl
  | call c => simp [nodes, List.filterMap_cons, Node.label?, Call.labels_eq, outerLabels, callLabels]

theorem Instruction.labels_eq (instruction : Instruction) :
    instruction.labels = instruction.outerLabels ++ instruction.callLabels := by
  cases instruction with
  | assign a =>
      have hnodes : a.nodes.filterMap Node.label? = a.value.outerLabels ++ a.value.callLabels := by
        rw [Assignment.nodes, List.filterMap_cons_none rfl, List.filterMap_append,
          Target.labels_eq, Expression.labels_eq, List.nil_append]
      exact hnodes
  | call c =>
      simp [labels, nodes, List.filterMap_cons, Node.label?, Call.labels_eq, outerLabels, callLabels]
  | returnValue id value =>
      simp [labels, nodes, List.filterMap_cons, Node.label?, Atom.labels_eq, outerLabels, callLabels]
  | goto | branch | returnVoid | label => rfl

theorem Function.bodyLabels_eq (function : Function) :
    function.bodyNodes.filterMap Node.label? = function.bodyLabels := by
  rw [bodyNodes, List.filterMap_flatMap]
  rfl

theorem Function.labels_eq (function : Function) :
    function.nodes.filterMap Node.label? = function.name :: function.bodyLabels := by
  have hparameters : (function.parameters.map Node.var).filterMap Node.label? = [] := by
    simp [Node.label?]
  have hname : Node.label? (.label function.name) = some function.name := rfl
  rw [nodes, List.filterMap_cons_some hname, List.filterMap_append, hparameters, bodyLabels_eq,
    List.nil_append]

theorem Function.mem_bodyLabels {function : Function} {label : Label} :
    label ∈ function.bodyLabels ↔ label ∈ function.outerLabels ∨ label ∈ function.callLabels := by
  simp only [bodyLabels, outerLabels, callLabels, List.mem_flatMap, Instruction.labels_eq,
    List.mem_append]
  constructor
  · rintro ⟨i, hi, h | h⟩
    · exact .inl ⟨i, hi, h⟩
    · exact .inr ⟨i, hi, h⟩
  · rintro (⟨i, hi, h⟩ | ⟨i, hi, h⟩)
    · exact ⟨i, hi, .inl h⟩
    · exact ⟨i, hi, .inr h⟩

variable (rename : String → String)

theorem Atom.labels_mapLabels (atom : Atom) :
    (atom.mapLabels rename).labels = atom.labels.map (Label.mapName rename) := by
  cases atom <;> rfl

theorem Call.labels_mapLabels (call : Call) :
    (call.mapLabels .enter rename).labels = call.labels.map (Label.mapName rename) := by
  have hcallee : (call.callee.mapLabels rename).labels
      = call.callee.labels.map (Label.mapName rename) := by
    cases call.callee <;> rfl
  simp [labels, mapLabels, hcallee, Atom.labels_mapLabels, List.flatMap_map, List.map_flatMap]

theorem Instruction.outerLabels_mapLabels (calls : CallScope) (instruction : Instruction) :
    (instruction.mapLabels calls rename).outerLabels
      = instruction.outerLabels.map (Label.mapName rename) := by
  cases instruction with
  | assign a =>
      obtain ⟨id, target, value⟩ := a
      cases value with
      | atom a => exact Atom.labels_mapLabels rename a
      | binop b =>
          simp [mapLabels, Expression.mapLabels, Binop.mapLabels, outerLabels,
            Expression.outerLabels, Atom.labels_mapLabels]
      | load | call => rfl
  | returnValue id value => exact Atom.labels_mapLabels rename value
  | goto | branch | call | returnVoid | label => rfl

theorem Instruction.callLabels_mapLabels_enter (instruction : Instruction) :
    (instruction.mapLabels .enter rename).callLabels
      = instruction.callLabels.map (Label.mapName rename) := by
  cases instruction with
  | assign a =>
      obtain ⟨id, target, value⟩ := a
      cases value with
      | call c => exact Call.labels_mapLabels rename c
      | atom | binop | load => rfl
  | call c => exact Call.labels_mapLabels rename c
  | goto | branch | returnValue | returnVoid | label => rfl

theorem Function.bodyLabels_mapLabels (function : Function) :
    (function.mapLabels .enter rename).bodyLabels
      = function.bodyLabels.map (Label.mapName rename) := by
  simp [bodyLabels, mapLabels, List.flatMap_map, List.map_flatMap, Instruction.labels_eq,
    Instruction.outerLabels_mapLabels, Instruction.callLabels_mapLabels_enter]

theorem Function.callLabels_mapLabels (function : Function) :
    (function.mapLabels .enter rename).callLabels
      = function.callLabels.map (Label.mapName rename) := by
  simp [callLabels, mapLabels, List.flatMap_map, List.map_flatMap,
    Instruction.callLabels_mapLabels_enter]

variable {rename} {other : String → String}

theorem Label.mapName_congr {label : Label} (h : rename label.name = other label.name) :
    label.mapName rename = label.mapName other := by
  rw [mapName, mapName, h]

theorem Label.mapName_self {label : Label} (h : rename label.name = label.name) :
    label.mapName rename = label := by
  rw [mapName, h]

theorem Atom.mapLabels_congr {atom : Atom}
    (h : ∀ l ∈ atom.labels, rename l.name = other l.name) :
    atom.mapLabels rename = atom.mapLabels other := by
  cases atom with
  | label l => exact congrArg Atom.label (Label.mapName_congr (h l (List.mem_singleton_self l)))
  | var | literal | runtime => rfl

theorem Atom.mapLabels_self {atom : Atom} (h : ∀ l ∈ atom.labels, rename l.name = l.name) :
    atom.mapLabels rename = atom := by
  cases atom with
  | label l => exact congrArg Atom.label (Label.mapName_self (h l (List.mem_singleton_self l)))
  | var | literal | runtime => rfl

theorem Call.mapLabels_self {call : Call} (h : ∀ l ∈ call.labels, rename l.name = l.name) :
    call.mapLabels .enter rename = call := by
  obtain ⟨id, callee, arguments⟩ := call
  have hcallee : callee.mapLabels rename = callee := by
    cases callee with
    | label l =>
        have hl : rename l.name = l.name := h l (by simp [labels, Callee.labels])
        exact congrArg Callee.label (Label.mapName_self hl)
    | var | runtime => rfl
  have harguments : arguments.map (Atom.mapLabels rename) = arguments := by
    rw [List.map_congr_left, List.map_id]
    intro a ha
    apply Atom.mapLabels_self
    intro l hl
    exact h l (List.mem_append_right _ (List.mem_flatMap.2 ⟨a, ha, hl⟩))
  simp [mapLabels, hcallee, harguments]

/-- A renaming that keeps the labels in calls may as well enter them. -/
theorem Instruction.mapLabels_skip_eq_enter {instruction : Instruction}
    (houter : ∀ l ∈ instruction.outerLabels, rename l.name = other l.name)
    (hcall : ∀ l ∈ instruction.callLabels, other l.name = l.name) :
    instruction.mapLabels .skip rename = instruction.mapLabels .enter other := by
  cases instruction with
  | assign a =>
      obtain ⟨id, target, value⟩ := a
      cases value with
      | atom a => simp [mapLabels, Expression.mapLabels, Atom.mapLabels_congr houter]
      | binop b =>
          have hlhs : b.lhs.mapLabels rename = b.lhs.mapLabels other :=
            Atom.mapLabels_congr fun l hl => houter l (List.mem_append_left _ hl)
          have hrhs : b.rhs.mapLabels rename = b.rhs.mapLabels other :=
            Atom.mapLabels_congr fun l hl => houter l (List.mem_append_right _ hl)
          simp [mapLabels, Expression.mapLabels, Binop.mapLabels, hlhs, hrhs]
      | load l => rfl
      | call c =>
          have hself := Call.mapLabels_self hcall
          simp [mapLabels, Expression.mapLabels, hself]
          rfl
  | goto g =>
      have htarget := houter g.target (by simp [outerLabels])
      simp [mapLabels, Label.mapName_congr htarget]
  | branch b =>
      have htrue := houter b.onTrue (by simp [outerLabels])
      have hfalse := houter b.onFalse (by simp [outerLabels])
      simp [mapLabels, Label.mapName_congr htrue, Label.mapName_congr hfalse]
  | call c =>
      have hself := Call.mapLabels_self hcall
      simp [mapLabels, hself]
      rfl
  | returnValue id value => simp [mapLabels, Atom.mapLabels_congr houter]
  | returnVoid id => rfl
  | label l =>
      have hlabel := houter l (by simp [outerLabels])
      simp [mapLabels, Label.mapName_congr hlabel]

end L3Lowering
