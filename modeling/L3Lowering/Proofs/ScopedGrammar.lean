import L3Lowering.Proofs.LabelHygiene
import L3Lowering.Proofs.Tiling

namespace L3Lowering

theorem Stem.isWord_find (names : List String) : isWord (find names).toList = true := by
  unfold find
  split
  · rw [String.toList_ofList]
    decide
  · rw [String.toList_ofList, numbered]
    refine isWord_cons_iff.2 ⟨by decide, List.forall_mem_append.2 ⟨?_, ?_⟩⟩
    · intro c hc
      rw [List.eq_of_mem_replicate hc]
      decide
    · intro c hc
      rw [List.mem_singleton.1 hc]
      exact isNameChar_of_isDigit (Text.isDigit_digit (Nat.mod_lt _ (by omega)))

theorem Program.isWord_placeStem (program : Program) (place : Nat) :
    isWord (placeStem program.stem place).toList = true := by
  rw [placeStem, String.toList_append, Text.toList_natText]
  exact isWord_append (Stem.isWord_find _)
    fun c hc => isNameChar_of_isDigit (Text.isDigit_of_mem_digits hc)

theorem Label.isLabelWord_scopedName {stem name : String} (hstem : isWord stem.toList = true)
    (h : isLabelWord name = true) (globals : List String) :
    isLabelWord (Label.scopedName stem globals name) = true := by
  obtain ⟨cs, hname, hcs⟩ := isLabelWord_iff.1 h
  have hbare : (Label.bare name).toList = cs := by
    rw [Label.bare, hname]
    exact String.toList_ofList
  rw [Label.scopedName]
  split
  · exact h
  · refine isLabelWord_iff.2 ⟨stem.toList ++ cs, ?_, isWord_append hstem (isNameChar_of_isWord hcs)⟩
    rw [String.toList_append, String.toList_append, hbare]
    rfl

section Renaming

variable {rename : String → String}
  (hrename : ∀ name, isLabelWord name = true → isLabelWord (rename name) = true)
include hrename

theorem Atom.isNamed_mapLabels {atom : Atom} (h : ∀ node ∈ atom.nodes, node.isNamed = true) :
    ∀ node ∈ (atom.mapLabels rename).nodes, node.isNamed = true := by
  cases atom with
  | label l =>
      have hlabel : isLabelWord l.name = true := h (.label l) (by simp [nodes])
      have hrenamed := hrename l.name hlabel
      simp [mapLabels, nodes, Label.mapName, Node.isNamed, hrenamed]
  | var | literal | runtime => exact h

theorem Expression.isNamed_mapLabels {value : Expression}
    (h : ∀ node ∈ value.nodes, node.isNamed = true) :
    ∀ node ∈ (value.mapLabels .skip rename).nodes, node.isNamed = true := by
  have hnodes := (List.forall_mem_cons.1 h).2
  cases value with
  | atom a => exact List.forall_mem_cons.2 ⟨rfl, Atom.isNamed_mapLabels hrename hnodes⟩
  | binop b =>
      obtain ⟨hlhs, hrhs⟩ := List.forall_mem_append.1 (List.forall_mem_cons.1 hnodes).2
      refine List.forall_mem_cons.2 ⟨rfl, List.forall_mem_cons.2 ⟨rfl, ?_⟩⟩
      exact List.forall_mem_append.2
        ⟨Atom.isNamed_mapLabels hrename hlhs, Atom.isNamed_mapLabels hrename hrhs⟩
  | load | call => exact h

theorem Instruction.isNamed_mapLabels {instruction : Instruction}
    (h : ∀ node ∈ instruction.nodes, node.isNamed = true) :
    ∀ node ∈ (instruction.mapLabels .skip rename).nodes, node.isNamed = true := by
  have hnodes := (List.forall_mem_cons.1 h).2
  refine List.forall_mem_cons.2 ⟨rfl, ?_⟩
  cases instruction with
  | assign a =>
      obtain ⟨htarget, hvalue⟩ := List.forall_mem_append.1 (List.forall_mem_cons.1 hnodes).2
      refine List.forall_mem_cons.2 ⟨rfl, List.forall_mem_append.2 ⟨htarget, ?_⟩⟩
      exact Expression.isNamed_mapLabels hrename hvalue
  | goto g =>
      have htarget : isLabelWord g.target.name = true := hnodes (.label g.target) (by simp [Goto.nodes])
      simp [mapLabels, Goto.nodes, Label.mapName, Node.isNamed, hrename _ htarget]
  | branch b =>
      simp only [Branch.nodes, List.forall_mem_cons] at hnodes
      obtain ⟨-, hcondition, htrue, hfalse, -⟩ := hnodes
      simp [mapLabels, Branch.nodes, Label.mapName, Node.isNamed, hrename _ htrue,
        hrename _ hfalse, show isVarName b.condition.name = true from hcondition]
  | returnValue id value => exact Atom.isNamed_mapLabels hrename hnodes
  | label l =>
      have hlabel : isLabelWord l.name = true := hnodes (.label l) (by simp)
      simp [mapLabels, Label.mapName, Node.isNamed, hrename _ hlabel]
  | call | returnVoid => exact hnodes

end Renaming

theorem Program.Grammatical.scopeLabels_names {program : Program} (h : program.Grammatical) :
    ∀ function ∈ program.scopeLabels.functions, ∀ node ∈ function.nodes, node.isNamed = true := by
  intro function hfunction
  obtain ⟨place, hplace, rfl⟩ := List.mem_mapIdx.1 hfunction
  obtain ⟨hname, hnodes⟩ := List.forall_mem_cons.1 (h.names _ (List.getElem_mem hplace))
  obtain ⟨hparameters, hbody⟩ := List.forall_mem_append.1 hnodes
  refine List.forall_mem_cons.2 ⟨hname, List.forall_mem_append.2 ⟨hparameters, ?_⟩⟩
  intro node hnode
  obtain ⟨i, hi, hnode⟩ := List.mem_flatMap.1 hnode
  obtain ⟨j, hj, rfl⟩ := List.mem_map.1 hi
  refine Instruction.isNamed_mapLabels ?_ ?_ node hnode
  · intro name hname
    exact Label.isLabelWord_scopedName (program.isWord_placeStem place) hname _
  · intro node hnode
    exact hbody node (List.mem_flatMap.2 ⟨j, hj, hnode⟩)

theorem Program.Grammatical.scopeLabels {program : Program} (h : program.Grammatical) :
    program.scopeLabels.Grammatical where
  nonempty := by
    intro hnil
    have hlength := congrArg List.length hnil
    rw [Program.scopeLabels, List.length_mapIdx, List.length_nil, List.length_eq_zero_iff] at hlength
    exact h.nonempty hlength
  shapes := h.scopeLabels_shapes
  names := h.scopeLabels_names
  calls := h.scopable.scopeLabels.calls

end L3Lowering
