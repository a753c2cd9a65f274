import L3Lowering.Proofs.Grammatical
import L3Lowering.Proofs.LabelTraversal
import Mathlib.Logic.Function.Iterate

namespace L3Lowering.Program

variable {program : Program} {name : String} {place : Nat}

theorem bare_mem_globals (h : program.Scopable) (hname : name ∈ program.writtenNames) :
    Label.bare name ∈ program.globals ↔ name ∈ program.functionNames := by
  rw [globals, List.mem_map, mem_functionNames]
  constructor
  · rintro ⟨function, hfunction, hbare⟩
    have hwritten : function.name.name ∈ program.writtenNames :=
      functionNames_subset (mem_functionNames.2 ⟨function, hfunction, rfl⟩)
    exact ⟨function, hfunction,
      (h.isLabelName hwritten).bare_injective (h.isLabelName hname) hbare⟩
  · rintro ⟨function, hfunction, rfl⟩
    exact ⟨function, hfunction, rfl⟩

theorem scopedName_eq (h : program.Scopable) (hname : name ∈ program.writtenNames) :
    Label.scopedName (placeStem program.stem place) program.globals name
      = program.scopedName place name := by
  by_cases hfunction : name ∈ program.functionNames
  · rw [Label.scopedName, if_pos (by simpa using (bare_mem_globals h hname).2 hfunction),
      scopedName_of_mem hfunction]
  · have hglobal : Label.bare name ∉ program.globals := by
      rwa [bare_mem_globals h hname]
    rw [Label.scopedName, if_neg (by simpa using hglobal), scopedName, if_neg hfunction, placeStem]
    simp only [String.append_assoc]

theorem bodyLabels_subset {function : Function} (hfunction : function ∈ program.functions)
    {label : Label} (hlabel : label ∈ function.bodyLabels) : label.name ∈ program.writtenNames :=
  List.mem_map_of_mem (mem_allLabels.2 ⟨function, hfunction, .inr hlabel⟩)

/-- Labels outside calls are renamed, and those in calls are names of functions, which stay. -/
theorem scopeLabels_eq_renamed (h : program.Scopable) : program.scopeLabels = program.renamed := by
  have hfunctions : ∀ place, ∀ function ∈ program.functions,
      function.scopeLabels (placeStem program.stem place) program.globals
        = function.mapLabels .enter (program.scopedName place) := by
    intro place function hfunction
    rw [Function.scopeLabels, Function.mapLabels, Function.mapLabels]
    congr 1
    apply List.map_congr_left
    intro instruction hinstruction
    apply Instruction.mapLabels_skip_eq_enter
    · intro label hlabel
      apply scopedName_eq h
      apply bodyLabels_subset hfunction
      exact Function.mem_bodyLabels.2 (.inl (List.mem_flatMap.2 ⟨instruction, hinstruction, hlabel⟩))
    · intro label hlabel
      apply scopedName_of_mem
      exact h.calls function hfunction label (List.mem_flatMap.2 ⟨instruction, hinstruction, hlabel⟩)
  rw [scopeLabels, renamed]
  congr 1
  apply List.ext_getElem?
  intro place
  rw [List.getElem?_mapIdx, List.getElem?_mapIdx]
  cases hplace : program.functions[place]? with
  | none => rfl
  | some function =>
      rw [Option.map_some, Option.map_some]
      exact congrArg some (hfunctions place function (List.mem_of_getElem? hplace))

theorem mem_functions_renamed {after : Function} (h : after ∈ program.renamed.functions) :
    ∃ place, ∃ function ∈ program.functions,
      after = function.mapLabels .enter (program.scopedName place) := by
  obtain ⟨place, hlt, rfl⟩ := List.mem_mapIdx.1 h
  exact ⟨place, _, List.getElem_mem hlt, rfl⟩

theorem functionNames_renamed (program : Program) :
    program.renamed.functionNames = program.functionNames := by
  rw [functionNames, functionNames, renamed]
  apply List.ext_getElem?
  intro place
  simp only [List.getElem?_map, List.getElem?_mapIdx, Option.map_map]
  rfl

theorem Scopable.renamed (h : program.Scopable) : program.renamed.Scopable := by
  constructor
  · intro label hlabel
    obtain ⟨after, hscoped, hplace⟩ := mem_allLabels.1 hlabel
    obtain ⟨place, function, hfunction, rfl⟩ := mem_functions_renamed hscoped
    rcases hplace with rfl | hbody
    · exact h.named _ (mem_allLabels.2 ⟨function, hfunction, .inl rfl⟩)
    · rw [Function.bodyLabels_mapLabels] at hbody
      obtain ⟨original, horiginal, rfl⟩ := List.mem_map.1 hbody
      exact isLabelName_scopedName h (bodyLabels_subset hfunction horiginal)
  · intro after hscoped label hlabel
    obtain ⟨place, function, hfunction, rfl⟩ := mem_functions_renamed hscoped
    rw [Function.callLabels_mapLabels] at hlabel
    obtain ⟨original, horiginal, rfl⟩ := List.mem_map.1 hlabel
    have hcall := h.calls function hfunction original horiginal
    rw [functionNames_renamed, Label.mapName, scopedName_of_mem hcall]
    exact hcall

theorem Scopable.scopeLabels (h : program.Scopable) : program.scopeLabels.Scopable := by
  rw [scopeLabels_eq_renamed h]
  exact h.renamed

theorem Scopable.iterate (h : program.Scopable) (n : Nat) :
    (Program.scopeLabels^[n] program).Scopable := by
  induction n with
  | zero => exact h
  | succ n ih =>
      rw [Function.iterate_succ_apply']
      exact ih.scopeLabels

/-- Scoping is a renaming that keeps apart what has to stay apart. -/
structure ScopesApart (program : Program) : Prop where
  renames : program.scopeLabels = program.renamed
  length : program.scopeLabels.functions.length = program.functions.length
  labels : ∀ (place : Nat) (function : Function), program.functions[place]? = some function →
    ∃ after : Function, program.scopeLabels.functions[place]? = some after ∧
      after.name = function.name ∧ after.parameters = function.parameters ∧
      after.bodyLabels = function.bodyLabels.map (Label.mapName (program.scopedName place)) ∧
      after.bodyLabels.map Label.name
        = (function.bodyLabels.map Label.name).map (program.scopedName place) ∧
      after.callLabels = function.callLabels ∧ function.SameUpToLabels after
  injective : ∀ place, ∀ name ∈ program.writtenNames, ∀ other ∈ program.writtenNames,
    program.scopedName place name = program.scopedName place other → name = other
  disjoint : ∀ place place', place ≠ place' → ∀ name ∈ program.writtenNames,
    ∀ other ∈ program.writtenNames, name ∉ program.functionNames →
      other ∉ program.functionNames →
        program.scopedName place name ≠ program.scopedName place' other
  notFunction : ∀ place, ∀ name ∈ program.writtenNames, name ∉ program.functionNames →
    program.scopedName place name ∉ program.functionNames
  notReserved : ∀ place, ∀ name ∈ program.writtenNames, name ∉ program.functionNames →
    ¬ (program.stem ++ "_").toList <+: (Label.bare (program.scopedName place name)).toList

theorem Scopable.scopesApart (h : program.Scopable) : program.ScopesApart where
  renames := scopeLabels_eq_renamed h
  length := List.length_mapIdx
  labels := by
    intro place function hplace
    have hlabels := function.bodyLabels_mapLabels (program.scopedName place)
    have hcalls := function.callLabels_mapLabels (program.scopedName place)
    refine ⟨function.mapLabels .enter (program.scopedName place), ?_, rfl, rfl, hlabels, ?_, ?_,
      function.sameUpToLabels_mapLabels _ _⟩
    · rw [scopeLabels_eq_renamed h, Program.renamed, List.getElem?_mapIdx, hplace]
      rfl
    · rw [hlabels, List.map_map, List.map_map]
      rfl
    · rw [hcalls, List.map_congr_left, List.map_id]
      intro label hlabel
      have hcall := h.calls function (List.mem_of_getElem? hplace) label hlabel
      exact Label.mapName_self (scopedName_of_mem hcall)
  injective place name hname other hother heq := scopedName_injective h hname hother heq
  disjoint place place' hne name hname other hother hlocal hlocal' heq :=
    hne (scopedName_place_injective h hname hother hlocal hlocal' heq)
  notFunction place name _ hlocal hmem :=
    scopedName_not_mem hlocal (functionNames_subset hmem) rfl
  notReserved place name _ hlocal := scopedName_not_reserved hlocal

/-- Scoping keeps the labels of all functions apart: of every program that a source spells, of every
other with proper labels, and of what any number of scopings makes of it. -/
theorem scopeLabels_hygienic :
    (∀ (source : Source) (program : Program), source.parse = .ok program → program.Scopable) ∧
    ∀ program : Program, program.Scopable → ∀ n : Nat,
      (Program.scopeLabels^[n] program).Scopable ∧
        (Program.scopeLabels^[n] program).ScopesApart := by
  constructor
  · intro source program h
    exact (Source.grammatical_of_parse h).scopable
  · intro program h n
    exact ⟨h.iterate n, (h.iterate n).scopesApart⟩

/-- The labels of the second program start with each other and with numbered stems. -/
theorem scopeLabels_hygienic_twice :
    let parsed : Program := ⟨[⟨⟨0, ":z"⟩, [], [.label ⟨1, ":z0"⟩, .goto ⟨3, ⟨2, ":z0"⟩⟩]⟩]⟩
    let program : Program :=
      ⟨[⟨⟨0, ":f"⟩, [], [.label ⟨1, ":z"⟩, .goto ⟨3, ⟨2, ":z"⟩⟩]⟩,
        ⟨⟨4, ":g"⟩, [], [.label ⟨5, ":z1"⟩, .call ⟨8, .label ⟨6, ":f"⟩, [.label ⟨7, ":g"⟩]⟩]⟩]⟩
    (Source.ofString "define :z() \x7b :z0 br :z0 \x7d").parse = .ok parsed ∧ parsed.Scopable ∧
      program.Scopable ∧ (Program.scopeLabels^[2] program).Scopable ∧
      (Program.scopeLabels^[2] program).ScopesApart := by
  intro parsed program
  have hparse : (Source.ofString "define :z() \x7b :z0 br :z0 \x7d").parse = .ok parsed := by
    decide +kernel
  have hnames : ∀ label ∈ program.allLabels, isLabelWord label.name = true := by decide
  have hcalls : ∀ function ∈ program.functions, ∀ label ∈ function.callLabels,
      label.name ∈ program.functionNames := by decide
  have hscopable : program.Scopable :=
    ⟨fun label hlabel => isLabelName_of_isLabelWord (hnames label hlabel), hcalls⟩
  exact ⟨hparse, scopeLabels_hygienic.1 _ parsed hparse, hscopable,
    scopeLabels_hygienic.2 program hscopable 2⟩

end L3Lowering.Program
