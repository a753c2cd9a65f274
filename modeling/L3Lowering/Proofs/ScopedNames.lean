import L3Lowering.Label.Scope
import L3Lowering.Label.Supply
import L3Lowering.Proofs.DecimalText
import L3Lowering.Proofs.FreshStem
import L3Lowering.Proofs.LabelPlaces
import L3Lowering.Proofs.Names

namespace L3Lowering

namespace Program

def allLabels (program : Program) : List Label :=
  program.functions.flatMap fun function => function.nodes.filterMap Node.label?

/-- What the scoping of labels relies on: labels have proper names, and those in calls are the
names of functions. -/
structure Scopable (program : Program) : Prop where
  named : ∀ label ∈ program.allLabels, IsLabelName label.name
  calls : ∀ function ∈ program.functions, ∀ label ∈ function.callLabels,
    label.name ∈ program.functionNames

/-- The name of a label in the scope of the function at a place. The names of functions have no
scope. -/
def scopedName (program : Program) (place : Nat) (name : String) : String :=
  if name ∈ program.functionNames then name
  else ":" ++ program.stem ++ Text.natText place ++ Label.bare name

def renamed (program : Program) : Program :=
  ⟨program.functions.mapIdx fun place function =>
    function.mapLabels .enter (program.scopedName place)⟩

variable {program : Program} {name other : String} {place : Nat}

theorem mem_allLabels {label : Label} : label ∈ program.allLabels ↔
    ∃ function ∈ program.functions, label = function.name ∨ label ∈ function.bodyLabels := by
  simp only [allLabels, List.mem_flatMap, Function.labels_eq, List.mem_cons]

theorem mem_functionNames : name ∈ program.functionNames ↔
    ∃ function ∈ program.functions, function.name.name = name := by
  simp [functionNames]

def writtenNames (program : Program) : List String :=
  program.allLabels.map Label.name

theorem functionNames_subset (h : name ∈ program.functionNames) : name ∈ program.writtenNames := by
  obtain ⟨function, hfunction, rfl⟩ := mem_functionNames.1 h
  exact List.mem_map_of_mem (mem_allLabels.2 ⟨function, hfunction, .inl rfl⟩)

theorem bare_mem_labels (h : name ∈ program.writtenNames) : Label.bare name ∈ program.labels := by
  obtain ⟨label, hlabel, rfl⟩ := List.mem_map.1 h
  obtain ⟨function, hfunction, hnodes⟩ := List.mem_flatMap.1 hlabel
  rw [labels, List.mem_eraseDups, List.mem_flatMap]
  refine ⟨function, hfunction, ?_⟩
  rw [Function.labelNames, List.mem_eraseDups]
  exact List.mem_map_of_mem hnodes

theorem stem_not_prefix (h : name ∈ program.writtenNames) :
    ¬ program.stem.toList <+: (Label.bare name).toList :=
  Stem.find_not_prefix (bare_mem_labels h)

theorem stem_eq_cons (program : Program) : ∃ rest, program.stem.toList = Stem.root :: rest :=
  List.head?_eq_some_iff.1 (Stem.find_head? program.labels)

theorem Scopable.isLabelName (h : program.Scopable) (hname : name ∈ program.writtenNames) :
    IsLabelName name := by
  obtain ⟨label, hlabel, rfl⟩ := List.mem_map.1 hname
  exact h.named label hlabel

theorem scopedName_of_mem (h : name ∈ program.functionNames) :
    program.scopedName place name = name :=
  if_pos h

theorem toList_scopedName (h : name ∉ program.functionNames) :
    (program.scopedName place name).toList
      = ':' :: (program.stem.toList ++ (Text.digits place ++ (Label.bare name).toList)) := by
  rw [scopedName, if_neg h]
  simp [String.toList_append]

theorem toList_bare_scopedName (h : name ∉ program.functionNames) :
    (Label.bare (program.scopedName place name)).toList
      = program.stem.toList ++ (Text.digits place ++ (Label.bare name).toList) := by
  rw [Label.bare, toList_scopedName h]
  simp

theorem isLabelName_scopedName (h : program.Scopable) (hname : name ∈ program.writtenNames) :
    IsLabelName (program.scopedName place name) := by
  by_cases hfunction : name ∈ program.functionNames
  · rw [scopedName_of_mem hfunction]
    exact h.isLabelName hname
  · obtain ⟨rest, hstem⟩ := program.stem_eq_cons
    exact ⟨Stem.root, _, by rw [toList_scopedName hfunction, hstem]; rfl, by decide⟩

theorem scopedName_not_mem (hlocal : name ∉ program.functionNames)
    (hother : other ∈ program.writtenNames) : program.scopedName place name ≠ other := by
  intro heq
  apply stem_not_prefix hother
  rw [← heq, toList_bare_scopedName hlocal]
  exact List.prefix_append _ _

theorem scopedName_injective (h : program.Scopable) (hname : name ∈ program.writtenNames)
    (hother : other ∈ program.writtenNames)
    (heq : program.scopedName place name = program.scopedName place other) : name = other := by
  by_cases hfunction : name ∈ program.functionNames
  · by_cases hfunction' : other ∈ program.functionNames
    · rwa [scopedName_of_mem hfunction, scopedName_of_mem hfunction'] at heq
    · rw [scopedName_of_mem hfunction] at heq
      exact absurd heq.symm (scopedName_not_mem hfunction' hname)
  · by_cases hfunction' : other ∈ program.functionNames
    · rw [scopedName_of_mem hfunction'] at heq
      exact absurd heq (scopedName_not_mem hfunction hother)
    · have hlist := congrArg String.toList heq
      rw [toList_scopedName hfunction, toList_scopedName hfunction', List.cons.injEq,
        List.append_cancel_left_eq, List.append_cancel_left_eq] at hlist
      exact (h.isLabelName hname).bare_injective (h.isLabelName hother)
        (String.toList_injective hlist.2)

/-- A bare name starts with no digit, so the digits of the place end where it starts. -/
theorem scopedName_place_injective (h : program.Scopable) {place' : Nat}
    (hname : name ∈ program.writtenNames) (hother : other ∈ program.writtenNames)
    (hlocal : name ∉ program.functionNames) (hlocal' : other ∉ program.functionNames)
    (heq : program.scopedName place name = program.scopedName place' other) : place = place' := by
  have hlist := congrArg String.toList heq
  rw [toList_scopedName hlocal, toList_scopedName hlocal', List.cons.injEq,
    List.append_cancel_left_eq] at hlist
  exact (Text.digits_append_inj (h.isLabelName hname).bare_head?_not_digit
    (h.isLabelName hother).bare_head?_not_digit hlist.2).1

/-- In the name of a scoped label the stem goes on with a digit, not with `_`. -/
theorem scopedName_not_reserved (hlocal : name ∉ program.functionNames) :
    ¬ (program.stem ++ "_").toList <+: (Label.bare (program.scopedName place name)).toList := by
  obtain ⟨c, cs, hdigits, hc⟩ := Text.digits_eq_cons place
  rw [toList_bare_scopedName hlocal, String.toList_append, List.prefix_append_right_inj, hdigits]
  intro hp
  obtain ⟨rfl, -⟩ := List.cons_prefix_cons.1 hp
  exact absurd hc (by decide)

end Program

end L3Lowering
