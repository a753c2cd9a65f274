import L3Lowering.Proofs.JumpResolution
import L3Lowering.Proofs.SelectionRun
import Mathlib.Data.List.Nodup
import Mathlib.Data.List.Perm.Basic

namespace L3Lowering

def Instruction.placedLabel? : Instruction → Option String
  | .label l => some l.name
  | _ => none

def Function.placedLabels (function : Function) : List String :=
  function.body.filterMap Instruction.placedLabel?

/-- The labels that an L2 program defines, each as often as it is defined. -/
def TiledProgram.definitions (program : TiledProgram) : List String :=
  program.sites.map Prod.fst

/-- Functions have different names, and a label that stands alone in a body stands there only once
and is not the name of a function. -/
structure Program.LabelsOnce (program : Program) : Prop where
  functions : program.functionNames.Nodup
  bodies : ∀ function ∈ program.functions, function.placedLabels.Nodup
  locals : ∀ function ∈ program.functions, ∀ name ∈ function.placedLabels,
    name ∉ program.functionNames

theorem L2.map_fst_sites (place : Nat → Site) (lines : List L2.Line) :
    (L2.sites place lines).map Prod.fst = lines.filterMap L2.Line.label? := by
  have hfst : (fun p : L2.Line × Nat => (p.1.label?.map fun name => (name, place p.2)).map Prod.fst)
      = fun p => p.1.label? := by
    funext p
    cases p.1.label? <;> rfl
  calc (L2.sites place lines).map Prod.fst
      = lines.zipIdx.filterMap (fun p => p.1.label?) := by rw [L2.sites, List.map_filterMap, hfst]
    _ = (lines.zipIdx.map Prod.fst).filterMap L2.Line.label? := by rw [List.filterMap_map]; rfl
    _ = lines.filterMap L2.Line.label? := by rw [List.zipIdx_map_fst]

theorem TiledFunction.map_fst_sites (i : Nat) (function : TiledFunction) :
    (function.sites i).map Prod.fst = function.name :: function.tiles.flatMap Tile.defines := by
  have htiles : (function.tiles.zipIdx.flatMap fun p =>
      (L2.sites (.line i p.2) p.1.lines).map Prod.fst) = function.tiles.flatMap Tile.defines := by
    simp only [L2.map_fst_sites]
    conv_rhs => rw [← List.zipIdx_map_fst 0 function.tiles, List.flatMap_map]
    rfl
  rw [sites, sites_bindings, List.nil_append, List.map_cons, List.map_flatMap]
  exact congrArg (List.cons function.name) htiles

theorem TiledProgram.definitions_eq (program : TiledProgram) :
    program.definitions = program.functions.flatMap fun function =>
      function.name :: function.tiles.flatMap Tile.defines := by
  simp only [definitions, sites, List.map_flatMap, TiledFunction.map_fst_sites]
  conv_rhs => rw [← List.zipIdx_map_fst 0 program.functions, List.flatMap_map]

variable {σ : Type} {supply after : LabelSupply σ}

theorem Tile.Lowers.defines_eq {returnLabel : String} {instruction : Instruction} {tile : Tile}
    (h : Tile.Lowers returnLabel instruction tile) :
    tile.defines
      = instruction.placedLabel?.toList ++ List.replicate instruction.callCount returnLabel := by
  cases h with
  | assignCall hvalues =>
      rw [Tile.defines, Tile.lines, List.filterMap_append, CallSite.defines_lines]
      rfl
  | call hvalues => exact CallSite.defines_lines _
  | assign | load | arithmetic | comparison | store | goto | branch | returnValue | returnVoid
  | label => rfl

theorem Instruction.replicate_label (instruction : Instruction) :
    List.replicate instruction.callCount (supply.label 0)
      = (List.range instruction.callCount).map supply.label := by
  unfold callCount
  split <;> rfl

theorem Selector.Run.defines_perm {body : List Instruction} {tiles : List Tile}
    (h : Selector.Run supply body tiles after) :
    (tiles.flatMap Tile.defines).Perm (body.filterMap Instruction.placedLabel?
      ++ (List.range (Instruction.callCounts body)).map supply.label) := by
  induction h with
  | nil => exact .nil
  | @cons supply after i is tile tiles hchoose _ ih =>
      have hfirst : tile.defines
          = i.placedLabel?.toList ++ (List.range i.callCount).map supply.label := by
        have hlowers := lowers_of_choose hchoose
        rw [LabelSupply.take_eq] at hlowers
        rw [hlowers.defines_eq, Instruction.replicate_label]
      have hlabels : (List.range (i.callCount + Instruction.callCounts is)).map supply.label
          = (List.range i.callCount).map supply.label
            ++ (List.range (Instruction.callCounts is)).map (supply.skip i.callCount).label := by
        simp [List.range_add, Function.comp_def, LabelSupply.label_skip]
      have hplaced : (i :: is).filterMap Instruction.placedLabel?
          = i.placedLabel?.toList ++ is.filterMap Instruction.placedLabel? := by
        cases hi : i.placedLabel? <;> simp [hi]
      rw [List.flatMap_cons, hfirst, Instruction.callCounts, hlabels, hplaced, List.append_assoc,
        List.append_assoc]
      refine List.Perm.append_left _ ?_
      exact (ih.append_left _).trans (List.perm_append_comm_assoc _ _ _)

theorem Selector.Run.append {middle : LabelSupply σ} {body body' : List Instruction}
    {tiles tiles' : List Tile} (h : Selector.Run supply body tiles middle)
    (h' : Selector.Run middle body' tiles' after) :
    Selector.Run supply (body ++ body') (tiles ++ tiles') after := by
  induction h with
  | nil => exact h'
  | cons hchoose _ ih => exact .cons hchoose (ih h')

namespace Program.Run

variable {functions : List Function} {tiled : List TiledFunction}

theorem bodies (h : Program.Run supply functions tiled after) :
    Selector.Run supply (functions.flatMap Function.body) (tiled.flatMap TiledFunction.tiles)
      after := by
  induction h with
  | nil supply => exact .nil supply
  | cons hbody _ ih => exact hbody.append ih

theorem names (h : Program.Run supply functions tiled after) :
    tiled.map TiledFunction.name = functions.map (·.name.name) := by
  induction h with
  | nil => rfl
  | cons _ _ ih => exact congrArg (List.cons _) ih

theorem definitions_perm (h : Program.Run supply functions tiled after) :
    (TiledProgram.mk tiled).definitions.Perm (functions.map (·.name.name)
      ++ (functions.flatMap Function.placedLabels
        ++ (List.range (Instruction.callCounts (functions.flatMap Function.body))).map
          supply.label)) := by
  have hplaced : functions.flatMap Function.placedLabels
      = (functions.flatMap Function.body).filterMap Instruction.placedLabel? :=
    (List.filterMap_flatMap ..).symm
  have htiles : (tiled.flatMap TiledFunction.tiles).flatMap Tile.defines
      = tiled.flatMap fun function => function.tiles.flatMap Tile.defines := List.flatMap_assoc
  rw [TiledProgram.definitions_eq, hplaced, ← h.names]
  refine (List.map_append_flatMap_perm tiled _ _).symm.trans (List.Perm.append_left _ ?_)
  rw [← htiles]
  exact h.bodies.defines_perm

end Program.Run

theorem Function.placedLabels_mapLabels (calls : CallScope) (rename : String → String)
    (function : Function) :
    (function.mapLabels calls rename).placedLabels = function.placedLabels.map rename := by
  have hinstruction (i : Instruction) :
      (i.mapLabels calls rename).placedLabel? = i.placedLabel?.map rename := by
    cases i <;> rfl
  rw [placedLabels, placedLabels, mapLabels, List.filterMap_map, List.map_filterMap]
  exact congrArg (function.body.filterMap ·) (funext hinstruction)

theorem LabelSupply.returnLabel_injective (stem : String) :
    Function.Injective (LabelSupply.returnLabel stem) := by
  intro m n h
  have hlist := congrArg String.toList h
  simp only [returnLabel, String.toList_append, List.append_cancel_left_eq] at hlist
  exact Text.digits_injective (by simpa [Text.natText] using hlist)

namespace Program

variable {program : Program} {name other : String} {i j : Nat} {function : Function}

theorem placedLabels_subset (hfunction : function ∈ program.functions)
    (hname : name ∈ function.placedLabels) : name ∈ program.writtenNames := by
  obtain ⟨instruction, hinstruction, hplaced⟩ := List.mem_filterMap.1 hname
  cases instruction with
  | label l =>
      cases hplaced
      have hlabel : l ∈ (Instruction.label l).labels := by
        simp [Instruction.labels_eq, Instruction.outerLabels]
      exact bodyLabels_subset hfunction (List.mem_flatMap.2 ⟨_, hinstruction, hlabel⟩)
  | _ => cases hplaced

/-- No name of the source starts with the stem, and every return label does. -/
theorem returnLabel_ne_written (hname : name ∈ program.writtenNames) (issued : Nat) :
    LabelSupply.returnLabel program.stem issued ≠ name := by
  rintro rfl
  apply stem_not_prefix hname
  have htext : (LabelSupply.returnLabel program.stem issued).toList
      = ':' :: (program.stem.toList ++ ("_ret".toList ++ Text.digits issued)) := by
    simp [LabelSupply.returnLabel]
  rw [Label.bare, htext]
  simp

theorem returnLabel_ne_scoped (hname : name ∈ program.writtenNames) (issued : Nat) :
    LabelSupply.returnLabel program.stem issued ≠ program.scopedName i name := by
  by_cases hlocal : name ∈ program.functionNames
  · rw [scopedName_of_mem hlocal]
    exact returnLabel_ne_written hname issued
  · exact returnLabel_ne_scopedName hlocal issued

def scopedLabels (program : Program) : List String :=
  program.renamed.functions.flatMap Function.placedLabels

theorem placedLabels_renamed {after : Function} (h : program.renamed.functions[i]? = some after) :
    ∃ function, program.functions[i]? = some function ∧
      after.placedLabels = function.placedLabels.map (program.scopedName i) := by
  rw [renamed, List.getElem?_mapIdx] at h
  obtain ⟨function, hfunction, rfl⟩ := Option.map_eq_some_iff.1 h
  exact ⟨function, hfunction, Function.placedLabels_mapLabels _ _ _⟩

theorem mem_scopedLabels : name ∈ program.scopedLabels ↔
    ∃ (i : Nat) (function : Function), program.functions[i]? = some function ∧
      ∃ placed ∈ function.placedLabels, program.scopedName i placed = name := by
  rw [scopedLabels, List.mem_flatMap]
  constructor
  · rintro ⟨after, hafter, hname⟩
    obtain ⟨i, hi⟩ := List.mem_iff_getElem?.1 hafter
    obtain ⟨function, hfunction, hplaced⟩ := placedLabels_renamed hi
    rw [hplaced] at hname
    exact ⟨i, function, hfunction, List.mem_map.1 hname⟩
  · rintro ⟨i, function, hfunction, placed, hplaced, rfl⟩
    refine ⟨function.mapLabels .enter (program.scopedName i), ?_, ?_⟩
    · apply List.mem_of_getElem? (i := i)
      rw [renamed, List.getElem?_mapIdx, hfunction]
      rfl
    · rw [Function.placedLabels_mapLabels]
      exact List.mem_map_of_mem hplaced

theorem disjoint_scopedLabels_iff : List.Disjoint program.functionNames program.scopedLabels ↔
    ∀ function ∈ program.functions, ∀ name ∈ function.placedLabels,
      name ∉ program.functionNames := by
  constructor
  · intro hdisjoint function hfunction name hname hmem
    obtain ⟨i, hi⟩ := List.mem_iff_getElem?.1 hfunction
    exact hdisjoint hmem (mem_scopedLabels.2 ⟨i, function, hi, name, hname, scopedName_of_mem hmem⟩)
  · intro hlocals name hmem hscoped
    obtain ⟨i, function, hfunction, placed, hplaced, rfl⟩ := mem_scopedLabels.1 hscoped
    have hlocal := hlocals function (List.mem_of_getElem? hfunction) placed hplaced
    exact scopedName_not_mem hlocal (functionNames_subset hmem) rfl

theorem nodup_scopedLabels (h : program.Scopable) (honce : program.LabelsOnce) :
    program.scopedLabels.Nodup := by
  rw [scopedLabels, List.nodup_flatMap]
  constructor
  · intro after hafter
    obtain ⟨i, hi⟩ := List.mem_iff_getElem?.1 hafter
    obtain ⟨function, hfunction, hplaced⟩ := placedLabels_renamed hi
    have hmem := List.mem_of_getElem? hfunction
    rw [hplaced]
    refine (honce.bodies function hmem).map_on fun a ha b hb heq => ?_
    exact scopedName_injective h (placedLabels_subset hmem ha) (placedLabels_subset hmem hb) heq
  · rw [List.pairwise_iff_getElem]
    intro i j hi hj hlt name hname hname'
    obtain ⟨f, hf, hplaced⟩ := placedLabels_renamed (List.getElem?_eq_getElem hi)
    obtain ⟨g, hg, hplaced'⟩ := placedLabels_renamed (List.getElem?_eq_getElem hj)
    rw [hplaced] at hname
    rw [hplaced'] at hname'
    obtain ⟨a, ha, rfl⟩ := List.mem_map.1 hname
    obtain ⟨b, hb, heq⟩ := List.mem_map.1 hname'
    have hf := List.mem_of_getElem? hf
    have hg := List.mem_of_getElem? hg
    -- Names in the scopes of two functions differ in the place that they are numbered with.
    have hplace := scopedName_place_injective h (placedLabels_subset hg hb)
      (placedLabels_subset hf ha) (honce.locals g hg b hb) (honce.locals f hf a ha) heq
    omega

theorem nodup_placedLabels (hnodup : program.scopedLabels.Nodup)
    (hfunction : function ∈ program.functions) : function.placedLabels.Nodup := by
  obtain ⟨i, hi⟩ := List.mem_iff_getElem?.1 hfunction
  have hafter : function.mapLabels .enter (program.scopedName i) ∈ program.renamed.functions := by
    apply List.mem_of_getElem? (i := i)
    rw [renamed, List.getElem?_mapIdx, hi]
    rfl
  have hmapped := (List.nodup_flatMap.1 hnodup).1 _ hafter
  rw [Function.placedLabels_mapLabels] at hmapped
  exact hmapped.of_map _

theorem Scopable.nodup_iff (h : program.Scopable) (calls : Nat) :
    (program.functionNames ++ (program.scopedLabels
      ++ (List.range calls).map (LabelSupply.returnLabel program.stem))).Nodup
        ↔ program.LabelsOnce := by
  have hreturns : ((List.range calls).map (LabelSupply.returnLabel program.stem)).Nodup :=
    List.nodup_range.map (LabelSupply.returnLabel_injective program.stem)
  have hscoped : List.Disjoint program.scopedLabels
      ((List.range calls).map (LabelSupply.returnLabel program.stem)) := by
    intro name hname hreturn
    obtain ⟨i, function, hfunction, placed, hplaced, rfl⟩ := mem_scopedLabels.1 hname
    obtain ⟨issued, -, heq⟩ := List.mem_map.1 hreturn
    have hwritten := placedLabels_subset (List.mem_of_getElem? hfunction) hplaced
    exact returnLabel_ne_scoped hwritten issued heq
  have hfunctions : List.Disjoint program.functionNames
      ((List.range calls).map (LabelSupply.returnLabel program.stem)) := by
    intro name hname hreturn
    obtain ⟨issued, -, heq⟩ := List.mem_map.1 hreturn
    exact returnLabel_ne_written (functionNames_subset hname) issued heq
  rw [List.nodup_append', List.nodup_append', List.disjoint_append_right]
  constructor
  · rintro ⟨hnames, ⟨hnodup, -, -⟩, hdisjoint, -⟩
    exact ⟨hnames, fun function => nodup_placedLabels hnodup, disjoint_scopedLabels_iff.1 hdisjoint⟩
  · intro honce
    exact ⟨honce.functions, ⟨nodup_scopedLabels h honce, hreturns, hscoped⟩,
      disjoint_scopedLabels_iff.2 honce.locals, hfunctions⟩

end Program

/-- Every source of at most `2 ^ 32` tokens that can be parsed is compiled to the text of an L2
program, which reads back as that program and defines no label twice exactly if the source places
every label once. -/
theorem Source.definitions_nodup_iff (source : Source) (program : Program)
    (h : source.parse = .ok program) (hsize : source.tokens.length ≤ UInt32.size) :
    ∃ tiled, program.lower.result = .ok tiled ∧ source.compile.value = .ok tiled.text ∧
      Sexp.read tiled.text = some [tiled.sexp] ∧ (tiled.definitions.Nodup ↔ program.LabelsOnce) := by
  have hgrammatical := grammatical_of_parse h
  have hfresh := fresh_of_parse h hsize
  obtain ⟨functions, hemit, hrun⟩ := Program.emitAll_run hgrammatical.scopeLabels_shapes
    (LabelSupply.givesLabels_counted program.stem 0) (Program.fresh_scopeLabels hfresh)
  have hlower : program.lower.result = .ok ⟨functions⟩ :=
    congrArg (Except.map TiledProgram.mk) hemit
  refine ⟨⟨functions⟩, hlower, compile_of_lower h hlower, hgrammatical.read_text hfresh hlower, ?_⟩
  have hlabel : (LabelSupply.counted program.stem 0).label
      = LabelSupply.returnLabel program.stem := by
    funext k
    rw [LabelSupply.label_counted, Nat.zero_add]
  have hperm := hrun.definitions_perm
  rw [hlabel, Program.scopeLabels_eq_renamed hgrammatical.scopable] at hperm
  rw [hperm.nodup_iff, ← hgrammatical.scopable.nodup_iff, ← Program.functionNames_renamed]
  rfl

/-- Two functions with a label and calls of their own, and a function with the name of a label. -/
theorem Source.definitions_nodup_iff_samples :
    let apart := Source.ofString
      "define :f() \x7b :a call :g() br :a \x7d define :g() \x7b :a :b call :f() \x7d"
    let clash := Source.ofString "define :f() \x7b :g \x7d define :g() \x7b \x7d"
    (∃ tiled : TiledProgram, apart.compile.value = .ok tiled.text ∧ tiled.definitions.Nodup) ∧
      ∃ tiled : TiledProgram, clash.compile.value = .ok tiled.text ∧ ¬ tiled.definitions.Nodup := by
  intro apart clash
  constructor
  · have hparse : apart.parse = .ok ⟨[⟨⟨0, ":f"⟩, [], [.label ⟨1, ":a"⟩,
          .call ⟨3, .label ⟨2, ":g"⟩, []⟩, .goto ⟨5, ⟨4, ":a"⟩⟩]⟩,
        ⟨⟨6, ":g"⟩, [], [.label ⟨7, ":a"⟩, .label ⟨8, ":b"⟩,
          .call ⟨10, .label ⟨9, ":f"⟩, []⟩]⟩]⟩ := by
      decide +kernel
    obtain ⟨tiled, -, hcompile, -, hiff⟩ := definitions_nodup_iff apart _ hparse (by decide +kernel)
    exact ⟨tiled, hcompile, hiff.2 ⟨by decide, by decide, by decide⟩⟩
  · have hparse : clash.parse = .ok ⟨[⟨⟨0, ":f"⟩, [], [.label ⟨1, ":g"⟩]⟩,
        ⟨⟨2, ":g"⟩, [], []⟩]⟩ := by
      decide +kernel
    obtain ⟨tiled, -, hcompile, -, hiff⟩ := definitions_nodup_iff clash _ hparse (by decide +kernel)
    refine ⟨tiled, hcompile, fun hnodup => ?_⟩
    exact (hiff.1 hnodup).locals ⟨⟨0, ":f"⟩, [], [.label ⟨1, ":g"⟩]⟩ (by decide) ":g" (by decide)
      (by decide)

end L3Lowering
