import L3Lowering.Proofs.Numbering
import L3Lowering.Proofs.TileFrames

namespace L3Lowering

def Tile.FramesBody (body : List Instruction) (tiles : List Tile) : Prop :=
  ∃ covered, covered.Sublist body ∧ List.Forall₂ Tile.Frames covered tiles

theorem Tile.FramesBody.of_mapLabels {rename : String → String} {body : List Instruction}
    {tiles : List Tile} (h : FramesBody (body.map (Instruction.mapLabels .skip rename)) tiles) :
    FramesBody body tiles := by
  obtain ⟨renamed, hsublist, htiles⟩ := h
  obtain ⟨covered, hcovered, rfl⟩ := List.sublist_map_iff.1 hsublist
  refine ⟨covered, hcovered, ?_⟩
  exact (List.forall₂_map_left_iff.1 htiles).imp fun _ _ => Frames.of_mapLabels rename

variable {σ : Type}

theorem Selector.frames_of_select {selector : Selector σ} {instruction : Instruction}
    {tile : Tile} (h : (selector.select instruction).result = .ok (some tile)) :
    Tile.Frames instruction tile := by
  unfold select at h
  split at h
  · cases h
  · split at h
    · cases h
    · rename_i chosen supply hchoose
      cases h
      exact (lowers_of_choose (congrArg Prod.fst hchoose)).frames

theorem Selector.framesBody_of_selectAll {selector : Selector σ} {body : List Instruction}
    {tiles : List Tile} (h : (selector.selectAll body).result = .ok tiles) :
    Tile.FramesBody body tiles := by
  induction body generalizing selector tiles with
  | nil =>
      cases h
      exact ⟨[], .refl [], .nil⟩
  | cons i is ih =>
      rw [selectAll] at h
      rcases hselect : selector.select i with ⟨result, after, log⟩
      rw [hselect] at h
      cases result with
      | error e => cases h
      | ok tile? =>
          obtain ⟨others, hothers, rfl⟩ := except_map_eq_ok.1 h
          obtain ⟨covered, hcovered, htiles⟩ := ih hothers
          cases tile? with
          | none => exact ⟨covered, hcovered.cons i, htiles⟩
          | some tile =>
              have hframes := frames_of_select (congrArg Selection.result hselect)
              exact ⟨i :: covered, hcovered.cons_cons i, .cons hframes htiles⟩

/-- The bindings name and write parameters only, and each tile frames its instruction. -/
structure TiledFunction.Frames (function : Function) (emitted : TiledFunction) : Prop where
  words : emitted.bindings.map L2.Line.varNames = function.parameters.map fun v => [v.name]
  names : ∀ line ∈ emitted.bindings, line.varNames ⊆ function.parameters.map Var.name
  keeps : ∀ name ∉ function.parameters.map Var.name, L2.Keeps emitted.bindings name
  tiles : Tile.FramesBody function.body emitted.tiles

theorem L2.bindParameter_words (count place : Nat) (name : String) :
    (bindParameter count place name).varNames = [name] ∧
      (bindParameter count place name).writtenWords = [name] := by
  unfold bindParameter
  split <;> exact ⟨rfl, rfl⟩

theorem TiledFunction.words_bindings {emitted : TiledFunction} {line : L2.Line}
    (h : line ∈ emitted.bindings) :
    line.varNames ⊆ emitted.parameters ∧ line.writtenWords ⊆ emitted.parameters := by
  obtain ⟨place, hplace, rfl⟩ := List.mem_mapIdx.1 h
  obtain ⟨hvars, hwritten⟩ := L2.bindParameter_words emitted.parameters.length place
    emitted.parameters[place]
  rw [hvars, hwritten]
  have hmem : [emitted.parameters[place]] ⊆ emitted.parameters :=
    List.cons_subset.2 ⟨List.getElem_mem hplace, List.nil_subset _⟩
  exact ⟨hmem, hmem⟩

theorem TiledFunction.varNames_bindings (emitted : TiledFunction) :
    emitted.bindings.map L2.Line.varNames = emitted.parameters.map fun name => [name] := by
  apply List.ext_getElem?
  intro place
  simp only [bindings, List.getElem?_map, List.getElem?_mapIdx, Option.map_map, Function.comp_def,
    (L2.bindParameter_words _ _ _).1]

theorem TiledFunction.frames_ofTiles {function : Function} {tiles : List Tile}
    (h : Tile.FramesBody function.body tiles) : Frames function (.ofTiles function tiles) where
  words := by
    have hwords := TiledFunction.varNames_bindings (.ofTiles function tiles)
    rw [hwords]
    exact List.map_map
  names := fun _ hline => (words_bindings hline).1
  keeps := by
    intro name hname
    apply L2.keeps_of_writtenWords
    intro line hline hword
    exact hname ((words_bindings hline).2 hword)
  tiles := h

theorem TiledFunction.Frames.of_mapLabels {rename : String → String} {function : Function}
    {emitted : TiledFunction} (h : Frames (function.mapLabels .skip rename) emitted) :
    Frames function emitted :=
  ⟨h.words, h.names, h.keeps, h.tiles.of_mapLabels⟩

theorem Tile.frames_of_covers {rename : String → String} {stem : String} {body : List Instruction}
    {tiles : List Tile}
    (h : List.Forall₂ (Covers stem) (body.map (Instruction.mapLabels .skip rename)) tiles) :
    List.Forall₂ Frames body tiles := by
  refine (List.forall₂_map_left_iff.1 h).imp fun instruction tile hcovers => ?_
  obtain ⟨issued, hchosen⟩ := hcovers.chosen
  exact (Selector.lowers_of_choose hchosen).frames.of_mapLabels rename

theorem Program.frames_of_emitAll {supply : LabelSupply σ} {functions : List Function}
    {tiled : List TiledFunction} (h : (emitAll supply functions).result = .ok tiled) :
    List.Forall₂ TiledFunction.Frames functions tiled := by
  induction functions generalizing supply tiled with
  | nil =>
      cases h
      exact .nil
  | cons f fs ih =>
      rw [emitAll] at h
      rcases hemit : f.emit supply with ⟨result, after, log⟩
      rw [hemit] at h
      cases result with
      | error e => cases h
      | ok emitted =>
          obtain ⟨others, hothers, rfl⟩ := except_map_eq_ok.1 h
          obtain ⟨tiles, htiles, rfl⟩ := except_map_eq_ok.1 (congrArg Emission.result hemit)
          have hbody := Selector.framesBody_of_selectAll htiles
          exact .cons (TiledFunction.frames_ofTiles hbody) (ih hothers)

theorem Program.forall₂_scopeLabels {program : Program} {tiled : List TiledFunction}
    {R S : Function → TiledFunction → Prop}
    (h : List.Forall₂ R program.scopeLabels.functions tiled)
    (hRS : ∀ rename function emitted, R (function.mapLabels .skip rename) emitted →
      S function emitted) : List.Forall₂ S program.functions tiled := by
  obtain ⟨hlength, h⟩ := List.forall₂_iff_get.1 h
  simp only [scopeLabels, List.length_mapIdx] at hlength
  refine List.forall₂_iff_get.2 ⟨hlength, fun place hplace hplace' => ?_⟩
  have hplace'' : place < program.scopeLabels.functions.length := by
    simpa only [scopeLabels, List.length_mapIdx] using hplace
  have hR := h place hplace'' hplace'
  simp only [scopeLabels, List.get_eq_getElem, List.getElem_mapIdx] at hR
  exact hRS _ _ _ hR

/-- The text that a source is compiled to consists of tiles and bindings whose words for variables
are the names in the source. Other variables than the one that an instruction assigns, or than the
parameters that are bound, keep their words, except for variables named like registers: a call may
change them, and the return of a value the one that is named like the result register. With at most
`2 ^ 32` tokens every instruction has its tile. -/
theorem Source.tiles_keep_variables (source : Source) (program : Program)
    (h : source.parse = .ok program) :
    ∃ tiled, program.lower.result = .ok tiled ∧ source.compile.value = .ok tiled.text ∧
      List.Forall₂ TiledFunction.Frames program.functions tiled.functions ∧
      (source.tokens.length ≤ UInt32.size →
        List.Forall₂ (fun function emitted => List.Forall₂ Tile.Frames function.body emitted.tiles)
          program.functions tiled.functions) := by
  obtain ⟨tiled, hlower, hemits⟩ := (grammatical_of_parse h).lower_ok
  obtain ⟨functions, hfunctions, rfl⟩ := except_map_eq_ok.1 hlower
  refine ⟨⟨functions⟩, hlower, compile_of_lower h hlower, ?_, ?_⟩
  · exact Program.forall₂_scopeLabels (Program.frames_of_emitAll hfunctions)
      fun _ _ _ hframes => hframes.of_mapLabels
  · intro hsize
    have hfresh := Program.fresh_scopeLabels (fresh_of_parse h hsize)
    exact Program.forall₂_scopeLabels ((List.forall₂_and_left _ _).2 ⟨hfresh, hemits⟩)
      fun _ _ _ hemitted => Tile.frames_of_covers (hemitted.2.tiles hemitted.1)

/-- A variable `rdi` that is passed on and returned. -/
theorem Source.tiles_keep_variables_rdi :
    let source := Source.ofString "define :f(rdi) \x7b x <- call :f(rdi) return rdi \x7d"
    let body : List Instruction :=
      [.assign ⟨6, .var ⟨2, "x"⟩, .call ⟨5, .label ⟨3, ":f"⟩, [.var ⟨4, "rdi"⟩]⟩⟩,
        .returnValue 8 (.var ⟨7, "rdi"⟩)]
    source.parse = .ok ⟨[⟨⟨0, ":f"⟩, [⟨1, "rdi"⟩], body⟩]⟩ ∧
      ∃ emitted, source.compile.value = .ok (TiledProgram.mk [emitted]).text ∧
        TiledFunction.Frames ⟨⟨0, ":f"⟩, [⟨1, "rdi"⟩], body⟩ emitted ∧
        List.Forall₂ Tile.Frames body emitted.tiles := by
  intro source body
  have hparse : source.parse = .ok ⟨[⟨⟨0, ":f"⟩, [⟨1, "rdi"⟩], body⟩]⟩ := by decide +kernel
  obtain ⟨⟨functions⟩, -, hcompile, hframes, htiles⟩ := tiles_keep_variables source _ hparse
  obtain ⟨emitted, rest, hemitted, hrest, rfl⟩ := List.forall₂_cons_left_iff.1 hframes
  obtain rfl := List.forall₂_nil_left_iff.1 hrest
  obtain ⟨hbody, -⟩ := List.forall₂_cons.1 (htiles (by decide +kernel))
  exact ⟨hparse, emitted, hcompile, hemitted, hbody⟩

/-- A variable `rdi` is emitted under the name of a register, and the lines of a call that assigns
nothing change it. -/
theorem Source.call_changes_rdi :
    let source := Source.ofString "define :f(rdi) \x7b call :f(1) return rdi \x7d"
    let call : Instruction := .call ⟨4, .label ⟨2, ":f"⟩, [.literal ⟨3, 1⟩]⟩
    let result : Instruction := .returnValue 6 (.var ⟨5, "rdi"⟩)
    let tiles : List Tile :=
      [.call ⟨.label ":f", [.literal 1], ":z_ret0"⟩, .returnValue (.var "rdi")]
    source.parse = .ok ⟨[⟨⟨0, ":f"⟩, [⟨1, "rdi"⟩], [call, result]⟩]⟩ ∧
      source.compile.value.toOption = some (TiledProgram.mk [⟨":f", ["rdi"], tiles⟩]).text ∧
      (∃ tile ∈ tiles, ∃ line ∈ tile.lines, ∃ name ∈ line.varNames,
        name ∈ L2.Register.all.map L2.Register.name) ∧
      call.assigned? = none ∧
      ¬ L2.Keeps (Tile.call ⟨.label ":f", [.literal 1], ":z_ret0"⟩).lines "rdi" := by
  intro source call result tiles
  refine ⟨by decide +kernel, by decide +kernel, by decide, rfl, ?_⟩
  intro hkeeps
  let before : L2.Machine := ⟨fun _ => .number 0, fun _ => .number 0, fun _ => .number 0⟩
  let after := before.set (.number 1) (.register .rdi)
  have hruns : before.Runs (Tile.call ⟨.label ":f", [.literal 1], ":z_ret0"⟩).lines after :=
    .cons (.move (.register .rdi) (.literal 1)) (.cons (.store _ _ before.slots)
      (.cons (.call _ _ after.registers before.slots) (.cons (.label _) (.nil after))))
  have hsame := hkeeps before after hruns
  exact absurd hsame (by decide)

end L3Lowering
