import L3Lowering.Proofs.JumpResolution

namespace L3Lowering

def Instruction.lineCount : Instruction → Nat
  | .assign ⟨_, .var _, .binop ⟨_, .arithmetic _, _, _⟩⟩ => 2
  | .assign ⟨_, .var _, .call c⟩ => c.arguments.length + 4
  | .call c => c.arguments.length + 3
  | .returnValue _ _ => 2
  | _ => 1

theorem CallSite.length_lines (site : CallSite) : site.lines.length = site.arguments.length + 3 := by
  simp [lines, setup]

theorem Tile.Lowers.length_lines {returnLabel : String} {instruction : Instruction} {tile : Tile}
    (h : Tile.Lowers returnLabel instruction tile) :
    tile.lines.length = instruction.lineCount := by
  cases h with
  | assignCall hvalues =>
      rw [Tile.lines, List.length_append, CallSite.length_lines, ← hvalues.length_eq]
      rfl
  | call hvalues => rw [Tile.lines, CallSite.length_lines, ← hvalues.length_eq, Instruction.lineCount]
  | assign | load | arithmetic | comparison | store | goto | branch | returnValue | returnVoid
    | label => rfl

theorem Instruction.lineCount_mapLabels (calls : CallScope) (rename : String → String)
    (instruction : Instruction) :
    (instruction.mapLabels calls rename).lineCount = instruction.lineCount := by
  have hcall (c : Call) : (c.mapLabels calls rename).arguments.length = c.arguments.length := by
    cases calls <;> simp [Call.mapLabels]
  cases instruction with
  | assign a =>
      obtain ⟨id, target, value⟩ := a
      cases target with
      | var x =>
          cases value with
          | binop b =>
              obtain ⟨id', operator, lhs, rhs⟩ := b
              cases operator <;> rfl
          | call c => exact congrArg (· + 4) (hcall c)
          | atom | load => rfl
      | store s => cases value <;> rfl
  | call c => exact congrArg (· + 3) (hcall c)
  | goto | branch | returnValue | returnVoid | label => rfl

/-- The function at a place, with a tile for each instruction: the one of the instruction with its
labels in the scope of the place, which stands for as many words and lists as the instruction
takes. -/
structure Function.TiledAt (program : Program) (place : Nat) (function : Function)
    (tiled : TiledFunction) : Prop where
  name : tiled.name = function.name.name
  parameters : tiled.parameters = function.parameters.map Var.name
  tiles : List.Forall₂ (fun instruction tile =>
    (∃ issued, Tile.Lowers (LabelSupply.returnLabel program.stem issued)
      (instruction.mapLabels .skip
        (Label.scopedName (Program.placeStem program.stem place) program.globals)) tile) ∧
      tile.sexps.length = instruction.lineCount) function.body tiled.tiles

theorem TiledFunction.Emits.tiledAt {program : Program} {place : Nat} {function : Function}
    {tiled : TiledFunction}
    (h : TiledFunction.Emits program.stem
      (function.scopeLabels (Program.placeStem program.stem place) program.globals) tiled)
    (hfresh : Instruction.Fresh [] function.body) : function.TiledAt program place tiled where
  name := h.name
  parameters := h.parameters
  tiles := by
    have hcovers := h.tiles (hfresh.mapLabels _ _)
    rw [Function.scopeLabels, Function.mapLabels, List.forall₂_map_left_iff] at hcovers
    apply hcovers.imp
    intro instruction tile hcover
    obtain ⟨issued, hlowers⟩ := hcover.lowers
    refine ⟨⟨issued, hlowers⟩, ?_⟩
    rw [Tile.sexps, List.length_map, hlowers.length_lines, Instruction.lineCount_mapLabels]

/-- The text that a source compiles to reads as one list, which has the name of the entry point and
then a list for each function of the source. -/
theorem Source.compile_reads_back (source : Source) (program : Program)
    (h : source.parse = .ok program) (hsize : source.tokens.length ≤ UInt32.size) :
    ∃ tiled : TiledProgram, source.compile.value = .ok tiled.text ∧
      Sexp.read tiled.text = some [tiled.sexp] ∧
      tiled.functions.length = program.functions.length ∧
      ∀ (place : Nat) (function : Function), program.functions[place]? = some function →
        ∃ tiledFunction, tiled.functions[place]? = some tiledFunction ∧
          function.TiledAt program place tiledFunction := by
  have hgrammatical := grammatical_of_parse h
  have hfresh := fresh_of_parse h hsize
  obtain ⟨tiled, hlower, hemits⟩ := hgrammatical.lower_ok
  refine ⟨tiled, compile_of_lower h hlower, hgrammatical.read_text hfresh hlower, ?_, ?_⟩
  · rw [← hemits.length_eq, Program.scopeLabels, List.length_mapIdx]
  · intro place function hplace
    have hscoped : program.scopeLabels.functions[place]? = some
        (function.scopeLabels (Program.placeStem program.stem place) program.globals) := by
      rw [Program.scopeLabels, List.getElem?_mapIdx, hplace]
      rfl
    rcases forall₂_getElem? hemits place with ⟨hnone, -⟩ | ⟨f, t, hf, ht, hemit⟩
    · simp [hscoped] at hnone
    · obtain rfl := Option.some.inj (hscoped.symm.trans hf)
      exact ⟨t, ht, hemit.tiledAt (hfresh function (List.mem_of_getElem? hplace))⟩

/-- One function, whose last tile is a label that the closing parenthesis follows. -/
theorem Source.compile_reads_back_label :
    ∃ text items, (Source.ofString "define :f(x) \x7b x <- x - 1 :l \x7d").compile.value = .ok text ∧
      Sexp.read text = some [.list [.word ":main", .list items]] ∧ items.length = 7 := by
  have hparse : (Source.ofString "define :f(x) \x7b x <- x - 1 :l \x7d").parse
      = .ok ⟨[⟨⟨0, ":f"⟩, [⟨1, "x"⟩],
        [.assign ⟨6, .var ⟨2, "x"⟩,
            .binop ⟨5, .arithmetic .subtract, .var ⟨3, "x"⟩, .literal ⟨4, 1⟩⟩⟩,
          .label ⟨7, ":l"⟩]⟩]⟩ := by
    decide +kernel
  obtain ⟨⟨functions⟩, hcompile, hread, hlength, hfunctions⟩ :=
    compile_reads_back _ _ hparse (by decide +kernel)
  obtain ⟨⟨name, parameters, tiles⟩, rfl⟩ := List.length_eq_one_iff.1 hlength
  obtain ⟨tiled, hplace, htiled⟩ := hfunctions 0 _ rfl
  obtain rfl := Option.some.inj hplace
  refine ⟨_, _, hcompile, hread, ?_⟩
  obtain ⟨-, hparameters, htiles⟩ := htiled
  simp only at hparameters
  subst hparameters
  cases htiles with
  | cons hfirst hrest =>
      cases hrest with
      | cons hsecond hnil =>
          cases hnil
          simp [TiledFunction.bindings, hfirst.2, hsecond.2, Instruction.lineCount]

end L3Lowering
