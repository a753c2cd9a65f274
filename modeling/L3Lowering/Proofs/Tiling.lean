import L3Lowering.Compile
import L3Lowering.Proofs.Grammatical

namespace L3Lowering

variable (calls : CallScope) (rename : String → String)

theorem Atom.isOperand_mapLabels (atom : Atom) :
    (atom.mapLabels rename).isOperand = atom.isOperand := by
  cases atom <;> rfl

theorem Atom.isValue_mapLabels (atom : Atom) : (atom.mapLabels rename).isValue = atom.isValue := by
  cases atom <;> rfl

theorem Call.isValue_mapLabels (call : Call) :
    (call.mapLabels calls rename).arguments.all Atom.isValue = call.arguments.all Atom.isValue := by
  cases calls with
  | enter =>
      rw [mapLabels, List.all_map]
      exact congrArg call.arguments.all (funext (Atom.isValue_mapLabels rename))
  | skip => rfl

theorem Expression.isGrammatical_mapLabels (value : Expression) :
    (value.mapLabels calls rename).isGrammatical = value.isGrammatical := by
  cases value with
  | atom a => exact a.isValue_mapLabels rename
  | binop b =>
      simp only [mapLabels, Binop.mapLabels, isGrammatical, Atom.isOperand_mapLabels]
  | load l => rfl
  | call c => exact c.isValue_mapLabels calls rename

theorem Instruction.isGrammatical_mapLabels (instruction : Instruction) :
    (instruction.mapLabels calls rename).isGrammatical = instruction.isGrammatical := by
  cases instruction with
  | assign a =>
      obtain ⟨id, target, value⟩ := a
      cases target with
      | var x => exact value.isGrammatical_mapLabels calls rename
      | store s =>
          cases value with
          | atom a => exact a.isValue_mapLabels rename
          | binop | load | call => rfl
  | call c => exact c.isValue_mapLabels calls rename
  | returnValue id value => exact value.isOperand_mapLabels rename
  | goto | branch | returnVoid | label => rfl

def Instruction.defines (returnLabel : String) : Instruction → List String
  | .label l => [l.name]
  | .call _ => [returnLabel]
  | .assign ⟨_, .var _, .call _⟩ => [returnLabel]
  | _ => []

def L2.Line.label? : L2.Line → Option String
  | .label name => some name
  | _ => none

def L2.Value.labels : L2.Value → List String
  | .label name => [name]
  | _ => []

namespace Tile

def defines (tile : Tile) : List String :=
  tile.lines.filterMap L2.Line.label?

def outerLabels : Tile → List String
  | .assign _ a => a.labels
  | .store _ a => a.labels
  | .arithmetic _ _ a b => a.labels ++ b.labels
  | .comparison _ _ a b => a.labels ++ b.labels
  | .goto target => [target]
  | .branch _ onTrue onFalse => [onTrue, onFalse]
  | .returnValue a => a.labels
  | .label name => [name]
  | _ => []

end Tile

theorem CallSite.defines_lines (site : CallSite) :
    site.lines.filterMap L2.Line.label? = [site.returnLabel] := by
  have harguments : (site.arguments.mapIdx L2.passArgument).filterMap L2.Line.label? = [] := by
    rw [List.filterMap_eq_nil_iff]
    intro line hline
    obtain ⟨place, hplace, rfl⟩ := List.mem_mapIdx.1 hline
    unfold L2.passArgument
    split <;> rfl
  rw [lines, setup, List.filterMap_append, List.filterMap_append, harguments]
  rfl

theorem Atom.toValue_ok {atom : Atom} (h : atom.isValue = true) (tile : TileKind) :
    ∃ value, atom.toValue tile = .ok value ∧ value.labels = atom.labels.map Label.name := by
  cases atom with
  | var | label | literal => exact ⟨_, rfl, rfl⟩
  | runtime r => simp [isValue] at h

theorem Atom.toOperand_ok {atom : Atom} (h : atom.isOperand = true) (binop : Binop) :
    ∃ value, atom.toOperand binop = .ok value ∧ value.labels = atom.labels.map Label.name := by
  cases atom with
  | var | literal => exact ⟨_, rfl, rfl⟩
  | label | runtime => simp [isOperand] at h

theorem toValues_ok {arguments : List Atom} (h : arguments.all Atom.isValue = true)
    (tile : TileKind) : ∃ values, arguments.mapM (Atom.toValue tile) = .ok values := by
  induction arguments with
  | nil => exact ⟨[], rfl⟩
  | cons a as ih =>
      rw [List.all_cons, Bool.and_eq_true] at h
      obtain ⟨value, hvalue, -⟩ := Atom.toValue_ok h.1 tile
      obtain ⟨values, hvalues⟩ := ih h.2
      exact ⟨value :: values, by rw [List.mapM_cons, hvalue, hvalues]; rfl⟩

theorem CallSite.ofCall_ok {call : Call} (h : call.arguments.all Atom.isValue = true)
    (stem : String) (issued : Nat) :
    ∃ site, CallSite.ofCall call (LabelSupply.returnLabel stem issued) = .ok site ∧
      site.returnLabel = LabelSupply.returnLabel stem issued := by
  obtain ⟨values, hvalues⟩ := toValues_ok h .call
  have hcolon : (LabelSupply.returnLabel stem issued).toList.head? = some ':' := by
    simp [LabelSupply.returnLabel]
  refine ⟨⟨call.callee.toL2, values, LabelSupply.returnLabel stem issued⟩, ?_, rfl⟩
  rw [ofCall, hvalues]
  exact if_pos hcolon

theorem Tile.ofBinopAssignment_ok {b : Binop} (h : (Expression.binop b).isGrammatical = true)
    (x : Var) :
    ∃ tile, Tile.ofBinopAssignment x (.binop b) = .ok tile ∧ tile.defines = [] ∧
      tile.outerLabels = (b.lhs.labels ++ b.rhs.labels).map Label.name := by
  simp only [Expression.isGrammatical, Bool.and_eq_true] at h
  obtain ⟨⟨hlhs, hrhs⟩, hop⟩ := h
  obtain ⟨lhs, hlhs, hlabels⟩ := Atom.toOperand_ok hlhs b
  obtain ⟨rhs, hrhs, hlabels'⟩ := Atom.toOperand_ok hrhs b
  cases hoperator : b.operator with
  | arithmetic op =>
      refine ⟨.arithmetic x.name op lhs rhs, ?_, rfl, ?_⟩
      · simp only [ofBinopAssignment, hoperator, hlhs, hrhs]
        rfl
      · rw [outerLabels, hlabels, hlabels', List.map_append]
  | comparison op =>
      refine ⟨.comparison x.name op lhs rhs, ?_, rfl, ?_⟩
      · simp only [ofBinopAssignment, hoperator, hlhs, hrhs]
        rfl
      · rw [outerLabels, hlabels, hlabels', List.map_append]
  | greater | greaterEqual => simp [hoperator, Operator.isKept] at hop

structure Tile.Matches (stem : String) (instruction : Instruction) (tile : Tile) : Prop where
  label : ∀ l, instruction = .label l → tile = .label l.name
  defines : ∃ issued, tile.defines = instruction.defines (LabelSupply.returnLabel stem issued)
  outerLabels : tile.outerLabels = instruction.outerLabels.map Label.name

theorem Selector.choose_ok {instruction : Instruction} (h : instruction.isGrammatical = true)
    (stem : String) (issued : Nat) :
    ∃ tile issued', Selector.choose (.counted stem issued) instruction
        = (.ok tile, .counted stem issued') ∧ Tile.Matches stem instruction tile := by
  cases instruction with
  | assign a =>
      obtain ⟨id, target, value⟩ := a
      cases target with
      | var x =>
          cases value with
          | atom a =>
              obtain ⟨v, hv, hlabels⟩ := Atom.toValue_ok h .atomAssignment
              refine ⟨.assign x.name v, issued, ?_, by simp, ⟨issued, rfl⟩, hlabels⟩
              cases a with
              | runtime r =>
                  simp [Instruction.isGrammatical, Expression.isGrammatical, Atom.isValue] at h
              | var | label | literal =>
                  simp only [choose, Tile.ofAtomAssignment, hv]
                  rfl
          | binop b =>
              obtain ⟨tile, htile, hdefines, hlabels⟩ := Tile.ofBinopAssignment_ok h x
              exact ⟨tile, issued, by rw [choose, htile], by simp, ⟨issued, hdefines⟩, hlabels⟩
          | load l => exact ⟨.load x.name l.address.name, issued, rfl, by simp, ⟨issued, rfl⟩, rfl⟩
          | call c =>
              obtain ⟨site, hsite, hreturn⟩ := CallSite.ofCall_ok h stem issued
              refine ⟨.assignCall x.name site, issued + 1, ?_, by simp, ⟨issued, ?_⟩, rfl⟩
              · simp only [choose, LabelSupply.take_counted, Tile.ofCallAssignment, hsite]
                rfl
              · rw [Tile.defines, Tile.lines, List.filterMap_append, site.defines_lines, hreturn]
                rfl
      | store s =>
          cases value with
          | atom a =>
              obtain ⟨v, hv, hlabels⟩ := Atom.toValue_ok h .storeAssignment
              refine ⟨.store s.address.name v, issued, ?_, by simp, ⟨issued, rfl⟩, hlabels⟩
              cases a with
              | runtime r => simp [Instruction.isGrammatical, Atom.isValue] at h
              | var | label | literal =>
                  simp only [choose, Tile.ofStoreAssignment, hv]
                  rfl
          | binop | load | call => simp [Instruction.isGrammatical] at h
  | call c =>
      obtain ⟨site, hsite, hreturn⟩ := CallSite.ofCall_ok h stem issued
      refine ⟨.call site, issued + 1, ?_, by simp, ⟨issued, ?_⟩, rfl⟩
      · simp only [choose, LabelSupply.take_counted, Tile.ofCall, hsite]
        rfl
      · rw [Tile.defines, Tile.lines, site.defines_lines, hreturn]
        rfl
  | returnValue id value =>
      have hvalue : value.isValue = true := by
        cases value with
        | var | literal => rfl
        | label | runtime => simp [Instruction.isGrammatical, Atom.isOperand] at h
      obtain ⟨v, hv, hlabels⟩ := Atom.toValue_ok hvalue .valueReturn
      refine ⟨.returnValue v, issued, ?_, by simp, ⟨issued, rfl⟩, hlabels⟩
      simp only [choose, Tile.ofReturn, hv]
      rfl
  | goto | branch | returnVoid => exact ⟨_, issued, rfl, by simp, ⟨issued, rfl⟩, rfl⟩
  | label l =>
      refine ⟨.label l.name, issued, rfl, ?_, ⟨issued, rfl⟩, rfl⟩
      rintro _ ⟨⟩
      rfl

/-- The tile is the one chosen for the instruction, with the return label of some call. -/
structure Tile.Covers (stem : String) (instruction : Instruction) (tile : Tile) : Prop
    extends Tile.Matches stem instruction tile where
  chosen : ∃ issued, (Selector.choose (.counted stem issued) instruction).1 = .ok tile

/-- No instruction has an id that an instruction before it covers. -/
def Instruction.Fresh (covered : List NodeId) : List Instruction → Prop
  | [] => True
  | i :: is => i.id ∉ covered ∧ Fresh (i.nodes.map Node.id ++ covered) is

variable (stem : String)

theorem Selector.select_ok {instruction : Instruction} (h : instruction.isGrammatical = true)
    (issued : Nat) (covered : List NodeId) :
    ∃ tile? issued' covered',
      (select ⟨.counted stem issued, covered⟩ instruction).result = .ok tile? ∧
      (select ⟨.counted stem issued, covered⟩ instruction).selector
        = ⟨.counted stem issued', covered'⟩ ∧
      (instruction.id ∉ covered → covered' = instruction.nodes.map Node.id ++ covered ∧
        ∃ tile, tile? = some tile ∧ Tile.Covers stem instruction tile) := by
  obtain ⟨tile, issued', hchoose, hmatches⟩ := choose_ok h stem issued
  by_cases hcovered : instruction.id ∈ covered
  · have hskip : (Selector.mk (.counted stem issued) covered).covers instruction.id = true := by
      simpa [covers] using hcovered
    refine ⟨none, issued, covered, ?_, ?_, fun hfresh => absurd hcovered hfresh⟩
    · simp only [select, hskip, if_true]
    · simp only [select, hskip, if_true]
  · have hskip : (Selector.mk (.counted stem issued) covered).covers instruction.id = false := by
      simpa [covers] using hcovered
    refine ⟨some tile, issued', instruction.nodes.map Node.id ++ covered, ?_, ?_,
      fun _ => ⟨rfl, tile, rfl, hmatches, issued, by rw [hchoose]⟩⟩
    · simp [select, hskip, hchoose]
    · simp [select, hskip, hchoose]

theorem Selector.selectAll_ok {body : List Instruction}
    (h : ∀ i ∈ body, i.isGrammatical = true) (issued : Nat) (covered : List NodeId) :
    ∃ tiles issued', (selectAll ⟨.counted stem issued, covered⟩ body).result = .ok tiles ∧
      (selectAll ⟨.counted stem issued, covered⟩ body).selector.supply = .counted stem issued' ∧
      (Instruction.Fresh covered body → List.Forall₂ (Tile.Covers stem) body tiles) := by
  -- The supply and the covered ids change from step to step, so both are generalized.
  induction body generalizing issued covered with
  | nil => exact ⟨[], issued, rfl, rfl, fun _ => .nil⟩
  | cons i is ih =>
      obtain ⟨tile?, issued₁, covered₁, hresult, hselector, hfresh⟩ :=
        select_ok stem (h i List.mem_cons_self) issued covered
      obtain ⟨tiles, issued₂, hresults, hsupply, hcovers⟩ :=
        ih (fun j hj => h j (List.mem_cons_of_mem i hj)) issued₁ covered₁
      have hstep : selectAll ⟨.counted stem issued, covered⟩ (i :: is)
          = ⟨(selectAll ⟨.counted stem issued₁, covered₁⟩ is).result.map (tile?.toList ++ ·),
            (selectAll ⟨.counted stem issued₁, covered₁⟩ is).selector,
            (select ⟨.counted stem issued, covered⟩ i).log
              ++ (selectAll ⟨.counted stem issued₁, covered₁⟩ is).log⟩ := by
        rw [selectAll]
        rcases hselect : select ⟨.counted stem issued, covered⟩ i with ⟨result, after, log⟩
        rw [hselect] at hresult hselector
        simp only at hresult hselector
        subst hresult hselector
        rfl
      rw [hstep]
      refine ⟨tile?.toList ++ tiles, issued₂, by rw [hresults]; rfl, hsupply, ?_⟩
      rintro ⟨hid, hrest⟩
      obtain ⟨rfl, tile, rfl, htile⟩ := hfresh hid
      exact .cons htile (hcovers hrest)

structure TiledFunction.Emits (stem : String) (function : Function) (tiled : TiledFunction) :
    Prop where
  name : tiled.name = function.name.name
  parameters : tiled.parameters = function.parameters.map Var.name
  tiles : Instruction.Fresh [] function.body →
    List.Forall₂ (Tile.Covers stem) function.body tiled.tiles

theorem Function.emit_ok {function : Function}
    (h : ∀ i ∈ function.body, i.isGrammatical = true) (issued : Nat) :
    ∃ tiled issued', (function.emit (.counted stem issued)).result = .ok tiled ∧
      (function.emit (.counted stem issued)).supply = .counted stem issued' ∧
      TiledFunction.Emits stem function tiled := by
  obtain ⟨tiles, issued', hresult, hsupply, hcovers⟩ := Selector.selectAll_ok stem h issued []
  refine ⟨.ofTiles function tiles, issued', ?_, hsupply, rfl, rfl, hcovers⟩
  have hmap : (function.emit (.counted stem issued)).result
      = (Except.ok tiles : Except TileError (List Tile)).map (TiledFunction.ofTiles function) :=
    congrArg (Except.map (TiledFunction.ofTiles function)) hresult
  exact hmap

theorem Program.emitAll_ok {functions : List Function}
    (h : ∀ f ∈ functions, ∀ i ∈ f.body, i.isGrammatical = true) (issued : Nat) :
    ∃ tiled, (Program.emitAll (.counted stem issued) functions).result = .ok tiled ∧
      List.Forall₂ (TiledFunction.Emits stem) functions tiled := by
  induction functions generalizing issued with
  | nil => exact ⟨[], rfl, .nil⟩
  | cons f fs ih =>
      obtain ⟨tiled, issued₁, hresult, hsupply, hemits⟩ :=
        f.emit_ok stem (h f List.mem_cons_self) issued
      obtain ⟨others, hothers, hforall⟩ := ih (fun g hg => h g (List.mem_cons_of_mem f hg)) issued₁
      refine ⟨tiled :: others, ?_, .cons hemits hforall⟩
      rw [emitAll]
      rcases hemit : f.emit (.counted stem issued) with ⟨result, after, log⟩
      rw [hemit] at hresult hsupply
      simp only at hresult hsupply
      subst hresult hsupply
      simp only [hothers]
      rfl

variable {program : Program}

theorem Program.Grammatical.scopeLabels_shapes (h : program.Grammatical) :
    ∀ f ∈ program.scopeLabels.functions, ∀ i ∈ f.body, i.isGrammatical = true := by
  intro f hf i hi
  obtain ⟨place, hplace, rfl⟩ := List.mem_mapIdx.1 hf
  obtain ⟨j, hj, rfl⟩ := List.mem_map.1 hi
  rw [Instruction.isGrammatical_mapLabels]
  exact h.shapes _ (List.getElem_mem hplace) j hj

theorem Program.Grammatical.lower_ok (h : program.Grammatical) :
    ∃ tiled, program.lower.result = .ok tiled ∧
      List.Forall₂ (TiledFunction.Emits program.stem) program.scopeLabels.functions
        tiled.functions := by
  obtain ⟨functions, hresult, hemits⟩ := Program.emitAll_ok program.stem h.scopeLabels_shapes 0
  refine ⟨⟨functions⟩, ?_, hemits⟩
  have hmap : program.lower.result
      = (Except.ok functions : Except TileError (List TiledFunction)).map TiledProgram.mk :=
    congrArg (Except.map TiledProgram.mk) hresult
  exact hmap

namespace Source

variable {source : Source}

theorem compile_of_parse_error {error : ParseError} (h : source.parse = .error error) :
    source.compile.value = .error (.parse source error) := by
  simp [compile, parseTraced, h]

theorem compile_of_lower {tiled : TiledProgram} (h : source.parse = .ok program)
    (hlower : program.lower.result = .ok tiled) : source.compile.value = .ok tiled.text := by
  simp [compile, parseTraced, h, Program.compile, hlower, Except.mapError]

/-- A text is compiled if it can be parsed, and fails with what the parser says if not. -/
theorem compile_eq_parse (source : Source) :
    ((∃ text, source.compile.value = .ok text) ↔ ∃ program, source.parse = .ok program) ∧
    (∀ error, source.compile.value = .error error ↔
      ∃ cause, source.parse = .error cause ∧ error = .parse source cause) ∧
    ∀ error, source.compile.value ≠ .error (.tile error) := by
  cases hparse : source.parse with
  | error cause =>
      rw [compile_of_parse_error hparse]
      simp [eq_comm]
  | ok program =>
      obtain ⟨tiled, hlower, -⟩ := (grammatical_of_parse hparse).lower_ok
      rw [compile_of_lower hparse hlower]
      simp

/-- A text that is compiled, and one that fails where its last instruction should start. -/
theorem compile_eq_parse_samples :
    (∃ text, (Source.ofString "define :f(x) \x7b x <- x > -1 return x \x7d").compile.value
        = .ok text) ∧
      ∀ error, (Source.ofString "define :f(x) \x7b x > 1 \x7d").compile.value
        ≠ .error (.tile error) := by
  have hparse : (Source.ofString "define :f(x) \x7b x <- x > -1 return x \x7d").parse
      = .ok ⟨[⟨⟨0, ":f"⟩, [⟨1, "x"⟩],
        [.assign ⟨6, .var ⟨2, "x"⟩,
            .binop ⟨5, .comparison .less, .literal ⟨4, -1⟩, .var ⟨3, "x"⟩⟩⟩,
          .returnValue 8 (.var ⟨7, "x"⟩)]⟩]⟩ := by
    decide +kernel
  exact ⟨(compile_eq_parse _).1.2 ⟨_, hparse⟩, (compile_eq_parse _).2.2⟩

end Source

end L3Lowering
