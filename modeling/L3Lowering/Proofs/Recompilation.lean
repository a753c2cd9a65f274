import L3Lowering.Proofs.RoundTrip
import L3Lowering.Proofs.ScopedGrammar
import L3Lowering.Proofs.SelectionRun
import Mathlib.Algebra.GroupWithZero.Nat

namespace L3Lowering

def Expression.nodeCount : Expression → Nat
  | .atom _ => 1
  | .binop _ => 3
  | .load _ => 2
  | .call c => c.arguments.length + 2

def Instruction.nodeCount : Instruction → Nat
  | .assign ⟨_, .var _, value⟩ => value.nodeCount + 2
  | .assign ⟨_, .store _, value⟩ => value.nodeCount + 3
  | .goto _ => 2
  | .branch _ => 4
  | .call c => c.arguments.length + 2
  | .returnValue _ _ => 2
  | .returnVoid _ => 1
  | .label _ => 1

def Function.bodyCount (function : Function) : Nat :=
  (function.body.map Instruction.nodeCount).sum

theorem Expression.nodeCount_withoutIds (value : Expression) :
    value.withoutIds.nodeCount = value.nodeCount := by
  cases value with
  | call c => simp [withoutIds, nodeCount, Call.withoutIds]
  | atom | binop | load => rfl

theorem Instruction.nodeCount_withoutIds (instruction : Instruction) :
    instruction.withoutIds.nodeCount = instruction.nodeCount := by
  cases instruction with
  | assign a =>
      obtain ⟨id, target, value⟩ := a
      cases target with
      | var => exact congrArg (· + 2) value.nodeCount_withoutIds
      | store => exact congrArg (· + 3) value.nodeCount_withoutIds
  | call c => simp [withoutIds, nodeCount, Call.withoutIds]
  | goto | branch | returnValue | returnVoid | label => rfl

theorem Expression.nodeCount_mapLabels (calls : CallScope) (rename : String → String)
    (value : Expression) : (value.mapLabels calls rename).nodeCount = value.nodeCount := by
  cases value with
  | call c => cases calls <;> simp [mapLabels, nodeCount, Call.mapLabels]
  | atom | binop | load => rfl

theorem Instruction.nodeCount_mapLabels (calls : CallScope) (rename : String → String)
    (instruction : Instruction) :
    (instruction.mapLabels calls rename).nodeCount = instruction.nodeCount := by
  cases instruction with
  | assign a =>
      obtain ⟨id, target, value⟩ := a
      cases target with
      | var => exact congrArg (· + 2) (value.nodeCount_mapLabels calls rename)
      | store => exact congrArg (· + 3) (value.nodeCount_mapLabels calls rename)
  | call c => cases calls <;> simp [mapLabels, nodeCount, Call.mapLabels]
  | goto | branch | returnValue | returnVoid | label => rfl

theorem Function.bodyCount_withoutIds (function : Function) :
    function.withoutIds.bodyCount = function.bodyCount := by
  simp [bodyCount, withoutIds, Function.comp_def, Instruction.nodeCount_withoutIds]

theorem Function.bodyCount_scopeLabels (stem : String) (globals : List String)
    (function : Function) : (function.scopeLabels stem globals).bodyCount = function.bodyCount := by
  simp [bodyCount, scopeLabels, mapLabels, Function.comp_def, Instruction.nodeCount_mapLabels]

namespace Phrase

theorem Category.sum_buildFrom {φ α : Type} {build : NodeId → φ → α} {size : φ → Nat}
    {count : α → Nat} (h : ∀ id x, count (build id x) = size x) (id : NodeId) (xs : List φ) :
    ((buildFrom build size id xs).map count).sum = totalSize size xs := by
  induction xs generalizing id with
  | nil => rfl
  | cons x xs ih => rw [buildFrom, List.map_cons, List.sum_cons, h, ih, totalSize]

theorem call_nodeCount (id : NodeId) (x : Call) :
    (call.build id x).arguments.length + 2 = call.size x := by
  have hlength : ((Category.buildFrom Value.build argument.size (id + 1) x.arguments).map
      fun _ => 1).sum = Category.totalSize argument.size x.arguments := by
    apply Category.sum_buildFrom
    intro id v
    rfl
  rw [List.map_const', List.sum_replicate_nat, Nat.mul_one] at hlength
  have hsize : call.size x = 1 + Category.totalSize argument.size x.arguments + 1 := rfl
  have harguments : (call.build id x).arguments
      = Category.buildFrom Value.build argument.size (id + 1) x.arguments := rfl
  rw [harguments, hlength, hsize]
  omega

theorem rightHandSide_nodeCount (id : NodeId) (x : RightHandSide) :
    (rightHandSide.build id x).nodeCount = rightHandSide.size x := by
  cases x with
  | call c => exact call_nodeCount id c
  | value | operation | load => rfl

theorem instruction_nodeCount (id : NodeId) (x : Instruction) :
    (instruction.build id x).nodeCount = instruction.size x := by
  cases x with
  | assign target value =>
      have hvalue := rightHandSide_nodeCount (id + 1) value
      simp only [instruction, L3Lowering.Instruction.nodeCount, hvalue]
      omega
  | call c => exact call_nodeCount id c
  | label | store | goto | branch | returnValue | returnVoid => rfl

theorem function_bodyCount (id : NodeId) (x : Function) :
    (function.build id x).bodyCount = instruction.many.size x.body :=
  Category.sum_buildFrom instruction_nodeCount _ x.body

end Phrase

namespace Source

variable {source : Source} {program : Program}

theorem bodyCount_le_of_parse (h : source.parse = .ok program) :
    ∀ function ∈ program.functions, function.bodyCount ≤ source.tokens.length := by
  obtain ⟨xs, -, -, rfl, hwords, -⟩ := Program.phrases_of_ofTokens h
  intro function hfunction
  obtain ⟨x, hx, offset, hle, rfl⟩ := Phrase.Category.mem_buildFrom hfunction
  have htotal := Phrase.function.size_many_le Phrase.function_size_le xs
  rw [← hwords, List.length_map] at htotal
  have hmany : offset + Phrase.function.size x ≤ Phrase.function.many.size xs := hle
  have hbody : Phrase.instruction.many.size x.body ≤ Phrase.function.size x := Nat.le_add_left _ _
  rw [Phrase.function_bodyCount]
  omega

/-- Ids do not come twice as long as the nodes of each body can be counted in 32 bits. -/
theorem fresh_of_bodyCount (h : source.parse = .ok program)
    (hcount : ∀ function ∈ program.functions, function.bodyCount ≤ UInt32.size) :
    ∀ function ∈ program.functions, Instruction.Fresh [] function.body := by
  obtain ⟨xs, -, -, rfl, -, -⟩ := Program.phrases_of_ofTokens h
  intro function hfunction
  have hroom := hcount function hfunction
  obtain ⟨x, -, offset, -, rfl⟩ := Phrase.Category.mem_buildFrom hfunction
  rw [Phrase.function_bodyCount] at hroom
  have hfresh := Phrase.fresh_body (0 + .ofNat offset +
    .ofNat (1 + Phrase.parameter.enclosed.size x.parameters)) x.body 0 [] (by simp) (by omega)
  have hzero : UInt32.ofNat 0 = 0 := rfl
  rwa [hzero, UInt32.add_zero] at hfresh

end Source

theorem Atom.StandsFor.withoutIds {atom : Atom} {value : L2.Value} (h : atom.StandsFor value) :
    atom.withoutIds.StandsFor value := by
  cases h with
  | var v => exact .var v.withoutId
  | label l => exact .label l.withoutId
  | literal n => exact .literal { n with id := 0 }

theorem Atom.StandsFor.unique : Relator.RightUnique Atom.StandsFor := by
  intro atom value other h hother
  cases h <;> cases hother <;> rfl

theorem Call.standsFor_withoutIds {call : Call} {values : List L2.Value}
    (h : List.Forall₂ Atom.StandsFor call.arguments values) :
    List.Forall₂ Atom.StandsFor call.withoutIds.arguments values :=
  List.forall₂_map_left_iff.2 (h.imp fun _ _ => Atom.StandsFor.withoutIds)

theorem Callee.toL2_withoutIds (callee : Callee) : callee.withoutIds.toL2 = callee.toL2 := by
  cases callee <;> rfl

namespace Tile.Lowers

variable {returnLabel : String} {instruction : Instruction} {tile other : Tile}

theorem withoutIds (h : Lowers returnLabel instruction tile) :
    Lowers returnLabel instruction.withoutIds tile := by
  cases h with
  | assign hvalue => exact .assign hvalue.withoutIds
  | load => exact .load
  | arithmetic hlhs hrhs => exact .arithmetic hlhs.withoutIds hrhs.withoutIds
  | comparison hlhs hrhs => exact .comparison hlhs.withoutIds hrhs.withoutIds
  | @assignCall id x c values hvalues =>
      have hlowers : Lowers returnLabel (.assign ⟨0, .var x.withoutId, .call c.withoutIds⟩)
          (.assignCall x.name ⟨c.withoutIds.callee.toL2, values, returnLabel⟩) :=
        .assignCall (Call.standsFor_withoutIds hvalues)
      rwa [Call.withoutIds, Callee.toL2_withoutIds] at hlowers
  | store hvalue => exact .store hvalue.withoutIds
  | goto => exact .goto
  | branch => exact .branch
  | @call c values hvalues =>
      have hlowers : Lowers returnLabel (.call c.withoutIds)
          (.call ⟨c.withoutIds.callee.toL2, values, returnLabel⟩) :=
        .call (Call.standsFor_withoutIds hvalues)
      rwa [Call.withoutIds, Callee.toL2_withoutIds] at hlowers
  | returnValue hvalue => exact .returnValue hvalue.withoutIds
  | returnVoid => exact .returnVoid
  | label => exact .label

theorem unique (h : Lowers returnLabel instruction tile)
    (hother : Lowers returnLabel instruction other) : tile = other := by
  cases h with
  | assign hvalue =>
      cases hother with
      | assign hvalue' => rw [Atom.StandsFor.unique hvalue hvalue']
  | arithmetic hlhs hrhs =>
      cases hother with
      | arithmetic hlhs' hrhs' =>
          rw [Atom.StandsFor.unique hlhs hlhs', Atom.StandsFor.unique hrhs hrhs']
  | comparison hlhs hrhs =>
      cases hother with
      | comparison hlhs' hrhs' =>
          rw [Atom.StandsFor.unique hlhs hlhs', Atom.StandsFor.unique hrhs hrhs']
  | assignCall hvalues =>
      cases hother with
      | assignCall hvalues' => rw [List.right_unique_forall₂' Atom.StandsFor.unique hvalues hvalues']
  | store hvalue =>
      cases hother with
      | store hvalue' => rw [Atom.StandsFor.unique hvalue hvalue']
  | call hvalues =>
      cases hother with
      | call hvalues' => rw [List.right_unique_forall₂' Atom.StandsFor.unique hvalues hvalues']
  | returnValue hvalue =>
      cases hother with
      | returnValue hvalue' => rw [Atom.StandsFor.unique hvalue hvalue']
  | load | goto | branch | returnVoid | label =>
      cases hother
      rfl

end Tile.Lowers

theorem Instruction.callCount_withoutIds (instruction : Instruction) :
    instruction.withoutIds.callCount = instruction.callCount := by
  cases instruction with
  | assign a =>
      obtain ⟨id, target, value⟩ := a
      cases target <;> cases value <;> rfl
  | goto | branch | call | returnValue | returnVoid | label => rfl

variable {σ : Type}

theorem Selector.Run.unique {supply after after' : LabelSupply σ} {body body' : List Instruction}
    {tiles tiles' : List Tile} (h : Run supply body tiles after)
    (h' : Run supply body' tiles' after')
    (hsame : body.map Instruction.withoutIds = body'.map Instruction.withoutIds) :
    tiles = tiles' ∧ after = after' := by
  induction h generalizing body' tiles' with
  | nil supply =>
      obtain rfl := List.map_eq_nil_iff.1 hsame.symm
      cases h'
      exact ⟨rfl, rfl⟩
  | @cons supply after i is tile tiles hchoose hrest ih =>
      cases h' with
      | nil => simp at hsame
      | @cons _ _ j js tile' tiles' hchoose' hrest' =>
          obtain ⟨hhead, htail⟩ := List.cons.inj hsame
          have hlowers := (lowers_of_choose hchoose).withoutIds
          have hlowers' := (lowers_of_choose hchoose').withoutIds
          rw [← hhead] at hlowers'
          -- Both instructions are calls or neither is, so both runs go on with one supply.
          have hcount : j.callCount = i.callCount := by
            rw [← Instruction.callCount_withoutIds, ← hhead, Instruction.callCount_withoutIds]
          rw [hcount] at hrest'
          obtain ⟨rfl, rfl⟩ := ih hrest' htail
          exact ⟨congrArg (· :: tiles) (hlowers.unique hlowers'), rfl⟩

theorem TiledFunction.ofTiles_withoutIds {f g : Function} (h : f.withoutIds = g.withoutIds)
    (tiles : List Tile) : ofTiles f tiles = ofTiles g tiles := by
  have hname : f.name.name = g.name.name := congrArg (fun h => h.name.name) h
  have hparameters : f.parameters.map Var.name = g.parameters.map Var.name := by
    have hnames := congrArg (fun h => h.parameters.map Var.name) h
    simpa [Function.withoutIds, Function.comp_def, Var.withoutId] using hnames
  rw [ofTiles, ofTiles, hname, hparameters]

theorem Program.Run.unique {supply after after' : LabelSupply σ} {functions functions' : List Function}
    {tiled tiled' : List TiledFunction} (h : Run supply functions tiled after)
    (h' : Run supply functions' tiled' after')
    (hsame : functions.map Function.withoutIds = functions'.map Function.withoutIds) :
    tiled = tiled' := by
  induction h generalizing functions' tiled' with
  | nil supply =>
      obtain rfl := List.map_eq_nil_iff.1 hsame.symm
      cases h'
      rfl
  | @cons supply middle after f fs tiles tiled hbody hrest ih =>
      cases h' with
      | nil => simp at hsame
      | @cons _ _ _ g gs tiles' tiled' hbody' hrest' =>
          obtain ⟨hhead, htail⟩ := List.cons.inj hsame
          obtain ⟨rfl, rfl⟩ := hbody.unique hbody' (congrArg Function.body hhead)
          rw [ih hrest' htail, TiledFunction.ofTiles_withoutIds hhead]

namespace Program

variable {program other : Program}

theorem emit_result {supply : LabelSupply σ} {tiled : List TiledFunction}
    (h : (emitAll supply program.functions).result = .ok tiled) :
    (program.emit supply).result = .ok ⟨tiled⟩ :=
  congrArg (Except.map TiledProgram.mk) h

theorem bodyCount_le_of_withoutIds {bound : Nat} (heq : other.withoutIds = program.withoutIds)
    (h : ∀ function ∈ program.functions, function.bodyCount ≤ bound) :
    ∀ function ∈ other.functions, function.bodyCount ≤ bound := by
  intro function hfunction
  have hmem : function.withoutIds ∈ program.withoutIds.functions :=
    heq ▸ List.mem_map_of_mem hfunction
  obtain ⟨original, horiginal, hsame⟩ := List.mem_map.1 hmem
  rw [← Function.bodyCount_withoutIds, ← hsame, Function.bodyCount_withoutIds]
  exact h original horiginal

theorem bodyCount_le_scopeLabels {bound : Nat}
    (h : ∀ function ∈ program.functions, function.bodyCount ≤ bound) :
    ∀ function ∈ program.scopeLabels.functions, function.bodyCount ≤ bound := by
  intro function hfunction
  obtain ⟨place, hplace, rfl⟩ := List.mem_mapIdx.1 hfunction
  rw [Function.bodyCount_scopeLabels]
  exact h _ (List.getElem_mem hplace)

/-- Grammatical programs that differ in ids alone are emitted alike, if no id comes twice in
either. -/
theorem emit_eq_of_withoutIds {supply : LabelSupply σ} (hsupply : supply.GivesLabels)
    (h : program.Grammatical) (hother : other.Grammatical)
    (hfresh : ∀ function ∈ program.functions, Instruction.Fresh [] function.body)
    (hfresh' : ∀ function ∈ other.functions, Instruction.Fresh [] function.body)
    (heq : other.withoutIds = program.withoutIds) :
    ∃ tiled, (program.emit supply).result = .ok tiled ∧ (other.emit supply).result = .ok tiled := by
  obtain ⟨tiled, htiled, hrun⟩ := emitAll_run h.shapes hsupply hfresh
  obtain ⟨tiled', htiled', hrun'⟩ := emitAll_run hother.shapes hsupply hfresh'
  obtain rfl := hrun'.unique hrun (congrArg Program.functions heq)
  exact ⟨⟨tiled'⟩, emit_result htiled, emit_result htiled'⟩

end Program

/-- A source of at most `2 ^ 32` tokens has a scoped text, which is parsed to the scoped program up
to ids; and emitting what comes back, with return labels that start with the stem of the scopes,
gives the text that the source is compiled to. -/
theorem Source.scopedText_recompiles (source : Source) (program : Program) (origin : Origin)
    (h : source.parse = .ok program) (hsize : source.tokens.length ≤ UInt32.size) :
    ∃ text reparsed output, source.scopedText = .ok text ∧
      (Source.mk text origin).parse = .ok reparsed ∧
      reparsed.withoutIds = program.scopeLabels.withoutIds ∧
      source.compile.value = .ok output ∧
      (reparsed.emit (.ofStem program.stem)).result.map TiledProgram.text = .ok output := by
  have hscoped := (grammatical_of_parse h).scopeLabels
  obtain ⟨reparsed, hreparse, hsame⟩ := hscoped.parse_text origin
  have hcount (function : Function) (hfunction : function ∈ program.functions) :
      function.bodyCount ≤ UInt32.size :=
    (bodyCount_le_of_parse h function hfunction).trans hsize
  have hfresh := Program.fresh_scopeLabels (fresh_of_bodyCount h hcount)
  have hfresh' := fresh_of_bodyCount hreparse
    (Program.bodyCount_le_of_withoutIds hsame (Program.bodyCount_le_scopeLabels hcount))
  obtain ⟨tiled, hlower, hemit⟩ := Program.emit_eq_of_withoutIds
    (LabelSupply.givesLabels_counted program.stem 0) hscoped (grammatical_of_parse hreparse)
    hfresh hfresh' hsame
  refine ⟨program.scopeLabels.text, reparsed, tiled.text, ?_, hreparse, hsame,
    compile_of_lower h hlower, ?_⟩
  · rw [scopedText, h]
  · rw [LabelSupply.ofStem, hemit]
    rfl

/-- Two functions with a label of the same name, an operation that is turned around, and a call. -/
theorem Source.scopedText_recompiles_turned :
    let source := Source.ofString
      "define :f(x) \x7b :z x <- x > 1 br :z \x7d define :g() \x7b :z x <- call :f(-1) return x \x7d"
    let program : Program :=
      ⟨[⟨⟨0, ":f"⟩, [⟨1, "x"⟩],
          [.label ⟨2, ":z"⟩,
            .assign ⟨7, .var ⟨3, "x"⟩,
              .binop ⟨6, .comparison .less, .literal ⟨5, 1⟩, .var ⟨4, "x"⟩⟩⟩,
            .goto ⟨9, ⟨8, ":z"⟩⟩]⟩,
        ⟨⟨10, ":g"⟩, [],
          [.label ⟨11, ":z"⟩,
            .assign ⟨16, .var ⟨12, "x"⟩, .call ⟨15, .label ⟨13, ":f"⟩, [.literal ⟨14, -1⟩]⟩⟩,
            .returnValue 18 (.var ⟨17, "x"⟩)]⟩]⟩
    source.parse = .ok program ∧ source.tokens.length ≤ UInt32.size ∧
      ∃ text reparsed output, source.scopedText = .ok text ∧
        (Source.ofString text).parse = .ok reparsed ∧
        reparsed.withoutIds = program.scopeLabels.withoutIds ∧
        source.compile.value = .ok output ∧
        (reparsed.emit (.ofStem program.stem)).result.map TiledProgram.text = .ok output := by
  intro source program
  have hparse : source.parse = .ok program := by decide +kernel
  have hsize : source.tokens.length ≤ UInt32.size := by decide +kernel
  exact ⟨hparse, hsize, scopedText_recompiles source program .memory hparse hsize⟩

end L3Lowering
