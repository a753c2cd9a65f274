import L3Lowering.Proofs.Numbering
import L3Lowering.Proofs.TileShapes

namespace L3Lowering

variable {σ : Type}

def Instruction.callCounts : List Instruction → Nat
  | [] => 0
  | i :: is => i.callCount + callCounts is

def LabelSupply.GivesLabels (supply : LabelSupply σ) : Prop :=
  ∀ n, (supply.label n).toList.head? = some ':'

/-- Tiles chosen for instructions one by one, from one supply to another. -/
inductive Selector.Run : LabelSupply σ → List Instruction → List Tile → LabelSupply σ → Prop
  | nil (supply : LabelSupply σ) : Run supply [] [] supply
  | cons {supply after : LabelSupply σ} {i : Instruction} {is : List Instruction} {tile : Tile}
      {tiles : List Tile} (hchoose : (Selector.choose supply i).1 = .ok tile)
      (hrest : Run (supply.skip i.callCount) is tiles after) :
      Run supply (i :: is) (tile :: tiles) after

inductive Program.Run : LabelSupply σ → List Function → List TiledFunction → LabelSupply σ → Prop
  | nil (supply : LabelSupply σ) : Run supply [] [] supply
  | cons {supply middle after : LabelSupply σ} {f : Function} {fs : List Function}
      {tiles : List Tile} {tiled : List TiledFunction}
      (hbody : Selector.Run supply f.body tiles middle) (hrest : Run middle fs tiled after) :
      Run supply (f :: fs) (.ofTiles f tiles :: tiled) after

variable {supply after : LabelSupply σ} {instruction : Instruction}

theorem LabelSupply.GivesLabels.skip (h : supply.GivesLabels) (n : Nat) :
    (supply.skip n).GivesLabels := by
  intro k
  rw [label_skip]
  exact h (n + k)

theorem LabelSupply.givesLabels_counted (stem : String) (issued : Nat) :
    (LabelSupply.counted stem issued).GivesLabels := by
  intro n
  simp [returnLabel]

theorem CallSite.ofCall_isOk {call : Call} (h : call.arguments.all Atom.isValue = true)
    {returnLabel : String} (hlabel : returnLabel.toList.head? = some ':') :
    ∃ site, CallSite.ofCall call returnLabel = .ok site := by
  obtain ⟨values, hvalues⟩ := toValues_ok h .call
  refine ⟨⟨call.callee.toL2, values, returnLabel⟩, ?_⟩
  rw [ofCall, hvalues]
  exact if_pos hlabel

theorem Selector.choose_isOk (h : instruction.isGrammatical = true) (hsupply : supply.GivesLabels) :
    ∃ tile, (Selector.choose supply instruction).1 = .ok tile := by
  cases instruction with
  | assign assignment =>
      obtain ⟨id, target, value⟩ := assignment
      cases target with
      | var x =>
          cases value with
          | atom a =>
              obtain ⟨v, hv, -⟩ := Atom.toValue_ok h .atomAssignment
              refine ⟨.assign x.name v, ?_⟩
              cases a with
              | var | label | literal => exact except_bind_eq_ok.2 ⟨v, hv, rfl⟩
              | runtime r => cases hv
          | binop b =>
              obtain ⟨tile, htile, -⟩ := Tile.ofBinopAssignment_ok h x
              exact ⟨tile, htile⟩
          | load l => exact ⟨_, rfl⟩
          | call c =>
              obtain ⟨site, hsite⟩ := CallSite.ofCall_isOk h (hsupply 0)
              exact ⟨.assignCall x.name site, except_bind_eq_ok.2 ⟨site, hsite, rfl⟩⟩
      | store s =>
          cases value with
          | atom a =>
              obtain ⟨v, hv, -⟩ := Atom.toValue_ok h .storeAssignment
              refine ⟨.store s.address.name v, ?_⟩
              cases a with
              | var | label | literal => exact except_bind_eq_ok.2 ⟨v, hv, rfl⟩
              | runtime r => cases hv
          | binop | load | call => simp [Instruction.isGrammatical] at h
  | call c =>
      obtain ⟨site, hsite⟩ := CallSite.ofCall_isOk h (hsupply 0)
      exact ⟨.call site, except_bind_eq_ok.2 ⟨site, hsite, rfl⟩⟩
  | returnValue id value =>
      cases value with
      | var | literal => exact ⟨_, rfl⟩
      | label | runtime => simp [Instruction.isGrammatical, Atom.isOperand] at h
  | goto | branch | returnVoid | label => exact ⟨_, rfl⟩

namespace Selector

theorem selectAll_cons_of_choose {covered : List NodeId} {tile : Tile} (is : List Instruction)
    (hchoose : (choose supply instruction).1 = .ok tile) (hfresh : instruction.id ∉ covered) :
    let middle : Selector σ :=
      ⟨supply.skip instruction.callCount, instruction.nodes.map Node.id ++ covered⟩
    (selectAll ⟨supply, covered⟩ (instruction :: is)).result
        = (middle.selectAll is).result.map (tile :: ·) ∧
      (selectAll ⟨supply, covered⟩ (instruction :: is)).selector
        = (middle.selectAll is).selector := by
  have hskip : (Selector.mk supply covered).covers instruction.id = false := by
    simpa [covers] using hfresh
  have hstep : choose supply instruction = (.ok tile, supply.skip instruction.callCount) := by
    rw [← hchoose, ← supply_of_choose]
  simp only [selectAll, select, hskip, hstep]
  exact ⟨rfl, rfl⟩

theorem selectAll_run {body : List Instruction} {covered : List NodeId}
    (h : ∀ i ∈ body, i.isGrammatical = true) (hsupply : supply.GivesLabels)
    (hfresh : Instruction.Fresh covered body) :
    ∃ tiles, (selectAll ⟨supply, covered⟩ body).result = .ok tiles ∧
      Run supply body tiles (selectAll ⟨supply, covered⟩ body).selector.supply := by
  induction body generalizing supply covered with
  | nil => exact ⟨[], rfl, .nil supply⟩
  | cons i is ih =>
      obtain ⟨hid, hrest⟩ := hfresh
      obtain ⟨tile, htile⟩ := choose_isOk (h i List.mem_cons_self) hsupply
      obtain ⟨tiles, htiles, hrun⟩ := ih (fun j hj => h j (List.mem_cons_of_mem i hj))
        (hsupply.skip i.callCount) hrest
      obtain ⟨hresult, hselector⟩ := selectAll_cons_of_choose is htile hid
      refine ⟨tile :: tiles, ?_, ?_⟩
      · rw [hresult, htiles]
        rfl
      · rw [hselector]
        exact .cons htile hrun

variable {body : List Instruction} {tiles : List Tile}

theorem Run.length_eq (h : Run supply body tiles after) : tiles.length = body.length := by
  induction h with
  | nil => rfl
  | cons _ _ ih => rw [List.length_cons, List.length_cons, ih]

theorem Run.supply_eq (h : Run supply body tiles after) :
    after = supply.skip (Instruction.callCounts body) := by
  induction h with
  | nil supply => exact supply.skip_zero.symm
  | cons _ _ ih => rw [ih, LabelSupply.skip_skip, Instruction.callCounts]

/-- Every instruction has the tile of its shape, with the return label that is next after the calls
before it. -/
theorem Run.lowers (h : Run supply body tiles after) {k : Nat} (hk : body[k]? = some instruction) :
    ∃ tile, tiles[k]? = some tile ∧
      Tile.Lowers (supply.label (Instruction.callCounts (body.take k))) instruction tile := by
  induction h generalizing k with
  | nil => simp at hk
  | @cons supply after i is tile tiles hchoose hrest ih =>
      cases k with
      | zero =>
          obtain rfl : i = instruction := by simpa using hk
          have hlowers := lowers_of_choose hchoose
          rw [LabelSupply.take_eq] at hlowers
          exact ⟨tile, rfl, hlowers⟩
      | succ k =>
          obtain ⟨tile', htile, hlowers⟩ := ih (by simpa using hk)
          refine ⟨tile', by simpa using htile, ?_⟩
          rw [LabelSupply.label, LabelSupply.skip_skip] at hlowers
          exact hlowers

end Selector

namespace Program

theorem emitAll_cons_of_emit {f : Function} {tiled : TiledFunction} (fs : List Function)
    (h : (f.emit supply).result = .ok tiled) :
    (emitAll supply (f :: fs)).result
        = (emitAll (f.emit supply).supply fs).result.map (tiled :: ·) ∧
      (emitAll supply (f :: fs)).supply = (emitAll (f.emit supply).supply fs).supply := by
  rw [emitAll]
  rcases hstate : f.emit supply with ⟨result, middle, log⟩
  rw [hstate] at h
  simp only at h
  subst h
  exact ⟨rfl, rfl⟩

theorem emitAll_run {functions : List Function}
    (h : ∀ f ∈ functions, ∀ i ∈ f.body, i.isGrammatical = true) (hsupply : supply.GivesLabels)
    (hfresh : ∀ f ∈ functions, Instruction.Fresh [] f.body) :
    ∃ tiled, (emitAll supply functions).result = .ok tiled ∧
      Run supply functions tiled (emitAll supply functions).supply := by
  induction functions generalizing supply with
  | nil => exact ⟨[], rfl, .nil supply⟩
  | cons f fs ih =>
      obtain ⟨tiles, htiles, hbody⟩ := Selector.selectAll_run (h f List.mem_cons_self) hsupply
        (hfresh f List.mem_cons_self)
      have hskip : (f.emit supply).supply = supply.skip (Instruction.callCounts f.body) :=
        hbody.supply_eq
      have hmiddle : (f.emit supply).supply.GivesLabels := by
        rw [hskip]
        exact hsupply.skip _
      obtain ⟨tiled, htiled, hrun⟩ := ih (fun g hg => h g (List.mem_cons_of_mem f hg)) hmiddle
        fun g hg => hfresh g (List.mem_cons_of_mem f hg)
      have hemit : (f.emit supply).result = .ok (.ofTiles f tiles) :=
        congrArg (Except.map (TiledFunction.ofTiles f)) htiles
      obtain ⟨hresult, hafter⟩ := emitAll_cons_of_emit fs hemit
      refine ⟨.ofTiles f tiles :: tiled, ?_, ?_⟩
      · rw [hresult, htiled]
        rfl
      · rw [hafter]
        exact .cons hbody hrun

end Program

end L3Lowering
