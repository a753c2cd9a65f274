import L3Lowering.Proofs.CoveredNodes
import L3Lowering.Proofs.SelectionRun

namespace L3Lowering

/-- Whether the instruction has a tile. Labels can be returned, though no text spells it. -/
def Instruction.isTileable : Instruction → Bool
  | .returnValue _ value => value.isValue
  | i => i.isGrammatical

inductive Binop.Rejects (b : Binop) : Atom → TileError → Prop
  | runtime (r : RuntimeRef) :
      Rejects b (.runtime r) (.malformed .binopAssignment r.text .runtimeValue)
  | label (l : Label) : Rejects b (.label l) (.malformed .binopAssignment b.text .labelOperand)

/-- An operation is judged by its operator, then by its left and then by its right operand. -/
inductive Binop.Faults (b : Binop) : TileError → Prop
  | comparison (hoperator : b.operator.isKept = false) : Faults b (.comparison b)
  | lhs {e : TileError} (hoperator : b.operator.isKept = true) (hlhs : b.Rejects b.lhs e) :
      Faults b e
  | rhs {e : TileError} (hoperator : b.operator.isKept = true) (hlhs : b.lhs.isOperand = true)
      (hrhs : b.Rejects b.rhs e) : Faults b e

inductive Call.Faults (c : Call) : TileError → Prop
  | argument {before after : List Atom} {r : RuntimeRef}
      (harguments : c.arguments = before ++ .runtime r :: after)
      (hbefore : before.all Atom.isValue = true) :
      Faults c (.malformed .call r.text .runtimeValue)

inductive Instruction.Faults : Instruction → TileError → Prop
  | runtime {id : NodeId} {x : Var} {r : RuntimeRef} :
      Faults (.assign ⟨id, .var x, .atom (.runtime r)⟩)
        (.unmatched (.assign ⟨id, .var x, .atom (.runtime r)⟩))
  | binop {id : NodeId} {x : Var} {b : Binop} {e : TileError} (hbinop : b.Faults e) :
      Faults (.assign ⟨id, .var x, .binop b⟩) e
  | assignCall {id : NodeId} {x : Var} {c : Call} {e : TileError} (hcall : c.Faults e) :
      Faults (.assign ⟨id, .var x, .call c⟩) e
  | store {id : NodeId} {s : Store} {value : Expression}
      (hvalue : ∀ a, value = .atom a → a.isValue = false) :
      Faults (.assign ⟨id, .store s, value⟩) (.unmatched (.assign ⟨id, .store s, value⟩))
  | call {c : Call} {e : TileError} (hcall : c.Faults e) : Faults (.call c) e
  | returnValue {id : NodeId} {r : RuntimeRef} :
      Faults (.returnValue id (.runtime r)) (.malformed .valueReturn r.text .runtimeValue)

variable {σ : Type}

/-- Instructions tiled one by one, from one supply to another, up to the first with a fault. -/
inductive Instruction.Ends :
    LabelSupply σ → List Instruction → Except TileError Unit → LabelSupply σ → Prop
  | nil (supply : LabelSupply σ) : Ends supply [] (.ok ()) supply
  | fault {supply : LabelSupply σ} {i : Instruction} {is : List Instruction} {e : TileError}
      (hfault : i.Faults e) : Ends supply (i :: is) (.error e) (supply.skip i.callCount)
  | cons {supply after : LabelSupply σ} {i : Instruction} {is : List Instruction}
      {outcome : Except TileError Unit} (htile : i.isTileable = true)
      (hrest : Ends (supply.skip i.callCount) is outcome after) :
      Ends supply (i :: is) outcome after

def Program.instructions (program : Program) : List Instruction :=
  program.functions.flatMap Function.body

def Function.ids (function : Function) : List NodeId :=
  function.name.id :: (function.parameters.map Var.id ++ function.body.flatMap Instruction.ids)

variable {supply middle after : LabelSupply σ} {i : Instruction} {e : TileError}

theorem Atom.toOperand_of_rejects {b : Binop} {atom : Atom} (h : b.Rejects atom e) :
    atom.toOperand b = .error e := by
  cases h <;> rfl

theorem Tile.ofBinopAssignment_of_isKept {b : Binop} (h : b.operator.isKept = true) (x : Var) :
    ∃ build : L2.Value → L2.Value → Tile, Tile.ofBinopAssignment x (.binop b)
      = do return build (← b.lhs.toOperand b) (← b.rhs.toOperand b) := by
  cases hoperator : b.operator with
  | arithmetic op => exact ⟨.arithmetic x.name op, by simp only [ofBinopAssignment, hoperator]⟩
  | comparison op => exact ⟨.comparison x.name op, by simp only [ofBinopAssignment, hoperator]⟩
  | greater | greaterEqual => simp [hoperator, Operator.isKept] at h

theorem Tile.ofBinopAssignment_of_faults {b : Binop} (h : b.Faults e) (x : Var) :
    Tile.ofBinopAssignment x (.binop b) = .error e := by
  cases h with
  | comparison hkept =>
      cases hoperator : b.operator with
      | greater | greaterEqual =>
          simp only [ofBinopAssignment, hoperator]
          rfl
      | arithmetic | comparison => simp [hoperator, Operator.isKept] at hkept
  | lhs hkept hlhs =>
      obtain ⟨build, hbuild⟩ := ofBinopAssignment_of_isKept hkept x
      rw [hbuild, Atom.toOperand_of_rejects hlhs]
      rfl
  | rhs hkept hlhs hrhs =>
      obtain ⟨build, hbuild⟩ := ofBinopAssignment_of_isKept hkept x
      obtain ⟨v, hv, -⟩ := Atom.toOperand_ok hlhs b
      rw [hbuild, hv, Atom.toOperand_of_rejects hrhs]
      rfl

theorem CallSite.ofCall_of_faults {c : Call} (h : c.Faults e) (returnLabel : String) :
    CallSite.ofCall c returnLabel = .error e := by
  cases h with
  | @argument before after r harguments hbefore =>
      obtain ⟨values, hvalues⟩ := toValues_ok hbefore .call
      rw [ofCall, harguments, List.mapM_append, hvalues, List.mapM_cons]
      rfl

theorem Selector.choose_of_faults (h : i.Faults e) (supply : LabelSupply σ) :
    (choose supply i).1 = .error e := by
  cases h with
  | runtime | returnValue => rfl
  | binop hbinop => exact Tile.ofBinopAssignment_of_faults hbinop _
  | assignCall hcall =>
      simp only [choose, Tile.ofCallAssignment, CallSite.ofCall_of_faults hcall]
      rfl
  | @store id s value hvalue =>
      cases value with
      | atom a =>
          cases a with
          | runtime => rfl
          | var | label | literal => cases hvalue _ rfl
      | binop | load | call => rfl
  | call hcall =>
      simp only [choose, Tile.ofCall, CallSite.ofCall_of_faults hcall]
      rfl

theorem Selector.choose_of_isTileable (h : i.isTileable = true) (hsupply : supply.GivesLabels) :
    ∃ tile, (choose supply i).1 = .ok tile := by
  cases i with
  | returnValue id value =>
      obtain ⟨v, hv, -⟩ := Atom.toValue_ok h .valueReturn
      exact ⟨.returnValue v, except_bind_eq_ok.2 ⟨v, hv, rfl⟩⟩
  | assign | goto | branch | call | returnVoid | label => exact choose_isOk h hsupply

theorem Binop.exists_rejects {atom : Atom} (h : atom.isOperand = false) (b : Binop) :
    ∃ e, b.Rejects atom e := by
  cases atom with
  | label l => exact ⟨_, .label l⟩
  | runtime r => exact ⟨_, .runtime r⟩
  | var | literal => cases h

theorem Binop.exists_faults {b : Binop} (h : (Expression.binop b).isGrammatical = false) :
    ∃ e, b.Faults e := by
  cases hoperator : b.operator.isKept with
  | false => exact ⟨_, .comparison hoperator⟩
  | true =>
      cases hlhs : b.lhs.isOperand with
      | false => exact (exists_rejects hlhs b).imp fun e he => .lhs hoperator he
      | true =>
          have hrhs : b.rhs.isOperand = false := by
            simpa [Expression.isGrammatical, hoperator, hlhs] using h
          exact (exists_rejects hrhs b).imp fun e he => .rhs hoperator hlhs he

theorem Call.exists_faults {c : Call} (h : c.arguments.all Atom.isValue = false) :
    ∃ e, c.Faults e := by
  obtain ⟨a, ha, hvalue⟩ := List.all_eq_false.1 h
  have hsome : (c.arguments.find? (!·.isValue)).isSome :=
    List.find?_isSome.2 ⟨a, ha, by simpa using hvalue⟩
  obtain ⟨first, hfirst⟩ := Option.isSome_iff_exists.1 hsome
  obtain ⟨hruntime, before, after, harguments, hbefore⟩ := List.find?_eq_some_iff_append.1 hfirst
  cases first with
  | runtime r => exact ⟨_, .argument harguments (by simpa using hbefore)⟩
  | var | label | literal => cases hruntime

theorem Instruction.exists_faults (h : i.isTileable = false) : ∃ e, i.Faults e := by
  cases i with
  | assign a =>
      obtain ⟨id, target, value⟩ := a
      cases target with
      | var x =>
          cases value with
          | atom a =>
              cases a with
              | runtime r => exact ⟨_, .runtime⟩
              | var | label | literal => cases h
          | binop b => exact (Binop.exists_faults h).imp fun e he => .binop he
          | load => cases h
          | call c => exact (Call.exists_faults h).imp fun e he => .assignCall he
      | store s =>
          refine ⟨_, .store ?_⟩
          rintro a rfl
          exact h
  | call c => exact (Call.exists_faults h).imp fun e he => .call he
  | returnValue id value =>
      cases value with
      | runtime r => exact ⟨_, .returnValue⟩
      | var | label | literal => cases h
  | goto | branch | returnVoid | label => cases h

theorem Instruction.Faults.unique {e' : TileError} (h : i.Faults e) (h' : i.Faults e') :
    e = e' := by
  have hchoose := Selector.choose_of_faults h (.ofStem "")
  rw [Selector.choose_of_faults h'] at hchoose
  exact (Except.error.inj hchoose).symm

theorem Instruction.Faults.not_isTileable (h : i.Faults e) : i.isTileable = false := by
  by_contra htile
  rw [Bool.not_eq_false] at htile
  obtain ⟨tile, hchoose⟩ :=
    Selector.choose_of_isTileable htile (LabelSupply.givesLabels_counted "" 0)
  rw [Selector.choose_of_faults h] at hchoose
  cases hchoose

theorem Selector.faults_of_choose (h : (choose supply i).1 = .error e)
    (hsupply : supply.GivesLabels) : i.Faults e := by
  cases htile : i.isTileable with
  | true =>
      obtain ⟨tile, hchoose⟩ := choose_of_isTileable htile hsupply
      rw [h] at hchoose
      cases hchoose
  | false =>
      obtain ⟨e', hfault⟩ := Instruction.exists_faults htile
      rw [choose_of_faults hfault] at h
      cases h
      exact hfault

theorem Selector.isTileable_of_choose {tile : Tile} (h : (choose supply i).1 = .ok tile) :
    i.isTileable = true := by
  by_contra htile
  rw [Bool.not_eq_true] at htile
  obtain ⟨e, hfault⟩ := Instruction.exists_faults htile
  rw [choose_of_faults hfault] at h
  cases h

namespace Instruction

theorem Ends.append {others is : List Instruction} {outcome : Except TileError Unit}
    (h : Ends supply is (.ok ()) middle) (h' : Ends middle others outcome after) :
    Ends supply (is ++ others) outcome after := by
  generalize hok : Except.ok () = ended at h
  induction h with
  | nil => exact h'
  | fault => cases hok
  | cons htile _ ih => exact .cons htile (ih h' hok)

theorem Ends.append_error {is : List Instruction} (h : Ends supply is (.error e) after)
    (others : List Instruction) : Ends supply (is ++ others) (.error e) after := by
  generalize herror : Except.error e = ended at h ⊢
  induction h with
  | nil => cases herror
  | fault hfault => exact .fault hfault
  | cons htile _ ih => exact .cons htile (ih herror)

variable {is : List Instruction} {outcome : Except TileError Unit}

theorem Ends.of_isTileable (h : Ends supply is outcome after)
    (htile : ∀ i ∈ is, i.isTileable = true) :
    outcome = .ok () ∧ after = supply.skip (callCounts is) := by
  induction h with
  | nil supply => exact ⟨rfl, supply.skip_zero.symm⟩
  | fault hfault =>
      have hfirst := htile _ List.mem_cons_self
      rw [hfault.not_isTileable] at hfirst
      cases hfirst
  | cons _ _ ih =>
      obtain ⟨houtcome, rfl⟩ := ih fun j hj => htile j (List.mem_cons_of_mem _ hj)
      exact ⟨houtcome, by rw [LabelSupply.skip_skip, callCounts]⟩

theorem Ends.isTileable (h : Ends supply is (.ok ()) after) : ∀ i ∈ is, i.isTileable = true := by
  generalize hok : Except.ok () = ended at h
  induction h with
  | nil => simp
  | fault => cases hok
  | cons htile _ ih => exact List.forall_mem_cons.2 ⟨htile, ih hok⟩

theorem Ends.at_fault {before rest : List Instruction}
    (h : Ends supply (before ++ i :: rest) outcome after)
    (hbefore : ∀ j ∈ before, j.isTileable = true) (hi : i.isTileable = false) :
    (∃ e, i.Faults e ∧ outcome = .error e) ∧
      after = supply.skip (callCounts (before ++ [i])) := by
  induction before generalizing supply with
  | nil =>
      cases h with
      | fault hfault => exact ⟨⟨_, hfault, rfl⟩, rfl⟩
      | cons htile => simp [hi] at htile
  | cons j before ih =>
      obtain ⟨hj, hbefore⟩ := List.forall_mem_cons.1 hbefore
      cases h with
      | fault hfault => simp [hfault.not_isTileable] at hj
      | cons _ hrest =>
          obtain ⟨houtcome, rfl⟩ := ih hrest hbefore
          exact ⟨houtcome, by rw [LabelSupply.skip_skip, List.cons_append, callCounts]⟩

/-- Instructions whose nodes all have ids of their own are never skipped. -/
theorem fresh_of_nodup {covered : List NodeId} (h : (is.flatMap ids).Nodup)
    (hcovered : ∀ id ∈ covered, id ∉ is.flatMap ids) : Fresh covered is := by
  induction is generalizing covered with
  | nil => trivial
  | cons i is ih =>
      rw [List.flatMap_cons] at h hcovered
      obtain ⟨-, hnodup, hdistinct⟩ := List.nodup_append.1 h
      refine ⟨fun hid => ?_, ih hnodup fun id hid hmem => ?_⟩
      · exact hcovered i.id hid (List.mem_append_left _ i.id_mem_ids)
      · rcases List.mem_append.1 hid with hid | hid
        · exact hdistinct id (mem_ids.1 hid) id hmem rfl
        · exact hcovered id hid (List.mem_append_right _ hmem)

end Instruction

theorem except_map_unit {ε α β : Type} (x : Except ε α) (f : α → β) :
    (x.map f).map (fun _ => ()) = x.map fun _ => () := by
  cases x <;> rfl

theorem Selector.ends_selectAll {body : List Instruction} {covered : List NodeId}
    (hsupply : supply.GivesLabels) (hfresh : Instruction.Fresh covered body) :
    Instruction.Ends supply body ((selectAll ⟨supply, covered⟩ body).result.map fun _ => ())
      (selectAll ⟨supply, covered⟩ body).selector.supply := by
  -- The relation has a case for each way in which a step can end, save that of a covered id.
  induction body generalizing supply covered with
  | nil => exact .nil supply
  | cons i is ih =>
      obtain ⟨hid, hrest⟩ := hfresh
      have hstep := select_selects ⟨supply, covered⟩ i
      generalize hselect : select ⟨supply, covered⟩ i = selection at hstep
      cases hstep with
      | skip hcovered => exact absurd (by simpa [covers] using hcovered) hid
      | refuse _ hchoose =>
          obtain ⟨hresult, hselector, -⟩ := selectAll_cons_error hselect is
          rw [hresult, hselector]
          exact .fault (faults_of_choose hchoose hsupply)
      | tile _ hchoose =>
          obtain ⟨hresult, hselector, -⟩ := selectAll_cons_ok hselect is
          rw [hresult, hselector, except_map_unit]
          exact .cons (isTileable_of_choose hchoose) (ih (hsupply.skip i.callCount) hrest)

namespace Program

theorem emitAll_cons_of_error {f : Function} (h : (f.emit supply).result = .error e)
    (fs : List Function) :
    (emitAll supply (f :: fs)).result = .error e ∧
      (emitAll supply (f :: fs)).supply = (f.emit supply).supply := by
  rw [emitAll]
  rcases hstate : f.emit supply with ⟨result, middle, log⟩
  rw [hstate] at h
  simp only at h
  subst h
  exact ⟨rfl, rfl⟩

theorem ends_emitAll {functions : List Function} (hsupply : supply.GivesLabels)
    (hfresh : ∀ f ∈ functions, Instruction.Fresh [] f.body) :
    Instruction.Ends supply (functions.flatMap Function.body)
      ((emitAll supply functions).result.map fun _ => ()) (emitAll supply functions).supply := by
  induction functions generalizing supply with
  | nil => exact .nil supply
  | cons f fs ih =>
      obtain ⟨hf, hfs⟩ := List.forall_mem_cons.1 hfresh
      have hbody := Selector.ends_selectAll hsupply hf
      rw [← except_map_unit _ (TiledFunction.ofTiles f)] at hbody
      change Instruction.Ends supply f.body ((f.emit supply).result.map _) (f.emit supply).supply
        at hbody
      rw [List.flatMap_cons]
      cases hresult : (f.emit supply).result with
      | error e =>
          rw [hresult] at hbody
          obtain ⟨herror, hafter⟩ := emitAll_cons_of_error hresult fs
          rw [herror, hafter]
          exact hbody.append_error _
      | ok tiled =>
          rw [hresult] at hbody
          obtain ⟨hothers, hafter⟩ := emitAll_cons_of_emit fs hresult
          rw [hothers, hafter, except_map_unit]
          refine hbody.append (ih ?_ hfs)
          rw [(hbody.of_isTileable hbody.isTileable).2]
          exact hsupply.skip _

/-- A program whose functions have no id twice is emitted if all its instructions have tiles. If not,
the first instruction without a tile gives the error. In both cases the supply has given a label to
every call up to there. -/
theorem emit_ends_at_first_fault (program : Program)
    (hids : ∀ f ∈ program.functions, f.ids.Nodup) (stem : String) (issued : Nat) :
    let emission := program.emit (.counted stem issued)
    ((∃ tiled, emission.result = .ok tiled) ↔ ∀ i ∈ program.instructions, i.isTileable = true) ∧
    ((∀ i ∈ program.instructions, i.isTileable = true) →
      emission.supply = .counted stem (issued + Instruction.callCounts program.instructions)) ∧
    ∀ before i rest, program.instructions = before ++ i :: rest →
      (∀ j ∈ before, j.isTileable = true) → i.isTileable = false →
      ∃ e, (∀ e', i.Faults e' ↔ e' = e) ∧ emission.result = .error e ∧
        emission.supply = .counted stem (issued + Instruction.callCounts (before ++ [i])) := by
  intro emission
  have hfresh : ∀ f ∈ program.functions, Instruction.Fresh [] f.body := by
    intro f hf
    have hbody := (List.nodup_append.1 (List.nodup_cons.1 (hids f hf)).2).2.1
    exact Instruction.fresh_of_nodup hbody nofun
  have hends : Instruction.Ends (.counted stem issued) program.instructions
      (emission.result.map fun _ => ()) emission.supply := by
    have hends := ends_emitAll (LabelSupply.givesLabels_counted stem issued) hfresh
    rw [← except_map_unit _ TiledProgram.mk] at hends
    exact hends
  refine ⟨⟨?_, ?_⟩, ?_, ?_⟩
  · rintro ⟨tiled, hresult⟩
    rw [hresult] at hends
    exact hends.isTileable
  · intro htile
    obtain ⟨tiled, hresult, -⟩ := except_map_eq_ok.1 (hends.of_isTileable htile).1
    exact ⟨tiled, hresult⟩
  · intro htile
    rw [(hends.of_isTileable htile).2, LabelSupply.skip_counted]
  · intro before i rest hsplit hbefore hi
    rw [hsplit] at hends
    obtain ⟨⟨e, hfault, hresult⟩, hsupply⟩ := hends.at_fault hbefore hi
    refine ⟨e, fun e' => ⟨fun hfault' => hfault'.unique hfault, ?_⟩,
      except_map_eq_error.1 hresult, by rw [hsupply, LabelSupply.skip_counted]⟩
    rintro rfl
    exact hfault

/-- The second function, whose ids are those of the first, fails at its call. The call has taken its
label, and what comes after it is not looked at. -/
theorem emit_ends_at_first_fault_second :
    let print : Instruction := .call ⟨2, .runtime ⟨3, .print⟩, [.var ⟨4, "x"⟩]⟩
    let named : Instruction := .returnValue 5 (.label ⟨6, ":f"⟩)
    let wrong : Instruction := .assign ⟨2, .var ⟨3, "y"⟩,
      .call ⟨4, .label ⟨5, ":f"⟩, [.var ⟨6, "x"⟩, .runtime ⟨7, .allocate⟩]⟩⟩
    let copied : Instruction := .assign ⟨8, .var ⟨9, "y"⟩, .atom (.runtime ⟨10, .print⟩)⟩
    let last : Instruction := .call ⟨11, .label ⟨12, ":g"⟩, []⟩
    let program : Program :=
      ⟨[⟨⟨0, ":f"⟩, [⟨1, "x"⟩], [print, named]⟩, ⟨⟨0, ":g"⟩, [⟨1, "x"⟩], [wrong, copied, last]⟩]⟩
    (program.emit (.counted "z" 3)).result = .error (.malformed .call "allocate" .runtimeValue) ∧
      (program.emit (.counted "z" 3)).supply = .counted "z" 5 := by
  intro print named wrong copied last program
  obtain ⟨e, hfaults, hresult, hsupply⟩ := (emit_ends_at_first_fault program (by decide) "z" 3).2.2
    [print, named] wrong [copied, last] rfl (by decide) rfl
  have hfault : wrong.Faults (.malformed .call "allocate" .runtimeValue) :=
    .assignCall (@Call.Faults.argument _ [.var ⟨6, "x"⟩] [] ⟨7, .allocate⟩ rfl rfl)
  rw [(hfaults _).1 hfault]
  exact ⟨hresult, hsupply⟩

end Program

end L3Lowering
