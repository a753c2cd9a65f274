import L3Lowering.Proofs.FirstFault
import L3Lowering.Proofs.UniqueDefinitions

namespace L3Lowering

def Instruction.call? : Instruction → Option Call
  | .call c => some c
  | .assign ⟨_, _, .call c⟩ => some c
  | _ => none

def Call.returningLines (call : Call) (label : String) : List String :=
  ["((mem rsp -8) <- " ++ label ++ ")",
    "(call " ++ call.callee.text ++ " " ++ Text.natText call.arguments.length ++ ")", label]

def Instruction.resultLines : Instruction → List String
  | .assign ⟨_, .var x, _⟩ => ["(" ++ x.name ++ " <- rax)"]
  | _ => []

/-- The tile's text is that of a call which returns to a label: the arguments are passed, the call
is made, and the result is copied. -/
def Tile.ReturnsTo (label : String) (instruction : Instruction) (call : Call) (tile : Tile) :
    Prop :=
  ∃ values, List.Forall₂ Atom.StandsFor call.arguments values ∧
    tile.text = String.join (((values.mapIdx L2.passArgument).map L2.Line.text
      ++ call.returningLines label ++ instruction.resultLines).map (· ++ "\n"))

variable {σ : Type} {supply after : LabelSupply σ}

theorem intercalate_newline {texts : List String} (h : texts ≠ []) :
    "\n".intercalate texts ++ "\n" = String.join (texts.map (· ++ "\n")) := by
  induction texts with
  | nil => exact absurd rfl h
  | cons text texts ih =>
      cases texts with
      | nil => simp
      | cons other others =>
          rw [String.intercalate_cons_cons, String.append_assoc, ih (List.cons_ne_nil _ _)]
          simp [String.append_assoc]

theorem Callee.text_toL2 (callee : Callee) : callee.toL2.text = callee.text := by
  cases callee <;> rfl

theorem Tile.text_of_endsLine {tile : Tile} (h : tile.endsLine = true) (hlines : tile.lines ≠ []) :
    tile.text = String.join ((tile.lines.map L2.Line.text).map (· ++ "\n")) := by
  rw [text, if_pos h, intercalate_newline (by simpa using hlines)]

theorem CallSite.text_lines {call : Call} {values : List L2.Value} {label : String}
    (hlength : call.arguments.length = values.length) :
    (CallSite.mk call.callee.toL2 values label).lines.map L2.Line.text
      = (values.mapIdx L2.passArgument).map L2.Line.text ++ call.returningLines label := by
  have hcell : (L2.stackCell L2.returnOffset).text = "(mem rsp -8)" := by decide +kernel
  have hstore : (L2.Line.store (L2.stackCell L2.returnOffset) (.label label)).text
      = "((mem rsp -8) <- " ++ label ++ ")" := by
    change "(" ++ (L2.stackCell L2.returnOffset).text ++ " <- " ++ label ++ ")" = _
    rw [hcell]
    rfl
  have hcall : (L2.Line.call call.callee.toL2 values.length).text
      = "(call " ++ call.callee.text ++ " " ++ Text.natText call.arguments.length ++ ")" := by
    rw [← Callee.text_toL2, hlength]
    rfl
  rw [lines, setup, List.append_assoc, List.map_append, List.singleton_append, List.map_cons,
    List.map_cons, hstore, hcall]
  rfl

theorem Tile.Lowers.returnsTo {label : String} {instruction : Instruction} {tile : Tile}
    {call : Call} (h : Tile.Lowers label instruction tile) (hcall : instruction.call? = some call) :
    tile.ReturnsTo label instruction call := by
  cases h with
  | @assignCall _ x c values hvalues =>
      cases hcall
      refine ⟨values, hvalues, ?_⟩
      have hcopy : (L2.Line.move (.var x.name) (.register L2.resultRegister)).text
          = "(" ++ x.name ++ " <- rax)" := by
        have hend : " <- rax)" = " <- " ++ "rax" ++ ")" := rfl
        rw [hend, ← String.append_assoc, ← String.append_assoc]
        rfl
      rw [text_of_endsLine rfl (by simp [lines]), lines, List.map_append,
        CallSite.text_lines hvalues.length_eq, List.map_singleton, hcopy]
      rfl
  | @call c values hvalues =>
      cases hcall
      refine ⟨values, hvalues, ?_⟩
      have hresult : (Instruction.call call).resultLines = [] := rfl
      rw [text_of_endsLine rfl (by simp [lines, CallSite.lines]), lines,
        CallSite.text_lines hvalues.length_eq, hresult, List.append_nil]
  | assign | load | arithmetic | comparison | store | goto | branch | returnValue | returnVoid
    | label => cases hcall

theorem LabelSupply.label_ofStem (stem : String) (k : Nat) :
    (LabelSupply.ofStem stem).label k = returnLabel stem k := by
  rw [ofStem, label_counted, Nat.zero_add]

theorem Instruction.callCounts_append (is others : List Instruction) :
    callCounts (is ++ others) = callCounts is + callCounts others := by
  induction is with
  | nil => simp [callCounts]
  | cons i is ih => rw [List.cons_append, callCounts, callCounts, ih, Nat.add_assoc]

theorem Instruction.callCount_eq {i : Instruction} (h : i.isTileable = true) :
    i.callCount = i.call?.toList.length := by
  cases i with
  | assign a =>
      obtain ⟨id, target, value⟩ := a
      cases target with
      | var x => cases value <;> rfl
      | store s =>
          cases value with
          | atom => rfl
          | binop | load | call => cases h
  | goto | branch | call | returnValue | returnVoid | label => rfl

theorem Instruction.callCounts_eq {is : List Instruction} (h : ∀ i ∈ is, i.isTileable = true) :
    callCounts is = (is.filterMap call?).length := by
  induction is with
  | nil => rfl
  | cons i is ih =>
      obtain ⟨hi, his⟩ := List.forall_mem_cons.1 h
      rw [callCounts, callCount_eq hi, ih his]
      cases hcall : i.call? with
      | none => simp [hcall]
      | some call => simp [hcall, Nat.add_comm]

namespace Selector

theorem Run.isTileable {body : List Instruction} {tiles : List Tile}
    (h : Run supply body tiles after) : ∀ i ∈ body, i.isTileable = true := by
  induction h with
  | nil => exact List.forall_mem_nil _
  | cons hchoose _ ih => exact List.forall_mem_cons.2 ⟨isTileable_of_choose hchoose, ih⟩

theorem run_of_selectAll {body : List Instruction} {covered : List NodeId} {tiles : List Tile}
    (h : (selectAll ⟨supply, covered⟩ body).result = .ok tiles)
    (hfresh : Instruction.Fresh covered body) :
    Run supply body tiles (selectAll ⟨supply, covered⟩ body).selector.supply := by
  induction body generalizing supply covered tiles with
  | nil =>
      cases h
      exact .nil supply
  | cons i is ih =>
      obtain ⟨hid, hrest⟩ := hfresh
      have hstep := select_selects ⟨supply, covered⟩ i
      generalize hselect : select ⟨supply, covered⟩ i = selection at hstep
      cases hstep with
      | skip hcovered => exact absurd (by simpa [covers] using hcovered) hid
      | refuse =>
          rw [(selectAll_cons_error hselect is).1] at h
          cases h
      | tile _ hchoose =>
          obtain ⟨hresult, hselector, -⟩ := selectAll_cons_ok hselect is
          rw [hresult] at h
          obtain ⟨others, hothers, rfl⟩ := except_map_eq_ok.1 h
          rw [hselector]
          exact .cons hchoose (ih hothers hrest)

/-- Behind the instructions `before`, a call returns to the label whose number is that of the calls
up to it. -/
theorem Run.returnsTo {stem : String} {before earlier later : List Instruction} {i : Instruction}
    {call : Call} {tiles : List Tile} {after : LabelSupply Nat}
    (hbefore : ∀ j ∈ before, j.isTileable = true)
    (h : Run ((LabelSupply.ofStem stem).skip (Instruction.callCounts before))
      (earlier ++ i :: later) tiles after) (hcall : i.call? = some call) :
    ∃ tile, tiles[earlier.length]? = some tile ∧
      tile.ReturnsTo (LabelSupply.returnLabel stem
        ((before ++ earlier).filterMap Instruction.call?).length) i call := by
  have hget : (earlier ++ i :: later)[earlier.length]? = some i := by simp
  have htake : (earlier ++ i :: later).take earlier.length = earlier := by simp
  obtain ⟨tile, htile, hlowers⟩ := h.lowers hget
  have htileable : ∀ j ∈ before ++ earlier, j.isTileable = true := by
    intro j hj
    rcases List.mem_append.1 hj with hj | hj
    · exact hbefore j hj
    · exact h.isTileable j (List.mem_append_left _ hj)
  rw [htake, LabelSupply.label_skip, ← Instruction.callCounts_append,
    Instruction.callCounts_eq htileable, LabelSupply.label_ofStem] at hlowers
  exact ⟨tile, htile, hlowers.returnsTo hcall⟩

end Selector

namespace Program

theorem run_of_emitAll {functions : List Function} {tiled : List TiledFunction}
    (h : (emitAll supply functions).result = .ok tiled)
    (hfresh : ∀ f ∈ functions, Instruction.Fresh [] f.body) :
    Run supply functions tiled (emitAll supply functions).supply := by
  induction functions generalizing supply tiled with
  | nil =>
      cases h
      exact .nil supply
  | cons f fs ih =>
      obtain ⟨hf, hfs⟩ := List.forall_mem_cons.1 hfresh
      cases hresult : (f.emit supply).result with
      | error e =>
          rw [(emitAll_cons_of_error hresult fs).1] at h
          cases h
      | ok first =>
          obtain ⟨hall, hafter⟩ := emitAll_cons_of_emit fs hresult
          rw [hall] at h
          obtain ⟨others, hothers, rfl⟩ := except_map_eq_ok.1 h
          obtain ⟨tiles, htiles, rfl⟩ := except_map_eq_ok.1 hresult
          rw [hafter]
          exact .cons (Selector.run_of_selectAll htiles hf) (ih hothers hfs)

theorem Run.function {before rest : List Function} {f : Function} {tiled : List TiledFunction}
    (h : Run supply (before ++ f :: rest) tiled after) :
    ∃ tiles middle, tiled[before.length]? = some (.ofTiles f tiles) ∧
      Selector.Run (supply.skip (Instruction.callCounts (before.flatMap Function.body))) f.body
        tiles middle := by
  induction before generalizing supply tiled with
  | nil =>
      cases h with
      | @cons _ middle _ _ _ tiles _ hbody _ =>
          rw [List.flatMap_nil, Instruction.callCounts, LabelSupply.skip_zero]
          exact ⟨tiles, middle, rfl, hbody⟩
  | cons g before ih =>
      cases h with
      | cons hbody hrest =>
          obtain ⟨tiles, middle, htiled, hrun⟩ := ih hrest
          rw [hbody.supply_eq, LabelSupply.skip_skip, ← Instruction.callCounts_append,
            ← List.flatMap_cons] at hrun
          exact ⟨tiles, middle, htiled, hrun⟩

/-- If a program whose functions have no id twice is emitted, its calls take labels in the order of
the program: as many as there are calls, none of them twice, and each call the one whose number is
the number of calls before it. -/
theorem calls_take_labels_in_order (program : Program)
    (hids : ∀ f ∈ program.functions, f.ids.Nodup) (stem : String) (tiled : TiledProgram)
    (h : (program.emit (.ofStem stem)).result = .ok tiled) :
    let label (k : Nat) : String := ":" ++ stem ++ "_ret" ++ Text.natText k
    (program.emit (.ofStem stem)).supply.state
        = (program.instructions.filterMap Instruction.call?).length ∧
      Function.Injective label ∧
      ∀ before f rest, program.functions = before ++ f :: rest →
        ∃ tiles, tiled.functions[before.length]? = some (.ofTiles f tiles) ∧
          tiles.length = f.body.length ∧
          ∀ earlier i later call, f.body = earlier ++ i :: later → i.call? = some call →
            ∃ tile, tiles[earlier.length]? = some tile ∧
              tile.ReturnsTo
                (label ((before.flatMap Function.body ++ earlier).filterMap
                  Instruction.call?).length) i call := by
  intro label
  have hfresh : ∀ f ∈ program.functions, Instruction.Fresh [] f.body := by
    intro f hf
    have hbody := (List.nodup_append.1 (List.nodup_cons.1 (hids f hf)).2).2.1
    exact Instruction.fresh_of_nodup hbody nofun
  obtain ⟨functions, hfunctions, rfl⟩ := except_map_eq_ok.1 h
  have hrun := run_of_emitAll hfunctions hfresh
  refine ⟨?_, LabelSupply.returnLabel_injective stem, ?_⟩
  · have hsupply : (program.emit (.ofStem stem)).supply
        = (LabelSupply.ofStem stem).skip (Instruction.callCounts program.instructions) :=
      hrun.bodies.supply_eq
    have hcalls : Instruction.callCounts program.instructions
        = (program.instructions.filterMap Instruction.call?).length :=
      Instruction.callCounts_eq hrun.bodies.isTileable
    rw [hsupply, hcalls, LabelSupply.ofStem, LabelSupply.skip_counted]
    exact Nat.zero_add _
  · intro before f rest hsplit
    rw [hsplit] at hrun
    have htileable := hrun.bodies.isTileable
    obtain ⟨tiles, middle, htiled, hbody⟩ := hrun.function
    refine ⟨tiles, htiled, hbody.length_eq, ?_⟩
    intro earlier i later call hplace hcall
    rw [hplace] at hbody
    refine Selector.Run.returnsTo (fun j hj => htileable j ?_) hbody hcall
    rw [List.flatMap_append]
    exact List.mem_append_left _ hj

/-- Two functions with the same ids: the second goes on with the number that the first one leaves,
and the label before its call takes none. -/
theorem calls_take_labels_in_order_second :
    let ask : Call := ⟨4, .label ⟨5, ":g"⟩, [.var ⟨6, "x"⟩]⟩
    let asked : Instruction := .assign ⟨2, .var ⟨3, "y"⟩, .call ask⟩
    let print : Instruction := .call ⟨7, .runtime ⟨8, .print⟩, [.var ⟨9, "y"⟩]⟩
    let place : Instruction := .label ⟨10, ":l"⟩
    let program : Program :=
      ⟨[⟨⟨0, ":f"⟩, [⟨1, "x"⟩], [asked, print]⟩, ⟨⟨0, ":g"⟩, [⟨1, "x"⟩], [place, asked]⟩]⟩
    (∀ f ∈ program.functions, f.ids.Nodup) ∧
      (program.emit (.ofStem "z")).supply.state = 3 ∧
      ∃ tiled g tile, (program.emit (.ofStem "z")).result = .ok tiled ∧
        tiled.functions[1]? = some g ∧ g.tiles[1]? = some tile ∧
        tile.ReturnsTo ":z_ret2" asked ask := by
  intro ask asked print place program
  have hids : ∀ f ∈ program.functions, f.ids.Nodup := by decide
  obtain ⟨tiled, htiled⟩ : ∃ tiled, (program.emit (.ofStem "z")).result = .ok tiled := by
    have hok : (program.emit (.ofStem "z")).result.isOk = true := by decide +kernel
    cases hresult : (program.emit (.ofStem "z")).result with
    | ok tiled => exact ⟨tiled, rfl⟩
    | error e => simp [hresult, Except.isOk, Except.toBool] at hok
  obtain ⟨hissued, -, hcalls⟩ := calls_take_labels_in_order program hids "z" tiled htiled
  obtain ⟨tiles, hg, -, hplace⟩ := hcalls [_] _ [] rfl
  obtain ⟨tile, htile, hreturns⟩ := hplace [place] asked [] ask rfl rfl
  have hlabel : ":" ++ "z" ++ "_ret" ++ Text.natText 2 = ":z_ret2" := by decide +kernel
  refine ⟨hids, hissued, tiled, _, tile, htiled, hg, htile, ?_⟩
  rw [← hlabel]
  exact hreturns

end Program

end L3Lowering
