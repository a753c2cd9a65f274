import L3Lowering.Proofs.TileShapes

namespace L3Lowering

def Callee.id : Callee → NodeId
  | .var v => v.id
  | .label l => l.id
  | .runtime r => r.id

def Call.ids (call : Call) : List NodeId :=
  call.id :: call.callee.id :: call.arguments.map Atom.id

def Target.ids : Target → List NodeId
  | .var v => [v.id]
  | .store s => [s.id, s.address.id]

def Expression.ids : Expression → List NodeId
  | .atom a => [a.id]
  | .binop b => [b.id, b.lhs.id, b.rhs.id]
  | .load l => [l.id, l.address.id]
  | .call c => c.ids

/-- The ids of the nodes of an instruction, one for each node. -/
def Instruction.ids : Instruction → List NodeId
  | .assign a => a.id :: (a.target.ids ++ a.value.ids)
  | .goto g => [g.id, g.target.id]
  | .branch b => [b.id, b.condition.id, b.onTrue.id, b.onFalse.id]
  | .call c => c.ids
  | .returnValue id value => [id, value.id]
  | .returnVoid id => [id]
  | .label l => [l.id]

section Ids

variable {id : NodeId}

theorem Atom.mem_ids {atom : Atom} : id ∈ atom.nodes.map Node.id ↔ id = atom.id := by
  cases atom <;> simp [nodes, Node.id, Atom.id]

theorem Callee.mem_ids {callee : Callee} : id ∈ callee.nodes.map Node.id ↔ id = callee.id := by
  cases callee <;> simp [nodes, Node.id, Callee.id]

theorem Call.mem_ids {call : Call} : id ∈ call.nodes.map Node.id ↔ id ∈ call.ids := by
  have harguments : id ∈ (call.arguments.flatMap Atom.nodes).map Node.id
      ↔ id ∈ call.arguments.map Atom.id := by
    rw [List.map_flatMap, List.mem_flatMap, List.mem_map]
    exact exists_congr fun a => and_congr_right fun _ => Atom.mem_ids.trans eq_comm
  rw [nodes, ids, List.map_cons, List.map_append, List.mem_cons, List.mem_append, Callee.mem_ids,
    harguments, List.mem_cons, List.mem_cons]
  rfl

theorem Target.mem_ids {target : Target} : id ∈ target.nodes.map Node.id ↔ id ∈ target.ids := by
  cases target <;> simp [nodes, Store.nodes, Node.id, ids]

theorem Expression.mem_ids {value : Expression} :
    id ∈ value.nodes.map Node.id ↔ id ∈ value.ids := by
  -- The expression is listed once more as what it is, with the same id.
  cases value with
  | atom a =>
      rw [nodes, List.map_cons, List.mem_cons, Atom.mem_ids, ids, List.mem_singleton]
      exact or_self_iff
  | binop b =>
      simp only [nodes, Binop.nodes, List.map_cons, List.map_append, List.mem_cons, List.mem_append,
        Atom.mem_ids, ids, List.not_mem_nil, or_false]
      exact or_self_left
  | load l =>
      simp only [nodes, Load.nodes, List.map_cons, List.map_nil, List.mem_cons, ids]
      exact or_self_left
  | call c =>
      rw [nodes, List.map_cons, List.mem_cons, Call.mem_ids, ids]
      exact or_iff_right_of_imp fun heq => heq ▸ List.mem_cons_self

theorem Instruction.mem_ids {instruction : Instruction} :
    id ∈ instruction.nodes.map Node.id ↔ id ∈ instruction.ids := by
  cases instruction with
  | assign a =>
      simp only [nodes, Assignment.nodes, List.map_cons, List.map_append, List.mem_cons,
        List.mem_append, Target.mem_ids, Expression.mem_ids, ids]
      exact or_self_left
  | call c =>
      rw [nodes, List.map_cons, List.mem_cons, Call.mem_ids, ids]
      exact or_iff_right_of_imp fun heq => heq ▸ List.mem_cons_self
  | returnValue own value =>
      rw [nodes, List.map_cons, List.mem_cons, Atom.mem_ids, ids, List.mem_cons, List.mem_singleton]
      rfl
  | goto g => simp [nodes, Goto.nodes, Node.id, ids, Instruction.id]
  | branch b => simp [nodes, Branch.nodes, Node.id, ids, Instruction.id]
  | returnVoid | label => simp [nodes, Node.id, ids, Instruction.id]

theorem Instruction.id_mem_ids (instruction : Instruction) : instruction.id ∈ instruction.ids :=
  mem_ids.1 List.mem_cons_self

end Ids

namespace Selector

variable {σ : Type}

inductive Request where
  | select (instruction : Instruction)
  | tile (function : Function)

def after (selector : Selector σ) : Request → Selector σ
  | .select i => (selector.select i).selector
  | .tile f => (selector.selectAll f.body).selector

/-- The instructions among those of a body that get tiles one after the other, with their tiles, up
to the first that is refused. -/
def tiled (selector : Selector σ) : List Instruction → List (Instruction × Tile)
  | [] => []
  | i :: is =>
    match selector.select i with
    | ⟨.error _, _, _⟩ => []
    | ⟨.ok tile?, next, _⟩ => tile?.toList.map (i, ·) ++ next.tiled is

def given (selector : Selector σ) : Request → List (Instruction × Tile)
  | .select i =>
    match (selector.select i).result with
    | .ok (some tile) => [(i, tile)]
    | _ => []
  | .tile f => selector.tiled f.body

def run (selector : Selector σ) (requests : List Request) : Selector σ :=
  requests.foldl after selector

def history (selector : Selector σ) : List Request → List (Instruction × Tile)
  | [] => []
  | request :: requests => selector.given request ++ (selector.after request).history requests

/-- What the selection of one instruction can do. -/
inductive Selects (selector : Selector σ) (i : Instruction) : Selection σ (Option Tile) → Prop
  | skip (hid : selector.covers i.id = true) (log : Log) :
      Selects selector i ⟨.ok none, selector, log⟩
  | refuse {e : TileError} (hid : selector.covers i.id = false)
      (hchoose : (choose selector.supply i).1 = .error e) (log : Log) :
      Selects selector i
        ⟨.error e, ⟨selector.supply.skip i.callCount, selector.covered⟩, log⟩
  | tile {tile : Tile} (hid : selector.covers i.id = false)
      (hchoose : (choose selector.supply i).1 = .ok tile) (log : Log) :
      Selects selector i ⟨.ok (some tile),
        ⟨selector.supply.skip i.callCount, i.nodes.map Node.id ++ selector.covered⟩, log⟩

theorem select_selects (selector : Selector σ) (i : Instruction) :
    selector.Selects i (selector.select i) := by
  unfold select
  have hsupply := supply_of_choose selector.supply i
  split
  · rename_i hid
    exact .skip hid _
  · rename_i hid
    rw [Bool.not_eq_true] at hid
    rcases hchoose : choose selector.supply i with ⟨result, supply⟩
    rw [hchoose] at hsupply
    cases hsupply
    cases result with
    | error e => exact .refuse hid (congrArg Prod.fst hchoose) []
    | ok tile => exact .tile hid (congrArg Prod.fst hchoose) _

variable {selector next : Selector σ} {i : Instruction} {id : NodeId} {log : Log}

theorem selectAll_cons_ok {tile? : Option Tile} (h : selector.select i = ⟨.ok tile?, next, log⟩)
    (is : List Instruction) :
    (selector.selectAll (i :: is)).result = (next.selectAll is).result.map (tile?.toList ++ ·) ∧
      (selector.selectAll (i :: is)).selector = (next.selectAll is).selector ∧
      selector.tiled (i :: is) = tile?.toList.map (i, ·) ++ next.tiled is := by
  simp only [selectAll, tiled, h, true_and]

theorem selectAll_cons_error {e : TileError} (h : selector.select i = ⟨.error e, next, log⟩)
    (is : List Instruction) :
    (selector.selectAll (i :: is)).result = .error e ∧
      (selector.selectAll (i :: is)).selector = next ∧ selector.tiled (i :: is) = [] := by
  simp only [selectAll, tiled, h, true_and]

theorem covers_select (selector : Selector σ) (i : Instruction) (id : NodeId) :
    (selector.select i).selector.covers id = true ↔ selector.covers id = true ∨
      ∃ tile, (selector.select i).result = .ok (some tile) ∧ id ∈ i.ids := by
  have hstep := select_selects selector i
  generalize selector.select i = selection at hstep
  cases hstep with
  | skip => simp
  | refuse => simp [covers]
  | tile =>
      rw [← Instruction.mem_ids]
      simp [covers, or_comm]

theorem covers_selectAll (body : List Instruction) :
    (selector.selectAll body).selector.covers id = true ↔
      selector.covers id = true ∨ ∃ entry ∈ selector.tiled body, id ∈ entry.1.ids := by
  induction body generalizing selector with
  | nil => simp [selectAll, tiled]
  | cons i is ih =>
      have hstep := covers_select selector i id
      rcases hselect : selector.select i with ⟨result, next, log⟩
      rw [hselect] at hstep
      cases result with
      | error e =>
          obtain ⟨-, hselector, htiled⟩ := selectAll_cons_error hselect is
          rw [hselector, htiled]
          simpa using hstep
      | ok tile? =>
          obtain ⟨-, hselector, htiled⟩ := selectAll_cons_ok hselect is
          rw [hselector, htiled, ih, hstep]
          cases tile? with
          | none => simp
          | some tile => simp [or_assoc]

theorem tiled_of_selectAll {body : List Instruction} {tiles : List Tile}
    (h : (selector.selectAll body).result = .ok tiles) :
    (selector.tiled body).map Prod.snd = tiles := by
  induction body generalizing selector tiles with
  | nil =>
      cases h
      rfl
  | cons i is ih =>
      rcases hselect : selector.select i with ⟨result, next, log⟩
      cases result with
      | error e =>
          rw [(selectAll_cons_error hselect is).1] at h
          cases h
      | ok tile? =>
          obtain ⟨hresult, -, htiled⟩ := selectAll_cons_ok hselect is
          rw [hresult] at h
          obtain ⟨others, hothers, rfl⟩ := except_map_eq_ok.1 h
          rw [htiled, List.map_append, ih hothers, List.map_map]
          cases tile? <;> rfl

theorem selectAll_eq_error {body : List Instruction} {e : TileError}
    (h : (selector.selectAll body).result = .error e) :
    ∃ before i rest tiles, body = before ++ i :: rest ∧
      (selector.selectAll before).result = .ok tiles ∧
      ((selector.selectAll before).selector.select i).result = .error e ∧
      selector.tiled body = selector.tiled before := by
  induction body generalizing selector with
  | nil => cases h
  | cons i is ih =>
      rcases hselect : selector.select i with ⟨result, next, log⟩
      cases result with
      | error e' =>
          obtain ⟨hresult, -, htiled⟩ := selectAll_cons_error hselect is
          rw [hresult] at h
          cases h
          exact ⟨[], i, is, [], rfl, rfl, congrArg Selection.result hselect, htiled⟩
      | ok tile? =>
          obtain ⟨hresult, -, htiled⟩ := selectAll_cons_ok hselect is
          rw [hresult] at h
          obtain ⟨before, j, rest, tiles, rfl, hbefore, hrefused, hsame⟩ :=
            ih (except_map_eq_error.1 h)
          obtain ⟨hresult', hselector', htiled'⟩ := selectAll_cons_ok hselect before
          refine ⟨i :: before, j, rest, tile?.toList ++ tiles, rfl, ?_, ?_, ?_⟩
          · rw [hresult', hbefore]
            rfl
          · rw [hselector', hrefused]
          · rw [htiled, htiled', hsame]

theorem covers_after (selector : Selector σ) (request : Request) (id : NodeId) :
    (selector.after request).covers id = true ↔
      selector.covers id = true ∨ ∃ entry ∈ selector.given request, id ∈ entry.1.ids := by
  cases request with
  | select i =>
      rw [after, covers_select, given]
      refine or_congr_right ?_
      split
      · rename_i tile hresult
        simp [hresult]
      · rename_i hnone
        exact iff_of_false (fun ⟨tile, hresult, _⟩ => hnone tile hresult) (by simp)
  | tile f => exact covers_selectAll f.body

theorem covers_run (selector : Selector σ) (requests : List Request) (id : NodeId) :
    (selector.run requests).covers id = true ↔
      selector.covers id = true ∨ ∃ entry ∈ selector.history requests, id ∈ entry.1.ids := by
  induction requests generalizing selector with
  | nil => simp [run, history]
  | cons request requests ih =>
      have hrest := ih (selector.after request)
      rw [covers_after, or_assoc] at hrest
      simp only [history, List.mem_append, or_and_right, exists_or]
      exact hrest

theorem select_eq_none_iff (selector : Selector σ) (i : Instruction) :
    (selector.select i).result = .ok none ↔ selector.covers i.id = true := by
  have hstep := select_selects selector i
  generalize selector.select i = selection at hstep
  cases hstep with
  | skip hid | refuse hid | tile hid => simp [hid]

theorem selector_of_select_none (h : (selector.select i).result = .ok none) :
    (selector.select i).selector = selector := by
  have hstep := select_selects selector i
  generalize selector.select i = selection at hstep h
  cases hstep with
  | skip => rfl
  | refuse | tile => cases h

theorem covered_of_select_error {e : TileError} (h : (selector.select i).result = .error e) :
    (selector.select i).selector.covered = selector.covered := by
  have hstep := select_selects selector i
  generalize selector.select i = selection at hstep h
  cases hstep with
  | refuse => rfl
  | skip | tile => cases h

/-- The covered ids are those of the instructions with tiles, and every next request is answered by
them: an instruction is skipped if its own id is covered, an instruction that is skipped or refused
adds no ids, and a body that is refused adds those of the instructions before the refused one. -/
structure Exact (selector : Selector σ) (history : List (Instruction × Tile)) : Prop where
  covers : ∀ id, selector.covers id = true ↔ ∃ entry ∈ history, id ∈ entry.1.ids
  skips : ∀ i, (selector.select i).result = .ok none ↔ selector.covers i.id = true
  skipped : ∀ i, (selector.select i).result = .ok none → (selector.select i).selector = selector
  refused : ∀ i e, (selector.select i).result = .error e →
    (selector.select i).selector.covered = selector.covered
  tiles : ∀ (f : Function) (tiles : List Tile), (selector.selectAll f.body).result = .ok tiles →
    (selector.tiled f.body).map Prod.snd = tiles
  refusedBody : ∀ (f : Function) (e : TileError), (selector.selectAll f.body).result = .error e →
    ∃ before i rest tiles, f.body = before ++ i :: rest ∧
      (selector.selectAll before).result = .ok tiles ∧
      ((selector.selectAll before).selector.select i).result = .error e ∧
      (selector.tiled before).map Prod.snd = tiles ∧
      ∀ id, (selector.selectAll f.body).selector.covers id = true ↔
        selector.covers id = true ∨ ∃ entry ∈ selector.tiled before, id ∈ entry.1.ids

/-- Whatever a selector has been asked for, it covers the ids of the nodes of the instructions for
which it has given tiles. -/
theorem exact_run (supply : LabelSupply σ) (requests : List Request) :
    Exact ((ofSupply supply).run requests) ((ofSupply supply).history requests) where
  covers := by
    intro id
    rw [covers_run]
    exact or_iff_right (by simp [ofSupply, Selector.covers])
  skips := select_eq_none_iff _
  skipped := fun _ => selector_of_select_none
  refused := fun _ _ => covered_of_select_error
  tiles := fun _ _ => tiled_of_selectAll
  refusedBody := by
    intro f e herror
    obtain ⟨before, i, rest, tiles, hbody, hbefore, hrefused, hsame⟩ := selectAll_eq_error herror
    refine ⟨before, i, rest, tiles, hbody, hbefore, hrefused, tiled_of_selectAll hbefore, ?_⟩
    intro id
    rw [covers_selectAll, hsame]

/-- A jump that shares its id with a variable is skipped, and the assignment of a runtime function
is refused twice. -/
theorem exact_run_shared :
    let copy : Instruction := .assign ⟨2, .var ⟨0, "x"⟩, .atom (.var ⟨1, "y"⟩)⟩
    let jump : Instruction := .goto ⟨1, ⟨7, ":l"⟩⟩
    let wrong : Instruction := .assign ⟨5, .var ⟨3, "x"⟩, .atom (.runtime ⟨4, .print⟩)⟩
    let function : Function := ⟨⟨8, ":f"⟩, [], [jump, .label ⟨6, ":l"⟩, wrong, .returnVoid 9]⟩
    let requests : List Request := [.select copy, .select wrong, .tile function]
    ∀ id, ((ofSupply (.ofStem "z")).run requests).covers id = true ↔ id ∈ [2, 0, 1, 6] := by
  intro copy jump wrong function requests id
  have hhistory : (ofSupply (.ofStem "z")).history requests
      = [(copy, .assign "x" (.var "y")), (.label ⟨6, ":l"⟩, .label ":l")] := by decide
  rw [(exact_run (.ofStem "z") requests).covers, hhistory]
  simp [copy, Instruction.ids, Target.ids, Expression.ids, Atom.id, or_assoc]

end Selector

end L3Lowering
