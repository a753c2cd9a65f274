import L3Lowering.Proofs.SelectionRun
import Mathlib.Data.List.Perm.Basic

namespace L3Lowering

/-- Whether the id is the node's own, and not that of a node listed after it. -/
def Node.carriesId : Node → Bool
  | .instruction (.returnValue ..) => true
  | .instruction (.returnVoid _) => true
  | .instruction _ => false
  | .expression _ => false
  | .atom (.literal _) => true
  | .atom _ => false
  | _ => true

def Program.carriers (program : Program) : List Node :=
  (program.functions.flatMap Function.nodes).filter Node.carriesId

def idsFrom (id : NodeId) (size : Nat) : List NodeId :=
  (List.range size).map fun k => id + .ofNat k

/-- The nodes that carry ids carry the `size` ids from `id` on, in some order. -/
def Node.Numbered (id : NodeId) (size : Nat) (nodes : List Node) : Prop :=
  ((nodes.filter carriesId).map Node.id).Perm (idsFrom id size)

theorem idsFrom_add (id : NodeId) (m n : Nat) :
    idsFrom id (m + n) = idsFrom id m ++ idsFrom (id + .ofNat m) n := by
  simp [idsFrom, List.range_add, Function.comp_def, UInt32.ofNat_add, UInt32.add_assoc]

theorem idsFrom_succ (id : NodeId) (n : Nat) :
    idsFrom id (n + 1) = idsFrom id n ++ [id + .ofNat n] := by
  rw [idsFrom, List.range_succ, List.map_append]
  rfl

theorem map_toNat_idsFrom {n : Nat} (h : n ≤ UInt32.size) :
    (idsFrom 0 n).map UInt32.toNat = List.range n := by
  have hid : ∀ k ∈ List.range n, (UInt32.toNat ∘ fun k => 0 + .ofNat k) k = k := by
    intro k hk
    have hlt : k < UInt32.size := Nat.lt_of_lt_of_le (List.mem_range.1 hk) h
    rw [Function.comp_apply, UInt32.zero_add, UInt32.toNat_ofNat_of_lt' hlt]
  rw [idsFrom, List.map_map, List.map_congr_left hid, List.map_id'']
  intro k
  rfl

namespace Node.Numbered

variable {id : NodeId} {m n : Nat} {node : Node} {nodes others : List Node}

theorem nil (id : NodeId) : Numbered id 0 [] :=
  List.Perm.nil

theorem append (h : Numbered id m nodes) (h' : Numbered (id + .ofNat m) n others) :
    Numbered id (m + n) (nodes ++ others) := by
  rw [Numbered, List.filter_append, List.map_append, idsFrom_add]
  exact List.Perm.append h h'

theorem of_perm (h : Numbered id n nodes) (hperm : others.Perm nodes) : Numbered id n others :=
  ((hperm.filter _).map _).trans h

theorem above (h : Numbered id n nodes) (hcarries : node.carriesId = true)
    (hid : node.id = id + .ofNat n) : Numbered id (n + 1) (node :: nodes) := by
  rw [Numbered, List.filter_cons_of_pos hcarries, List.map_cons, hid, idsFrom_succ]
  exact (h.cons _).trans (List.perm_append_singleton _ _).symm

theorem around (h : Numbered id n nodes) (hcarries : node.carriesId = false) :
    Numbered id n (node :: nodes) := by
  rw [Numbered, List.filter_cons_of_neg (by simp [hcarries])]
  exact h

theorem leaf (hcarries : node.carriesId = true) (hid : node.id = id) : Numbered id 1 [node] :=
  (nil id).above hcarries (hid.trans (UInt32.add_zero id).symm)

end Node.Numbered

theorem Atom.numbered_nodes (atom : Atom) : Node.Numbered atom.id 1 atom.nodes := by
  cases atom with
  | literal n => exact .leaf rfl rfl
  | var | label | runtime =>
      apply Node.Numbered.around
      · exact .leaf rfl rfl
      · rfl

namespace Phrase

open Node (Numbered)

theorem Category.numbered_many {φ α : Type} (category : Category φ α) {nodes : α → List Node}
    (h : ∀ id x, Numbered id (category.size x) (nodes (category.build id x))) (id : NodeId)
    (xs : List φ) :
    Numbered id (category.many.size xs) ((category.many.build id xs).flatMap nodes) := by
  induction xs generalizing id with
  | nil => exact .nil id
  | cons x xs ih =>
      have hbuild : category.many.build id (x :: xs) = category.build id x ::
          category.many.build (id + .ofNat (category.size x)) xs := rfl
      rw [hbuild, List.flatMap_cons]
      exact (h id x).append (ih _)

theorem Operand.numbered (id : NodeId) (x : Operand) : Numbered id 1 (x.build id).nodes := by
  have h := (x.build id).numbered_nodes
  rwa [x.id_build] at h

theorem Value.numbered (id : NodeId) (x : Value) : Numbered id 1 (x.build id).nodes := by
  have h := (x.build id).numbered_nodes
  rwa [x.id_build] at h

theorem Callee.numbered (id : NodeId) (x : Callee) : Numbered id 1 (x.build id).nodes := by
  cases x <;> exact .leaf rfl rfl

theorem call_numbered (id : NodeId) (x : Call) :
    Numbered id (call.size x) (call.build id x).nodes := by
  have harguments : Numbered (id + 1) (argument.enclosed.size x.arguments)
      ((argument.enclosed.build (id + 1) x.arguments).flatMap Atom.nodes) :=
    argument.numbered_many Value.numbered (id + 1) x.arguments
  exact ((x.callee.numbered id).append harguments).above rfl rfl

theorem rightHandSide_numbered (id : NodeId) (x : RightHandSide) :
    Numbered id (rightHandSide.size x) (rightHandSide.build id x).nodes := by
  apply Node.Numbered.around _ rfl
  cases x with
  | value v => exact v.numbered id
  | operation op lhs rhs =>
      have hoperands : Numbered id 2 ((lhs.build id).nodes ++ (rhs.build (id + 1)).nodes) :=
        (lhs.numbered id).append (rhs.numbered (id + 1))
      -- A comparison that is turned around lists its operands the other way round.
      cases op with
      | greater | greaterEqual =>
          have hswap := hoperands.of_perm List.perm_append_comm
          exact hswap.above rfl rfl
      | arithmetic | comparison => exact hoperands.above rfl rfl
  | load address =>
      have hleaf : Numbered id 1 [.var ⟨id, address⟩] := .leaf rfl rfl
      exact hleaf.above rfl rfl
  | call c => exact call_numbered id c

theorem instruction_numbered (id : NodeId) (x : Instruction) :
    Numbered id (instruction.size x) (instruction.build id x).nodes := by
  have hvar (id : NodeId) (name : String) : Numbered id 1 [.var ⟨id, name⟩] := .leaf rfl rfl
  have hlabel (id : NodeId) (name : String) : Numbered id 1 [.label ⟨id, name⟩] := .leaf rfl rfl
  cases x with
  | label name => exact (hlabel id name).around rfl
  | assign target value =>
      have hparts := (hvar id target).append (rightHandSide_numbered (id + 1) value)
      exact (hparts.above rfl rfl).around rfl
  | store address v =>
      have htarget : Numbered id 2 [.store ⟨id + 1, ⟨id, address⟩⟩, .var ⟨id, address⟩] :=
        (hvar id address).above rfl rfl
      have hvalue : Numbered (id + 2) 1 (Expression.atom (v.build (id + 2))).nodes :=
        (v.numbered (id + 2)).around rfl
      exact ((htarget.append hvalue).above rfl rfl).around rfl
  | goto target => exact ((hlabel id target).above rfl rfl).around rfl
  | branch condition onTrue onFalse =>
      have htrue : Numbered id 2 [.var ⟨id, condition⟩, .label ⟨id + 1, onTrue⟩] :=
        (hvar id condition).append (hlabel (id + 1) onTrue)
      have hfalse := htrue.append (hlabel (id + 2) onFalse)
      exact (hfalse.above rfl rfl).around rfl
  | returnValue o => exact (o.numbered id).above rfl rfl
  | returnVoid => exact .leaf rfl rfl
  | call c => exact (call_numbered id c).around rfl

theorem function_numbered (id : NodeId) (x : Function) :
    Numbered id (function.size x) (function.build id x).nodes := by
  have hname : Numbered id 1 [.label ⟨id, x.name⟩] := .leaf rfl rfl
  have hparameters : Numbered (id + 1) (parameter.enclosed.size x.parameters)
      ((parameter.enclosed.build (id + 1) x.parameters).map Node.var) := by
    rw [List.map_eq_flatMap]
    apply parameter.numbered_many
    intro id name
    exact .leaf rfl rfl
  have hbody := instruction.numbered_many instruction_numbered
    (id + .ofNat (1 + parameter.enclosed.size x.parameters)) x.body
  exact (hname.append hparameters).append hbody

end Phrase

theorem Program.carriers_of_ofTokens {tokens : List Token} {program : Program}
    (h : Program.ofTokens tokens = .ok program) (hsize : tokens.length ≤ UInt32.size) :
    program.carriers.length ≤ tokens.length ∧
      (program.carriers.map fun node => node.id.toNat).Perm
        (List.range program.carriers.length) := by
  obtain ⟨xs, -, -, rfl, hwords, -⟩ := Program.phrases_of_ofTokens h
  have hnumbered := Phrase.function.numbered_many Phrase.function_numbered 0 xs
  have hlength := hnumbered.length_eq
  rw [List.length_map, idsFrom, List.length_map, List.length_range] at hlength
  have htotal := Phrase.function.size_many_le Phrase.function_size_le xs
  rw [← hwords, List.length_map] at htotal
  constructor
  · exact hlength.trans_le htotal
  · have hids := hnumbered.map UInt32.toNat
    rw [List.map_map, map_toNat_idsFrom (htotal.trans hsize), ← hlength] at hids
    exact hids

theorem Selector.selectAll_lowers {σ : Type} {body : List Instruction} {supply : LabelSupply σ}
    (h : ∀ i ∈ body, i.isGrammatical = true) (hfresh : Instruction.Fresh [] body)
    (hsupply : supply.GivesLabels) :
    ∃ tiles, ((ofSupply supply).selectAll body).result = .ok tiles ∧
      tiles.length = body.length ∧ ∀ k instruction, body[k]? = some instruction →
        ∃ tile, tiles[k]? = some tile ∧
          Tile.Lowers (supply.label (Instruction.callCounts (body.take k))) instruction tile := by
  obtain ⟨tiles, hresult, hrun⟩ := selectAll_run h hsupply hfresh
  exact ⟨tiles, hresult, hrun.length_eq, fun k instruction => hrun.lowers⟩

/-- In a text of at most `2 ^ 32` tokens, `N` nodes have the ids `0` to `N - 1`, each once. The body
of each function, in its scope or not, is covered by one tile for each instruction, in order, with
the labels of any supply that has the `:` of its labels. -/
theorem Source.nodes_numbered_and_tiled (source : Source) (program : Program)
    (h : source.parse = .ok program) (hsize : source.tokens.length ≤ UInt32.size) :
    program.carriers.length ≤ source.tokens.length ∧
      (program.carriers.map fun node => node.id.toNat).Perm
        (List.range program.carriers.length) ∧
      ∀ stage ∈ [program, program.scopeLabels], ∀ function ∈ stage.functions,
        ∀ (σ : Type) (supply : LabelSupply σ), supply.GivesLabels →
          ∃ tiles, ((Selector.ofSupply supply).selectAll function.body).result = .ok tiles ∧
            tiles.length = function.body.length ∧
            ∀ k instruction, function.body[k]? = some instruction →
              ∃ tile, tiles[k]? = some tile ∧
                Tile.Lowers (supply.label (Instruction.callCounts (function.body.take k)))
                  instruction tile := by
  have hgrammatical := grammatical_of_parse h
  have hfresh := fresh_of_parse h hsize
  obtain ⟨hcount, hids⟩ := Program.carriers_of_ofTokens h hsize
  refine ⟨hcount, hids, ?_⟩
  intro stage hstage function hfunction σ supply hsupply
  simp only [List.mem_cons, List.not_mem_nil, or_false] at hstage
  rcases hstage with rfl | rfl
  · exact Selector.selectAll_lowers (hgrammatical.shapes function hfunction)
      (hfresh function hfunction) hsupply
  · exact Selector.selectAll_lowers (hgrammatical.scopeLabels_shapes function hfunction)
      (Program.fresh_scopeLabels hfresh function hfunction) hsupply

/-- Ten nodes, and two tiles, the second with the first return label. -/
theorem Source.nodes_numbered_and_tiled_two :
    let source := Source.ofString "define :f(x) \x7b x <- x > -1 call :f(x) \x7d"
    ∃ program : Program, source.parse = .ok program ∧
      (program.carriers.map fun node => node.id.toNat).Perm (List.range 10) ∧
      ∀ function ∈ program.functions, ∃ tile tile',
        ((Selector.ofSupply (.ofStem "z")).selectAll function.body).result = .ok [tile, tile'] ∧
          Tile.Lowers (LabelSupply.returnLabel "z" 0)
            (.call ⟨9, .label ⟨7, ":f"⟩, [.var ⟨8, "x"⟩]⟩) tile' := by
  intro source
  have hparse : source.parse = .ok ⟨[⟨⟨0, ":f"⟩, [⟨1, "x"⟩],
      [.assign ⟨6, .var ⟨2, "x"⟩,
          .binop ⟨5, .comparison .less, .literal ⟨4, -1⟩, .var ⟨3, "x"⟩⟩⟩,
        .call ⟨9, .label ⟨7, ":f"⟩, [.var ⟨8, "x"⟩]⟩]⟩]⟩ := by
    decide +kernel
  obtain ⟨-, hids, htiles⟩ := nodes_numbered_and_tiled source _ hparse (by decide +kernel)
  refine ⟨_, hparse, hids, ?_⟩
  intro function hfunction
  obtain ⟨tiles, hresult, hlength, htile⟩ := htiles _ List.mem_cons_self function hfunction
    Nat (.ofStem "z") (LabelSupply.givesLabels_counted "z" 0)
  obtain rfl := List.mem_singleton.1 hfunction
  obtain ⟨tile, tile', rfl⟩ := List.length_eq_two.1 hlength
  obtain ⟨second, hsecond, hlowers⟩ := htile 1 _ rfl
  obtain rfl : tile' = second := Option.some.inj hsecond
  exact ⟨tile, tile', hresult, hlowers⟩

end L3Lowering
