import L3Lowering.Proofs.Grammatical
import L3Lowering.Proofs.Tiling

namespace L3Lowering

/-- The node has one of the `size` ids from `id` on. -/
def Node.Within (id : NodeId) (size : Nat) (node : Node) : Prop :=
  ∃ k < size, node.id = id + .ofNat k

theorem Node.Within.shift {id : NodeId} {size total : Nat} {node : Node} (offset : Nat)
    (h : Node.Within (id + .ofNat offset) size node) (hle : offset + size ≤ total) :
    Node.Within id total node := by
  obtain ⟨k, hk, hid⟩ := h
  refine ⟨offset + k, by omega, ?_⟩
  rw [hid, UInt32.ofNat_add, UInt32.add_assoc]

theorem Node.Within.mono {id : NodeId} {size total : Nat} {node : Node}
    (h : Node.Within id size node) (hle : size ≤ total) : Node.Within id total node := by
  obtain ⟨k, hk, hid⟩ := h
  exact ⟨k, by omega, hid⟩

theorem Node.within_one {id : NodeId} {node : Node} (h : node.id = id) : node.Within id 1 :=
  ⟨0, Nat.one_pos, by rw [h]; simp⟩

theorem Atom.within_nodes {atom : Atom} {node : Node} (h : node ∈ atom.nodes) :
    node.Within atom.id 1 := by
  apply Node.within_one
  cases atom with
  | literal n =>
      obtain rfl := List.mem_singleton.1 h
      rfl
  | var | label | runtime =>
      simp only [nodes, List.mem_cons, List.not_mem_nil, or_false] at h
      rcases h with rfl | rfl <;> rfl

namespace Phrase

variable {id : NodeId} {node : Node}

theorem Operand.id_build (x : Operand) (id : NodeId) : (x.build id).id = id := by
  cases x <;> rfl

theorem Value.id_build (x : Value) (id : NodeId) : (x.build id).id = id := by
  rcases x with (_ | _) | _ <;> rfl

theorem Operand.within_build (x : Operand) (h : node ∈ (x.build id).nodes) : node.Within id 1 :=
  x.id_build id ▸ Atom.within_nodes h

theorem Value.within_build (x : Value) (h : node ∈ (x.build id).nodes) : node.Within id 1 :=
  x.id_build id ▸ Atom.within_nodes h

theorem Callee.within_build (x : Callee) (h : node ∈ (x.build id).nodes) : node.Within id 1 := by
  apply Node.within_one
  cases x with
  | var | label | runtime =>
      obtain rfl := List.mem_singleton.1 h
      rfl

theorem call_within (x : Call) (h : node ∈ (call.build id x).nodes) :
    node.Within id (call.size x) := by
  have hsize : call.size x = 1 + argument.enclosed.size x.arguments + 1 := rfl
  rcases List.mem_cons.1 h with rfl | h
  · exact ⟨1 + argument.enclosed.size x.arguments, Nat.lt_succ_self _, rfl⟩
  rcases List.mem_append.1 h with h | h
  · exact (x.callee.within_build h).mono (by omega)
  · obtain ⟨a, ha, h⟩ := List.mem_flatMap.1 h
    obtain ⟨v, -, offset, hle, rfl⟩ := Category.mem_buildFrom ha
    have hwithin := (v.within_build h).shift offset hle
    exact hwithin.shift 1 (Nat.le_succ _)

theorem rightHandSide_within (x : RightHandSide) (h : node ∈ (rightHandSide.build id x).nodes) :
    node.Within id (rightHandSide.size x) := by
  cases x with
  | value v =>
      rcases List.mem_cons.1 h with rfl | h
      · exact Node.within_one (v.id_build id)
      · exact v.within_build h
  | operation op lhs rhs =>
      have hsize : rightHandSide.size (.operation op lhs rhs) = 3 := rfl
      have hid := Binop.id_ofWritten (id + 2) op (lhs.build id) (rhs.build (id + 1))
      rcases List.mem_cons.1 h with rfl | h
      · exact ⟨2, by omega, hid⟩
      rcases Binop.mem_nodes_ofWritten h with rfl | h | h
      · exact ⟨2, by omega, hid⟩
      · exact (lhs.within_build h).mono (by omega)
      · exact (rhs.within_build h).shift 1 (by omega)
  | load address =>
      have hsize : rightHandSide.size (.load address) = 2 := rfl
      simp only [rightHandSide, Expression.nodes, Load.nodes, List.mem_cons, List.not_mem_nil,
        or_false] at h
      rcases h with rfl | rfl | rfl
      · exact ⟨1, by omega, rfl⟩
      · exact ⟨1, by omega, rfl⟩
      · exact (Node.within_one rfl).mono (by omega)
  | call c =>
      have hcall : Node.Within id (call.size c) (.call (call.build id c)) :=
        call_within c List.mem_cons_self
      rcases List.mem_cons.1 h with rfl | h
      · exact hcall
      · exact call_within c h

theorem instruction_within (x : Instruction) (h : node ∈ (instruction.build id x).nodes) :
    node.Within id (instruction.size x) := by
  cases x with
  | label name =>
      simp only [instruction, L3Lowering.Instruction.nodes, List.mem_cons, List.not_mem_nil,
        or_false] at h
      rcases h with rfl | rfl <;> exact Node.within_one rfl
  | assign target value =>
      have hsize : instruction.size (.assign target value) = 1 + rightHandSide.size value + 1 := rfl
      rcases List.mem_cons.1 h with rfl | h
      · exact ⟨1 + rightHandSide.size value, by omega, rfl⟩
      rcases List.mem_cons.1 h with rfl | h
      · exact ⟨1 + rightHandSide.size value, by omega, rfl⟩
      rcases List.mem_append.1 h with h | h
      · obtain rfl := List.mem_singleton.1 h
        exact (Node.within_one rfl).mono (by omega)
      · exact (rightHandSide_within value h).shift 1 (by omega)
  | store address v =>
      have hsize : instruction.size (.store address v) = 4 := rfl
      simp only [instruction, L3Lowering.Instruction.nodes, Assignment.nodes, Target.nodes,
        Store.nodes, Expression.nodes, List.mem_cons, List.mem_append, List.not_mem_nil,
        or_false] at h
      rcases h with rfl | rfl | (rfl | rfl) | rfl | h
      · exact ⟨3, by omega, rfl⟩
      · exact ⟨3, by omega, rfl⟩
      · exact ⟨1, by omega, rfl⟩
      · exact (Node.within_one rfl).mono (by omega)
      · exact ⟨2, by omega, v.id_build (id + 2)⟩
      · exact (v.within_build h).shift 2 (by omega)
  | goto target =>
      have hsize : instruction.size (.goto target) = 2 := rfl
      simp only [instruction, L3Lowering.Instruction.nodes, Goto.nodes, List.mem_cons,
        List.not_mem_nil, or_false] at h
      rcases h with rfl | rfl | rfl
      · exact ⟨1, by omega, rfl⟩
      · exact ⟨1, by omega, rfl⟩
      · exact (Node.within_one rfl).mono (by omega)
  | branch condition onTrue onFalse =>
      have hsize : instruction.size (.branch condition onTrue onFalse) = 4 := rfl
      simp only [instruction, L3Lowering.Instruction.nodes, Branch.nodes, List.mem_cons,
        List.not_mem_nil, or_false] at h
      rcases h with rfl | rfl | rfl | rfl | rfl
      · exact ⟨3, by omega, rfl⟩
      · exact ⟨3, by omega, rfl⟩
      · exact (Node.within_one rfl).mono (by omega)
      · exact ⟨1, by omega, rfl⟩
      · exact ⟨2, by omega, rfl⟩
  | returnValue o =>
      have hsize : instruction.size (.returnValue o) = 2 := rfl
      rcases List.mem_cons.1 h with rfl | h
      · exact ⟨1, by omega, rfl⟩
      · exact (o.within_build h).mono (by omega)
  | returnVoid =>
      obtain rfl := List.mem_singleton.1 h
      exact Node.within_one rfl
  | call c =>
      have hcall : Node.Within id (call.size c) (.call (call.build id c)) :=
        call_within c List.mem_cons_self
      rcases List.mem_cons.1 h with rfl | h
      · exact hcall
      · exact call_within c h

theorem Category.size_many_le {φ α : Type} (category : Category φ α)
    (h : ∀ x, category.size x ≤ (category.words x).length) (xs : List φ) :
    category.many.size xs ≤ (category.many.words xs).length := by
  induction xs with
  | nil => exact Nat.le_refl 0
  | cons x xs ih =>
      rw [words_many_cons, List.length_append]
      exact Nat.add_le_add (h x) ih

theorem Category.size_enclosed_le {φ α : Type} (category : Category φ α)
    (h : ∀ x, category.size x ≤ (category.words x).length) (xs : List φ) :
    category.enclosed.size xs + 2 ≤ (category.enclosed.words xs).length := by
  have hcomma (x : φ) : category.afterComma.size x ≤ (category.afterComma.words x).length :=
    Nat.le_succ_of_le (h x)
  have hseparated : category.enclosed.size xs ≤ (category.separated.words xs).length := by
    cases xs with
    | nil => exact Nat.le_refl 0
    | cons x xs =>
        rw [separated, List.length_append]
        exact Nat.add_le_add (h x) (size_many_le category.afterComma hcomma xs)
  have hlength : (category.enclosed.words xs).length = (category.separated.words xs).length + 2 := by
    simp [enclosed]
  omega

theorem call_size_le (x : Call) : call.size x ≤ (call.words x).length := by
  have harguments := argument.size_enclosed_le (fun _ => Nat.le_refl 1) x.arguments
  simp only [call, List.length_cons]
  omega

theorem rightHandSide_size_le (x : RightHandSide) :
    rightHandSide.size x ≤ (rightHandSide.words x).length := by
  cases x with
  | call c => exact Nat.le_succ_of_le (call_size_le c)
  | value | operation | load => exact Nat.le_refl _

theorem instruction_size_le (x : Instruction) :
    instruction.size x ≤ (instruction.words x).length := by
  cases x with
  | assign target value =>
      have hvalue := rightHandSide_size_le value
      simp only [instruction, List.length_cons]
      omega
  | call c => exact Nat.le_succ_of_le (call_size_le c)
  | label | store | goto | branch | returnValue | returnVoid => exact Nat.le_refl _

theorem function_size_le (x : Function) : function.size x ≤ (function.words x).length := by
  have hparameters := parameter.size_enclosed_le (fun _ => Nat.le_refl 1) x.parameters
  have hbody := instruction.size_many_le instruction_size_le x.body
  simp only [function, List.length_cons, List.length_append]
  omega

theorem ofNat_add_inj {base : NodeId} {m n : Nat} (hm : m < UInt32.size) (hn : n < UInt32.size)
    (h : base + .ofNat m = base + .ofNat n) : m = n := by
  have heq := (UInt32.add_right_inj base).1 h
  rw [← UInt32.toNat_ofNat_of_lt' hm, heq, UInt32.toNat_ofNat_of_lt' hn]

theorem fresh_body (base : NodeId) (xs : List Instruction) (start : Nat) (covered : List NodeId)
    (hcovered : ∀ id ∈ covered, ∃ k < start, id = base + .ofNat k)
    (hle : start + instruction.many.size xs ≤ UInt32.size) :
    Instruction.Fresh covered (instruction.many.build (base + .ofNat start) xs) := by
  induction xs generalizing start covered with
  | nil => trivial
  | cons x xs ih =>
      have hsize : instruction.many.size (x :: xs)
          = instruction.size x + instruction.many.size xs := rfl
      have hwithin (node : Node) (hnode : node ∈ (instruction.build (base + .ofNat start) x).nodes) :
          ∃ k, start ≤ k ∧ k < start + instruction.size x ∧ node.id = base + .ofNat k := by
        obtain ⟨k, hk, hid⟩ := instruction_within x hnode
        refine ⟨start + k, by omega, by omega, ?_⟩
        rw [hid, UInt32.ofNat_add, UInt32.add_assoc]
      have hbuild : instruction.many.build (base + .ofNat start) (x :: xs)
          = instruction.build (base + .ofNat start) x ::
            instruction.many.build (base + .ofNat (start + instruction.size x)) xs := by
        rw [UInt32.ofNat_add, ← UInt32.add_assoc]
        rfl
      rw [hbuild]
      refine ⟨?_, ih (start + instruction.size x) _ ?_ (by omega)⟩
      · -- Below `2 ^ 32` different offsets from `base` are different ids.
        intro hmem
        obtain ⟨k, hk, hid⟩ := hcovered _ hmem
        obtain ⟨j, hj, hlt, hid'⟩ := hwithin _ List.mem_cons_self
        have hsame : k = j := ofNat_add_inj (by omega) (by omega) (hid.symm.trans hid')
        omega
      · intro id hid
        rcases List.mem_append.1 hid with hid | hid
        · obtain ⟨node, hnode, rfl⟩ := List.mem_map.1 hid
          obtain ⟨k, -, hlt, hk⟩ := hwithin node hnode
          exact ⟨k, hlt, hk⟩
        · obtain ⟨k, hk, rfl⟩ := hcovered id hid
          exact ⟨k, by omega, rfl⟩

end Phrase

theorem Source.fresh_of_parse {source : Source} {program : Program}
    (h : source.parse = .ok program) (hsize : source.tokens.length ≤ UInt32.size) :
    ∀ function ∈ program.functions, Instruction.Fresh [] function.body := by
  obtain ⟨xs, -, -, rfl, hwords, -⟩ := Program.phrases_of_ofTokens h
  intro function hfunction
  obtain ⟨x, hx, offset, hle, rfl⟩ := Phrase.Category.mem_buildFrom hfunction
  have htotal := Phrase.function.size_many_le Phrase.function_size_le xs
  rw [← hwords, List.length_map] at htotal
  have hbody : Phrase.instruction.many.size x.body ≤ Phrase.function.size x := Nat.le_add_left _ _
  have hroom : Phrase.instruction.many.size x.body ≤ UInt32.size := by
    have hmany : offset + Phrase.function.size x ≤ Phrase.function.many.size xs := hle
    omega
  have hfresh := Phrase.fresh_body (0 + .ofNat offset +
    .ofNat (1 + Phrase.parameter.enclosed.size x.parameters)) x.body 0 [] (by simp) (by omega)
  have hzero : UInt32.ofNat 0 = 0 := rfl
  rwa [hzero, UInt32.add_zero] at hfresh

variable (calls : CallScope) (rename : String → String)

theorem Atom.ids_mapLabels (atom : Atom) :
    (atom.mapLabels rename).nodes.map Node.id = atom.nodes.map Node.id := by
  cases atom <;> rfl

theorem Call.ids_mapLabels (call : Call) :
    (call.mapLabels calls rename).nodes.map Node.id = call.nodes.map Node.id := by
  cases calls with
  | enter =>
      have hcallee : (call.callee.mapLabels rename).nodes.map Node.id
          = call.callee.nodes.map Node.id := by
        cases call.callee <;> rfl
      simp only [mapLabels, nodes, List.map_cons, List.map_append, hcallee, List.flatMap_map,
        List.map_flatMap, Atom.ids_mapLabels]
      rfl
  | skip => rfl

theorem Expression.ids_mapLabels (value : Expression) :
    (value.mapLabels calls rename).nodes.map Node.id = value.nodes.map Node.id := by
  cases value with
  | atom a => cases a <;> rfl
  | binop b =>
      simp only [mapLabels, Binop.mapLabels, nodes, Binop.nodes, List.map_cons, List.map_append,
        Atom.ids_mapLabels]
      rfl
  | load l => rfl
  | call c =>
      have hid : (c.mapLabels calls rename).id = c.id := by
        cases calls <;> rfl
      exact congrArg₂ List.cons hid (c.ids_mapLabels calls rename)

theorem Instruction.ids_mapLabels (instruction : Instruction) :
    (instruction.mapLabels calls rename).nodes.map Node.id = instruction.nodes.map Node.id := by
  cases instruction with
  | assign a =>
      simp only [mapLabels, nodes, Assignment.nodes, List.map_cons, List.map_append,
        Expression.ids_mapLabels]
      rfl
  | call c =>
      have hid : (c.mapLabels calls rename).id = c.id := by
        cases calls <;> rfl
      exact congrArg₂ List.cons hid (c.ids_mapLabels calls rename)
  | returnValue id value => exact congrArg (List.cons id) (value.ids_mapLabels rename)
  | goto | branch | returnVoid | label => rfl

theorem Instruction.id_mapLabels (instruction : Instruction) :
    (instruction.mapLabels calls rename).id = instruction.id :=
  (List.cons.inj (instruction.ids_mapLabels calls rename)).1

theorem Instruction.Fresh.mapLabels {covered : List NodeId} {body : List Instruction}
    (h : Instruction.Fresh covered body) :
    Instruction.Fresh covered (body.map (Instruction.mapLabels calls rename)) := by
  induction body generalizing covered with
  | nil => trivial
  | cons i is ih =>
      refine ⟨?_, ?_⟩
      · rw [Instruction.id_mapLabels]
        exact h.1
      · rw [Instruction.ids_mapLabels]
        exact ih h.2

theorem Program.fresh_scopeLabels {program : Program}
    (h : ∀ function ∈ program.functions, Instruction.Fresh [] function.body) :
    ∀ function ∈ program.scopeLabels.functions, Instruction.Fresh [] function.body := by
  intro function hfunction
  obtain ⟨place, hplace, rfl⟩ := List.mem_mapIdx.1 hfunction
  exact (h _ (List.getElem_mem hplace)).mapLabels _ _

end L3Lowering
