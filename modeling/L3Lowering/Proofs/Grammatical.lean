import L3Lowering.Proofs.ProgramReading
import L3Lowering.Proofs.ScopedNames
import L3Lowering.Proofs.Spelling

namespace L3Lowering

def Atom.isOperand : Atom → Bool
  | .var _ => true
  | .literal _ => true
  | _ => false

def Atom.isValue : Atom → Bool
  | .runtime _ => false
  | _ => true

/-- Whether the operator is one that operations keep: `>` and `>=` are exchanged for others. -/
def Operator.isKept : Operator → Bool
  | .greater => false
  | .greaterEqual => false
  | _ => true

def Expression.isGrammatical : Expression → Bool
  | .atom a => a.isValue
  | .binop b => b.lhs.isOperand && b.rhs.isOperand && b.operator.isKept
  | .load _ => true
  | .call c => c.arguments.all Atom.isValue

def Instruction.isGrammatical : Instruction → Bool
  | .assign ⟨_, .var _, value⟩ => value.isGrammatical
  | .assign ⟨_, .store _, .atom a⟩ => a.isValue
  | .assign ⟨_, .store _, _⟩ => false
  | .call c => c.arguments.all Atom.isValue
  | .returnValue _ value => value.isOperand
  | _ => true

def Node.isNamed : Node → Bool
  | .var v => isVarName v.name
  | .label l => isLabelWord l.name
  | _ => true

structure Program.Grammatical (program : Program) : Prop where
  nonempty : program.functions ≠ []
  shapes : ∀ function ∈ program.functions, ∀ instruction ∈ function.body,
    instruction.isGrammatical = true
  names : ∀ function ∈ program.functions, ∀ node ∈ function.nodes, node.isNamed = true
  calls : ∀ function ∈ program.functions, ∀ label ∈ function.callLabels,
    label.name ∈ program.functionNames

theorem Program.Grammatical.scopable {program : Program} (h : program.Grammatical) :
    program.Scopable where
  named := by
    intro label hlabel
    obtain ⟨function, hfunction, hnodes⟩ := List.mem_flatMap.1 hlabel
    obtain ⟨node, hnode, heq⟩ := List.mem_filterMap.1 hnodes
    have hnamed := h.names function hfunction node hnode
    cases node with
    | label l =>
        cases heq
        exact isLabelName_of_isLabelWord hnamed
    | _ => cases heq
  calls := h.calls

theorem Binop.mem_nodes_ofWritten {id : NodeId} {op : Operator} {lhs rhs : Atom} {node : Node}
    (h : node ∈ (Binop.ofWritten id op lhs rhs).nodes) :
    node = .binop (Binop.ofWritten id op lhs rhs) ∨ node ∈ lhs.nodes ∨ node ∈ rhs.nodes := by
  rcases List.mem_cons.1 h with rfl | h
  · exact .inl rfl
  · cases op with
    | greater | greaterEqual => exact .inr (List.mem_append.1 h).symm
    | arithmetic | comparison => exact .inr (List.mem_append.1 h)

theorem Binop.id_ofWritten (id : NodeId) (op : Operator) (lhs rhs : Atom) :
    (Binop.ofWritten id op lhs rhs).id = id := by
  cases op <;> rfl

namespace Phrase.Category

variable {φ α β : Type} {build : NodeId → φ → α} {size : φ → Nat}

/-- Every node of a list is built from a phrase of it, at an offset that leaves room for the
phrase. -/
theorem mem_buildFrom {id : NodeId} {xs : List φ} {a : α} (h : a ∈ buildFrom build size id xs) :
    ∃ x ∈ xs, ∃ offset, offset + size x ≤ totalSize size xs ∧ a = build (id + .ofNat offset) x := by
  induction xs generalizing id with
  | nil => simp [buildFrom] at h
  | cons x xs ih =>
      rcases List.mem_cons.1 h with rfl | h
      · exact ⟨x, List.mem_cons_self, 0, by simp [totalSize], by simp⟩
      · obtain ⟨y, hy, offset, hle, rfl⟩ := ih h
        refine ⟨y, List.mem_cons_of_mem x hy, size x + offset, ?_, ?_⟩
        · rw [totalSize]
          omega
        · rw [UInt32.ofNat_add, UInt32.add_assoc]

theorem flatMap_buildFrom {f : α → List β} {g : φ → List β} (h : ∀ id x, f (build id x) = g x)
    (id : NodeId) (xs : List φ) : (buildFrom build size id xs).flatMap f = xs.flatMap g := by
  induction xs generalizing id with
  | nil => rfl
  | cons x xs ih => rw [buildFrom, List.flatMap_cons, List.flatMap_cons, h, ih]

end Phrase.Category

namespace Phrase

theorem Operand.isOperand_build (x : Operand) (id : NodeId) : (x.build id).isOperand = true := by
  cases x <;> rfl

theorem Value.isValue_build (x : Value) (id : NodeId) : (x.build id).isValue = true := by
  rcases x with (_ | _) | _ <;> rfl

theorem arguments_isValue (xs : List Value) (id : NodeId) :
    (argument.enclosed.build id xs).all Atom.isValue = true := by
  rw [List.all_eq_true]
  intro a ha
  obtain ⟨x, -, offset, -, rfl⟩ := Category.mem_buildFrom ha
  exact x.isValue_build _

theorem rightHandSide_isGrammatical (x : RightHandSide) (id : NodeId) :
    (rightHandSide.build id x).isGrammatical = true := by
  cases x with
  | value v => exact v.isValue_build id
  | operation op lhs rhs =>
      have hlhs := lhs.isOperand_build id
      have hrhs := rhs.isOperand_build (id + 1)
      cases op <;>
        simp [rightHandSide, Binop.ofWritten, Expression.isGrammatical, Operator.isKept, hlhs, hrhs]
  | load address => rfl
  | call c => exact arguments_isValue c.arguments _

theorem instruction_isGrammatical (x : Instruction) (id : NodeId) :
    (instruction.build id x).isGrammatical = true := by
  cases x with
  | assign target value => exact rightHandSide_isGrammatical value _
  | store address v => exact v.isValue_build _
  | returnValue o => exact o.isOperand_build id
  | call c => exact arguments_isValue c.arguments _
  | label | goto | branch | returnVoid => rfl

variable {id : NodeId}

theorem Operand.isNamed_build {x : Operand} (h : x.word.wellNamed = true) :
    ∀ node ∈ (x.build id).nodes, node.isNamed = true := by
  cases x with
  | var name =>
      have hname : isVarName name = true := h
      simp [build, Atom.nodes, Node.isNamed, hname]
  | number text => simp [build, Atom.nodes, Node.isNamed]

theorem Value.isNamed_build {x : Value} (h : x.word.wellNamed = true) :
    ∀ node ∈ (x.build id).nodes, node.isNamed = true := by
  cases x with
  | operand o => exact o.isNamed_build h
  | label name =>
      have hname : isLabelWord name = true := h
      simp [build, Atom.nodes, Node.isNamed, hname]

theorem Callee.isNamed_build {x : Callee} (h : x.word.wellNamed = true) :
    ∀ node ∈ (x.build id).nodes, node.isNamed = true := by
  cases x with
  | var name =>
      have hname : isVarName name = true := h
      simp [build, Callee.nodes, Node.isNamed, hname]
  | label name =>
      have hname : isLabelWord name = true := h
      simp [build, Callee.nodes, Node.isNamed, hname]
  | runtime function => simp [build, Callee.nodes, Node.isNamed]

theorem mem_words_enclosed {φ α : Type} {category : Category φ α} {xs : List φ} {x : φ}
    {word : Word} (hx : x ∈ xs) (hword : word ∈ category.words x) :
    word ∈ category.enclosed.words xs := by
  have hseparated : word ∈ category.separated.words xs := by
    cases xs with
    | nil => simp at hx
    | cons y ys =>
        rcases List.mem_cons.1 hx with rfl | hx
        · exact List.mem_append_left _ hword
        · exact List.mem_append_right _
            (List.mem_flatMap.2 ⟨x, hx, List.mem_cons_of_mem _ hword⟩)
  exact List.mem_cons_of_mem _ (List.mem_append_left _ hseparated)

theorem call_isNamed {x : Call} (h : ∀ word ∈ call.words x, word.wellNamed = true) :
    ∀ node ∈ (call.build id x).nodes, node.isNamed = true := by
  intro node hnode
  rcases List.mem_cons.1 hnode with rfl | hnode
  · rfl
  · rcases List.mem_append.1 hnode with hnode | hnode
    · exact x.callee.isNamed_build (h _ List.mem_cons_self) node hnode
    · obtain ⟨a, ha, hnode⟩ := List.mem_flatMap.1 hnode
      obtain ⟨v, hv, offset, -, rfl⟩ := Category.mem_buildFrom ha
      have hword : v.word ∈ argument.enclosed.words x.arguments :=
        mem_words_enclosed hv (List.mem_singleton_self v.word)
      exact v.isNamed_build (h _ (List.mem_cons_of_mem _ hword)) node hnode

theorem rightHandSide_isNamed {x : RightHandSide}
    (h : ∀ word ∈ rightHandSide.words x, word.wellNamed = true) :
    ∀ node ∈ (rightHandSide.build id x).nodes, node.isNamed = true := by
  intro node hnode
  rcases List.mem_cons.1 hnode with rfl | hnode
  · rfl
  cases x with
  | value v => exact v.isNamed_build (h _ List.mem_cons_self) node hnode
  | operation op lhs rhs =>
      rcases Binop.mem_nodes_ofWritten hnode with rfl | hnode | hnode
      · rfl
      · exact lhs.isNamed_build (h _ List.mem_cons_self) node hnode
      · exact rhs.isNamed_build (h _ (by simp [rightHandSide])) node hnode
  | load address =>
      have haddress : isVarName address = true := h (.name address) (by simp [rightHandSide])
      rcases List.mem_cons.1 hnode with rfl | hnode
      · rfl
      · obtain rfl := List.mem_singleton.1 hnode
        exact haddress
  | call c => exact call_isNamed (fun word hword => h word (List.mem_cons_of_mem _ hword)) node hnode

theorem instruction_isNamed {x : Instruction}
    (h : ∀ word ∈ instruction.words x, word.wellNamed = true) :
    ∀ node ∈ (instruction.build id x).nodes, node.isNamed = true := by
  intro node hnode
  rcases List.mem_cons.1 hnode with rfl | hnode
  · rfl
  cases x with
  | label name =>
      obtain rfl := List.mem_singleton.1 hnode
      exact h (.label name) List.mem_cons_self
  | assign target value =>
      have htarget : isVarName target = true := h (.name target) List.mem_cons_self
      rcases List.mem_cons.1 hnode with rfl | hnode
      · rfl
      rcases List.mem_append.1 hnode with hnode | hnode
      · obtain rfl := List.mem_singleton.1 hnode
        exact htarget
      · refine rightHandSide_isNamed (fun word hword => h word ?_) node hnode
        exact List.mem_cons_of_mem _ (List.mem_cons_of_mem _ hword)
  | store address v =>
      have haddress : isVarName address = true := h (.name address) (by simp [instruction])
      have hv : v.word.wellNamed = true := h v.word (by simp [instruction])
      have hvalue : ∀ node ∈ (v.build (id + 2)).nodes, node.isNamed = true := v.isNamed_build hv
      simp only [instruction, Assignment.nodes, Target.nodes, Store.nodes, Expression.nodes,
        List.mem_cons, List.mem_append, List.not_mem_nil, or_false] at hnode
      rcases hnode with rfl | (rfl | rfl) | rfl | hnode
      · rfl
      · rfl
      · exact haddress
      · rfl
      · exact hvalue node hnode
  | goto target =>
      have htarget : isLabelWord target = true := h (.label target) (by simp [instruction])
      simp only [instruction, Goto.nodes, List.mem_cons, List.not_mem_nil, or_false] at hnode
      rcases hnode with rfl | rfl
      · rfl
      · exact htarget
  | branch condition onTrue onFalse =>
      have hcondition : isVarName condition = true := h (.name condition) (by simp [instruction])
      have htrue : isLabelWord onTrue = true := h (.label onTrue) (by simp [instruction])
      have hfalse : isLabelWord onFalse = true := h (.label onFalse) (by simp [instruction])
      simp only [instruction, Branch.nodes, List.mem_cons, List.not_mem_nil, or_false] at hnode
      rcases hnode with rfl | rfl | rfl | rfl
      · rfl
      · exact hcondition
      · exact htrue
      · exact hfalse
  | returnValue o => exact o.isNamed_build (h o.word (by simp [instruction])) node hnode
  | returnVoid => simp [instruction] at hnode
  | call c => exact call_isNamed (fun word hword => h word (List.mem_cons_of_mem _ hword)) node hnode

theorem function_isNamed {x : Function} (h : ∀ word ∈ function.words x, word.wellNamed = true) :
    ∀ node ∈ (function.build id x).nodes, node.isNamed = true := by
  intro node hnode
  rcases List.mem_cons.1 hnode with rfl | hnode
  · exact h (.label x.name) (by simp [function])
  rcases List.mem_append.1 hnode with hnode | hnode
  · obtain ⟨v, hv, rfl⟩ := List.mem_map.1 hnode
    obtain ⟨name, hname, offset, -, rfl⟩ := Category.mem_buildFrom hv
    have hword : .name name ∈ parameter.enclosed.words x.parameters :=
      mem_words_enclosed hname (List.mem_singleton_self _)
    exact h (.name name) (by simp [function, hword])
  · obtain ⟨i, hi, hnode⟩ := List.mem_flatMap.1 hnode
    obtain ⟨y, hy, offset, -, rfl⟩ := Category.mem_buildFrom hi
    refine instruction_isNamed (fun word hword => h word ?_) node hnode
    have hmem : word ∈ instruction.many.words x.body := List.mem_flatMap.2 ⟨y, hy, hword⟩
    simp [function, hmem]

theorem Value.labels_build (x : Value) (id : NodeId) :
    (x.build id).labels.map Label.name = x.labels := by
  rcases x with (_ | _) | _ <;> rfl

theorem Callee.labels_build (x : Callee) (id : NodeId) :
    (x.build id).labels.map Label.name = x.labels := by
  cases x <;> rfl

theorem call_labels (x : Call) (id : NodeId) :
    (call.build id x).labels.map Label.name = call.calls x := by
  have harguments : ((argument.enclosed.build (id + 1) x.arguments).flatMap Atom.labels).map
      Label.name = argument.enclosed.calls x.arguments := by
    rw [List.map_flatMap]
    exact Category.flatMap_buildFrom (fun id v => v.labels_build id) _ _
  rw [L3Lowering.Call.labels, List.map_append]
  exact congrArg₂ (· ++ ·) (x.callee.labels_build id) harguments

theorem instruction_callLabels (id : NodeId) (x : Instruction) :
    (instruction.build id x).callLabels.map Label.name = instruction.calls x := by
  cases x with
  | assign target value =>
      cases value with
      | operation op lhs rhs => cases op <;> rfl
      | call c => exact call_labels c _
      | value | load => rfl
  | call c => exact call_labels c id
  | label | store | goto | branch | returnValue | returnVoid => rfl

theorem function_callLabels (id : NodeId) (x : Function) :
    (function.build id x).callLabels.map Label.name = function.calls x := by
  rw [L3Lowering.Function.callLabels, List.map_flatMap]
  exact Category.flatMap_buildFrom
    (f := fun i : L3Lowering.Instruction => i.callLabels.map Label.name) instruction_callLabels _ _

end Phrase

theorem Program.grammatical_of_ofTokens {tokens : List Token} {program : Program}
    (hnames : ∀ token ∈ tokens, token.word.wellNamed = true)
    (h : Program.ofTokens tokens = .ok program) : program.Grammatical := by
  obtain ⟨xs, hne, -, rfl, hwords, hcalls⟩ := Program.phrases_of_ofTokens h
  have hnamed : ∀ x ∈ xs, ∀ word ∈ Phrase.function.words x, word.wellNamed = true := by
    intro x hx word hword
    have hmem : word ∈ tokens.map Token.word := hwords ▸ List.mem_flatMap.2 ⟨x, hx, hword⟩
    obtain ⟨token, htoken, rfl⟩ := List.mem_map.1 hmem
    exact hnames token htoken
  constructor
  · obtain ⟨x, others, rfl⟩ := List.exists_cons_of_ne_nil hne
    simp [Phrase.Category.many, Phrase.Category.buildFrom]
  · intro function hfunction i hi
    obtain ⟨x, -, offset, -, rfl⟩ := Phrase.Category.mem_buildFrom hfunction
    obtain ⟨y, -, offset', -, rfl⟩ := Phrase.Category.mem_buildFrom hi
    exact Phrase.instruction_isGrammatical y _
  · intro function hfunction
    obtain ⟨x, hx, offset, -, rfl⟩ := Phrase.Category.mem_buildFrom hfunction
    exact Phrase.function_isNamed (hnamed x hx)
  · intro function hfunction label hlabel
    obtain ⟨x, hx, offset, -, rfl⟩ := Phrase.Category.mem_buildFrom hfunction
    have hcall := List.mem_map_of_mem (f := Label.name) hlabel
    rw [Phrase.function_callLabels] at hcall
    exact hcalls label.name (List.mem_flatMap.2 ⟨x, hx, hcall⟩)

theorem Source.grammatical_of_parse {source : Source} {program : Program}
    (h : source.parse = .ok program) : program.Grammatical := by
  refine Program.grammatical_of_ofTokens ?_ h
  intro token htoken
  exact wellNamed_wordsAfter none source.chars token.word (List.mem_map_of_mem htoken)

end L3Lowering
