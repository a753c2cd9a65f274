import L3Lowering.Proofs.PrintedWords

namespace L3Lowering

theorem writes_call {c : Call} (h : c.arguments.all Atom.isValue = true)
    (hnames : ∀ node ∈ c.nodes, node.isNamed = true) :
    ∃ x : Phrase.Call, Phrase.call.InRange x ∧
      (∀ id, (Phrase.call.build id x).withoutIds = c.withoutIds) ∧
      (Phrase.call.words x).filter Word.isLeaf = c.nodes.filterMap Node.word? ∧
      Spells Anywhere c.text (.mark (.keyword .call) :: Phrase.call.words x) := by
  have hcallee : ∀ node ∈ c.callee.nodes, node.isNamed = true := by
    intro node hnode
    exact hnames node (List.mem_cons_of_mem _ (List.mem_append_left _ hnode))
  have harguments : ∀ a ∈ c.arguments, ∃ x,
      Writes Phrase.argument Atom.withoutIds BeforeValue Atom.text Atom.nodes a x := by
    intro a ha
    refine writes_value (List.all_eq_true.1 h a ha) fun node hnode => hnames node ?_
    exact List.mem_cons_of_mem _ (List.mem_append_right _ (List.mem_flatMap.2 ⟨a, ha, hnode⟩))
  obtain ⟨x, hx⟩ := writes_callee hcallee
  obtain ⟨xs, hxs⟩ := writes_list harguments
  refine ⟨⟨x, xs⟩, inRange_many hxs, fun id => ?_, ?_, ?_⟩
  · exact congrArg₂ (Call.mk 0) (hx.build id) (build_many hxs (id + 1))
  · have hwords : Phrase.call.words ⟨x, xs⟩
        = Phrase.callee.words x ++ Phrase.argument.enclosed.words xs := rfl
    rw [hwords, List.filter_append, hx.order, order_enclosed hxs, Call.nodes,
      List.filterMap_cons_none rfl, List.filterMap_append]
  · intro previous rest _ hrest
    obtain ⟨last, hwords⟩ := hx.spells (some (.keyword .call))
      ('(' :: (", ".intercalate (c.arguments.map Atom.text)).toList ++ ')' :: rest) trivial rfl
    have htext : c.text.toList ++ rest = Keyword.call.text.toList ++ ' ' :: (c.callee.text.toList ++
        ('(' :: (", ".intercalate (c.arguments.map Atom.text)).toList ++ ')' :: rest)) := by
      simp [Call.text, Keyword.text]
    rw [htext, wordsAfter_keyword_space, hwords, words_enclosed hxs]
    exact ⟨some .closeParen, by simp [Phrase.call, Phrase.callee]⟩

theorem writes_binop {b : Binop} (hlhs : b.lhs.isOperand = true) (hrhs : b.rhs.isOperand = true)
    (hop : b.operator.isKept = true) (hnames : ∀ node ∈ b.nodes, node.isNamed = true) :
    ∃ x, WritesExpression (.binop b) x := by
  obtain ⟨x, hx, hxbuild, hxorder, hxwords⟩ := operand_words hlhs fun node hnode =>
    hnames node (List.mem_cons_of_mem _ (List.mem_append_left _ hnode))
  obtain ⟨y, hy, hybuild, hyorder, hywords⟩ := operand_words hrhs fun node hnode =>
    hnames node (List.mem_cons_of_mem _ (List.mem_append_right _ hnode))
  refine ⟨.operation b.operator x y, ⟨hx, hy⟩, fun id => ?_, ?_, ?_⟩
  · have hkept : Binop.ofWritten (id + 2) b.operator (x.build id) (y.build (id + 1))
        = ⟨id + 2, b.operator, x.build id, y.build (id + 1)⟩ := by
      cases hoperator : b.operator with
      | arithmetic | comparison => rfl
      | greater | greaterEqual => simp [hoperator, Operator.isKept] at hop
    simp only [Phrase.rightHandSide, hkept, Expression.withoutIds, hxbuild, hybuild]
  · have hwords : Phrase.rightHandSide.words (.operation b.operator x y)
        = [x.word] ++ .mark (.operator b.operator) :: [y.word] := rfl
    have hoperator : ¬ Word.isLeaf (.mark (.operator b.operator)) = true := Bool.false_ne_true
    have hnodes : (Expression.binop b).nodes
        = .expression (.binop b) :: .binop b :: (b.lhs.nodes ++ b.rhs.nodes) := rfl
    rw [hwords, List.filter_append, List.filter_cons_of_neg hoperator, hxorder, hyorder, hnodes,
      List.filterMap_cons_none rfl, List.filterMap_cons_none rfl, List.filterMap_append]
  · intro previous rest hprevious hrest
    -- A sign is an operator after the first operand and starts a literal after the operator.
    have hsign : signUnlessOperand (some x.word.kind) = false := by
      cases x <;> rfl
    have htext : (Expression.binop b).text.toList ++ rest = b.lhs.text.toList ++
        ' ' :: (b.operator.symbol.toList ++ ' ' :: (b.rhs.text.toList ++ rest)) := by
      simp [Expression.text, Binop.text]
    rw [htext, hxwords previous _ hprevious (delimits_space _), wordsAfter_blank (by decide),
      wordsAfter_operator b.operator hsign, hywords (some (.operator b.operator)) rest rfl hrest]
    exact ⟨_, rfl⟩

theorem writes_load {l : Load} (h : isVarName l.address.name = true) :
    ∃ x, WritesExpression (.load l) x := by
  refine ⟨.load l.address.name, trivial, fun _ => rfl, rfl, ?_⟩
  intro previous rest _ hrest
  have htext : (Expression.load l).text.toList ++ rest
      = Keyword.load.text.toList ++ ' ' :: (l.address.name.toList ++ rest) := by
    simp [Expression.text, Load.text, Var.text, Keyword.text]
  rw [htext, wordsAfter_keyword_space, wordsAfter_name h hrest]
  exact ⟨_, rfl⟩

theorem writes_expression {e : Expression} (h : e.isGrammatical = true)
    (hnames : ∀ node ∈ e.nodes, node.isNamed = true) : ∃ x, WritesExpression e x := by
  have hnames : ∀ node ∈ e.nodes.tail, node.isNamed = true := by
    intro node hnode
    exact hnames node (List.mem_of_mem_tail hnode)
  cases e with
  | atom a =>
      obtain ⟨x, hx⟩ := writes_value h hnames
      exact ⟨.value x, hx.inRange, fun id => congrArg Expression.atom (hx.build id), hx.order,
        hx.spells⟩
  | binop b =>
      simp only [Expression.isGrammatical, Bool.and_eq_true] at h
      exact writes_binop h.1.1 h.1.2 h.2 hnames
  | load l =>
      exact writes_load (hnames (.var l.address) (by simp [Expression.nodes, Load.nodes]))
  | call c =>
      obtain ⟨x, hx, hbuild, horder, hspells⟩ := writes_call h hnames
      exact ⟨.call x, hx, fun id => congrArg Expression.call (hbuild id), horder,
        fun previous rest _ hrest => hspells previous rest trivial hrest⟩

theorem writes_assign {v : Var} {e : Expression} (id : NodeId)
    (hname : isVarName v.name = true) (h : e.isGrammatical = true)
    (hnames : ∀ node ∈ e.nodes, node.isNamed = true) :
    ∃ x, WritesInstruction (.assign ⟨id, .var v, e⟩) x := by
  obtain ⟨x, hx⟩ := writes_expression h hnames
  refine ⟨.assign v.name x, hx.inRange, fun id => ?_, ?_, ?_⟩
  · simp only [Phrase.instruction, Instruction.withoutIds, Target.withoutIds, hx.build]
    rfl
  · exact congrArg (List.cons (Word.name v.name)) hx.order
  · intro previous rest _ hrest
    have htext : (Instruction.assign ⟨id, .var v, e⟩).text.toList ++ rest
        = v.name.toList ++ ' ' :: '<' :: '-' :: ' ' :: (e.text.toList ++ rest) := by
      simp [Instruction.text, Assignment.text, Target.text, Var.text]
    obtain ⟨last, hwords⟩ := hx.spells (some .arrow) rest rfl hrest
    rw [htext, wordsAfter_name hname (delimits_space _), wordsAfter_spaced_arrow, hwords]
    exact ⟨last, rfl⟩

theorem writes_store {v : Var} {a : Atom} (id id' : NodeId) (hname : isVarName v.name = true)
    (h : a.isValue = true) (hnames : ∀ node ∈ a.nodes, node.isNamed = true) :
    ∃ x, WritesInstruction (.assign ⟨id, .store ⟨id', v⟩, .atom a⟩) x := by
  obtain ⟨x, hx⟩ := writes_value h hnames
  refine ⟨.store v.name x, hx.inRange, fun id => ?_, ?_, ?_⟩
  · have hbuild : (x.build (id + 2)).withoutIds = a.withoutIds := hx.build (id + 2)
    simp only [Phrase.instruction, Instruction.withoutIds, Target.withoutIds,
      Expression.withoutIds, hbuild]
    rfl
  · exact congrArg (List.cons (Word.name v.name)) hx.order
  · intro previous rest _ hrest
    have htext : (Instruction.assign ⟨id, .store ⟨id', v⟩, .atom a⟩).text.toList ++ rest
        = Keyword.store.text.toList ++ ' ' :: (v.name.toList ++ ' ' :: '<' :: '-' :: ' ' ::
          (a.text.toList ++ rest)) := by
      simp [Instruction.text, Assignment.text, Target.text, Store.text, Expression.text, Var.text,
        Keyword.text]
    obtain ⟨last, hwords⟩ := hx.spells (some .arrow) rest rfl hrest
    rw [htext, wordsAfter_keyword_space, wordsAfter_name hname (delimits_space _),
      wordsAfter_spaced_arrow, hwords]
    exact ⟨last, rfl⟩

theorem writes_branch {b : Branch} (hcondition : isVarName b.condition.name = true)
    (htrue : isLabelWord b.onTrue.name = true) (hfalse : isLabelWord b.onFalse.name = true) :
    ∃ x, WritesInstruction (.branch b) x := by
  refine ⟨.branch b.condition.name b.onTrue.name b.onFalse.name, trivial, fun _ => rfl, rfl, ?_⟩
  intro previous rest _ hrest
  have htext : (Instruction.branch b).text.toList ++ rest
      = Keyword.branch.text.toList ++ ' ' :: (b.condition.name.toList ++ ' ' ::
        (b.onTrue.name.toList ++ ' ' :: (b.onFalse.name.toList ++ rest))) := by
    simp [Instruction.text, Branch.text, Var.text, Label.text, Keyword.text]
  rw [htext, wordsAfter_keyword_space, wordsAfter_name hcondition (delimits_space _),
    wordsAfter_blank (by decide), wordsAfter_label htrue (delimits_space _),
    wordsAfter_blank (by decide), wordsAfter_label hfalse hrest]
  exact ⟨some .label, rfl⟩

theorem writes_goto {g : Goto} (h : isLabelWord g.target.name = true) :
    ∃ x, WritesInstruction (.goto g) x := by
  refine ⟨.goto g.target.name, trivial, fun _ => rfl, rfl, ?_⟩
  intro previous rest _ hrest
  have htext : (Instruction.goto g).text.toList ++ rest
      = Keyword.branch.text.toList ++ ' ' :: (g.target.name.toList ++ rest) := by
    simp [Instruction.text, Goto.text, Label.text, Keyword.text]
  rw [htext, wordsAfter_keyword_space, wordsAfter_label h hrest]
  exact ⟨some .label, rfl⟩

theorem writes_returnValue {value : Atom} (id : NodeId) (h : value.isOperand = true)
    (hnames : ∀ node ∈ value.nodes, node.isNamed = true) :
    ∃ x, WritesInstruction (.returnValue id value) x := by
  obtain ⟨x, hx, hbuild, horder, hwords⟩ := operand_words h hnames
  refine ⟨.returnValue x, hx, fun id => congrArg (Instruction.returnValue 0) (hbuild id),
    horder, ?_⟩
  intro previous rest _ hrest
  have htext : (Instruction.returnValue id value).text.toList ++ rest
      = Keyword.ret.text.toList ++ ' ' :: (value.text.toList ++ rest) := by
    simp [Instruction.text, Keyword.text]
  rw [htext, wordsAfter_keyword_space, hwords (some (.keyword .ret)) rest rfl hrest]
  exact ⟨_, rfl⟩

theorem writes_instruction {i : Instruction} (h : i.isGrammatical = true)
    (hnames : ∀ node ∈ i.nodes, node.isNamed = true) :
    ∃ x, WritesInstruction i x := by
  have hnames : ∀ node ∈ i.nodes.tail, node.isNamed = true := by
    intro node hnode
    exact hnames node (List.mem_of_mem_tail hnode)
  cases i with
  | assign a =>
      obtain ⟨id, target, value⟩ := a
      have hvalue : ∀ node ∈ value.nodes, node.isNamed = true := by
        intro node hnode
        exact hnames node (List.mem_cons_of_mem _ (List.mem_append_right _ hnode))
      cases target with
      | var v =>
          have hname : isVarName v.name = true :=
            hnames (.var v) (by simp [Instruction.nodes, Assignment.nodes, Target.nodes])
          exact writes_assign id hname h hvalue
      | store s =>
          have hname : isVarName s.address.name = true :=
            hnames (.var s.address)
              (by simp [Instruction.nodes, Assignment.nodes, Target.nodes, Store.nodes])
          cases value with
          | atom a =>
              refine writes_store id s.id hname h fun node hnode => hvalue node ?_
              exact List.mem_cons_of_mem _ hnode
          | binop | load | call => simp [Instruction.isGrammatical] at h
  | goto g => exact writes_goto (hnames (.label g.target) (by simp [Instruction.nodes, Goto.nodes]))
  | branch b =>
      exact writes_branch (hnames (.var b.condition) (by simp [Instruction.nodes, Branch.nodes]))
        (hnames (.label b.onTrue) (by simp [Instruction.nodes, Branch.nodes]))
        (hnames (.label b.onFalse) (by simp [Instruction.nodes, Branch.nodes]))
  | call c =>
      obtain ⟨x, hx, hbuild, horder, hspells⟩ := writes_call h hnames
      exact ⟨.call x, hx, fun id => congrArg Instruction.call (hbuild id), horder, hspells⟩
  | returnValue id value => exact writes_returnValue id h hnames
  | returnVoid id =>
      refine ⟨.returnVoid, trivial, fun _ => rfl, rfl, ?_⟩
      intro previous rest _ hrest
      exact ⟨_, wordsAfter_keyword .ret hrest⟩
  | label l =>
      have hname : isLabelWord l.name = true := hnames (.label l) (by simp [Instruction.nodes])
      refine ⟨.label l.name, trivial, fun _ => rfl, rfl, ?_⟩
      intro previous rest _ hrest
      exact ⟨_, wordsAfter_label hname hrest⟩

end L3Lowering
