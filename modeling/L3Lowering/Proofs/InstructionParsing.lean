import L3Lowering.Proofs.PhraseParsing

namespace L3Lowering

def Word.startReturned : List Word → Bool
  | .number _ :: _ => true
  | .name _ :: words => words.head? != some (.mark .arrow)
  | _ => false

/-- Words that no instruction goes on with. -/
structure Word.Separate (words : List Word) : Prop where
  operator : ∀ op, words.head? ≠ some (.mark (.operator op))
  arrow : words.head? ≠ some (.mark .arrow)
  returned : Word.startReturned words = false

namespace Parser

open Phrase (Category)

variable {s : State} {rest : List Word} {token : Token}

theorem operation_apply (first : Atom) (s : State)
    (h : ∀ op, s.words.head? ≠ some (.mark (.operator op))) :
    operation first s = .ok (.atom first, s) := by
  refine bind_eq_ok.2 ⟨s.tokens, s, rfl, ?_⟩
  have hkind : ∀ op, s.tokens.head?.map Token.kind ≠ some (.operator op) := by
    intro op hop
    obtain ⟨token, htoken, hkind⟩ := Option.map_eq_some_iff.1 hop
    apply h op
    rw [State.words, List.head?_map, htoken]
    simp [Token.word, hkind]
  generalize s.tokens.head?.map Token.kind = head at hkind ⊢
  cases head with
  | none => rfl
  | some kind =>
      cases kind with
      | operator op => exact absurd rfl (hkind op)
      | _ => rfl

theorem operation_gives {op : Operator} {x : Phrase.Operand} (first : Atom) (hx : x.InRange)
    (hs : s.words = .mark (.operator op) :: x.word :: rest) :
    Gives (operation first) s
      (.binop (.ofWritten (s.nextId + 1) op first (x.build s.nextId)))
      [.mark (.operator op), x.word] 2 [] := by
  obtain ⟨token, hword, s₁, hnext, took₁⟩ := next_gives .operand hs
  have hs₁ := took₁.rest_eq hs
  obtain ⟨s₂, hsecond, took₂⟩ := accepts_operand s₁ x rest hx hs₁ trivial
  obtain ⟨s₃, hid, took₃⟩ := freshId_gives s₂
  have hhead : s.tokens.head?.map Token.kind = some (.operator op) := by
    rw [head?_kind, hs]
    rfl
  refine ⟨s₃, bind_eq_ok.2 ⟨s.tokens, s, rfl, ?_⟩, (took₁.trans took₂).trans took₃⟩
  simp only [hhead]
  refine bind_eq_ok.2 ⟨_, _, hnext, bind_eq_ok.2 ⟨_, _, hsecond, bind_eq_ok.2 ⟨_, _, hid,
    pure_eq_ok.2 ⟨?_, rfl⟩⟩⟩⟩
  rw [(took₁.trans took₂).nextId, took₁.nextId]
  simp [Phrase.operand]

theorem operand_kind (x : Phrase.Operand) : x.word.kind = .identifier ∨ x.word.kind = .integer := by
  cases x
  · exact .inl rfl
  · exact .inr rfl

theorem rightHandSide_operand {x : Phrase.Operand} {s₁ s₂ : State} {token : Token}
    {e : Expression} (hword : token.word = x.word)
    (hnext : next .rightHandSide s = .ok (token, s₁))
    (h : (operandFrom token >>= operation) s₁ = .ok (e, s₂)) :
    rightHandSide s = .ok (e, s₂) := by
  refine bind_eq_ok.2 ⟨_, _, hnext, ?_⟩
  have hkind := kind_of_word hword
  rcases operand_kind x with hx | hx <;> rw [hx] at hkind <;> simp only [hkind] <;> exact h

theorem rightHandSide_gives_operand {o : Phrase.Operand} (ho : o.InRange)
    (hs : s.words = o.word :: rest)
    (hrest : ∀ op, rest.head? ≠ some (.mark (.operator op))) :
    Gives rightHandSide s (.atom (o.build s.nextId)) [o.word] 1 [] := by
  obtain ⟨token, hword, s₁, htoken, took₁⟩ := next_gives .rightHandSide hs
  have hid : s₁.nextId = s.nextId := by simp [took₁.nextId]
  obtain ⟨s₂, hoperand, took₂⟩ := operandFrom_gives ho hword s₁
  have took := took₁.trans took₂
  have hend : operation (o.build s₁.nextId) s₂ = .ok (.atom (o.build s₁.nextId), s₂) := by
    apply operation_apply
    rwa [took.rest_eq hs]
  refine ⟨s₂, ?_, took⟩
  rw [rightHandSide_operand hword htoken (bind_eq_ok.2 ⟨_, _, hoperand, hend⟩), hid]

theorem rightHandSide_gives_label {name : String} (hs : s.words = .label name :: rest) :
    Gives rightHandSide s (.atom (.label ⟨s.nextId, name⟩)) [.label name] 1 [] := by
  obtain ⟨token, hword, s₁, htoken, took₁⟩ := next_gives .rightHandSide hs
  have hid₁ : s₁.nextId = s.nextId := by simp [took₁.nextId]
  obtain ⟨s₂, hid, took₂⟩ := freshId_gives s₁
  refine ⟨s₂, bind_eq_ok.2 ⟨_, _, htoken, ?_⟩, took₁.trans took₂⟩
  have hkind : token.kind = .label := kind_of_word hword
  simp only [hkind]
  refine bind_eq_ok.2 ⟨_, _, hid, pure_eq_ok.2 ⟨?_, rfl⟩⟩
  rw [hid₁, text_of_word_label hword]

theorem rightHandSide_gives_operation {op : Operator} {lhs rhs : Phrase.Operand}
    (hlhs : lhs.InRange) (hrhs : rhs.InRange)
    (hs : s.words = lhs.word :: .mark (.operator op) :: rhs.word :: rest) :
    Gives rightHandSide s (Phrase.rightHandSide.build s.nextId (.operation op lhs rhs))
      [lhs.word, .mark (.operator op), rhs.word] 3 [] := by
  obtain ⟨token, hword, s₁, htoken, took₁⟩ := next_gives .rightHandSide hs
  obtain ⟨s₂, hfirst, took₂⟩ := operandFrom_gives hlhs hword s₁
  have took := took₁.trans took₂
  obtain ⟨s₃, hop, took₃⟩ := operation_gives (lhs.build s₁.nextId) hrhs (took.rest_eq hs)
  refine ⟨s₃, ?_, took.trans took₃⟩
  rw [rightHandSide_operand hword htoken (bind_eq_ok.2 ⟨_, _, hfirst, hop⟩), took₂.nextId,
    took₁.nextId]
  simp [Phrase.rightHandSide, UInt32.add_assoc]

theorem rightHandSide_gives_load {address : String}
    (hs : s.words = .mark (.keyword .load) :: .name address :: rest) :
    Gives rightHandSide s (Phrase.rightHandSide.build s.nextId (.load address))
      [.mark (.keyword .load), .name address] 2 [] := by
  obtain ⟨token, hword, s₁, htoken, took₁⟩ := next_gives .rightHandSide hs
  obtain ⟨s₂, haddress, took₂⟩ := accepts_var s₁ address rest trivial (took₁.rest_eq hs) trivial
  obtain ⟨s₃, hid, took₃⟩ := freshId_gives s₂
  refine ⟨s₃, bind_eq_ok.2 ⟨_, _, htoken, ?_⟩, (took₁.trans took₂).trans took₃⟩
  have hkind : token.kind = .keyword .load := kind_of_word hword
  simp only [hkind]
  refine bind_eq_ok.2 ⟨_, _, haddress, bind_eq_ok.2 ⟨_, _, hid, pure_eq_ok.2 ⟨?_, rfl⟩⟩⟩
  rw [took₂.nextId, took₁.nextId]
  simp [Phrase.rightHandSide, Phrase.parameter]

theorem rightHandSide_gives_call {c : Phrase.Call} (hc : Phrase.call.InRange c)
    (hs : s.words = .mark (.keyword .call) :: (Phrase.call.words c ++ rest)) :
    Gives rightHandSide s (.call (Phrase.call.build s.nextId c))
      (.mark (.keyword .call) :: Phrase.call.words c) (Phrase.call.size c)
      (Phrase.call.calls c) := by
  obtain ⟨token, hword, s₁, htoken, took₁⟩ := next_gives .rightHandSide hs
  obtain ⟨s₂, hcall, took₂⟩ := accepts_call s₁ c rest hc (took₁.rest_eq hs) trivial
  have took := took₁.trans took₂
  rw [Nat.zero_add] at took
  refine ⟨s₂, bind_eq_ok.2 ⟨_, _, htoken, ?_⟩, took⟩
  have hkind : token.kind = .keyword .call := kind_of_word hword
  simp only [hkind]
  refine bind_eq_ok.2 ⟨_, _, hcall, pure_eq_ok.2 ⟨?_, rfl⟩⟩
  rw [took₁.nextId]
  simp

theorem accepts_rightHandSide : Accepts rightHandSide Phrase.rightHandSide
    fun rest => ∀ op, rest.head? ≠ some (.mark (.operator op)) := by
  intro s x rest hx hs hrest
  cases x with
  | value v =>
      cases v with
      | operand o => exact rightHandSide_gives_operand hx hs hrest
      | label name => exact rightHandSide_gives_label hs
  | operation op lhs rhs => exact rightHandSide_gives_operation hx.1 hx.2 hs
  | load address => exact rightHandSide_gives_load hs
  | call c => exact rightHandSide_gives_call hx hs

theorem word_eq_arrow_iff : token.word = .mark .arrow ↔ token.kind = .arrow := by
  constructor
  · exact kind_of_word
  · intro h
    simp [Token.word, h]

theorem startsReturned_eq (tokens : List Token) :
    startsReturned tokens = Word.startReturned (tokens.map Token.word) := by
  cases tokens with
  | nil => rfl
  | cons token tokens =>
      rw [startsReturned, List.map_cons]
      cases hkind : token.kind with
      | identifier =>
          rw [word_name hkind]
          cases tokens with
          | nil => rfl
          | cons next tokens => simp [Word.startReturned, bne, Bool.beq_eq_decide_eq, word_eq_arrow_iff]
      | integer =>
          rw [word_number hkind]
          rfl
      | _ =>
          rw [Token.word, hkind]
          rfl

theorem separate_body (xs : List Phrase.Instruction) (rest : List Word) :
    Word.Separate (Phrase.instruction.many.words xs ++ .mark .closeBrace :: rest) := by
  cases xs with
  | nil => exact ⟨by simp [Category.many], by simp [Category.many], rfl⟩
  | cons x xs =>
      rw [Category.words_many_cons]
      cases x <;> exact ⟨by simp [Phrase.instruction], by simp [Phrase.instruction], rfl⟩

theorem acceptsFrom_label (name : String) :
    AcceptsFrom instructionFrom Phrase.instruction Word.Separate (.label name) := by
  intro token s words rest hwords hx hs hrest
  obtain ⟨hword, rfl⟩ := List.cons.inj hwords
  obtain ⟨t, hid, took⟩ := freshId_gives s
  refine ⟨t, ?_, took⟩
  have hkind : token.kind = .label := kind_of_word hword.symm
  simp only [instructionFrom, hkind]
  refine bind_eq_ok.2 ⟨_, _, hid, pure_eq_ok.2 ⟨?_, rfl⟩⟩
  rw [text_of_word_label hword.symm]
  rfl

theorem acceptsFrom_assign (target : String) (value : Phrase.RightHandSide) :
    AcceptsFrom instructionFrom Phrase.instruction Word.Separate (.assign target value) := by
  intro token s words rest hwords hx hs hrest
  obtain ⟨hword, rfl⟩ := List.cons.inj hwords
  obtain ⟨s₁, hid, took₁⟩ := freshId_gives s
  obtain ⟨arrow, -, s₂, harrow, took₂⟩ := expect_gives .arrow (took₁.rest_eq hs) rfl
  obtain ⟨s₃, hvalue, took₃⟩ := accepts_rightHandSide s₂ value rest hx
    ((took₁.trans took₂).rest_eq hs) hrest.operator
  obtain ⟨s₄, hid', took₄⟩ := freshId_gives s₃
  have took := ((took₁.trans took₂).trans took₃).trans took₄
  rw [List.append_nil, List.append_nil] at took
  refine ⟨s₄, ?_, took⟩
  have hkind : token.kind = .identifier := kind_of_word hword.symm
  simp only [instructionFrom, hkind]
  refine bind_eq_ok.2 ⟨_, _, hid, bind_eq_ok.2 ⟨_, _, harrow, bind_eq_ok.2 ⟨_, _, hvalue,
    bind_eq_ok.2 ⟨_, _, hid', pure_eq_ok.2 ⟨?_, rfl⟩⟩⟩⟩⟩
  rw [took₃.nextId, took₂.nextId, took₁.nextId, text_of_word_name hword.symm]
  simp [Phrase.instruction, UInt32.ofNat_add, UInt32.add_assoc]

theorem acceptsFrom_store (address : String) (v : Phrase.Value) :
    AcceptsFrom instructionFrom Phrase.instruction Word.Separate (.store address v) := by
  intro token s words rest hwords hx hs hrest
  obtain ⟨hword, rfl⟩ := List.cons.inj hwords
  obtain ⟨s₁, haddress, took₁⟩ := accepts_var s address _ trivial hs trivial
  obtain ⟨s₂, hid, took₂⟩ := freshId_gives s₁
  have hs₂ := (took₁.trans took₂).rest_eq hs
  obtain ⟨arrow, -, s₃, harrow, took₃⟩ := expect_gives .arrow hs₂ rfl
  obtain ⟨s₄, hvalue, took₄⟩ := accepts_value s₃ v rest hx (took₃.rest_eq hs₂) trivial
  obtain ⟨s₅, hid', took₅⟩ := freshId_gives s₄
  refine ⟨s₅, ?_, (((took₁.trans took₂).trans took₃).trans took₄).trans took₅⟩
  have hkind : token.kind = .keyword .store := kind_of_word hword.symm
  simp only [instructionFrom, hkind]
  refine bind_eq_ok.2 ⟨_, _, haddress, bind_eq_ok.2 ⟨_, _, hid, bind_eq_ok.2 ⟨_, _, harrow,
    bind_eq_ok.2 ⟨_, _, hvalue, bind_eq_ok.2 ⟨_, _, hid', pure_eq_ok.2 ⟨?_, rfl⟩⟩⟩⟩⟩⟩
  rw [took₄.nextId, took₃.nextId, took₂.nextId, took₁.nextId]
  simp [Phrase.instruction, Phrase.parameter, Phrase.value, UInt32.add_assoc]

theorem acceptsFrom_goto (target : String) :
    AcceptsFrom instructionFrom Phrase.instruction Word.Separate (.goto target) := by
  intro token s words rest hwords hx hs hrest
  obtain ⟨hfirst, rfl⟩ := List.cons.inj hwords
  obtain ⟨found, hword, s₁, hnext, took₁⟩ := next_gives .branchTarget hs
  obtain ⟨s₂, hid, took₂⟩ := freshId_gives s₁
  obtain ⟨s₃, hid', took₃⟩ := freshId_gives s₂
  refine ⟨s₃, ?_, (took₁.trans took₂).trans took₃⟩
  have hkind : token.kind = .keyword .branch := kind_of_word hfirst.symm
  have hfound : found.kind = .label := kind_of_word hword
  simp only [instructionFrom, hkind]
  refine bind_eq_ok.2 ⟨_, _, hnext, ?_⟩
  simp only [hfound]
  refine bind_eq_ok.2 ⟨_, _, hid, bind_eq_ok.2 ⟨_, _, hid', pure_eq_ok.2 ⟨?_, rfl⟩⟩⟩
  rw [took₂.nextId, took₁.nextId, text_of_word_label hword]
  simp [Phrase.instruction]

theorem acceptsFrom_branch (condition onTrue onFalse : String) :
    AcceptsFrom instructionFrom Phrase.instruction Word.Separate (.branch condition onTrue onFalse) := by
  intro token s words rest hwords hx hs hrest
  obtain ⟨hfirst, rfl⟩ := List.cons.inj hwords
  obtain ⟨found, hword, s₁, hnext, took₁⟩ := next_gives .branchTarget hs
  obtain ⟨s₂, hid, took₂⟩ := freshId_gives s₁
  have hs₂ := (took₁.trans took₂).rest_eq hs
  obtain ⟨s₃, hTrue, took₃⟩ := label_gives hs₂
  obtain ⟨s₄, hFalse, took₄⟩ := label_gives (took₃.rest_eq hs₂)
  obtain ⟨s₅, hid', took₅⟩ := freshId_gives s₄
  refine ⟨s₅, ?_, (((took₁.trans took₂).trans took₃).trans took₄).trans took₅⟩
  have hkind : token.kind = .keyword .branch := kind_of_word hfirst.symm
  have hfound : found.kind = .identifier := kind_of_word hword
  simp only [instructionFrom, hkind]
  refine bind_eq_ok.2 ⟨_, _, hnext, ?_⟩
  simp only [hfound]
  refine bind_eq_ok.2 ⟨_, _, hid, bind_eq_ok.2 ⟨_, _, hTrue, bind_eq_ok.2 ⟨_, _, hFalse,
    bind_eq_ok.2 ⟨_, _, hid', pure_eq_ok.2 ⟨?_, rfl⟩⟩⟩⟩⟩
  rw [took₄.nextId, took₃.nextId, took₂.nextId, took₁.nextId, text_of_word_name hword]
  simp [Phrase.instruction, UInt32.add_assoc]

theorem acceptsFrom_returnValue (o : Phrase.Operand) :
    AcceptsFrom instructionFrom Phrase.instruction Word.Separate (.returnValue o) := by
  intro token s words rest hwords hx hs hrest
  obtain ⟨hword, rfl⟩ := List.cons.inj hwords
  obtain ⟨s₁, ho, took₁⟩ := accepts_operand s o rest hx hs trivial
  obtain ⟨s₂, hid, took₂⟩ := freshId_gives s₁
  refine ⟨s₂, ?_, took₁.trans took₂⟩
  have hkind : token.kind = .keyword .ret := kind_of_word hword.symm
  have hreturned : startsReturned s.tokens = true := by
    have hwords : s.tokens.map Token.word = o.word :: rest := hs
    rw [startsReturned_eq, hwords]
    cases o with
    | var name => simpa [Phrase.Operand.word, Word.startReturned] using hrest.arrow
    | number text => rfl
  simp only [instructionFrom, hkind]
  refine bind_eq_ok.2 ⟨s.tokens, s, rfl, ?_⟩
  rw [if_pos hreturned]
  refine bind_eq_ok.2 ⟨_, _, ho, bind_eq_ok.2 ⟨_, _, hid, pure_eq_ok.2 ⟨?_, rfl⟩⟩⟩
  rw [took₁.nextId]
  rfl

theorem acceptsFrom_returnVoid :
    AcceptsFrom instructionFrom Phrase.instruction Word.Separate .returnVoid := by
  intro token s words rest hwords hx hs hrest
  obtain ⟨hword, rfl⟩ := List.cons.inj hwords
  obtain ⟨t, hid, took⟩ := freshId_gives s
  refine ⟨t, ?_, took⟩
  have hkind : token.kind = .keyword .ret := kind_of_word hword.symm
  -- What follows may be an assignment, whose target must not be taken for a value.
  have hreturned : startsReturned s.tokens = false := by
    have hwords : s.tokens.map Token.word = rest := hs
    rw [startsReturned_eq, hwords]
    exact hrest.returned
  simp only [instructionFrom, hkind]
  refine bind_eq_ok.2 ⟨s.tokens, s, rfl, ?_⟩
  rw [if_neg (by simp [hreturned])]
  exact bind_eq_ok.2 ⟨_, _, hid, rfl⟩

theorem acceptsFrom_call (c : Phrase.Call) :
    AcceptsFrom instructionFrom Phrase.instruction Word.Separate (.call c) := by
  intro token s words rest hwords hx hs hrest
  obtain ⟨hword, rfl⟩ := List.cons.inj hwords
  obtain ⟨t, hcall, took⟩ := accepts_call s c rest hx hs trivial
  refine ⟨t, ?_, took⟩
  have hkind : token.kind = .keyword .call := kind_of_word hword.symm
  simp only [instructionFrom, hkind]
  exact bind_eq_ok.2 ⟨_, _, hcall, rfl⟩

theorem words_instruction_eq_cons (x : Phrase.Instruction) :
    ∃ word words, Phrase.instruction.words x = word :: words ∧ word.kind ≠ .closeBrace := by
  cases x <;> exact ⟨_, _, rfl, by simp [Word.kind]⟩

theorem acceptsFrom_instruction (x : Phrase.Instruction) :
    AcceptsFrom instructionFrom Phrase.instruction Word.Separate x := by
  cases x with
  | label name => exact acceptsFrom_label name
  | assign target value => exact acceptsFrom_assign target value
  | store address v => exact acceptsFrom_store address v
  | goto target => exact acceptsFrom_goto target
  | branch condition onTrue onFalse => exact acceptsFrom_branch condition onTrue onFalse
  | returnValue o => exact acceptsFrom_returnValue o
  | returnVoid => exact acceptsFrom_returnVoid
  | call c => exact acceptsFrom_call c

theorem accepts_instruction : Accepts instruction Phrase.instruction Word.Separate := by
  refine accepts_of_acceptsFrom acceptsFrom_instruction ?_ .instructionOrClose
  intro x
  obtain ⟨word, words, hwords, -⟩ := words_instruction_eq_cons x
  simp [hwords]

end Parser

end L3Lowering
