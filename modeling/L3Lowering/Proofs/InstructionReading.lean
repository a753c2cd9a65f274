import L3Lowering.Proofs.PhraseReading

namespace L3Lowering

namespace Parser

theorem operation_yields (first : Atom) :
    (operation first).Yields fun s e t =>
      (e = .atom first ∧ t = s) ∨
        ∃ (operator : Operator) (x : Phrase.Operand), x.InRange ∧
          e = .binop (.ofWritten (s.nextId + 1) operator first (x.build s.nextId)) ∧
          Took s t [.mark (.operator operator), x.word] 2 [] := by
  intro s e t h
  obtain ⟨tokens, s₁, hahead, h⟩ := bind_eq_ok.1 h
  cases hahead
  cases htokens : s.tokens with
  | nil =>
      rw [htokens] at h
      obtain ⟨rfl, rfl⟩ := pure_eq_ok.1 h
      exact .inl ⟨rfl, rfl⟩
  | cons token tokens =>
      rw [htokens] at h
      cases hkind : token.kind with
      | operator op =>
          simp only [List.head?_cons, Option.map_some, hkind] at h
          obtain ⟨found, s₂, hnext, h⟩ := bind_eq_ok.1 h
          obtain ⟨second, s₃, hsecond, h⟩ := bind_eq_ok.1 h
          obtain ⟨id, s₄, hid, h⟩ := bind_eq_ok.1 h
          obtain ⟨rfl, rfl⟩ := pure_eq_ok.1 h
          have hfound : found = token := by
            simp only [next, htokens] at hnext
            cases hnext
            rfl
          have took₁ := next_took hnext
          obtain ⟨x, hx, rfl, took₂⟩ := reads_operand _ _ _ hsecond
          obtain ⟨rfl, took₃⟩ := freshId_took hid
          have hword : found.word = .mark (.operator op) := by simp [Token.word, hfound, hkind]
          have took := (took₁.trans took₂).trans took₃
          rw [hword] at took
          refine .inr ⟨op, x, hx, ?_, took⟩
          rw [(took₁.trans took₂).nextId, took₁.nextId]
          simp [Phrase.operand]
      | _ =>
          simp only [List.head?_cons, Option.map_some, hkind] at h
          obtain ⟨rfl, rfl⟩ := pure_eq_ok.1 h
          exact .inl ⟨rfl, rfl⟩

variable {token : Token}

theorem operand_operation_readsFrom (token : Token) :
    ReadsFrom (operandFrom token >>= operation) Phrase.rightHandSide token := by
  intro s e t h
  obtain ⟨first, s₁, hfirst, h⟩ := bind_eq_ok.1 h
  obtain ⟨x, hx, rfl, hword, took₁⟩ := operandFrom_yields token _ _ _ hfirst
  rcases operation_yields _ _ _ _ h with ⟨rfl, rfl⟩ | ⟨op, y, hy, rfl, took₂⟩
  · exact ⟨.value (.operand x), hx, rfl, [], by rw [hword]; rfl, took₁⟩
  · refine ⟨.operation op x y, ⟨hx, hy⟩, ?_, _, by rw [hword]; rfl, took₁.trans took₂⟩
    rw [took₁.nextId]
    simp [Phrase.rightHandSide, UInt32.add_assoc]

theorem loaded_readsFrom (hkind : token.kind = .keyword .load) :
    ReadsFrom (do let address ← var; return .load ⟨← freshId, address⟩) Phrase.rightHandSide
      token := by
  intro s e t h
  obtain ⟨address, s₁, haddress, h⟩ := bind_eq_ok.1 h
  obtain ⟨id, s₂, hfresh, h⟩ := bind_eq_ok.1 h
  obtain ⟨rfl, rfl⟩ := pure_eq_ok.1 h
  obtain ⟨x, -, rfl, took₁⟩ := reads_var _ _ _ haddress
  obtain ⟨rfl, took₂⟩ := freshId_took hfresh
  have hword : token.word = .mark (.keyword .load) := by simp [Token.word, hkind]
  refine ⟨.load x, trivial, ?_, _, by rw [hword]; rfl, took₁.trans took₂⟩
  rw [took₁.nextId]
  rfl

theorem called_readsFrom (hkind : token.kind = .keyword .call) :
    ReadsFrom (do return .call (← call)) Phrase.rightHandSide token := by
  intro s e t h
  obtain ⟨c, s₁, hcall, h⟩ := bind_eq_ok.1 h
  obtain ⟨rfl, rfl⟩ := pure_eq_ok.1 h
  obtain ⟨x, hx, rfl, took⟩ := reads_call _ _ _ hcall
  have hword : token.word = .mark (.keyword .call) := by simp [Token.word, hkind]
  exact ⟨.call x, hx, rfl, _, by rw [hword]; rfl, took⟩

theorem assignedLabel_readsFrom (hkind : token.kind = .label) :
    ReadsFrom (do return .atom (.label ⟨← freshId, token.text⟩)) Phrase.rightHandSide token := by
  intro s e t h
  obtain ⟨id, s₁, hfresh, h⟩ := bind_eq_ok.1 h
  obtain ⟨rfl, rfl⟩ := pure_eq_ok.1 h
  obtain ⟨rfl, took⟩ := freshId_took hfresh
  exact ⟨.value (.label token.text), trivial, rfl, [], by rw [word_label hkind]; rfl, took⟩

theorem reads_rightHandSide : Reads rightHandSide Phrase.rightHandSide := by
  refine ReadsFrom.reads (fun token => ?_) .rightHandSide
  cases hkind : token.kind with
  | keyword keyword =>
      cases keyword with
      | load => exact loaded_readsFrom hkind
      | call => exact called_readsFrom hkind
      | _ => exact yields_fail
  | label => exact assignedLabel_readsFrom hkind
  | identifier | integer => exact operand_operation_readsFrom token
  | _ => exact yields_fail

theorem label_readsFrom (hkind : token.kind = .label) :
    ReadsFrom (instructionFrom token) Phrase.instruction token := by
  intro s i t h
  simp only [instructionFrom, hkind] at h
  obtain ⟨id, s₁, hfresh, h⟩ := bind_eq_ok.1 h
  obtain ⟨rfl, rfl⟩ := pure_eq_ok.1 h
  obtain ⟨rfl, took⟩ := freshId_took hfresh
  exact ⟨.label token.text, trivial, rfl, [], by rw [word_label hkind]; rfl, took⟩

theorem assign_readsFrom (hkind : token.kind = .identifier) :
    ReadsFrom (instructionFrom token) Phrase.instruction token := by
  intro s i t h
  simp only [instructionFrom, hkind] at h
  obtain ⟨id, s₁, hfresh, h⟩ := bind_eq_ok.1 h
  obtain ⟨arrow, s₂, harrow, h⟩ := bind_eq_ok.1 h
  obtain ⟨value, s₃, hvalue, h⟩ := bind_eq_ok.1 h
  obtain ⟨id', s₄, hfresh', h⟩ := bind_eq_ok.1 h
  obtain ⟨rfl, rfl⟩ := pure_eq_ok.1 h
  obtain ⟨rfl, took₁⟩ := freshId_took hfresh
  obtain ⟨hakind, took₂⟩ := expect_took harrow
  obtain ⟨x, hx, rfl, took₃⟩ := reads_rightHandSide _ _ _ hvalue
  obtain ⟨rfl, took₄⟩ := freshId_took hfresh'
  have haword : arrow.word = .mark .arrow := by simp [Token.word, hakind]
  have took := ((took₁.trans took₂).trans took₃).trans took₄
  rw [haword, List.append_nil, List.append_nil] at took
  refine ⟨.assign token.text x, hx, ?_, _, by rw [word_name hkind]; rfl, took⟩
  rw [took₃.nextId, took₂.nextId, took₁.nextId]
  simp [Phrase.instruction, UInt32.ofNat_add, UInt32.add_assoc]

theorem store_readsFrom (hkind : token.kind = .keyword .store) :
    ReadsFrom (instructionFrom token) Phrase.instruction token := by
  intro s i t h
  simp only [instructionFrom, hkind] at h
  obtain ⟨address, s₁, haddress, h⟩ := bind_eq_ok.1 h
  obtain ⟨id, s₂, hfresh, h⟩ := bind_eq_ok.1 h
  obtain ⟨arrow, s₃, harrow, h⟩ := bind_eq_ok.1 h
  obtain ⟨value, s₄, hvalue, h⟩ := bind_eq_ok.1 h
  obtain ⟨id', s₅, hfresh', h⟩ := bind_eq_ok.1 h
  obtain ⟨rfl, rfl⟩ := pure_eq_ok.1 h
  obtain ⟨x, -, rfl, took₁⟩ := reads_var _ _ _ haddress
  obtain ⟨rfl, took₂⟩ := freshId_took hfresh
  obtain ⟨hakind, took₃⟩ := expect_took harrow
  obtain ⟨v, hv, rfl, took₄⟩ := reads_value _ _ _ hvalue
  obtain ⟨rfl, took₅⟩ := freshId_took hfresh'
  have haword : arrow.word = .mark .arrow := by simp [Token.word, hakind]
  have hword : token.word = .mark (.keyword .store) := by simp [Token.word, hkind]
  have took := (((took₁.trans took₂).trans took₃).trans took₄).trans took₅
  rw [haword] at took
  refine ⟨.store x v, hv, ?_, _, by rw [hword]; rfl, took⟩
  rw [took₄.nextId, took₃.nextId, took₂.nextId, took₁.nextId]
  simp [Phrase.instruction, Phrase.parameter, Phrase.value, UInt32.add_assoc]

theorem branch_readsFrom (hkind : token.kind = .keyword .branch) :
    ReadsFrom (instructionFrom token) Phrase.instruction token := by
  intro s i t h
  have hword : token.word = .mark (.keyword .branch) := by simp [Token.word, hkind]
  simp only [instructionFrom, hkind] at h
  obtain ⟨target, s₁, htarget, h⟩ := bind_eq_ok.1 h
  have took₁ := next_took htarget
  have hid : s₁.nextId = s.nextId := by simp [took₁.nextId]
  cases htkind : target.kind with
  | label =>
      simp only [htkind] at h
      obtain ⟨id, s₂, hfresh, h⟩ := bind_eq_ok.1 h
      obtain ⟨id', s₃, hfresh', h⟩ := bind_eq_ok.1 h
      obtain ⟨rfl, rfl⟩ := pure_eq_ok.1 h
      obtain ⟨rfl, took₂⟩ := freshId_took hfresh
      obtain ⟨rfl, took₃⟩ := freshId_took hfresh'
      have took := (took₁.trans took₂).trans took₃
      rw [word_label htkind] at took
      refine ⟨.goto target.text, trivial, ?_, _, by rw [hword]; rfl, took⟩
      rw [took₂.nextId, hid]
      rfl
  | identifier =>
      simp only [htkind] at h
      obtain ⟨id, s₂, hfresh, h⟩ := bind_eq_ok.1 h
      obtain ⟨onTrue, s₃, hTrue, h⟩ := bind_eq_ok.1 h
      obtain ⟨onFalse, s₄, hFalse, h⟩ := bind_eq_ok.1 h
      obtain ⟨id', s₅, hfresh', h⟩ := bind_eq_ok.1 h
      obtain ⟨rfl, rfl⟩ := pure_eq_ok.1 h
      obtain ⟨rfl, took₂⟩ := freshId_took hfresh
      obtain ⟨true', rfl, took₃⟩ := label_took hTrue
      obtain ⟨false', rfl, took₄⟩ := label_took hFalse
      obtain ⟨rfl, took₅⟩ := freshId_took hfresh'
      have took := (((took₁.trans took₂).trans took₃).trans took₄).trans took₅
      rw [word_name htkind] at took
      refine ⟨.branch target.text true' false', trivial, ?_, _, by rw [hword]; rfl, took⟩
      rw [took₄.nextId, took₃.nextId, took₂.nextId, hid]
      simp [Phrase.instruction, UInt32.add_assoc]
  | _ =>
      simp only [htkind] at h
      exact absurd h fail_ne_ok

theorem return_readsFrom (hkind : token.kind = .keyword .ret) :
    ReadsFrom (instructionFrom token) Phrase.instruction token := by
  intro s i t h
  have hword : token.word = .mark (.keyword .ret) := by simp [Token.word, hkind]
  simp only [instructionFrom, hkind] at h
  obtain ⟨tokens, s₁, hahead, h⟩ := bind_eq_ok.1 h
  cases hahead
  split at h
  · obtain ⟨value, s₂, hvalue, h⟩ := bind_eq_ok.1 h
    obtain ⟨id, s₃, hfresh, h⟩ := bind_eq_ok.1 h
    obtain ⟨rfl, rfl⟩ := pure_eq_ok.1 h
    obtain ⟨x, hx, rfl, took₁⟩ := reads_operand _ _ _ hvalue
    obtain ⟨rfl, took₂⟩ := freshId_took hfresh
    refine ⟨.returnValue x, hx, ?_, _, by rw [hword]; rfl, took₁.trans took₂⟩
    rw [took₁.nextId]
    rfl
  · obtain ⟨id, s₂, hfresh, h⟩ := bind_eq_ok.1 h
    obtain ⟨rfl, rfl⟩ := pure_eq_ok.1 h
    obtain ⟨rfl, took⟩ := freshId_took hfresh
    exact ⟨.returnVoid, trivial, rfl, [], by rw [hword]; rfl, took⟩

theorem call_readsFrom (hkind : token.kind = .keyword .call) :
    ReadsFrom (instructionFrom token) Phrase.instruction token := by
  intro s i t h
  have hword : token.word = .mark (.keyword .call) := by simp [Token.word, hkind]
  simp only [instructionFrom, hkind] at h
  obtain ⟨c, s₁, hcall, h⟩ := bind_eq_ok.1 h
  obtain ⟨rfl, rfl⟩ := pure_eq_ok.1 h
  obtain ⟨x, hx, rfl, took⟩ := reads_call _ _ _ hcall
  exact ⟨.call x, hx, rfl, _, by rw [hword]; rfl, took⟩

theorem instructionFrom_readsFrom (token : Token) :
    ReadsFrom (instructionFrom token) Phrase.instruction token := by
  cases hkind : token.kind with
  | label => exact label_readsFrom hkind
  | identifier => exact assign_readsFrom hkind
  | keyword keyword =>
      cases keyword with
      | store => exact store_readsFrom hkind
      | branch => exact branch_readsFrom hkind
      | ret => exact return_readsFrom hkind
      | call => exact call_readsFrom hkind
      | _ =>
          simp only [instructionFrom, hkind]
          exact yields_fail
  | _ =>
      simp only [instructionFrom, hkind]
      exact yields_fail

theorem reads_instruction : Reads instruction Phrase.instruction :=
  ReadsFrom.reads instructionFrom_readsFrom .instructionOrClose

end Parser

end L3Lowering
