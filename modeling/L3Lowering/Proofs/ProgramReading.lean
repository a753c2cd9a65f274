import L3Lowering.Proofs.InstructionReading

namespace L3Lowering

namespace Parser

variable {α : Type} {item : Parser α}

theorem reads_function : Reads function Phrase.function := by
  intro s f t h
  obtain ⟨define, s₁, hdefine, h⟩ := bind_eq_ok.1 h
  obtain ⟨name, s₂, hname, h⟩ := bind_eq_ok.1 h
  obtain ⟨parameters, s₃, hparameters, h⟩ := bind_eq_ok.1 h
  obtain ⟨opening, s₄, hopening, h⟩ := bind_eq_ok.1 h
  obtain ⟨body, s₅, hbody, h⟩ := bind_eq_ok.1 h
  obtain ⟨closing, s₆, hclosing, h⟩ := bind_eq_ok.1 h
  obtain ⟨rfl, rfl⟩ := pure_eq_ok.1 h
  obtain ⟨hdkind, took₁⟩ := expect_took hdefine
  obtain ⟨x, rfl, took₂⟩ := label_took hname
  obtain ⟨xs, -, rfl, took₃⟩ := reads_listOf reads_var _ _ _ _ _ hparameters
  obtain ⟨hokind, took₄⟩ := expect_took hopening
  obtain ⟨is, his, rfl, took₅⟩ := reads_whileNext reads_instruction _ _ _ _ _ hbody
  obtain ⟨hckind, took₆⟩ := expect_took hclosing
  have hdword : define.word = .mark (.keyword .define) := by simp [Token.word, hdkind]
  have howord : opening.word = .mark .openBrace := by simp [Token.word, hokind]
  have hcword : closing.word = .mark .closeBrace := by simp [Token.word, hckind]
  have hcalls : Phrase.parameter.enclosed.calls xs = [] :=
    List.flatMap_eq_nil_iff.2 fun _ _ => rfl
  have took := took₁.trans (took₂.trans (took₃.trans (took₄.trans (took₅.trans took₆))))
  rw [hdword, howord, hcword, hcalls] at took
  refine ⟨⟨x, xs, is⟩, his, ?_, ?_⟩
  · rw [took₄.nextId, took₃.nextId, took₂.nextId, took₁.nextId]
    simp [Phrase.function, UInt32.ofNat_add, UInt32.add_assoc]
  · simpa [Phrase.function, Nat.add_assoc] using took

theorem whileNext_stops (again : Option Kind → Bool) (consumes : item.Consumes) :
    (whileNext again item consumes).Yields fun _ _ t =>
      again (t.tokens.head?.map Token.kind) = false := by
  intro s as t h
  fun_induction whileNext again item consumes s generalizing as t with
  | case1 => simp at h
  | case2 => simp at h
  | case3 _ s hagain a s₁ hfirst _ as' s₂ hrest ih =>
      cases h
      exact ih _ _ hrest
  | case4 _ s hagain =>
      cases h
      simpa using hagain

theorem program_yields : program.Yields fun s p t =>
    ∃ xs, xs ≠ [] ∧ Phrase.function.many.InRange xs ∧
      p = ⟨Phrase.function.many.build s.nextId xs⟩ ∧ t.words = [] ∧
      Took s t (Phrase.function.many.words xs) (Phrase.function.many.size xs)
        (Phrase.function.many.calls xs) := by
  intro s p t h
  obtain ⟨first, s₁, hfirst, h⟩ := bind_eq_ok.1 h
  obtain ⟨others, s₂, hothers, h⟩ := bind_eq_ok.1 h
  obtain ⟨rfl, rfl⟩ := pure_eq_ok.1 h
  obtain ⟨x, hx, rfl, took₁⟩ := reads_function _ _ _ hfirst
  obtain ⟨xs, hxs, rfl, took₂⟩ := reads_whileNext reads_function _ _ _ _ _ hothers
  have hend : s₂.words = [] := by
    have hstop := whileNext_stops _ _ _ _ _ hothers
    cases htokens : s₂.tokens with
    | nil => simp [State.words, htokens]
    | cons token tokens => simp [htokens] at hstop
  refine ⟨x :: xs, by simp, ?_, ?_, hend, took₁.trans took₂⟩
  · rintro y (_ | ⟨_, hy⟩)
    · exact hx
    · exact hxs y hy
  · rw [took₁.nextId]
    rfl

end Parser

/-- An accepted text is spelled by functions, and every label in a call names one of them. -/
theorem Program.phrases_of_ofTokens {tokens : List Token} {program : Program}
    (h : Program.ofTokens tokens = .ok program) :
    ∃ xs, xs ≠ [] ∧ Phrase.function.many.InRange xs ∧
      program = ⟨Phrase.function.many.build 0 xs⟩ ∧
      tokens.map Token.word = Phrase.function.many.words xs ∧
      ∀ name ∈ Phrase.function.many.calls xs, name ∈ program.functionNames := by
  unfold ofTokens at h
  split at h
  · simp at h
  · rename_i parsed s hparse
    split at h
    · simp at h
    · rename_i hstray
      cases h
      obtain ⟨xs, hne, hrange, rfl, hend, took⟩ := Parser.program_yields _ _ _ hparse
      refine ⟨xs, hne, hrange, rfl, ?_, ?_⟩
      · have hwords := took.words
        rwa [hend, List.append_nil] at hwords
      · intro name hname
        have hcalls : s.callLabels.map Token.text = Phrase.function.many.calls xs := took.calls
        rw [← hcalls] at hname
        obtain ⟨token, htoken, rfl⟩ := List.mem_map.1 hname
        have hnone := List.find?_eq_none.1 hstray token htoken
        simpa using hnone

end L3Lowering
