import L3Lowering.Proofs.StepReading

namespace L3Lowering

namespace Parser

open Phrase (Category)

variable {α φ : Type}

theorem reads_var : Reads var Phrase.parameter := by
  intro s v t h
  obtain ⟨token, s₁, htoken, h⟩ := bind_eq_ok.1 h
  obtain ⟨id, s₂, hid, h⟩ := bind_eq_ok.1 h
  obtain ⟨rfl, rfl⟩ := pure_eq_ok.1 h
  obtain ⟨hkind, took₁⟩ := expect_took htoken
  obtain ⟨rfl, took₂⟩ := freshId_took hid
  have took := took₁.trans took₂
  rw [word_name hkind] at took
  exact ⟨token.text, trivial, by simp [took₁.nextId, Phrase.parameter], took⟩

theorem label_took {s t : State} {l : Label} (h : label s = .ok (l, t)) :
    ∃ name, l = ⟨s.nextId, name⟩ ∧ Took s t [.label name] 1 [] := by
  obtain ⟨token, s₁, htoken, h⟩ := bind_eq_ok.1 h
  obtain ⟨id, s₂, hid, h⟩ := bind_eq_ok.1 h
  obtain ⟨rfl, rfl⟩ := pure_eq_ok.1 h
  obtain ⟨hkind, took₁⟩ := expect_took htoken
  obtain ⟨rfl, took₂⟩ := freshId_took hid
  have took := took₁.trans took₂
  rw [word_label hkind] at took
  exact ⟨token.text, by simp [took₁.nextId], took⟩

theorem operandFrom_yields (token : Token) :
    (operandFrom token).Yields fun s a t =>
      ∃ x : Phrase.Operand, x.InRange ∧ a = x.build s.nextId ∧ token.word = x.word ∧
        Took s t [] 1 [] := by
  unfold operandFrom
  split
  · rename_i hkind
    intro s a t h
    obtain ⟨id, s₁, hid, h⟩ := bind_eq_ok.1 h
    obtain ⟨rfl, rfl⟩ := pure_eq_ok.1 h
    obtain ⟨rfl, took⟩ := freshId_took hid
    exact ⟨.var token.text, trivial, rfl, word_name hkind, took⟩
  · rename_i hkind
    split
    · rename_i value hvalue
      intro s a t h
      obtain ⟨id, s₁, hid, h⟩ := bind_eq_ok.1 h
      obtain ⟨rfl, rfl⟩ := pure_eq_ok.1 h
      obtain ⟨rfl, took⟩ := freshId_took hid
      exact ⟨.number token.text, by simp [Phrase.Operand.InRange, hvalue],
        by simp [Phrase.Operand.build, hvalue], word_number hkind, took⟩
    · exact yields_fail
  · exact yields_fail

theorem reads_operand : Reads operand Phrase.operand := by
  intro s a t h
  obtain ⟨token, s₁, htoken, h⟩ := bind_eq_ok.1 h
  have took₁ := next_took htoken
  obtain ⟨x, hrange, rfl, hword, took₂⟩ := operandFrom_yields token _ _ _ h
  have took := took₁.trans took₂
  rw [hword] at took
  exact ⟨x, hrange, by simp [took₁.nextId, Phrase.operand], took⟩

theorem reads_value : Reads value Phrase.value := by
  intro s a t h
  obtain ⟨b, s₁, hpeek, hnext⟩ := bind_eq_ok.1 h
  obtain rfl := nextIs_eq_ok hpeek
  split at hnext
  · obtain ⟨l, s₂, hlabel, h⟩ := bind_eq_ok.1 hnext
    obtain ⟨rfl, rfl⟩ := pure_eq_ok.1 h
    obtain ⟨name, rfl, took⟩ := label_took hlabel
    exact ⟨.label name, trivial, rfl, took⟩
  · obtain ⟨x, hrange, rfl, took⟩ := reads_operand _ _ _ hnext
    exact ⟨.operand x, hrange, rfl, took⟩

theorem reads_argument : Reads argument Phrase.argument := by
  intro s a t h
  obtain ⟨b, s₁, hpeek, hnext⟩ := bind_eq_ok.1 h
  obtain rfl := nextIs_eq_ok hpeek
  split at hnext
  · obtain ⟨token, s₂, htoken, h⟩ := bind_eq_ok.1 hnext
    obtain ⟨⟨⟩, s₃, hnote, h⟩ := bind_eq_ok.1 h
    obtain ⟨id, s₄, hid, h⟩ := bind_eq_ok.1 h
    obtain ⟨rfl, rfl⟩ := pure_eq_ok.1 h
    obtain ⟨hkind, took₁⟩ := expect_took htoken
    have took₂ := took₁.trans (noteCallLabel_took hnote)
    obtain ⟨rfl, took₃⟩ := freshId_took hid
    have took := took₂.trans took₃
    rw [word_label hkind] at took
    exact ⟨.label token.text, trivial, by simp [took₂.nextId, Phrase.argument, Phrase.value,
      Phrase.Value.build], took⟩
  · obtain ⟨x, hrange, rfl, took⟩ := reads_operand _ _ _ hnext
    exact ⟨.operand x, hrange, rfl, took⟩

theorem reads_callee : Reads callee Phrase.callee := by
  intro s a t h
  obtain ⟨token, s₁, htoken, h⟩ := bind_eq_ok.1 h
  have took₁ := next_took htoken
  have hcallee : ∃ x : Phrase.Callee, a = x.build s₁.nextId ∧ token.word = x.word ∧
      Took s₁ t [] 1 x.labels := by
    cases hkind : token.kind with
    | identifier =>
        simp only [hkind] at h
        obtain ⟨id, s₂, hid, h⟩ := bind_eq_ok.1 h
        obtain ⟨rfl, rfl⟩ := pure_eq_ok.1 h
        obtain ⟨rfl, took₂⟩ := freshId_took hid
        exact ⟨.var token.text, rfl, word_name hkind, took₂⟩
    | label =>
        simp only [hkind] at h
        obtain ⟨⟨⟩, s₂, hnote, h⟩ := bind_eq_ok.1 h
        obtain ⟨id, s₃, hid, h⟩ := bind_eq_ok.1 h
        obtain ⟨rfl, rfl⟩ := pure_eq_ok.1 h
        have took₂ := noteCallLabel_took hnote
        obtain ⟨rfl, took₃⟩ := freshId_took hid
        exact ⟨.label token.text, by simp [took₂.nextId, Phrase.Callee.build], word_label hkind,
          took₂.trans took₃⟩
    | keyword keyword =>
        cases keyword with
        | print | allocate | arrayError =>
            simp only [hkind] at h
            obtain ⟨id, s₂, hid, h⟩ := bind_eq_ok.1 h
            obtain ⟨rfl, rfl⟩ := pure_eq_ok.1 h
            obtain ⟨rfl, took₂⟩ := freshId_took hid
            exact ⟨.runtime _, rfl, by rw [Token.word, hkind]; rfl, took₂⟩
        | _ =>
            simp only [hkind] at h
            exact absurd h fail_ne_ok
    | _ =>
        simp only [hkind] at h
        exact absurd h fail_ne_ok
  obtain ⟨x, rfl, hword, took₂⟩ := hcallee
  have took := took₁.trans took₂
  rw [hword] at took
  exact ⟨x, trivial, by simp [took₁.nextId, Phrase.callee], took⟩

variable {category : Category φ α} {item : Parser α}

theorem reads_whileNext (hitem : Reads item category) (again : Option Kind → Bool)
    (consumes : item.Consumes) : Reads (whileNext again item consumes) category.many := by
  intro s as t h
  fun_induction whileNext again item consumes s generalizing as t with
  | case1 => simp at h
  | case2 => simp at h
  | case3 _ s hagain a s₁ hfirst _ as' s₂ hrest ih =>
      cases h
      obtain ⟨x, hx, rfl, took₁⟩ := hitem _ _ _ hfirst
      obtain ⟨xs, hxs, rfl, took₂⟩ := ih _ _ hrest
      refine ⟨x :: xs, ?_, ?_, took₁.trans took₂⟩
      · rintro y (_ | ⟨_, hy⟩)
        · exact hx
        · exact hxs y hy
      · rw [took₁.nextId]
        rfl
  | case4 _ s hagain =>
      cases h
      exact ⟨[], by simp [Category.many], rfl, Took.refl s⟩

theorem reads_afterComma (hitem : Reads item category) :
    Reads (afterComma item) category.afterComma := by
  intro s a t h
  obtain ⟨token, s₁, htoken, h⟩ := bind_eq_ok.1 h
  obtain ⟨hkind, took₁⟩ := expect_took htoken
  obtain ⟨x, hx, rfl, took₂⟩ := hitem _ _ _ h
  have hword : token.word = .mark .comma := by simp [Token.word, hkind]
  have took := took₁.trans took₂
  rw [hword, Nat.zero_add] at took
  refine ⟨x, hx, ?_, took⟩
  rw [took₁.nextId]
  simp [Category.afterComma]

theorem reads_items (hitem : Reads item category) (first : Expectation)
    (consumes : item.Consumes) : Reads (items first item consumes) category.separated := by
  intro s as t h
  obtain ⟨token, s₁, hpeek, hitems⟩ := bind_eq_ok.1 h
  have hstay : s₁ = s := by
    unfold peek at hpeek
    split at hpeek
    · simp at hpeek
    · cases hpeek
      rfl
  subst hstay
  split at hitems
  · obtain ⟨rfl, rfl⟩ := pure_eq_ok.1 hitems
    exact ⟨[], by simp [Category.separated, Category.many], rfl, Took.refl _⟩
  · obtain ⟨a, s₂, hfirst, h⟩ := bind_eq_ok.1 hitems
    obtain ⟨as', s₃, hothers, h⟩ := bind_eq_ok.1 h
    obtain ⟨rfl, rfl⟩ := pure_eq_ok.1 h
    obtain ⟨x, hx, rfl, took₁⟩ := hitem _ _ _ hfirst
    obtain ⟨xs, hxs, rfl, took₂⟩ :=
      reads_whileNext (reads_afterComma hitem) _ _ _ _ _ hothers
    refine ⟨x :: xs, ?_, ?_, took₁.trans took₂⟩
    · rintro y (_ | ⟨_, hy⟩)
      · exact hx
      · exact hxs y hy
    · rw [took₁.nextId]
      rfl

theorem reads_listOf (hitem : Reads item category) (first : Expectation)
    (consumes : item.Consumes) : Reads (listOf first item consumes) category.enclosed := by
  intro s as t h
  obtain ⟨opening, s₁, hopening, h⟩ := bind_eq_ok.1 h
  obtain ⟨as', s₂, hitems, h⟩ := bind_eq_ok.1 h
  obtain ⟨closing, s₃, hclosing, h⟩ := bind_eq_ok.1 h
  obtain ⟨rfl, rfl⟩ := pure_eq_ok.1 h
  obtain ⟨hopen, took₁⟩ := expect_took hopening
  obtain ⟨xs, hxs, rfl, took₂⟩ := reads_items hitem _ _ _ _ _ hitems
  obtain ⟨hclose, took₃⟩ := expect_took hclosing
  have hopen : opening.word = .mark .openParen := by simp [Token.word, hopen]
  have hclose : closing.word = .mark .closeParen := by simp [Token.word, hclose]
  have took := took₁.trans (took₂.trans took₃)
  rw [hopen, hclose, Nat.zero_add, Nat.add_zero, List.nil_append, List.append_nil] at took
  refine ⟨xs, hxs, ?_, took⟩
  rw [took₁.nextId]
  simp [Category.enclosed]

theorem reads_call : Reads call Phrase.call := by
  intro s c t h
  obtain ⟨callee, s₁, hcallee, h⟩ := bind_eq_ok.1 h
  obtain ⟨arguments, s₂, harguments, h⟩ := bind_eq_ok.1 h
  obtain ⟨id, s₃, hid, h⟩ := bind_eq_ok.1 h
  obtain ⟨rfl, rfl⟩ := pure_eq_ok.1 h
  obtain ⟨x, -, rfl, took₁⟩ := reads_callee _ _ _ hcallee
  obtain ⟨xs, hxs, rfl, took₂⟩ := reads_listOf reads_argument _ _ _ _ _ harguments
  obtain ⟨rfl, took₃⟩ := freshId_took hid
  have took := (took₁.trans took₂).trans took₃
  rw [List.append_nil, List.append_nil] at took
  refine ⟨⟨x, xs⟩, hxs, ?_, took⟩
  rw [(took₁.trans took₂).nextId, took₁.nextId]
  rfl

end Parser

end L3Lowering
