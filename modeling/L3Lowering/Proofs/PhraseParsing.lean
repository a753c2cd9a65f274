import L3Lowering.Proofs.StepParsing

namespace L3Lowering

namespace Parser

open Phrase (Category)

variable {α φ : Type}

variable {s : State} {rest : List Word} {token : Token} {name : String}

theorem accepts_var : Accepts var Phrase.parameter fun _ => True := by
  intro s name rest _ hs _
  obtain ⟨token, hword, s₁, htoken, took₁⟩ := expect_gives .var hs rfl
  obtain ⟨s₂, hid, took₂⟩ := freshId_gives s₁
  refine ⟨s₂, bind_eq_ok.2 ⟨_, _, htoken, bind_eq_ok.2 ⟨_, _, hid, pure_eq_ok.2 ⟨?_, rfl⟩⟩⟩,
    took₁.trans took₂⟩
  rw [took₁.nextId, text_of_word_name hword]
  simp [Phrase.parameter]

theorem label_gives (h : s.words = .label name :: rest) :
    Gives label s ⟨s.nextId, name⟩ [.label name] 1 [] := by
  obtain ⟨token, hword, s₁, htoken, took₁⟩ := expect_gives .label h rfl
  obtain ⟨s₂, hid, took₂⟩ := freshId_gives s₁
  refine ⟨s₂, bind_eq_ok.2 ⟨_, _, htoken, bind_eq_ok.2 ⟨_, _, hid, pure_eq_ok.2 ⟨?_, rfl⟩⟩⟩,
    took₁.trans took₂⟩
  rw [took₁.nextId, text_of_word_label hword]
  simp

theorem operandFrom_gives {x : Phrase.Operand} (hx : x.InRange) (hword : token.word = x.word)
    (s : State) : Gives (operandFrom token) s (x.build s.nextId) [] 1 [] := by
  obtain ⟨t, hid, took⟩ := freshId_gives s
  refine ⟨t, ?_, took⟩
  have hkind := kind_of_word hword
  cases x with
  | var name =>
      simp only [operandFrom, hkind, Phrase.Operand.word, Word.kind]
      refine bind_eq_ok.2 ⟨_, _, hid, pure_eq_ok.2 ⟨?_, rfl⟩⟩
      rw [text_of_word_name hword]
      rfl
  | number text =>
      obtain ⟨value, hvalue⟩ := Option.isSome_iff_exists.1 hx
      simp only [operandFrom, hkind, Phrase.Operand.word, Word.kind, text_of_word_number hword,
        hvalue]
      refine bind_eq_ok.2 ⟨_, _, hid, pure_eq_ok.2 ⟨?_, rfl⟩⟩
      rw [Phrase.Operand.build, hvalue]
      rfl

theorem accepts_operand : Accepts operand Phrase.operand fun _ => True := by
  intro s x rest hx hs _
  obtain ⟨token, hword, s₁, htoken, took₁⟩ := next_gives .operand hs
  obtain ⟨s₂, hfrom, took₂⟩ := operandFrom_gives hx hword s₁
  refine ⟨s₂, bind_eq_ok.2 ⟨_, _, htoken, ?_⟩, took₁.trans took₂⟩
  rw [hfrom, took₁.nextId]
  simp [Phrase.operand]

theorem nextIs_label_operand {x : Phrase.Operand} (hs : s.words = x.word :: rest) :
    nextIs .label s = .ok (false, s) := by
  rw [nextIs_apply, hs]
  cases x <;> rfl

theorem nextIs_label_label (hs : s.words = .label name :: rest) :
    nextIs .label s = .ok (true, s) := by
  rw [nextIs_apply, hs]
  rfl

theorem accepts_value : Accepts value Phrase.value fun _ => True := by
  intro s x rest hx hs _
  cases x with
  | operand o =>
      obtain ⟨t, ho, took⟩ := accepts_operand s o rest hx hs trivial
      exact ⟨t, bind_eq_ok.2 ⟨_, _, nextIs_label_operand hs, ho⟩, took⟩
  | label name =>
      obtain ⟨t, hname, took⟩ := label_gives hs
      exact ⟨t, bind_eq_ok.2 ⟨_, _, nextIs_label_label hs, bind_eq_ok.2 ⟨_, _, hname, rfl⟩⟩, took⟩

theorem accepts_argument : Accepts argument Phrase.argument fun _ => True := by
  intro s x rest hx hs _
  cases x with
  | operand o =>
      obtain ⟨t, ho, took⟩ := accepts_operand s o rest hx hs trivial
      exact ⟨t, bind_eq_ok.2 ⟨_, _, nextIs_label_operand hs, ho⟩, took⟩
  | label name =>
      obtain ⟨token, hword, s₁, htoken, took₁⟩ := expect_gives .label hs rfl
      obtain ⟨s₂, hnote, took₂⟩ := noteCallLabel_gives token s₁
      obtain ⟨s₃, hid, took₃⟩ := freshId_gives s₂
      have took := (took₁.trans took₂).trans took₃
      rw [text_of_word_label hword] at took
      refine ⟨s₃, bind_eq_ok.2 ⟨_, _, nextIs_label_label hs, bind_eq_ok.2 ⟨_, _, htoken,
        bind_eq_ok.2 ⟨_, _, hnote, bind_eq_ok.2 ⟨_, _, hid, pure_eq_ok.2 ⟨?_, rfl⟩⟩⟩⟩⟩, took⟩
      rw [took₂.nextId, took₁.nextId, text_of_word_label hword]
      simp [Phrase.argument, Phrase.value, Phrase.Value.build]

theorem accepts_callee : Accepts callee Phrase.callee fun _ => True := by
  intro s x rest _ hs _
  obtain ⟨token, hword, s₁, htoken, took₁⟩ := next_gives .callee hs
  have hkind := kind_of_word hword
  have hid₁ : s₁.nextId = s.nextId := by simp [took₁.nextId]
  cases x with
  | var name =>
      obtain ⟨s₂, hid, took₂⟩ := freshId_gives s₁
      refine ⟨s₂, bind_eq_ok.2 ⟨_, _, htoken, ?_⟩, took₁.trans took₂⟩
      simp only [hkind, Phrase.Callee.word, Word.kind]
      refine bind_eq_ok.2 ⟨_, _, hid, pure_eq_ok.2 ⟨?_, rfl⟩⟩
      rw [hid₁, text_of_word_name hword]
      rfl
  | label name =>
      obtain ⟨s₂, hnote, took₂⟩ := noteCallLabel_gives token s₁
      obtain ⟨s₃, hid, took₃⟩ := freshId_gives s₂
      have took := (took₁.trans took₂).trans took₃
      rw [text_of_word_label hword] at took
      refine ⟨s₃, bind_eq_ok.2 ⟨_, _, htoken, ?_⟩, took⟩
      simp only [hkind, Phrase.Callee.word, Word.kind]
      refine bind_eq_ok.2 ⟨_, _, hnote, bind_eq_ok.2 ⟨_, _, hid, pure_eq_ok.2 ⟨?_, rfl⟩⟩⟩
      rw [took₂.nextId, hid₁, text_of_word_label hword]
      simp [Phrase.callee, Phrase.Callee.build]
  | runtime function =>
      obtain ⟨s₂, hid, took₂⟩ := freshId_gives s₁
      refine ⟨s₂, bind_eq_ok.2 ⟨_, _, htoken, ?_⟩, took₁.trans took₂⟩
      rw [← hid₁]
      cases function with
      | print | allocate | arrayError =>
          simp only [hkind, Phrase.Callee.word, Word.kind, Runtime.keyword]
          exact bind_eq_ok.2 ⟨_, _, hid, rfl⟩

variable {category : Category φ α} {item : Parser α}

theorem whileNext_gives {follow : List Word → Prop} (hitem : Accepts item category follow)
    (again : Option Kind → Bool) (consumes : item.Consumes)
    (hagain : ∀ x rest, again ((category.words x ++ rest).head?.map Word.kind) = true)
    (hstop : again (rest.head?.map Word.kind) = false)
    (hfollow : ∀ xs, follow (category.many.words xs ++ rest))
    (xs : List φ) (s : State) (hrange : category.many.InRange xs)
    (hs : s.words = category.many.words xs ++ rest) :
    Gives (whileNext again item consumes) s (category.many.build s.nextId xs)
      (category.many.words xs) (category.many.size xs) (category.many.calls xs) := by
  -- The words of the other phrases, and then `rest`, follow the first phrase.
  induction xs generalizing s with
  | nil =>
      refine ⟨s, ?_, Took.refl s⟩
      have hs : s.words = rest := hs
      rw [whileNext_apply, head?_kind, hs, hstop]
      rfl
  | cons x xs ih =>
      have hs : s.words = category.words x ++ (category.many.words xs ++ rest) := by
        rw [hs, Category.words_many_cons, List.append_assoc]
      obtain ⟨s₁, hfirst, took₁⟩ := hitem s x _ (hrange x List.mem_cons_self) hs (hfollow xs)
      obtain ⟨s₂, hothers, took₂⟩ := ih s₁ (fun y hy => hrange y (List.mem_cons_of_mem x hy))
        (took₁.rest_eq hs)
      refine ⟨s₂, ?_, took₁.trans took₂⟩
      rw [whileNext_apply, head?_kind, hs, if_pos (hagain _ _)]
      refine bind_eq_ok.2 ⟨_, _, hfirst, bind_eq_ok.2 ⟨_, _, hothers, pure_eq_ok.2 ⟨?_, rfl⟩⟩⟩
      rw [took₁.nextId]
      rfl

theorem accepts_afterComma (hitem : Accepts item category fun _ => True) :
    Accepts (afterComma item) category.afterComma fun _ => True := by
  intro s x rest hx hs _
  obtain ⟨token, -, s₁, htoken, took₁⟩ := expect_gives .commaOrClose hs rfl
  obtain ⟨s₂, hgives, took₂⟩ := hitem s₁ x rest hx (took₁.rest_eq hs) trivial
  have took := took₁.trans took₂
  rw [Nat.zero_add] at took
  refine ⟨s₂, bind_eq_ok.2 ⟨_, _, htoken, ?_⟩, took⟩
  rw [hgives, took₁.nextId]
  simp [Category.afterComma]

/-- Items are read up to a closing parenthesis, which must not be able to start one. -/
theorem accepts_items (hitem : Accepts item category fun _ => True) (first : Expectation)
    (consumes : item.Consumes)
    (hstart : ∀ x, ∃ word words, category.words x = word :: words ∧ word.kind ≠ .closeParen) :
    Accepts (items first item consumes) category.separated
      fun rest => rest.head? = some (.mark .closeParen) := by
  intro s xs rest hrange hs hclose
  cases xs with
  | nil =>
      obtain ⟨words, rfl⟩ := List.head?_eq_some_iff.1 hclose
      obtain ⟨token, hword, hpeek⟩ := peek_gives first hs
      have hkind : token.kind = .closeParen := kind_of_word hword
      refine ⟨s, bind_eq_ok.2 ⟨_, _, hpeek, ?_⟩, Took.refl s⟩
      rw [if_pos hkind]
      rfl
  | cons x xs =>
      obtain ⟨word, words, hwords, hkind⟩ := hstart x
      have hs : s.words = category.words x ++ (category.afterComma.many.words xs ++ rest) := by
        rw [hs, ← List.append_assoc]
        rfl
      obtain ⟨s₁, hfirst, took₁⟩ := hitem s x _ (hrange x List.mem_cons_self) hs trivial
      have hstop : (rest.head?.map Word.kind == some .comma) = false := by
        rw [hclose]
        rfl
      obtain ⟨s₂, hothers, took₂⟩ := whileNext_gives (accepts_afterComma hitem)
        (· == some .comma) (consumes_afterComma consumes) (fun _ _ => rfl) hstop
        (fun _ => trivial) xs s₁ (fun y hy => hrange y (List.mem_cons_of_mem x hy))
        (took₁.rest_eq hs)
      rw [hwords] at hs
      obtain ⟨token, hword, hpeek⟩ := peek_gives first hs
      refine ⟨s₂, bind_eq_ok.2 ⟨_, _, hpeek, ?_⟩, took₁.trans took₂⟩
      rw [if_neg (by rwa [kind_of_word hword])]
      refine bind_eq_ok.2 ⟨_, _, hfirst, bind_eq_ok.2 ⟨_, _, hothers, pure_eq_ok.2 ⟨?_, rfl⟩⟩⟩
      rw [took₁.nextId]
      rfl

theorem accepts_listOf (hitem : Accepts item category fun _ => True) (first : Expectation)
    (consumes : item.Consumes)
    (hstart : ∀ x, ∃ word words, category.words x = word :: words ∧ word.kind ≠ .closeParen) :
    Accepts (listOf first item consumes) category.enclosed fun _ => True := by
  intro s xs rest hrange hs _
  have hs : s.words = .mark .openParen :: (category.separated.words xs
      ++ .mark .closeParen :: rest) := by
    rw [hs]
    simp [Category.enclosed]
  obtain ⟨opening, -, s₁, hopening, took₁⟩ := expect_gives .openParen hs rfl
  have hs₁ := took₁.rest_eq hs
  obtain ⟨s₂, hitems, took₂⟩ := accepts_items hitem first consumes hstart s₁ xs _ hrange hs₁ rfl
  obtain ⟨closing, -, s₃, hclosing, took₃⟩ := expect_gives .commaOrClose (took₂.rest_eq hs₁) rfl
  have took := took₁.trans (took₂.trans took₃)
  rw [Nat.zero_add, Nat.add_zero, List.nil_append, List.append_nil] at took
  refine ⟨s₃, bind_eq_ok.2 ⟨_, _, hopening, bind_eq_ok.2 ⟨_, _, hitems,
    bind_eq_ok.2 ⟨_, _, hclosing, pure_eq_ok.2 ⟨?_, rfl⟩⟩⟩⟩, took⟩
  rw [took₁.nextId]
  simp [Category.enclosed]

theorem accepts_call : Accepts call Phrase.call fun _ => True := by
  intro s x rest hx hs _
  obtain ⟨s₁, hcallee, took₁⟩ := accepts_callee s x.callee _ trivial hs trivial
  have hstart (v : Phrase.Value) : ∃ word words, Phrase.argument.words v = word :: words ∧
      word.kind ≠ .closeParen := by
    refine ⟨v.word, [], rfl, ?_⟩
    rcases v with (_ | _) | _ <;> simp [Phrase.Value.word, Phrase.Operand.word, Word.kind]
  obtain ⟨s₂, harguments, took₂⟩ := accepts_listOf accepts_argument .argumentOrClose
    consumes_argument hstart s₁ x.arguments rest hx (took₁.rest_eq hs) trivial
  obtain ⟨s₃, hid, took₃⟩ := freshId_gives s₂
  have took := (took₁.trans took₂).trans took₃
  rw [List.append_nil, List.append_nil] at took
  refine ⟨s₃, bind_eq_ok.2 ⟨_, _, hcallee, bind_eq_ok.2 ⟨_, _, harguments,
    bind_eq_ok.2 ⟨_, _, hid, pure_eq_ok.2 ⟨?_, rfl⟩⟩⟩⟩, took⟩
  rw [(took₁.trans took₂).nextId, took₁.nextId]
  rfl

end Parser

end L3Lowering
