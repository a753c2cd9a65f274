import L3Lowering.Proofs.ProgramParsing

namespace L3Lowering.Phrase

variable {φ α : Type}

/-- Phrases with the same words, before words that satisfy `follow`, are the same. -/
def Category.Unambiguous (category : Category φ α) (follow : List Word → Prop) : Prop :=
  ∀ x y rest rest', category.words x ++ rest = category.words y ++ rest' →
    follow rest → follow rest' → x = y ∧ rest = rest'

@[simp]
theorem Operand.word_inj {x y : Operand} : x.word = y.word ↔ x = y := by
  cases x <;> cases y <;> simp [word]

@[simp]
theorem Operand.word_ne_mark (x : Operand) (kind : Kind) : x.word ≠ .mark kind := by
  cases x <;> simp [word]

@[simp]
theorem Value.word_inj {x y : Value} : x.word = y.word ↔ x = y := by
  rcases x with (_ | _) | _ <;> rcases y with (_ | _) | _ <;> simp [word, Operand.word]

@[simp]
theorem Value.word_ne_mark (x : Value) (kind : Kind) : x.word ≠ .mark kind := by
  rcases x with (_ | _) | _ <;> simp [word, Operand.word]

@[simp]
theorem Callee.word_inj {x y : Callee} : x.word = y.word ↔ x = y := by
  rcases x with _ | _ | (_ | _ | _) <;> rcases y with _ | _ | (_ | _ | _) <;>
    simp [word, Runtime.keyword]

namespace Category

variable {category : Category φ α} {follow stop : List Word → Prop}

theorem Unambiguous.many (h : category.Unambiguous follow)
    (hfollow : ∀ xs rest, stop rest → follow (category.many.words xs ++ rest))
    (hstop : ∀ x rest, ¬ stop (category.words x ++ rest)) :
    category.many.Unambiguous stop := by
  intro xs
  induction xs with
  | nil =>
      intro ys rest rest' hwords hrest hrest'
      cases ys with
      | nil => exact ⟨rfl, hwords⟩
      | cons y ys =>
          have hwords : rest = category.words y ++ (category.many.words ys ++ rest') := by
            rw [← List.append_assoc, ← words_many_cons]
            exact hwords
          exact absurd (hwords ▸ hrest) (hstop y _)
  | cons x xs ih =>
      intro ys rest rest' hwords hrest hrest'
      rw [words_many_cons, List.append_assoc] at hwords
      cases ys with
      | nil =>
          have hwords : category.words x ++ (category.many.words xs ++ rest) = rest' := hwords
          exact absurd (hwords ▸ hrest') (hstop x _)
      | cons y ys =>
          rw [words_many_cons, List.append_assoc] at hwords
          obtain ⟨rfl, hothers⟩ := h x y _ _ hwords (hfollow xs rest hrest)
            (hfollow ys rest' hrest')
          obtain ⟨rfl, hend⟩ := ih ys rest rest' hothers hrest hrest'
          exact ⟨rfl, hend⟩

theorem Unambiguous.afterComma (h : category.Unambiguous follow) :
    category.afterComma.Unambiguous follow := by
  intro x y rest rest' hwords
  exact h x y rest rest' (List.cons.inj hwords).2

theorem Unambiguous.separated (h : category.Unambiguous fun _ => True)
    (hstart : ∀ x rest, (category.words x ++ rest).head? ≠ some (.mark .closeParen)) :
    category.separated.Unambiguous fun rest => rest.head? = some (.mark .closeParen) := by
  have hmany : category.afterComma.many.Unambiguous fun rest =>
      rest.head? = some (.mark .closeParen) := by
    apply h.afterComma.many
    · intro xs rest _
      trivial
    · intro x rest hclose
      simp [Category.afterComma] at hclose
  have hne (x : φ) (xs : List φ) (rest : List Word) :
      (category.separated.words (x :: xs) ++ rest).head? ≠ some (.mark .closeParen) := by
    rw [Category.separated, List.append_assoc]
    exact hstart x _
  intro xs ys rest rest' hwords hrest hrest'
  cases xs with
  | nil =>
      cases ys with
      | nil => exact ⟨rfl, hwords⟩
      | cons y ys => exact absurd (hwords ▸ hrest) (hne y ys rest')
  | cons x xs =>
      cases ys with
      | nil => exact absurd (hwords ▸ hrest') (hne x xs rest)
      | cons y ys =>
          -- With a comma in front, these are lists of phrases that follow a comma.
          have hcommas := congrArg (List.cons (.mark .comma)) hwords
          exact hmany (x :: xs) (y :: ys) rest rest' hcommas hrest hrest'

theorem Unambiguous.enclosed (h : category.Unambiguous fun _ => True)
    (hstart : ∀ x rest, (category.words x ++ rest).head? ≠ some (.mark .closeParen)) :
    category.enclosed.Unambiguous fun _ => True := by
  intro xs ys rest rest' hwords _ _
  have hwords := (List.cons.inj hwords).2
  simp only [List.append_eq, List.append_assoc, List.singleton_append] at hwords
  obtain ⟨rfl, hend⟩ := h.separated hstart xs ys _ _ hwords rfl rfl
  exact ⟨rfl, (List.cons.inj hend).2⟩

end Category

theorem unambiguous_of_word {category : Category φ α} {word : φ → Word}
    (hwords : ∀ x, category.words x = [word x]) (hinj : ∀ {x y}, word x = word y → x = y) :
    category.Unambiguous fun _ => True := by
  intro x y rest rest' h _ _
  rw [hwords, hwords] at h
  obtain ⟨hword, hrest⟩ := List.cons.inj h
  exact ⟨hinj hword, hrest⟩

theorem call_unambiguous : call.Unambiguous fun _ => True := by
  rintro ⟨callee, arguments⟩ ⟨callee', arguments'⟩ rest rest' h _ _
  have hmany : argument.enclosed.Unambiguous fun _ => True := by
    apply (unambiguous_of_word (fun _ => rfl) Value.word_inj.1).enclosed
    intro v rest
    simp [argument, value]
  obtain ⟨hcallee, hwords⟩ := List.cons.inj h
  obtain ⟨rfl, hrest⟩ := hmany arguments arguments' rest rest' hwords trivial trivial
  exact ⟨congrArg (Call.mk · arguments) (Callee.word_inj.1 hcallee), hrest⟩

theorem rightHandSide_unambiguous : rightHandSide.Unambiguous
    fun rest => ∀ op, rest.head? ≠ some (.mark (.operator op)) := by
  intro x y rest rest' h hrest hrest'
  cases x with
  | value v =>
      cases y with
      | value w => simpa [rightHandSide] using h
      | operation op lhs rhs =>
          obtain ⟨-, rfl⟩ := List.cons.inj h
          exact absurd rfl (hrest op)
      | load | call => simp [rightHandSide] at h
  | operation op lhs rhs =>
      cases y with
      | value w =>
          obtain ⟨-, rfl⟩ := List.cons.inj h
          exact absurd rfl (hrest' op)
      | operation op' lhs' rhs' =>
          simp only [rightHandSide, List.cons_append, List.nil_append, List.cons.injEq,
            Operand.word_inj, Word.mark.injEq, Kind.operator.injEq] at h
          obtain ⟨rfl, rfl, rfl, rfl⟩ := h
          exact ⟨rfl, rfl⟩
      | load | call => simp [rightHandSide] at h
  | load address =>
      cases y with
      | load address' => simpa [rightHandSide] using h
      | value | operation | call =>
          have hsymm := h.symm
          simp [rightHandSide] at hsymm
  | call c =>
      cases y with
      | call d =>
          obtain ⟨rfl, hend⟩ := call_unambiguous c d rest rest' (List.cons.inj h).2 trivial trivial
          exact ⟨rfl, hend⟩
      | value | operation | load =>
          have hsymm := h.symm
          simp [rightHandSide] at hsymm

theorem Operand.startReturned_word (x : Operand) {rest : List Word}
    (h : rest.head? ≠ some (.mark .arrow)) : Word.startReturned (x.word :: rest) = true := by
  cases x with
  | var name => simpa [word, Word.startReturned] using h
  | number text => rfl

theorem not_separate_word (x : Operand) {rest : List Word} (h : Word.Separate rest) :
    ¬ Word.Separate (x.word :: rest) := by
  intro hword
  have hstart := hword.returned
  rw [x.startReturned_word h.arrow] at hstart
  cases hstart

theorem instruction_unambiguous : instruction.Unambiguous Word.Separate := by
  intro x y rest rest' h hrest hrest'
  cases x with
  | label name =>
      cases y with
      | label name' => simpa [instruction] using h
      | _ => simp [instruction] at h
  | assign target value =>
      cases y with
      | assign target' value' =>
          simp only [instruction, List.cons_append, List.cons.injEq, Word.name.injEq,
            true_and] at h
          obtain ⟨rfl, hvalue⟩ := h
          obtain ⟨rfl, hend⟩ := rightHandSide_unambiguous value value' rest rest' hvalue
            hrest.operator hrest'.operator
          exact ⟨rfl, hend⟩
      | _ => simp [instruction] at h
  | store address v =>
      cases y with
      | store address' w => simpa [instruction, and_assoc] using h
      | _ => simp [instruction] at h
  | goto target =>
      cases y with
      | goto target' => simpa [instruction] using h
      | _ => simp [instruction] at h
  | branch condition onTrue onFalse =>
      cases y with
      | branch condition' onTrue' onFalse' => simpa [instruction, and_assoc] using h
      | _ => simp [instruction] at h
  | returnValue o =>
      cases y with
      | returnValue o' => simpa [instruction] using h
      | returnVoid =>
          obtain ⟨-, rfl⟩ := List.cons.inj h
          exact absurd hrest' (not_separate_word o hrest)
      | _ => simp [instruction] at h
  | returnVoid =>
      cases y with
      | returnValue o =>
          obtain ⟨-, rfl⟩ := List.cons.inj h
          exact absurd hrest (not_separate_word o hrest')
      | returnVoid => exact ⟨rfl, (List.cons.inj h).2⟩
      | _ => simp [instruction] at h
  | call c =>
      cases y with
      | call d =>
          obtain ⟨rfl, hend⟩ := call_unambiguous c d rest rest' (List.cons.inj h).2 trivial trivial
          exact ⟨rfl, hend⟩
      | _ => simp [instruction] at h

theorem body_unambiguous :
    instruction.many.Unambiguous fun rest => rest.head? = some (.mark .closeBrace) := by
  apply instruction_unambiguous.many
  · intro xs rest hclose
    obtain ⟨words, rfl⟩ := List.head?_eq_some_iff.1 hclose
    exact Parser.separate_body xs words
  · intro x rest hclose
    obtain ⟨word, words, hwords, hkind⟩ := Parser.words_instruction_eq_cons x
    rw [hwords] at hclose
    cases hclose
    exact hkind rfl

theorem function_unambiguous : function.Unambiguous fun _ => True := by
  rintro ⟨name, parameters, body⟩ ⟨name', parameters', body'⟩ rest rest' h _ _
  have hlist : parameter.enclosed.Unambiguous fun _ => True := by
    apply (unambiguous_of_word (fun _ => rfl) Word.name.inj).enclosed
    intro name rest
    simp [parameter]
  simp only [function, List.cons_append, List.append_assoc, List.nil_append, List.cons.injEq,
    Word.label.injEq, true_and] at h
  obtain ⟨rfl, hparameters⟩ := h
  obtain ⟨rfl, hopen⟩ := hlist parameters parameters' _ _ hparameters trivial trivial
  obtain ⟨rfl, hclose⟩ := body_unambiguous body body' _ _ (List.cons.inj hopen).2 rfl rfl
  exact ⟨rfl, (List.cons.inj hclose).2⟩

theorem functions_unambiguous {xs ys : List Function}
    (h : function.many.words xs = function.many.words ys) : xs = ys := by
  have hmany : function.many.Unambiguous (· = []) := by
    apply function_unambiguous.many
    · intro xs rest _
      trivial
    · intro x rest hnil
      simp [function] at hnil
  refine (hmany xs ys [] [] ?_ rfl rfl).1
  rw [h]

end L3Lowering.Phrase
