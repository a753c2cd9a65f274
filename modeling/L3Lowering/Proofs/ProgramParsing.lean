import L3Lowering.Proofs.InstructionParsing

namespace L3Lowering

namespace Parser

open Phrase (Category)

variable {s : State}

theorem accepts_function : Accepts function Phrase.function fun _ => True := by
  intro s f rest hf hs _
  have hs : s.words = .mark (.keyword .define) :: .label f.name ::
      (Phrase.parameter.enclosed.words f.parameters ++ .mark .openBrace ::
        (Phrase.instruction.many.words f.body ++ .mark .closeBrace :: rest)) := by
    rw [hs]
    simp [Phrase.function]
  obtain ⟨define, -, s₁, hdefine, took₁⟩ := expect_gives .define hs rfl
  have hs₁ := took₁.rest_eq hs
  obtain ⟨s₂, hname, took₂⟩ := label_gives hs₁
  have hs₂ := took₂.rest_eq hs₁
  obtain ⟨s₃, hparameters, took₃⟩ := accepts_listOf accepts_var .parameterOrClose consumes_var
    (fun name => ⟨.name name, [], rfl, by simp [Word.kind]⟩) s₂ f.parameters _
    (fun _ _ => trivial) hs₂ trivial
  have hs₃ := took₃.rest_eq hs₂
  obtain ⟨opening, -, s₄, hopening, took₄⟩ := expect_gives .openBrace hs₃ rfl
  have hs₄ := took₄.rest_eq hs₃
  have hagain (x : Phrase.Instruction) (rest : List Word) :
      ((Phrase.instruction.words x ++ rest).head?.map Word.kind != some .closeBrace) = true := by
    obtain ⟨word, words, hwords, hkind⟩ := words_instruction_eq_cons x
    simpa [hwords] using hkind
  obtain ⟨s₅, hbody, took₅⟩ := whileNext_gives accepts_instruction (· != some .closeBrace)
    consumes_instruction hagain rfl (fun xs => separate_body xs rest) f.body s₄ hf hs₄
  obtain ⟨closing, -, s₆, hclosing, took₆⟩ := expect_gives .instructionOrClose
    (took₅.rest_eq hs₄) rfl
  have hcalls : Phrase.parameter.enclosed.calls f.parameters = [] :=
    List.flatMap_eq_nil_iff.2 fun _ _ => rfl
  have took := took₁.trans (took₂.trans (took₃.trans (took₄.trans (took₅.trans took₆))))
  rw [hcalls] at took
  refine ⟨s₆, bind_eq_ok.2 ⟨_, _, hdefine, bind_eq_ok.2 ⟨_, _, hname, bind_eq_ok.2 ⟨_, _,
    hparameters, bind_eq_ok.2 ⟨_, _, hopening, bind_eq_ok.2 ⟨_, _, hbody, bind_eq_ok.2 ⟨_, _,
      hclosing, pure_eq_ok.2 ⟨?_, rfl⟩⟩⟩⟩⟩⟩⟩, ?_⟩
  · rw [took₄.nextId, took₃.nextId, took₂.nextId, took₁.nextId]
    simp [Phrase.function, UInt32.ofNat_add, UInt32.add_assoc]
  · simpa [Phrase.function, Nat.add_assoc] using took

theorem program_gives {x : Phrase.Function} {xs : List Phrase.Function}
    (hrange : Phrase.function.many.InRange (x :: xs))
    (hs : s.words = Phrase.function.many.words (x :: xs)) :
    Gives program s ⟨Phrase.function.many.build s.nextId (x :: xs)⟩
      (Phrase.function.many.words (x :: xs)) (Phrase.function.many.size (x :: xs))
      (Phrase.function.many.calls (x :: xs)) := by
  rw [Category.words_many_cons] at hs
  obtain ⟨s₁, hfirst, took₁⟩ := accepts_function s x _ (hrange x List.mem_cons_self) hs trivial
  have hs₁ : s₁.words = Phrase.function.many.words xs ++ [] := by
    rw [took₁.rest_eq hs, List.append_nil]
  obtain ⟨s₂, hothers, took₂⟩ := whileNext_gives accepts_function Option.isSome consumes_function
    (fun _ _ => rfl) rfl (fun _ => trivial) xs s₁ (fun y hy => hrange y (List.mem_cons_of_mem x hy))
    hs₁
  refine ⟨s₂, bind_eq_ok.2 ⟨_, _, hfirst, bind_eq_ok.2 ⟨_, _, hothers, pure_eq_ok.2 ⟨?_, rfl⟩⟩⟩,
    took₁.trans took₂⟩
  rw [took₁.nextId]
  rfl

end Parser

theorem Program.ofTokens_eq_ok {tokens : List Token} {xs : List Phrase.Function} (hne : xs ≠ [])
    (hrange : Phrase.function.many.InRange xs)
    (hwords : tokens.map Token.word = Phrase.function.many.words xs)
    (hcalls : ∀ name ∈ Phrase.function.many.calls xs,
      name ∈ (Program.mk (Phrase.function.many.build 0 xs)).functionNames) :
    Program.ofTokens tokens = .ok ⟨Phrase.function.many.build 0 xs⟩ := by
  obtain ⟨x, others, rfl⟩ := List.exists_cons_of_ne_nil hne
  obtain ⟨t, hparse, took⟩ := Parser.program_gives (s := ⟨tokens, 0, []⟩) hrange hwords
  have hnoted : t.callLabels.map Token.text = Phrase.function.many.calls (x :: others) := took.calls
  have hstray : (Program.mk (Phrase.function.many.build 0 (x :: others))).strayCallLabel?
      t.callLabels = none := by
    rw [strayCallLabel?, List.find?_eq_none]
    intro token htoken
    have hname := hcalls token.text (hnoted ▸ List.mem_map_of_mem htoken)
    simpa using hname
  rw [ofTokens, hparse]
  simp only [hstray]

end L3Lowering
