import L3Lowering.Proofs.ProgramReading

namespace L3Lowering

namespace Parser

open Phrase (Category)

variable {α φ : Type}

def Gives (p : Parser α) (s : State) (a : α) (words : List Word) (size : Nat)
    (calls : List String) : Prop :=
  ∃ t, p s = .ok (a, t) ∧ Took s t words size calls

/-- Every phrase of the category is accepted before words that satisfy `follow`. -/
def Accepts (p : Parser α) (category : Category φ α) (follow : List Word → Prop) : Prop :=
  ∀ s x rest, category.InRange x → s.words = category.words x ++ rest → follow rest →
    Gives p s (category.build s.nextId x) (category.words x) (category.size x) (category.calls x)

/-- After its first token, the phrase is accepted before words that satisfy `follow`. -/
def AcceptsFrom (p : Token → Parser α) (category : Category φ α) (follow : List Word → Prop)
    (x : φ) : Prop :=
  ∀ token s words rest, category.words x = token.word :: words → category.InRange x →
    s.words = words ++ rest → follow rest →
      Gives (p token) s (category.build s.nextId x) words (category.size x) (category.calls x)

variable {s t : State} {words rest : List Word} {size : Nat} {calls : List String}

theorem Took.rest_eq (h : Took s t words size calls) (hs : s.words = words ++ rest) :
    t.words = rest := by
  rw [h.words] at hs
  exact List.append_cancel_left hs

theorem freshId_gives (s : State) : Gives freshId s s.nextId [] 1 [] :=
  ⟨_, rfl, (freshId_took rfl).2⟩

theorem noteCallLabel_gives (token : Token) (s : State) :
    Gives (noteCallLabel token) s () [] 0 [token.text] :=
  ⟨_, rfl, noteCallLabel_took rfl⟩

theorem next_gives {word : Word} (expected : Expectation) (h : s.words = word :: rest) :
    ∃ token, token.word = word ∧ Gives (next expected) s token [word] 0 [] := by
  obtain ⟨token, tokens, htokens, rfl, -⟩ := List.map_eq_cons_iff.1 h
  have hnext : next expected s = .ok (token, { s with tokens }) := by
    rw [next, htokens]
  exact ⟨token, rfl, _, hnext, next_took hnext⟩

theorem accepts_of_acceptsFrom {f : Token → Parser α} {category : Category φ α}
    {follow : List Word → Prop} (h : ∀ x, AcceptsFrom f category follow x)
    (hwords : ∀ x, category.words x ≠ []) (expected : Expectation) :
    Accepts (next expected >>= f) category follow := by
  intro s x rest hx hs hrest
  obtain ⟨word, words, hcons⟩ := List.exists_cons_of_ne_nil (hwords x)
  rw [hcons] at hs
  obtain ⟨token, rfl, s₁, htoken, took₁⟩ := next_gives expected hs
  obtain ⟨s₂, hfrom, took₂⟩ := h x token s₁ words rest hcons hx (took₁.rest_eq hs) hrest
  have took := took₁.trans took₂
  rw [Nat.zero_add, List.nil_append, List.singleton_append, ← hcons] at took
  refine ⟨s₂, bind_eq_ok.2 ⟨_, _, htoken, ?_⟩, took⟩
  rw [hfrom, took₁.nextId]
  simp

theorem peek_gives {word : Word} (expected : Expectation) (h : s.words = word :: rest) :
    ∃ token, token.word = word ∧ peek expected s = .ok (token, s) := by
  obtain ⟨token, tokens, htokens, rfl, -⟩ := List.map_eq_cons_iff.1 h
  exact ⟨token, rfl, by rw [peek, htokens]⟩

theorem expect_gives {word : Word} {kind : Kind} (expected : Expectation)
    (h : s.words = word :: rest) (hkind : word.kind = kind) :
    ∃ token, token.word = word ∧ Gives (expect kind expected) s token [word] 0 [] := by
  obtain ⟨token, rfl, hnext⟩ := next_gives expected h
  obtain ⟨t, hnext, took⟩ := hnext
  rw [kind_word] at hkind
  exact ⟨token, rfl, t, bind_eq_ok.2 ⟨token, t, hnext, by rw [if_pos hkind]; rfl⟩, took⟩

theorem head?_kind (s : State) : s.tokens.head?.map Token.kind = s.words.head?.map Word.kind := by
  rw [State.words, List.head?_map, Option.map_map]
  exact congrArg (s.tokens.head?.map ·) (funext fun token => (kind_word token).symm)

theorem nextIs_apply (kind : Kind) (s : State) :
    nextIs kind s = .ok (s.words.head?.map Word.kind == some kind, s) := by
  have hany : s.tokens.head?.any (·.kind = kind) = (s.words.head?.map Word.kind == some kind) := by
    rw [← head?_kind]
    cases s.tokens.head? with
    | none => rfl
    | some token => exact (beq_eq_decide token.kind kind).symm
  rw [← hany]
  rfl

variable {token : Token} {name : String}

theorem kind_of_word {word : Word} (h : token.word = word) : token.kind = word.kind := by
  rw [← h, kind_word]

theorem text_of_word_name (h : token.word = .name name) : token.text = name := by
  rw [word_name (kind_of_word h)] at h
  exact Word.name.inj h

theorem text_of_word_label (h : token.word = .label name) : token.text = name := by
  rw [word_label (kind_of_word h)] at h
  exact Word.label.inj h

theorem text_of_word_number (h : token.word = .number name) : token.text = name := by
  rw [word_number (kind_of_word h)] at h
  exact Word.number.inj h

end Parser

end L3Lowering
