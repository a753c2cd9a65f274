import L3Lowering.Proofs.Phrase
import Mathlib.Data.List.Basic

namespace L3Lowering

namespace Parser

open Phrase (Category)

variable {α β φ : Type}

def State.words (s : State) : List Word :=
  s.tokens.map Token.word

/-- From one state to a later one: the words taken, the number of ids handed out, and the labels
in calls that were noted. -/
structure Took (s t : State) (words : List Word) (size : Nat) (calls : List String) : Prop where
  words : s.words = words ++ t.words
  nextId : t.nextId = s.nextId + .ofNat size
  calls : t.callLabels.map Token.text = s.callLabels.map Token.text ++ calls

theorem Took.refl (s : State) : Took s s [] 0 [] :=
  ⟨rfl, by simp, by simp⟩

theorem Took.trans {s t u : State} {words words' : List Word} {size size' : Nat}
    {calls calls' : List String} (h : Took s t words size calls)
    (h' : Took t u words' size' calls') :
    Took s u (words ++ words') (size + size') (calls ++ calls') where
  words := by rw [h.words, h'.words, List.append_assoc]
  nextId := by rw [h'.nextId, h.nextId, UInt32.ofNat_add, UInt32.add_assoc]
  calls := by rw [h'.calls, h.calls, List.append_assoc]

def Yields (p : Parser α) (P : State → α → State → Prop) : Prop :=
  ∀ s a t, p s = .ok (a, t) → P s a t

/-- A success reads a phrase of the category. -/
def Reads (p : Parser α) (category : Category φ α) : Prop :=
  p.Yields fun s a t => ∃ x, category.InRange x ∧ a = category.build s.nextId x ∧
    Took s t (category.words x) (category.size x) (category.calls x)

/-- A success reads the rest of a phrase of the category that starts with the token. -/
def ReadsFrom (p : Parser α) (category : Category φ α) (token : Token) : Prop :=
  p.Yields fun s a t => ∃ x, category.InRange x ∧ a = category.build s.nextId x ∧
    ∃ words, category.words x = token.word :: words ∧
      Took s t words (category.size x) (category.calls x)

theorem bind_eq_ok {p : Parser α} {f : α → Parser β} {s u : State} {b : β} :
    (p >>= f) s = .ok (b, u) ↔ ∃ a t, p s = .ok (a, t) ∧ f a t = .ok (b, u) := by
  rw [bind_apply]
  cases hp : p s with
  | error e => simp
  | ok r =>
      constructor
      · intro h
        exact ⟨r.1, r.2, rfl, h⟩
      · rintro ⟨a, t, heq, h⟩
        cases heq
        exact h

theorem pure_eq_ok {a b : α} {s t : State} : (pure a : Parser α) s = .ok (b, t) ↔ a = b ∧ s = t := by
  rw [pure_apply, Except.ok.injEq, Prod.mk.injEq]

theorem fail_ne_ok {e : ParseError} {s t : State} {a : α} :
    (fail e : Parser α) s ≠ .ok (a, t) := by
  simp [fail]

theorem yields_fail {e : ParseError} {P : State → α → State → Prop} :
    (fail e : Parser α).Yields P := by
  intro s a t h
  exact absurd h fail_ne_ok

theorem next_took {expected : Expectation} {s t : State} {token : Token}
    (h : next expected s = .ok (token, t)) : Took s t [token.word] 0 [] := by
  unfold next at h
  split at h
  · simp at h
  · rename_i found tokens heq
    cases h
    exact ⟨by simp [State.words, heq], by simp, by simp⟩

theorem expect_took {kind : Kind} {expected : Expectation} {s t : State} {token : Token}
    (h : expect kind expected s = .ok (token, t)) :
    token.kind = kind ∧ Took s t [token.word] 0 [] := by
  obtain ⟨found, u, hnext, h⟩ := bind_eq_ok.1 h
  split at h
  · rename_i hkind
    obtain ⟨rfl, rfl⟩ := pure_eq_ok.1 h
    exact ⟨hkind, next_took hnext⟩
  · exact absurd h fail_ne_ok

theorem freshId_took {s t : State} {id : NodeId} (h : freshId s = .ok (id, t)) :
    id = s.nextId ∧ Took s t [] 1 [] := by
  cases h
  exact ⟨rfl, rfl, rfl, by simp⟩

theorem noteCallLabel_took {token : Token} {s t : State}
    (h : noteCallLabel token s = .ok ((), t)) : Took s t [] 0 [token.text] := by
  cases h
  exact ⟨rfl, by simp, by simp⟩

theorem nextIs_eq_ok {kind : Kind} {s t : State} {b : Bool} (h : nextIs kind s = .ok (b, t)) :
    t = s := by
  cases h
  rfl

theorem ReadsFrom.reads {f : Token → Parser α} {category : Category φ α}
    (h : ∀ token, ReadsFrom (f token) category token) (expected : Expectation) :
    Reads (next expected >>= f) category := by
  intro s a t hok
  obtain ⟨token, s₁, htoken, hok⟩ := bind_eq_ok.1 hok
  have took₁ := next_took htoken
  obtain ⟨x, hx, rfl, words, hwords, took₂⟩ := h token _ _ _ hok
  have took := took₁.trans took₂
  rw [Nat.zero_add, List.nil_append, List.singleton_append, ← hwords] at took
  exact ⟨x, hx, by simp [took₁.nextId], took⟩

theorem word_name {token : Token} (h : token.kind = .identifier) :
    token.word = .name token.text := by
  simp [Token.word, h]

theorem word_label {token : Token} (h : token.kind = .label) : token.word = .label token.text := by
  simp [Token.word, h]

theorem word_number {token : Token} (h : token.kind = .integer) :
    token.word = .number token.text := by
  simp [Token.word, h]

@[simp]
theorem kind_word (token : Token) : token.word.kind = token.kind := by
  unfold Token.word
  split <;> simp_all [Word.kind]

end Parser

end L3Lowering
