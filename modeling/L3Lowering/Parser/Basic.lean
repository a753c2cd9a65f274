import L3Lowering.Parser.Error
import L3Lowering.Program.Basic

namespace L3Lowering

structure Parser.State where
  tokens : List Token
  nextId : NodeId
  callLabels : List Token

def Parser (α : Type) : Type :=
  Parser.State → Except ParseError (α × Parser.State)

namespace Parser

variable {α β : Type}

instance : Monad Parser where
  pure a s := .ok (a, s)
  bind p f s :=
    match p s with
    | .error e => .error e
    | .ok (a, t) => f a t

@[simp]
theorem pure_apply (a : α) (s : State) : (pure a : Parser α) s = .ok (a, s) := rfl

theorem bind_apply (p : Parser α) (f : α → Parser β) (s : State) :
    (p >>= f) s =
      match p s with
      | .error e => .error e
      | .ok (a, t) => f a t := rfl

def fail (error : ParseError) : Parser α :=
  fun _ => .error error

def freshId : Parser NodeId :=
  fun s => .ok (s.nextId, { s with nextId := s.nextId + 1 })

def noteCallLabel (token : Token) : Parser Unit :=
  fun s => .ok ((), { s with callLabels := s.callLabels ++ [token] })

def ahead : Parser (List Token) :=
  fun s => .ok (s.tokens, s)

def peek (expected : Expectation) : Parser Token :=
  fun s =>
    match s.tokens with
    | [] => .error (.atEnd expected)
    | token :: _ => .ok (token, s)

def next (expected : Expectation) : Parser Token :=
  fun s =>
    match s.tokens with
    | [] => .error (.atEnd expected)
    | token :: tokens => .ok (token, { s with tokens })

def expect (kind : Kind) (expected : Expectation) : Parser Token := do
  let token ← next expected
  if token.kind = kind then pure token else fail (.unexpected expected token)

def Consumes (p : Parser α) : Prop :=
  ∀ s a t, p s = .ok (a, t) → t.tokens.length < s.tokens.length

def Steady (p : Parser α) : Prop :=
  ∀ s a t, p s = .ok (a, t) → t.tokens.length ≤ s.tokens.length

/-- Repeats a parser as long as the kind of the next token, `none` at the end, satisfies `again`. -/
def whileNext (again : Option Kind → Bool) (item : Parser α) (consumes : item.Consumes) :
    Parser (List α)
  | s =>
    if again (s.tokens.head?.map Token.kind) then
      match h : item s with
      | .error e => .error e
      | .ok (a, t) =>
        have := consumes s a t h
        match whileNext again item consumes t with
        | .error e => .error e
        | .ok (as, u) => .ok (a :: as, u)
    else .ok ([], s)
termination_by s => s.tokens.length

theorem whileNext_apply (again : Option Kind → Bool) (item : Parser α) (consumes : item.Consumes)
    (s : State) :
    whileNext again item consumes s =
      if again (s.tokens.head?.map Token.kind) then
        (do
          let a ← item
          let as ← whileNext again item consumes
          pure (a :: as) : Parser (List α)) s
      else .ok ([], s) := by
  rw [whileNext]
  split
  · rw [bind_apply]
    split
    · rename_i heq
      simp only [heq]
    · rename_i a t heq
      simp only [heq, bind_apply]
      cases whileNext again item consumes t <;> rfl
  · rfl

theorem Consumes.steady {p : Parser α} (h : p.Consumes) : p.Steady :=
  fun s a t hp => Nat.le_of_lt (h s a t hp)

theorem Consumes.bind {p : Parser α} {f : α → Parser β} (hp : p.Consumes)
    (hf : ∀ a, (f a).Steady) : (p >>= f).Consumes := by
  intro s b u h
  simp only [Bind.bind] at h
  split at h
  · simp at h
  · rename_i a t heq
    exact Nat.lt_of_le_of_lt (hf a t b u h) (hp s a t heq)

theorem Steady.bind {p : Parser α} {f : α → Parser β} (hp : p.Steady)
    (hf : ∀ a, (f a).Steady) : (p >>= f).Steady := by
  intro s b u h
  simp only [Bind.bind] at h
  split at h
  · simp at h
  · rename_i a t heq
    exact Nat.le_trans (hf a t b u h) (hp s a t heq)

theorem steady_pure (a : α) : (pure a : Parser α).Steady := by
  intro s b t h
  simp only [Pure.pure, Except.ok.injEq, Prod.mk.injEq] at h
  simp [h.2]

theorem consumes_fail (e : ParseError) : (fail e : Parser α).Consumes := by
  intro s a t h
  simp [fail] at h

theorem steady_fail (e : ParseError) : (fail e : Parser α).Steady :=
  (consumes_fail e).steady

theorem steady_freshId : freshId.Steady := by
  intro s a t h
  simp only [freshId, Except.ok.injEq, Prod.mk.injEq] at h
  simp [← h.2]

theorem steady_noteCallLabel (token : Token) : (noteCallLabel token).Steady := by
  intro s a t h
  simp only [noteCallLabel, Except.ok.injEq, Prod.mk.injEq] at h
  simp [← h.2]

theorem steady_ahead : ahead.Steady := by
  intro s a t h
  simp only [ahead, Except.ok.injEq, Prod.mk.injEq] at h
  simp [h.2]

theorem steady_peek (expected : Expectation) : (peek expected).Steady := by
  intro s a t h
  simp only [peek] at h
  split at h
  · simp at h
  · simp only [Except.ok.injEq, Prod.mk.injEq] at h
    simp [h.2]

theorem consumes_next (expected : Expectation) : (next expected).Consumes := by
  intro s a t h
  simp only [next] at h
  split at h
  · simp at h
  · rename_i token tokens heq
    simp only [Except.ok.injEq, Prod.mk.injEq] at h
    simp [← h.2, heq]

theorem steady_ite {c : Prop} [Decidable c] {p q : Parser α} (hp : p.Steady) (hq : q.Steady) :
    (if c then p else q).Steady := by
  split
  · exact hp
  · exact hq

theorem Consumes.ite {c : Prop} [Decidable c] {p q : Parser α} (hp : p.Consumes)
    (hq : q.Consumes) : (if c then p else q).Consumes := by
  split
  · exact hp
  · exact hq

theorem Steady.bind_consumes {p : Parser α} {f : α → Parser β} (hp : p.Steady)
    (hf : ∀ a, (f a).Consumes) : (p >>= f).Consumes := by
  intro s b u h
  simp only [Bind.bind] at h
  split at h
  · simp at h
  · rename_i a t heq
    exact Nat.lt_of_lt_of_le (hf a t b u h) (hp s a t heq)

theorem consumes_expect (kind : Kind) (expected : Expectation) : (expect kind expected).Consumes :=
  (consumes_next expected).bind fun a => steady_ite (steady_pure a) (steady_fail _)

theorem steady_whileNext (again : Option Kind → Bool) (item : Parser α)
    (consumes : item.Consumes) : (whileNext again item consumes).Steady := by
  intro s as u h
  fun_induction whileNext again item consumes s generalizing as u with
  | case1 => simp at h
  | case2 => simp at h
  | case3 _ s hagain a t hitem hlt bs v hrest ih =>
      simp only [Except.ok.injEq, Prod.mk.injEq] at h
      rw [← h.2]
      exact Nat.le_trans (ih bs v hrest) (Nat.le_of_lt hlt)
  | case4 _ s hagain =>
      simp only [Except.ok.injEq, Prod.mk.injEq] at h
      exact Nat.le_of_eq (by rw [← h.2])

end Parser

end L3Lowering
