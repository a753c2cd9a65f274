import L3Lowering.Proofs.ProgramParsing

namespace L3Lowering

def Kind.inCall (inside : Bool) : Kind → Bool
  | .keyword .call => true
  | .closeParen => false
  | _ => inside

/-- The labels in calls, in source order. The flag says whether a call is open. -/
def labelsInCalls (inside : Bool) : List Token → List Token
  | [] => []
  | token :: tokens =>
    (if inside && token.kind = .label then [token] else [])
      ++ labelsInCalls (token.kind.inCall inside) tokens

namespace Parser

variable {α β : Type} {inside before middle after : Bool}

def State.labelsInCalls (inside : Bool) (s : State) : List Token :=
  s.callLabels ++ L3Lowering.labelsInCalls inside s.tokens

/-- A success passes the labels in calls that it takes on to those noted. The flags say whether a
call is open before it and after it. -/
def Notes (p : Parser α) (before after : Bool) : Prop :=
  p.Yields fun s _ t => s.labelsInCalls before = t.labelsInCalls after

theorem notes_pure (a : α) : Notes (pure a) inside inside := by
  intro s b t h
  obtain ⟨-, rfl⟩ := pure_eq_ok.1 h
  rfl

theorem Notes.bind {p : Parser α} {f : α → Parser β} (hp : Notes p before middle)
    (hf : ∀ a, Notes (f a) middle after) : Notes (p >>= f) before after := by
  intro s b u h
  obtain ⟨a, t, hfirst, hsecond⟩ := bind_eq_ok.1 h
  exact (hp s a t hfirst).trans (hf a t b u hsecond)

theorem Notes.ite {c : Prop} [Decidable c] {p q : Parser α} (hp : Notes p before after)
    (hq : Notes q before after) : Notes (if c then p else q) before after := by
  split
  · exact hp
  · exact hq

theorem notes_freshId : Notes freshId inside inside := by
  intro s id t h
  cases h
  rfl

theorem notes_numbered (f : NodeId → α) : Notes (do return f (← freshId)) inside inside :=
  notes_freshId.bind fun _ => notes_pure _

theorem notes_ahead : Notes ahead inside inside := by
  intro s tokens t h
  cases h
  rfl

theorem notes_peek (expected : Expectation) : Notes (peek expected) inside inside := by
  intro s token t h
  unfold peek at h
  split at h
  · simp at h
  · cases h
    rfl

theorem next_eq_ok {expected : Expectation} {s t : State} {token : Token}
    (h : next expected s = .ok (token, t)) :
    s.tokens = token :: t.tokens ∧ s.callLabels = t.callLabels := by
  unfold next at h
  split at h
  · simp at h
  · rename_i heq
    cases h
    exact ⟨heq, rfl⟩

theorem expect_eq_ok {kind : Kind} {expected : Expectation} {s t : State} {token : Token}
    (h : expect kind expected s = .ok (token, t)) :
    token.kind = kind ∧ next expected s = .ok (token, t) := by
  obtain ⟨found, u, hnext, h⟩ := bind_eq_ok.1 h
  split at h
  · rename_i hkind
    obtain ⟨rfl, rfl⟩ := pure_eq_ok.1 h
    exact ⟨hkind, hnext⟩
  · exact absurd h fail_ne_ok

theorem labelsInCalls_next {expected : Expectation} {s t : State} {token : Token}
    (h : next expected s = .ok (token, t)) (hlabel : inside = true → token.kind ≠ .label) :
    s.labelsInCalls inside = t.labelsInCalls (token.kind.inCall inside) := by
  obtain ⟨htokens, hnoted⟩ := next_eq_ok h
  rw [State.labelsInCalls, State.labelsInCalls, htokens, hnoted, L3Lowering.labelsInCalls,
    if_neg (by simpa using hlabel), List.nil_append]

theorem notes_expect {kind : Kind} (expected : Expectation)
    (hlabel : inside = true → kind ≠ .label) :
    Notes (expect kind expected) inside (kind.inCall inside) := by
  intro s token t h
  obtain ⟨rfl, hnext⟩ := expect_eq_ok h
  exact labelsInCalls_next hnext hlabel

/-- A label in a call is noted when it is taken. -/
theorem labelsInCalls_note {expected : Expectation} {s t u : State} {token : Token}
    (h : next expected s = .ok (token, t)) (hlabel : token.kind = .label)
    (hnote : noteCallLabel token t = .ok ((), u)) :
    s.labelsInCalls true = u.labelsInCalls true := by
  obtain ⟨htokens, hnoted⟩ := next_eq_ok h
  cases hnote
  simp [State.labelsInCalls, htokens, hnoted, L3Lowering.labelsInCalls, hlabel, Kind.inCall]

theorem notes_var : Notes var inside inside :=
  (notes_expect .var (by simp)).bind fun _ => notes_numbered _

theorem notes_label : Notes label false false :=
  (notes_expect .label (by simp)).bind fun _ => notes_numbered _

theorem notes_operandFrom (token : Token) : Notes (operandFrom token) inside inside := by
  unfold operandFrom
  split
  · exact notes_numbered _
  · split
    · exact notes_numbered _
    · exact yields_fail
  · exact yields_fail

theorem notes_operand : Notes operand inside inside := by
  intro s a t h
  obtain ⟨token, s₁, htoken, h⟩ := bind_eq_ok.1 h
  obtain ⟨x, -, -, hword, -⟩ := operandFrom_yields token _ _ _ h
  have hfrom : s₁.labelsInCalls inside = t.labelsInCalls inside :=
    notes_operandFrom token _ _ _ h
  have hkind := operand_kind x
  rw [← hword, kind_word] at hkind
  rcases hkind with hkind | hkind
  · rw [labelsInCalls_next htoken (by simp [hkind]), hkind]
    exact hfrom
  · rw [labelsInCalls_next htoken (by simp [hkind]), hkind]
    exact hfrom

theorem notes_nextIs (kind : Kind) : Notes (nextIs kind) inside inside :=
  notes_ahead.bind fun _ => notes_pure _

theorem notes_value : Notes value false false :=
  (notes_nextIs _).bind fun _ => (notes_label.bind fun _ => notes_pure _).ite notes_operand

theorem notes_argument : Notes argument true true := by
  refine (notes_nextIs _).bind fun b => Notes.ite ?_ notes_operand
  intro s a t h
  obtain ⟨token, s₁, htoken, h⟩ := bind_eq_ok.1 h
  obtain ⟨⟨⟩, s₂, hnote, h⟩ := bind_eq_ok.1 h
  obtain ⟨hkind, hnext⟩ := expect_eq_ok htoken
  rw [labelsInCalls_note hnext hkind hnote]
  exact notes_numbered _ _ _ _ h

theorem notes_callee : Notes callee true true := by
  intro s a t h
  obtain ⟨token, s₁, htoken, h⟩ := bind_eq_ok.1 h
  cases hkind : token.kind with
  | label =>
      simp only [hkind] at h
      obtain ⟨⟨⟩, s₂, hnote, h⟩ := bind_eq_ok.1 h
      rw [labelsInCalls_note htoken hkind hnote]
      exact notes_numbered _ _ _ _ h
  | identifier =>
      simp only [hkind] at h
      rw [labelsInCalls_next htoken (by simp [hkind]), hkind]
      exact notes_numbered _ _ _ _ h
  | keyword keyword =>
      cases keyword with
      | print | allocate | arrayError =>
          simp only [hkind] at h
          rw [labelsInCalls_next htoken (by simp [hkind]), hkind]
          exact notes_numbered _ _ _ _ h
      | _ =>
          simp only [hkind] at h
          exact absurd h fail_ne_ok
  | _ =>
      simp only [hkind] at h
      exact absurd h fail_ne_ok

variable {item : Parser α}

theorem Notes.whileNext (h : Notes item inside inside) (again : Option Kind → Bool)
    (consumes : item.Consumes) : Notes (whileNext again item consumes) inside inside := by
  intro s as t hs
  fun_induction Parser.whileNext again item consumes s generalizing as t with
  | case1 => simp at hs
  | case2 => simp at hs
  | case3 _ s hagain a s₁ hfirst _ as' s₂ hrest ih =>
      cases hs
      exact (h _ _ _ hfirst).trans (ih _ _ hrest)
  | case4 _ s hagain =>
      cases hs
      rfl

theorem Notes.afterComma (h : Notes item inside inside) :
    Notes (afterComma item) inside inside :=
  (notes_expect .commaOrClose (by simp)).bind fun _ => h

theorem Notes.items (h : Notes item inside inside) (first : Expectation)
    (consumes : item.Consumes) : Notes (items first item consumes) inside inside :=
  (notes_peek first).bind fun _ =>
    (notes_pure _).ite (h.bind fun _ => (h.afterComma.whileNext _ _).bind fun _ => notes_pure _)

theorem Notes.listOf (h : Notes item inside inside) (first : Expectation)
    (consumes : item.Consumes) : Notes (listOf first item consumes) inside false :=
  (notes_expect .openParen (by simp)).bind fun _ =>
    (h.items first consumes).bind fun _ =>
      (notes_expect .commaOrClose (by simp)).bind fun _ => notes_pure _

theorem notes_call : Notes call true false :=
  notes_callee.bind fun _ => (notes_argument.listOf _ _).bind fun _ => notes_numbered _

theorem notes_operation (first : Atom) : Notes (operation first) false false := by
  intro s e t h
  obtain ⟨tokens, s₁, hahead, h⟩ := bind_eq_ok.1 h
  cases hahead
  cases hkind : s.tokens.head?.map Token.kind with
  | none =>
      simp only [hkind] at h
      exact notes_pure _ _ _ _ h
  | some kind =>
      cases kind with
      | operator op =>
          simp only [hkind] at h
          obtain ⟨found, s₁, hnext, h⟩ := bind_eq_ok.1 h
          rw [(next_eq_ok hnext).1] at hkind
          have hfound : found.kind = .operator op := Option.some.inj hkind
          rw [labelsInCalls_next hnext (by simp), hfound]
          exact (notes_operand.bind fun _ => notes_numbered _) _ _ _ h
      | _ =>
          simp only [hkind] at h
          exact notes_pure _ _ _ _ h

theorem notes_rightHandSide : Notes rightHandSide false false := by
  intro s e t h
  obtain ⟨token, s₁, htoken, h⟩ := bind_eq_ok.1 h
  rw [labelsInCalls_next htoken (by simp)]
  cases hkind : token.kind with
  | keyword keyword =>
      cases keyword with
      | load =>
          simp only [hkind] at h
          exact (notes_var.bind fun _ => notes_numbered _) _ _ _ h
      | call =>
          simp only [hkind] at h
          exact (notes_call.bind fun _ => notes_pure _) _ _ _ h
      | _ =>
          simp only [hkind] at h
          exact absurd h fail_ne_ok
  | label =>
      simp only [hkind] at h
      exact notes_numbered _ _ _ _ h
  | identifier | integer =>
      simp only [hkind] at h
      exact ((notes_operandFrom token).bind notes_operation) _ _ _ h
  | _ =>
      simp only [hkind] at h
      exact absurd h fail_ne_ok

theorem notes_branch {token : Token} (hkind : token.kind = .keyword .branch) :
    Notes (instructionFrom token) false false := by
  simp only [instructionFrom, hkind]
  intro s i t h
  obtain ⟨target, s₁, htarget, h⟩ := bind_eq_ok.1 h
  rw [labelsInCalls_next htarget (by simp)]
  cases htkind : target.kind with
  | label =>
      simp only [htkind] at h
      exact (notes_freshId.bind fun _ => notes_numbered _) _ _ _ h
  | identifier =>
      simp only [htkind] at h
      exact (notes_freshId.bind fun _ =>
        notes_label.bind fun _ => notes_label.bind fun _ => notes_numbered _) _ _ _ h
  | _ =>
      simp only [htkind] at h
      exact absurd h fail_ne_ok

theorem notes_instructionFrom (token : Token) :
    Notes (instructionFrom token) (token.kind.inCall false) false := by
  cases hkind : token.kind with
  | label =>
      simp only [instructionFrom, hkind]
      exact notes_numbered _
  | identifier =>
      simp only [instructionFrom, hkind]
      exact notes_freshId.bind fun _ =>
        (notes_expect .arrow (by simp)).bind fun _ =>
          notes_rightHandSide.bind fun _ => notes_numbered _
  | keyword keyword =>
      cases keyword with
      | store =>
          simp only [instructionFrom, hkind]
          exact notes_var.bind fun _ =>
            notes_freshId.bind fun _ =>
              (notes_expect .arrow (by simp)).bind fun _ =>
                notes_value.bind fun _ => notes_numbered _
      | branch => exact notes_branch hkind
      | ret =>
          simp only [instructionFrom, hkind]
          exact notes_ahead.bind fun _ =>
            (notes_operand.bind fun _ => notes_numbered _).ite (notes_numbered _)
      | call =>
          simp only [instructionFrom, hkind]
          exact notes_call.bind fun _ => notes_pure _
      | _ =>
          simp only [instructionFrom, hkind]
          exact yields_fail
  | _ =>
      simp only [instructionFrom, hkind]
      exact yields_fail

theorem notes_instruction : Notes instruction false false := by
  intro s i t h
  obtain ⟨token, s₁, htoken, h⟩ := bind_eq_ok.1 h
  rw [labelsInCalls_next htoken (by simp)]
  exact notes_instructionFrom token _ _ _ h

theorem notes_function : Notes function false false :=
  (notes_expect .define (by simp)).bind fun _ =>
    notes_label.bind fun _ =>
      (notes_var.listOf _ _).bind fun _ =>
        (notes_expect .openBrace (by simp)).bind fun _ =>
          (notes_instruction.whileNext _ _).bind fun _ =>
            (notes_expect .instructionOrClose (by simp)).bind fun _ => notes_pure _

theorem notes_program : Notes program false false :=
  notes_function.bind fun _ => (notes_function.whileNext _ _).bind fun _ => notes_pure _

end Parser

end L3Lowering
