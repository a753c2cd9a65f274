import L3Lowering.Parser.Grammar
import Mathlib.Data.List.Forall2

namespace L3Lowering

def KeepsReading (R : Token → Token → Prop) : Prop :=
  ∀ t u, R t u → t.kind = u.kind ∧ t.text = u.text

inductive ParseError.Alike (R : Token → Token → Prop) : ParseError → ParseError → Prop
  | atEnd (expected : Expectation) : Alike R (.atEnd expected) (.atEnd expected)
  | unexpected (expected : Expectation) {t u : Token} (h : R t u) :
      Alike R (.unexpected expected t) (.unexpected expected u)
  | literalRange {t u : Token} (h : R t u) : Alike R (.literalRange t) (.literalRange u)
  | unknownFunction {t u : Token} (h : R t u) : Alike R (.unknownFunction t) (.unknownFunction u)

namespace Parser

variable {α β γ δ : Type} {R : Token → Token → Prop}

structure State.Alike (R : Token → Token → Prop) (s t : State) : Prop where
  tokens : List.Forall₂ R s.tokens t.tokens
  nextId : s.nextId = t.nextId
  callLabels : List.Forall₂ R s.callLabels t.callLabels

inductive Outcome (R : Token → Token → Prop) (S : α → β → Prop) :
    Except ParseError (α × State) → Except ParseError (β × State) → Prop
  | ok {a : α} {b : β} {s t : State} (hvalue : S a b) (hstate : s.Alike R t) :
      Outcome R S (.ok (a, s)) (.ok (b, t))
  | error {e f : ParseError} (h : e.Alike R f) : Outcome R S (.error e) (.error f)

/-- From related states the parsers come to related outcomes. -/
def Alike (R : Token → Token → Prop) (S : α → β → Prop) (p : Parser α) (q : Parser β) : Prop :=
  ∀ s t, s.Alike R t → Outcome R S (p s) (q t)

variable {S : α → β → Prop} {S' : γ → δ → Prop}

theorem alike_pure {a : α} {b : β} (h : S a b) : Alike R S (pure a) (pure b) :=
  fun _ _ hstate => .ok h hstate

theorem alike_fail {e f : ParseError} (h : e.Alike R f) :
    Alike R S (fail e : Parser α) (fail f : Parser β) :=
  fun _ _ _ => .error h

theorem Alike.bind {p : Parser α} {q : Parser β} {f : α → Parser γ} {g : β → Parser δ}
    (h : Alike R S p q) (hnext : ∀ a b, S a b → Alike R S' (f a) (g b)) :
    Alike R S' (p >>= f) (q >>= g) := by
  intro s t hstate
  have houtcome := h s t hstate
  rw [bind_apply, bind_apply]
  generalize p s = r at houtcome ⊢
  generalize q t = r' at houtcome ⊢
  cases houtcome with
  | ok hvalue hstate => exact hnext _ _ hvalue _ _ hstate
  | error he => exact .error he

theorem Alike.bind_eq {p q : Parser α} {f : α → Parser γ} {g : α → Parser δ}
    (h : Alike R Eq p q) (hnext : ∀ a, Alike R S' (f a) (g a)) :
    Alike R S' (p >>= f) (q >>= g) := by
  apply h.bind
  rintro a _ rfl
  exact hnext a

theorem Alike.ite {c d : Prop} [Decidable c] [Decidable d] {p p' : Parser α} {q q' : Parser β}
    (hc : c ↔ d) (hp : Alike R S p q) (hq : Alike R S p' q') :
    Alike R S (if c then p else p') (if d then q else q') := by
  by_cases h : c
  · rw [if_pos h, if_pos (hc.1 h)]
    exact hp
  · rw [if_neg h, if_neg (mt hc.2 h)]
    exact hq

theorem alike_freshId : Alike R Eq freshId freshId := by
  intro s t h
  exact .ok h.nextId ⟨h.tokens, by simp [h.nextId], h.callLabels⟩

theorem alike_numbered (f : NodeId → α) :
    Alike R Eq (do return f (← freshId)) (do return f (← freshId)) :=
  alike_freshId.bind_eq fun _ => alike_pure rfl

theorem alike_noteCallLabel {t u : Token} (h : R t u) :
    Alike R Eq (noteCallLabel t) (noteCallLabel u) := by
  intro s s' hstate
  refine .ok rfl ⟨hstate.tokens, hstate.nextId, ?_⟩
  exact List.rel_append hstate.callLabels (.cons h .nil)

theorem alike_ahead : Alike R (List.Forall₂ R) ahead ahead :=
  fun _ _ h => .ok h.tokens h

theorem alike_next (expected : Expectation) : Alike R R (next expected) (next expected) := by
  intro s t h
  obtain ⟨tokens, nextId, callLabels⟩ := s
  obtain ⟨tokens', nextId', callLabels'⟩ := t
  cases h.tokens with
  | nil => exact .error (.atEnd expected)
  | cons htoken htokens => exact .ok htoken ⟨htokens, h.nextId, h.callLabels⟩

theorem alike_peek (expected : Expectation) : Alike R R (peek expected) (peek expected) := by
  intro s t h
  obtain ⟨tokens, nextId, callLabels⟩ := s
  obtain ⟨tokens', nextId', callLabels'⟩ := t
  cases h.tokens with
  | nil => exact .error (.atEnd expected)
  | cons htoken htokens => exact .ok htoken h

theorem head?_kind_alike (hR : KeepsReading R) {ts us : List Token} (h : List.Forall₂ R ts us) :
    ts.head?.map Token.kind = us.head?.map Token.kind := by
  cases h with
  | nil => rfl
  | cons htoken _ => exact congrArg some (hR _ _ htoken).1

theorem head?_any_kind_alike (hR : KeepsReading R) {ts us : List Token} (h : List.Forall₂ R ts us)
    (kind : Kind) : ts.head?.any (·.kind = kind) = us.head?.any (·.kind = kind) := by
  cases h with
  | nil => rfl
  | cons htoken _ => simp [(hR _ _ htoken).1]

section Grammar

variable (hR : KeepsReading R)
include hR

theorem alike_expect (kind : Kind) (expected : Expectation) :
    Alike R R (expect kind expected) (expect kind expected) := by
  apply (alike_next expected).bind
  intro t u h
  rw [(hR t u h).1]
  exact Alike.ite Iff.rfl (alike_pure h) (alike_fail (.unexpected expected h))

theorem alike_var : Alike R Eq var var := by
  apply (alike_expect hR .identifier .var).bind
  intro t u h
  rw [(hR t u h).2]
  exact alike_numbered _

theorem alike_label : Alike R Eq label label := by
  apply (alike_expect hR .label .label).bind
  intro t u h
  rw [(hR t u h).2]
  exact alike_numbered _

theorem alike_operandFrom {t u : Token} (h : R t u) :
    Alike R Eq (operandFrom t) (operandFrom u) := by
  obtain ⟨hkind, htext⟩ := hR t u h
  unfold operandFrom
  rw [hkind, htext]
  cases u.kind with
  | identifier => exact alike_numbered _
  | integer =>
      cases Text.readInt64? u.text.toList with
      | none => exact alike_fail (.literalRange h)
      | some value => exact alike_numbered _
  | _ => exact alike_fail (.unexpected .operand h)

theorem alike_operand : Alike R Eq operand operand :=
  (alike_next .operand).bind fun _ _ => alike_operandFrom hR

theorem alike_nextIs (kind : Kind) : Alike R Eq (nextIs kind) (nextIs kind) := by
  apply alike_ahead.bind
  intro ts us h
  exact alike_pure (head?_any_kind_alike hR h kind)

theorem alike_value : Alike R Eq value value := by
  apply (alike_nextIs hR .label).bind_eq
  intro found
  apply Alike.ite Iff.rfl
  · exact (alike_label hR).bind_eq fun _ => alike_pure rfl
  · exact alike_operand hR

theorem alike_argument : Alike R Eq argument argument := by
  apply (alike_nextIs hR .label).bind_eq
  intro found
  apply Alike.ite Iff.rfl
  · apply (alike_expect hR .label .label).bind
    intro t u h
    rw [(hR t u h).2]
    exact (alike_noteCallLabel h).bind_eq fun _ => alike_numbered _
  · exact alike_operand hR

theorem alike_callee : Alike R Eq callee callee := by
  apply (alike_next .callee).bind
  intro t u h
  obtain ⟨hkind, htext⟩ := hR t u h
  rw [hkind, htext]
  cases u.kind with
  | identifier => exact alike_numbered _
  | label => exact (alike_noteCallLabel h).bind_eq fun _ => alike_numbered _
  | keyword keyword =>
      cases keyword with
      | print | allocate | arrayError => exact alike_numbered _
      | _ => exact alike_fail (.unexpected .callee h)
  | _ => exact alike_fail (.unexpected .callee h)

theorem alike_whileNext {item : Parser α} (hitem : Alike R Eq item item)
    (again : Option Kind → Bool) (consumes : item.Consumes) :
    Alike R Eq (whileNext again item consumes) (whileNext again item consumes) := by
  intro s t h
  induction hn : s.tokens.length using Nat.strongRecOn generalizing s t with
  | ind n ih =>
      rw [whileNext_apply, whileNext_apply, head?_kind_alike hR h.tokens]
      by_cases hagain : again (t.tokens.head?.map Token.kind) = true
      · rw [if_pos hagain, if_pos hagain]
        have hfirst := hitem s t h
        rw [bind_apply, bind_apply]
        generalize hr : item s = r at hfirst ⊢
        generalize item t = r' at hfirst ⊢
        cases hfirst with
        | error he => exact .error he
        | @ok a b s' t' hvalue hstate =>
            -- The first item takes a token, so the rest of the run is a shorter one.
            obtain rfl : a = b := hvalue
            have hrest := ih _ (hn ▸ consumes s a s' hr) s' t' hstate rfl
            simp only [bind_apply]
            generalize whileNext again item consumes s' = r at hrest ⊢
            generalize whileNext again item consumes t' = r' at hrest ⊢
            cases hrest with
            | error he => exact .error he
            | ok hvalues hstate' => exact .ok (congrArg (a :: ·) hvalues) hstate'
      · rw [if_neg hagain, if_neg hagain]
        exact .ok rfl h

theorem alike_afterComma {item : Parser α} (hitem : Alike R Eq item item) :
    Alike R Eq (afterComma item) (afterComma item) :=
  (alike_expect hR .comma .commaOrClose).bind fun _ _ _ => hitem

theorem alike_items {item : Parser α} (hitem : Alike R Eq item item) (first : Expectation)
    (consumes : item.Consumes) :
    Alike R Eq (items first item consumes) (items first item consumes) := by
  apply (alike_peek first).bind
  intro t u h
  rw [(hR t u h).1]
  apply Alike.ite Iff.rfl (alike_pure rfl)
  apply hitem.bind_eq
  intro a
  exact (alike_whileNext hR (alike_afterComma hR hitem) _ _).bind_eq fun _ => alike_pure rfl

theorem alike_listOf {item : Parser α} (hitem : Alike R Eq item item) (first : Expectation)
    (consumes : item.Consumes) :
    Alike R Eq (listOf first item consumes) (listOf first item consumes) := by
  apply (alike_expect hR .openParen .openParen).bind
  intro _ _ _
  apply (alike_items hR hitem first consumes).bind_eq
  intro as
  exact (alike_expect hR .closeParen .commaOrClose).bind fun _ _ _ => alike_pure rfl

theorem alike_call : Alike R Eq call call := by
  apply (alike_callee hR).bind_eq
  intro callee
  exact (alike_listOf hR (alike_argument hR) _ _).bind_eq fun _ => alike_numbered _

theorem alike_operation (first : Atom) : Alike R Eq (operation first) (operation first) := by
  apply alike_ahead.bind
  intro ts us h
  rw [head?_kind_alike hR h]
  cases us.head?.map Token.kind with
  | none => exact alike_pure rfl
  | some kind =>
      cases kind with
      | operator op =>
          apply (alike_next .operand).bind
          intro _ _ _
          exact (alike_operand hR).bind_eq fun _ => alike_numbered _
      | _ => exact alike_pure rfl

theorem alike_rightHandSide : Alike R Eq rightHandSide rightHandSide := by
  apply (alike_next .rightHandSide).bind
  intro t u h
  obtain ⟨hkind, htext⟩ := hR t u h
  rw [hkind]
  cases u.kind with
  | keyword keyword =>
      cases keyword with
      | load => exact (alike_var hR).bind_eq fun _ => alike_numbered _
      | call => exact (alike_call hR).bind_eq fun _ => alike_pure rfl
      | _ => exact alike_fail (.unexpected .rightHandSide h)
  | label =>
      rw [htext]
      exact alike_numbered _
  | identifier | integer => exact (alike_operandFrom hR h).bind_eq (alike_operation hR)
  | _ => exact alike_fail (.unexpected .rightHandSide h)

theorem startsReturned_alike {ts us : List Token} (h : List.Forall₂ R ts us) :
    startsReturned ts = startsReturned us := by
  cases h with
  | nil => rfl
  | cons htoken htokens =>
      rw [startsReturned, startsReturned, (hR _ _ htoken).1, head?_any_kind_alike hR htokens]

theorem alike_branch {t u : Token} (h : R t u) (hkind : u.kind = .keyword .branch) :
    Alike R Eq (instructionFrom t) (instructionFrom u) := by
  unfold instructionFrom
  rw [(hR t u h).1, hkind]
  apply (alike_next .branchTarget).bind
  intro t' u' h'
  obtain ⟨hkind', htext'⟩ := hR t' u' h'
  rw [hkind', htext']
  cases u'.kind with
  | label => exact alike_freshId.bind_eq fun _ => alike_numbered _
  | identifier =>
      apply alike_freshId.bind_eq
      intro id
      apply (alike_label hR).bind_eq
      intro onTrue
      exact (alike_label hR).bind_eq fun _ => alike_numbered _
  | _ => exact alike_fail (.unexpected .branchTarget h')

theorem alike_instructionFrom {t u : Token} (h : R t u) :
    Alike R Eq (instructionFrom t) (instructionFrom u) := by
  obtain ⟨hkind, htext⟩ := hR t u h
  cases hcase : u.kind with
  | keyword keyword =>
      cases keyword with
      | store =>
          simp only [instructionFrom, hkind, hcase]
          apply (alike_var hR).bind_eq
          intro address
          apply alike_freshId.bind_eq
          intro id
          apply (alike_expect hR .arrow .arrow).bind
          intro _ _ _
          exact (alike_value hR).bind_eq fun _ => alike_numbered _
      | branch => exact alike_branch hR h hcase
      | ret =>
          simp only [instructionFrom, hkind, hcase]
          apply alike_ahead.bind
          intro ts us htokens
          rw [startsReturned_alike hR htokens]
          apply Alike.ite Iff.rfl
          · exact (alike_operand hR).bind_eq fun _ => alike_numbered _
          · exact alike_numbered _
      | call =>
          simp only [instructionFrom, hkind, hcase]
          exact (alike_call hR).bind_eq fun _ => alike_pure rfl
      | _ =>
          simp only [instructionFrom, hkind, hcase]
          exact alike_fail (.unexpected .instruction h)
  | label =>
      simp only [instructionFrom, hkind, htext, hcase]
      exact alike_numbered _
  | identifier =>
      simp only [instructionFrom, hkind, htext, hcase]
      apply alike_freshId.bind_eq
      intro id
      apply (alike_expect hR .arrow .arrow).bind
      intro _ _ _
      exact (alike_rightHandSide hR).bind_eq fun _ => alike_numbered _
  | _ =>
      simp only [instructionFrom, hkind, hcase]
      exact alike_fail (.unexpected .instruction h)

theorem alike_instruction : Alike R Eq instruction instruction :=
  (alike_next .instructionOrClose).bind fun _ _ => alike_instructionFrom hR

theorem alike_function : Alike R Eq function function := by
  apply (alike_expect hR (.keyword .define) .define).bind
  intro _ _ _
  apply (alike_label hR).bind_eq
  intro name
  apply (alike_listOf hR (alike_var hR) _ _).bind_eq
  intro parameters
  apply (alike_expect hR .openBrace .openBrace).bind
  intro _ _ _
  apply (alike_whileNext hR (alike_instruction hR) _ _).bind_eq
  intro body
  exact (alike_expect hR .closeBrace .instructionOrClose).bind fun _ _ _ => alike_pure rfl

theorem alike_program : Alike R Eq program program := by
  apply (alike_function hR).bind_eq
  intro first
  exact (alike_whileNext hR (alike_function hR) _ _).bind_eq fun _ => alike_pure rfl

end Grammar

end Parser

variable {R : Token → Token → Prop}

theorem strayCallLabel?_alike (hR : KeepsReading R) (program : Program) {ts us : List Token}
    (h : List.Forall₂ R ts us) :
    (program.strayCallLabel? ts = none ∧ program.strayCallLabel? us = none) ∨
      ∃ t u, program.strayCallLabel? ts = some t ∧ program.strayCallLabel? us = some u ∧ R t u := by
  unfold Program.strayCallLabel?
  induction h with
  | nil => exact .inl ⟨rfl, rfl⟩
  | @cons t u ts us htoken _ ih =>
      rw [List.find?_cons, List.find?_cons, (hR t u htoken).2]
      cases !program.functionNames.contains u.text with
      | false => exact ih
      | true => exact .inr ⟨t, u, rfl, rfl, htoken⟩

theorem Program.ofTokens_alike (hR : KeepsReading R) {ts us : List Token}
    (h : List.Forall₂ R ts us) :
    (∃ program, ofTokens ts = .ok program ∧ ofTokens us = .ok program) ∨
      ∃ e f, ofTokens ts = .error e ∧ ofTokens us = .error f ∧ e.Alike R f := by
  have houtcome := Parser.alike_program hR ⟨ts, 0, []⟩ ⟨us, 0, []⟩ ⟨h, rfl, .nil⟩
  unfold ofTokens
  generalize Parser.program ⟨ts, 0, []⟩ = r at houtcome ⊢
  generalize Parser.program ⟨us, 0, []⟩ = r' at houtcome ⊢
  cases houtcome with
  | error he => exact .inr ⟨_, _, rfl, rfl, he⟩
  | @ok program other s t hvalue hstate =>
      obtain rfl : program = other := hvalue
      rcases strayCallLabel?_alike hR program hstate.callLabels with
        ⟨hnone, hnone'⟩ | ⟨token, token', hstray, hstray', htoken⟩
      · exact .inl ⟨program, by simp only [hnone], by simp only [hnone']⟩
      · exact .inr ⟨_, _, by simp only [hstray], by simp only [hstray'], .unknownFunction htoken⟩

end L3Lowering
