import L3Lowering.Proofs.JunctureSteps

namespace L3Lowering

namespace Parser

variable {α : Type} {place goal : Juncture} {s : State}

theorem handles_operandFrom {token : Token}
    (hnext : place.next token.kind = Juncture.afterOperand goal token.kind) :
    Handles operandFrom place goal token s := by
  cases hkind : token.kind with
  | identifier =>
      rw [hkind] at hnext
      have hstep : place.step token.word = some goal := by
        rw [Juncture.step_word (by simp [hkind]), hkind, hnext]
        rfl
      apply Handles.go hstep
      simp only [operandFrom, hkind]
      exact tracks_numbered _ _
  | integer =>
      have hstep : place.step token.word = _ := Juncture.step_integer hkind
      rw [hkind] at hnext
      rw [hnext] at hstep
      cases hvalue : Text.readInt64? token.text.toList with
      | some value =>
          rw [hvalue] at hstep
          apply Handles.go hstep
          simp only [operandFrom, hkind, hvalue]
          exact tracks_numbered _ _
      | none =>
          rw [hvalue] at hstep
          exact .stop hstep (by simp only [operandFrom, hkind, hvalue]; rfl) rfl
  | _ =>
      rw [hkind] at hnext
      have hstep : place.step token.word = none := by
        apply Juncture.step_eq_none
        rw [hkind, hnext]
        rfl
      exact .stop hstep (by simp only [operandFrom, hkind]; rfl) rfl

theorem tracksAt_operand (hend : place.isDone = false)
    (hnext : ∀ token ∈ s.tokens.head?,
      place.next token.kind = Juncture.afterOperand goal token.kind) :
    operand.TracksAt place goal s := by
  apply tracksAt_next .operand fun _ => hend
  intro token tokens htokens
  exact handles_operandFrom (hnext token (by rw [htokens]; rfl))

theorem tracks_ahead : Tracks ahead place place :=
  fun s => .ok (.refl place s.tokens)

theorem tracks_nextIs (kind : Kind) : Tracks (nextIs kind) place place :=
  tracks_ahead.bind fun _ => tracks_pure _

theorem tracks_labelOr {q : Parser Atom} (hnext : place.next = Juncture.afterValue goal)
    (hend : place.isDone = false)
    (hlabel : ∀ s, (∀ token ∈ s.tokens.head?, token.kind = .label) → q.TracksAt place goal s) :
    Tracks (do if ← nextIs .label then q else operand) place goal := by
  intro s
  apply (tracks_nextIs .label s).bind
  rintro found t h
  cases h
  split
  · rename_i hfound
    apply hlabel
    intro token htoken
    rw [Option.mem_def] at htoken
    simpa [htoken] using hfound
  · rename_i hfound
    apply tracksAt_operand hend
    intro token htoken
    rw [Option.mem_def] at htoken
    have hkind : token.kind ≠ .label := by simpa [htoken] using hfound
    rw [hnext]
    exact if_neg hkind

theorem tracksAt_expectLabel (hnext : place.next = Juncture.afterValue goal)
    (hend : place.isDone = false) (hlabel : ∀ token ∈ s.tokens.head?, token.kind = .label) :
    (expect .label .label).TracksAt place goal s := by
  apply tracksAt_expect .label (by decide) (fun _ => hend)
  · rw [hnext]
    rfl
  · intro token htoken hne
    exact absurd (hlabel token htoken) hne

theorem tracks_value (hnext : place.next = Juncture.afterValue goal) (hend : place.isDone = false) :
    Tracks value place goal := by
  apply tracks_labelOr hnext hend
  intro s hlabel
  have hexpect := tracksAt_expectLabel hnext hend hlabel
  exact (hexpect.bind fun _ t _ => tracks_numbered _ t).bind fun _ t _ => tracks_pure _ t

theorem tracks_argument (hnext : place.next = Juncture.afterValue goal)
    (hend : place.isDone = false) : Tracks argument place goal := by
  apply tracks_labelOr hnext hend
  intro s hlabel
  apply (tracksAt_expectLabel hnext hend hlabel).bind
  intro token t _
  exact ((tracks_noteCallLabel token).bind fun _ => tracks_numbered _) t

theorem tracksAt_pure (h : place.Passes goal s.tokens s.tokens) (a : α) :
    TracksAt (pure a : Parser α) place goal s :=
  .ok h

theorem tracks_whileNext {item : Parser α} (again : Option Kind → Bool) (consumes : item.Consumes)
    (hitem : ∀ s, again (s.tokens.head?.map Token.kind) = true → item.TracksAt place place s) :
    Tracks (whileNext again item consumes) place place := by
  intro s
  induction hn : s.tokens.length using Nat.strongRecOn generalizing s with
  | ind n ih =>
      unfold TracksAt
      rw [whileNext_apply]
      by_cases hagain : again (s.tokens.head?.map Token.kind) = true
      · rw [if_pos hagain]
        apply (hitem s hagain).bind
        intro a t hfirst
        -- The item takes a token, so what is left is shorter.
        have hrest := ih _ (hn ▸ consumes s a t hfirst) t rfl
        exact hrest.bind fun as u _ => tracks_pure _ u
      · rw [if_neg hagain]
        exact .ok (.refl place s.tokens)

/-- The junctures of a list in parentheses, from `place` to `goal`. -/
structure ListJunctures (place first each after goal : Juncture) : Prop where
  opens : place.next = Juncture.only .openParen first
  starts : first.next = Juncture.either .closeParen goal each.next
  continues : after.next = Juncture.either .comma each (Juncture.only .closeParen goal)
  inside : ∀ juncture ∈ [place, first, each, after], juncture.isDone = false

theorem items_stops {item : Parser α} (expected : Expectation) (consumes : item.Consumes) :
    (items expected item consumes).Yields fun _ _ t =>
      ∀ token ∈ t.tokens.head?, token.kind ≠ .comma := by
  intro s as t h token htoken
  rw [Option.mem_def] at htoken
  obtain ⟨found, u, hpeek, h⟩ := bind_eq_ok.1 h
  split at h
  · rename_i hclose
    obtain ⟨-, rfl⟩ := pure_eq_ok.1 h
    unfold peek at hpeek
    split at hpeek
    · cases hpeek
    · rename_i other tokens htokens
      cases hpeek
      obtain rfl : found = token := by simpa [htokens] using htoken
      simp [hclose]
  · obtain ⟨a, v, -, h⟩ := bind_eq_ok.1 h
    obtain ⟨others, w, hothers, h⟩ := bind_eq_ok.1 h
    obtain ⟨-, rfl⟩ := pure_eq_ok.1 h
    have hstop := whileNext_stops _ _ _ _ _ hothers
    simpa [htoken] using hstop

section Lists

variable {item : Parser α} {first each after : Juncture}
  (h : ListJunctures place first each after goal) (hitem : Tracks item each after)
include h hitem

theorem tracks_commas (consumes : item.Consumes) :
    Tracks (whileNext (· == some .comma) (afterComma item) (consumes_afterComma consumes))
      after after := by
  apply tracks_whileNext
  intro s hagain
  have hcomma : ∀ token ∈ s.tokens.head?, token.kind = .comma := by
    intro token htoken
    rw [Option.mem_def] at htoken
    simpa [htoken] using hagain
  have hexpect : (expect .comma .commaOrClose).TracksAt after each s := by
    apply tracksAt_expect .commaOrClose (by decide) fun _ => h.inside after (by simp)
    · rw [h.continues]
      rfl
    · intro token htoken hne
      exact absurd (hcomma token htoken) hne
  exact hexpect.bind fun _ t _ => hitem t

theorem tracks_items (expected : Expectation) (consumes : item.Consumes) :
    Tracks (items expected item consumes) first after := by
  intro s
  unfold TracksAt
  cases htokens : s.tokens with
  | nil =>
      have hpeek : items expected item consumes s = .error (.atEnd expected) := by
        simp only [items, bind_apply, peek, htokens]
      rw [hpeek]
      exact .error (.atEnd (congrArg some (h.inside first (by simp))))
  | cons token tokens =>
      have hhead : ∀ found ∈ s.tokens.head?, found = token := by
        simp [htokens]
      have hfirst := h.inside first (by simp)
      rw [← htokens]
      by_cases hclose : token.kind = .closeParen
      · have hpeek : items expected item consumes s = .ok ([], s) := by
          simp only [items, bind_apply, peek, htokens, if_pos hclose, pure_apply]
        rw [hpeek]
        refine .ok (Juncture.passes_of_congr (hfirst.trans (h.inside after (by simp)).symm) ?_)
        intro found hfound
        rw [hhead found hfound, hclose, h.starts, h.continues]
        rfl
      · have hpeek : items expected item consumes s
            = (do
                let a ← item
                let as ← whileNext (· == some .comma) (afterComma item)
                  (consumes_afterComma consumes)
                return a :: as : Parser (List α)) s := by
          simp only [items, bind_apply, peek, htokens, if_neg hclose]
        rw [hpeek]
        have hsame : first.Passes each s.tokens s.tokens := by
          apply Juncture.passes_of_congr (hfirst.trans (h.inside each (by simp)).symm)
          intro found hfound
          rw [hhead found hfound, h.starts]
          exact if_neg hclose
        have hall := hitem.bind fun a =>
          (tracks_commas h hitem consumes).bind fun as => tracks_pure (a :: as)
        exact (hall s).after hsame

theorem tracks_listOf (expected : Expectation) (consumes : item.Consumes) :
    Tracks (listOf expected item consumes) place goal := by
  apply (tracks_only .openParen h.opens (by decide) (h.inside place (by simp))).bind
  intro _ s
  apply (tracks_items h hitem expected consumes s).bind
  intro as t hitems
  have hcomma := items_stops expected consumes _ _ _ hitems
  have hexpect : (expect .closeParen .commaOrClose).TracksAt after goal t := by
    apply tracksAt_expect .commaOrClose (by decide) fun _ => h.inside after (by simp)
    · rw [h.continues]
      rfl
    · intro token htoken hkind
      apply Juncture.step_eq_none
      rw [h.continues, Juncture.either, if_neg (hcomma token htoken)]
      exact if_neg hkind
  exact hexpect.bind fun _ u _ => tracks_pure _ u

end Lists

theorem tracks_callee : Tracks callee .callee .arguments := by
  apply tracks_next .callee rfl
  intro token s
  cases hkind : token.kind with
  | identifier =>
      refine .ofKind hkind (by simp) rfl ?_
      simp only [hkind]
      exact tracks_numbered _ _
  | label =>
      refine .ofKind hkind (by simp) rfl ?_
      simp only [hkind]
      exact ((tracks_noteCallLabel token).bind fun _ => tracks_numbered _) _
  | keyword keyword =>
      cases keyword with
      | print | allocate | arrayError =>
          refine .ofKind hkind (by simp) rfl ?_
          simp only [hkind]
          exact tracks_numbered _ _
      | _ =>
          refine .unexpected .callee hkind rfl ?_
          simp only [hkind]
          rfl
  | _ =>
      refine .unexpected .callee hkind rfl ?_
      simp only [hkind]
      rfl

theorem tracks_parameters : Tracks parameters .parameters .openBrace := by
  have hplaces : ListJunctures .parameters .firstParameter .nextParameter .afterParameter
      .openBrace := ⟨rfl, rfl, rfl, by decide⟩
  exact tracks_listOf hplaces (tracks_var rfl rfl) _ _

theorem tracks_call : Tracks call .callee .instruction := by
  have hplaces : ListJunctures .arguments .firstArgument .nextArgument .afterArgument
      .instruction := ⟨rfl, rfl, rfl, by decide⟩
  apply tracks_callee.bind
  intro callee
  apply (tracks_listOf hplaces (tracks_argument rfl rfl) _ _).bind
  intro arguments
  exact tracks_numbered _

end Parser

end L3Lowering
