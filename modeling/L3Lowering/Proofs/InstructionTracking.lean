import L3Lowering.Proofs.ListTracking

namespace L3Lowering

namespace Parser

variable {β : Type} {place goal : Juncture} {s : State}

theorem tracks_secondOperand : Tracks operand .secondOperand .instruction :=
  fun _ => tracksAt_operand rfl fun _ _ => rfl

/-- After an operand that is assigned, anything but an operator starts the next instruction. -/
theorem passes_operator {tokens : List Token}
    (h : ∀ token ∈ tokens.head?, ∀ op, token.kind ≠ .operator op) :
    Juncture.operator.Passes .instruction tokens tokens := by
  refine Juncture.passes_of_congr rfl fun token htoken => ?_
  cases hkind : token.kind with
  | operator op => exact absurd hkind (h token htoken op)
  | _ => rfl

theorem tracks_operation (first : Atom) : Tracks (operation first) .operator .instruction := by
  intro s
  apply (tracks_ahead s).bind
  intro tokens t h
  cases h
  cases htokens : s.tokens with
  | nil => exact tracksAt_pure (passes_operator (by simp [htokens])) _
  | cons token tokens =>
      simp only [List.head?_cons, Option.map_some]
      cases hkind : token.kind with
      | operator op =>
          apply tracksAt_next .operand fun _ => rfl
          intro found others hfound
          obtain ⟨rfl, rfl⟩ := List.cons.inj (htokens.symm.trans hfound)
          refine .ofKind hkind (by simp) rfl ?_
          exact (tracks_secondOperand.bind fun _ => tracks_numbered _) _
      | _ => exact tracksAt_pure (passes_operator (by simp [htokens, hkind])) _

theorem handles_operandFrom_operation {token : Token}
    (hkind : token.kind = .identifier ∨ token.kind = .integer) :
    Handles (fun token => operandFrom token >>= operation) .rightHandSide .instruction token s := by
  have hnext : Juncture.rightHandSide.next token.kind
      = Juncture.afterOperand .operator token.kind := by
    rcases hkind with hkind | hkind <;> rw [hkind] <;> rfl
  cases handles_operandFrom (s := s) hnext with
  | go hstep h => exact .go hstep (h.bind fun a t _ => tracks_operation a t)
  | stop hstep h he => exact .stop hstep (by rw [bind_apply, h]) he

theorem Handles.congr {f g : Token → Parser β} {token : Token} (heq : f token = g token)
    (h : Handles g place goal token s) : Handles f place goal token s := by
  cases h with
  | go hstep h => exact .go hstep (heq ▸ h)
  | stop hstep h he => exact .stop hstep (heq ▸ h) he

theorem tracks_rightHandSide : Tracks rightHandSide .rightHandSide .instruction := by
  apply tracks_next .rightHandSide rfl
  intro token s
  cases hkind : token.kind with
  | keyword keyword =>
      cases keyword with
      | load =>
          refine .ofKind hkind (by simp) rfl ?_
          simp only [hkind]
          exact ((tracks_var rfl rfl).bind fun _ => tracks_numbered _) _
      | call =>
          refine .ofKind hkind (by simp) rfl ?_
          simp only [hkind]
          exact (tracks_call.bind fun _ => tracks_pure _) _
      | _ =>
          refine .unexpected .rightHandSide hkind rfl ?_
          simp only [hkind]
          rfl
  | label =>
      refine .ofKind hkind (by simp) rfl ?_
      simp only [hkind]
      exact tracks_numbered _ _
  | identifier => exact .congr (by simp only [hkind]) (handles_operandFrom_operation (.inl hkind))
  | integer => exact .congr (by simp only [hkind]) (handles_operandFrom_operation (.inr hkind))
  | _ =>
      refine .unexpected .rightHandSide hkind rfl ?_
      simp only [hkind]
      rfl

theorem tracks_branch {token : Token} (hkind : token.kind = .keyword .branch) :
    Tracks (instructionFrom token) .branchTarget .instruction := by
  simp only [instructionFrom, hkind]
  apply tracks_next .branchTarget rfl
  intro target s
  cases htarget : target.kind with
  | label =>
      refine .ofKind htarget (by simp) rfl ?_
      simp only [htarget]
      exact (tracks_freshId.bind fun _ => tracks_numbered _) _
  | identifier =>
      refine .ofKind htarget (by simp) rfl ?_
      simp only [htarget]
      have honTrue : Tracks label .onTrue .onFalse := tracks_label rfl rfl
      have honFalse : Tracks label .onFalse .instruction := tracks_label rfl rfl
      exact (tracks_freshId.bind fun _ =>
        honTrue.bind fun _ => honFalse.bind fun _ => tracks_numbered _) _
  | _ =>
      refine .unexpected .branchTarget htarget rfl ?_
      simp only [htarget]
      rfl

theorem passes_returned {tokens : List Token} (h : startsReturned tokens = false) :
    Juncture.returned.Passes .instruction tokens tokens := by
  cases tokens with
  | nil => exact Juncture.passes_of_congr rfl (by simp)
  | cons token tokens =>
      cases hkind : token.kind with
      | identifier =>
          have harrow : ∀ found ∈ tokens.head?, found.kind = .arrow := by
            intro found hfound
            rw [Option.mem_def] at hfound
            simpa [startsReturned, hkind, hfound] using h
          have hreturned : Juncture.returned.step token.word = some .returnedVar := by
            rw [Juncture.step_word (by simp [hkind]), hkind]
            rfl
          have htarget : Juncture.instruction.step token.word = some .arrow := by
            rw [Juncture.step_word (by simp [hkind]), hkind]
            rfl
          -- Both readings of the variable lead on alike over the arrow.
          refine ⟨[], rfl, fun ahead hahead => ?_⟩
          cases ahead with
          | nil => rfl
          | cons first ahead =>
              obtain ⟨rfl, hrest⟩ := List.cons_prefix_cons.1 hahead
              rw [List.nil_append, Juncture.watch_cons, Juncture.watch_cons, hreturned, htarget,
                Option.bind_some, Option.bind_some]
              have hsame : ∀ found ∈ tokens.head?,
                  Juncture.returnedVar.step found.word = Juncture.arrow.step found.word := by
                intro found hfound
                apply Juncture.step_congr
                rw [harrow found hfound]
                rfl
              exact Juncture.watch_congr (by rfl) hsame hrest
      | integer => simp [startsReturned, hkind] at h
      | _ =>
          refine Juncture.passes_of_congr rfl fun found hfound => ?_
          obtain rfl : token = found := Option.some.inj hfound
          rw [hkind]
          rfl

theorem tracksAt_returned (h : startsReturned s.tokens = true) :
    operand.TracksAt .returned .instruction s := by
  apply tracksAt_next .operand fun _ => rfl
  intro token tokens htokens
  rw [htokens] at h
  cases hkind : token.kind with
  | integer => exact handles_operandFrom (by rw [hkind]; rfl)
  | identifier =>
      have harrow : ∀ found ∈ tokens.head?, found.kind ≠ .arrow := by
        intro found hfound
        rw [Option.mem_def] at hfound
        simpa [startsReturned, hkind, hfound] using h
      have hpass : Juncture.returnedVar.Passes .instruction tokens tokens := by
        refine Juncture.passes_of_congr rfl fun found hfound => ?_
        exact if_neg (harrow found hfound)
      refine .ofKind hkind (by simp) rfl ?_
      simp only [operandFrom, hkind]
      exact (tracks_numbered _ _).after hpass
  | _ => simp [startsReturned, hkind] at h

theorem tracks_ret {token : Token} (hkind : token.kind = .keyword .ret) :
    Tracks (instructionFrom token) .returned .instruction := by
  simp only [instructionFrom, hkind]
  intro s
  apply (tracks_ahead s).bind
  intro tokens t h
  cases h
  split
  · rename_i hstarts
    exact (tracksAt_returned hstarts).bind fun _ t _ => tracks_numbered _ t
  · rename_i hstarts
    have hpass := passes_returned (Bool.eq_false_iff.2 hstarts)
    exact (tracks_numbered _ s).after hpass

theorem handles_instructionFrom {token : Token} (hclose : token.kind ≠ .closeBrace) :
    Handles instructionFrom .instruction .instruction token s := by
  cases hkind : token.kind with
  | closeBrace => exact absurd hkind hclose
  | label =>
      refine .ofKind hkind (by simp) rfl ?_
      simp only [instructionFrom, hkind]
      exact tracks_numbered _ _
  | identifier =>
      refine .ofKind hkind (by simp) rfl ?_
      simp only [instructionFrom, hkind]
      have harrow : Tracks (expect .arrow .arrow) .arrow .rightHandSide :=
        tracks_only .arrow rfl (by simp) rfl
      exact (tracks_freshId.bind fun _ => harrow.bind fun _ =>
        tracks_rightHandSide.bind fun _ => tracks_numbered _) _
  | keyword keyword =>
      cases keyword with
      | store =>
          refine .ofKind hkind (by simp) rfl ?_
          simp only [instructionFrom, hkind]
          have haddress : Tracks var .storeAddress .storeArrow := tracks_var rfl rfl
          have harrow : Tracks (expect .arrow .arrow) .storeArrow .storedValue :=
            tracks_only .arrow rfl (by simp) rfl
          have hvalue : Tracks value .storedValue .instruction := tracks_value rfl rfl
          exact (haddress.bind fun _ => tracks_freshId.bind fun _ => harrow.bind fun _ =>
            hvalue.bind fun _ => tracks_numbered _) _
      | branch => exact .ofKind hkind (by simp) rfl (tracks_branch hkind s)
      | ret => exact .ofKind hkind (by simp) rfl (tracks_ret hkind s)
      | call =>
          refine .ofKind hkind (by simp) rfl ?_
          simp only [instructionFrom, hkind]
          exact (tracks_call.bind fun _ => tracks_pure _) _
      | _ =>
          refine .unexpected .instruction hkind rfl ?_
          simp only [instructionFrom, hkind]
          rfl
  | _ =>
      refine .unexpected .instruction hkind rfl ?_
      simp only [instructionFrom, hkind]
      rfl

end Parser

end L3Lowering
