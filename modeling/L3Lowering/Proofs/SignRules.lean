import L3Lowering.Proofs.EarliestError

namespace L3Lowering

def signAlways : SignRule :=
  fun _ => true

/-- Nothing that can be a left operand leads to a place where a number is due. -/
theorem Juncture.next_integer_of_endsOperand {place after : Juncture} {kind : Kind}
    (h : place.next kind = some after) (hkind : EndsOperand (some kind)) :
    after.next .integer = none := by
  simp only [EndsOperand, Option.some.injEq] at hkind
  rcases hkind with rfl | rfl | rfl <;> cases place <;> cases h <;> rfl

theorem Juncture.kind_ne_integer_of_step {place after : Juncture} {token : Token}
    (h : place.step token.word = some after) (hplace : place.next .integer = none) :
    token.kind ≠ .integer := by
  intro hkind
  rw [step_integer hkind, hplace] at h
  simp at h

theorem Juncture.next_of_step {place after : Juncture} {token : Token}
    (h : place.step token.word = some after) : place.next token.kind = some after := by
  unfold step at h
  split at h
  · rwa [Parser.kind_word] at h
  · cases h

theorem lexeme_eq_of_ne_integer {c : Char} {cs : List Char}
    (h : (lexeme true c cs).kind ≠ .integer) (signed : Bool) :
    lexeme signed c cs = lexeme true c cs := by
  unfold lexeme at h ⊢
  split
  · rfl
  · split
    · rfl
    · rename_i hword hlabel
      rw [if_neg hword, if_neg hlabel] at h
      split at h
      · exact absurd rfl h
      · rename_i hnumber
        rw [if_neg hnumber, if_neg]
        simp only [Bool.or_eq_true, Bool.and_eq_true, not_or, and_true] at hnumber ⊢
        exact ⟨hnumber.1, fun h => hnumber.2 ⟨h.1.1, h.2⟩⟩

theorem Cursor.next?_eq_none {cursor : Cursor} {signs : SignRule} (h : cursor.next? signs = none)
    (others : SignRule) : cursor.next? others = none := by
  unfold next? at h ⊢
  split at h
  · rfl
  · cases h

theorem Cursor.next?_eq_of_signAlways {cursor after : Cursor} {token : Token}
    (h : cursor.next? signAlways = some (token, after))
    (hkind : EndsOperand cursor.previous → token.kind ≠ .integer) :
    cursor.next? signUnlessOperand = some (token, after) := by
  by_cases hoperand : EndsOperand cursor.previous
  · unfold next? at h ⊢
    split at h
    · cases h
    · rename_i gap c cs hgap
      obtain ⟨rfl, rfl⟩ := Prod.mk.inj (Option.some.inj h)
      have hlexeme := lexeme_eq_of_ne_integer (hkind hoperand)
        (signUnlessOperand cursor.previous)
      simp only [hlexeme]
      rfl
  · have hsigned := signUnlessOperand_eq_true_iff.2 hoperand
    unfold next? at h ⊢
    rw [hsigned]
    exact h

/-- Along the walk over a program both rules read the same tokens. -/
theorem Cursor.tokens_eq_of_watch (cursor : Cursor) (place : Juncture)
    (hwatch : (place.watch (cursor.tokens signAlways)).isSome = true)
    (hplace : EndsOperand cursor.previous → place.next .integer = none) :
    cursor.tokens signUnlessOperand = cursor.tokens signAlways := by
  -- What is kept from token to token: after an operand the place takes no number.
  fun_induction Cursor.tokens signAlways cursor generalizing place with
  | case1 cursor hnone =>
      rw [tokens_eq, next?_eq_none hnone]
  | case2 cursor token after hnext _ ih =>
      rw [Juncture.watch_cons] at hwatch
      cases hstep : place.step token.word with
      | none => simp [hstep] at hwatch
      | some next =>
          have hkind : EndsOperand cursor.previous → token.kind ≠ .integer :=
            fun hoperand => Juncture.kind_ne_integer_of_step hstep (hplace hoperand)
          have hnext' := next?_eq_of_signAlways hnext hkind
          obtain ⟨-, -, -, -, -, -, -, hprevious⟩ := read_next? hnext'
          have hafter : EndsOperand after.previous → next.next .integer = none := by
            rw [hprevious]
            exact Juncture.next_integer_of_endsOperand (Juncture.next_of_step hstep)
          rw [tokens_eq, hnext']
          exact congrArg (List.cons token) (ih next (by simpa [hstep] using hwatch) hafter)

/-- A text that spells a program when signs that touch digits always start literals spells the same
program, with the same ids, when they do so unless an operand comes before them. -/
theorem Source.parse_of_signAlways (source : Source) (program : Program)
    (h : Program.ofTokens (source.tokensWith signAlways) = .ok program) :
    source.parse = .ok program := by
  have hwatch : (Juncture.start.watch (source.tokensWith signAlways)).isSome = true := by
    rw [Program.watch_of_ofTokens h]
    rfl
  have htokens : source.tokens = source.tokensWith signAlways :=
    Cursor.tokens_eq_of_watch _ .start hwatch (by simp [Cursor.start, EndsOperand])
  rw [parse, htokens]
  exact h

/-- Signs behind an operator, a parenthesis, a comma and `return`, and one that stands apart from
its number. -/
theorem Source.parse_of_signAlways_places :
    let source := Source.ofString
      "define :f(x) \x7b x <- x - -1 x <- 2 - x call :f(-4, +6) return +2 \x7d"
    let program : Program :=
      ⟨[⟨⟨0, ":f"⟩, [⟨1, "x"⟩],
        [.assign ⟨6, .var ⟨2, "x"⟩,
            .binop ⟨5, .arithmetic .subtract, .var ⟨3, "x"⟩, .literal ⟨4, -1⟩⟩⟩,
          .assign ⟨11, .var ⟨7, "x"⟩,
            .binop ⟨10, .arithmetic .subtract, .literal ⟨8, 2⟩, .var ⟨9, "x"⟩⟩⟩,
          .call ⟨15, .label ⟨12, ":f"⟩, [.literal ⟨13, -4⟩, .literal ⟨14, 6⟩]⟩,
          .returnValue 17 (.literal ⟨16, 2⟩)]⟩]⟩
    Program.ofTokens (source.tokensWith signAlways) = .ok program ∧ source.parse = .ok program := by
  intro source program
  have h : Program.ofTokens (source.tokensWith signAlways) = .ok program := by decide +kernel
  exact ⟨h, parse_of_signAlways source program h⟩

-- The converse fails: a minus between an operand and a number may touch the number.
example :
    let source := Source.ofString "define :f(x) \x7b x <- x -1 return \x7d"
    (Program.ofTokens (source.tokensWith signAlways)).isOk = false ∧ source.parse.isOk = true := by
  decide +kernel

end L3Lowering
