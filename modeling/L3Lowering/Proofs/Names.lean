import L3Lowering.Program.Basic
import L3Lowering.Token.Lexeme

namespace L3Lowering

def isWord : List Char → Bool
  | [] => false
  | c :: cs => isNameStart c && cs.all isNameChar

def isVarName (name : String) : Bool :=
  isWord name.toList && (Keyword.ofText? name).isNone

/-- A `:` and then a word, which may be a keyword. -/
def isLabelWord (name : String) : Bool :=
  match name.toList with
  | ':' :: cs => isWord cs
  | _ => false

/-- A `:` and then a name that starts with a letter or `_`. -/
def IsLabelName (name : String) : Prop :=
  ∃ c cs, name.toList = ':' :: c :: cs ∧ isNameStart c = true

theorem isAlpha_iff_toNat {c : Char} : c.isAlpha = true ↔
    (65 ≤ c.toNat ∧ c.toNat ≤ 90) ∨ (97 ≤ c.toNat ∧ c.toNat ≤ 122) := by
  change ((65 ≤ c.val ∧ c.val ≤ 90 : Bool) || (97 ≤ c.val && c.val ≤ 122)) = true ↔ _
  simp only [Bool.or_eq_true, Bool.and_eq_true, decide_eq_true_eq, UInt32.le_iff_toNat_le]
  exact Iff.rfl

theorem isNameStart_iff {c : Char} : isNameStart c = true ↔ c.isAlpha = true ∨ c = '_' := by
  rw [isNameStart, Bool.or_eq_true, beq_iff_eq]

theorem isNameChar_iff {c : Char} :
    isNameChar c = true ↔ (c.isAlpha = true ∨ c.isDigit = true) ∨ c = '_' := by
  change (c.isAlpha || c.isDigit || c == '_') = true ↔ _
  rw [Bool.or_eq_true, Bool.or_eq_true, beq_iff_eq]

theorem isNameChar_of_isNameStart {c : Char} (h : isNameStart c = true) : isNameChar c = true := by
  rcases isNameStart_iff.1 h with h | h
  · exact isNameChar_iff.2 (.inl (.inl h))
  · exact isNameChar_iff.2 (.inr h)

theorem isNameChar_of_isDigit {c : Char} (h : c.isDigit = true) : isNameChar c = true :=
  isNameChar_iff.2 (.inl (.inr h))

theorem toNat_of_isNameChar {c : Char} (h : isNameChar c = true) :
    48 ≤ c.toNat ∧ c.toNat ≤ 122 := by
  rw [isNameChar_iff, isAlpha_iff_toNat, Char.isDigit_iff_toNat] at h
  change (_ ∨ (48 ≤ c.toNat ∧ c.toNat ≤ 57)) ∨ _ at h
  rcases h with (h | h) | rfl
  · omega
  · omega
  · decide

theorem not_isDigit_of_isNameStart {c : Char} (h : isNameStart c = true) : c.isDigit = false := by
  rw [Bool.eq_false_iff]
  intro hdigit
  have hrange : 48 ≤ c.toNat ∧ c.toNat ≤ 57 := Char.isDigit_iff_toNat.1 hdigit
  rcases isNameStart_iff.1 h with h | rfl
  · rw [isAlpha_iff_toNat] at h
    omega
  · exact absurd hrange (by decide)

theorem isNameStart_of_isDigit {c : Char} (h : c.isDigit = true) : isNameStart c = false := by
  rw [Bool.eq_false_iff]
  intro hstart
  rw [not_isDigit_of_isNameStart hstart] at h
  exact absurd h (by decide)

theorem isBlank_of_isNameChar {c : Char} (h : isNameChar c = true) : Text.isBlank c = false := by
  have hrange := toNat_of_isNameChar h
  simp [Text.isBlank, Text.blankRanges]
  omega

theorem ne_slash_of_isNameChar {c : Char} (h : isNameChar c = true) : c ≠ '/' := by
  rintro rfl
  exact absurd h (by decide)

theorem isWord_cons_iff {c : Char} {cs : List Char} :
    isWord (c :: cs) = true ↔ isNameStart c = true ∧ ∀ d ∈ cs, isNameChar d = true := by
  rw [isWord, Bool.and_eq_true, List.all_eq_true]

theorem isNameChar_of_isWord {cs : List Char} (h : isWord cs = true) :
    ∀ c ∈ cs, isNameChar c = true := by
  cases cs with
  | nil => simp
  | cons d ds =>
      obtain ⟨hd, hds⟩ := isWord_cons_iff.1 h
      exact List.forall_mem_cons.2 ⟨isNameChar_of_isNameStart hd, hds⟩

theorem isWord_append {as bs : List Char} (has : isWord as = true)
    (hbs : ∀ c ∈ bs, isNameChar c = true) : isWord (as ++ bs) = true := by
  cases as with
  | nil => exact absurd has (by decide)
  | cons c as =>
      obtain ⟨hc, has⟩ := isWord_cons_iff.1 has
      exact isWord_cons_iff.2 ⟨hc, List.forall_mem_append.2 ⟨has, hbs⟩⟩

theorem isLabelWord_iff {name : String} :
    isLabelWord name = true ↔ ∃ cs, name.toList = ':' :: cs ∧ isWord cs = true := by
  unfold isLabelWord
  split
  · rename_i cs hname
    simp [hname]
  · rename_i hname
    simp only [Bool.false_eq_true, false_iff, not_exists, not_and]
    intro cs hcs
    exact absurd hcs (hname cs)

theorem isLabelName_of_isLabelWord {name : String} (h : isLabelWord name = true) :
    IsLabelName name := by
  unfold isLabelWord at h
  split at h
  · rename_i cs hcs
    cases cs with
    | nil => simp [isWord] at h
    | cons c cs =>
        rw [isWord, Bool.and_eq_true] at h
        exact ⟨c, cs, hcs, h.1⟩
  · exact absurd h (by decide)

namespace IsLabelName

variable {name other : String}

theorem toList_bare (h : IsLabelName name) : name.toList = ':' :: (Label.bare name).toList := by
  obtain ⟨c, cs, hname, -⟩ := h
  rw [Label.bare, hname]
  simp

theorem bare_injective (hname : IsLabelName name) (hother : IsLabelName other)
    (h : Label.bare name = Label.bare other) : name = other := by
  apply String.toList_injective
  rw [hname.toList_bare, hother.toList_bare, h]

theorem bare_head?_not_digit (h : IsLabelName name) :
    (Label.bare name).toList.head?.any Char.isDigit = false := by
  have hbare := h.toList_bare
  obtain ⟨c, cs, hname, hc⟩ := h
  rw [hname] at hbare
  rw [← List.tail_eq_of_cons_eq hbare]
  exact not_isDigit_of_isNameStart hc

end IsLabelName

end L3Lowering
