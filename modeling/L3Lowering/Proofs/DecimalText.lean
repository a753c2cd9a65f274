import L3Lowering.Text.Decimal

namespace L3Lowering.Text

theorem takeWhile_run {p : Char → Bool} {run rest : List Char} (hrun : ∀ c ∈ run, p c = true)
    (hrest : rest.head?.any p = false) : (run ++ rest).takeWhile p = run := by
  rw [List.takeWhile_append_of_pos hrun]
  cases rest with
  | nil => simp
  | cons c cs =>
      have hc : p c = false := hrest
      simp [hc]

theorem dropWhile_run {p : Char → Bool} {run rest : List Char} (hrun : ∀ c ∈ run, p c = true)
    (hrest : rest.head?.any p = false) : (run ++ rest).dropWhile p = rest := by
  rw [List.dropWhile_append_of_pos hrun]
  cases rest with
  | nil => simp
  | cons c cs =>
      have hc : p c = false := hrest
      simp [hc]

theorem isDigit_digit {n : Nat} (h : n < 10) : (digit n).isDigit = true := by
  have hall : ∀ m < 10, (digit m).isDigit = true := by decide
  exact hall n h

theorem isDigit_of_mem_digits {n : Nat} {c : Char} (h : c ∈ digits n) : c.isDigit = true := by
  fun_induction digits n with
  | case1 n hlt =>
      obtain rfl := List.mem_singleton.1 h
      exact isDigit_digit hlt
  | case2 n hge ih =>
      rcases List.mem_append.1 h with hmem | hlast
      · exact ih hmem
      · obtain rfl := List.mem_singleton.1 hlast
        exact isDigit_digit (Nat.mod_lt n (by omega))

theorem digits_ne_nil (n : Nat) : digits n ≠ [] := by
  rw [digits]
  split <;> simp

theorem digits_eq_cons (n : Nat) : ∃ c cs, digits n = c :: cs ∧ c.isDigit = true := by
  cases h : digits n with
  | nil => exact absurd h (digits_ne_nil n)
  | cons c cs => exact ⟨c, cs, rfl, isDigit_of_mem_digits (n := n) (by simp [h])⟩

/-- The number and the text after it can be told apart. -/
theorem digits_append_inj {m n : Nat} {as bs : List Char} (ha : as.head?.any Char.isDigit = false)
    (hb : bs.head?.any Char.isDigit = false) (h : digits m ++ as = digits n ++ bs) :
    m = n ∧ as = bs := by
  have htake := congrArg (List.takeWhile Char.isDigit) h
  have hdrop := congrArg (List.dropWhile Char.isDigit) h
  rw [takeWhile_run (fun _ => isDigit_of_mem_digits) ha,
    takeWhile_run (fun _ => isDigit_of_mem_digits) hb] at htake
  rw [dropWhile_run (fun _ => isDigit_of_mem_digits) ha,
    dropWhile_run (fun _ => isDigit_of_mem_digits) hb] at hdrop
  exact ⟨digits_injective htake, hdrop⟩

@[simp]
theorem toList_natText (n : Nat) : (natText n).toList = digits n :=
  String.toList_ofList

theorem readInt_digits (n : Nat) : readInt (digits n) = n := by
  obtain ⟨c, cs, hdigits, hc⟩ := digits_eq_cons n
  have hvalue := valueOfDigits_digits n
  rw [hdigits] at hvalue ⊢
  unfold readInt
  split
  · rename_i heq
    obtain ⟨rfl, -⟩ := List.cons.inj heq
    exact absurd hc (by decide)
  · rename_i heq
    obtain ⟨rfl, -⟩ := List.cons.inj heq
    exact absurd hc (by decide)
  · rw [hvalue]

theorem readInt_intText (n : Int) : readInt (intText n).toList = n := by
  cases n with
  | ofNat n =>
      rw [intText, toList_natText, readInt_digits]
      rfl
  | negSucc n =>
      have htext : (intText (.negSucc n)).toList = '-' :: digits (n + 1) := by
        rw [intText, String.toList_append, toList_natText]
        rfl
      rw [htext, readInt, valueOfDigits_digits]
      rfl

theorem readInt64?_intText (word : Int64) : readInt64? (intText word.toInt).toList = some word := by
  have hlow := Int64.le_toInt word
  have hhigh := Int64.toInt_lt word
  have hmin : Int64.minValue.toInt = -2 ^ 63 := by decide
  have hmax : Int64.maxValue.toInt = 2 ^ 63 - 1 := by decide
  rw [readInt64?, readInt_intText, if_pos (by omega), Int64.ofInt_toInt]

end L3Lowering.Text
