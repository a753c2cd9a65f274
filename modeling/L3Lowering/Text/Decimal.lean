namespace L3Lowering.Text

def digit (n : Nat) : Char :=
  Char.ofNat ('0'.toNat + n)

def digits (n : Nat) : List Char :=
  if n < 10 then [digit n] else digits (n / 10) ++ [digit (n % 10)]

def valueOfDigits (cs : List Char) : Nat :=
  cs.foldl (fun value c => 10 * value + (c.toNat - '0'.toNat)) 0

def natText (n : Nat) : String :=
  String.ofList (digits n)

def intText : Int → String
  | .ofNat n => natText n
  | .negSucc n => "-" ++ natText (n + 1)

def readInt : List Char → Int
  | '-' :: cs => -(valueOfDigits cs : Int)
  | '+' :: cs => valueOfDigits cs
  | cs => valueOfDigits cs

/-- The word that an integer text denotes, if it is in the range of 64 bit signed words. -/
def readInt64? (cs : List Char) : Option Int64 :=
  let n := readInt cs
  if Int64.minValue.toInt ≤ n ∧ n ≤ Int64.maxValue.toInt then some (Int64.ofInt n) else none

theorem valueOfDigits_append (cs : List Char) (c : Char) :
    valueOfDigits (cs ++ [c]) = 10 * valueOfDigits cs + (c.toNat - '0'.toNat) := by
  simp [valueOfDigits]

theorem toNat_digit {n : Nat} (h : n < 10) : (digit n).toNat = '0'.toNat + n := by
  have hall : ∀ m < 10, (digit m).toNat = '0'.toNat + m := by decide
  exact hall n h

theorem valueOfDigits_digits (n : Nat) : valueOfDigits (digits n) = n := by
  fun_induction digits n with
  | case1 n hlt => simp [valueOfDigits, toNat_digit hlt]
  | case2 n hge ih =>
      rw [valueOfDigits_append, ih, toNat_digit (Nat.mod_lt n (by omega))]
      omega

theorem digits_injective {m n : Nat} (h : digits m = digits n) : m = n := by
  rw [← valueOfDigits_digits m, h, valueOfDigits_digits]

end L3Lowering.Text
