namespace L3Lowering.Text

def byteSize : List Char → Nat
  | [] => 0
  | c :: cs => c.utf8Size + byteSize cs

/-- The text before and after a byte offset that lies between two characters. -/
def cut? : Nat → List Char → Option (List Char × List Char)
  | 0, cs => some ([], cs)
  | _ + 1, [] => none
  | n + 1, c :: cs =>
    if c.utf8Size ≤ n + 1 then
      (cut? (n + 1 - c.utf8Size) cs).map fun sides => (c :: sides.1, sides.2)
    else none

def slice? (start stop : Nat) (cs : List Char) : Option (List Char) :=
  if start ≤ stop then
    (cut? stop cs).bind fun sides => (cut? start sides.1).map Prod.snd
  else none

def lastLine (cs : List Char) : List Char :=
  (cs.reverse.takeWhile (· != '\n')).reverse

def firstLine (cs : List Char) : List Char :=
  cs.takeWhile (· != '\n')

def replicate (n : Nat) (c : Char) : String :=
  String.ofList (List.replicate n c)

@[simp]
theorem byteSize_nil : byteSize [] = 0 := rfl

@[simp]
theorem byteSize_cons (c : Char) (cs : List Char) :
    byteSize (c :: cs) = c.utf8Size + byteSize cs := rfl

@[simp]
theorem byteSize_append (as bs : List Char) : byteSize (as ++ bs) = byteSize as + byteSize bs := by
  induction as with
  | nil => simp
  | cons c as ih => simp [ih, Nat.add_assoc]

theorem cut?_byteSize (as bs : List Char) : cut? (byteSize as) (as ++ bs) = some (as, bs) := by
  induction as with
  | nil => simp [cut?]
  | cons c as ih =>
      have hpos := c.utf8Size_pos
      obtain ⟨n, hn⟩ : ∃ n, byteSize (c :: as) = n + 1 :=
        ⟨c.utf8Size + byteSize as - 1, by simp only [byteSize_cons]; omega⟩
      have hle : c.utf8Size ≤ n + 1 := by simp only [byteSize_cons] at hn; omega
      have hsub : n + 1 - c.utf8Size = byteSize as := by simp only [byteSize_cons] at hn; omega
      rw [hn, List.cons_append, cut?, if_pos hle, hsub, ih]
      rfl

theorem append_eq_of_cut? {n : Nat} {cs as bs : List Char} (h : cut? n cs = some (as, bs)) :
    as ++ bs = cs ∧ byteSize as = n := by
  induction cs generalizing n as bs with
  | nil =>
      cases n with
      | zero => simp_all [cut?]
      | succ n => simp [cut?] at h
  | cons c cs ih =>
      cases n with
      | zero => simp_all [cut?]
      | succ n =>
          rw [cut?] at h
          split at h
          · rename_i hle
            obtain ⟨⟨as', bs'⟩, hcut, heq⟩ := Option.map_eq_some_iff.1 h
            obtain ⟨rfl, rfl⟩ := Prod.mk.inj heq
            obtain ⟨happ, hsize⟩ := ih hcut
            simp only [List.cons_append, happ, byteSize_cons, hsize, true_and]
            omega
          · simp at h

end L3Lowering.Text
