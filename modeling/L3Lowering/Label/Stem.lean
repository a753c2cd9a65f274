import L3Lowering.Text.Decimal

namespace L3Lowering.Stem

def root : Char :=
  'z'

/-- The stems `z0`, ..., `z9`, `z90`, ..., `z99`, `z990`, ...: a last digit is advanced, and a `0`
is appended to a `9`. -/
def numbered (k : Nat) : List Char :=
  root :: (List.replicate (k / 10) '9' ++ [Text.digit (k % 10)])

@[simp]
theorem length_numbered (k : Nat) : (numbered k).length = k / 10 + 2 := by
  simp [numbered]

theorem lt_of_isPrefixOf_numbered {k : Nat} {name : List Char}
    (h : (numbered k).isPrefixOf name = true) : k < 10 * name.length := by
  have hle := (List.isPrefixOf_iff_prefix.1 h).length_le
  rw [length_numbered] at hle
  omega

def skip (name : List Char) (k : Nat) : Nat :=
  if h : (numbered k).isPrefixOf name = true then
    have := lt_of_isPrefixOf_numbered h
    skip name (k + 1)
  else k
termination_by 10 * name.length - k

/-- Looks at sorted names once. A numbered stem that sorts before a name without starting it starts
no later name either, so the search ends there. -/
def search (k : Nat) : List (List Char) → Nat
  | [] => k
  | name :: names =>
    let next := skip name k
    if numbered next < name then next else search next names

def sort (names : List (List Char)) : List (List Char) :=
  names.mergeSort fun a b => !decide (b < a)

def find (names : List String) : String :=
  match (sort (names.map String.toList)).dropWhile (·.head? != some root) with
  | [] => String.ofList [root]
  | candidates => String.ofList (numbered (search 0 candidates))

end L3Lowering.Stem
