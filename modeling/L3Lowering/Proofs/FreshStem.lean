import L3Lowering.Label.Stem
import Mathlib.Data.List.TakeWhile

namespace L3Lowering.Stem

theorem digit_lt {m n : Nat} (hmn : m < n) (hn : n < 10) : Text.digit m < Text.digit n := by
  have hall : ∀ n < 10, ∀ m < n, Text.digit m < Text.digit n := by decide
  exact hall n hn m hmn

theorem numbered_lt_succ (k : Nat) : numbered k < numbered (k + 1) := by
  have hmod : k % 10 < 10 := Nat.mod_lt k (by omega)
  by_cases hlast : k % 10 = 9
  · have hdiv : (k + 1) / 10 = k / 10 + 1 := by omega
    have hzero : (k + 1) % 10 = 0 := by omega
    have hnine : Text.digit 9 = '9' := rfl
    rw [numbered, numbered, hlast, hdiv, hzero, hnine, List.replicate_succ', List.append_assoc]
    exact List.Lex.cons (List.append_left_lt (List.Lex.cons List.Lex.nil))
  · have hdiv : (k + 1) / 10 = k / 10 := by omega
    have hsucc : (k + 1) % 10 = k % 10 + 1 := by omega
    rw [numbered, numbered, hdiv, hsucc]
    exact List.Lex.cons (List.append_left_lt (List.Lex.rel (digit_lt (by omega) (by omega))))

theorem numbered_lt {j k : Nat} (h : j < k) : numbered j < numbered k := by
  induction h with
  | refl => exact numbered_lt_succ j
  | step _ ih => exact List.lt_trans ih (numbered_lt_succ _)

theorem not_prefix_of_lt {stem name : List Char} (h : name < stem) : ¬ stem <+: name := by
  intro hp
  exact hp.le h

theorem append_lt_of_lt {stem name : List Char} (h : stem < name) (hp : ¬ stem <+: name)
    (rest : List Char) : stem ++ rest < name := by
  induction stem generalizing name with
  | nil => exact absurd List.nil_prefix hp
  | cons c cs ih =>
      cases name with
      | nil => exact absurd h (List.not_lt_nil _)
      | cons d ds =>
          rcases List.cons_lt_cons_iff.1 h with hcd | ⟨rfl, hlt⟩
          · exact List.Lex.rel hcd
          · have hcs : ¬ cs <+: ds := by
              intro hcs
              exact hp (List.cons_prefix_cons.2 ⟨rfl, hcs⟩)
            exact List.Lex.cons (ih hlt hcs)

/-- A stem that sorts before a name without starting it starts no later name either. -/
theorem not_prefix_of_later {stem name later : List Char} (h : stem < name)
    (hp : ¬ stem <+: name) (hlater : ¬ later < name) : ¬ stem <+: later := by
  rintro ⟨rest, rfl⟩
  exact hlater (append_lt_of_lt h hp rest)

theorem skip_spec (name : List Char) (k : Nat) :
    k ≤ skip name k ∧ ¬ numbered (skip name k) <+: name := by
  fun_induction skip name k with
  | case1 k _ _ ih => exact ⟨by omega, ih.2⟩
  | case2 k hp => exact ⟨Nat.le_refl k, fun hpre => hp (List.isPrefixOf_iff_prefix.2 hpre)⟩

/-- Names in increasing order. Stated by what does not sort before what. -/
def Sorted (names : List (List Char)) : Prop :=
  names.Pairwise fun a b => ¬ b < a

theorem search_spec {names : List (List Char)} (hsorted : Sorted names) (k : Nat) :
    k ≤ search k names ∧ ∀ name ∈ names, ¬ numbered (search k names) <+: name := by
  induction names generalizing k with
  | nil => exact ⟨Nat.le_refl k, by simp⟩
  | cons name names ih =>
      obtain ⟨hlater, htail⟩ := List.pairwise_cons.1 hsorted
      obtain ⟨hle, hskip⟩ := skip_spec name k
      rw [search]
      split
      · rename_i hlt
        refine ⟨hle, ?_⟩
        intro other hother
        rcases List.mem_cons.1 hother with rfl | hmem
        · exact hskip
        · exact not_prefix_of_later hlt hskip (hlater other hmem)
      · rename_i hge
        obtain ⟨hnext, hrest⟩ := ih htail (skip name k)
        refine ⟨Nat.le_trans hle hnext, ?_⟩
        intro other hother
        rcases List.mem_cons.1 hother with rfl | hmem
        · -- The name was passed at `skip`; from there on the stems only grow.
          rcases Nat.eq_or_lt_of_le hnext with heq | hlt
          · rw [← heq]
            exact hskip
          · exact not_prefix_of_lt (List.lt_of_le_of_lt hge (numbered_lt hlt))
        · exact hrest other hmem

theorem sorted_sort (names : List (List Char)) : Sorted (sort names) := by
  refine (List.pairwise_mergeSort ?_ ?_ names).imp ?_
  · intro a b c hab hbc
    simp only [Bool.not_eq_true', decide_eq_false_iff_not] at *
    exact List.le_trans hab hbc
  · intro a b
    simp only [Bool.or_eq_true, Bool.not_eq_true', decide_eq_false_iff_not]
    exact List.le_total a b
  · intro a b h
    simpa using h

theorem head?_of_prefix {stem name : List Char} {c : Char} (hp : stem <+: name)
    (h : stem.head? = some c) : name.head? = some c := by
  obtain ⟨rest, rfl⟩ := hp
  rw [List.head?_append, h]
  rfl

theorem find_head? (names : List String) : (find names).toList.head? = some root := by
  unfold find
  split
  · rw [String.toList_ofList]
    rfl
  · rw [String.toList_ofList]
    rfl

theorem find_not_prefix {names : List String} {name : String} (h : name ∈ names) :
    ¬ (find names).toList <+: name.toList := by
  intro hp
  have hhead : name.toList.head? = some root := head?_of_prefix hp (find_head? names)
  have hmem : name.toList ∈ sort (names.map String.toList) :=
    List.mem_mergeSort.2 (List.mem_map_of_mem h)
  have hkept : name.toList ∈
      (sort (names.map String.toList)).dropWhile (·.head? != some root) := by
    rw [← List.takeWhile_append_dropWhile (p := (·.head? != some root))
      (l := sort (names.map String.toList)), List.mem_append] at hmem
    rcases hmem with htake | hdrop
    · have hne := List.mem_takeWhile_imp htake
      simp [hhead] at hne
    · exact hdrop
  unfold find at hp
  split at hp
  · rename_i hnil
    rw [hnil] at hkept
    simp at hkept
  · rw [String.toList_ofList] at hp
    have hsorted : Sorted ((sort (names.map String.toList)).dropWhile (·.head? != some root)) :=
      (sorted_sort _).sublist (List.dropWhile_sublist _)
    exact (search_spec hsorted 0).2 _ hkept hp

end L3Lowering.Stem
