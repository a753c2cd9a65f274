import L3Lowering.Proofs.FreshStem

namespace L3Lowering.Stem

/-- Advances a last digit that is not `9`; to anything else a `0` is appended. -/
def bump (stem : List Char) : List Char :=
  match stem.getLast? with
  | some c =>
    if c.isDigit && c != '9' then stem.dropLast ++ [Char.ofNat (c.toNat + 1)] else stem ++ ['0']
  | none => ['0']

/-- The stems `z`, `z0`, ..., `z9`, `z90`, ... in the order in which they are tried. -/
def chain : Nat → List Char
  | 0 => [root]
  | k + 1 => bump (chain k)

/-- The stem at a place of the chain starts no name, and every stem before it starts one. -/
structure FirstFree (names : List String) (k : Nat) : Prop where
  free : ∀ name ∈ names, ¬ chain k <+: name.toList
  earlier : ∀ j < k, ∃ name ∈ names, chain j <+: name.toList

def searchAll (k : Nat) (names : List (List Char)) : Nat :=
  names.foldl (fun k name => skip name k) k

def candidates (names : List String) : List (List Char) :=
  (sort (names.map String.toList)).dropWhile (·.head? != some root)

def findAll (names : List String) : String :=
  if candidates names = [] then String.ofList [root]
  else String.ofList (numbered (searchAll 0 (candidates names)))

theorem bump_digit (front : List Char) {d : Nat} (h : d < 9) :
    bump (front ++ [Text.digit d]) = front ++ [Text.digit (d + 1)] := by
  have hdigit : ∀ d < 9, ((Text.digit d).isDigit && Text.digit d != '9') = true ∧
      Char.ofNat ((Text.digit d).toNat + 1) = Text.digit (d + 1) := by decide
  obtain ⟨hadvances, hnext⟩ := hdigit d h
  rw [bump, List.getLast?_concat, List.dropLast_concat]
  simp only [hadvances, hnext, if_true]

theorem bump_nine (front : List Char) : bump (front ++ ['9']) = front ++ ['9', '0'] := by
  rw [bump, List.getLast?_concat]
  simp

theorem bump_numbered (k : Nat) : bump (numbered k) = numbered (k + 1) := by
  have hmod : k % 10 < 10 := Nat.mod_lt k (by omega)
  have hsplit (k : Nat) :
      numbered k = (root :: List.replicate (k / 10) '9') ++ [Text.digit (k % 10)] := rfl
  rw [hsplit k, hsplit (k + 1)]
  by_cases hlast : k % 10 = 9
  · have hdiv : (k + 1) / 10 = k / 10 + 1 := by omega
    have hzero : (k + 1) % 10 = 0 := by omega
    have hnine : Text.digit 9 = '9' := rfl
    rw [hlast, hdiv, hzero, hnine, bump_nine, List.replicate_succ']
    exact congrArg (List.cons root) (List.append_assoc _ ['9'] ['0']).symm
  · have hdiv : (k + 1) / 10 = k / 10 := by omega
    have hsucc : (k + 1) % 10 = k % 10 + 1 := by omega
    rw [hdiv, hsucc, bump_digit _ (by omega)]

theorem chain_succ (k : Nat) : chain (k + 1) = numbered k := by
  induction k with
  | zero => decide
  | succ k ih => rw [chain, ih, bump_numbered]

example : [0, 1, 2, 10, 11, 12, 20, 21].map (fun k => String.ofList (chain k))
    = ["z", "z0", "z1", "z9", "z90", "z91", "z99", "z990"] := by decide

theorem prefix_of_skip {name : List Char} {j k : Nat} (hle : k ≤ j) (hlt : j < skip name k) :
    numbered j <+: name := by
  fun_induction skip name k with
  | case1 k hp _ ih =>
      rcases Nat.eq_or_lt_of_le hle with rfl | hnext
      · exact List.isPrefixOf_iff_prefix.1 hp
      · exact ih hnext hlt
  | case2 k _ => omega

theorem prefix_of_search {names : List (List Char)} {j k : Nat} (hle : k ≤ j)
    (hlt : j < search k names) : ∃ name ∈ names, numbered j <+: name := by
  induction names generalizing k with
  | nil =>
      rw [search] at hlt
      omega
  | cons name names ih =>
      by_cases hskip : j < skip name k
      · exact ⟨name, List.mem_cons_self, prefix_of_skip hle hskip⟩
      · rw [search] at hlt
        split at hlt
        · omega
        · obtain ⟨other, hmem, hp⟩ := ih (by omega) hlt
          exact ⟨other, List.mem_cons_of_mem name hmem, hp⟩

theorem skip_of_free {name : List Char} {k : Nat} (h : ¬ numbered k <+: name) :
    skip name k = k := by
  rw [skip, dif_neg]
  intro hp
  exact h (List.isPrefixOf_iff_prefix.1 hp)

theorem searchAll_of_free {names : List (List Char)} {k : Nat}
    (h : ∀ name ∈ names, ¬ numbered k <+: name) : searchAll k names = k := by
  induction names with
  | nil => rfl
  | cons name names ih =>
      obtain ⟨hname, hnames⟩ := List.forall_mem_cons.1 h
      rw [searchAll, List.foldl_cons, skip_of_free hname]
      exact ih hnames

/-- In sorted names the search may end at a name that sorts after the stem. -/
theorem search_eq_searchAll {names : List (List Char)} (hsorted : Sorted names) (k : Nat) :
    search k names = searchAll k names := by
  induction names generalizing k with
  | nil => rfl
  | cons name names ih =>
      obtain ⟨hlater, htail⟩ := List.pairwise_cons.1 hsorted
      rw [search, searchAll, List.foldl_cons]
      split
      · rename_i hlt
        refine (searchAll_of_free ?_).symm
        intro other hother
        exact not_prefix_of_later hlt (skip_spec name k).2 (hlater other hother)
      · exact ih htail (skip name k)

variable (names : List String)

theorem find_eq : find names = if candidates names = [] then String.ofList [root]
    else String.ofList (numbered (search 0 (candidates names))) := by
  unfold find
  split
  · rename_i hnil
    exact (if_pos hnil).symm
  · rename_i hne
    exact (if_neg hne).symm

theorem sorted_candidates : Sorted (candidates names) :=
  (sorted_sort _).sublist (List.dropWhile_sublist _)

theorem mem_of_mem_candidates {names : List String} {name : List Char}
    (h : name ∈ candidates names) : ∃ s ∈ names, s.toList = name :=
  List.mem_map.1 (List.mem_mergeSort.1 ((List.dropWhile_sublist _).subset h))

theorem head?_of_candidates {names : List String} {name : List Char} {rest : List (List Char)}
    (h : candidates names = name :: rest) : name.head? = some root := by
  have hnot := List.head?_dropWhile_not (·.head? != some root) (sort (names.map String.toList))
  rw [candidates] at h
  rw [h] at hnot
  simpa using hnot

theorem find_chain :
    ∃ k, (find names).toList = chain k ∧ ∀ j < k, ∃ name ∈ names, chain j <+: name.toList := by
  rw [find_eq]
  by_cases hnil : candidates names = []
  · refine ⟨0, ?_, by simp⟩
    rw [if_pos hnil, String.toList_ofList, chain]
  · refine ⟨search 0 (candidates names) + 1, ?_, ?_⟩
    · rw [if_neg hnil, String.toList_ofList, chain_succ]
    · intro j hj
      cases j with
      | zero =>
          obtain ⟨name, rest, hcons⟩ := List.exists_cons_of_ne_nil hnil
          obtain ⟨s, hs, rfl⟩ := mem_of_mem_candidates (hcons ▸ List.mem_cons_self)
          obtain ⟨cs, hchars⟩ := List.head?_eq_some_iff.1 (head?_of_candidates hcons)
          exact ⟨s, hs, cs, hchars.symm⟩
      | succ j =>
          obtain ⟨name, hmem, hp⟩ := prefix_of_search (Nat.zero_le j) (Nat.lt_of_succ_lt_succ hj)
          obtain ⟨s, hs, rfl⟩ := mem_of_mem_candidates hmem
          exact ⟨s, hs, by rwa [chain_succ]⟩

theorem FirstFree.unique {names others : List String} {j k : Nat}
    (hsame : ∀ name, name ∈ others ↔ name ∈ names) (hj : FirstFree others j)
    (hk : FirstFree names k) : j = k := by
  rcases Nat.lt_trichotomy j k with hlt | heq | hgt
  · obtain ⟨name, hmem, hp⟩ := hk.earlier j hlt
    exact absurd hp (hj.free name ((hsame name).2 hmem))
  · exact heq
  · obtain ⟨name, hmem, hp⟩ := hj.earlier k hgt
    exact absurd hp (hk.free name ((hsame name).1 hmem))

theorem exists_firstFree :
    ∃ k, (find names).toList = chain k ∧ FirstFree names k := by
  obtain ⟨k, hchain, hearlier⟩ := find_chain names
  refine ⟨k, hchain, ?_, hearlier⟩
  intro name hname
  rw [← hchain]
  exact find_not_prefix hname

theorem find_eq_findAll : find names = findAll names := by
  rw [find_eq, findAll, search_eq_searchAll (sorted_candidates names)]

/-- The stem is the first one of the chain that starts no name. It is the same for any other list of
the same names, and for a search that looks at all of them. -/
theorem find_first_free (names : List String) :
    (∃ k, (find names).toList = chain k ∧ FirstFree names k) ∧
      (∀ others : List String, (∀ name, name ∈ others ↔ name ∈ names) →
        find others = find names) ∧
      find names = findAll names := by
  refine ⟨exists_firstFree names, ?_, find_eq_findAll names⟩
  intro others hsame
  obtain ⟨k, hchain, hfirst⟩ := exists_firstFree names
  obtain ⟨j, hchain', hfirst'⟩ := exists_firstFree others
  rw [hfirst'.unique hsame hfirst, ← hchain] at hchain'
  exact String.toList_inj.1 hchain'

/-- Names that take all stems of two characters and the first of three, in two orders. -/
theorem find_first_free_longer :
    let names := ["z0x", "z1", "z2", "z3", "z4", "z5", "z6", "z7", "z8", "z90", "zebra", "a"]
    find names = "z91" ∧ find ("zebra" :: names.reverse) = "z91" := by
  intro names
  have hfirst : FirstFree names 12 := ⟨by decide +kernel, by decide +kernel⟩
  obtain ⟨⟨k, hchain, hk⟩, hsame, -⟩ := find_first_free names
  have hfind : find names = "z91" := by
    rw [hk.unique (fun _ => Iff.rfl) hfirst] at hchain
    exact String.toList_inj.1 (hchain.trans (by decide))
  refine ⟨hfind, ?_⟩
  rw [hsame ("zebra" :: names.reverse) ?_, hfind]
  intro name
  rw [List.mem_cons, List.mem_reverse]
  constructor
  · rintro (rfl | hmem)
    · decide
    · exact hmem
  · exact Or.inr

end L3Lowering.Stem
