import L3Lowering.Proofs.DecimalText
import L3Lowering.Proofs.Names
import Mathlib.Data.List.Forall2

namespace L3Lowering

open Text

inductive Sexp where
  | word (text : String)
  | list (items : List Sexp)

namespace Sexp

/-- A reader within lists. The items read so far are in reverse order: those of the innermost list,
and for each list around it those that come before. The word that is being read is reversed too. -/
structure Reader where
  outer : List (List Sexp)
  items : List Sexp
  word : List Char

namespace Reader

def endWord (r : Reader) : Reader :=
  if r.word = [] then r else ⟨r.outer, .word (String.ofList r.word.reverse) :: r.items, []⟩

def openList (r : Reader) : Reader :=
  ⟨r.items :: r.outer, [], []⟩

def closeList? (r : Reader) : Option Reader :=
  match r.outer with
  | [] => none
  | before :: outer => some ⟨outer, .list r.items.reverse :: before, []⟩

def step (r : Reader) (c : Char) : Option Reader :=
  if isBlank c then some r.endWord
  else if c = '(' then some r.endWord.openList
  else if c = ')' then r.endWord.closeList?
  else some { r with word := c :: r.word }

def finish? (r : Reader) : Option (List Sexp) :=
  if r.outer = [] then some r.endWord.items.reverse else none

end Reader

def read (text : String) : Option (List Sexp) :=
  (text.toList.foldlM Reader.step ⟨[], [], []⟩).bind Reader.finish?

def isWordChar (c : Char) : Bool :=
  !isBlank c && c != '(' && c != ')'

def isPlain (text : String) : Bool :=
  !text.toList.isEmpty && text.toList.all isWordChar

/-- The text reads as the items, wherever it starts after a word has ended. Its own last word may
still go on. -/
def ReadsAs (text : String) (items : List Sexp) : Prop :=
  ∀ outer before, ∃ r, text.toList.foldlM Reader.step ⟨outer, before, []⟩ = some r ∧
    r.endWord = ⟨outer, items.reverse ++ before, []⟩

/-- The text reads as the items, and its last word has ended. -/
def ReadsWhole (text : String) (items : List Sexp) : Prop :=
  ∀ outer before, text.toList.foldlM Reader.step ⟨outer, before, []⟩
    = some ⟨outer, items.reverse ++ before, []⟩

theorem isPlain_iff {text : String} :
    isPlain text = true ↔ text.toList ≠ [] ∧ ∀ c ∈ text.toList, isWordChar c = true := by
  simp [isPlain]

theorem isWordChar_iff {c : Char} :
    isWordChar c = true ↔ isBlank c = false ∧ c ≠ '(' ∧ c ≠ ')' := by
  simp [isWordChar, and_assoc]

theorem isWordChar_of_isNameChar {c : Char} (h : isNameChar c = true) : isWordChar c = true := by
  refine isWordChar_iff.2 ⟨isBlank_of_isNameChar h, ?_, ?_⟩
  · rintro rfl
    exact absurd h (by decide)
  · rintro rfl
    exact absurd h (by decide)

theorem isPlain_of_isWord {text : String} (h : isWord text.toList = true) :
    isPlain text = true := by
  refine isPlain_iff.2 ⟨?_, fun c hc => isWordChar_of_isNameChar (isNameChar_of_isWord h c hc)⟩
  intro hnil
  rw [hnil] at h
  exact absurd h (by decide)

theorem isPlain_of_isVarName {name : String} (h : isVarName name = true) : isPlain name = true := by
  rw [isVarName, Bool.and_eq_true] at h
  exact isPlain_of_isWord h.1

theorem isPlain_of_isLabelWord {name : String} (h : isLabelWord name = true) :
    isPlain name = true := by
  obtain ⟨cs, hname, hcs⟩ := isLabelWord_iff.1 h
  rw [isPlain_iff, hname]
  refine ⟨by simp, List.forall_mem_cons.2 ⟨by decide, ?_⟩⟩
  exact fun c hc => isWordChar_of_isNameChar (isNameChar_of_isWord hcs c hc)

theorem isWordChar_of_mem_digits {n : Nat} {c : Char} (h : c ∈ digits n) : isWordChar c = true :=
  isWordChar_of_isNameChar (isNameChar_of_isDigit (isDigit_of_mem_digits h))

theorem isPlain_natText (n : Nat) : isPlain (natText n) = true := by
  rw [isPlain_iff, toList_natText]
  exact ⟨digits_ne_nil n, fun c => isWordChar_of_mem_digits⟩

theorem isPlain_intText (n : Int) : isPlain (intText n) = true := by
  cases n with
  | ofNat n => exact isPlain_natText n
  | negSucc n =>
      have htext : (intText (.negSucc n)).toList = '-' :: digits (n + 1) := by
        rw [intText, String.toList_append, toList_natText]
        rfl
      rw [isPlain_iff, htext]
      refine ⟨by simp, List.forall_mem_cons.2 ⟨by decide, ?_⟩⟩
      exact fun c => isWordChar_of_mem_digits

namespace Reader

variable {outer : List (List Sexp)} {items : List Sexp}

theorem step_blank {c : Char} (h : isBlank c = true) (r : Reader) : r.step c = some r.endWord :=
  if_pos h

theorem step_close (r : Reader) : r.step ')' = r.endWord.closeList? := rfl

theorem step_word {c : Char} (h : isWordChar c = true) (r : Reader) :
    r.step c = some { r with word := c :: r.word } := by
  obtain ⟨hblank, hopen, hclose⟩ := isWordChar_iff.1 h
  rw [step, if_neg (by simp [hblank]), if_neg hopen, if_neg hclose]

theorem foldlM_word {cs : List Char} (h : ∀ c ∈ cs, isWordChar c = true) (word : List Char) :
    cs.foldlM step ⟨outer, items, word⟩ = some ⟨outer, items, cs.reverse ++ word⟩ := by
  induction cs generalizing word with
  | nil => rfl
  | cons c cs ih =>
      obtain ⟨hc, hcs⟩ := List.forall_mem_cons.1 h
      rw [List.foldlM_cons, step_word hc, List.reverse_cons, List.append_assoc]
      exact ih hcs (c :: word)

end Reader

open Reader

variable {text rest : String} {items others : List Sexp}

theorem ReadsWhole.readsAs (h : ReadsWhole text items) : ReadsAs text items :=
  fun outer before => ⟨_, h outer before, rfl⟩

theorem read_of_readsAs (h : ReadsAs text items) : read text = some items := by
  obtain ⟨r, hread, hend⟩ := h [] []
  have houter : r.outer = [] := by
    have hsame : r.endWord.outer = r.outer := by
      rw [endWord]
      split <;> rfl
    rw [← hsame, hend]
  rw [read, hread, Option.bind_some, finish?, if_pos houter, hend]
  simp

theorem readsAs_word (h : isPlain text = true) : ReadsAs text [.word text] := by
  intro outer before
  obtain ⟨hne, hplain⟩ := isPlain_iff.1 h
  refine ⟨_, foldlM_word hplain [], ?_⟩
  rw [endWord, if_neg (by simpa using hne)]
  simp

theorem readsWhole_nil : ReadsWhole "" [] :=
  fun _ _ => rfl

theorem ReadsWhole.append (h : ReadsWhole text items) (h' : ReadsWhole rest others) :
    ReadsWhole (text ++ rest) (items ++ others) := by
  intro outer before
  rw [String.toList_append, List.foldlM_append, h, List.reverse_append, List.append_assoc]
  exact h' outer _

theorem ReadsWhole.append_readsAs (h : ReadsWhole text items) (h' : ReadsAs rest others) :
    ReadsAs (text ++ rest) (items ++ others) := by
  intro outer before
  rw [String.toList_append, List.foldlM_append, h, List.reverse_append, List.append_assoc]
  exact h' outer _

theorem ReadsAs.blank (h : ReadsAs text items) {c : Char} (hc : isBlank c = true) :
    ReadsWhole (text ++ String.ofList [c]) items := by
  intro outer before
  obtain ⟨r, hread, hend⟩ := h outer before
  rw [String.toList_append, String.toList_ofList, List.foldlM_append, hread, ← hend]
  exact congrArg (· >>= pure) (step_blank hc r)

theorem ReadsAs.list (h : ReadsAs text items) : ReadsWhole ("(" ++ text ++ ")") [.list items] := by
  intro outer before
  obtain ⟨r, hread, hend⟩ := h (before :: outer) []
  have hclose : r.step ')' = some ⟨outer, .list items :: before, []⟩ := by
    rw [step_close, hend, closeList?]
    simp
  rw [String.toList_append, String.toList_append, List.foldlM_append, List.foldlM_append]
  have hopen : "(".toList.foldlM step ⟨outer, before, []⟩ = some ⟨before :: outer, [], []⟩ := rfl
  rw [hopen, Option.bind_eq_bind, Option.bind_some, hread]
  exact congrArg (· >>= pure) hclose

theorem readsAs_intercalate {c : Char} (hc : isBlank c = true) {texts : List String}
    {rows : List (List Sexp)} (h : List.Forall₂ ReadsAs texts rows) :
    ReadsAs ((String.ofList [c]).intercalate texts) rows.flatten := by
  induction h with
  | nil => exact readsWhole_nil.readsAs
  | @cons text row texts rows hrow hrows ih =>
      cases hrows with
      | nil => simpa using hrow
      | cons hnext hrest =>
          rw [String.intercalate_cons_cons]
          exact (hrow.blank hc).append_readsAs ih

theorem readsAs_rows {α : Type} {c : Char} (hc : isBlank c = true) {text : α → String}
    {row : α → List Sexp} {xs : List α} (h : ∀ x ∈ xs, ReadsAs (text x) (row x)) :
    ReadsAs ((String.ofList [c]).intercalate (xs.map text)) (xs.flatMap row) := by
  rw [List.flatMap_def]
  apply readsAs_intercalate hc
  rw [List.forall₂_map_left_iff, List.forall₂_map_right_iff, List.forall₂_same]
  exact h

theorem readsWhole_rows {α : Type} {c : Char} (hc : isBlank c = true) {text : α → String}
    {item : α → Sexp} {xs : List α} (h : ∀ x ∈ xs, ReadsAs (text x) [item x]) :
    ReadsWhole (String.join (xs.map fun x => text x ++ String.ofList [c])) (xs.map item) := by
  induction xs with
  | nil => exact readsWhole_nil
  | cons x xs ih =>
      obtain ⟨hx, hxs⟩ := List.forall_mem_cons.1 h
      rw [List.map_cons, String.join_cons]
      exact (hx.blank hc).append (ih hxs)

theorem readsWhole_line {texts : List String} {items : List Sexp}
    (h : List.Forall₂ (fun text item => ReadsAs text [item]) texts items) :
    ReadsWhole ("(" ++ " ".intercalate texts ++ ")") [.list items] := by
  have hrows : List.Forall₂ ReadsAs texts (items.map ([·])) := List.forall₂_map_right_iff.2 h
  have hitems := readsAs_intercalate (show isBlank ' ' = true by decide) hrows
  rw [List.flatten_eq_flatMap, List.flatMap_map] at hitems
  simpa using hitems.list

end Sexp

end L3Lowering
