import L3Lowering.Proofs.ErrorReports
import Mathlib.Data.List.DropRight

namespace L3Lowering

open Text

namespace Text

def afterLineFeeds? : Nat → List Char → Option Nat
  | 0, _ => some 0
  | _ + 1, [] => none
  | n + 1, c :: cs =>
    (afterLineFeeds? (if c = '\n' then n else n + 1) cs).map (c.utf8Size + ·)

/-- A row of a text, with the rows before it and the rest of the text after it. -/
structure IsRow (cs front row back : List Char) : Prop where
  text : cs = front ++ (row ++ back)
  front : front = [] ∨ ∃ rows, front = rows ++ ['\n']
  row : '\n' ∉ row
  back : back = [] ∨ ∃ rows, back = '\n' :: rows

theorem not_mem_lastLine (cs : List Char) : '\n' ∉ lastLine cs := by
  intro h
  have hne := List.mem_rtakeWhile_imp (p := (· != '\n')) h
  simp at hne

theorem not_mem_firstLine (cs : List Char) : '\n' ∉ firstLine cs := by
  intro h
  have hne := List.mem_takeWhile_imp (p := (· != '\n')) h
  simp at hne

theorem exists_append_lastLine (cs : List Char) :
    ∃ front, cs = front ++ lastLine cs ∧ (front = [] ∨ ∃ rows, front = rows ++ ['\n']) := by
  refine ⟨cs.rdropWhile (· != '\n'), List.rdropWhile_append_rtakeWhile.symm, ?_⟩
  rcases List.eq_nil_or_concat (cs.rdropWhile (· != '\n')) with hnil | ⟨rows, c, hfront⟩
  · exact .inl hnil
  · have hlast := List.rdropWhile_last_not (· != '\n') cs (by simp [hfront])
    simp only [hfront] at hlast
    obtain rfl : c = '\n' := by simpa using hlast
    exact .inr ⟨rows, by simp [hfront]⟩

theorem exists_firstLine_append (cs : List Char) :
    ∃ back, cs = firstLine cs ++ back ∧ (back = [] ∨ ∃ rows, back = '\n' :: rows) := by
  refine ⟨cs.dropWhile (· != '\n'), List.takeWhile_append_dropWhile.symm, ?_⟩
  have hhead := head?_dropWhile (· != '\n') cs
  cases hback : cs.dropWhile (· != '\n') with
  | nil => exact .inl rfl
  | cons c rows =>
      rw [hback] at hhead
      obtain rfl : c = '\n' := by simpa using hhead
      exact .inr ⟨rows, rfl⟩

theorem isRow_around (before after : List Char) :
    ∃ front back, before = front ++ lastLine before ∧ before.count '\n' = front.count '\n' ∧
      IsRow (before ++ after) front (lastLine before ++ firstLine after) back := by
  obtain ⟨front, hbefore, hfront⟩ := exists_append_lastLine before
  obtain ⟨back, hafter, hback⟩ := exists_firstLine_append after
  refine ⟨front, back, hbefore, ?_, ?_, hfront, ?_, hback⟩
  · rw [hbefore, List.count_append, List.count_eq_zero.2 (not_mem_lastLine before), Nat.add_zero]
  · calc before ++ after
        = (front ++ lastLine before) ++ (firstLine after ++ back) := by rw [← hbefore, ← hafter]
      _ = front ++ (lastLine before ++ firstLine after ++ back) := by simp
  · simp [not_mem_lastLine, not_mem_firstLine]

theorem afterLineFeeds?_append (rows rest : List Char) :
    afterLineFeeds? (rows.count '\n' + 1) (rows ++ '\n' :: rest)
      = some (byteSize (rows ++ ['\n'])) := by
  induction rows with
  | nil => simp [afterLineFeeds?]
  | cons c rows ih =>
      by_cases hc : c = '\n'
      · subst hc
        rw [List.count_cons_self, List.cons_append, afterLineFeeds?, if_pos rfl, ih]
        rfl
      · rw [List.count_cons_of_ne hc, List.cons_append, afterLineFeeds?, if_neg hc, ih]
        rfl

theorem IsRow.afterLineFeeds? {cs front row back : List Char} (h : IsRow cs front row back) :
    Text.afterLineFeeds? (front.count '\n') cs = some (byteSize front) := by
  rw [h.text]
  rcases h.front with rfl | ⟨rows, rfl⟩
  · simp [Text.afterLineFeeds?]
  · rw [List.append_assoc, List.singleton_append, List.count_append, List.count_singleton_self]
    exact afterLineFeeds?_append rows (row ++ back)

theorem prefix_of_byteSize_le {as bs cs : List Char} (has : as <+: cs) (hbs : bs <+: cs)
    (hle : byteSize as ≤ byteSize bs) : as <+: bs := by
  rcases List.prefix_or_prefix_of_prefix has hbs with hfront | ⟨rest, rfl⟩
  · exact hfront
  · have hrest : rest = [] := by
      by_contra hne
      have hpos := byteSize_pos hne
      rw [byteSize_append] at hle
      omega
    simp [hrest]

end Text

namespace Source

variable {source : Source}

def IsBoundary (source : Source) (offset : Nat) : Prop :=
  ∃ before after, source.chars = before ++ after ∧ byteSize before = offset

def rowStart? (source : Source) : Nat → Option Nat
  | 0 => none
  | rows + 1 => afterLineFeeds? rows source.chars

/-- The offset is at the given byte of the given row, both counted from one. -/
structure IsAt (source : Source) (offset row column : Nat) : Prop where
  row_eq : source.row? offset = some row
  column_eq : source.column? offset = some column
  from_start : ∃ start between, source.rowStart? row = some start ∧ offset + 1 = start + column ∧
    slice? start offset source.chars = some between ∧ '\n' ∉ between

theorem isBoundary_iff {offset : Nat} :
    source.IsBoundary offset ↔ (cut? offset source.chars).isSome = true := by
  constructor
  · rintro ⟨before, after, hchars, rfl⟩
    rw [hchars, cut?_byteSize]
    rfl
  · intro h
    obtain ⟨⟨before, after⟩, hcut⟩ := Option.isSome_iff_exists.1 h
    obtain ⟨hchars, hsize⟩ := append_eq_of_cut? hcut
    exact ⟨before, after, hchars.symm, hsize⟩

instance (source : Source) (offset : Nat) : Decidable (source.IsBoundary offset) :=
  decidable_of_iff _ isBoundary_iff.symm

theorem isBoundary_byteLength : source.IsBoundary source.byteLength :=
  ⟨source.chars, [], by simp, rfl⟩

theorem around?_of_byteLength_le {offset : Nat} (h : source.byteLength ≤ offset) :
    source.around? offset = source.around? source.byteLength := by
  rw [around?, around?, Nat.min_eq_right h, Nat.min_self]

theorem rowStart?_eq {front row back : List Char} (h : IsRow source.chars front row back) :
    source.rowStart? (front.count '\n' + 1) = some (byteSize front) :=
  h.afterLineFeeds?

theorem isAt_append {before after : List Char} (h : source.chars = before ++ after) :
    source.IsAt (byteSize before) (before.count '\n' + 1) (byteSize (lastLine before) + 1) := by
  have haround := around?_append h
  obtain ⟨front, back, hbefore, hcount, hrow⟩ := isRow_around before after
  have hsize : byteSize before = byteSize front + byteSize (lastLine before) := by
    rw [← byteSize_append, ← hbefore]
  refine ⟨by simp [row?, haround], by simp [column?, haround], ?_⟩
  refine ⟨byteSize front, lastLine before, ?_, by omega, ?_, not_mem_lastLine before⟩
  · rw [← h] at hrow
    rw [hcount, rowStart?_eq hrow]
  · have hchars : source.chars = front ++ (lastLine before ++ after) := by
      rw [h, ← List.append_assoc, ← hbefore]
    rw [hsize, hchars, slice?_byteSize]

theorem IsBoundary.isAt {offset : Nat} (h : source.IsBoundary offset) :
    ∃ row column, source.IsAt offset row column := by
  obtain ⟨before, after, hchars, rfl⟩ := h
  exact ⟨_, _, isAt_append hchars⟩

theorem row_le_row {p q row row' : Nat} (hp : source.IsBoundary p) (hq : source.IsBoundary q)
    (hle : p ≤ q) (hrow : source.row? p = some row) (hrow' : source.row? q = some row') :
    row ≤ row' := by
  obtain ⟨before, after, hchars, rfl⟩ := hp
  obtain ⟨before', after', hchars', rfl⟩ := hq
  rw [(isAt_append hchars).row_eq, Option.some.injEq] at hrow
  rw [(isAt_append hchars').row_eq, Option.some.injEq] at hrow'
  have hfront := prefix_of_byteSize_le ⟨after, hchars.symm⟩ ⟨after', hchars'.symm⟩ hle
  have hcount := hfront.sublist.count_le '\n'
  omega

/-- Offsets on one row are as far apart as their columns, since both count from its start. -/
theorem IsAt.add_column_eq {p q row column column' : Nat} (hp : source.IsAt p row column)
    (hq : source.IsAt q row column') : p + column' = q + column := by
  obtain ⟨start, _, hstart, hcolumn, -⟩ := hp.from_start
  obtain ⟨start', _, hstart', hcolumn', -⟩ := hq.from_start
  obtain rfl : start = start' := Option.some.inj (hstart.symm.trans hstart')
  omega

theorem exists_lex_of_lt {p q : Nat} (hp : source.IsBoundary p) (hq : source.IsBoundary q)
    (hlt : p < q) :
    ∃ row column row' column', source.IsAt p row column ∧ source.IsAt q row' column' ∧
      Prod.Lex (· < ·) (· < ·) (row, column) (row', column') := by
  obtain ⟨row, column, hat⟩ := hp.isAt
  obtain ⟨row', column', hat'⟩ := hq.isAt
  refine ⟨row, column, row', column', hat, hat', ?_⟩
  rcases Nat.lt_or_eq_of_le (row_le_row hp hq hlt.le hat.row_eq hat'.row_eq) with hrow | rfl
  · exact .left _ _ hrow
  · have hcolumns := hat.add_column_eq hat'
    exact .right _ (by omega)

theorem IsAt.position_eq {span : Span} {row column : Nat} (h : source.IsAt span.start row column) :
    source.position? span
      = some (source.origin.text ++ ":" ++ natText row ++ ":" ++ natText column) := by
  simp [position?, h.row_eq, h.column_eq]

/-- The colon ends the row, so row and column can be read off the text of a position. -/
theorem position_text_inj {origin : String} {row column row' column' : Nat}
    (h : origin ++ ":" ++ natText row ++ ":" ++ natText column
      = origin ++ ":" ++ natText row' ++ ":" ++ natText column') :
    row = row' ∧ column = column' := by
  have hlists := congrArg String.toList h
  simp only [String.toList_append, toList_natText, List.append_assoc,
    List.append_cancel_left_eq] at hlists
  obtain ⟨hrow, hrest⟩ := digits_append_inj rfl rfl hlists
  exact ⟨hrow, digits_injective (List.append_cancel_left hrest)⟩

/-- Row and column of an offset say where it is, they grow with the offset, and no two offsets have
the same text for their positions. An offset past the end is answered as the end is. -/
theorem positions_identify_offsets (source : Source) :
    (∀ p, source.IsBoundary p → ∃ row column, source.IsAt p row column) ∧
      (∀ p q, source.IsBoundary p → source.IsBoundary q → p < q →
        ∃ row column row' column', source.IsAt p row column ∧ source.IsAt q row' column' ∧
          Prod.Lex (· < ·) (· < ·) (row, column) (row', column')) ∧
      (∀ span other : Span, source.IsBoundary span.start → source.IsBoundary other.start →
        span.start ≠ other.start →
        ∃ text text', source.position? span = some text ∧ source.position? other = some text' ∧
          text ≠ text') ∧
      source.IsBoundary source.byteLength ∧
      ∀ p, source.byteLength ≤ p →
        source.row? p = source.row? source.byteLength ∧
          source.column? p = source.column? source.byteLength ∧
          ∀ stop, source.position? ⟨p, stop⟩ = source.position? source.endSpan := by
  refine ⟨fun p hp => hp.isAt, fun p q hp hq => exists_lex_of_lt hp hq, ?_,
    isBoundary_byteLength, ?_⟩
  · intro span other hspan hother hne
    obtain ⟨row, column, hat⟩ := hspan.isAt
    obtain ⟨row', column', hat'⟩ := hother.isAt
    refine ⟨_, _, hat.position_eq, hat'.position_eq, ?_⟩
    intro htext
    obtain ⟨rfl, rfl⟩ := position_text_inj htext
    have hcolumns := hat.add_column_eq hat'
    omega
  · intro p hp
    have haround := around?_of_byteLength_le hp
    simp [row?, column?, position?, endSpan, haround]

/-- A line feed after a character of two bytes, the empty row that follows it, and the end. -/
theorem positions_identify_offsets_empty_row :
    let source := Source.ofString "é\n\nx"
    source.IsBoundary 2 ∧ source.IsBoundary 3 ∧ source.IsAt 2 1 3 ∧ source.IsAt 3 2 1 ∧
      Prod.Lex (· < ·) (· < ·) (1, 3) (2, 1) ∧
      source.position? ⟨2, 3⟩ ≠ source.position? ⟨3, 3⟩ ∧
      source.row? 9 = some 3 ∧ source.column? 9 = some 2 := by
  intro source
  have hfeed : source.IsBoundary 2 := by decide +kernel
  have hempty : source.IsBoundary 3 := by decide +kernel
  obtain ⟨-, hlex, htext, -, hpast⟩ := positions_identify_offsets source
  obtain ⟨row, column, row', column', hat, hat', hlt⟩ := hlex 2 3 hfeed hempty (by decide)
  obtain rfl : 1 = row := Option.some.inj (.trans (by decide +kernel) hat.row_eq)
  obtain rfl : 3 = column := Option.some.inj (.trans (by decide +kernel) hat.column_eq)
  obtain rfl : 2 = row' := Option.some.inj (.trans (by decide +kernel) hat'.row_eq)
  obtain rfl : 1 = column' := Option.some.inj (.trans (by decide +kernel) hat'.column_eq)
  obtain ⟨text, text', hposition, hposition', hne⟩ := htext ⟨2, 3⟩ ⟨3, 3⟩ hfeed hempty (by decide)
  obtain ⟨hrow, hcolumn, -⟩ := hpast 9 (by decide +kernel)
  refine ⟨hfeed, hempty, hat, hat', hlt, ?_, ?_, ?_⟩
  · rw [hposition, hposition']
    simpa using hne
  · rw [hrow]
    decide +kernel
  · rw [hcolumn]
    decide +kernel

end Source

end L3Lowering
