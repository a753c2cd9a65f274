import L3Lowering.Proofs.Positions

namespace L3Lowering

open Text

def Source.lines (source : Source) : List (List Char) :=
  source.chars.splitOn '\n'

/-- The character at a place of a line that starts at the given offset lies inside the span. -/
def Span.Covers (span : Span) (start : Nat) (line : List Char) (place : Nat) : Prop :=
  place < line.length ∧ span.start ≤ start + byteSize (line.take place) ∧
    start + byteSize (line.take (place + 1)) ≤ span.stop

/-- An underline with carets at the characters of a line that lie inside the span. -/
structure Span.Underlined (span : Span) (start : Nat) (line underline : List Char) : Prop where
  form : ∃ blanks carets,
    underline = List.replicate blanks ' ' ++ List.replicate carets '^'
  covered : (∃ place, span.Covers start line place) →
    ∀ column, underline[column]? = some '^' ↔ span.Covers start line column
  uncovered : (¬ ∃ place, span.Covers start line place) →
    ∃ place ≤ line.length, start + byteSize (line.take place) = span.start ∧
      ∀ column, underline[column]? = some '^' ↔ column = place

def Text.excerptRows (row : Nat) (line underline : List Char) : List (List Char) :=
  let gutter := List.replicate (natText row).length ' '
  [gutter ++ " |".toList, (natText row).toList ++ " | ".toList ++ line,
    gutter ++ " | ".toList ++ underline]

def Text.underline (lead covered : List Char) : List Char :=
  List.replicate lead.length ' ' ++ List.replicate (max covered.length 1) '^'

/-- A text of three rows that shows the row in which the span starts, and underlines the span. -/
structure Source.Excerpt (source : Source) (span : Span) (text : String) (row start : Nat)
    (line underline : List Char) : Prop where
  row_eq : source.row? span.start = some row
  start_eq : source.rowStart? row = some start
  line_eq : source.lines[row - 1]? = some line
  line_at : slice? start (start + byteSize line) source.chars = some line
  within : start ≤ span.start ∧ span.start ≤ start + byteSize line
  layout : text.toList.splitOn '\n' = excerptRows row line underline
  marks : span.Underlined start line underline

namespace Text

theorem length_splitOn (cs : List Char) : (cs.splitOn '\n').length = cs.count '\n' + 1 := by
  induction cs with
  | nil => simp
  | cons c cs ih =>
      rw [List.splitOn_cons_eq_if_modifyHead]
      by_cases hc : c = '\n' <;> simp [hc, ih]

theorem IsRow.getElem?_splitOn {cs front row back : List Char} (h : IsRow cs front row back) :
    (cs.splitOn '\n')[front.count '\n']? = some row := by
  have hhead : ((row ++ back).splitOn '\n')[0]? = some row := by
    rcases h.back with rfl | ⟨rows, rfl⟩
    · rw [List.append_nil, List.splitOn_eq_singleton h.row]
      rfl
    · rw [List.splitOn_append_cons_self_of_not_mem h.row]
      rfl
  rw [h.text]
  rcases h.front with rfl | ⟨rows, rfl⟩
  · simpa using hhead
  · rw [List.append_assoc, List.singleton_append, List.splitOn_append_cons_self,
      List.getElem?_append_right (by simp [length_splitOn]), length_splitOn]
    simpa using hhead

theorem byteSize_mono {as bs : List Char} (h : as <+: bs) : byteSize as ≤ byteSize bs := by
  obtain ⟨rest, rfl⟩ := h
  rw [byteSize_append]
  exact Nat.le_add_right _ _

theorem byteSize_take_le_iff {cs : List Char} {i j : Nat} (hi : i ≤ cs.length) :
    byteSize (cs.take i) ≤ byteSize (cs.take j) ↔ i ≤ j := by
  induction cs generalizing i j with
  | nil =>
      obtain rfl := Nat.le_zero.1 hi
      simp
  | cons c cs ih =>
      -- Every character has a byte, so more characters are more bytes.
      have hpos := c.utf8Size_pos
      cases i with
      | zero => simp
      | succ i =>
          cases j with
          | zero =>
              simp only [List.take_succ_cons, List.take_zero, byteSize_cons, byteSize_nil]
              omega
          | succ j => simpa using ih (Nat.le_of_succ_le_succ hi)

theorem firstLine_append (text after : List Char) :
    ∃ rest, firstLine (text ++ after) = firstLine text ++ rest ∧
      (rest = [] ∨ firstLine text = text) := by
  rw [firstLine, List.takeWhile_append]
  split
  · rename_i hlength
    have hall : firstLine text = text := (List.takeWhile_prefix _).eq_of_length hlength
    exact ⟨_, by rw [hall], .inr hall⟩
  · exact ⟨[], by rw [List.append_nil, firstLine], .inl rfl⟩

theorem cut?_firstLine {text after rest : List Char}
    (h : firstLine (text ++ after) = firstLine text ++ rest)
    (hrest : rest = [] ∨ firstLine text = text) :
    cut? (min (byteSize text) (byteSize (firstLine (text ++ after)))) (firstLine (text ++ after))
      = some (firstLine text, rest) := by
  have hmin : min (byteSize text) (byteSize (firstLine text ++ rest))
      = byteSize (firstLine text) := by
    rcases hrest with rfl | htext
    · rw [List.append_nil]
      exact Nat.min_eq_right (byteSize_mono (List.takeWhile_prefix _))
    · rw [htext]
      exact Nat.min_eq_left (byteSize_mono (List.prefix_append text rest))
  rw [h, hmin, cut?_byteSize]

theorem getElem?_underline {lead covered : List Char} {column : Nat} :
    (underline lead covered)[column]? = some '^'
      ↔ lead.length ≤ column ∧ column < lead.length + max covered.length 1 := by
  rw [underline, List.getElem?_append, List.length_replicate]
  by_cases hblank : column < lead.length
  · rw [if_pos hblank, List.getElem?_replicate_of_lt hblank]
    simp only [Option.some.injEq, Char.reduceEq, false_iff]
    omega
  · rw [if_neg hblank, List.getElem?_replicate]
    simp only [Option.ite_none_right_eq_some, and_true]
    omega

theorem splitOn_excerptRows {row : Nat} {line : List Char} (hline : '\n' ∉ line)
    (lead covered : List Char) :
    (['\n'].intercalate (excerptRows row line (underline lead covered))).splitOn '\n'
      = excerptRows row line (underline lead covered) := by
  have hnumber : '\n' ∉ digits row := by
    intro h
    exact absurd (isDigit_of_mem_digits h) (by decide)
  have hunderline : '\n' ∉ underline lead covered := by simp [underline]
  apply List.splitOn_intercalate
  · simp [excerptRows, hline, hnumber, hunderline]
  · simp [excerptRows]

end Text

namespace Span

variable {start place : Nat} {line lead covered rest text : List Char}

/-- The span covers what lies between the part of the line that leads up to it and the rest of the
line. Either it ends on the line, or it goes on and there is no rest. -/
theorem covers_iff (hline : line = lead ++ (covered ++ rest)) (hcovered : covered <+: text)
    (hrest : rest = [] ∨ covered = text) :
    Covers ⟨start + byteSize lead, start + byteSize lead + byteSize text⟩ start line place
      ↔ lead.length ≤ place ∧ place < lead.length + covered.length := by
  have hlength : line.length = lead.length + (covered.length + rest.length) := by simp [hline]
  have hfrom : byteSize lead ≤ byteSize (line.take place) ↔ lead.length ≤ place := by
    have hlead : line.take lead.length = lead := by rw [hline, List.take_left]
    have hle : byteSize (line.take lead.length) ≤ byteSize (line.take place)
        ↔ lead.length ≤ place := byteSize_take_le_iff (by omega)
    rwa [hlead] at hle
  have hupTo (hplace : place < line.length) :
      byteSize (line.take (place + 1)) ≤ byteSize lead + byteSize text
        ↔ place < lead.length + covered.length := by
    rw [← byteSize_append]
    rcases hrest with rfl | rfl
    · -- The line ends within the span, so every character of it ends there too.
      have hwhole : line <+: lead ++ text := by
        rw [hline, List.append_nil]
        exact (List.prefix_append_right_inj lead).2 hcovered
      exact iff_of_true (byteSize_mono ((List.take_prefix _ _).trans hwhole))
        (by simpa [hline] using hplace)
    · have htake : line.take (lead.length + covered.length) = lead ++ covered := by
        rw [hline, List.take_length_add_append, List.take_left]
      rw [← htake, byteSize_take_le_iff hplace]
      rfl
  simp only [Covers, Nat.add_assoc, Nat.add_le_add_iff_left, hfrom]
  constructor
  · rintro ⟨hplace, hstart, hstop⟩
    exact ⟨hstart, (hupTo hplace).1 hstop⟩
  · rintro ⟨hstart, hstop⟩
    have hplace : place < line.length := by omega
    exact ⟨hplace, hstart, (hupTo hplace).2 hstop⟩

theorem underlined (hline : line = lead ++ (covered ++ rest)) (hcovered : covered <+: text)
    (hrest : rest = [] ∨ covered = text) :
    Underlined ⟨start + byteSize lead, start + byteSize lead + byteSize text⟩ start line
      (underline lead covered) := by
  refine ⟨⟨_, _, rfl⟩, ?_, ?_⟩
  · rintro ⟨place, hplace⟩ column
    rw [covers_iff hline hcovered hrest] at hplace ⊢
    rw [getElem?_underline, Nat.max_eq_left (by omega)]
  · intro hnone
    have hempty : covered.length = 0 := by
      by_contra hlength
      exact hnone ⟨lead.length, (covers_iff hline hcovered hrest).2 (by omega)⟩
    refine ⟨lead.length, by simp [hline], ?_, ?_⟩
    · rw [hline, List.take_left]
    · intro column
      rw [getElem?_underline, hempty]
      omega

end Span

namespace Source

variable {source : Source}

theorem highlight?_append {before text after rest : List Char}
    (h : source.chars = before ++ (text ++ after))
    (hline : firstLine (text ++ after) = firstLine text ++ rest)
    (hrest : rest = [] ∨ firstLine text = text) :
    source.highlight? .plain ⟨byteSize before, byteSize before + byteSize text⟩
      = some (String.ofList (['\n'].intercalate (excerptRows (before.count '\n' + 1)
        (lastLine before ++ (firstLine text ++ rest))
        (underline (lastLine before) (firstLine text))))) := by
  have haround := around?_append h
  have hstart : min (byteSize before) source.byteLength = byteSize before := by
    rw [byteLength, h, byteSize_append]
    omega
  have hcut := cut?_firstLine hline hrest
  simp only [highlight?, hstart, row?, haround, Option.map_some, Option.bind_eq_bind,
    Option.bind_some, Nat.add_sub_cancel_left, hcut]
  apply congrArg some
  apply String.toList_injective
  simp [Palette.plain, replicate, excerptRows, underline, List.intercalate, hline]

theorem Spanned.exists_append {span : Span} (h : source.Spanned span) :
    ∃ before text after, source.chars = before ++ (text ++ after) ∧
      span = ⟨byteSize before, byteSize before + byteSize text⟩ := by
  obtain ⟨start, stop⟩ := span
  obtain ⟨before, others, hstart, rfl⟩ := isBoundary_iff.2 h.start
  obtain ⟨front, after, hstop, rfl⟩ := isBoundary_iff.2 h.stop
  obtain ⟨text, rfl⟩ :=
    prefix_of_byteSize_le ⟨others, hstart.symm⟩ ⟨after, hstop.symm⟩ h.ordered
  exact ⟨before, text, after, by rw [hstop, List.append_assoc], by rw [byteSize_append]⟩

/-- A span between characters is underlined by its excerpt: three rows that show the line in which
the span starts, with carets below the characters of the line that the span covers, or one caret
where the span starts if it covers none of them. -/
theorem highlight_underlines_span {span : Span} (h : source.Spanned span) :
    ∃ text row start line underline, source.highlight? .plain span = some text ∧
      source.Excerpt span text row start line underline := by
  obtain ⟨before, text, after, hchars, rfl⟩ := h.exists_append
  obtain ⟨rest, hline, hrest⟩ := firstLine_append text after
  obtain ⟨front, back, hbefore, hcount, hrow⟩ := isRow_around before (text ++ after)
  rw [← hchars, hline] at hrow
  have hsize : byteSize before = byteSize front + byteSize (lastLine before) := by
    rw [← byteSize_append, ← hbefore]
  refine ⟨_, before.count '\n' + 1, byteSize front, lastLine before ++ (firstLine text ++ rest),
    underline (lastLine before) (firstLine text), highlight?_append hchars hline hrest, ?_⟩
  constructor
  · exact (isAt_append hchars).row_eq
  · rw [hcount, rowStart?_eq hrow]
  · rw [hcount, Nat.add_sub_cancel, lines, hrow.getElem?_splitOn]
  · rw [hrow.text, slice?_byteSize]
  · simp only [hsize, byteSize_append]
    omega
  · rw [String.toList_ofList, splitOn_excerptRows hrow.row]
  · rw [hsize]
    exact Span.underlined rfl (List.takeWhile_prefix _) hrest

/-- Characters of two bytes, on the second of three rows: a span that goes on past the end of the
row, and the span of a line feed, which covers no character of a row. -/
theorem highlight_underlines_span_across_rows :
    let source := Source.ofString "a\né bé\nc"
    (source.Spanned ⟨5, 10⟩ ∧ ∃ row start line underline,
      source.Excerpt ⟨5, 10⟩ "  |\n2 | é bé\n  |   ^^" row start line underline) ∧
    source.Spanned ⟨8, 9⟩ ∧ ∃ row start line underline,
      source.Excerpt ⟨8, 9⟩ "  |\n2 | é bé\n  |     ^" row start line underline := by
  intro source
  have hlong : source.Spanned ⟨5, 10⟩ :=
    ⟨by decide, by decide +kernel, by decide +kernel, by decide +kernel⟩
  have hfeed : source.Spanned ⟨8, 9⟩ :=
    ⟨by decide, by decide +kernel, by decide +kernel, by decide +kernel⟩
  obtain ⟨text, row, start, line, underline, htext, hexcerpt⟩ := highlight_underlines_span hlong
  obtain ⟨text', row', start', line', underline', htext', hexcerpt'⟩ :=
    highlight_underlines_span hfeed
  obtain rfl : "  |\n2 | é bé\n  |   ^^" = text :=
    Option.some.inj (.trans (by decide +kernel) htext)
  obtain rfl : "  |\n2 | é bé\n  |     ^" = text' :=
    Option.some.inj (.trans (by decide +kernel) htext')
  exact ⟨⟨hlong, row, start, line, underline, hexcerpt⟩,
    hfeed, row', start', line', underline', hexcerpt'⟩

end Source

end L3Lowering
