import L3Lowering.Proofs.Parametric
import L3Lowering.Proofs.Partition
import L3Lowering.Proofs.Tiling

namespace L3Lowering

open Text

def Token.reading (token : Token) : Kind × String :=
  (token.kind, token.text)

def readingsAfter (previous : Option Kind) (cs : List Char) : List (Kind × String) :=
  (Cursor.tokens signUnlessOperand ⟨0, cs, previous⟩).map Token.reading

/-- The texts of the tokens of a source, with single spaces between them. -/
def Source.spaced (source : Source) : Source :=
  ⟨" ".intercalate (source.tokens.map Token.text), source.origin⟩

theorem readingsAfter_eq (previous : Option Kind) (cs : List Char) :
    readingsAfter previous cs =
      match (splitGap false cs).2 with
      | [] => []
      | c :: cs =>
        let found := lexeme (signUnlessOperand previous) c cs
        (found.kind, String.ofList found.text) :: readingsAfter (some found.kind) found.rest :=
  Cursor.map_tokens_eq (fun _ _ _ _ => rfl) _ _ _

theorem readingsAfter_nil (previous : Option Kind) : readingsAfter previous [] = [] := by
  rw [readingsAfter_eq, splitGap]

theorem readingsAfter_space (previous : Option Kind) (cs : List Char) :
    readingsAfter previous (' ' :: cs) = readingsAfter previous cs := by
  rw [readingsAfter_eq, splitGap_blank (by decide), ← readingsAfter_eq]

theorem readingsAfter_lexeme {previous : Option Kind} {c : Char} {cs : List Char} {found : Lexeme}
    (hsolid : isBlank c = false ∧ ¬ (c = '/' ∧ cs.head? = some '/'))
    (hfound : lexeme (signUnlessOperand previous) c cs = found) :
    readingsAfter previous (c :: cs)
      = (found.kind, String.ofList found.text) :: readingsAfter (some found.kind) found.rest := by
  have hgap : splitGap false (c :: cs) = ([], c :: cs) := by
    rw [splitGap, if_neg (by simp [hsolid.1])]
    rintro ds rfl rfl
    exact hsolid.2 ⟨rfl, rfl⟩
  rw [readingsAfter_eq, hgap]
  simp only [hfound]

def Parts (rest : List Char) : Prop :=
  rest = [] ∨ ∃ cs, rest = ' ' :: cs

theorem Parts.delimits {rest : List Char} (h : Parts rest) : Delimits rest := by
  rcases h with rfl | ⟨cs, rfl⟩
  · rfl
  · rfl

theorem Parts.not_isNameStart {rest : List Char} (h : Parts rest) :
    rest.head?.any isNameStart = false := by
  rcases h with rfl | ⟨cs, rfl⟩
  · rfl
  · rfl

theorem symbol_cases (c : Char) (cs : List Char) :
    Lexeme.symbol c cs = ⟨Lexeme.symbolKind c, [c], cs⟩ ∨
      ∃ d ds kind, Lexeme.symbol c cs = ⟨kind, [c, d], ds⟩ ∧
        ∀ signed rest, lexeme signed c (d :: rest) = ⟨kind, [c, d], rest⟩ := by
  unfold Lexeme.symbol
  split
  iterate 5 exact .inr ⟨_, _, _, rfl, fun _ _ => rfl⟩
  · exact .inl rfl

theorem symbol_parts (c : Char) {rest : List Char} (h : Parts rest) :
    Lexeme.symbol c rest = ⟨Lexeme.symbolKind c, [c], rest⟩ := by
  unfold Lexeme.symbol
  rcases h with rfl | ⟨cs, rfl⟩
  · split <;> simp_all
  · split <;> simp_all

theorem lexeme_symbol {signed : Bool} {c : Char} {cs : List Char} (hword : isNameStart c = false)
    (hlabel : c = ':' → cs.head?.any isNameStart = false)
    (hnumber : startsNumber signed c cs = false) : lexeme signed c cs = .symbol c cs := by
  have hcolon : ¬ (c == ':' && cs.head?.any isNameStart) = true := by
    rw [Bool.and_eq_true, beq_iff_eq]
    rintro ⟨hc, hcs⟩
    simp [hlabel hc] at hcs
  rw [lexeme, if_neg (by simp [hword]), if_neg hcolon]
  exact if_neg (by simpa [startsNumber, isSign] using hnumber)

theorem head?_takeWhile_append {p q : Char → Bool} (hpq : ∀ c, p c = true → q c = true)
    {cs : List Char} (h : cs.head?.any p = true) (rest : List Char) :
    (cs.takeWhile q ++ rest).head?.any p = true := by
  cases cs with
  | nil => simp at h
  | cons c cs =>
      rw [List.takeWhile_cons_of_pos (hpq c h)]
      exact h

theorem Lexeme.Found.again {signed : Bool} {c : Char} {cs rest : List Char} {found : Lexeme}
    (h : Found signed c cs found) (hrest : Parts rest) :
    ∃ text, found.text = c :: text ∧
      lexeme signed c (text ++ rest) = ⟨found.kind, c :: text, rest⟩ := by
  cases h with
  | word hc =>
      refine ⟨cs.takeWhile isNameChar, rfl, ?_⟩
      have hrun : ∀ d ∈ cs.takeWhile isNameChar, isNameChar d = true :=
        List.all_eq_true.1 List.all_takeWhile
      rw [lexeme_word hc, run, takeWhile_run hrun hrest.delimits, dropWhile_run hrun hrest.delimits]
      rfl
  | label hc hcs =>
      subst hc
      refine ⟨cs.takeWhile isNameChar, rfl, ?_⟩
      have hrun : ∀ d ∈ cs.takeWhile isNameChar, isNameChar d = true :=
        List.all_eq_true.1 List.all_takeWhile
      have hhead := head?_takeWhile_append (fun _ => isNameChar_of_isNameStart) hcs rest
      rw [lexeme_label hhead, run, takeWhile_run hrun hrest.delimits,
        dropWhile_run hrun hrest.delimits]
      rfl
  | number hc =>
      refine ⟨cs.takeWhile Char.isDigit, rfl, ?_⟩
      have hrun : ∀ d ∈ cs.takeWhile Char.isDigit, d.isDigit = true :=
        List.all_eq_true.1 List.all_takeWhile
      have hstarts : startsNumber signed c (cs.takeWhile Char.isDigit ++ rest) = true := by
        rw [startsNumber, Bool.or_eq_true, Bool.and_eq_true] at hc ⊢
        apply hc.imp_right
        rintro ⟨hsign, hdigit⟩
        exact ⟨hsign, head?_takeWhile_append (fun _ => id) hdigit rest⟩
      rw [lexeme_number hstarts, run, takeWhile_run hrun hrest.delimits.not_digit,
        dropWhile_run hrun hrest.delimits.not_digit]
      rfl
  | symbol hword hlabel hnumber =>
      rcases symbol_cases c cs with hsingle | ⟨d, ds, kind, hdouble, hread⟩
      · rw [hsingle]
        refine ⟨[], rfl, ?_⟩
        have hnumber' : startsNumber signed c rest = false := by
          rw [startsNumber, Bool.or_eq_false_iff] at hnumber ⊢
          exact ⟨hnumber.1, by simp [hrest.delimits.not_digit]⟩
        rw [List.nil_append, lexeme_symbol hword (fun _ => hrest.not_isNameStart) hnumber',
          symbol_parts c hrest]
      · rw [hdouble]
        exact ⟨[d], rfl, hread signed rest⟩

theorem toList_intercalate_space (text : String) (texts : List String) :
    ∃ rest, (" ".intercalate (text :: texts)).toList = text.toList ++ rest ∧ Parts rest ∧
      ∀ previous, readingsAfter previous rest
        = readingsAfter previous (" ".intercalate texts).toList := by
  cases texts with
  | nil => exact ⟨[], by simp, .inl rfl, fun _ => by simp⟩
  | cons other others =>
      refine ⟨' ' :: (" ".intercalate (other :: others)).toList, ?_, .inr ⟨_, rfl⟩, ?_⟩
      · rw [String.intercalate_cons_cons, String.toList_append, String.toList_append]
        simp
      · intro previous
        exact readingsAfter_space previous _

theorem lexeme_slash (signed : Bool) (cs : List Char) :
    lexeme signed '/' cs = ⟨.unknown, ['/'], cs⟩ := by
  cases signed <;> rfl

/-- What starts a token starts one also when a space or nothing follows the token. -/
theorem solid_again {signed : Bool} {c : Char} {cs text rest : List Char}
    (hsolid : isBlank c = false ∧ ¬ (c = '/' ∧ cs.head? = some '/'))
    (htext : (lexeme signed c cs).text = c :: text) (hrest : Parts rest) :
    isBlank c = false ∧ ¬ (c = '/' ∧ (text ++ rest).head? = some '/') := by
  refine ⟨hsolid.1, ?_⟩
  rintro ⟨rfl, hhead⟩
  obtain rfl : text = [] := by simpa [lexeme_slash] using htext.symm
  rcases hrest with rfl | ⟨ds, rfl⟩
  · simp at hhead
  · simp at hhead

theorem Cursor.readings_next {cursor after : Cursor} {token : Token} {rest : List Char}
    (hnext : cursor.next? signUnlessOperand = some (token, after)) (hrest : Parts rest) :
    readingsAfter cursor.previous (token.text.toList ++ rest)
      = token.reading :: readingsAfter after.previous rest := by
  unfold next? at hnext
  split at hnext
  · simp at hnext
  · rename_i gap c cs heq
    obtain ⟨rfl, rfl⟩ := Prod.mk.inj (Option.some.inj hnext)
    obtain ⟨text, htext, hagain⟩ :=
      (lexeme_found (signUnlessOperand cursor.previous) c cs).again hrest
    have hsolid := solid_again (solid_splitGap (congrArg Prod.snd heq)) htext hrest
    rw [String.toList_ofList, htext, List.cons_append, readingsAfter_lexeme hsolid hagain,
      Token.reading]

theorem Cursor.readings_spaced (cursor : Cursor) :
    readingsAfter cursor.previous
        (" ".intercalate ((cursor.tokens signUnlessOperand).map Token.text)).toList
      = (cursor.tokens signUnlessOperand).map Token.reading := by
  fun_induction Cursor.tokens signUnlessOperand cursor with
  | case1 cursor hnone => exact readingsAfter_nil _
  | case2 cursor token after hnext _ ih =>
      obtain ⟨rest, hrest, hparts, hreadings⟩ :=
        toList_intercalate_space token.text ((after.tokens signUnlessOperand).map Token.text)
      rw [List.map_cons, hrest, readings_next hnext hparts, hreadings, ih, List.map_cons]

def SameReading (t u : Token) : Prop :=
  t.reading = u.reading

theorem keepsReading_sameReading : KeepsReading SameReading :=
  fun _ _ h => Prod.mk.inj h

theorem forall₂_sameReading {ts us : List Token}
    (h : ts.map Token.reading = us.map Token.reading) : List.Forall₂ SameReading ts us := by
  have heq : List.Forall₂ Eq (ts.map Token.reading) (us.map Token.reading) := by
    rw [List.forall₂_eq_eq_eq]
    exact h
  rwa [List.forall₂_map_left_iff, List.forall₂_map_right_iff] at heq

theorem ParseError.Alike.message {R : Token → Token → Prop} (hR : KeepsReading R)
    {e f : ParseError} (h : e.Alike R f) : e.message = f.message := by
  unfold ParseError.message
  cases h with
  | atEnd => rfl
  | unexpected expected h => simp only [(hR _ _ h).1, (hR _ _ h).2]
  | literalRange h | unknownFunction h => simp only [(hR _ _ h).2]

namespace Source

theorem readings_spaced (source : Source) :
    source.spaced.tokens.map Token.reading = source.tokens.map Token.reading :=
  (Cursor.start source.chars).readings_spaced

/-- The same program, or failures that say the same. -/
inductive Agree (source other : Source) : Prop
  | ok (program : Program) (h : source.parse = .ok program) (h' : other.parse = .ok program)
  | error (e f : ParseError) (h : source.parse = .error e) (h' : other.parse = .error f)
      (hmessage : e.message = f.message)

theorem agree_of_readings {source other : Source}
    (h : source.tokens.map Token.reading = other.tokens.map Token.reading) :
    source.Agree other := by
  rcases Program.ofTokens_alike keepsReading_sameReading (forall₂_sameReading h) with
    ⟨program, hparse, hparse'⟩ | ⟨e, f, hparse, hparse', halike⟩
  · exact .ok program hparse hparse'
  · exact .error e f hparse hparse' (halike.message keepsReading_sameReading)

theorem Agree.compile {source other : Source} (h : source.Agree other) :
    source.compile.value.mapError CompileError.message
      = other.compile.value.mapError CompileError.message := by
  cases h with
  | ok program hparse hparse' =>
      obtain ⟨tiled, hlower, -⟩ := (grammatical_of_parse hparse).lower_ok
      rw [compile_of_lower hparse hlower, compile_of_lower hparse' hlower]
  | error e f hparse hparse' hmessage =>
      rw [compile_of_parse_error hparse, compile_of_parse_error hparse']
      exact congrArg Except.error hmessage

theorem Agree.scopedText {source other : Source} (h : source.Agree other) :
    source.scopedText.mapError CompileError.message
      = other.scopedText.mapError CompileError.message := by
  cases h with
  | ok program hparse hparse' => simp only [Source.scopedText, hparse, hparse']
  | error e f hparse hparse' hmessage =>
      simp only [Source.scopedText, hparse, hparse']
      exact congrArg Except.error hmessage

/-- A source and its tokens' texts with single spaces between them have the same tokens up to spans,
spell the same program and have the same compiled text and text in scopes, or all of these fail with
the same message. -/
theorem layout_irrelevant (source : Source) :
    source.spaced.tokens.map Token.reading = source.tokens.map Token.reading ∧
      source.spaced.parse.mapError ParseError.message
        = source.parse.mapError ParseError.message ∧
      source.spaced.compile.value.mapError CompileError.message
        = source.compile.value.mapError CompileError.message ∧
      source.spaced.scopedText.mapError CompileError.message
        = source.scopedText.mapError CompileError.message := by
  have hagree := agree_of_readings source.readings_spaced
  refine ⟨source.readings_spaced, ?_, hagree.compile, hagree.scopedText⟩
  cases hagree with
  | ok program hparse hparse' => rw [hparse, hparse']
  | error e f hparse hparse' hmessage =>
      rw [hparse, hparse']
      exact congrArg Except.error hmessage

end Source

end L3Lowering
