import L3Lowering.Program.Printer
import L3Lowering.Proofs.DecimalText
import L3Lowering.Proofs.Names
import L3Lowering.Proofs.Phrase

namespace L3Lowering

def Word.wellNamed : Word → Bool
  | .name text => isVarName text
  | .label text => isLabelWord text
  | _ => true

def Lexeme.word (found : Lexeme) : Word :=
  Token.word ⟨found.kind, String.ofList found.text, ⟨0, 0⟩⟩

def wordsAfter (previous : Option Kind) (cs : List Char) : List Word :=
  (Cursor.tokens signUnlessOperand ⟨0, cs, previous⟩).map Token.word

theorem lexeme_rest_lt {cs rest : List Char} {c : Char} (h : (splitGap false cs).2 = c :: rest)
    (signed : Bool) : (lexeme signed c rest).rest.length < cs.length := by
  have hlex := lexeme_rest_length_le signed c rest
  have hle := splitGap_length_le false cs
  rw [h, List.length_cons] at hle
  omega

section Spans

variable {α : Type} {f : Token → α}
  (hf : ∀ kind text span span', f ⟨kind, text, span⟩ = f ⟨kind, text, span'⟩)
include hf

theorem Cursor.map_tokens_offset (signs : SignRule) (offset offset' : Nat) (cs : List Char)
    (previous : Option Kind) :
    (tokens signs ⟨offset, cs, previous⟩).map f = (tokens signs ⟨offset', cs, previous⟩).map f := by
  induction hn : cs.length using Nat.strongRecOn generalizing cs offset offset' previous with
  | ind n ih =>
      rw [tokens_eq, tokens_eq]
      cases hgap : splitGap false cs with
      | mk gap rest =>
          cases rest with
          | nil => simp [next?, hgap]
          | cons c rest =>
              have hrest : (lexeme (signs previous) c rest).rest.length < n :=
                hn ▸ lexeme_rest_lt (by rw [hgap]) _
              simp only [next?, hgap, List.map_cons]
              rw [hf, ih _ hrest _ _ _ _ rfl]

theorem Cursor.map_tokens_eq (signs : SignRule) (previous : Option Kind) (cs : List Char) :
    (tokens signs ⟨0, cs, previous⟩).map f =
      match (splitGap false cs).2 with
      | [] => []
      | c :: cs =>
        let found := lexeme (signs previous) c cs
        f ⟨found.kind, String.ofList found.text, ⟨0, 0⟩⟩ ::
          (tokens signs ⟨0, found.rest, some found.kind⟩).map f := by
  rw [tokens_eq]
  cases hgap : splitGap false cs with
  | mk gap rest =>
      cases rest with
      | nil => simp [next?, hgap]
      | cons c rest =>
          simp only [next?, hgap, List.map_cons]
          rw [hf _ _ _ ⟨0, 0⟩, map_tokens_offset hf _ _ 0]

end Spans

theorem wordsAfter_eq (previous : Option Kind) (cs : List Char) :
    wordsAfter previous cs =
      match (splitGap false cs).2 with
      | [] => []
      | c :: cs =>
        (lexeme (signUnlessOperand previous) c cs).word ::
          wordsAfter (some (lexeme (signUnlessOperand previous) c cs).kind)
            (lexeme (signUnlessOperand previous) c cs).rest :=
  Cursor.map_tokens_eq (fun _ _ _ _ => rfl) _ _ _

theorem splitGap_blank {c : Char} (h : Text.isBlank c = true) (cs : List Char) :
    (splitGap false (c :: cs)).2 = (splitGap false cs).2 := by
  rw [splitGap, if_pos h]
  rintro _ rfl
  exact absurd h (by decide)

theorem wordsAfter_blank {c : Char} (h : Text.isBlank c = true) (previous : Option Kind)
    (cs : List Char) : wordsAfter previous (c :: cs) = wordsAfter previous cs := by
  rw [wordsAfter_eq, splitGap_blank h, ← wordsAfter_eq]

theorem wordsAfter_nil (previous : Option Kind) : wordsAfter previous [] = [] := by
  rw [wordsAfter_eq, splitGap]

theorem wordsAfter_lexeme {previous : Option Kind} {c : Char} {cs : List Char} {found : Lexeme}
    (hblank : Text.isBlank c = false) (hslash : c ≠ '/')
    (hfound : lexeme (signUnlessOperand previous) c cs = found) :
    wordsAfter previous (c :: cs) = found.word :: wordsAfter (some found.kind) found.rest := by
  have hgap : splitGap false (c :: cs) = ([], c :: cs) := by
    rw [splitGap, if_neg (by simp [hblank])]
    rintro _ rfl
    exact absurd rfl hslash
  rw [wordsAfter_eq, hgap]
  simp only [hfound]

/-- No name or number goes on with the text. -/
def Delimits (rest : List Char) : Prop :=
  rest.head?.any isNameChar = false

theorem delimits_space (rest : List Char) : Delimits (' ' :: rest) := rfl

theorem delimits_paren (cs rest : List Char) : Delimits ('(' :: cs ++ rest) := rfl

theorem Delimits.not_digit {rest : List Char} (h : Delimits rest) :
    rest.head?.any Char.isDigit = false := by
  cases rest with
  | nil => rfl
  | cons c cs =>
      rw [Bool.eq_false_iff]
      intro hdigit
      have hc : isNameChar c = false := h
      rw [isNameChar_of_isDigit hdigit] at hc
      exact absurd hc (by decide)

variable {previous : Option Kind} {rest : List Char} {name : String}

theorem wordsAfter_word (hword : isWord name.toList = true) (hrest : Delimits rest) :
    wordsAfter previous (name.toList ++ rest)
      = (⟨Lexeme.wordKind name.toList, name.toList, rest⟩ : Lexeme).word ::
        wordsAfter (some (Lexeme.wordKind name.toList)) rest := by
  cases hname : name.toList with
  | nil => simp [hname, isWord] at hword
  | cons c cs =>
      rw [hname, isWord, Bool.and_eq_true, List.all_eq_true] at hword
      have hc := isNameChar_of_isNameStart hword.1
      have hlex : lexeme (signUnlessOperand previous) c (cs ++ rest)
          = ⟨Lexeme.wordKind (c :: cs), c :: cs, rest⟩ := by
        rw [lexeme, if_pos hword.1, Lexeme.run, Text.takeWhile_run hword.2 hrest,
          Text.dropWhile_run hword.2 hrest]
      exact wordsAfter_lexeme (isBlank_of_isNameChar hc) (ne_slash_of_isNameChar hc) hlex

theorem wordsAfter_name (hname : isVarName name = true) (hrest : Delimits rest) :
    wordsAfter previous (name.toList ++ rest)
      = .name name :: wordsAfter (some .identifier) rest := by
  rw [isVarName, Bool.and_eq_true, Option.isNone_iff_eq_none] at hname
  have hkind : Lexeme.wordKind name.toList = .identifier := by
    rw [Lexeme.wordKind, String.ofList_toList, hname.2]
  rw [wordsAfter_word hname.1 hrest, hkind]
  simp [Lexeme.word, Token.word]

theorem wordsAfter_keyword (keyword : Keyword) (hrest : Delimits rest) :
    wordsAfter previous (keyword.text.toList ++ rest)
      = .mark (.keyword keyword) :: wordsAfter (some (.keyword keyword)) rest := by
  have hword : isWord keyword.text.toList = true := by
    cases keyword <;> decide
  have hkind : Lexeme.wordKind keyword.text.toList = .keyword keyword := by
    rw [Lexeme.wordKind, String.ofList_toList, Keyword.ofText?_eq_some_iff.2 rfl]
  rw [wordsAfter_word hword hrest, hkind]
  rfl

theorem wordsAfter_keyword_space (keyword : Keyword) :
    wordsAfter previous (keyword.text.toList ++ ' ' :: rest)
      = .mark (.keyword keyword) :: wordsAfter (some (.keyword keyword)) rest := by
  rw [wordsAfter_keyword keyword (delimits_space rest), wordsAfter_blank (by decide)]

theorem wordsAfter_label (hname : isLabelWord name = true) (hrest : Delimits rest) :
    wordsAfter previous (name.toList ++ rest) = .label name :: wordsAfter (some .label) rest := by
  unfold isLabelWord at hname
  split at hname
  · rename_i cs hcs
    cases cs with
    | nil => simp [isWord] at hname
    | cons c cs =>
        rw [isWord, Bool.and_eq_true, List.all_eq_true] at hname
        have hrun : ∀ d ∈ c :: cs, isNameChar d = true := by
          rintro d (_ | ⟨_, hd⟩)
          · exact isNameChar_of_isNameStart hname.1
          · exact hname.2 d hd
        have hlex : lexeme (signUnlessOperand previous) ':' (c :: cs ++ rest)
            = ⟨.label, ':' :: c :: cs, rest⟩ := by
          rw [lexeme, if_neg (by decide), if_pos (by simpa using hname.1), Lexeme.run,
            Text.takeWhile_run hrun hrest, Text.dropWhile_run hrun hrest]
        rw [hcs]
        refine (wordsAfter_lexeme (by decide) (by decide) hlex).trans ?_
        rw [Lexeme.word, ← hcs, String.ofList_toList]
        rfl
  · exact absurd hname (by decide)

theorem wordsAfter_digits {c : Char} {cs : List Char} (hc : c.isDigit = true)
    (hcs : ∀ d ∈ cs, d.isDigit = true) (hrest : Delimits rest) :
    wordsAfter previous (c :: cs ++ rest)
      = .number (String.ofList (c :: cs)) :: wordsAfter (some .integer) rest := by
  have hname := isNameChar_of_isDigit hc
  have hcolon : (c == ':') = false := by
    rw [beq_eq_false_iff_ne]
    rintro rfl
    exact absurd hc (by decide)
  have hlex : lexeme (signUnlessOperand previous) c (cs ++ rest)
      = ⟨.integer, c :: cs, rest⟩ := by
    rw [lexeme, if_neg (by simp [isNameStart_of_isDigit hc]), if_neg (by simp [hcolon]),
      if_pos (by simp [hc]), Lexeme.run, Text.takeWhile_run hcs hrest.not_digit,
      Text.dropWhile_run hcs hrest.not_digit]
  exact wordsAfter_lexeme (isBlank_of_isNameChar hname) (ne_slash_of_isNameChar hname) hlex

theorem wordsAfter_negative {digits : List Char} (hsign : signUnlessOperand previous = true)
    (hne : digits ≠ []) (hdigits : ∀ d ∈ digits, d.isDigit = true) (hrest : Delimits rest) :
    wordsAfter previous ('-' :: digits ++ rest)
      = .number (String.ofList ('-' :: digits)) :: wordsAfter (some .integer) rest := by
  obtain ⟨c, cs, rfl⟩ := List.exists_cons_of_ne_nil hne
  have hlex : lexeme (signUnlessOperand previous) '-' (c :: cs ++ rest)
      = ⟨.integer, '-' :: c :: cs, rest⟩ := by
    rw [lexeme, if_neg (by decide), if_neg (by simp),
      if_pos (by simp [hsign, hdigits c]), Lexeme.run,
      Text.takeWhile_run hdigits hrest.not_digit, Text.dropWhile_run hdigits hrest.not_digit]
  exact wordsAfter_lexeme (by decide) (by decide) hlex

theorem wordsAfter_intText (n : Int) (hsign : signUnlessOperand previous = true)
    (hrest : Delimits rest) :
    wordsAfter previous ((Text.intText n).toList ++ rest)
      = .number (Text.intText n) :: wordsAfter (some .integer) rest := by
  cases n with
  | ofNat n =>
      obtain ⟨c, cs, hdigits, hc⟩ := Text.digits_eq_cons n
      have hall : ∀ d ∈ c :: cs, d.isDigit = true := by
        rw [← hdigits]
        exact fun _ => Text.isDigit_of_mem_digits
      rw [Text.intText, Text.toList_natText, Text.natText, hdigits]
      exact wordsAfter_digits hc (fun d hd => hall d (List.mem_cons_of_mem c hd)) hrest
  | negSucc n =>
      have htext : Text.intText (.negSucc n) = String.ofList ('-' :: Text.digits (n + 1)) := by
        apply String.toList_injective
        simp [Text.intText]
      rw [htext, String.toList_ofList]
      exact wordsAfter_negative hsign (Text.digits_ne_nil _)
        (fun _ => Text.isDigit_of_mem_digits) hrest

def isBracket (c : Char) : Bool :=
  c ∈ ['(', ')', '\x7b', '\x7d', ',']

theorem wordsAfter_bracket {c : Char} (hc : isBracket c = true) :
    wordsAfter previous (c :: rest)
      = .mark (Lexeme.symbolKind c) :: wordsAfter (some (Lexeme.symbolKind c)) rest := by
  simp only [isBracket, List.mem_cons, List.not_mem_nil, or_false, decide_eq_true_eq] at hc
  rcases hc with rfl | rfl | rfl | rfl | rfl <;>
    exact wordsAfter_lexeme (by decide) (by decide) rfl

theorem wordsAfter_arrow :
    wordsAfter previous ('<' :: '-' :: rest) = .mark .arrow :: wordsAfter (some .arrow) rest :=
  wordsAfter_lexeme (by decide) (by decide) rfl

theorem wordsAfter_spaced_arrow :
    wordsAfter previous (' ' :: '<' :: '-' :: ' ' :: rest)
      = .mark .arrow :: wordsAfter (some .arrow) rest := by
  rw [wordsAfter_blank (by decide), wordsAfter_arrow, wordsAfter_blank (by decide)]

theorem lexeme_operator (op : Operator) : ∃ c cs, op.symbol.toList = c :: cs ∧
    Text.isBlank c = false ∧ c ≠ '/' ∧
    ∀ rest, lexeme false c (cs ++ ' ' :: rest) = ⟨.operator op, c :: cs, ' ' :: rest⟩ := by
  rcases op with (_ | _ | _ | _ | _ | _) | (_ | _ | _) | _ | _ <;>
    exact ⟨_, _, rfl, by decide, by decide, fun _ => rfl⟩

/-- After an operand every operator is read as one, a sign included. -/
theorem wordsAfter_operator (op : Operator) (hsign : signUnlessOperand previous = false) :
    wordsAfter previous (op.symbol.toList ++ ' ' :: rest)
      = .mark (.operator op) :: wordsAfter (some (.operator op)) rest := by
  obtain ⟨c, cs, hsymbol, hblank, hslash, hlex⟩ := lexeme_operator op
  have hfound := hlex rest
  rw [← hsign] at hfound
  rw [hsymbol, List.cons_append, wordsAfter_lexeme hblank hslash hfound,
    wordsAfter_blank (by decide)]
  rfl

theorem isWord_takeWhile {cs : List Char} (h : cs.head?.any isNameStart = true) :
    isWord (cs.takeWhile isNameChar) = true := by
  cases cs with
  | nil => simp at h
  | cons c cs =>
      have hc : isNameStart c = true := h
      rw [List.takeWhile_cons_of_pos (isNameChar_of_isNameStart hc), isWord, hc,
        List.all_takeWhile]
      rfl

theorem wellNamed_symbol (c : Char) (cs : List Char) :
    (Lexeme.symbol c cs).word.wellNamed = true := by
  unfold Lexeme.symbol
  split
  iterate 5 rfl
  · unfold Lexeme.symbolKind
    split <;> rfl

theorem wellNamed_word {text : List Char} (h : isWord text = true) (rest : List Char) :
    (⟨Lexeme.wordKind text, text, rest⟩ : Lexeme).word.wellNamed = true := by
  rw [Lexeme.word, Lexeme.wordKind]
  cases hkeyword : Keyword.ofText? (String.ofList text) with
  | some keyword => rfl
  | none => simp [Token.word, Word.wellNamed, isVarName, hkeyword, h]

theorem wellNamed_lexeme (signed : Bool) (c : Char) (cs : List Char) :
    (lexeme signed c cs).word.wellNamed = true := by
  unfold lexeme
  split
  · rename_i hc
    have hword : isWord (c :: cs.takeWhile isNameChar) = true := by
      rw [isWord, hc, List.all_takeWhile]
      rfl
    exact wellNamed_word hword _
  · split
    · rename_i hlabel
      rw [Bool.and_eq_true, beq_iff_eq] at hlabel
      obtain ⟨rfl, hstart⟩ := hlabel
      simpa [Lexeme.word, Lexeme.run, Token.word, Word.wellNamed, isLabelWord]
        using isWord_takeWhile hstart
    · split
      · rfl
      · exact wellNamed_symbol c cs

theorem wellNamed_wordsAfter (previous : Option Kind) (cs : List Char) :
    ∀ word ∈ wordsAfter previous cs, word.wellNamed = true := by
  induction hn : cs.length using Nat.strongRecOn generalizing cs previous with
  | ind n ih =>
      intro word hword
      rw [wordsAfter_eq] at hword
      cases hgap : (splitGap false cs).2 with
      | nil => simp [hgap] at hword
      | cons c rest =>
          rw [hgap] at hword
          rcases List.mem_cons.1 hword with rfl | hword
          · exact wellNamed_lexeme _ c rest
          · have hrest : (lexeme (signUnlessOperand previous) c rest).rest.length < n :=
              hn ▸ lexeme_rest_lt hgap _
            exact ih _ hrest _ _ rfl word hword

end L3Lowering
