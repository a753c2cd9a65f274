import L3Lowering.Proofs.Spelling

namespace L3Lowering

def isSign (c : Char) : Bool :=
  c == '-' || c == '+'

def isDigits (cs : List Char) : Bool :=
  !cs.isEmpty && cs.all Char.isDigit

def isSigned (cs : List Char) : Bool :=
  cs.head?.any isSign

def isNumeral (cs : List Char) : Bool :=
  isDigits cs || isSigned cs && isDigits cs.tail

namespace Kind

/-- The texts that tokens of a kind can have. Which single characters are `unknown` depends on what
follows them. -/
def spells : Kind → String → Bool
  | .keyword word, text => text == word.text
  | .identifier, text => isVarName text
  | .label, text => isLabelWord text
  | .integer, text => isNumeral text.toList
  | .openParen, text => text == "("
  | .closeParen, text => text == ")"
  | .openBrace, text => text == "\x7b"
  | .closeBrace, text => text == "\x7d"
  | .comma, text => text == ","
  | .arrow, text => text == "<-"
  | .operator op, text => text == op.symbol
  | .unknown, text => text.toList.length == 1

/-- The characters with which a token of the kind would go on. -/
def growsWith : Kind → Char → Bool
  | .keyword _, c => isNameChar c
  | .identifier, c => isNameChar c
  | .label, c => isNameChar c
  | .integer, c => c.isDigit
  | .operator (.comparison .less), c => c ∈ ['-', '<', '=']
  | .operator .greater, c => c ∈ ['>', '=']
  | _, _ => false

end Kind

theorem length_le_takeWhile {p : Char → Bool} {run cs : List Char} (hrun : ∀ c ∈ run, p c = true)
    (h : run <+: cs) : run.length ≤ (cs.takeWhile p).length := by
  obtain ⟨rest, rfl⟩ := h
  rw [List.takeWhile_append_of_pos hrun, List.length_append]
  omega

theorem head?_dropWhile (p : Char → Bool) (cs : List Char) :
    (cs.dropWhile p).head?.any p = false := by
  induction cs with
  | nil => rfl
  | cons c cs ih =>
      by_cases hc : p c = true
      · rw [List.dropWhile_cons_of_pos hc]
        exact ih
      · rw [List.dropWhile_cons_of_neg hc]
        simpa using hc

theorem isDigits_iff {cs : List Char} :
    isDigits cs = true ↔ cs ≠ [] ∧ ∀ c ∈ cs, c.isDigit = true := by
  simp [isDigits]

theorem not_isNameStart_of_isSign {c : Char} (h : isSign c = true) : isNameStart c = false := by
  simp only [isSign, Bool.or_eq_true, beq_iff_eq] at h
  rcases h with rfl | rfl <;> decide

theorem not_isDigit_of_isSign {c : Char} (h : isSign c = true) : c.isDigit = false := by
  simp only [isSign, Bool.or_eq_true, beq_iff_eq] at h
  rcases h with rfl | rfl <;> decide

theorem ne_colon_of_isSign {c : Char} (h : isSign c = true) : c ≠ ':' := by
  rintro rfl
  exact absurd h (by decide)

def startsNumber (signed : Bool) (c : Char) (cs : List Char) : Bool :=
  c.isDigit || isSign c && signed && cs.head?.any Char.isDigit

inductive Lexeme.Found (signed : Bool) (c : Char) (cs : List Char) : Lexeme → Prop
  | word (hc : isNameStart c = true) : Found signed c cs (.run Lexeme.wordKind isNameChar c cs)
  | label (hc : c = ':') (hcs : cs.head?.any isNameStart = true) :
      Found signed c cs (.run (fun _ => .label) isNameChar c cs)
  | number (hc : startsNumber signed c cs = true) :
      Found signed c cs (.run (fun _ => .integer) Char.isDigit c cs)
  | symbol (hword : isNameStart c = false)
      (hlabel : c = ':' → cs.head?.any isNameStart = false)
      (hnumber : startsNumber signed c cs = false) : Found signed c cs (.symbol c cs)

theorem lexeme_found (signed : Bool) (c : Char) (cs : List Char) :
    Lexeme.Found signed c cs (lexeme signed c cs) := by
  unfold lexeme
  split
  · rename_i hc
    exact .word hc
  · rename_i hword
    split
    · rename_i hlabel
      rw [Bool.and_eq_true, beq_iff_eq] at hlabel
      exact .label hlabel.1 hlabel.2
    · rename_i hlabel
      split
      · rename_i hnumber
        exact .number hnumber
      · rename_i hnumber
        refine .symbol (by simpa using hword) ?_ (by simpa [startsNumber, isSign] using hnumber)
        rintro rfl
        simpa using hlabel

theorem wordKind_cases (text : List Char) :
    (∃ keyword : Keyword, Lexeme.wordKind text = .keyword keyword ∧
      String.ofList text = keyword.text) ∨
      (Lexeme.wordKind text = .identifier ∧ Keyword.ofText? (String.ofList text) = none) := by
  rw [Lexeme.wordKind]
  cases hkeyword : Keyword.ofText? (String.ofList text) with
  | none => exact .inr ⟨rfl, rfl⟩
  | some keyword => exact .inl ⟨keyword, rfl, (Keyword.ofText?_eq_some_iff.1 hkeyword).symm⟩

theorem spells_word {text : List Char} (h : isWord text = true) :
    (Lexeme.wordKind text).spells (String.ofList text) = true := by
  rcases wordKind_cases text with ⟨keyword, hkind, htext⟩ | ⟨hkind, hnone⟩
  · rw [hkind, Kind.spells, htext, beq_self_eq_true]
  · rw [hkind, Kind.spells, isVarName, String.toList_ofList, h, hnone]
    rfl

theorem spells_symbol (c : Char) (cs : List Char) :
    (Lexeme.symbol c cs).kind.spells (String.ofList (Lexeme.symbol c cs).text) = true := by
  unfold Lexeme.symbol
  split
  iterate 5 rfl
  · unfold Lexeme.symbolKind
    split
    iterate 12 rfl
    · simp [Kind.spells]

theorem ends_symbol (c : Char) (cs : List Char) :
    (Lexeme.symbol c cs).rest.head?.any (Lexeme.symbol c cs).kind.growsWith = false := by
  unfold Lexeme.symbol
  split
  iterate 5 exact Option.any_false
  · rename_i harrow hleft hright hless hgreater
    unfold Lexeme.symbolKind
    cases cs with
    | nil => rfl
    | cons d ds =>
        split
        iterate 13 simp_all [Kind.growsWith]

theorem symbol_ne_integer (c : Char) (cs : List Char) : (Lexeme.symbol c cs).kind ≠ .integer := by
  unfold Lexeme.symbol
  split
  iterate 5 simp
  · unfold Lexeme.symbolKind
    split <;> simp

namespace Lexeme.Found

variable {signed : Bool} {c : Char} {cs : List Char} {found : Lexeme}

theorem spells (h : Found signed c cs found) :
    found.kind.spells (String.ofList found.text) = true := by
  cases h with
  | word hc =>
      apply spells_word
      exact isWord_cons_iff.2 ⟨hc, List.all_eq_true.1 List.all_takeWhile⟩
  | label hc hcs =>
      subst hc
      simp only [run, Kind.spells, isLabelWord, String.toList_ofList]
      exact isWord_takeWhile hcs
  | number hc =>
      have hrun : ∀ d ∈ cs.takeWhile Char.isDigit, d.isDigit = true :=
        List.all_eq_true.1 List.all_takeWhile
      rw [startsNumber, Bool.or_eq_true, Bool.and_eq_true, Bool.and_eq_true] at hc
      simp only [run, Kind.spells, String.toList_ofList, isNumeral, Bool.or_eq_true,
        Bool.and_eq_true]
      rcases hc with hc | ⟨⟨hc, -⟩, hdigit⟩
      · exact .inl (isDigits_iff.2 ⟨by simp, by simpa [hc] using hrun⟩)
      · refine .inr ⟨hc, isDigits_iff.2 ⟨?_, hrun⟩⟩
        cases cs with
        | nil => simp at hdigit
        | cons d ds => simp [show d.isDigit = true from hdigit]
  | symbol => exact spells_symbol c cs

theorem ends (h : Found signed c cs found) :
    found.rest.head?.any found.kind.growsWith = false := by
  cases h with
  | word =>
      have hgrows : (wordKind (c :: cs.takeWhile isNameChar)).growsWith = isNameChar := by
        rcases wordKind_cases (c :: cs.takeWhile isNameChar) with ⟨keyword, hkind, -⟩ | ⟨hkind, -⟩
        · rw [hkind]
          rfl
        · rw [hkind]
          rfl
      simp only [run, hgrows]
      exact head?_dropWhile isNameChar cs
  | label => exact head?_dropWhile isNameChar cs
  | number => exact head?_dropWhile Char.isDigit cs
  | symbol => exact ends_symbol c cs

theorem sign (h : Found signed c cs found) (hc : isSign c = true) :
    found.kind = .integer ↔ cs.head?.any Char.isDigit = true ∧ signed = true := by
  have hstarts : startsNumber signed c cs = (signed && cs.head?.any Char.isDigit) := by
    simp [startsNumber, not_isDigit_of_isSign hc, hc]
  cases h with
  | word hstart => simp [not_isNameStart_of_isSign hc] at hstart
  | label hcolon => exact absurd hcolon (ne_colon_of_isSign hc)
  | number hnumber =>
      rw [hstarts, Bool.and_eq_true] at hnumber
      exact ⟨fun _ => ⟨hnumber.2, hnumber.1⟩, fun _ => rfl⟩
  | symbol _ _ hnumber =>
      rw [hstarts] at hnumber
      refine ⟨fun h => absurd h (symbol_ne_integer c cs), ?_⟩
      rintro ⟨hdigit, rfl⟩
      simp [hdigit] at hnumber

end Lexeme.Found

section Longest

variable {signed : Bool} {c : Char} {cs : List Char}

theorem lexeme_word (hc : isNameStart c = true) :
    lexeme signed c cs = .run Lexeme.wordKind isNameChar c cs :=
  if_pos hc

theorem lexeme_label (hcs : cs.head?.any isNameStart = true) :
    lexeme signed ':' cs = .run (fun _ => .label) isNameChar ':' cs := by
  rw [lexeme, if_neg (by decide), if_pos (by simpa using hcs)]

theorem lexeme_number (h : startsNumber signed c cs = true) :
    lexeme signed c cs = .run (fun _ => .integer) Char.isDigit c cs := by
  have hc : isNameStart c = false ∧ c ≠ ':' := by
    rw [startsNumber, Bool.or_eq_true, Bool.and_eq_true, Bool.and_eq_true] at h
    rcases h with h | ⟨⟨h, -⟩, -⟩
    · refine ⟨isNameStart_of_isDigit h, ?_⟩
      rintro rfl
      exact absurd h (by decide)
    · exact ⟨not_isNameStart_of_isSign h, ne_colon_of_isSign h⟩
  rw [lexeme, if_neg (by simp [hc.1]), if_neg (by simp [hc.2])]
  exact if_pos h

theorem wordKind_ne_unknown (text : List Char) : Lexeme.wordKind text ≠ .unknown := by
  rcases wordKind_cases text with ⟨keyword, hkind, -⟩ | ⟨hkind, -⟩
  · simp [hkind]
  · simp [hkind]

theorem longest_word {text : List Char} (h : isWord text = true) (hfront : text <+: c :: cs) :
    text.length ≤ (lexeme signed c cs).text.length ∧ (lexeme signed c cs).kind ≠ .unknown := by
  cases text with
  | nil => simp [isWord] at h
  | cons d ds =>
      obtain ⟨rfl, hds⟩ := List.cons_prefix_cons.1 hfront
      obtain ⟨hd, hall⟩ := isWord_cons_iff.1 h
      rw [lexeme_word hd]
      exact ⟨Nat.succ_le_succ (length_le_takeWhile hall hds), wordKind_ne_unknown _⟩

theorem longest_label {text : String} (h : isLabelWord text = true)
    (hfront : text.toList <+: c :: cs) :
    text.toList.length ≤ (lexeme signed c cs).text.length ∧
      (lexeme signed c cs).kind ≠ .unknown := by
  unfold isLabelWord at h
  split at h
  · rename_i word htext
    rw [htext] at hfront ⊢
    obtain ⟨rfl, hword⟩ := List.cons_prefix_cons.1 hfront
    cases word with
    | nil => simp [isWord] at h
    | cons d ds =>
        obtain ⟨hd, hall⟩ := isWord_cons_iff.1 h
        have hrun : ∀ e ∈ d :: ds, isNameChar e = true := by
          rintro e (_ | ⟨_, he⟩)
          · exact isNameChar_of_isNameStart hd
          · exact hall e he
        have hhead : cs.head?.any isNameStart = true := by
          obtain ⟨rest, rfl⟩ := hword
          exact hd
        rw [lexeme_label hhead]
        exact ⟨Nat.succ_le_succ (length_le_takeWhile hrun hword), by simp [Lexeme.run]⟩
  · exact absurd h (by decide)

theorem longest_number {text : List Char} (h : isNumeral text = true)
    (hsign : isSigned text = true → signed = true) (hfront : text <+: c :: cs) :
    text.length ≤ (lexeme signed c cs).text.length ∧ (lexeme signed c cs).kind ≠ .unknown := by
  cases text with
  | nil => simp [isNumeral, isDigits, isSigned] at h
  | cons d ds =>
      obtain ⟨rfl, hds⟩ := List.cons_prefix_cons.1 hfront
      rw [isNumeral, Bool.or_eq_true, Bool.and_eq_true, isDigits_iff, isDigits_iff] at h
      have hstarts : startsNumber signed d cs = true ∧ ∀ e ∈ ds, e.isDigit = true := by
        rcases h with ⟨-, hall⟩ | ⟨hd, hne, hall⟩
        · exact ⟨by simp [startsNumber, hall d], fun e he => hall e (List.mem_cons_of_mem d he)⟩
        · refine ⟨?_, hall⟩
          obtain ⟨e, es, rfl⟩ := List.exists_cons_of_ne_nil hne
          obtain ⟨rest, rfl⟩ := hds
          have he : e.isDigit = true := hall e (by simp)
          have hd' : isSign d = true := hd
          simp [startsNumber, hd', hsign hd, he]
      rw [lexeme_number hstarts.1]
      exact ⟨Nat.succ_le_succ (length_le_takeWhile hstarts.2 hds), by simp [Lexeme.run]⟩

/-- A symbol has one character that starts no other kind of token, or two that are always read
together. -/
inductive IsSymbol : List Char → Prop
  | single {c : Char} (hc : Lexeme.symbolKind c ≠ .unknown) : IsSymbol [c]
  | double {c d : Char} (kind : Kind) (hkind : kind ≠ .unknown)
      (hread : ∀ signed rest, lexeme signed c (d :: rest) = ⟨kind, [c, d], rest⟩) : IsSymbol [c, d]

theorem isSymbol_operator (op : Operator) : IsSymbol op.symbol.toList := by
  cases op with
  | arithmetic op =>
      cases op with
      | add | multiply | subtract | and => exact .single (by decide)
      | shiftLeft => exact .double (.operator (.arithmetic .shiftLeft)) (by simp) fun _ _ => rfl
      | shiftRight => exact .double (.operator (.arithmetic .shiftRight)) (by simp) fun _ _ => rfl
  | comparison op =>
      cases op with
      | less | equal => exact .single (by decide)
      | lessEqual => exact .double (.operator (.comparison .lessEqual)) (by simp) fun _ _ => rfl
  | greater => exact .single (by decide)
  | greaterEqual => exact .double (.operator .greaterEqual) (by simp) fun _ _ => rfl

theorem longest_symbol {text : List Char} (h : IsSymbol text) (hfront : text <+: c :: cs) :
    text.length ≤ (lexeme signed c cs).text.length ∧ (lexeme signed c cs).kind ≠ .unknown := by
  cases h with
  | single hc =>
      obtain ⟨rfl, -⟩ := List.cons_prefix_cons.1 hfront
      refine ⟨List.length_pos_iff.2 (lexeme_text_ne_nil signed _ cs), ?_⟩
      generalize hfound : lexeme signed _ cs = found
      have h := hfound ▸ lexeme_found signed _ cs
      cases h with
      | word => exact wordKind_ne_unknown _
      | label | number => simp [Lexeme.run]
      | symbol =>
          unfold Lexeme.symbol
          split
          iterate 5 simp
          · exact hc
  | double kind hkind hread =>
      obtain ⟨rfl, rest, rfl⟩ := List.cons_prefix_cons.1 hfront
      rw [List.singleton_append, hread]
      exact ⟨Nat.le_refl 2, hkind⟩

theorem lexeme_longest {kind : Kind} {text : String} (hkind : kind ≠ .unknown)
    (hspells : kind.spells text = true)
    (hsign : kind = .integer → isSigned text.toList = true → signed = true)
    (hfront : text.toList <+: c :: cs) :
    text.toList.length ≤ (lexeme signed c cs).text.length ∧
      (lexeme signed c cs).kind ≠ .unknown := by
  cases kind with
  | keyword word =>
      obtain rfl : text = word.text := beq_iff_eq.1 hspells
      exact longest_word (by cases word <;> decide) hfront
  | identifier =>
      rw [Kind.spells, isVarName, Bool.and_eq_true] at hspells
      exact longest_word hspells.1 hfront
  | label => exact longest_label hspells hfront
  | integer => exact longest_number hspells (hsign rfl) hfront
  | openParen | closeParen | openBrace | closeBrace | comma =>
      obtain rfl := beq_iff_eq.1 hspells
      exact longest_symbol (.single (by decide)) hfront
  | arrow =>
      obtain rfl := beq_iff_eq.1 hspells
      exact longest_symbol (.double .arrow (by simp) fun _ _ => rfl) hfront
  | operator op =>
      obtain rfl := beq_iff_eq.1 hspells
      exact longest_symbol (isSymbol_operator op) hfront
  | unknown => exact absurd rfl hkind

end Longest

end L3Lowering
