import L3Lowering.Proofs.LongestLexeme
import L3Lowering.Token.Lexer

namespace L3Lowering

open Text

/-- Blanks and comments before a rest. A comment runs up to a line feed or the end of the text. -/
inductive IsGap : List Char → List Char → Prop
  | nil {rest : List Char} : IsGap [] rest
  | blank {c : Char} {gap rest : List Char} (hc : isBlank c = true) (hgap : IsGap gap rest) :
      IsGap (c :: gap) rest
  | comment {body gap rest : List Char} (hbody : '\n' ∉ body)
      (hend : (gap ++ rest).head? = none ∨ (gap ++ rest).head? = some '\n')
      (hgap : IsGap gap rest) : IsGap ('/' :: '/' :: (body ++ gap)) rest

def EndsOperand (previous : Option Kind) : Prop :=
  previous = some .identifier ∨ previous = some .integer ∨ previous = some .closeParen

/-- A token that is read after a token of kind `previous` and before `rest`. -/
structure Token.ReadAt (previous : Option Kind) (token : Token) (rest : List Char) : Prop where
  spelled : token.kind.spells token.text = true
  solid : ∀ c cs, token.text.toList ++ rest = c :: cs →
    isBlank c = false ∧ ¬ (c = '/' ∧ cs.head? = some '/')
  sign : ∀ c cs, token.text.toList = c :: cs → isSign c = true →
    (token.kind = .integer ↔ (cs ++ rest).head?.any Char.isDigit = true ∧ ¬ EndsOperand previous)
  ends : rest.head?.any token.kind.growsWith = false
  /-- Other tokens that could be read here are not longer, and an unknown character is read only
  where there are none. -/
  longest : ∀ (kind : Kind) (text : String), kind ≠ .unknown → kind.spells text = true →
    (kind = .integer → isSigned text.toList = true → ¬ EndsOperand previous) →
    text.toList <+: token.text.toList ++ rest →
    text.toList.length ≤ token.text.toList.length ∧ token.kind ≠ .unknown

/-- The text from an offset on consists of the tokens, in order, with gaps around them. -/
inductive Lexed : Nat → Option Kind → List Char → List Token → Prop
  | nil {offset : Nat} {previous : Option Kind} {gap : List Char} (hgap : IsGap gap []) :
      Lexed offset previous gap []
  | cons {offset : Nat} {previous : Option Kind} {gap rest : List Char} {token : Token}
      {tokens : List Token} (hgap : IsGap gap (token.text.toList ++ rest))
      (hstart : token.span.start = offset + byteSize gap)
      (hstop : token.span.stop = token.span.start + byteSize token.text.toList)
      (hread : token.ReadAt previous rest)
      (htokens : Lexed token.span.stop (some token.kind) rest tokens) :
      Lexed offset previous (gap ++ (token.text.toList ++ rest)) (token :: tokens)

theorem isGap_splitGap (comment : Bool) (cs : List Char) :
    if comment then
      ∃ body gap, (splitGap comment cs).1 = body ++ gap ∧ '\n' ∉ body ∧
        ((gap ++ (splitGap comment cs).2).head? = none ∨
          (gap ++ (splitGap comment cs).2).head? = some '\n') ∧
        IsGap gap (splitGap comment cs).2
    else IsGap (splitGap comment cs).1 (splitGap comment cs).2 := by
  fun_induction splitGap comment cs with
  | case1 comment =>
      cases comment with
      | false => exact .nil
      | true => exact ⟨[], [], rfl, by simp, .inl rfl, .nil⟩
  | case2 c cs gap rest heq ih =>
      by_cases hc : c = '\n'
      · subst hc
        rw [heq] at ih
        exact ⟨[], '\n' :: gap, rfl, by simp, .inr rfl, .blank (by decide) ih⟩
      · have hopen : (c != '\n') = true := by simpa using hc
        rw [heq, hopen] at ih
        obtain ⟨body, after, rfl, hbody, hend, hgap⟩ := ih
        refine ⟨c :: body, after, rfl, ?_, hend, hgap⟩
        simpa [hbody] using Ne.symm hc
  | case3 cs gap rest heq ih =>
      rw [heq] at ih
      obtain ⟨body, after, rfl, hbody, hend, hgap⟩ := ih
      exact .comment hbody hend hgap
  | case4 c cs hcomment hblank gap rest heq ih =>
      rw [heq] at ih
      exact .blank hblank ih
  | case5 => exact .nil

theorem solid_splitGap {comment : Bool} {cs rest : List Char} {c : Char}
    (h : (splitGap comment cs).2 = c :: rest) :
    isBlank c = false ∧ ¬ (c = '/' ∧ rest.head? = some '/') := by
  fun_induction splitGap comment cs with
  | case1 => simp at h
  | case2 _ _ _ _ heq ih | case3 _ _ _ heq ih | case4 _ _ _ _ _ _ heq ih =>
      apply ih
      rw [heq]
      exact h
  | case5 d ds hcomment hblank =>
      obtain ⟨rfl, rfl⟩ := List.cons.inj h
      refine ⟨by simpa using hblank, ?_⟩
      rintro ⟨rfl, hhead⟩
      obtain ⟨tail, rfl⟩ := List.head?_eq_some_iff.1 hhead
      exact hcomment tail rfl rfl

theorem signUnlessOperand_eq_true_iff {previous : Option Kind} :
    signUnlessOperand previous = true ↔ ¬ EndsOperand previous := by
  unfold signUnlessOperand EndsOperand
  split <;> simp_all

theorem readAt_lexeme (previous : Option Kind) {c : Char} {cs : List Char}
    (hsolid : isBlank c = false ∧ ¬ (c = '/' ∧ cs.head? = some '/')) (span : Span) :
    let found := lexeme (signUnlessOperand previous) c cs
    Token.ReadAt previous ⟨found.kind, String.ofList found.text, span⟩ found.rest := by
  intro found
  have hcases : Lexeme.Found _ c cs found := lexeme_found (signUnlessOperand previous) c cs
  have htext : found.text ++ found.rest = c :: cs := lexeme_append _ c cs
  constructor
  · exact hcases.spells
  · intro d ds hd
    rw [String.toList_ofList, htext] at hd
    obtain ⟨rfl, rfl⟩ := List.cons.inj hd
    exact hsolid
  · intro d ds hd hsign
    rw [String.toList_ofList] at hd
    rw [hd, List.cons_append] at htext
    obtain ⟨rfl, hcs⟩ := List.cons.inj htext
    rw [hcs, ← signUnlessOperand_eq_true_iff]
    exact hcases.sign hsign
  · exact hcases.ends
  · intro kind text hkind hspells hsigned hfront
    rw [String.toList_ofList, htext] at hfront
    rw [String.toList_ofList]
    apply lexeme_longest hkind hspells _ hfront
    intro hinteger hsign
    exact signUnlessOperand_eq_true_iff.2 (hsigned hinteger hsign)

theorem Cursor.read_next? {cursor after : Cursor} {token : Token}
    (h : cursor.next? signUnlessOperand = some (token, after)) :
    ∃ gap, cursor.rest = gap ++ (token.text.toList ++ after.rest) ∧
      IsGap gap (token.text.toList ++ after.rest) ∧
      token.span.start = cursor.offset + byteSize gap ∧
      token.span.stop = token.span.start + byteSize token.text.toList ∧
      token.ReadAt cursor.previous after.rest ∧
      after.offset = token.span.stop ∧ after.previous = some token.kind := by
  have hgap : IsGap (splitGap false cursor.rest).1 (splitGap false cursor.rest).2 :=
    isGap_splitGap false cursor.rest
  have happend := splitGap_append false cursor.rest
  unfold next? at h
  split at h
  · simp at h
  · rename_i gap c cs heq
    obtain ⟨rfl, rfl⟩ := Prod.mk.inj (Option.some.inj h)
    have htext := lexeme_append (signUnlessOperand cursor.previous) c cs
    have hsolid := solid_splitGap (congrArg Prod.snd heq)
    rw [heq] at hgap happend
    refine ⟨gap, ?_, ?_, rfl, ?_, readAt_lexeme cursor.previous hsolid _, rfl, rfl⟩
    · rw [String.toList_ofList, htext, happend]
    · rw [String.toList_ofList, htext]
      exact hgap
    · rw [String.toList_ofList]

theorem Cursor.lexed (cursor : Cursor) :
    Lexed cursor.offset cursor.previous cursor.rest (cursor.tokens signUnlessOperand) := by
  fun_induction Cursor.tokens signUnlessOperand cursor with
  | case1 cursor hnone =>
      have hgap : IsGap (splitGap false cursor.rest).1 (splitGap false cursor.rest).2 :=
        isGap_splitGap false cursor.rest
      have happend := splitGap_append false cursor.rest
      unfold next? at hnone
      split at hnone
      · rename_i gap heq
        rw [heq] at hgap happend
        rw [← happend, List.append_nil]
        exact .nil hgap
      · simp at hnone
  | case2 cursor token after hnext _ ih =>
      obtain ⟨gap, hrest, hgap, hstart, hstop, hread, hoffset, hprevious⟩ := read_next? hnext
      rw [hrest]
      rw [hoffset, hprevious] at ih
      exact .cons hgap hstart hstop hread ih

structure Source.Spanned (source : Source) (span : Span) : Prop where
  ordered : span.start ≤ span.stop
  within : span.stop ≤ source.byteLength
  start : (cut? span.start source.chars).isSome = true
  stop : (cut? span.stop source.chars).isSome = true

theorem byteSize_pos {cs : List Char} (h : cs ≠ []) : 0 < byteSize cs := by
  obtain ⟨c, ds, rfl⟩ := List.exists_cons_of_ne_nil h
  have hpos := c.utf8Size_pos
  rw [byteSize_cons]
  omega

theorem Kind.ne_nil_of_spells {kind : Kind} {text : String} (h : kind.spells text = true) :
    text.toList ≠ [] := by
  intro hnil
  obtain rfl := String.toList_eq_nil_iff.1 hnil
  cases kind with
  | keyword word => cases word <;> exact absurd h (by decide)
  | operator op =>
      rcases op with (_ | _) | (_ | _) | _ | _ <;> exact absurd h (by decide)
  | _ => exact absurd h (by decide)

namespace Lexed

variable {offset : Nat} {previous : Option Kind} {cs : List Char} {tokens : List Token}
  {token : Token}

theorem start_lt_stop (h : Lexed offset previous cs tokens) (htoken : token ∈ tokens) :
    token.span.start < token.span.stop := by
  induction h with
  | nil => simp at htoken
  | cons hgap hstart hstop hread _ ih =>
      rcases List.mem_cons.1 htoken with rfl | htoken
      · have hpos := byteSize_pos (Kind.ne_nil_of_spells hread.spelled)
        omega
      · exact ih htoken

theorem offset_le_start (h : Lexed offset previous cs tokens) (htoken : token ∈ tokens) :
    offset ≤ token.span.start := by
  induction h with
  | nil => simp at htoken
  | cons hgap hstart hstop hread _ ih =>
      rcases List.mem_cons.1 htoken with rfl | htoken
      · omega
      · have := ih htoken
        omega

theorem pairwise (h : Lexed offset previous cs tokens) :
    tokens.Pairwise fun a b => a.span.stop ≤ b.span.start := by
  induction h with
  | nil => exact .nil
  | cons _ _ _ _ htokens ih => exact .cons (fun b hb => htokens.offset_le_start hb) ih

theorem split (h : Lexed offset previous cs tokens) (htoken : token ∈ tokens) :
    ∃ before after, cs = before ++ (token.text.toList ++ after) ∧
      token.span.start = offset + byteSize before ∧
      token.span.stop = token.span.start + byteSize token.text.toList := by
  induction h with
  | nil => simp at htoken
  | @cons offset previous gap rest first tokens hgap hstart hstop hread _ ih =>
      rcases List.mem_cons.1 htoken with rfl | htoken
      · exact ⟨gap, rest, rfl, hstart, hstop⟩
      · obtain ⟨before, after, rfl, hstart', hstop'⟩ := ih htoken
        refine ⟨gap ++ (first.text.toList ++ before), after, by simp, ?_, hstop'⟩
        simp only [byteSize_append]
        omega

end Lexed

theorem slice?_byteSize (before text after : List Char) :
    slice? (byteSize before) (byteSize before + byteSize text) (before ++ (text ++ after))
      = some text := by
  rw [slice?, if_pos (Nat.le_add_right _ _), ← byteSize_append, ← List.append_assoc, cut?_byteSize,
    Option.bind_some, cut?_byteSize]
  rfl

namespace Source

variable {source : Source}

theorem lexed (source : Source) : Lexed 0 none source.chars source.tokens :=
  (Cursor.start source.chars).lexed

theorem spanned_append {before text after : List Char}
    (h : source.chars = before ++ (text ++ after)) :
    source.Spanned ⟨byteSize before, byteSize before + byteSize text⟩ := by
  have hstop := cut?_byteSize (before ++ text) after
  rw [byteSize_append, List.append_assoc, ← h] at hstop
  constructor
  · exact Nat.le_add_right _ _
  · rw [byteLength, h, byteSize_append, byteSize_append]
    exact Nat.add_le_add_left (Nat.le_add_right _ _) _
  · rw [h, cut?_byteSize]
    rfl
  · rw [hstop]
    rfl

theorem split_token {token : Token} (h : token ∈ source.tokens) :
    ∃ before after, source.chars = before ++ (token.text.toList ++ after) ∧
      token.span = ⟨byteSize before, byteSize before + byteSize token.text.toList⟩ := by
  obtain ⟨before, after, hchars, hstart, hstop⟩ := source.lexed.split h
  refine ⟨before, after, hchars, ?_⟩
  rw [Nat.zero_add] at hstart
  rw [← hstart, ← hstop]

theorem spanned_token {token : Token} (h : token ∈ source.tokens) :
    source.Spanned token.span ∧ source.valueOf? token.span = some token.text := by
  obtain ⟨before, after, hchars, hspan⟩ := split_token h
  rw [hspan]
  refine ⟨spanned_append hchars, ?_⟩
  rw [valueOf?, hchars, slice?_byteSize, Option.map_some, String.ofList_toList]

end Source

inductive Lexer.Takes : Lexer → List Token → Prop
  | nil {lexer : Lexer} (h : lexer.next.1 = none) : Takes lexer []
  | cons {lexer after : Lexer} {token : Token} {tokens : List Token}
      (h : lexer.next = (some token, after)) (htokens : Takes after tokens) :
      Takes lexer (token :: tokens)

theorem Lexer.takes_tokens (cursor : Cursor) :
    Takes ⟨cursor, []⟩ (cursor.tokens signUnlessOperand) := by
  fun_induction Cursor.tokens signUnlessOperand cursor with
  | case1 cursor hnone => exact .nil (by simp [next, hnone])
  | case2 cursor token after hnext _ ih => exact .cons (by simp [next, hnext]) ih

/-- The tokens that are taken from a source have spans in order, between characters and not empty,
and partition the source. -/
theorem Source.tokens_partition (source : Source) :
    (Lexer.ofSource source).Takes source.tokens ∧
      (∀ token ∈ source.tokens, token.span.start < token.span.stop ∧
        source.Spanned token.span ∧ source.valueOf? token.span = some token.text) ∧
      source.tokens.Pairwise (fun a b => a.span.stop ≤ b.span.start) ∧
      Lexed 0 none source.chars source.tokens :=
  ⟨Lexer.takes_tokens _,
    fun _ htoken => ⟨source.lexed.start_lt_stop htoken, spanned_token htoken⟩,
    source.lexed.pairwise, source.lexed⟩

/-- A minus after a number, across a comment, and a character of two bytes that starts no token. -/
theorem Source.tokens_partition_minus :
    ⟨.operator (.arithmetic .subtract), "-", ⟨9, 10⟩⟩ ∈ (Source.ofString "-1 // é\n-1é").tokens ∧
      ⟨.unknown, "é", ⟨11, 13⟩⟩ ∈ (Source.ofString "-1 // é\n-1é").tokens ∧
      (Source.ofString "-1 // é\n-1é").Spanned ⟨11, 13⟩ := by
  have hminus : (⟨.operator (.arithmetic .subtract), "-", ⟨9, 10⟩⟩ : Token)
      ∈ (Source.ofString "-1 // é\n-1é").tokens := by
    decide +kernel
  have hunknown : (⟨.unknown, "é", ⟨11, 13⟩⟩ : Token)
      ∈ (Source.ofString "-1 // é\n-1é").tokens := by
    decide +kernel
  exact ⟨hminus, hunknown, ((tokens_partition _).2.1 _ hunknown).2.1⟩

end L3Lowering
