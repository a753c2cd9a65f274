import L3Lowering.Proofs.Derivation
import L3Lowering.Proofs.JunctureTracking
import L3Lowering.Proofs.Layout

namespace L3Lowering

/-- Tokens with the readings are parsed, be they the tokens of a source or not. -/
def Accepted (readings : List (Kind × String)) : Prop :=
  ∃ tokens program, Program.ofTokens tokens = .ok program ∧ tokens.map Token.reading = readings

/-- The readings, with at least one more behind them, are those of a source that is parsed. -/
def Viable (readings : List (Kind × String)) : Prop :=
  ∃ (source : Source) (program : Program), source.parse = .ok program ∧
    ∃ more, more ≠ [] ∧ source.tokens.map Token.reading = readings ++ more

def Word.Spelled (word : Word) : Prop :=
  ∃ text, Spells Anywhere text [word]

namespace Word

theorem spelled_name {name : String} (h : isVarName name = true) : (Word.name name).Spelled :=
  ⟨name, fun _ _ _ hrest => ⟨_, wordsAfter_name h hrest⟩⟩

theorem spelled_label {name : String} (h : isLabelWord name = true) : (Word.label name).Spelled :=
  ⟨name, fun _ _ _ hrest => ⟨_, wordsAfter_label h hrest⟩⟩

theorem spelled_keyword (keyword : Keyword) : (Word.mark (.keyword keyword)).Spelled :=
  ⟨keyword.text, fun _ _ _ hrest => ⟨_, wordsAfter_keyword keyword hrest⟩⟩

theorem spelled_bracket {c : Char} (h : isBracket c = true) :
    (Word.mark (Lexeme.symbolKind c)).Spelled := by
  refine ⟨String.singleton c, fun _ rest _ _ => ⟨some (Lexeme.symbolKind c), ?_⟩⟩
  rw [String.toList_singleton]
  exact wordsAfter_bracket h

theorem spelled_arrow : (Word.mark .arrow).Spelled :=
  ⟨"<-", fun _ _ _ _ => ⟨_, wordsAfter_arrow⟩⟩

end Word

theorem spells_of_spelled {words : List Word} (h : ∀ word ∈ words, word.Spelled) :
    ∃ text, Spells Anywhere text words := by
  induction words with
  | nil => exact ⟨"", fun previous rest _ _ => ⟨previous, by simp⟩⟩
  | cons word words ih =>
      obtain ⟨first, hfirst⟩ := h word List.mem_cons_self
      obtain ⟨others, hothers⟩ := ih fun other hother => h other (List.mem_cons_of_mem word hother)
      refine ⟨first ++ " " ++ others, fun previous rest hprevious hrest => ?_⟩
      obtain ⟨middle, hword⟩ := hfirst previous (' ' :: (others.toList ++ rest)) hprevious
        (delimits_space _)
      obtain ⟨last, hwords⟩ := hothers middle rest trivial hrest
      refine ⟨last, ?_⟩
      have htext : (first ++ " " ++ others).toList ++ rest
          = first.toList ++ ' ' :: (others.toList ++ rest) := by
        simp
      rw [htext, hword, wordsAfter_blank (by decide), hwords]
      rfl

theorem Juncture.spelled_completion (place : Juncture) :
    ∀ word ∈ place.completion, word.Spelled := by
  have hdefine := Word.spelled_keyword .define
  have hname : (Word.name "x").Spelled := Word.spelled_name (by decide)
  have hlabel : (Word.label ":x").Spelled := Word.spelled_label (by decide)
  have hopenParen : (Word.mark .openParen).Spelled := Word.spelled_bracket (c := '(') (by decide)
  have hcloseParen : (Word.mark .closeParen).Spelled := Word.spelled_bracket (c := ')') (by decide)
  have hopenBrace : (Word.mark .openBrace).Spelled := Word.spelled_bracket (c := '\x7b') (by decide)
  have hcloseBrace : (Word.mark .closeBrace).Spelled :=
    Word.spelled_bracket (c := '\x7d') (by decide)
  have harrow := Word.spelled_arrow
  cases place <;>
    simp [completion, completion.emptyLists, hdefine, hname, hlabel, hopenParen, hcloseParen,
      hopenBrace, hcloseBrace, harrow]

theorem map_word_of_readings {ts us : List Token}
    (h : ts.map Token.reading = us.map Token.reading) : ts.map Token.word = us.map Token.word := by
  -- The word of a token is one of its reading.
  have hword : Token.word = (fun reading : Kind × String =>
      Token.word ⟨reading.1, reading.2, ⟨0, 0⟩⟩) ∘ Token.reading := rfl
  rw [hword, ← List.map_map, h, List.map_map]

theorem Cursor.readings_before {cursor : Cursor} {read rest : List Token}
    (h : cursor.tokens signUnlessOperand = read ++ rest) :
    ∃ last, ∀ more, readingsAfter cursor.previous
        ((read.flatMap fun token => token.text.toList ++ [' ']) ++ more)
      = read.map Token.reading ++ readingsAfter last more := by
  induction read generalizing cursor with
  | nil => exact ⟨cursor.previous, fun _ => rfl⟩
  | cons token read ih =>
      rw [tokens_eq] at h
      cases hnext : cursor.next? signUnlessOperand with
      | none => simp [hnext] at h
      | some found =>
          obtain ⟨first, after⟩ := found
          rw [hnext] at h
          obtain ⟨rfl, htokens⟩ := List.cons.inj h
          obtain ⟨last, hread⟩ := ih htokens
          refine ⟨last, fun more => ?_⟩
          rw [List.flatMap_cons, List.append_assoc, List.append_assoc, List.singleton_append,
            readings_next hnext (.inr ⟨_, rfl⟩), readingsAfter_space, hread]
          rfl

namespace Source

variable {source : Source} {read rest : List Token}

theorem extend {words : List Word} (htokens : source.tokens = read ++ rest)
    (hwords : ∀ word ∈ words, word.Spelled) :
    ∃ (other : Source) (again added : List Token), other.tokens = again ++ added ∧
      again.map Token.reading = read.map Token.reading ∧ added.map Token.word = words := by
  obtain ⟨last, hread⟩ := Cursor.readings_before htokens
  obtain ⟨text, hspells⟩ := spells_of_spelled hwords
  let other : Source := ofString (String.ofList
    ((read.flatMap fun token => token.text.toList ++ [' ']) ++ text.toList))
  have hreadings : other.tokens.map Token.reading
      = read.map Token.reading ++ readingsAfter last text.toList := by
    rw [← hread]
    simp only [readingsAfter, tokens, tokensWith, chars, other, ofString, String.toList_ofList]
    rfl
  obtain ⟨again, added, hsplit, hagain, hadded⟩ := List.map_eq_append_iff.1 hreadings
  refine ⟨other, again, added, hsplit, hagain, ?_⟩
  obtain ⟨after, hspelled⟩ := hspells last [] trivial rfl
  rw [List.append_nil, wordsAfter_nil, List.append_nil] at hspelled
  rw [← hspelled]
  exact map_word_of_readings hadded

end Source

theorem mem_labelsInCalls {inside : Bool} {tokens : List Token} {token : Token}
    (h : token ∈ labelsInCalls inside tokens) : token ∈ tokens ∧ token.kind = .label := by
  induction tokens generalizing inside with
  | nil => simp [labelsInCalls] at h
  | cons first tokens ih =>
      rw [labelsInCalls, List.mem_append] at h
      rcases h with hfirst | hothers
      · split at hfirst
        · rename_i hlabel
          obtain rfl := List.mem_singleton.1 hfirst
          rw [Bool.and_eq_true, decide_eq_true_eq] at hlabel
          exact ⟨List.mem_cons_self, hlabel.2⟩
        · simp at hfirst
      · obtain ⟨hmem, hkind⟩ := ih hothers
        exact ⟨List.mem_cons_of_mem first hmem, hkind⟩

theorem Phrase.Derives.isLabelWord_calls {xs : List Phrase.Function} {source : Source}
    (h : Derives xs source.tokens) (hrange : function.many.InRange xs) :
    ∀ name ∈ function.many.calls xs, isLabelWord name = true := by
  intro name hname
  rw [← (h.parse (h.inRange_iff.1 hrange)).1] at hname
  obtain ⟨token, htoken, rfl⟩ := List.mem_map.1 hname
  obtain ⟨hmem, hkind⟩ := mem_labelsInCalls htoken
  have hnamed := wellNamed_wordsAfter none source.chars token.word (List.mem_map_of_mem hmem)
  simpa [Token.word, hkind, Word.wellNamed] using hnamed

def Phrase.Function.blank (name : String) : Phrase.Function :=
  ⟨name, [], []⟩

namespace Phrase

theorem spelled_blank {names : List String} (h : ∀ name ∈ names, isLabelWord name = true) :
    ∀ word ∈ function.many.words (names.map Function.blank), word.Spelled := by
  intro word hword
  obtain ⟨x, hx, hword⟩ := List.mem_flatMap.1 hword
  obtain ⟨name, hname, rfl⟩ := List.mem_map.1 hx
  rcases List.mem_cons.1 hword with rfl | hword
  · exact Word.spelled_keyword .define
  · rcases List.mem_cons.1 hword with rfl | hword
    · exact Word.spelled_label (h name hname)
    · exact Juncture.spelled_completion .parameters word hword

theorem calls_blank (names : List String) :
    function.many.calls (names.map Function.blank) = [] := by
  apply List.flatMap_eq_nil_iff.2
  intro x hx
  obtain ⟨name, -, rfl⟩ := List.mem_map.1 hx
  rfl

/-- Functions are a program together with functions for all labels in their calls. -/
theorem ofTokens_with_blank {xs : List Function} {tokens : List Token} (hne : xs ≠ [])
    (hrange : function.many.InRange xs)
    (hwords : tokens.map Token.word = function.many.words xs
      ++ function.many.words ((function.many.calls xs).map Function.blank)) :
    ∃ program, Program.ofTokens tokens = .ok program := by
  let blanks := (function.many.calls xs).map Function.blank
  have hranges : function.many.InRange (xs ++ blanks) := by
    intro x hx
    rcases List.mem_append.1 hx with hx | hx
    · exact hrange x hx
    · obtain ⟨name, -, rfl⟩ := List.mem_map.1 hx
      exact fun _ hi => absurd hi List.not_mem_nil
  have hcalls : function.many.calls (xs ++ blanks) = function.many.calls xs := by
    refine List.flatMap_append.trans ?_
    exact (congrArg (function.many.calls xs ++ ·) (calls_blank _)).trans (List.append_nil _)
  have hnames : ∀ name ∈ function.many.calls (xs ++ blanks),
      name ∈ (Program.mk (function.many.build 0 (xs ++ blanks))).functionNames := by
    intro name hname
    rw [functionNames_build, List.map_append]
    refine List.mem_append_right _ (List.mem_map.2 ⟨.blank name, ?_, rfl⟩)
    exact List.mem_map_of_mem (hcalls ▸ hname)
  exact ⟨_, Program.ofTokens_eq_ok (List.append_ne_nil_of_left_ne_nil hne blanks) hranges
    (hwords.trans List.flatMap_append.symm) hnames⟩

end Phrase

theorem Juncture.watch_of_readings {ts us : List Token} (place : Juncture)
    (h : ts.map Token.reading = us.map Token.reading) : place.watch ts = place.watch us := by
  rw [watch, watch, map_word_of_readings h]

theorem Program.watch_of_ofTokens {tokens : List Token} {program : Program}
    (h : ofTokens tokens = .ok program) : Juncture.start.watch tokens = some true := by
  rw [← Parser.program_ok_iff ⟨tokens, 0, []⟩]
  unfold ofTokens at h
  split at h
  · simp at h
  · rename_i parsed s hparse
    exact ⟨_, hparse⟩

theorem Accepted.not_prefix {readings : List (Kind × String)} {tokens : List Token}
    (h : Accepted readings) (hwatch : Juncture.start.watch tokens = none) :
    ¬ tokens.map Token.reading <+: readings := by
  obtain ⟨others, program, hprogram, rfl⟩ := h
  rintro ⟨more, hmore⟩
  obtain ⟨again, added, rfl, hagain, -⟩ := List.map_eq_append_iff.1 hmore.symm
  have hdone := Program.watch_of_ofTokens hprogram
  rw [← Juncture.watch_of_readings .start hagain] at hwatch
  simp [Juncture.watch_append_eq_none hwatch added] at hdone

theorem not_accepted_of_watch {tokens : List Token}
    (hwatch : Juncture.start.watch tokens = some false) :
    ¬ Accepted (tokens.map Token.reading) := by
  rintro ⟨others, program, hprogram, hreadings⟩
  have hdone := Program.watch_of_ofTokens hprogram
  simp [Juncture.watch_of_readings .start hreadings, hwatch] at hdone

namespace Source

variable {source : Source} {read rest : List Token}

/-- Tokens that lead to a juncture and the completion of the juncture are functions, which may call
functions that are not among them. -/
theorem functions_of_watch (htokens : source.tokens = read ++ rest)
    (hread : (Juncture.start.watch read).isSome = true) :
    ∃ (place : Juncture) (xs : List Phrase.Function), xs ≠ [] ∧ Phrase.function.many.InRange xs ∧
      Phrase.function.many.words xs = read.map Token.word ++ place.completion ∧
      ∀ name ∈ Phrase.function.many.calls xs, isLabelWord name = true := by
  rw [Juncture.watch, Option.isSome_map] at hread
  obtain ⟨place, hplace⟩ := Option.isSome_iff_exists.1 hread
  obtain ⟨other, again, added, hsplit, hagain, hadded⟩ := extend htokens place.spelled_completion
  have hwords : other.tokens.map Token.word = read.map Token.word ++ place.completion := by
    rw [hsplit, List.map_append, map_word_of_readings hagain, hadded]
  have hwatch : Juncture.start.watch other.tokens = some true := by
    rw [Juncture.watch, hwords, Juncture.run_append, hplace, Option.bind_some, place.run_completion]
    rfl
  obtain ⟨⟨program, s⟩, hprogram⟩ := (Parser.program_ok_iff ⟨other.tokens, 0, []⟩).2 hwatch
  obtain ⟨xs, hne, hrange, -, hend, took⟩ := Parser.program_yields _ _ _ hprogram
  have hderives : Phrase.Derives xs other.tokens := by
    refine ⟨hne, ?_⟩
    have hall := took.words
    rwa [hend, List.append_nil] at hall
  exact ⟨place, xs, hne, hrange, hderives.words.symm.trans hwords,
    hderives.isLabelWord_calls hrange⟩

theorem viable_of_watch (htokens : source.tokens = read ++ rest)
    (hread : (Juncture.start.watch read).isSome = true) : Viable (read.map Token.reading) := by
  obtain ⟨place, xs, hne, hrange, hxs, hcalls⟩ := functions_of_watch htokens hread
  -- What is read may call functions that it does not define, so all of them are defined behind it.
  let blanks := (Phrase.function.many.calls xs).map Phrase.Function.blank
  have hspelled : ∀ word ∈ place.completion ++ Phrase.function.many.words blanks,
      word.Spelled := by
    intro word hword
    rcases List.mem_append.1 hword with hword | hword
    · exact place.spelled_completion word hword
    · exact Phrase.spelled_blank hcalls word hword
  obtain ⟨other, again, more, hsplit, hagain, hmore⟩ := extend htokens hspelled
  have hwords : other.tokens.map Token.word
      = Phrase.function.many.words xs ++ Phrase.function.many.words blanks := by
    rw [hsplit, List.map_append, map_word_of_readings hagain, hmore, hxs, List.append_assoc]
  obtain ⟨program, hparse⟩ := Phrase.ofTokens_with_blank hne hrange hwords
  refine ⟨other, program, hparse, more.map Token.reading, ?_, ?_⟩
  · rw [Ne, List.map_eq_nil_iff]
    rintro rfl
    exact place.completion_ne_nil (List.append_eq_nil_iff.1 hmore.symm).1
  · rw [hsplit, List.map_append, hagain]

end Source

namespace Source

variable {source : Source}

theorem eq_of_span {i j : Nat} {t u : Token} (hi : source.tokens[i]? = some t)
    (hj : source.tokens[j]? = some u) (hspan : t.span = u.span) : i = j := by
  have hdistinct : ∀ {i j : Nat} {t u : Token}, source.tokens[i]? = some t →
      source.tokens[j]? = some u → i < j → t.span ≠ u.span := by
    intro i j t u hi hj hlt hspan
    obtain ⟨hi', rfl⟩ := List.getElem?_eq_some_iff.1 hi
    obtain ⟨hj', rfl⟩ := List.getElem?_eq_some_iff.1 hj
    have hstop := List.pairwise_iff_getElem.1 source.lexed.pairwise i j hi' hj' hlt
    have hstart := source.lexed.start_lt_stop (List.getElem_mem hi')
    rw [hspan] at hstop hstart
    omega
  rcases Nat.lt_trichotomy i j with hlt | heq | hgt
  · exact absurd hspan (hdistinct hi hj hlt)
  · exact heq
  · exact absurd hspan.symm (hdistinct hj hi hgt)

theorem span_ne_endSpan {token : Token} (h : token ∈ source.tokens) :
    token.span ≠ source.endSpan := by
  intro hspan
  have hlt := source.lexed.start_lt_stop h
  rw [hspan] at hlt
  exact absurd hlt (Nat.lt_irrefl _)

theorem program_of_parse_error {cause : ParseError} (h : source.parse = .error cause)
    (hcause : ∀ label, cause ≠ .unknownFunction label) :
    Parser.program ⟨source.tokens, 0, []⟩ = .error cause := by
  unfold parse Program.ofTokens at h
  split at h
  · rename_i e hprogram
    rw [hprogram, Except.error.inj h]
  · split at h
    · exact absurd (Except.error.inj h).symm (hcause _)
    · simp at h

/-- A source that fails before its labels in calls are looked at fails at the earliest token: what
comes before it is the beginning of a source that is parsed, and nothing that is parsed starts with
it too. If the failure is at the end, the tokens are not parsed, but are the beginning of
a source that is, with more tokens behind them. -/
theorem error_at_earliest_token (source : Source) (cause : ParseError)
    (h : Parser.program ⟨source.tokens, 0, []⟩ = .error cause) :
    source.parse = .error cause ∧
    (cause.span source = source.endSpan ∨
      ∃ token ∈ source.tokens, cause.span source = token.span) ∧
    (∀ (k : Nat) (token : Token), source.tokens[k]? = some token →
      cause.span source = token.span →
      Viable ((source.tokens.take k).map Token.reading) ∧
      ∀ readings, Accepted readings →
        ¬ (source.tokens.take (k + 1)).map Token.reading <+: readings) ∧
    (cause.span source = source.endSpan →
      ¬ Accepted (source.tokens.map Token.reading) ∧
      Viable (source.tokens.map Token.reading)) := by
  have hparse : source.parse = .error cause := by
    rw [parse, Program.ofTokens, h]
  refine ⟨hparse, span_of_parse_error hparse, ?_⟩
  have hspan := cause.span_eq source
  have hstops : Juncture.start.Stops source.tokens cause.token? := Parser.program_stops h
  generalize cause.token? = stop at hspan hstops
  cases hstops with
  | atEnd hend =>
      refine ⟨?_, fun _ => ⟨not_accepted_of_watch hend, ?_⟩⟩
      · intro k token hk htoken
        exact absurd (htoken.symm.trans hspan) (span_ne_endSpan (List.mem_of_getElem? hk))
      · exact viable_of_watch (List.append_nil _).symm (by rw [hend]; rfl)
  | @atToken read rest token htokens hread htoken =>
      have hplace : source.tokens[read.length]? = some token := by
        simp [htokens]
      constructor
      · intro k other hk hother
        -- No two tokens share a span, so the place is the one where the walk stops.
        obtain rfl : k = read.length := eq_of_span hk hplace (hother.symm.trans hspan)
        have hbefore : source.tokens.take read.length = read := by
          simp [htokens]
        have hupto : source.tokens.take (read.length + 1) = read ++ [token] := by
          rw [htokens, List.take_length_add_append]
          rfl
        rw [hbefore, hupto]
        exact ⟨viable_of_watch htokens hread, fun _ haccepted => haccepted.not_prefix htoken⟩
      · intro hend
        exact absurd (hspan.symm.trans hend) (span_ne_endSpan (List.mem_of_getElem? hplace))

/-- A literal that is too large after a call of a function that is nowhere defined, and a `return`
whose variable turns out to be the target of an assignment that has no right hand side. -/
theorem error_at_earliest_token_samples :
    let large := Source.ofString
      "define :f(x) \x7b call :g(x) return 9223372036854775808 \x7d"
    let short := Source.ofString "define :f(x) \x7b call :g(x) return x <-"
    let literal : Token := ⟨.integer, "9223372036854775808", ⟨33, 52⟩⟩
    (Parser.program ⟨large.tokens, 0, []⟩ = .error (.literalRange literal) ∧
      Viable ((large.tokens.take 12).map Token.reading) ∧
      ∀ readings, Accepted readings →
        ¬ (large.tokens.take 13).map Token.reading <+: readings) ∧
    Parser.program ⟨short.tokens, 0, []⟩ = .error (.atEnd .rightHandSide) ∧
      ¬ Accepted (short.tokens.map Token.reading) ∧ Viable (short.tokens.map Token.reading) := by
  intro large short literal
  have hlarge : large.parse = .error (.literalRange literal) := by
    decide +kernel
  have hshort : short.parse = .error (.atEnd .rightHandSide) := by
    decide +kernel
  have hlarge := program_of_parse_error hlarge (by simp)
  have hshort := program_of_parse_error hshort (by simp)
  have hplace : large.tokens[12]? = some literal := by
    decide +kernel
  exact ⟨⟨hlarge, (error_at_earliest_token large _ hlarge).2.2.1 12 literal hplace rfl⟩,
    hshort, (error_at_earliest_token short _ hshort).2.2.2 rfl⟩

end Source

end L3Lowering
