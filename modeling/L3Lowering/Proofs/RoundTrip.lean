import L3Lowering.Proofs.PrintedInstructions
import L3Lowering.Proofs.ProgramParsing

namespace L3Lowering

theorem words_body {body : List Instruction} {xs : List Phrase.Instruction}
    (h : List.Forall₂ WritesInstruction body xs) (previous : Option Kind) (rest : List Char) :
    wordsAfter previous
        ((body.flatMap fun i => '\t' :: (i.text.toList ++ ['\n'])) ++ '\x7d' :: rest)
      = Phrase.instruction.many.words xs ++ .mark .closeBrace ::
        wordsAfter (some .closeBrace) rest := by
  induction h generalizing previous with
  | nil => exact wordsAfter_bracket (by decide)
  | @cons i x is xs hx _ ih =>
      obtain ⟨last, hwords⟩ := hx.spells previous
        ('\n' :: ((is.flatMap fun i => '\t' :: (i.text.toList ++ ['\n'])) ++ '\x7d' :: rest))
        trivial rfl
      have htext : ((i :: is).flatMap fun i => '\t' :: (i.text.toList ++ ['\n']))
          ++ '\x7d' :: rest = '\t' :: (i.text.toList ++ '\n' ::
            ((is.flatMap fun i => '\t' :: (i.text.toList ++ ['\n'])) ++ '\x7d' :: rest)) := by
        simp
      rw [htext, wordsAfter_blank (by decide), hwords, wordsAfter_blank (by decide), ih,
        Phrase.Category.words_many_cons, List.append_assoc]

theorem Phrase.filter_words_function (x : Function) :
    (function.words x).filter Word.isLeaf
      = .label x.name :: ((parameter.enclosed.words x.parameters).filter Word.isLeaf
        ++ (instruction.many.words x.body).filter Word.isLeaf) := by
  simp only [function, List.filter_append, List.filter_cons, Word.isLeaf, Word.kind, Kind.isLeaf]
  simp

theorem writes_function {f : Function} (h : ∀ i ∈ f.body, i.isGrammatical = true)
    (hnames : ∀ node ∈ f.nodes, node.isNamed = true) :
    ∃ x, WritesFunction f x ∧ List.Forall₂ WritesInstruction f.body x.body := by
  have hname : isLabelWord f.name.name = true := hnames (.label f.name) List.mem_cons_self
  have hparameters : ∀ v ∈ f.parameters, ∃ x,
      Writes Phrase.parameter Var.withoutId BeforeValue Var.text (fun v => [.var v]) v x := by
    intro v hv
    refine writes_var (hnames (.var v) ?_)
    exact List.mem_cons_of_mem _ (List.mem_append_left _ (List.mem_map_of_mem hv))
  have hbody : ∀ i ∈ f.body, ∃ x, WritesInstruction i x := by
    intro i hi
    refine writes_instruction (h i hi) fun node hnode => hnames node ?_
    exact List.mem_cons_of_mem _ (List.mem_append_right _ (List.mem_flatMap.2 ⟨i, hi, hnode⟩))
  obtain ⟨ps, hps⟩ := writes_list hparameters
  obtain ⟨xs, hxs⟩ := writes_list hbody
  refine ⟨⟨f.name.name, ps, xs⟩, ⟨inRange_many hxs, fun id => ?_, ?_, ?_⟩, hxs⟩
  · exact congrArg₂ (Function.mk ⟨0, f.name.name⟩) (build_many hps _) (build_many hxs _)
  · have hleaf : Node.word? (.label f.name) = some (.label f.name.name) := rfl
    rw [Phrase.filter_words_function, order_enclosed hps, order_many hxs, ← List.map_eq_flatMap,
      Function.nodes, List.filterMap_cons_some hleaf, List.filterMap_append]
    rfl
  · intro previous rest _ _
    have htext : f.text.toList ++ rest = Keyword.define.text.toList ++ ' ' :: (f.name.name.toList ++
        ('(' :: (", ".intercalate (f.parameters.map Var.text)).toList ++ ')' :: ' ' :: '\x7b' ::
          '\n' :: ((f.body.flatMap fun i => '\t' :: (i.text.toList ++ ['\n']))
            ++ '\x7d' :: '\n' :: rest))) := by
      simp [Function.text, Label.text, Keyword.text, String.toList_join, List.flatMap_map]
    have hopen : Lexeme.symbolKind '\x7b' = .openBrace := rfl
    rw [htext, wordsAfter_keyword_space, wordsAfter_label hname (delimits_paren _ _),
      words_enclosed hps, wordsAfter_blank (by decide), wordsAfter_bracket (by decide), hopen,
      wordsAfter_blank (by decide), words_body hxs, wordsAfter_blank (by decide)]
    exact ⟨some .closeBrace, by simp [Phrase.function]⟩

theorem words_program {fs : List Function} {xs : List Phrase.Function}
    (h : List.Forall₂ WritesFunction fs xs)
    (previous : Option Kind) :
    wordsAfter previous ("\n".intercalate (fs.map Function.text)).toList
      = Phrase.function.many.words xs := by
  induction h generalizing previous with
  | nil => exact wordsAfter_nil previous
  | @cons f x fs xs hx hxs ih =>
      cases hxs with
      | nil =>
          obtain ⟨last, hwords⟩ := hx.spells previous [] trivial rfl
          rw [List.append_nil, wordsAfter_nil] at hwords
          rw [List.map_cons, List.map_nil, String.intercalate_singleton, hwords]
          rfl
      | @cons g y gs ys hy hys =>
          obtain ⟨last, hwords⟩ := hx.spells previous
            ('\n' :: ("\n".intercalate ((g :: gs).map Function.text)).toList) trivial rfl
          have htext : ("\n".intercalate ((f :: g :: gs).map Function.text)).toList
              = f.text.toList ++ '\n' :: ("\n".intercalate ((g :: gs).map Function.text)).toList := by
            rw [List.map_cons, List.map_cons, String.intercalate_cons_cons]
            simp
          rw [htext, hwords, wordsAfter_blank (by decide), ih, ← Phrase.Category.words_many_cons]

theorem Program.Grammatical.parse_text {program : Program} (h : program.Grammatical)
    (origin : Origin) :
    ∃ parsed, (Source.mk program.text origin).parse = .ok parsed ∧
      parsed.withoutIds = program.withoutIds := by
  have hfunctions : ∀ f ∈ program.functions, ∃ x, WritesFunction f x := by
    intro f hf
    obtain ⟨x, hx, -⟩ := writes_function (h.shapes f hf) (h.names f hf)
    exact ⟨x, hx⟩
  obtain ⟨xs, hxs⟩ := writes_list hfunctions
  have hne : xs ≠ [] := by
    rintro rfl
    exact h.nonempty (List.forall₂_nil_right_iff.1 hxs)
  have hbuild : (Program.mk (Phrase.function.many.build 0 xs)).withoutIds = program.withoutIds :=
    congrArg Program.mk (build_many hxs 0)
  refine ⟨_, Program.ofTokens_eq_ok hne (inRange_many hxs) (words_program hxs none) ?_, hbuild⟩
  intro name hname
  have hcalls : Phrase.function.many.calls xs = (Phrase.function.many.build 0 xs).flatMap
      fun function => function.callLabels.map Label.name :=
    (Phrase.Category.flatMap_buildFrom
      (f := fun function : Function => function.callLabels.map Label.name)
      Phrase.function_callLabels 0 xs).symm
  rw [hcalls] at hname
  obtain ⟨function, hfunction, hname⟩ := List.mem_flatMap.1 hname
  exact Program.calls_of_withoutIds hbuild h.calls function hfunction name hname

/-- Printing and parsing are inverse to each other on grammatical programs, which include all
programs that are ever parsed. -/
theorem Source.parse_text_round_trip :
    (∀ (program : Program) (origin : Origin), program.Grammatical →
      ∃ parsed, (Source.mk program.text origin).parse = .ok parsed ∧
        parsed.withoutIds = program.withoutIds) ∧
    ∀ (source : Source) (program : Program), source.parse = .ok program →
      program.Grammatical ∧
      ∀ origin, ∃ parsed, (Source.mk program.text origin).parse = .ok parsed ∧
        parsed.withoutIds = program.withoutIds := by
  constructor
  · intro program origin h
    exact h.parse_text origin
  · intro source program h
    have hgrammatical := grammatical_of_parse h
    exact ⟨hgrammatical, hgrammatical.parse_text⟩

/-- A `return` before an assignment, signs after an arrow and after an operator, the least literal,
and labels that are spelled like keywords. -/
theorem Source.parse_text_round_trip_signs :
    let program : Program :=
      ⟨[⟨⟨0, ":main"⟩, [⟨0, "x"⟩, ⟨0, "_y1"⟩],
        [.assign ⟨0, .var ⟨0, "x"⟩, .atom (.literal ⟨0, Int64.minValue⟩)⟩,
          .assign ⟨0, .var ⟨0, "x"⟩,
            .binop ⟨0, .arithmetic .subtract, .var ⟨0, "x"⟩, .literal ⟨0, -1⟩⟩⟩,
          .returnVoid 0,
          .assign ⟨0, .store ⟨0, ⟨0, "x"⟩⟩, .atom (.label ⟨0, ":return"⟩)⟩,
          .call ⟨0, .runtime ⟨0, .print⟩, [.literal ⟨0, -3⟩, .label ⟨0, ":main"⟩]⟩,
          .branch ⟨0, ⟨0, "x"⟩, ⟨0, ":return"⟩, ⟨0, ":x"⟩⟩,
          .returnValue 0 (.var ⟨0, "x"⟩),
          .assign ⟨0, .var ⟨0, "x"⟩, .load ⟨0, ⟨0, "_y1"⟩⟩⟩]⟩]⟩
    let short : Program := ⟨[⟨⟨0, ":f"⟩, [], [.returnVoid 1]⟩]⟩
    program.Grammatical ∧
      (∃ parsed, (Source.ofString program.text).parse = .ok parsed ∧
        parsed.withoutIds = program.withoutIds) ∧
      (Source.ofString "define :f() \x7b return \x7d").parse = .ok short ∧
      ∃ parsed, (Source.ofString short.text).parse = .ok parsed ∧
        parsed.withoutIds = short.withoutIds := by
  intro program short
  have hgrammatical : program.Grammatical := ⟨by decide, by decide, by decide, by decide⟩
  have hshort : (Source.ofString "define :f() \x7b return \x7d").parse = .ok short := by
    decide +kernel
  exact ⟨hgrammatical, parse_text_round_trip.1 program .memory hgrammatical, hshort,
    (parse_text_round_trip.2 _ short hshort).2 .memory⟩

end L3Lowering
