import L3Lowering.Proofs.CallLabels
import L3Lowering.Proofs.RoundTrip
import L3Lowering.Proofs.Unambiguous

namespace L3Lowering

/-- Whether a number is in the range of 64 bit signed words, from `-2 ^ 63` to `2 ^ 63 - 1`. -/
def Text.InWord (text : String) : Prop :=
  -0x8000000000000000 ≤ readInt text.toList ∧ readInt text.toList ≤ 0x7fffffffffffffff

instance (text : String) : Decidable (Text.InWord text) :=
  inferInstanceAs (Decidable (_ ∧ _))

theorem Text.readInt64?_eq {text : String} (h : Text.InWord text) :
    readInt64? text.toList = some (.ofInt (readInt text.toList)) :=
  if_pos h

theorem Text.isSome_readInt64?_iff {text : String} :
    (readInt64? text.toList).isSome = true ↔ Text.InWord text := by
  by_cases h : Text.InWord text
  · simp [readInt64?_eq h, h]
  · have hnone : readInt64? text.toList = none := if_neg h
    simp [hnone, h]

def Word.InRange (words : List Word) : Prop :=
  ∀ text, .number text ∈ words → Text.InWord text

namespace Word.InRange

variable {words : List Word}

@[simp]
theorem nil : InRange [] := by
  simp [InRange]

@[simp]
theorem append {others : List Word} :
    InRange (words ++ others) ↔ InRange words ∧ InRange others := by
  simp only [InRange, List.mem_append]
  constructor
  · intro h
    exact ⟨fun text htext => h text (.inl htext), fun text htext => h text (.inr htext)⟩
  · rintro ⟨h, h'⟩ text (htext | htext)
    · exact h text htext
    · exact h' text htext

@[simp]
theorem mark (kind : Kind) : InRange (.mark kind :: words) ↔ InRange words := by
  simp [InRange]

@[simp]
theorem name (text : String) : InRange (.name text :: words) ↔ InRange words := by
  simp [InRange]

@[simp]
theorem label (text : String) : InRange (.label text :: words) ↔ InRange words := by
  simp [InRange]

@[simp]
theorem operand (x : Phrase.Operand) :
    InRange (x.word :: words) ↔ x.InRange ∧ InRange words := by
  cases x with
  | var text => simp [Phrase.Operand.word, Phrase.Operand.InRange]
  | number text =>
      simp only [InRange, Phrase.Operand.word, Phrase.Operand.InRange, List.mem_cons,
        Word.number.injEq, Text.isSome_readInt64?_iff]
      constructor
      · intro h
        exact ⟨h text (.inl rfl), fun other hother => h other (.inr hother)⟩
      · rintro ⟨h, h'⟩ other (rfl | hother)
        · exact h
        · exact h' other hother

@[simp]
theorem value (x : Phrase.Value) : InRange (x.word :: words) ↔ x.InRange ∧ InRange words := by
  cases x with
  | operand o => exact operand o
  | label text => simp [Phrase.Value.word, Phrase.Value.InRange]

@[simp]
theorem callee (x : Phrase.Callee) : InRange (x.word :: words) ↔ InRange words := by
  cases x <;> simp [Phrase.Callee.word]

end Word.InRange

namespace Phrase

def Category.RangeOfWords {φ α : Type} (category : Category φ α) : Prop :=
  ∀ x, category.InRange x ↔ Word.InRange (category.words x)

section

variable {φ α : Type} {category : Category φ α}

theorem Category.RangeOfWords.many (h : category.RangeOfWords) : category.many.RangeOfWords := by
  intro xs
  induction xs with
  | nil => simp [Category.many]
  | cons x xs ih =>
      have hcons : category.many.InRange (x :: xs)
          ↔ category.InRange x ∧ category.many.InRange xs :=
        List.forall_mem_cons
      rw [hcons, words_many_cons, Word.InRange.append, h x, ih]

theorem Category.RangeOfWords.enclosed (h : category.RangeOfWords) :
    category.enclosed.RangeOfWords := by
  have hcomma : category.afterComma.RangeOfWords := by
    intro x
    rw [Category.afterComma, Word.InRange.mark]
    exact h x
  intro xs
  have hwords : Word.InRange (category.enclosed.words xs)
      ↔ Word.InRange (category.separated.words xs) := by
    simp [Category.enclosed]
  rw [hwords]
  cases xs with
  | nil => simp [Category.enclosed, Category.separated, Category.many]
  | cons x xs =>
      -- A comma in front changes no literal.
      rw [← Word.InRange.mark .comma]
      exact hcomma.many (x :: xs)

end

theorem call_rangeOfWords : call.RangeOfWords := by
  intro x
  have harguments : argument.RangeOfWords := by
    intro v
    simp [argument, value]
  rw [call, Word.InRange.callee]
  exact harguments.enclosed x.arguments

theorem rightHandSide_rangeOfWords : rightHandSide.RangeOfWords := by
  intro x
  cases x with
  | call c => simpa [rightHandSide] using call_rangeOfWords c
  | value | operation | load => simp [rightHandSide]

theorem instruction_rangeOfWords : instruction.RangeOfWords := by
  intro x
  cases x with
  | assign target value => simpa [instruction] using rightHandSide_rangeOfWords value
  | call c => simpa [instruction] using call_rangeOfWords c
  | label | store | goto | branch | returnValue | returnVoid => simp [instruction]

theorem function_rangeOfWords : function.RangeOfWords := by
  intro x
  have hparameter : parameter.RangeOfWords := by
    intro name
    simp [parameter]
  have hparameters : Word.InRange (parameter.enclosed.words x.parameters) :=
    (hparameter.enclosed x.parameters).1 fun _ _ => trivial
  simpa [function, hparameters] using instruction_rangeOfWords.many x.body

def Operand.tree : Operand → Atom
  | .var name => .var ⟨0, name⟩
  | .number text => .literal ⟨0, .ofInt (Text.readInt text.toList)⟩

def Value.tree : Value → Atom
  | .operand o => o.tree
  | .label name => .label ⟨0, name⟩

def Callee.tree : Callee → L3Lowering.Callee
  | .var name => .var ⟨0, name⟩
  | .label name => .label ⟨0, name⟩
  | .runtime function => .runtime ⟨0, function⟩

def Call.tree (call : Call) : L3Lowering.Call :=
  ⟨0, call.callee.tree, call.arguments.map Value.tree⟩

/-- What is greater is compared the other way round. -/
def RightHandSide.tree : RightHandSide → Expression
  | .value v => .atom v.tree
  | .operation .greater lhs rhs => .binop ⟨0, .comparison .less, rhs.tree, lhs.tree⟩
  | .operation .greaterEqual lhs rhs => .binop ⟨0, .comparison .lessEqual, rhs.tree, lhs.tree⟩
  | .operation operator lhs rhs => .binop ⟨0, operator, lhs.tree, rhs.tree⟩
  | .load address => .load ⟨0, ⟨0, address⟩⟩
  | .call c => .call c.tree

def Instruction.tree : Instruction → L3Lowering.Instruction
  | .label name => .label ⟨0, name⟩
  | .assign target value => .assign ⟨0, .var ⟨0, target⟩, value.tree⟩
  | .store address v => .assign ⟨0, .store ⟨0, ⟨0, address⟩⟩, .atom v.tree⟩
  | .goto target => .goto ⟨0, ⟨0, target⟩⟩
  | .branch condition onTrue onFalse => .branch ⟨0, ⟨0, condition⟩, ⟨0, onTrue⟩, ⟨0, onFalse⟩⟩
  | .returnValue o => .returnValue 0 o.tree
  | .returnVoid => .returnVoid 0
  | .call c => .call c.tree

def Function.tree (function : Function) : L3Lowering.Function :=
  ⟨⟨0, function.name⟩, function.parameters.map (Var.mk 0), function.body.map Instruction.tree⟩

/-- One function or more, with the words of the tokens. -/
structure Derives (functions : List Function) (tokens : List Token) : Prop where
  nonempty : functions ≠ []
  words : tokens.map Token.word = function.many.words functions

theorem Derives.unique {xs ys : List Function} {tokens : List Token} (h : Derives xs tokens)
    (h' : Derives ys tokens) : xs = ys :=
  functions_unambiguous (h.words.symm.trans h'.words)

theorem Category.map_build {φ α β : Type} (category : Category φ α) {f : α → β} {g : φ → β}
    {xs : List φ} (h : ∀ x ∈ xs, ∀ id, f (category.build id x) = g x) (id : NodeId) :
    (category.many.build id xs).map f = xs.map g := by
  induction xs generalizing id with
  | nil => rfl
  | cons x xs ih =>
      have hfirst := h x List.mem_cons_self id
      have hothers := ih (fun y hy => h y (List.mem_cons_of_mem x hy))
      exact congrArg₂ List.cons hfirst (hothers _)

theorem Operand.withoutIds_build {x : Operand} (h : x.InRange) (id : NodeId) :
    (x.build id).withoutIds = x.tree := by
  cases x with
  | var name => rfl
  | number text =>
      have hvalue := Text.readInt64?_eq (Text.isSome_readInt64?_iff.1 h)
      simp [build, tree, Atom.withoutIds, hvalue]

theorem Value.withoutIds_build {x : Value} (h : x.InRange) (id : NodeId) :
    (x.build id).withoutIds = x.tree := by
  cases x with
  | operand o => exact Operand.withoutIds_build h id
  | label name => rfl

theorem call_withoutIds_build {x : Call} (h : call.InRange x) (id : NodeId) :
    (call.build id x).withoutIds = x.tree := by
  have hcallee : (x.callee.build id).withoutIds = x.callee.tree := by
    cases x.callee <;> rfl
  have harguments : (argument.enclosed.build (id + 1) x.arguments).map Atom.withoutIds
      = x.arguments.map Value.tree :=
    argument.map_build (fun v hv => Value.withoutIds_build (h v hv)) (id + 1)
  simp only [L3Lowering.Call.withoutIds, call, Call.tree, hcallee, harguments]

theorem rightHandSide_withoutIds_build {x : RightHandSide} (h : rightHandSide.InRange x)
    (id : NodeId) : (rightHandSide.build id x).withoutIds = x.tree := by
  cases x with
  | value v => exact congrArg Expression.atom (Value.withoutIds_build h id)
  | operation op lhs rhs =>
      obtain ⟨hlhs, hrhs⟩ := h
      cases op <;> simp [rightHandSide, Binop.ofWritten, Expression.withoutIds, RightHandSide.tree,
        Operand.withoutIds_build hlhs, Operand.withoutIds_build hrhs]
  | load address => rfl
  | call c => exact congrArg Expression.call (call_withoutIds_build h id)

theorem instruction_withoutIds_build {x : Instruction} (h : instruction.InRange x) (id : NodeId) :
    (instruction.build id x).withoutIds = x.tree := by
  cases x with
  | assign target value =>
      simp only [instruction, L3Lowering.Instruction.withoutIds, Instruction.tree,
        rightHandSide_withoutIds_build h]
      rfl
  | store address v =>
      simp only [instruction, L3Lowering.Instruction.withoutIds, Instruction.tree,
        Expression.withoutIds, Value.withoutIds_build h]
      rfl
  | returnValue o =>
      exact congrArg (L3Lowering.Instruction.returnValue 0) (Operand.withoutIds_build h id)
  | call c => exact congrArg L3Lowering.Instruction.call (call_withoutIds_build h id)
  | label | goto | branch | returnVoid => rfl

theorem function_withoutIds_build {x : Function} (h : function.InRange x) (id : NodeId) :
    (function.build id x).withoutIds = x.tree := by
  have hparameters : (parameter.enclosed.build (id + 1) x.parameters).map Var.withoutId
      = x.parameters.map (Var.mk 0) :=
    parameter.map_build (fun _ _ _ => rfl) (id + 1)
  have hbody := instruction.map_build (fun i hi => instruction_withoutIds_build (h i hi))
    (id + .ofNat (1 + parameter.enclosed.size x.parameters))
  simp only [function, L3Lowering.Function.withoutIds, Function.tree, hparameters, hbody]
  rfl

theorem functionNames_build (xs : List Function) (id : NodeId) :
    (Program.mk (function.many.build id xs)).functionNames = xs.map Function.name :=
  function.map_build (fun _ _ _ => rfl) id

end Phrase

theorem Token.inRange_iff {tokens : List Token} : Word.InRange (tokens.map Token.word) ↔
    ∀ token ∈ tokens, token.kind = .integer → Text.InWord token.text := by
  constructor
  · intro h token htoken hkind
    apply h
    rw [← Parser.word_number hkind]
    exact List.mem_map_of_mem htoken
  · intro h text htext
    obtain ⟨token, htoken, hword⟩ := List.mem_map.1 htext
    rw [← Parser.text_of_word_number hword]
    exact h token htoken (Parser.kind_of_word hword)

namespace Phrase.Derives

variable {xs : List Phrase.Function} {tokens : List Token}

theorem inRange_iff (h : Derives xs tokens) : function.many.InRange xs ↔
    ∀ token ∈ tokens, token.kind = .integer → Text.InWord token.text := by
  rw [← Token.inRange_iff, h.words]
  exact function_rangeOfWords.many xs

theorem parse (h : Derives xs tokens)
    (hrange : ∀ token ∈ tokens, token.kind = .integer → Text.InWord token.text) :
    (labelsInCalls false tokens).map Token.text = function.many.calls xs ∧
      ∃ s : Parser.State, s.callLabels = labelsInCalls false tokens ∧
        Parser.program ⟨tokens, 0, []⟩ = .ok (⟨function.many.build 0 xs⟩, s) := by
  obtain ⟨x, others, rfl⟩ := List.exists_cons_of_ne_nil h.nonempty
  obtain ⟨s, hparse, took⟩ := Parser.program_gives (s := ⟨tokens, 0, []⟩) (h.inRange_iff.2 hrange)
    h.words
  have hend : s.words = [] := by
    apply took.rest_eq
    rw [List.append_nil]
    exact h.words
  have hnoted : s.callLabels = labelsInCalls false tokens := by
    have hnotes : labelsInCalls false tokens = s.labelsInCalls false :=
      Parser.notes_program _ _ _ hparse
    rw [hnotes, Parser.State.labelsInCalls, List.map_eq_nil_iff.1 hend, labelsInCalls,
      List.append_nil]
  refine ⟨?_, s, hnoted, hparse⟩
  rw [← hnoted]
  exact took.calls

theorem ofTokens_eq_error (h : Derives xs tokens)
    (hrange : ∀ token ∈ tokens, token.kind = .integer → Text.InWord token.text)
    {before after : List Token} {token : Token}
    (hsplit : labelsInCalls false tokens = before ++ token :: after)
    (hbefore : ∀ label ∈ before, label.text ∈ xs.map Function.name)
    (htoken : token.text ∉ xs.map Function.name) :
    Program.ofTokens tokens = .error (.unknownFunction token) := by
  obtain ⟨-, s, hnoted, hparse⟩ := h.parse hrange
  have hstray : (Program.mk (function.many.build 0 xs)).strayCallLabel? s.callLabels
      = some token := by
    rw [Program.strayCallLabel?, hnoted, hsplit, functionNames_build]
    exact List.find?_eq_some_iff_append.2
      ⟨by simpa using htoken, before, after, rfl, by simpa using hbefore⟩
  rw [Program.ofTokens, hparse]
  simp only [hstray]

theorem of_ofTokens {program : Program} (h : Program.ofTokens tokens = .ok program) :
    ∃ xs, Derives xs tokens ∧ function.many.InRange xs ∧
      (∀ name ∈ function.many.calls xs, name ∈ xs.map Function.name) ∧
      program.withoutIds = ⟨xs.map Function.tree⟩ := by
  obtain ⟨xs, hne, hrange, rfl, hwords, hcalls⟩ := Program.phrases_of_ofTokens h
  rw [functionNames_build] at hcalls
  refine ⟨xs, ⟨hne, hwords⟩, hrange, hcalls, ?_⟩
  exact congrArg Program.mk
    (function.map_build (fun x hx => function_withoutIds_build (hrange x hx)) 0)

end Phrase.Derives

/-- Tokens are parsed exactly if they have a derivation whose numbers are in range and whose labels
in calls name its functions. It is the only derivation then, and the program has its tree. If a
label in a call names no function, the error is at the first such label. -/
theorem Program.ofTokens_exact (tokens : List Token) :
    ((∃ program, ofTokens tokens = .ok program) ↔
      ∃ xs, Phrase.Derives xs tokens ∧
        (∀ token ∈ tokens, token.kind = .integer → Text.InWord token.text) ∧
        ∀ name ∈ Phrase.function.many.calls xs, name ∈ xs.map Phrase.Function.name) ∧
    (∀ program, ofTokens tokens = .ok program →
      ∃ xs, Phrase.Derives xs tokens ∧ (∀ ys, Phrase.Derives ys tokens → ys = xs) ∧
        program.withoutIds = ⟨xs.map Phrase.Function.tree⟩) ∧
    ∀ xs, Phrase.Derives xs tokens →
      (∀ token ∈ tokens, token.kind = .integer → Text.InWord token.text) →
      (labelsInCalls false tokens).map Token.text = Phrase.function.many.calls xs ∧
      ∀ before token after, labelsInCalls false tokens = before ++ token :: after →
        (∀ label ∈ before, label.text ∈ xs.map Phrase.Function.name) →
        token.text ∉ xs.map Phrase.Function.name →
        ofTokens tokens = .error (.unknownFunction token) := by
  refine ⟨⟨?_, ?_⟩, ?_, ?_⟩
  · rintro ⟨program, h⟩
    obtain ⟨xs, hderives, hrange, hcalls, -⟩ := Phrase.Derives.of_ofTokens h
    exact ⟨xs, hderives, hderives.inRange_iff.1 hrange, hcalls⟩
  · rintro ⟨xs, hderives, hrange, hcalls⟩
    rw [← Phrase.functionNames_build xs 0] at hcalls
    exact ⟨_, ofTokens_eq_ok hderives.nonempty (hderives.inRange_iff.2 hrange) hderives.words
      hcalls⟩
  · intro program h
    obtain ⟨xs, hderives, -, -, htree⟩ := Phrase.Derives.of_ofTokens h
    exact ⟨xs, hderives, fun ys hys => hys.unique hderives, htree⟩
  · intro xs hderives hrange
    refine ⟨(hderives.parse hrange).1, ?_⟩
    intro before token after hsplit hbefore htoken
    exact hderives.ofTokens_eq_error hrange hsplit hbefore htoken

/-- A `return` before an assignment and a call of a later function, and a call with two labels that
name nothing. -/
theorem Program.ofTokens_exact_samples :
    let later := Source.ofString
      "define :f(x) \x7b return x <- x > -1 call :g(x) \x7d define :g(y) \x7b \x7d"
    let stray := Source.ofString "define :f(x) \x7b call :f(:h, :g) \x7d"
    (∃ program, Program.ofTokens later.tokens = .ok program ∧
        program.withoutIds = ⟨[⟨⟨0, ":f"⟩, [⟨0, "x"⟩], [.returnVoid 0,
          .assign ⟨0, .var ⟨0, "x"⟩,
            .binop ⟨0, .comparison .less, .literal ⟨0, -1⟩, .var ⟨0, "x"⟩⟩⟩,
          .call ⟨0, .label ⟨0, ":g"⟩, [.var ⟨0, "x"⟩]⟩]⟩, ⟨⟨0, ":g"⟩, [⟨0, "y"⟩], []⟩]⟩) ∧
      Program.ofTokens stray.tokens = .error (.unknownFunction ⟨.label, ":h", ⟨23, 25⟩⟩) := by
  intro later stray
  constructor
  · let xs : List Phrase.Function := [⟨":f", ["x"], [.returnVoid,
        .assign "x" (.operation .greater (.var "x") (.number "-1")),
        .call ⟨.label ":g", [.operand (.var "x")]⟩]⟩, ⟨":g", ["y"], []⟩]
    have hderives : Phrase.Derives xs later.tokens := ⟨by simp [xs], by decide +kernel⟩
    obtain ⟨haccepts, htree, -⟩ := ofTokens_exact later.tokens
    obtain ⟨program, hprogram⟩ := haccepts.2 ⟨xs, hderives, by decide +kernel, by decide⟩
    obtain ⟨ys, -, hunique, hys⟩ := htree program hprogram
    rw [← hunique xs hderives] at hys
    refine ⟨program, hprogram, ?_⟩
    rw [hys]
    decide +kernel
  · have hderives : Phrase.Derives
        [⟨":f", ["x"], [.call ⟨.label ":f", [.label ":h", .label ":g"]⟩]⟩] stray.tokens :=
      ⟨by simp, by decide +kernel⟩
    obtain ⟨-, -, hstray⟩ := ofTokens_exact stray.tokens
    exact (hstray _ hderives (by decide +kernel)).2 [⟨.label, ":f", ⟨20, 22⟩⟩] _
      [⟨.label, ":g", ⟨27, 29⟩⟩] (by decide +kernel) (by decide) (by decide)

end L3Lowering
