import L3Lowering.Proofs.CallingConvention
import L3Lowering.Proofs.Parametric
import L3Lowering.Proofs.Partition
import L3Lowering.Proofs.Tiling

namespace L3Lowering

open Text

def ParseError.token? : ParseError → Option Token
  | .atEnd _ => none
  | .unexpected _ found => some found
  | .literalRange literal => some literal
  | .unknownFunction label => some label

theorem ParseError.span_eq (source : Source) (error : ParseError) :
    error.span source = (error.token?.map Token.span).getD source.endSpan := by
  cases error <;> rfl

theorem ParseError.Alike.left {R : Token → Token → Prop} {e f : ParseError} (h : e.Alike R f)
    {token : Token} (htoken : e.token? = some token) : ∃ other, R token other := by
  cases h with
  | atEnd => simp [ParseError.token?] at htoken
  | unexpected _ h | literalRange h | unknownFunction h =>
      obtain rfl := Option.some.inj htoken
      exact ⟨_, h⟩

theorem Program.mem_of_ofTokens_error {tokens : List Token} {error : ParseError} {token : Token}
    (h : ofTokens tokens = .error error) (htoken : error.token? = some token) :
    token ∈ tokens := by
  -- Tokens are related only to themselves, and only those of the list.
  have hR : KeepsReading fun t u => t = u ∧ t ∈ tokens := by
    rintro t _ ⟨rfl, -⟩
    exact ⟨rfl, rfl⟩
  have hsame : List.Forall₂ (fun t u => t = u ∧ t ∈ tokens) tokens tokens :=
    List.forall₂_same.2 fun t ht => ⟨rfl, ht⟩
  rcases ofTokens_alike hR hsame with ⟨program, hok, -⟩ | ⟨e, f, he, -, halike⟩
  · simp [h] at hok
  · obtain rfl : error = e := Except.error.inj (h.symm.trans he)
    obtain ⟨other, -, hmem⟩ := halike.left htoken
    exact hmem

def Text.lineFeed? : List Char → Option Nat
  | [] => none
  | c :: cs => if c = '\n' then some 0 else (lineFeed? cs).map (c.utf8Size + ·)

def Source.lineEnd? (source : Source) (offset : Nat) : Option Nat :=
  (source.around? offset).map fun sides =>
    ((lineFeed? sides.2).map (min offset source.byteLength + ·)).getD source.byteLength

/-- What a report asks about a span has an answer. -/
structure Source.Answers (source : Source) (span : Span) : Prop where
  value : (source.valueOf? span).isSome = true
  position : (source.position? span).isSome = true
  highlight : ∀ palette, (source.highlight? palette span).isSome = true
  /-- The line in which the span starts does not end before it, so the part of the span that is on
  that line can be cut out. -/
  line : ∃ stop, source.lineEnd? span.start = some stop ∧
    span.start ≤ stop ∧ stop ≤ source.byteLength ∧
    (slice? span.start (max span.start (min span.stop stop)) source.chars).isSome = true

theorem Text.getD_lineFeed? (cs : List Char) :
    (lineFeed? cs).getD (byteSize cs) = byteSize (firstLine cs) := by
  induction cs with
  | nil => rfl
  | cons c cs ih =>
      by_cases hc : c = '\n'
      · subst hc
        rfl
      · rw [lineFeed?, if_neg hc, firstLine, List.takeWhile_cons_of_pos (by simpa using hc),
          byteSize_cons, byteSize_cons, ← firstLine, ← ih]
        cases lineFeed? cs <;> rfl

theorem Text.cut?_min {as bs cs : List Char} (has : as <+: cs) (hbs : bs <+: cs) :
    ∃ covered rest, cut? (min (byteSize as) (byteSize bs)) bs = some (covered, rest) := by
  rcases List.prefix_or_prefix_of_prefix has hbs with ⟨rest, rfl⟩ | ⟨rest, rfl⟩
  · refine ⟨as, rest, ?_⟩
    rw [byteSize_append, Nat.min_eq_left (Nat.le_add_right _ _), cut?_byteSize]
  · refine ⟨bs, [], ?_⟩
    rw [byteSize_append, Nat.min_eq_right (Nat.le_add_right _ _)]
    simpa using cut?_byteSize bs []

namespace Source

variable {source : Source} {before text after : List Char}

theorem around?_append {rest : List Char} (h : source.chars = before ++ rest) :
    source.around? (byteSize before) = some (before, rest) := by
  rw [around?, byteLength, h, byteSize_append, Nat.min_eq_left (Nat.le_add_right _ _),
    cut?_byteSize]

theorem lineEnd?_append {rest : List Char} (h : source.chars = before ++ rest) :
    source.lineEnd? (byteSize before) = some (byteSize before + byteSize (firstLine rest)) := by
  have hlength : source.byteLength = byteSize before + byteSize rest := by
    rw [byteLength, h, byteSize_append]
  rw [lineEnd?, around?_append h, Option.map_some, hlength,
    Nat.min_eq_left (Nat.le_add_right _ _), ← getD_lineFeed?]
  cases lineFeed? rest <;> rfl

theorem answers_append (h : source.chars = before ++ (text ++ after)) :
    source.Answers ⟨byteSize before, byteSize before + byteSize text⟩ := by
  have haround := around?_append h
  have hstart : min (byteSize before) source.byteLength = byteSize before := by
    rw [byteLength, h, byteSize_append]
    omega
  have htail : firstLine (text ++ after) <+: text ++ after := List.takeWhile_prefix _
  obtain ⟨covered, rest, hcut⟩ := cut?_min (List.prefix_append text after) htail
  constructor
  · rw [valueOf?, h, slice?_byteSize]
    rfl
  · simp [position?, row?, column?, haround]
  · intro palette
    simp [highlight?, hstart, row?, haround, hcut]
  · obtain ⟨hrest, hsize⟩ := append_eq_of_cut? hcut
    obtain ⟨others, hothers⟩ := htail
    refine ⟨_, lineEnd?_append h, Nat.le_add_right _ _, ?_, ?_⟩
    · have hle := congrArg byteSize hothers
      rw [byteSize_append] at hle
      rw [byteLength, h, byteSize_append before]
      omega
    · have hchars : source.chars = before ++ (covered ++ (rest ++ others)) := by
        rw [h, ← hothers, ← hrest, List.append_assoc]
      have hclamp : max (byteSize before) (min (byteSize before + byteSize text)
          (byteSize before + byteSize (firstLine (text ++ after))))
            = byteSize before + byteSize covered := by
        omega
      rw [hclamp, hchars, slice?_byteSize]
      rfl

theorem span_of_parse_error {cause : ParseError} (h : source.parse = .error cause) :
    cause.span source = source.endSpan ∨ ∃ token ∈ source.tokens, cause.span source = token.span := by
  rw [ParseError.span_eq]
  cases htoken : cause.token? with
  | none => exact .inl rfl
  | some token => exact .inr ⟨token, Program.mem_of_ofTokens_error h htoken, rfl⟩

theorem answers_of_parse_error {cause : ParseError} (h : source.parse = .error cause) :
    source.Spanned (cause.span source) ∧ source.Answers (cause.span source) := by
  rcases span_of_parse_error h with hend | ⟨token, htoken, hspan⟩
  · have hchars : source.chars = source.chars ++ ([] ++ []) := by simp
    rw [hend]
    exact ⟨spanned_append hchars, answers_append hchars⟩
  · obtain ⟨before, after, hchars, hsplit⟩ := split_token htoken
    rw [hspan, hsplit]
    exact ⟨spanned_append hchars, answers_append hchars⟩

end Source

def Binop.ofKind? (kind : Kind) (id : NodeId) (lhs rhs : Atom) : Option Binop :=
  match kind with
  | .operator (.arithmetic op) => some ⟨id, .arithmetic op, lhs, rhs⟩
  | .operator (.comparison op) => some ⟨id, .comparison op, lhs, rhs⟩
  | .operator .greater => some ⟨id, .comparison .less, rhs, lhs⟩
  | .operator .greaterEqual => some ⟨id, .comparison .lessEqual, rhs, lhs⟩
  | _ => none

theorem Binop.ofKind?_operator (op : Operator) (id : NodeId) (lhs rhs : Atom) :
    ofKind? (.operator op) id lhs rhs = some (ofWritten id op lhs rhs) := by
  cases op <;> rfl

/-- After an operand nothing is read, or the next token is taken and spells an operation whatever
the second operand is. -/
inductive Parser.ReadsOperation (first : Atom) (s : State) : Prop
  | none (h : operation first s = .ok (.atom first, s))
  | some (token : Token) (rest : List Token) (build : NodeId → Atom → Binop)
      (htokens : s.tokens = token :: rest)
      (hbuild : ∀ id second, Binop.ofKind? token.kind id first second = some (build id second))
      (h : operation first s = (do
        let _ ← next .operand
        let second ← operand
        return .binop (build (← freshId) second) : Parser Expression) s)

theorem Parser.readsOperation (first : Atom) (s : State) : ReadsOperation first s := by
  obtain ⟨tokens, nextId, callLabels⟩ := s
  cases tokens with
  | nil => exact .none rfl
  | cons token rest =>
      cases hkind : token.kind with
      | operator op =>
          refine .some token rest (fun id second => .ofWritten id op first second) rfl ?_ ?_
          · intro id second
            rw [hkind, Binop.ofKind?_operator]
          · simp [operation, bind_apply, ahead, hkind]
      | _ => exact .none (by simp [operation, bind_apply, ahead, hkind])

namespace L2

def outgoingOffset? (place : Nat) : Option Int :=
  if 6 ≤ place then some (outgoingOffset place) else none

def incomingOffset? (place count : Nat) : Option Int :=
  if 6 ≤ place ∧ place < count then some (incomingOffset place count) else none

def passArgument? (place : Nat) (value : Value) : Option Line :=
  match argumentRegisters[place]? with
  | some register => some (.move (.register register) value)
  | none => (outgoingOffset? place).map fun offset => .store (stackCell offset) value

def bindParameter? (count place : Nat) (name : String) : Option Line :=
  match argumentRegisters[place]? with
  | some register => some (.move (.var name) (.register register))
  | none => (incomingOffset? place count).map fun offset => .load (.var name) (stackCell offset)

theorem passArgument?_eq (place : Nat) (value : Value) :
    passArgument? place value = some (passArgument place value) := by
  unfold passArgument? passArgument
  cases hregister : argumentRegisters[place]? with
  | some register => rfl
  | none =>
      rw [outgoingOffset?, if_pos (le_of_argumentRegisters hregister)]
      rfl

theorem bindParameter?_eq {count place : Nat} (h : place < count) (name : String) :
    bindParameter? count place name = some (bindParameter count place name) := by
  unfold bindParameter? bindParameter
  cases hregister : argumentRegisters[place]? with
  | some register => rfl
  | none =>
      rw [incomingOffset?, if_pos ⟨le_of_argumentRegisters hregister, h⟩]
      rfl

end L2

theorem CallSite.mapIdx_passArgument? (site : CallSite) :
    site.arguments.mapIdx L2.passArgument? = (site.arguments.mapIdx L2.passArgument).map some := by
  apply List.ext_getElem
  · simp
  · intro place _ _
    rw [List.getElem_map, List.getElem_mapIdx, List.getElem_mapIdx, L2.passArgument?_eq]

theorem TiledFunction.mapIdx_bindParameter? (function : TiledFunction) :
    function.parameters.mapIdx (L2.bindParameter? function.parameters.length)
      = function.bindings.map some := by
  rw [bindings]
  apply List.ext_getElem
  · simp
  · intro place hplace _
    rw [List.length_mapIdx] at hplace
    rw [List.getElem_map, List.getElem_mapIdx, List.getElem_mapIdx, L2.bindParameter?_eq hplace]

namespace Source

theorem parse_of_scopedText_error {source : Source} {error : CompileError}
    (h : source.scopedText = .error error) :
    ∃ cause, source.parse = .error cause ∧ error = .parse source cause := by
  unfold scopedText at h
  split at h
  · rename_i cause hparse
    exact ⟨cause, hparse, (Except.error.inj h).symm⟩
  · simp at h

theorem parse_of_compile_error {source : Source} {error : CompileError}
    (h : source.compile.value = .error error) :
    ∃ cause, source.parse = .error cause ∧ error = .parse source cause := by
  cases hparse : source.parse with
  | error cause =>
      rw [compile_of_parse_error hparse] at h
      exact ⟨cause, rfl, (Except.error.inj h).symm⟩
  | ok program =>
      obtain ⟨tiled, hlower, -⟩ := (grammatical_of_parse hparse).lower_ok
      simp [compile_of_lower hparse hlower] at h

/-- Every question that is asked on the way from a source to its text, or to a report of why there
is none, has an answer. -/
theorem questions_answered (source : Source) :
    (∀ token ∈ source.tokens,
      source.Spanned token.span ∧ source.valueOf? token.span = some token.text) ∧
    (∀ cause, source.parse = .error cause →
      (cause.span source = source.endSpan ∨
        ∃ token ∈ source.tokens, cause.span source = token.span) ∧
      source.Spanned (cause.span source) ∧ source.Answers (cause.span source)) ∧
    (∀ error, source.compile.value = .error error ∨ source.scopedText = .error error →
      ∃ cause, source.parse = .error cause ∧ error = .parse source cause) ∧
    (∀ first s, Parser.ReadsOperation first s) ∧
    (∀ site : CallSite, site.arguments.mapIdx L2.passArgument?
      = (site.arguments.mapIdx L2.passArgument).map some) ∧
    ∀ function : TiledFunction,
      function.parameters.mapIdx (L2.bindParameter? function.parameters.length)
        = function.bindings.map some := by
  refine ⟨fun _ => spanned_token, ?_, ?_, Parser.readsOperation, CallSite.mapIdx_passArgument?,
    TiledFunction.mapIdx_bindParameter?⟩
  · intro cause hparse
    exact ⟨span_of_parse_error hparse, answers_of_parse_error hparse⟩
  · rintro error (hcompile | hscoped)
    · exact parse_of_compile_error hcompile
    · exact parse_of_scopedText_error hscoped

/-- A colon before a character of two bytes, and a text that ends too early, within a comment. -/
theorem questions_answered_samples :
    (Source.ofString "define :é() \x7b\x7d").Answers ⟨7, 8⟩ ∧
      (Source.ofString "define :f // é").Answers ⟨15, 15⟩ := by
  have hcolon : (Source.ofString "define :é() \x7b\x7d").parse
      = .error (.unexpected .label ⟨.unknown, ":", ⟨7, 8⟩⟩) := by
    decide +kernel
  have hend : (Source.ofString "define :f // é").parse = .error (.atEnd .openParen) := by
    decide +kernel
  exact ⟨((questions_answered _).2.1 _ hcolon).2.2, ((questions_answered _).2.1 _ hend).2.2⟩

end Source

end L3Lowering
