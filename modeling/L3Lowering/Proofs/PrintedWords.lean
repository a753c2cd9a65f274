import L3Lowering.Proofs.Grammatical
import L3Lowering.Proofs.WithoutIds
import Mathlib.Data.List.Forall2

namespace L3Lowering

/-- Wherever the token before is of an admitted kind and no name goes on with what follows, the text
spells the words. -/
def Spells (admits : Option Kind → Prop) (text : String) (words : List Word) : Prop :=
  ∀ previous rest, admits previous → Delimits rest →
    ∃ last, wordsAfter previous (text.toList ++ rest) = words ++ wordsAfter last rest

/-- The places where a value stands: a sign starts a literal there. -/
def BeforeValue (previous : Option Kind) : Prop :=
  signUnlessOperand previous = true

def Anywhere (_ : Option Kind) : Prop :=
  True

def Kind.isLeaf : Kind → Bool
  | .identifier => true
  | .label => true
  | .keyword .print => true
  | .keyword .allocate => true
  | .keyword .arrayError => true
  | _ => false

def Word.isLeaf (word : Word) : Bool :=
  word.kind.isLeaf

def Node.word? : Node → Option Word
  | .var v => some (.name v.name)
  | .label l => some (.label l.name)
  | .runtime r => some (.mark (.keyword r.function.keyword))
  | _ => none

/-- A phrase that a text spells and that stands for a node, as far as `forget` sees. The leaves of
the phrase are those of the node, in the order in which the node is walked. -/
structure Writes {φ α : Type} (category : Phrase.Category φ α) (forget : α → α)
    (admits : Option Kind → Prop) (text : α → String) (nodes : α → List Node) (a : α) (x : φ) :
    Prop where
  inRange : category.InRange x
  build : ∀ id, forget (category.build id x) = forget a
  order : (category.words x).filter Word.isLeaf = (nodes a).filterMap Node.word?
  spells : Spells admits (text a) (category.words x)

abbrev WritesExpression : Expression → Phrase.RightHandSide → Prop :=
  Writes Phrase.rightHandSide Expression.withoutIds BeforeValue Expression.text Expression.nodes

abbrev WritesInstruction : Instruction → Phrase.Instruction → Prop :=
  Writes Phrase.instruction Instruction.withoutIds Anywhere Instruction.text Instruction.nodes

abbrev WritesFunction : Function → Phrase.Function → Prop :=
  Writes Phrase.function Function.withoutIds Anywhere Function.text Function.nodes

theorem operand_words {a : Atom} (h : a.isOperand = true)
    (hnames : ∀ node ∈ a.nodes, node.isNamed = true) :
    ∃ x : Phrase.Operand, x.InRange ∧ (∀ id, (x.build id).withoutIds = a.withoutIds) ∧
      [x.word].filter Word.isLeaf = a.nodes.filterMap Node.word? ∧
      ∀ previous rest, BeforeValue previous → Delimits rest →
        wordsAfter previous (a.text.toList ++ rest)
          = x.word :: wordsAfter (some x.word.kind) rest := by
  cases a with
  | var v =>
      have hname : isVarName v.name = true := hnames (.var v) (by simp [Atom.nodes])
      exact ⟨.var v.name, trivial, fun _ => rfl, rfl,
        fun _ _ _ hrest => wordsAfter_name hname hrest⟩
  | literal n =>
      have hread := Text.readInt64?_intText n.value
      refine ⟨.number (Text.intText n.value.toInt), by rw [Phrase.Operand.InRange, hread]; rfl,
        fun id => ?_, rfl, fun _ _ hsign hrest => wordsAfter_intText n.value.toInt hsign hrest⟩
      rw [Phrase.Operand.build, hread]
      rfl
  | label | runtime => simp [Atom.isOperand] at h

theorem writes_value {a : Atom} (h : a.isValue = true)
    (hnames : ∀ node ∈ a.nodes, node.isNamed = true) :
    ∃ x, Writes Phrase.argument Atom.withoutIds BeforeValue Atom.text Atom.nodes a x := by
  cases a with
  | label l =>
      have hname : isLabelWord l.name = true := hnames (.label l) (by simp [Atom.nodes])
      exact ⟨.label l.name, trivial, fun _ => rfl, rfl,
        fun _ _ _ hrest => ⟨_, wordsAfter_label hname hrest⟩⟩
  | var | literal =>
      obtain ⟨x, hx, hbuild, horder, hwords⟩ := operand_words rfl hnames
      exact ⟨.operand x, hx, hbuild, horder,
        fun previous rest hprevious hrest => ⟨_, hwords previous rest hprevious hrest⟩⟩
  | runtime => simp [Atom.isValue] at h

theorem writes_var {v : Var} (h : isVarName v.name = true) :
    ∃ x, Writes Phrase.parameter Var.withoutId BeforeValue Var.text (fun v => [.var v]) v x :=
  ⟨v.name, trivial, fun _ => rfl, rfl, fun _ _ _ hrest => ⟨_, wordsAfter_name h hrest⟩⟩

theorem writes_callee {c : Callee} (hnames : ∀ node ∈ c.nodes, node.isNamed = true) :
    ∃ x, Writes Phrase.callee Callee.withoutIds Anywhere Callee.text Callee.nodes c x := by
  cases c with
  | var v =>
      have hname : isVarName v.name = true := hnames (.var v) (by simp [Callee.nodes])
      exact ⟨.var v.name, trivial, fun _ => rfl, rfl,
        fun _ _ _ hrest => ⟨_, wordsAfter_name hname hrest⟩⟩
  | label l =>
      have hname : isLabelWord l.name = true := hnames (.label l) (by simp [Callee.nodes])
      exact ⟨.label l.name, trivial, fun _ => rfl, rfl,
        fun _ _ _ hrest => ⟨_, wordsAfter_label hname hrest⟩⟩
  | runtime r =>
      have htext : (Callee.runtime r).text = r.function.keyword.text := by
        obtain ⟨id, function⟩ := r
        cases function <;> rfl
      have hleaf : (Kind.keyword r.function.keyword).isLeaf = true := by
        cases r.function <;> rfl
      refine ⟨.runtime r.function, trivial, fun _ => rfl, List.filter_cons_of_pos hleaf, ?_⟩
      rw [htext]
      exact fun _ _ _ hrest => ⟨_, wordsAfter_keyword r.function.keyword hrest⟩

namespace Phrase.Category

variable {φ α : Type} (category : Category φ α)

theorem filter_words_afterComma (xs : List φ) :
    (category.afterComma.many.words xs).filter Word.isLeaf
      = (category.many.words xs).filter Word.isLeaf := by
  rw [many, many, List.filter_flatMap, List.filter_flatMap]
  rfl

theorem filter_words_enclosed (xs : List φ) :
    (category.enclosed.words xs).filter Word.isLeaf
      = (category.many.words xs).filter Word.isLeaf := by
  have hopen : Word.isLeaf (.mark .openParen) = false := rfl
  have hclose : [Word.mark .closeParen].filter Word.isLeaf = [] := rfl
  rw [enclosed, List.filter_cons_of_neg (by simp [hopen]), List.filter_append, hclose,
    List.append_nil]
  cases xs with
  | nil => rfl
  | cons x xs =>
      rw [words_many_cons, separated, List.filter_append, List.filter_append,
        filter_words_afterComma]

end Phrase.Category

section Lists

variable {φ α : Type} {category : Phrase.Category φ α} {forget : α → α}
  {admits : Option Kind → Prop} {text : α → String} {nodes : α → List Node} {as : List α}
  {xs : List φ}

theorem writes_list (h : ∀ a ∈ as, ∃ x, Writes category forget admits text nodes a x) :
    ∃ xs, List.Forall₂ (Writes category forget admits text nodes) as xs := by
  induction as with
  | nil => exact ⟨[], .nil⟩
  | cons a as ih =>
      obtain ⟨x, hx⟩ := h a List.mem_cons_self
      obtain ⟨xs, hxs⟩ := ih fun b hb => h b (List.mem_cons_of_mem a hb)
      exact ⟨x :: xs, .cons hx hxs⟩

theorem inRange_many (h : List.Forall₂ (Writes category forget admits text nodes) as xs) :
    category.many.InRange xs := by
  induction h with
  | nil => exact fun _ hx => absurd hx List.not_mem_nil
  | cons hx _ ih =>
      rintro y (_ | ⟨_, hy⟩)
      · exact hx.inRange
      · exact ih y hy

theorem build_many (h : List.Forall₂ (Writes category forget admits text nodes) as xs)
    (id : NodeId) : (category.many.build id xs).map forget = as.map forget := by
  induction h generalizing id with
  | nil => rfl
  | cons hx _ ih => exact congrArg₂ List.cons (hx.build id) (ih _)

theorem order_many (h : List.Forall₂ (Writes category forget admits text nodes) as xs) :
    (category.many.words xs).filter Word.isLeaf = (as.flatMap nodes).filterMap Node.word? := by
  induction h with
  | nil => rfl
  | cons hx _ ih =>
      rw [Phrase.Category.words_many_cons, List.filter_append, hx.order, ih, List.flatMap_cons,
        List.filterMap_append]

theorem order_enclosed (h : List.Forall₂ (Writes category forget admits text nodes) as xs) :
    (category.enclosed.words xs).filter Word.isLeaf = (as.flatMap nodes).filterMap Node.word? := by
  rw [Phrase.Category.filter_words_enclosed, order_many h]

theorem toList_intercalate_comma (t : String) (ts : List String) :
    (", ".intercalate (t :: ts)).toList
      = t.toList ++ ts.flatMap fun s => ',' :: ' ' :: s.toList := by
  induction ts generalizing t with
  | nil => simp
  | cons u ts ih =>
      rw [String.intercalate_cons_cons, String.toList_append, String.toList_append, ih]
      simp

theorem words_commas (h : List.Forall₂ (Writes category forget BeforeValue text nodes) as xs)
    (previous : Option Kind) (rest : List Char) :
    wordsAfter previous ((as.flatMap fun a => ',' :: ' ' :: (text a).toList) ++ ')' :: rest)
      = category.afterComma.many.words xs ++ .mark .closeParen ::
        wordsAfter (some .closeParen) rest := by
  induction h generalizing previous with
  | nil => exact wordsAfter_bracket (by decide)
  | @cons a x as xs hx _ ih =>
      have hdelimits : Delimits ((as.flatMap fun a => ',' :: ' ' :: (text a).toList)
          ++ ')' :: rest) := by
        cases as <;> rfl
      obtain ⟨last, hwords⟩ := hx.spells (some .comma) _ rfl hdelimits
      have hcomma : Lexeme.symbolKind ',' = .comma := rfl
      rw [List.flatMap_cons, List.append_assoc, List.cons_append, List.cons_append,
        wordsAfter_bracket (by decide), wordsAfter_blank (by decide), hcomma, hwords, ih,
        Phrase.Category.words_many_cons, List.append_assoc]
      rfl

theorem words_enclosed (h : List.Forall₂ (Writes category forget BeforeValue text nodes) as xs)
    (previous : Option Kind) (rest : List Char) :
    wordsAfter previous ('(' :: (", ".intercalate (as.map text)).toList ++ ')' :: rest)
      = category.enclosed.words xs ++ wordsAfter (some .closeParen) rest := by
  have hopen : Lexeme.symbolKind '(' = .openParen := rfl
  rw [List.cons_append, wordsAfter_bracket (by decide), hopen]
  cases h with
  | nil =>
      rw [List.map_nil, String.intercalate_nil]
      exact congrArg (List.cons _) (wordsAfter_bracket (by decide))
  | @cons a x as xs hx hxs =>
      have hdelimits : Delimits ((as.flatMap fun a => ',' :: ' ' :: (text a).toList)
          ++ ')' :: rest) := by
        cases as <;> rfl
      obtain ⟨last, hwords⟩ := hx.spells (some .openParen) _ rfl hdelimits
      rw [List.map_cons, toList_intercalate_comma, List.flatMap_map, List.append_assoc, hwords,
        words_commas hxs]
      simp [Phrase.Category.enclosed, Phrase.Category.separated]

end Lists

end L3Lowering
