import L3Lowering.Proofs.Partition
import L3Lowering.Proofs.RoundTrip

namespace L3Lowering

namespace Token

variable {token : Token} {text : String}

theorem word_eq_label_iff : token.word = .label text ↔ token.kind = .label ∧ token.text = text := by
  rw [word]
  split <;> simp_all

theorem word_eq_name_iff :
    token.word = .name text ↔ token.kind = .identifier ∧ token.text = text := by
  rw [word]
  split <;> simp_all

end Token

def Word.leafText : Word → String
  | .name text => text
  | .label text => text
  | .mark (.keyword keyword) => keyword.text
  | _ => ""

theorem Node.leaf?_eq (node : Node) : node.leaf? = node.word?.map Word.leafText := by
  cases node with
  | runtime r =>
      obtain ⟨id, function⟩ := r
      cases function <;> rfl
  | _ => rfl

theorem Node.word?_eq_label_iff {node : Node} {name : String} :
    node.word? = some (.label name) ↔ ∃ label, node.label? = some label ∧ label.name = name := by
  cases node <;> simp [word?, label?]

theorem Node.word?_eq_name_iff {node : Node} {name : String} :
    node.word? = some (.name name) ↔ ∃ var, node.var? = some var ∧ var.name = name := by
  cases node <;> simp [word?, var?]

theorem Token.leafText_word {token : Token} (hspelled : token.kind.spells token.text = true)
    (hleaf : token.kind.isLeaf = true) : token.word.leafText = token.text := by
  cases hkind : token.kind with
  | identifier | label => simp [word, hkind, Word.leafText]
  | keyword k =>
      have htext : token.text = k.text := by simpa [hkind, Kind.spells] using hspelled
      simp [word, hkind, Word.leafText, htext]
  | _ => simp [hkind, Kind.isLeaf] at hleaf

theorem Lexed.spelled {offset : Nat} {previous : Option Kind} {cs : List Char}
    {tokens : List Token} {token : Token} (h : Lexed offset previous cs tokens)
    (htoken : token ∈ tokens) : token.kind.spells token.text = true := by
  induction h with
  | nil => simp at htoken
  | cons _ _ _ hread _ ih =>
      rcases List.mem_cons.1 htoken with rfl | htoken
      · exact hread.spelled
      · exact ih htoken

/-- The leaves among the tokens are those among the nodes, in the same order. -/
def InOrder (tokens : List Token) (nodes : List Node) : Prop :=
  (tokens.map Token.word).filter Word.isLeaf = nodes.filterMap Node.word?

namespace InOrder

variable {tokens : List Token} {nodes : List Node}

theorem mem_iff (h : InOrder tokens nodes) {word : Word} (hword : word.isLeaf = true) :
    (∃ token ∈ tokens, token.word = word) ↔ ∃ node ∈ nodes, node.word? = some word := by
  have hmem : word ∈ (tokens.map Token.word).filter Word.isLeaf
      ↔ word ∈ nodes.filterMap Node.word? := by rw [h]
  simpa [hword] using hmem

theorem mem_labels_iff (h : InOrder tokens nodes) {name : String} :
    (∃ label ∈ nodes.filterMap Node.label?, label.name = name)
      ↔ ∃ token ∈ tokens, token.kind = .label ∧ token.text = name := by
  simp only [← Token.word_eq_label_iff]
  rw [h.mem_iff rfl]
  simp only [Node.word?_eq_label_iff, List.mem_filterMap]
  grind

theorem mem_vars_iff (h : InOrder tokens nodes) {name : String} :
    (∃ var ∈ nodes.filterMap Node.var?, var.name = name)
      ↔ ∃ token ∈ tokens, token.kind = .identifier ∧ token.text = name := by
  simp only [← Token.word_eq_name_iff]
  rw [h.mem_iff rfl]
  simp only [Node.word?_eq_name_iff, List.mem_filterMap]
  grind

theorem leaves_eq (h : InOrder tokens nodes)
    (hspelled : ∀ token ∈ tokens, token.kind.spells token.text = true) :
    nodes.filterMap Node.leaf? = (tokens.filter (·.kind.isLeaf)).map Token.text := by
  have hleaf : Word.isLeaf ∘ Token.word = fun token => token.kind.isLeaf := by
    funext token
    exact congrArg Kind.isLeaf (Parser.kind_word token)
  calc nodes.filterMap Node.leaf?
      = (nodes.filterMap Node.word?).map Word.leafText := by
        rw [List.map_filterMap]
        exact congrArg (nodes.filterMap ·) (funext Node.leaf?_eq)
    _ = ((tokens.filter (·.kind.isLeaf)).map Token.word).map Word.leafText := by
        rw [← h, List.filter_map, hleaf]
    _ = (tokens.filter (·.kind.isLeaf)).map Token.text := by
        rw [List.map_map]
        apply List.map_congr_left
        intro token htoken
        obtain ⟨hmem, hkind⟩ := List.mem_filter.1 htoken
        exact Token.leafText_word (hspelled token hmem) hkind

end InOrder

namespace Phrase

theorem kind_ne_openBrace {names : List String} {word : Word}
    (h : word ∈ parameter.enclosed.words names) : word.kind ≠ .openBrace := by
  cases names with
  | nil =>
      have h : word = .mark .openParen ∨ word = .mark .closeParen := by
        simpa [Category.enclosed, Category.separated] using h
      rcases h with rfl | rfl <;> exact Kind.noConfusion
  | cons name names =>
      have h : word = .mark .openParen ∨ word = .name name
          ∨ (∃ other ∈ names, word = .mark .comma ∨ word = .name other)
          ∨ word = .mark .closeParen := by
        simpa [Category.enclosed, Category.separated, Category.afterComma, Category.many,
          parameter] using h
      rcases h with rfl | rfl | ⟨_, _, rfl | rfl⟩ | rfl <;> exact Kind.noConfusion

theorem leaves_after_openBrace (x : Function) :
    ((function.words x).dropWhile (·.kind ≠ .openBrace)).filter Word.isLeaf
      = (instruction.many.words x.body).filter Word.isLeaf := by
  have hsplit : function.words x
      = (.mark (.keyword .define) :: .label x.name :: parameter.enclosed.words x.parameters)
        ++ .mark .openBrace :: (instruction.many.words x.body ++ [.mark .closeBrace]) := rfl
  have hheader : ∀ word ∈ (.mark (.keyword .define) :: .label x.name ::
      parameter.enclosed.words x.parameters), decide (word.kind ≠ .openBrace) = true := by
    rintro word (_ | ⟨_, _ | ⟨_, hword⟩⟩)
    · rfl
    · rfl
    · exact decide_eq_true (kind_ne_openBrace hword)
  rw [hsplit, List.dropWhile_append_of_pos hheader,
    List.dropWhile_cons_of_neg (by simp [Word.kind])]
  simp only [List.filter_append, List.filter_cons, Word.isLeaf, Word.kind, Kind.isLeaf]
  simp

end Phrase

theorem Function.inOrder_text {function : Function}
    (hshapes : ∀ i ∈ function.body, i.isGrammatical = true)
    (hnames : ∀ node ∈ function.nodes, node.isNamed = true) (origin : Origin) :
    InOrder (Source.mk function.text origin).tokens function.nodes
      ∧ InOrder ((Source.mk function.text origin).tokens.dropWhile (·.kind ≠ .openBrace))
        function.bodyNodes := by
  obtain ⟨x, hx, hbody⟩ := writes_function hshapes hnames
  have hwords : (Source.mk function.text origin).tokens.map Token.word
      = Phrase.function.words x := by
    obtain ⟨last, hlast⟩ := hx.spells none [] trivial rfl
    rwa [List.append_nil, wordsAfter_nil, List.append_nil] at hlast
  have hkind : (fun word : Word => decide (word.kind ≠ .openBrace)) ∘ Token.word
      = fun token => decide (token.kind ≠ .openBrace) := by
    funext token
    simp
  constructor
  · rw [InOrder, hwords, hx.order]
  · rw [InOrder, ← hkind, ← List.dropWhile_map, hwords, Phrase.leaves_after_openBrace,
      order_many hbody, bodyNodes]

namespace Source

variable {source : Source} {program : Program}

/-- The walk over a function of a program that was parsed meets variables, labels and runtime
functions in the order in which its text has them as tokens; the labels of the function are those
of its tokens, and its variables those of its tokens from the opening brace on. -/
theorem walk_in_source_order (h : source.parse = .ok program) {function : Function}
    (hfunction : function ∈ program.functions) (origin : Origin) :
    let tokens := (Source.mk function.text origin).tokens
    function.leaves = (tokens.filter (·.kind.isLeaf)).map Token.text
      ∧ (∀ name, name ∈ function.labelNames
        ↔ ∃ token ∈ tokens, token.kind = .label ∧ Label.bare token.text = name)
      ∧ ∀ name, name ∈ function.varNames
        ↔ ∃ token ∈ tokens.dropWhile (·.kind ≠ .openBrace),
          token.kind = .identifier ∧ token.text = name := by
  intro tokens
  have hgrammatical := grammatical_of_parse h
  obtain ⟨hwhole, hbody⟩ := function.inOrder_text (hgrammatical.shapes function hfunction)
    (hgrammatical.names function hfunction) origin
  have hspelled : ∀ token ∈ tokens, token.kind.spells token.text = true := by
    intro token htoken
    exact (lexed _).spelled htoken
  refine ⟨hwhole.leaves_eq hspelled, ?_, ?_⟩
  · intro name
    rw [Function.labelNames, List.mem_eraseDups, List.mem_map]
    constructor
    · rintro ⟨label, hlabel, rfl⟩
      obtain ⟨token, htoken, hkind, htext⟩ := hwhole.mem_labels_iff.1 ⟨label, hlabel, rfl⟩
      exact ⟨token, htoken, hkind, congrArg Label.bare htext⟩
    · rintro ⟨token, htoken, hkind, rfl⟩
      obtain ⟨label, hlabel, hname⟩ := hwhole.mem_labels_iff.2 ⟨token, htoken, hkind, rfl⟩
      exact ⟨label, hlabel, congrArg Label.bare hname⟩
  · intro name
    rw [← hbody.mem_vars_iff, Function.varNames, List.mem_eraseDups, List.mem_map]

/-- A comparison with `>` is walked and printed with its operands exchanged. -/
theorem walk_in_source_order_exchanged :
    let source := Source.ofString
      "define :f(x) \x7b y <- x > z call print(:f, y) br :a return \x7d"
    let function : Function := ⟨⟨0, ":f"⟩, [⟨1, "x"⟩],
      [.assign ⟨6, .var ⟨2, "y"⟩,
          .binop ⟨5, .comparison .less, .var ⟨4, "z"⟩, .var ⟨3, "x"⟩⟩⟩,
        .call ⟨10, .runtime ⟨7, .print⟩, [.label ⟨8, ":f"⟩, .var ⟨9, "y"⟩]⟩,
        .goto ⟨12, ⟨11, ":a"⟩⟩,
        .returnVoid 13]⟩
    source.parse = .ok ⟨[function]⟩ ∧
      (((Source.ofString function.text).tokens.filter (·.kind.isLeaf)).map Token.text
        = [":f", "x", "y", "z", "x", "print", ":f", "y", ":a"]) := by
  intro source function
  have h : source.parse = .ok ⟨[function]⟩ := by decide +kernel
  have hleaves := (walk_in_source_order h (List.mem_singleton_self function) .memory).1
  exact ⟨h, hleaves.symm.trans (by decide +kernel)⟩

end Source

end L3Lowering
