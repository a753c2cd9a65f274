import L3Lowering.Proofs.LineReading
import L3Lowering.Proofs.Numbering
import L3Lowering.Proofs.ScopedGrammar
import L3Lowering.Proofs.TileShapes

namespace L3Lowering

open Text Sexp

theorem isPlain_var {v : Var} (h : (Node.var v).isNamed = true) :
    ∀ name ∈ [v.name], isPlain name = true :=
  List.forall_mem_singleton.2 (isPlain_of_isVarName h)

theorem isPlain_label {l : Label} (h : (Node.label l).isNamed = true) :
    ∀ name ∈ [l.name], isPlain name = true :=
  List.forall_mem_singleton.2 (isPlain_of_isLabelWord h)

theorem Atom.StandsFor.isPlain_names {atom : Atom} {value : L2.Value} (h : atom.StandsFor value)
    (hnamed : ∀ node ∈ atom.nodes, node.isNamed = true) :
    ∀ name ∈ value.names, isPlain name = true := by
  cases h with
  | var v => exact isPlain_var (hnamed (.var v) (by simp [Atom.nodes]))
  | label l => exact isPlain_label (hnamed (.label l) (by simp [Atom.nodes]))
  | literal n => exact List.forall_mem_nil _

theorem isPlain_names_of_standsFor {atoms : List Atom} {values : List L2.Value}
    (h : List.Forall₂ Atom.StandsFor atoms values)
    (hnamed : ∀ node ∈ atoms.flatMap Atom.nodes, node.isNamed = true) :
    ∀ value ∈ values, ∀ name ∈ value.names, isPlain name = true := by
  induction h with
  | nil => exact List.forall_mem_nil _
  | cons hvalue _ ih =>
      rw [List.flatMap_cons, List.forall_mem_append] at hnamed
      exact List.forall_mem_cons.2 ⟨hvalue.isPlain_names hnamed.1, ih hnamed.2⟩

theorem Callee.isPlain_names {callee : Callee} (h : ∀ node ∈ callee.nodes, node.isNamed = true) :
    ∀ name ∈ callee.toL2.names, isPlain name = true := by
  cases callee with
  | var v => exact isPlain_var (h (.var v) (by simp [nodes]))
  | label l => exact isPlain_label (h (.label l) (by simp [nodes]))
  | runtime r => exact List.forall_mem_nil _

theorem L2.names_passArgument (place : Nat) (value : L2.Value) :
    (L2.passArgument place value).names = value.names := by
  rw [L2.passArgument]
  split <;> rfl

theorem CallSite.plain_lines {call : Call} {values : List L2.Value} {returnLabel : String}
    (hvalues : List.Forall₂ Atom.StandsFor call.arguments values)
    (hlabel : isPlain returnLabel = true) (hnamed : ∀ node ∈ call.nodes, node.isNamed = true) :
    ∀ line ∈ (CallSite.mk call.callee.toL2 values returnLabel).lines, line.Plain := by
  obtain ⟨hcallee, harguments⟩ := List.forall_mem_append.1 (List.forall_mem_cons.1 hnamed).2
  have hpassed : ∀ line ∈ values.mapIdx L2.passArgument, line.Plain := by
    intro line hline
    obtain ⟨place, hplace, rfl⟩ := List.mem_mapIdx.1 hline
    rw [L2.Line.Plain, L2.names_passArgument]
    exact isPlain_names_of_standsFor hvalues harguments _ (List.getElem_mem hplace)
  have hreturn : ∀ name ∈ [returnLabel], isPlain name = true := List.forall_mem_singleton.2 hlabel
  simp only [lines, setup, List.forall_mem_append, List.forall_mem_singleton, List.forall_mem_cons]
  exact ⟨⟨hpassed, hreturn⟩, Callee.isPlain_names hcallee, hreturn⟩

theorem Tile.Lowers.plain {returnLabel : String} {instruction : Instruction} {tile : Tile}
    (h : Tile.Lowers returnLabel instruction tile) (hlabel : isPlain returnLabel = true)
    (hnamed : ∀ node ∈ instruction.nodes, node.isNamed = true) :
    ∀ line ∈ tile.lines, line.Plain := by
  simp only [Instruction.nodes, List.forall_mem_cons] at hnamed
  cases h with
  | assign hvalue =>
      simp only [Assignment.nodes, Target.nodes, Expression.nodes, List.forall_mem_cons,
        List.forall_mem_append] at hnamed
      obtain ⟨-, -, ⟨hx, -⟩, -, ha⟩ := hnamed
      have hmove := List.forall_mem_append.2 ⟨isPlain_var hx, hvalue.isPlain_names ha⟩
      exact List.forall_mem_singleton.2 hmove
  | load =>
      simp only [Assignment.nodes, Target.nodes, Expression.nodes, Load.nodes,
        List.forall_mem_cons, List.forall_mem_append] at hnamed
      obtain ⟨-, -, ⟨hx, -⟩, -, -, hy, -⟩ := hnamed
      have hload := List.forall_mem_append.2 ⟨isPlain_var hx, isPlain_var hy⟩
      exact List.forall_mem_singleton.2 hload
  | arithmetic hlhs hrhs =>
      simp only [Assignment.nodes, Target.nodes, Expression.nodes, Binop.nodes,
        List.forall_mem_cons, List.forall_mem_append] at hnamed
      obtain ⟨-, -, ⟨hx, -⟩, -, -, ha, hb⟩ := hnamed
      have hmove := List.forall_mem_append.2 ⟨isPlain_var hx, hlhs.isPlain_names ha⟩
      have hupdate := List.forall_mem_append.2 ⟨isPlain_var hx, hrhs.isPlain_names hb⟩
      exact List.forall_mem_cons.2 ⟨hmove, List.forall_mem_singleton.2 hupdate⟩
  | comparison hlhs hrhs =>
      simp only [Assignment.nodes, Target.nodes, Expression.nodes, Binop.nodes,
        List.forall_mem_cons, List.forall_mem_append] at hnamed
      obtain ⟨-, -, ⟨hx, -⟩, -, -, ha, hb⟩ := hnamed
      have hvalues := List.forall_mem_append.2 ⟨hlhs.isPlain_names ha, hrhs.isPlain_names hb⟩
      exact List.forall_mem_singleton.2 (List.forall_mem_append.2 ⟨isPlain_var hx, hvalues⟩)
  | assignCall hvalues =>
      simp only [Assignment.nodes, Target.nodes, Expression.nodes, List.forall_mem_cons,
        List.forall_mem_append] at hnamed
      obtain ⟨-, -, ⟨hx, -⟩, -, hc⟩ := hnamed
      have hmove := List.forall_mem_append.2 ⟨isPlain_var hx, List.forall_mem_nil _⟩
      exact List.forall_mem_append.2
        ⟨CallSite.plain_lines hvalues hlabel hc, List.forall_mem_singleton.2 hmove⟩
  | store hvalue =>
      simp only [Assignment.nodes, Target.nodes, Store.nodes, Expression.nodes,
        List.forall_mem_cons, List.forall_mem_append] at hnamed
      obtain ⟨-, -, ⟨-, hy, -⟩, -, ha⟩ := hnamed
      have hstore := List.forall_mem_append.2 ⟨isPlain_var hy, hvalue.isPlain_names ha⟩
      exact List.forall_mem_singleton.2 hstore
  | goto =>
      simp only [Goto.nodes, List.forall_mem_cons] at hnamed
      exact List.forall_mem_singleton.2 (isPlain_label hnamed.2.2.1)
  | branch =>
      simp only [Branch.nodes, List.forall_mem_cons] at hnamed
      obtain ⟨-, -, hx, htrue, hfalse, -⟩ := hnamed
      have hlabels := List.forall_mem_append.2 ⟨isPlain_label htrue, isPlain_label hfalse⟩
      exact List.forall_mem_singleton.2 (List.forall_mem_append.2 ⟨isPlain_var hx, hlabels⟩)
  | call hvalues => exact CallSite.plain_lines hvalues hlabel hnamed.2
  | returnValue hvalue =>
      have hmove := List.forall_mem_append.2
        ⟨List.forall_mem_nil _, hvalue.isPlain_names hnamed.2⟩
      exact List.forall_mem_cons.2 ⟨hmove, List.forall_mem_singleton.2 (List.forall_mem_nil _)⟩
  | returnVoid => exact List.forall_mem_singleton.2 (List.forall_mem_nil _)
  | label => exact List.forall_mem_singleton.2 (isPlain_label (hnamed.2 _ List.mem_cons_self))

theorem LabelSupply.isPlain_returnLabel {stem : String} (h : isWord stem.toList = true)
    (issued : Nat) : isPlain (returnLabel stem issued) = true := by
  have hdigits : ∀ c ∈ digits issued, isNameChar c = true :=
    fun c hc => isNameChar_of_isDigit (isDigit_of_mem_digits hc)
  have hmark : isWord "_ret".toList = true := by decide
  have hword : isWord (stem.toList ++ ("_ret".toList ++ digits issued)) = true :=
    isWord_append h (List.forall_mem_append.2 ⟨isNameChar_of_isWord hmark, hdigits⟩)
  refine isPlain_of_isLabelWord (isLabelWord_iff.2 ⟨_, ?_, hword⟩)
  simp [returnLabel]

theorem exists_mem_of_forall₂ {α β : Type} {R : α → β → Prop} {as : List α} {bs : List β}
    (h : List.Forall₂ R as bs) {b : β} (hb : b ∈ bs) : ∃ a ∈ as, R a b := by
  induction h with
  | nil => cases hb
  | cons hab _ ih =>
      rcases List.mem_cons.1 hb with rfl | hb
      · exact ⟨_, List.mem_cons_self, hab⟩
      · obtain ⟨a, ha, hR⟩ := ih hb
        exact ⟨a, List.mem_cons_of_mem _ ha, hR⟩

theorem Tile.Covers.lowers {stem : String} {instruction : Instruction} {tile : Tile}
    (h : Tile.Covers stem instruction tile) :
    ∃ issued, Tile.Lowers (LabelSupply.returnLabel stem issued) instruction tile := by
  obtain ⟨issued, hchosen⟩ := h.chosen
  exact ⟨issued, Selector.lowers_of_choose hchosen⟩

theorem L2.names_bindParameter (count place : Nat) (name : String) :
    (L2.bindParameter count place name).names = [name] := by
  rw [L2.bindParameter]
  split <;> rfl

theorem TiledFunction.Emits.plain {stem : String} {function : Function} {tiled : TiledFunction}
    (h : TiledFunction.Emits stem function tiled) (hstem : isWord stem.toList = true)
    (hfresh : Instruction.Fresh [] function.body)
    (hnamed : ∀ node ∈ function.nodes, node.isNamed = true) : tiled.Plain := by
  obtain ⟨hname, hnodes⟩ := List.forall_mem_cons.1 hnamed
  obtain ⟨hparameters, hbody⟩ := List.forall_mem_append.1 hnodes
  constructor
  · rw [h.name]
    exact isPlain_of_isLabelWord hname
  · intro line hline
    obtain ⟨place, hplace, rfl⟩ := List.mem_mapIdx.1 hline
    have hmem := List.getElem_mem hplace
    generalize tiled.parameters[place] = name at hmem ⊢
    rw [h.parameters] at hmem
    obtain ⟨v, hv, rfl⟩ := List.mem_map.1 hmem
    rw [L2.Line.Plain, L2.names_bindParameter]
    exact isPlain_var (hparameters _ (List.mem_map_of_mem hv))
  · intro tile htile
    obtain ⟨i, hi, hcovers⟩ := exists_mem_of_forall₂ (h.tiles hfresh) htile
    obtain ⟨issued, hlowers⟩ := hcovers.lowers
    apply hlowers.plain (LabelSupply.isPlain_returnLabel hstem issued)
    intro node hnode
    exact hbody node (List.mem_flatMap.2 ⟨i, hi, hnode⟩)

/-- No two words of the text run together. -/
theorem Program.Grammatical.read_text {program : Program} (h : program.Grammatical)
    (hfresh : ∀ f ∈ program.functions, Instruction.Fresh [] f.body) {tiled : TiledProgram}
    (hlower : program.lower.result = .ok tiled) : Sexp.read tiled.text = some [tiled.sexp] := by
  obtain ⟨found, hfound, hemits⟩ := h.lower_ok
  obtain rfl : found = tiled := Except.ok.inj (hfound.symm.trans hlower)
  apply Sexp.read_of_readsAs
  apply TiledProgram.readsAs
  intro tiledFunction htiled
  obtain ⟨function, hfunction, hemit⟩ := exists_mem_of_forall₂ hemits htiled
  exact hemit.plain (Stem.isWord_find _) (Program.fresh_scopeLabels hfresh function hfunction)
    (h.scopeLabels_names function hfunction)

end L3Lowering
