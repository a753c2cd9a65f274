import L3Lowering.Proofs.LabelPlaces
import Mathlib.Data.List.Forall2

namespace L3Lowering

inductive Atom.SameUpToLabels : Atom → Atom → Prop
  | var (v : Var) : SameUpToLabels (.var v) (.var v)
  | label (id : NodeId) (name other : String) :
      SameUpToLabels (.label ⟨id, name⟩) (.label ⟨id, other⟩)
  | literal (n : Literal) : SameUpToLabels (.literal n) (.literal n)
  | runtime (r : RuntimeRef) : SameUpToLabels (.runtime r) (.runtime r)

inductive Callee.SameUpToLabels : Callee → Callee → Prop
  | var (v : Var) : SameUpToLabels (.var v) (.var v)
  | label (id : NodeId) (name other : String) :
      SameUpToLabels (.label ⟨id, name⟩) (.label ⟨id, other⟩)
  | runtime (r : RuntimeRef) : SameUpToLabels (.runtime r) (.runtime r)

structure Call.SameUpToLabels (c d : Call) : Prop where
  id : d.id = c.id
  callee : c.callee.SameUpToLabels d.callee
  arguments : List.Forall₂ Atom.SameUpToLabels c.arguments d.arguments

inductive Expression.SameUpToLabels : Expression → Expression → Prop
  | atom {a b : Atom} (h : a.SameUpToLabels b) : SameUpToLabels (.atom a) (.atom b)
  | binop (id : NodeId) (operator : Operator) {lhs rhs lhs' rhs' : Atom}
      (hlhs : lhs.SameUpToLabels lhs') (hrhs : rhs.SameUpToLabels rhs') :
      SameUpToLabels (.binop ⟨id, operator, lhs, rhs⟩) (.binop ⟨id, operator, lhs', rhs'⟩)
  | load (l : Load) : SameUpToLabels (.load l) (.load l)
  | call {c d : Call} (h : c.SameUpToLabels d) : SameUpToLabels (.call c) (.call d)

inductive Instruction.SameUpToLabels : Instruction → Instruction → Prop
  | assign (id : NodeId) (target : Target) {value value' : Expression}
      (h : value.SameUpToLabels value') :
      SameUpToLabels (.assign ⟨id, target, value⟩) (.assign ⟨id, target, value'⟩)
  | goto (id target : NodeId) (name other : String) :
      SameUpToLabels (.goto ⟨id, ⟨target, name⟩⟩) (.goto ⟨id, ⟨target, other⟩⟩)
  | branch (id : NodeId) (condition : Var) (onTrue onFalse : NodeId)
      (name other name' other' : String) :
      SameUpToLabels (.branch ⟨id, condition, ⟨onTrue, name⟩, ⟨onFalse, other⟩⟩)
        (.branch ⟨id, condition, ⟨onTrue, name'⟩, ⟨onFalse, other'⟩⟩)
  | call {c d : Call} (h : c.SameUpToLabels d) : SameUpToLabels (.call c) (.call d)
  | returnValue (id : NodeId) {value value' : Atom} (h : value.SameUpToLabels value') :
      SameUpToLabels (.returnValue id value) (.returnValue id value')
  | returnVoid (id : NodeId) : SameUpToLabels (.returnVoid id) (.returnVoid id)
  | label (id : NodeId) (name other : String) :
      SameUpToLabels (.label ⟨id, name⟩) (.label ⟨id, other⟩)

/-- The functions differ at most in the names of labels of their bodies. -/
structure Function.SameUpToLabels (f g : Function) : Prop where
  name : g.name = f.name
  parameters : g.parameters = f.parameters
  body : List.Forall₂ Instruction.SameUpToLabels f.body g.body

inductive LabelPlace where
  | outside
  | inCall
  deriving DecidableEq

def Instruction.locatedLabels (instruction : Instruction) : List (LabelPlace × Label) :=
  instruction.outerLabels.map (Prod.mk .outside) ++ instruction.callLabels.map (Prod.mk .inCall)

def Function.locatedLabels (function : Function) : List (LabelPlace × Label) :=
  function.body.flatMap Instruction.locatedLabels

def CallScope.renameAt (calls : CallScope) (rename : String → String) :
    LabelPlace → String → String
  | .outside => rename
  | .inCall =>
    match calls with
    | .enter => rename
    | .skip => id

@[simp]
theorem CallScope.renameAt_outside (calls : CallScope) (rename : String → String) :
    calls.renameAt rename .outside = rename :=
  rfl

def CallScope.renameLocated (calls : CallScope) (rename : String → String)
    (located : LabelPlace × Label) : LabelPlace × Label :=
  (located.1, located.2.mapName (calls.renameAt rename located.1))

theorem Instruction.map_snd_locatedLabels (instruction : Instruction) :
    instruction.locatedLabels.map Prod.snd = instruction.labels := by
  simp [locatedLabels, labels_eq, Function.comp_def]

theorem Function.map_snd_locatedLabels (function : Function) :
    function.locatedLabels.map Prod.snd = function.bodyNodes.filterMap Node.label? := by
  rw [bodyLabels_eq, locatedLabels, bodyLabels, List.map_flatMap]
  exact congrArg (function.body.flatMap ·) (funext Instruction.map_snd_locatedLabels)

/-- What is related to `a` and has the labels of `a`, moved, is `result a`. More labels may follow
on both sides. -/
def LabelsDetermine {α : Type} (R : α → α → Prop) (labels : α → List (LabelPlace × Label))
    (move : LabelPlace × Label → LabelPlace × Label) (result : α → α) : Prop :=
  ∀ ⦃a b : α⦄, R a b → ∀ s t : List (LabelPlace × Label),
    labels b ++ s = (labels a).map move ++ t ↔ b = result a ∧ s = t

theorem LabelsDetermine.flatMap {α : Type} {R : α → α → Prop}
    {labels : α → List (LabelPlace × Label)} {move : LabelPlace × Label → LabelPlace × Label}
    {result : α → α} (h : LabelsDetermine R labels move result) :
    LabelsDetermine (List.Forall₂ R) (List.flatMap labels) move (List.map result) := by
  intro xs ys hxs s t
  induction hxs with
  | nil => simp
  | cons hab _ ih =>
      rw [List.flatMap_cons, List.flatMap_cons, List.map_append, List.append_assoc,
        List.append_assoc, h hab, ih, List.map_cons, List.cons.injEq, and_assoc]

variable (calls : CallScope) (rename : String → String)

theorem Atom.labelsDetermine (place : LabelPlace) :
    LabelsDetermine SameUpToLabels (fun a => a.labels.map (Prod.mk place))
      (calls.renameLocated rename) (Atom.mapLabels (calls.renameAt rename place)) := by
  intro a b h s t
  cases h with
  | label id name other =>
      simp [labels, mapLabels, CallScope.renameLocated, Label.mapName]
  | var | literal | runtime => simp [labels, mapLabels]

theorem Callee.labelsDetermine (place : LabelPlace) :
    LabelsDetermine SameUpToLabels (fun c => c.labels.map (Prod.mk place))
      (calls.renameLocated rename) (Callee.mapLabels (calls.renameAt rename place)) := by
  intro a b h s t
  cases h with
  | label id name other =>
      simp [labels, mapLabels, CallScope.renameLocated, Label.mapName]
  | var | runtime => simp [labels, mapLabels]

theorem Call.mapLabels_eq_enter (call : Call) :
    call.mapLabels calls rename = call.mapLabels .enter (calls.renameAt rename .inCall) := by
  cases calls with
  | enter => rfl
  | skip =>
      symm
      apply Call.mapLabels_self
      intro l _
      rfl

theorem Call.labelsDetermine :
    LabelsDetermine SameUpToLabels (fun c => c.labels.map (Prod.mk .inCall))
      (calls.renameLocated rename) (Call.mapLabels calls rename) := by
  rintro ⟨id, callee, arguments⟩ ⟨id', callee', arguments'⟩ ⟨hid, hcallee, harguments⟩ s t
  have hcallee := Callee.labelsDetermine calls rename .inCall hcallee
  have harguments := (Atom.labelsDetermine calls rename .inCall).flatMap harguments s t
  dsimp only at hid hcallee harguments
  simp only [labels, List.map_append, List.map_flatMap, List.append_assoc] at harguments ⊢
  rw [hcallee, harguments, mapLabels_eq_enter, mapLabels, mk.injEq, and_assoc, and_assoc,
    eq_true hid, true_and]

theorem Expression.labelsDetermine :
    LabelsDetermine SameUpToLabels
      (fun e => e.outerLabels.map (Prod.mk .outside) ++ e.callLabels.map (Prod.mk .inCall))
      (calls.renameLocated rename) (Expression.mapLabels calls rename) := by
  intro e d h s t
  have hatom := Atom.labelsDetermine calls rename .outside
  cases h with
  | atom h => simpa [outerLabels, callLabels, mapLabels] using hatom h s t
  | binop id operator hlhs hrhs =>
      have hrest := hatom hrhs s t
      have hboth := hatom hlhs
      dsimp only at hrest hboth
      simp only [outerLabels, callLabels, List.map_append, List.map_nil, List.append_nil,
        List.append_assoc]
      rw [hboth, hrest]
      simp [mapLabels, Binop.mapLabels, and_assoc]
  | load l => simp [outerLabels, callLabels, mapLabels]
  | call h =>
      have hcall := Call.labelsDetermine calls rename h s t
      simpa [outerLabels, callLabels, mapLabels] using hcall

theorem Instruction.labelsDetermine :
    LabelsDetermine SameUpToLabels locatedLabels (calls.renameLocated rename)
      (Instruction.mapLabels calls rename) := by
  intro i j h s t
  cases h with
  | assign id target h =>
      have hvalue := Expression.labelsDetermine calls rename h s t
      simpa [locatedLabels, outerLabels, callLabels, mapLabels] using hvalue
  | goto | branch | label =>
      simp [locatedLabels, outerLabels, callLabels, mapLabels, CallScope.renameLocated,
        Label.mapName, and_assoc]
  | call h =>
      have hcall := Call.labelsDetermine calls rename h s t
      simpa [locatedLabels, outerLabels, callLabels, mapLabels] using hcall
  | returnValue id h =>
      have hvalue := Atom.labelsDetermine calls rename .outside h s t
      simpa [locatedLabels, outerLabels, callLabels, mapLabels] using hvalue
  | returnVoid => simp [locatedLabels, outerLabels, callLabels, mapLabels]

theorem Atom.sameUpToLabels_mapLabels (atom : Atom) :
    atom.SameUpToLabels (atom.mapLabels rename) := by
  cases atom with
  | label l => exact .label ..
  | var | literal | runtime => constructor

theorem Call.sameUpToLabels_mapLabels (call : Call) :
    call.SameUpToLabels (call.mapLabels calls rename) := by
  rw [mapLabels_eq_enter]
  refine ⟨rfl, ?_, ?_⟩
  · rw [mapLabels]
    cases call.callee with
    | label l => exact .label ..
    | var | runtime => constructor
  · rw [mapLabels, List.forall₂_map_right_iff, List.forall₂_same]
    intro a _
    exact a.sameUpToLabels_mapLabels _

theorem Instruction.sameUpToLabels_mapLabels (instruction : Instruction) :
    instruction.SameUpToLabels (instruction.mapLabels calls rename) := by
  cases instruction with
  | assign a =>
      obtain ⟨id, target, value⟩ := a
      refine .assign id target ?_
      cases value with
      | atom a => exact .atom (a.sameUpToLabels_mapLabels rename)
      | binop b =>
          exact .binop _ _ (b.lhs.sameUpToLabels_mapLabels rename)
            (b.rhs.sameUpToLabels_mapLabels rename)
      | load l => exact .load l
      | call c => exact .call (c.sameUpToLabels_mapLabels calls rename)
  | goto | branch | label => constructor
  | call c => exact .call (c.sameUpToLabels_mapLabels calls rename)
  | returnValue id value => exact .returnValue id (value.sameUpToLabels_mapLabels rename)
  | returnVoid id => exact .returnVoid id

namespace Function

theorem sameUpToLabels_mapLabels (function : Function) :
    function.SameUpToLabels (function.mapLabels calls rename) := by
  refine ⟨rfl, rfl, ?_⟩
  rw [mapLabels, List.forall₂_map_right_iff, List.forall₂_same]
  intro i _
  exact i.sameUpToLabels_mapLabels calls rename

theorem eq_mapLabels_iff {f g : Function} (h : f.SameUpToLabels g) :
    g = f.mapLabels calls rename
      ↔ g.locatedLabels = f.locatedLabels.map (calls.renameLocated rename) := by
  have hbody := (Instruction.labelsDetermine calls rename).flatMap h.body [] []
  rw [List.append_nil, List.append_nil, eq_true rfl, and_true] at hbody
  rw [locatedLabels, locatedLabels, hbody]
  obtain ⟨hname, hparameters, -⟩ := h
  obtain ⟨name, parameters, body⟩ := g
  dsimp only at hname hparameters
  simp [mapLabels, hname, hparameters]

/-- The walk that renames labels reaches the labels that the walk over the nodes meets. Entering
calls, it maps the labels that are met, in their order; in either scope, the function that it leaves
is the one that is the same up to labels and has each label that is reached renamed once, and each
other label as it was. -/
theorem renaming_agrees_with_walk (function : Function) (rename : String → String) :
    function.locatedLabels.map Prod.snd = function.bodyNodes.filterMap Node.label?
      ∧ (function.mapLabels .enter rename).bodyNodes.filterMap Node.label?
        = (function.bodyNodes.filterMap Node.label?).map (Label.mapName rename)
      ∧ ∀ (calls : CallScope) (other : Function), other = function.mapLabels calls rename
        ↔ function.SameUpToLabels other
          ∧ other.locatedLabels = function.locatedLabels.map (calls.renameLocated rename) := by
  refine ⟨function.map_snd_locatedLabels, ?_, ?_⟩
  · rw [bodyLabels_eq, bodyLabels_eq, bodyLabels_mapLabels]
  · intro calls other
    constructor
    · intro h
      have hsame : function.SameUpToLabels other := by
        rw [h]
        exact function.sameUpToLabels_mapLabels calls rename
      exact ⟨hsame, (eq_mapLabels_iff calls rename hsame).1 h⟩
    · rintro ⟨hsame, hlabels⟩
      exact (eq_mapLabels_iff calls rename hsame).2 hlabels

end Function

end L3Lowering
