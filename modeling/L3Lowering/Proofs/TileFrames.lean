import L3Lowering.Program.Rename
import L3Lowering.Proofs.RegisterSpelling

namespace L3Lowering

def Node.varNames (nodes : List Node) : List String :=
  (nodes.filterMap Node.var?).map Var.name

def Atom.varNames : Atom → List String
  | .var v => [v.name]
  | _ => []

def Callee.varNames : Callee → List String
  | .var v => [v.name]
  | _ => []

def Call.lineVars (call : Call) : List (List String) :=
  call.arguments.map Atom.varNames ++ [[], call.callee.varNames, []]

/-- The variables of an instruction by the lines that it becomes, on each line in the order of its
operands. -/
def Instruction.lineVars : Instruction → List (List String)
  | .assign ⟨_, .var x, .atom a⟩ => [x.name :: a.varNames]
  | .assign ⟨_, .var x, .load l⟩ => [[x.name, l.address.name]]
  | .assign ⟨_, .var x, .binop ⟨_, .arithmetic _, lhs, rhs⟩⟩ =>
    [x.name :: lhs.varNames, x.name :: rhs.varNames]
  | .assign ⟨_, .var x, .binop ⟨_, _, lhs, rhs⟩⟩ => [x.name :: (lhs.varNames ++ rhs.varNames)]
  | .assign ⟨_, .var x, .call c⟩ => c.lineVars ++ [[x.name]]
  | .assign ⟨_, .store s, .atom a⟩ => [s.address.name :: a.varNames]
  | .assign ⟨_, .store _, _⟩ => []
  | .branch b => [[b.condition.name]]
  | .call c => c.lineVars
  | .returnValue _ value => [value.varNames, []]
  | .goto _ | .returnVoid _ | .label _ => [[]]

def Instruction.assigned? : Instruction → Option String
  | .assign ⟨_, .var x, _⟩ => some x.name
  | _ => none

/-- The registers whose words are not the same after an instruction as before: a value is returned
in the result register, and a call may leave any register changed. -/
def Instruction.writtenRegisters : Instruction → List L2.Register
  | .call _ | .assign ⟨_, .var _, .call _⟩ => L2.Register.all
  | .returnValue .. => [L2.resultRegister]
  | _ => []

theorem Node.varNames_append (nodes others : List Node) :
    varNames (nodes ++ others) = varNames nodes ++ varNames others := by
  simp [varNames]

theorem Node.varNames_flatMap {α : Type} (f : α → List Node) (as : List α) :
    varNames (as.flatMap f) = as.flatMap fun a => varNames (f a) := by
  simp [varNames, List.filterMap_flatMap, List.map_flatMap]

theorem Atom.varNames_nodes (atom : Atom) : Node.varNames atom.nodes = atom.varNames := by
  cases atom <;> rfl

theorem Callee.varNames_nodes (callee : Callee) :
    Node.varNames callee.nodes = callee.varNames := by
  cases callee <;> rfl

theorem Call.varNames_nodes (call : Call) : Node.varNames call.nodes
    = call.callee.varNames ++ call.arguments.flatMap Atom.varNames := by
  have harguments : Node.varNames (call.arguments.flatMap Atom.nodes)
      = call.arguments.flatMap Atom.varNames := by
    rw [Node.varNames_flatMap]
    exact congrArg (call.arguments.flatMap ·) (funext Atom.varNames_nodes)
  rw [← harguments, ← call.callee.varNames_nodes, ← Node.varNames_append]
  rfl

theorem Call.lineVars_subset {call : Call} {vars : List String} (h : vars ∈ call.lineVars) :
    vars ⊆ Node.varNames call.nodes := by
  rw [call.varNames_nodes]
  simp only [lineVars, List.mem_append, List.mem_cons, List.not_mem_nil, or_false] at h
  rcases h with h | rfl | rfl | rfl
  · obtain ⟨a, ha, rfl⟩ := List.mem_map.1 h
    apply List.subset_append_of_subset_right
    exact fun name hname => List.mem_flatMap.2 ⟨a, ha, hname⟩
  · exact List.nil_subset _
  · exact List.subset_append_left _ _
  · exact List.nil_subset _

theorem Binop.varNames_nodes (binop : Binop) :
    Node.varNames binop.nodes = binop.lhs.varNames ++ binop.rhs.varNames := by
  rw [← binop.lhs.varNames_nodes, ← binop.rhs.varNames_nodes, ← Node.varNames_append]
  rfl

theorem Expression.varNames_nodes_atom (atom : Atom) :
    Node.varNames (nodes (.atom atom)) = atom.varNames :=
  atom.varNames_nodes

theorem Instruction.lineVars_subset_of_var {id : NodeId} {x : Var} {value : Expression}
    {vars : List String} (h : vars ∈ lineVars (.assign ⟨id, .var x, value⟩)) :
    vars ⊆ x.name :: Node.varNames value.nodes := by
  cases value with
  | atom a =>
      rw [Expression.varNames_nodes_atom]
      obtain rfl := List.mem_singleton.1 h
      exact List.Subset.refl _
  | load l =>
      obtain rfl := List.mem_singleton.1 h
      exact List.Subset.refl _
  | binop b =>
      have hvalue : Node.varNames (Expression.nodes (.binop b))
          = b.lhs.varNames ++ b.rhs.varNames := b.varNames_nodes
      rw [hvalue]
      obtain ⟨id', operator, lhs, rhs⟩ := b
      cases operator with
      | arithmetic op =>
          simp only [lineVars, List.mem_cons, List.not_mem_nil, or_false] at h
          rcases h with rfl | rfl
          · exact List.cons_subset_cons _ (List.subset_append_left _ _)
          · exact List.cons_subset_cons _ (List.subset_append_right _ _)
      | comparison | greater | greaterEqual =>
          obtain rfl := List.mem_singleton.1 h
          exact List.Subset.refl _
  | call c =>
      rcases List.mem_append.1 h with h | h
      · exact List.subset_cons_of_subset _ (Call.lineVars_subset h)
      · obtain rfl := List.mem_singleton.1 h
        exact List.cons_subset_cons _ (List.nil_subset _)

theorem Instruction.lineVars_subset_of_store {id : NodeId} {s : Store} {value : Expression}
    {vars : List String} (h : vars ∈ lineVars (.assign ⟨id, .store s, value⟩)) :
    vars ⊆ s.address.name :: Node.varNames value.nodes := by
  cases value with
  | atom a =>
      rw [Expression.varNames_nodes_atom]
      obtain rfl := List.mem_singleton.1 h
      exact List.Subset.refl _
  | load | binop | call => cases h

theorem Instruction.lineVars_subset {instruction : Instruction} {vars : List String}
    (h : vars ∈ instruction.lineVars) : vars ⊆ Node.varNames instruction.nodes := by
  cases instruction with
  | assign assignment =>
      obtain ⟨id, target, value⟩ := assignment
      have hnodes : Node.varNames (Instruction.nodes (.assign ⟨id, target, value⟩))
          = Node.varNames target.nodes ++ Node.varNames value.nodes := Node.varNames_append _ _
      rw [hnodes]
      cases target with
      | var x => exact lineVars_subset_of_var h
      | store s => exact lineVars_subset_of_store h
  | branch b =>
      obtain rfl := List.mem_singleton.1 h
      exact List.Subset.refl _
  | call c => exact Call.lineVars_subset h
  | returnValue id value =>
      have hnodes : Node.varNames (Instruction.nodes (.returnValue id value)) = value.varNames :=
        value.varNames_nodes
      rw [hnodes]
      simp only [lineVars, List.mem_cons, List.not_mem_nil, or_false] at h
      rcases h with rfl | rfl
      · exact List.Subset.refl _
      · exact List.nil_subset _
  | goto | returnVoid | label =>
      obtain rfl := List.mem_singleton.1 h
      exact List.nil_subset _

theorem L2.writtenWords_passArgument {place : Nat} {value : Value} {word : String}
    (h : word ∈ (passArgument place value).writtenWords) : word ∈ Register.all.map Register.name := by
  unfold passArgument at h
  split at h
  · rename_i r _
    obtain rfl := List.mem_singleton.1 h
    exact List.mem_map_of_mem r.mem_all
  · cases h

theorem L2.varNames_passArgument (place : Nat) (value : Value) :
    (passArgument place value).varNames = value.varNames := by
  unfold passArgument
  split <;> rfl

theorem CallSite.writtenWords_lines {site : CallSite} {line : L2.Line} {word : String}
    (hline : line ∈ site.lines) (h : word ∈ line.writtenWords) :
    word ∈ L2.Register.all.map L2.Register.name := by
  simp only [lines, setup, List.mem_append, List.mem_cons, List.not_mem_nil, or_false] at hline
  rcases hline with (hline | rfl) | rfl | rfl
  · obtain ⟨place, hplace, rfl⟩ := List.mem_mapIdx.1 hline
    exact L2.writtenWords_passArgument h
  · cases h
  · exact h
  · cases h

theorem Atom.StandsFor.varNames_eq {atom : Atom} {value : L2.Value} (h : atom.StandsFor value) :
    value.varNames = atom.varNames := by
  cases h <;> rfl

theorem Callee.varNames_toL2 (callee : Callee) : callee.toL2.varNames = callee.varNames := by
  cases callee <;> rfl

theorem L2.varNames_passArguments {atoms : List Atom} {values : List L2.Value}
    (h : List.Forall₂ Atom.StandsFor atoms values) :
    (values.mapIdx passArgument).map Line.varNames = atoms.map Atom.varNames := by
  apply List.ext_getElem?
  intro place
  simp only [List.getElem?_map, List.getElem?_mapIdx, Option.map_map, Function.comp_def,
    varNames_passArgument]
  induction h generalizing place with
  | nil => rfl
  | cons hvalue _ ih =>
      cases place with
      | zero => exact congrArg some hvalue.varNames_eq
      | succ place => exact ih place

theorem CallSite.varNames_lines {call : Call} {values : List L2.Value}
    (h : List.Forall₂ Atom.StandsFor call.arguments values) (returnLabel : String) :
    (CallSite.mk call.callee.toL2 values returnLabel).lines.map L2.Line.varNames
      = call.lineVars := by
  rw [lines, setup, List.map_append, List.map_append, L2.varNames_passArguments h,
    List.append_assoc, Call.lineVars, ← call.callee.varNames_toL2]
  rfl

namespace Tile.Lowers

variable {returnLabel : String} {instruction : Instruction} {tile : Tile}

theorem writtenWords (h : Lowers returnLabel instruction tile) {line : L2.Line} {word : String}
    (hline : line ∈ tile.lines) (hword : word ∈ line.writtenWords) :
    instruction.assigned? = some word ∨
      word ∈ instruction.writtenRegisters.map L2.Register.name := by
  cases h with
  | assign | load | comparison =>
      obtain rfl := List.mem_singleton.1 hline
      obtain rfl := List.mem_singleton.1 hword
      exact .inl rfl
  | arithmetic =>
      simp only [lines, List.mem_cons, List.not_mem_nil, or_false] at hline
      rcases hline with rfl | rfl <;>
        · obtain rfl := List.mem_singleton.1 hword
          exact .inl rfl
  | assignCall =>
      rcases List.mem_append.1 hline with hline | hline
      · exact .inr (CallSite.writtenWords_lines hline hword)
      · obtain rfl := List.mem_singleton.1 hline
        obtain rfl := List.mem_singleton.1 hword
        exact .inl rfl
  | call => exact .inr (CallSite.writtenWords_lines hline hword)
  | returnValue =>
      simp only [lines, List.mem_cons, List.not_mem_nil, or_false] at hline
      rcases hline with rfl | rfl
      · exact .inr hword
      · cases hword
  | store | goto | branch | returnVoid | label =>
      obtain rfl := List.mem_singleton.1 hline
      cases hword

theorem lineVars_eq (h : Lowers returnLabel instruction tile) :
    tile.lines.map L2.Line.varNames = instruction.lineVars := by
  cases h with
  | @assign _ x _ _ hvalue =>
      exact congrArg (fun vars => [x.name :: vars]) hvalue.varNames_eq
  | @arithmetic _ _ x _ _ _ _ _ hlhs hrhs =>
      exact congrArg₂ (fun vars others => [x.name :: vars, x.name :: others]) hlhs.varNames_eq
        hrhs.varNames_eq
  | @comparison _ _ x _ _ _ _ _ hlhs hrhs =>
      exact congrArg₂ (fun vars others => [x.name :: (vars ++ others)]) hlhs.varNames_eq
        hrhs.varNames_eq
  | assignCall hvalues =>
      rw [lines, List.map_append, CallSite.varNames_lines hvalues]
      rfl
  | @store _ s _ _ hvalue =>
      exact congrArg (fun vars => [s.address.name :: vars]) hvalue.varNames_eq
  | call hvalues => exact CallSite.varNames_lines hvalues returnLabel
  | returnValue hvalue => exact congrArg (fun vars => [vars, []]) hvalue.varNames_eq
  | load | goto | branch | returnVoid | label => rfl

end Tile.Lowers

/-- The words of a tile for variables are those of its instruction, line by line and in their order,
and other variables than the assigned one keep their words unless they are named like a register
that is written. -/
structure Tile.Frames (instruction : Instruction) (tile : Tile) : Prop where
  words : tile.lines.map L2.Line.varNames = instruction.lineVars
  names : ∀ line ∈ tile.lines, line.varNames ⊆ Node.varNames instruction.nodes
  keeps : ∀ name, instruction.assigned? ≠ some name →
    name ∉ instruction.writtenRegisters.map L2.Register.name → L2.Keeps tile.lines name

theorem Tile.varNames_subset {instruction : Instruction} {tile : Tile}
    (h : tile.lines.map L2.Line.varNames = instruction.lineVars) :
    ∀ line ∈ tile.lines, line.varNames ⊆ Node.varNames instruction.nodes := by
  intro line hline
  apply Instruction.lineVars_subset
  rw [← h]
  exact List.mem_map_of_mem hline

theorem Tile.Lowers.frames {returnLabel : String} {instruction : Instruction} {tile : Tile}
    (h : Lowers returnLabel instruction tile) : Frames instruction tile where
  words := h.lineVars_eq
  names := varNames_subset h.lineVars_eq
  keeps := by
    intro name hassigned hregisters
    apply L2.keeps_of_writtenWords
    intro line hline hword
    rcases h.writtenWords hline hword with hword | hword
    · exact hassigned hword
    · exact hregisters hword

section Renaming

variable (rename : String → String)

@[simp]
theorem Atom.varNames_mapLabels (atom : Atom) :
    (atom.mapLabels rename).varNames = atom.varNames := by
  cases atom <;> rfl

theorem Instruction.lineVars_mapLabels (instruction : Instruction) :
    (instruction.mapLabels .skip rename).lineVars = instruction.lineVars := by
  cases instruction with
  | assign a =>
      obtain ⟨id, target, value⟩ := a
      cases value with
      | atom a => cases target <;> simp [mapLabels, Expression.mapLabels, lineVars]
      | binop b =>
          obtain ⟨id', operator, lhs, rhs⟩ := b
          cases target with
          | var x =>
              cases operator <;> simp [mapLabels, Expression.mapLabels, Binop.mapLabels, lineVars]
          | store s => rfl
      | load | call => cases target <;> rfl
  | returnValue id value => simp [mapLabels, lineVars]
  | goto | branch | call | returnVoid | label => rfl

theorem Instruction.assigned?_mapLabels (instruction : Instruction) :
    (instruction.mapLabels .skip rename).assigned? = instruction.assigned? := by
  cases instruction with
  | assign a =>
      obtain ⟨id, target, value⟩ := a
      cases target <;> rfl
  | goto | branch | call | returnValue | returnVoid | label => rfl

theorem Instruction.writtenRegisters_mapLabels (instruction : Instruction) :
    (instruction.mapLabels .skip rename).writtenRegisters = instruction.writtenRegisters := by
  cases instruction with
  | assign a =>
      obtain ⟨id, target, value⟩ := a
      cases target <;> cases value <;> rfl
  | goto | branch | call | returnValue | returnVoid | label => rfl

theorem Tile.Frames.of_mapLabels {instruction : Instruction} {tile : Tile}
    (h : Frames (instruction.mapLabels .skip rename) tile) : Frames instruction tile := by
  obtain ⟨hwords, -, hkeeps⟩ := h
  rw [Instruction.lineVars_mapLabels] at hwords
  rw [Instruction.assigned?_mapLabels, Instruction.writtenRegisters_mapLabels] at hkeeps
  exact ⟨hwords, varNames_subset hwords, hkeeps⟩

end Renaming

end L3Lowering
