import L3Lowering.Proofs.CallingConvention

namespace L3Lowering

namespace L2

def Register.all : List Register :=
  [.rdi, .rsi, .rdx, .rcx, .r8, .r9, .rax, .rsp]

def Register.ofName? (name : String) : Option Register :=
  all.find? (·.name == name)

def Place.ofName (name : String) : Place :=
  match Register.ofName? name with
  | some r => .register r
  | none => .var name

def Place.spelled : Place → Place
  | .var name => .ofName name
  | .register r => .register r

def Value.spelled : Value → Value
  | .var name =>
    match Register.ofName? name with
    | some r => .register r
    | none => .var name
  | value => value

namespace Machine

/-- The word of a variable, which is in a register if the variable is named like one. -/
def lookup (machine : Machine) (name : String) : Word :=
  machine.get (.ofName name)

/-- What a line can do to the words of a machine. The words that come from memory, from operations
and from the function called are left open. -/
inductive Steps (before : Machine) : Line → Machine → Prop
  | move (target : Place) (value : Value) :
      Steps before (.move target value) (before.set (before.read value.spelled) target.spelled)
  | load (target : Place) (cell : Cell) (word : Word) :
      Steps before (.load target cell) (before.set word target.spelled)
  | store (cell : Cell) (value : Value) (slots : Int → Word) :
      Steps before (.store cell value) { before with slots }
  | compare (target : Place) (operator : Comparison) (lhs rhs : Value) (word : Word) :
      Steps before (.compare target operator lhs rhs) (before.set word target.spelled)
  | update (target : Place) (operator : Arithmetic) (rhs : Value) (word : Word) :
      Steps before (.update target operator rhs) (before.set word target.spelled)
  | call (callee : Callee) (arguments : Nat) (registers : Register → Word) (slots : Int → Word) :
      Steps before (.call callee arguments) { before with registers, slots }
  | goto (label : String) : Steps before (.goto label) before
  | branch (condition : Place) (onTrue onFalse : String) :
      Steps before (.branch condition onTrue onFalse) before
  | ret : Steps before .ret before
  | label (name : String) : Steps before (.label name) before

inductive Runs : Machine → List Line → Machine → Prop
  | nil (machine : Machine) : Runs machine [] machine
  | cons {before middle after : Machine} {line : Line} {lines : List Line}
      (hstep : before.Steps line middle) (hrest : Runs middle lines after) :
      Runs before (line :: lines) after

end Machine

/-- The variable has the same word before and after the lines, however they are run. -/
def Keeps (lines : List Line) (name : String) : Prop :=
  ∀ before after : Machine, before.Runs lines after → after.lookup name = before.lookup name

theorem Register.mem_all (r : Register) : r ∈ all := by
  cases r <;> decide

theorem Register.name_of_ofName? {name : String} {r : Register} (h : ofName? name = some r) :
    r.name = name := by
  simpa using List.find?_some h

@[simp]
theorem Place.text_ofName (name : String) : (ofName name).text = name := by
  unfold ofName
  split
  · rename_i r h
    exact Register.name_of_ofName? h
  · rfl

@[simp]
theorem Place.text_spelled (place : Place) : place.spelled.text = place.text := by
  cases place with
  | var name => exact text_ofName name
  | register r => rfl

def Line.writtenWords : Line → List String
  | .move target _ | .load target _ | .compare target .. | .update target .. => [target.text]
  | .call .. => Register.all.map Register.name
  | .store .. | .goto _ | .branch .. | .ret | .label _ => []

def Place.varNames : Place → List String
  | .var name => [name]
  | .register _ => []

def Value.varNames : Value → List String
  | .var name => [name]
  | .label _ | .literal _ | .register _ => []

def Callee.varNames : Callee → List String
  | .var name => [name]
  | .label _ | .runtime _ => []

def Line.varNames : Line → List String
  | .move target value => target.varNames ++ value.varNames
  | .load target cell => target.varNames ++ cell.base.varNames
  | .store cell value => cell.base.varNames ++ value.varNames
  | .compare target _ lhs rhs => target.varNames ++ lhs.varNames ++ rhs.varNames
  | .update target _ rhs => target.varNames ++ rhs.varNames
  | .branch condition _ _ => condition.varNames
  | .call callee _ => callee.varNames
  | .goto _ | .ret | .label _ => []

namespace Machine

variable {before after : Machine} {line : Line} {lines : List Line} {name : String}

theorem get_set_of_ne {place target : Place} (h : place ≠ target) (word : Word) :
    (before.set word target).get place = before.get place := by
  cases target with
  | var name =>
      cases place with
      | var other =>
          have hne : other ≠ name := fun heq => h (congrArg Place.var heq)
          exact Function.update_of_ne hne _ _
      | register r => rfl
  | register r =>
      cases place with
      | var other => rfl
      | register other =>
          have hne : other ≠ r := fun heq => h (congrArg Place.register heq)
          exact Function.update_of_ne hne _ _

theorem lookup_set_of_ne {target : Place} (h : name ≠ target.text) (word : Word) :
    (before.set word target.spelled).lookup name = before.lookup name := by
  apply get_set_of_ne
  intro heq
  have htext := congrArg Place.text heq
  rw [Place.text_ofName, Place.text_spelled] at htext
  exact h htext

theorem Steps.lookup_eq (h : before.Steps line after) (hname : name ∉ line.writtenWords) :
    after.lookup name = before.lookup name := by
  cases h with
  | move | load | compare | update =>
      exact lookup_set_of_ne (fun heq => hname (List.mem_singleton.2 heq)) _
  | call callee arguments registers slots =>
      -- The function called has variables of its own and the registers in common.
      unfold Machine.lookup Place.ofName
      split
      · rename_i r hr
        have hmem : r.name ∈ Register.all.map Register.name := List.mem_map_of_mem r.mem_all
        exact absurd (Register.name_of_ofName? hr ▸ hmem) hname
      · rfl
  | store cell value slots =>
      unfold Machine.lookup
      cases Place.ofName name <;> rfl
  | goto | branch | ret | label => rfl

theorem Runs.lookup_eq (h : before.Runs lines after)
    (hname : ∀ line ∈ lines, name ∉ line.writtenWords) :
    after.lookup name = before.lookup name := by
  induction h with
  | nil => rfl
  | cons hstep hrest ih =>
      obtain ⟨hline, hlines⟩ := List.forall_mem_cons.1 hname
      rw [ih hlines, hstep.lookup_eq hline]

end Machine

theorem keeps_of_writtenWords {lines : List Line} {name : String}
    (h : ∀ line ∈ lines, name ∉ line.writtenWords) : Keeps lines name :=
  fun _ _ hruns => hruns.lookup_eq h

end L2

end L3Lowering
