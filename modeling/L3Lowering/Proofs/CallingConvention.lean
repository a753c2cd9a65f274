import L3Lowering.Proofs.TileShapes
import L3Lowering.Tile.Emit
import Mathlib.Logic.Function.Basic

namespace L3Lowering

namespace L2

inductive Word where
  | number (value : Int64)
  | label (name : String)
  | stack (address : Int)
  deriving DecidableEq

/-- Variables, registers and stack slots, each a store of its own. -/
structure Machine where
  vars : String → Word
  registers : Register → Word
  slots : Int → Word

namespace Machine

def get (machine : Machine) : Place → Word
  | .var name => machine.vars name
  | .register r => machine.registers r

def set (machine : Machine) (word : Word) : Place → Machine
  | .var name => { machine with vars := Function.update machine.vars name word }
  | .register r => { machine with registers := Function.update machine.registers r word }

def read (machine : Machine) : Value → Word
  | .var name => machine.vars name
  | .label name => .label name
  | .literal value => .number value
  | .register r => machine.registers r

def slot? (machine : Machine) (cell : Cell) : Option Int :=
  match machine.get cell.base with
  | .stack address => some (address + cell.offset)
  | _ => none

/-- Runs a line that moves a word; no other lines are run. -/
def step (machine : Machine) : Line → Option Machine
  | .move target value => some (machine.set (machine.read value) target)
  | .load target cell => (machine.slot? cell).map fun slot =>
      machine.set (machine.slots slot) target
  | .store cell value => (machine.slot? cell).map fun slot =>
      { machine with slots := Function.update machine.slots slot (machine.read value) }
  | _ => none

def run (machine : Machine) (lines : List Line) : Option Machine :=
  lines.foldlM step machine

def enter (machine : Machine) (locals : String → Word) (top : Int) : Machine :=
  { machine with
    vars := locals
    registers := Function.update machine.registers .rsp (.stack top) }

def atom? (machine : Machine) : Atom → Option Word
  | .var v => some (machine.vars v.name)
  | .label l => some (.label l.name)
  | .literal n => some (.number n.value)
  | .runtime _ => none

/-- What travels as the argument at a place, if the caller's stack pointer is `top`. -/
def carried (machine : Machine) (top : Int) (place : Nat) : Word :=
  match argumentRegisters[place]? with
  | some r => machine.registers r
  | none => machine.slots (top + outgoingOffset place)

end Machine

theorem outgoingOffset_injective : Function.Injective outgoingOffset := by
  intro i j h
  simp only [outgoingOffset] at h
  omega

theorem outgoingOffset_ne_returnOffset {place : Nat} (h : 6 ≤ place) :
    outgoingOffset place ≠ returnOffset := by
  have hlength : argumentRegisters.length = 6 := rfl
  simp only [outgoingOffset, returnOffset, hlength]
  omega

theorem incomingOffset_eq_iff {place count : Nat} {top shift : Int} :
    top - shift + incomingOffset place count = top + outgoingOffset place
      ↔ shift = 16 + 8 * ((count : Int) - 6) := by
  have hlength : argumentRegisters.length = 6 := rfl
  simp only [outgoingOffset, incomingOffset, hlength]
  omega

theorem le_of_argumentRegisters {place : Nat} (h : argumentRegisters[place]? = none) :
    6 ≤ place :=
  List.getElem?_eq_none_iff.1 h

theorem argumentRegisters_injective {i j : Nat} {r : Register}
    (hi : argumentRegisters[i]? = some r) (hj : argumentRegisters[j]? = some r) : i = j := by
  have hnodup : argumentRegisters.Nodup := by decide
  have hlt : i < argumentRegisters.length := (List.getElem?_eq_some_iff.1 hi).1
  exact (List.getElem?_inj hlt hnodup).1 (hi.trans hj.symm)

theorem argumentRegisters_ne_rsp {place : Nat} {r : Register}
    (h : argumentRegisters[place]? = some r) : r ≠ .rsp := by
  have hmem : r ∈ argumentRegisters := List.mem_of_getElem? h
  rintro rfl
  exact absurd hmem (by decide)

theorem mapIdx_from_cons {α β : Type} (f : Nat → α → β) (first : Nat) (a : α) (as : List α) :
    (a :: as).mapIdx (fun i => f (first + i))
      = f first a :: as.mapIdx fun i => f (first + 1 + i) := by
  have hindex : (fun i => f (first + (i + 1))) = fun i => f (first + 1 + i) := by
    funext i
    rw [Nat.add_assoc, Nat.add_comm 1 i]
  rw [List.mapIdx_cons, hindex, Nat.add_zero]

namespace Machine

variable {machine after : Machine} {top : Int}

theorem run_cons (line : Line) (lines : List Line) :
    machine.run (line :: lines) = (machine.step line).bind (·.run lines) := rfl

theorem run_append (lines lines' : List Line) :
    machine.run (lines ++ lines') = (machine.run lines).bind (·.run lines') :=
  List.foldlM_append

theorem slot?_stackCell (h : machine.registers .rsp = .stack top) (offset : Int) :
    machine.slot? (stackCell offset) = some (top + offset) := by
  simp only [slot?, stackCell, get, h]

theorem atom?_eq {atom : Atom} {value : Value} (h : atom.StandsFor value) :
    machine.atom? atom = some (machine.read value) := by
  cases h <;> rfl

theorem atom?_of_vars (hvars : after.vars = machine.vars) (atom : Atom) :
    after.atom? atom = machine.atom? atom := by
  cases atom with
  | var v => exact congrArg some (congrFun hvars v.name)
  | label | literal | runtime => rfl

structure Passes (machine : Machine) (top : Int) (place : Nat) (word : Word) (after : Machine) :
    Prop where
  vars : after.vars = machine.vars
  stack : after.registers .rsp = machine.registers .rsp
  carried : after.carried top place = word
  others : ∀ other, other ≠ place → after.carried top other = machine.carried top other

theorem step_passArgument (h : machine.registers .rsp = .stack top) (place : Nat) (value : Value) :
    ∃ after, machine.step (passArgument place value) = some after ∧
      machine.Passes top place (machine.read value) after := by
  unfold passArgument
  cases hplace : argumentRegisters[place]? with
  | some r =>
      refine ⟨machine.set (machine.read value) (.register r), rfl, rfl, ?_, ?_, ?_⟩
      · exact Function.update_of_ne (argumentRegisters_ne_rsp hplace).symm _ _
      · simp [carried, hplace, set]
      · intro other hne
        unfold carried
        cases hother : argumentRegisters[other]? with
        | some r' =>
            have hr : r' ≠ r := by
              rintro rfl
              exact hne (argumentRegisters_injective hother hplace)
            simp [set, hr]
        | none => rfl
  | none =>
      refine ⟨{ machine with
        slots := Function.update machine.slots (top + outgoingOffset place) (machine.read value) },
        ?_, rfl, rfl, ?_, ?_⟩
      · simp only [step, slot?_stackCell h, Option.map_some]
      · simp [carried, hplace]
      · intro other hne
        unfold carried
        cases hother : argumentRegisters[other]? with
        | some r => rfl
        | none =>
            have hslot : top + outgoingOffset other ≠ top + outgoingOffset place := by
              intro heq
              exact hne (outgoingOffset_injective (Int.add_left_cancel heq))
            simp [hslot]

/-- After the lines that pass arguments every argument is in its place. What the arguments stand
for does not change on the way, because only registers and slots are written and no argument is
read from one. -/
theorem run_passArguments {atoms : List Atom} {values : List Value}
    (hvalues : List.Forall₂ Atom.StandsFor atoms values) (first : Nat)
    (h : machine.registers .rsp = .stack top) :
    ∃ after, machine.run (values.mapIdx fun i => passArgument (first + i)) = some after ∧
      after.vars = machine.vars ∧ after.registers .rsp = .stack top ∧
      (∀ i atom, atoms[i]? = some atom →
        machine.atom? atom = some (after.carried top (first + i))) ∧
      ∀ place < first, after.carried top place = machine.carried top place := by
  induction hvalues generalizing machine first with
  | nil => exact ⟨machine, rfl, rfl, h, by simp, fun _ _ => rfl⟩
  | @cons atom value atoms values hvalue _ ih =>
      obtain ⟨middle, hstep, hpasses⟩ := step_passArgument h first value
      obtain ⟨after, hrun, hvars, hstack, hcarried, hbefore⟩ :=
        ih (first + 1) (hpasses.stack.trans h)
      refine ⟨after, ?_, hvars.trans hpasses.vars, hstack, ?_, ?_⟩
      · rw [mapIdx_from_cons, run_cons, hstep, Option.bind_some, hrun]
      · intro i a ha
        cases i with
        | zero =>
            obtain rfl : atom = a := by simpa using ha
            rw [Nat.add_zero, hbefore first (Nat.lt_succ_self first), hpasses.carried,
              atom?_eq hvalue]
        | succ i =>
            have hindex : first + (i + 1) = first + 1 + i := by omega
            rw [hindex, ← hcarried i a ha, atom?_of_vars hpasses.vars]
      · intro place hplace
        rw [hbefore place (by omega), hpasses.others place (by omega)]

theorem step_returnLabel (h : machine.registers .rsp = .stack top) (name : String) :
    ∃ after, machine.step (.store (stackCell returnOffset) (.label name)) = some after ∧
      after.vars = machine.vars ∧ after.registers = machine.registers ∧
      after.slots (top - 8) = .label name ∧
      ∀ place, after.carried top place = machine.carried top place := by
  refine ⟨{ machine with
    slots := Function.update machine.slots (top + returnOffset) (.label name) },
    ?_, rfl, rfl, ?_, ?_⟩
  · simp only [step, slot?_stackCell h, Option.map_some]
    rfl
  · exact Function.update_self (top + returnOffset) (Word.label name) machine.slots
  · intro place
    unfold carried
    cases hplace : argumentRegisters[place]? with
    | some r => rfl
    | none =>
        have hslot : top + outgoingOffset place ≠ top + returnOffset := by
          intro heq
          exact outgoingOffset_ne_returnOffset (le_of_argumentRegisters hplace)
            (Int.add_left_cancel heq)
        simp [hslot]

theorem vars_of_step_passArgument {place : Nat} {value : Value}
    (h : machine.step (passArgument place value) = some after) : after.vars = machine.vars := by
  unfold passArgument at h
  split at h
  · cases h
    rfl
  · obtain ⟨slot, -, rfl⟩ := Option.map_eq_some_iff.1 h
    rfl

theorem step_bindParameter {count place : Nat} (hplace : place < count) {shift : Int}
    (hshift : 6 < count → shift = 16 + 8 * ((count : Int) - 6))
    (h : machine.registers .rsp = .stack (top - shift)) (name : String) :
    machine.step (bindParameter count place name)
      = some (machine.set (machine.carried top place) (.var name)) := by
  unfold bindParameter carried
  cases hregister : argumentRegisters[place]? with
  | some r => rfl
  | none =>
      have hle := le_of_argumentRegisters hregister
      have hslot : top - shift + incomingOffset place count = top + outgoingOffset place :=
        incomingOffset_eq_iff.2 (hshift (by omega))
      simp only [step, slot?_stackCell h, Option.map_some, hslot]

theorem carried_set_var (word : Word) (name : String) (place : Nat) :
    (machine.set word (.var name)).carried top place = machine.carried top place := rfl

theorem run_bindParameters {count : Nat} {shift : Int}
    (hshift : 6 < count → shift = 16 + 8 * ((count : Int) - 6)) (names : List String)
    (first : Nat) (hcount : first + names.length = count)
    (h : machine.registers .rsp = .stack (top - shift)) :
    ∃ after, machine.run (names.mapIdx fun i => bindParameter count (first + i)) = some after ∧
      after.registers = machine.registers ∧ after.slots = machine.slots ∧
      (∀ i name, names[i]? = some name → (∀ j, i < j → names[j]? ≠ some name) →
        after.vars name = machine.carried top (first + i)) ∧
      ∀ name ∉ names, after.vars name = machine.vars name := by
  induction names generalizing machine first with
  | nil => exact ⟨machine, rfl, rfl, rfl, by simp, fun _ _ => rfl⟩
  | cons bound names ih =>
      rw [List.length_cons] at hcount
      have hstep : machine.step (bindParameter count first bound)
          = some (machine.set (machine.carried top first) (.var bound)) :=
        step_bindParameter (by omega) hshift h bound
      have hset : (machine.set (machine.carried top first) (.var bound)).registers .rsp
          = .stack (top - shift) := h
      obtain ⟨after, hrun, hregisters, hslots, hlast, hothers⟩ := ih (first + 1) (by omega) hset
      refine ⟨after, ?_, hregisters, hslots, ?_, ?_⟩
      · rw [mapIdx_from_cons, run_cons, hstep, Option.bind_some, hrun]
      · intro i name hname hlater
        -- A name that comes again is bound again, so only its last binding counts.
        cases i with
        | zero =>
            obtain rfl : bound = name := by simpa using hname
            have hnotin : bound ∉ names := by
              intro hmem
              obtain ⟨j, hj⟩ := List.mem_iff_getElem?.1 hmem
              exact hlater (j + 1) (Nat.succ_pos j) hj
            rw [hothers bound hnotin, Nat.add_zero]
            exact Function.update_self bound _ _
        | succ i =>
            have hrest := hlast i name hname fun j hj => hlater (j + 1) (Nat.succ_lt_succ hj)
            have hsucc : first + (i + 1) = first + 1 + i := by omega
            rw [hrest, carried_set_var, hsucc]
      · intro name hname
        rw [List.mem_cons, not_or] at hname
        rw [hothers name hname.2]
        exact Function.update_of_ne hname.1 _ _

end Machine

end L2

namespace CallSite

variable {call : Call} {returnLabel : String} {site : CallSite}

theorem vars_of_step_setup {line : L2.Line} (hline : line ∈ site.setup)
    {machine after : L2.Machine} (h : machine.step line = some after) :
    after.vars = machine.vars := by
  rcases List.mem_append.1 hline with hline | hline
  · obtain ⟨place, hplace, rfl⟩ := List.mem_mapIdx.1 hline
    exact L2.Machine.vars_of_step_passArgument h
  · obtain rfl := List.mem_singleton.1 hline
    obtain ⟨slot, -, rfl⟩ := Option.map_eq_some_iff.1 h
    rfl

/-- What a call does: every parameter whose name no later parameter repeats is bound to what its
argument stood for before the call, the caller's variables stay as they are, and the return label
is in the slot below the caller's stack pointer. -/
structure Delivers (call : Call) (returnLabel : String) (parameters : List String) (top : Int)
    (start atCall bound : L2.Machine) : Prop where
  arguments : ∀ (i : Nat) (name : String) (argument : Atom), parameters[i]? = some name →
    (∀ j, i < j → parameters[j]? ≠ some name) → call.arguments[i]? = some argument →
    start.atom? argument = some (bound.vars name)
  vars : atCall.vars = start.vars
  returns : atCall.slots (top - 8) = .label returnLabel
  slots : bound.slots = atCall.slots

theorem run_setup (h : CallSite.ofCall call returnLabel = .ok site) {start : L2.Machine}
    {top : Int} (hstack : start.registers .rsp = .stack top) :
    ∃ atCall, start.run site.setup = some atCall ∧ atCall.vars = start.vars ∧
      atCall.slots (top - 8) = .label returnLabel ∧
      ∀ (i : Nat) (argument : Atom), call.arguments[i]? = some argument →
        start.atom? argument = some (atCall.carried top i) := by
  obtain ⟨values, hvalues, rfl⟩ := of_ofCall h
  obtain ⟨passed, hpass, hvars, hpointer, hcarried, -⟩ :=
    L2.Machine.run_passArguments hvalues 0 hstack
  obtain ⟨atCall, hstore, hvars', -, hreturn, hsame⟩ :=
    L2.Machine.step_returnLabel hpointer returnLabel
  refine ⟨atCall, ?_, hvars'.trans hvars, hreturn, ?_⟩
  · simp only [Nat.zero_add] at hpass
    rw [setup, L2.Machine.run_append, hpass, Option.bind_some, L2.Machine.run_cons, hstore]
    rfl
  · intro i argument hargument
    rw [hsame, hcarried i argument hargument, Nat.zero_add]

/-- Running the lines before a call and then the lines that bind the parameters of a function of as
many parameters delivers the arguments, if the stack pointer has moved by the amount that belongs to
their number. -/
theorem parameters_hold_arguments (h : CallSite.ofCall call returnLabel = .ok site)
    (function : TiledFunction) (hcount : function.parameters.length = call.arguments.length)
    (start : L2.Machine) (top : Int) (hstack : start.registers .rsp = .stack top)
    (locals : String → L2.Word) (shift : Int)
    (hshift : 6 < call.arguments.length →
      shift = 16 + 8 * ((call.arguments.length : Int) - 6)) :
    (∃ atCall bound, start.run site.setup = some atCall ∧
      (atCall.enter locals (top - shift)).run function.bindings = some bound ∧
      Delivers call returnLabel function.parameters top start atCall bound) ∧
    (∀ line ∈ site.setup, ∀ machine after : L2.Machine, machine.step line = some after →
      after.vars = machine.vars) ∧
    (∀ i j, i ≠ j → L2.outgoingOffset i ≠ L2.outgoingOffset j) ∧
    (∀ i, 6 ≤ i → L2.outgoingOffset i ≠ L2.returnOffset) ∧
    ∀ (i : Nat) (distance : Int),
      top - distance + L2.incomingOffset i call.arguments.length = top + L2.outgoingOffset i
        ↔ distance = 16 + 8 * ((call.arguments.length : Int) - 6) := by
  refine ⟨?_, fun line hline machine after => vars_of_step_setup hline,
    fun i j hne heq => hne (L2.outgoingOffset_injective heq),
    fun i => L2.outgoingOffset_ne_returnOffset, fun i distance => L2.incomingOffset_eq_iff⟩
  obtain ⟨atCall, hsetup, hvars, hreturn, hcarried⟩ := run_setup h hstack
  rw [← hcount] at hshift
  have hentered : (atCall.enter locals (top - shift)).registers .rsp = .stack (top - shift) := by
    simp [L2.Machine.enter]
  obtain ⟨bound, hbind, -, hslots, hlast, -⟩ := L2.Machine.run_bindParameters hshift
    function.parameters 0 (Nat.zero_add _) hentered
  refine ⟨atCall, bound, hsetup, ?_, ?_, hvars, hreturn, hslots⟩
  · simp only [Nat.zero_add] at hbind
    exact hbind
  · intro i name argument hname hlater hargument
    rw [hcarried i argument hargument, hlast i name hname hlater, Nat.zero_add]
    -- The callee's stack pointer carries no argument.
    congr 1
    unfold L2.Machine.carried
    cases hregister : L2.argumentRegisters[i]? with
    | some r =>
        exact (Function.update_of_ne (L2.argumentRegisters_ne_rsp hregister) _ _).symm
    | none => rfl

/-- Eight arguments, of which two travel on the stack, for a function that has a name twice. -/
theorem parameters_hold_arguments_eight :
    let call : Call := ⟨0, .label ⟨0, ":f"⟩,
      [.var ⟨0, "a"⟩, .literal ⟨0, 1⟩, .literal ⟨0, 2⟩, .literal ⟨0, 3⟩, .literal ⟨0, 4⟩,
        .literal ⟨0, 5⟩, .label ⟨0, ":f"⟩, .var ⟨0, "a"⟩]⟩
    let site : CallSite := ⟨.label ":f",
      [.var "a", .literal 1, .literal 2, .literal 3, .literal 4, .literal 5, .label ":f", .var "a"],
      ":z_ret0"⟩
    let function : TiledFunction := ⟨":f", ["p", "q", "a", "s", "t", "u", "v", "p"], []⟩
    let start : L2.Machine :=
      ⟨fun _ => .number 7, fun _ => .stack 800, fun _ => .number 0⟩
    CallSite.ofCall call ":z_ret0" = .ok site ∧
      ∃ atCall bound, start.run site.setup = some atCall ∧
        (atCall.enter start.vars 768).run function.bindings = some bound ∧
        bound.vars "v" = .label ":f" ∧ bound.vars "p" = .number 7 ∧
        atCall.slots 792 = .label ":z_ret0" := by
  intro call site function start
  have hsite : CallSite.ofCall call ":z_ret0" = .ok site := rfl
  obtain ⟨⟨atCall, bound, hsetup, hbind, hdelivers⟩, -⟩ := parameters_hold_arguments hsite function
    rfl start 800 rfl start.vars 32 (fun _ => rfl)
  have hv := hdelivers.arguments 6 "v" (.label ⟨0, ":f"⟩) rfl (by
    intro j hj
    match j, hj with
    | 7, _ => decide
    | j + 8, _ => simp [function]) rfl
  have hp := hdelivers.arguments 7 "p" (.var ⟨0, "a"⟩) rfl (by
    intro j hj
    match j, hj with
    | j + 8, _ => simp [function]) rfl
  exact ⟨hsite, atCall, bound, hsetup, hbind, (Option.some.inj hv).symm, (Option.some.inj hp).symm,
    hdelivers.returns⟩

end CallSite

end L3Lowering
