import L3Lowering.Tile.Select
import Mathlib.Data.List.Forall2

namespace L3Lowering

variable {σ : Type}

theorem except_bind_eq_ok {ε α β : Type} {x : Except ε α} {f : α → Except ε β} {b : β} :
    x >>= f = .ok b ↔ ∃ a, x = .ok a ∧ f a = .ok b := by
  cases x <;> simp [bind, Except.bind]

theorem except_map_eq_ok {ε α β : Type} {x : Except ε α} {f : α → β} {b : β} :
    x.map f = .ok b ↔ ∃ a, x = .ok a ∧ f a = b := by
  cases x <;> simp [Except.map]

theorem except_map_eq_error {ε α β : Type} {x : Except ε α} {f : α → β} {e : ε} :
    x.map f = .error e ↔ x = .error e := by
  cases x <;> simp [Except.map]

inductive Atom.StandsFor : Atom → L2.Value → Prop
  | var (v : Var) : StandsFor (.var v) (.var v.name)
  | label (l : Label) : StandsFor (.label l) (.label l.name)
  | literal (n : Literal) : StandsFor (.literal n) (.literal n.value)

/-- The tile of an instruction, given the label that its call returns to. -/
inductive Tile.Lowers (returnLabel : String) : Instruction → Tile → Prop
  | assign {id : NodeId} {x : Var} {a : Atom} {v : L2.Value} (hvalue : a.StandsFor v) :
      Lowers returnLabel (.assign ⟨id, .var x, .atom a⟩) (.assign x.name v)
  | load {id : NodeId} {x : Var} {l : Load} :
      Lowers returnLabel (.assign ⟨id, .var x, .load l⟩) (.load x.name l.address.name)
  | arithmetic {id id' : NodeId} {x : Var} {op : Arithmetic} {a b : Atom} {v w : L2.Value}
      (hlhs : a.StandsFor v) (hrhs : b.StandsFor w) :
      Lowers returnLabel (.assign ⟨id, .var x, .binop ⟨id', .arithmetic op, a, b⟩⟩)
        (.arithmetic x.name op v w)
  | comparison {id id' : NodeId} {x : Var} {op : Comparison} {a b : Atom} {v w : L2.Value}
      (hlhs : a.StandsFor v) (hrhs : b.StandsFor w) :
      Lowers returnLabel (.assign ⟨id, .var x, .binop ⟨id', .comparison op, a, b⟩⟩)
        (.comparison x.name op v w)
  | assignCall {id : NodeId} {x : Var} {c : Call} {values : List L2.Value}
      (hvalues : List.Forall₂ Atom.StandsFor c.arguments values) :
      Lowers returnLabel (.assign ⟨id, .var x, .call c⟩)
        (.assignCall x.name ⟨c.callee.toL2, values, returnLabel⟩)
  | store {id : NodeId} {s : Store} {a : Atom} {v : L2.Value} (hvalue : a.StandsFor v) :
      Lowers returnLabel (.assign ⟨id, .store s, .atom a⟩) (.store s.address.name v)
  | goto {g : Goto} : Lowers returnLabel (.goto g) (.goto g.target.name)
  | branch {b : Branch} :
      Lowers returnLabel (.branch b) (.branch b.condition.name b.onTrue.name b.onFalse.name)
  | call {c : Call} {values : List L2.Value}
      (hvalues : List.Forall₂ Atom.StandsFor c.arguments values) :
      Lowers returnLabel (.call c) (.call ⟨c.callee.toL2, values, returnLabel⟩)
  | returnValue {id : NodeId} {a : Atom} {v : L2.Value} (hvalue : a.StandsFor v) :
      Lowers returnLabel (.returnValue id a) (.returnValue v)
  | returnVoid {id : NodeId} : Lowers returnLabel (.returnVoid id) .returnVoid
  | label {l : Label} : Lowers returnLabel (.label l) (.label l.name)

theorem Atom.standsFor_of_toValue {atom : Atom} {tile : TileKind} {value : L2.Value}
    (h : atom.toValue tile = .ok value) : atom.StandsFor value := by
  cases atom with
  | var v =>
      cases h
      exact .var v
  | label l =>
      cases h
      exact .label l
  | literal n =>
      cases h
      exact .literal n
  | runtime r => cases h

theorem Atom.standsFor_of_toOperand {atom : Atom} {binop : Binop} {value : L2.Value}
    (h : atom.toOperand binop = .ok value) : atom.StandsFor value := by
  cases atom with
  | var v =>
      cases h
      exact .var v
  | literal n =>
      cases h
      exact .literal n
  | label | runtime => cases h

theorem standsFor_of_toValues {tile : TileKind} {atoms : List Atom} {values : List L2.Value}
    (h : atoms.mapM (Atom.toValue tile) = .ok values) :
    List.Forall₂ Atom.StandsFor atoms values := by
  induction atoms generalizing values with
  | nil =>
      cases h
      exact .nil
  | cons atom atoms ih =>
      rw [List.mapM_cons] at h
      obtain ⟨value, hvalue, h⟩ := except_bind_eq_ok.1 h
      obtain ⟨others, hothers, h⟩ := except_bind_eq_ok.1 h
      cases h
      exact .cons (Atom.standsFor_of_toValue hvalue) (ih hothers)

theorem CallSite.of_ofCall {call : Call} {returnLabel : String} {site : CallSite}
    (h : CallSite.ofCall call returnLabel = .ok site) :
    ∃ values, List.Forall₂ Atom.StandsFor call.arguments values ∧
      site = ⟨call.callee.toL2, values, returnLabel⟩ := by
  obtain ⟨values, hvalues, h⟩ := except_bind_eq_ok.1 h
  split at h
  · cases h
    exact ⟨values, standsFor_of_toValues hvalues, rfl⟩
  · cases h

theorem Tile.lowers_of_binop {id : NodeId} {x : Var} {b : Binop} {tile : Tile}
    (h : Tile.ofBinopAssignment x (.binop b) = .ok tile) (returnLabel : String) :
    Lowers returnLabel (.assign ⟨id, .var x, .binop b⟩) tile := by
  obtain ⟨id', operator, lhs, rhs⟩ := b
  cases operator with
  | arithmetic op =>
      obtain ⟨v, hv, h⟩ := except_bind_eq_ok.1 h
      obtain ⟨w, hw, h⟩ := except_bind_eq_ok.1 h
      cases h
      exact .arithmetic (Atom.standsFor_of_toOperand hv) (Atom.standsFor_of_toOperand hw)
  | comparison op =>
      obtain ⟨v, hv, h⟩ := except_bind_eq_ok.1 h
      obtain ⟨w, hw, h⟩ := except_bind_eq_ok.1 h
      cases h
      exact .comparison (Atom.standsFor_of_toOperand hv) (Atom.standsFor_of_toOperand hw)
  | greater | greaterEqual => cases h

theorem Selector.lowers_of_choose {supply : LabelSupply σ} {instruction : Instruction} {tile : Tile}
    (h : (Selector.choose supply instruction).1 = .ok tile) :
    Tile.Lowers supply.take.1 instruction tile := by
  cases instruction with
  | assign assignment =>
      obtain ⟨id, target, value⟩ := assignment
      cases target with
      | var x =>
          cases value with
          | atom a =>
              cases a with
              | var | label | literal =>
                  obtain ⟨v, hv, h⟩ := except_bind_eq_ok.1 h
                  cases h
                  exact .assign (Atom.standsFor_of_toValue hv)
              | runtime r => cases h
          | binop b => exact Tile.lowers_of_binop h _
          | load l =>
              cases h
              exact .load
          | call c =>
              obtain ⟨site, hsite, h⟩ := except_bind_eq_ok.1 h
              obtain ⟨values, hvalues, rfl⟩ := CallSite.of_ofCall hsite
              cases h
              exact .assignCall hvalues
      | store s =>
          cases value with
          | atom a =>
              cases a with
              | var | label | literal =>
                  obtain ⟨v, hv, h⟩ := except_bind_eq_ok.1 h
                  cases h
                  exact .store (Atom.standsFor_of_toValue hv)
              | runtime r => cases h
          | binop | load | call => cases h
  | goto g =>
      cases h
      exact .goto
  | branch b =>
      cases h
      exact .branch
  | call c =>
      obtain ⟨site, hsite, h⟩ := except_bind_eq_ok.1 h
      obtain ⟨values, hvalues, rfl⟩ := CallSite.of_ofCall hsite
      cases h
      exact .call hvalues
  | returnValue id value =>
      obtain ⟨v, hv, h⟩ := except_bind_eq_ok.1 h
      cases h
      exact .returnValue (Atom.standsFor_of_toValue hv)
  | returnVoid id =>
      cases h
      exact .returnVoid
  | label l =>
      cases h
      exact .label

def LabelSupply.skip : Nat → LabelSupply σ → LabelSupply σ
  | 0, supply => supply
  | n + 1, supply => supply.take.2.skip n

def LabelSupply.label (n : Nat) (supply : LabelSupply σ) : String :=
  (supply.skip n).take.1

def Instruction.callCount : Instruction → Nat
  | .call _ => 1
  | .assign ⟨_, .var _, .call _⟩ => 1
  | _ => 0

@[simp]
theorem LabelSupply.skip_zero (supply : LabelSupply σ) : supply.skip 0 = supply := rfl

theorem LabelSupply.skip_succ (supply : LabelSupply σ) (n : Nat) :
    supply.skip (n + 1) = supply.take.2.skip n := rfl

@[simp]
theorem LabelSupply.skip_skip (supply : LabelSupply σ) (m n : Nat) :
    (supply.skip m).skip n = supply.skip (m + n) := by
  induction m generalizing supply with
  | zero => rw [skip_zero, Nat.zero_add]
  | succ m ih => rw [Nat.add_right_comm, skip_succ, skip_succ, ih]

theorem LabelSupply.label_skip (supply : LabelSupply σ) (m n : Nat) :
    (supply.skip m).label n = supply.label (m + n) := by
  rw [label, label, skip_skip]

theorem LabelSupply.take_eq (supply : LabelSupply σ) :
    supply.take = (supply.label 0, supply.skip 1) := rfl

@[simp]
theorem LabelSupply.skip_counted (stem : String) (issued n : Nat) :
    (counted stem issued).skip n = counted stem (issued + n) := by
  induction n generalizing issued with
  | zero => rfl
  | succ n ih => exact (ih (issued + 1)).trans (by rw [Nat.add_right_comm, Nat.add_assoc])

@[simp]
theorem LabelSupply.label_counted (stem : String) (issued n : Nat) :
    (counted stem issued).label n = returnLabel stem (issued + n) := by
  rw [label, skip_counted]
  rfl

/-- Also an instruction that has no tile takes its label. -/
theorem Selector.supply_of_choose (supply : LabelSupply σ) (instruction : Instruction) :
    (Selector.choose supply instruction).2 = supply.skip instruction.callCount := by
  cases instruction with
  | assign assignment =>
      obtain ⟨id, target, value⟩ := assignment
      cases target with
      | var x =>
          cases value with
          | atom a => cases a <;> exact supply.skip_zero.symm
          | binop | load => exact supply.skip_zero.symm
          | call c => simp only [choose, LabelSupply.take_eq, Instruction.callCount]
      | store s =>
          cases value with
          | atom a => cases a <;> exact supply.skip_zero.symm
          | binop | load | call => exact supply.skip_zero.symm
  | call c => simp only [choose, LabelSupply.take_eq, Instruction.callCount]
  | goto | branch | returnValue | returnVoid | label => exact supply.skip_zero.symm

end L3Lowering
