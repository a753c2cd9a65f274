import L3Lowering.Text.Decimal

namespace L3Lowering

/-- A source of return labels: its state, and the step that gives a label and the next state. Every
call takes a label from the supply that the calls before it left. -/
structure LabelSupply (σ : Type) where
  state : σ
  step : σ → String × σ

namespace LabelSupply

variable {σ : Type}

def take (supply : LabelSupply σ) : String × LabelSupply σ :=
  let (label, state) := supply.step supply.state
  (label, { supply with state })

def returnLabel (stem : String) (k : Nat) : String :=
  ":" ++ stem ++ "_ret" ++ Text.natText k

/-- Gives `:<stem>_ret0`, `:<stem>_ret1`, ..., and has given `issued` of them. -/
def counted (stem : String) (issued : Nat) : LabelSupply Nat where
  state := issued
  step k := (returnLabel stem k, k + 1)

@[simp]
theorem take_counted (stem : String) (issued : Nat) :
    (counted stem issued).take = (returnLabel stem issued, counted stem (issued + 1)) := rfl

def ofStem (stem : String) : LabelSupply Nat :=
  .counted stem 0

end LabelSupply

end L3Lowering
