import L3Lowering.L2.Line

namespace L3Lowering.L2

def argumentRegisters : List Register :=
  [.rdi, .rsi, .rdx, .rcx, .r8, .r9]

def resultRegister : Register :=
  .rax

def stackCell (offset : Int) : Cell :=
  ⟨.register .rsp, offset⟩

def returnOffset : Int :=
  -8

def outgoingOffset (place : Nat) : Int :=
  -16 - 8 * ((place : Int) - argumentRegisters.length)

/-- The caller stores arguments below its stack pointer, under the return label; the callee reads
them above its own, the last one lowest. -/
def incomingOffset (place count : Nat) : Int :=
  ((count : Int) - place) * 8

def spillCount (count : Nat) : Nat :=
  count - argumentRegisters.length

def passArgument (place : Nat) (value : Value) : Line :=
  match argumentRegisters[place]? with
  | some register => .move (.register register) value
  | none => .store (stackCell (outgoingOffset place)) value

def bindParameter (count place : Nat) (name : String) : Line :=
  match argumentRegisters[place]? with
  | some register => .move (.var name) (.register register)
  | none => .load (.var name) (stackCell (incomingOffset place count))

end L3Lowering.L2
