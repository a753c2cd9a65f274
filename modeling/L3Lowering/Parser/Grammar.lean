import L3Lowering.Parser.Basic
import L3Lowering.Text.Decimal
import L3Lowering.Token.Scan

namespace L3Lowering

namespace Parser

variable {α : Type}

def var : Parser Var := do
  let token ← expect .identifier .var
  return ⟨← freshId, token.text⟩

def label : Parser Label := do
  let token ← expect .label .label
  return ⟨← freshId, token.text⟩

def operandFrom (token : Token) : Parser Atom :=
  match token.kind with
  | .identifier => do return .var ⟨← freshId, token.text⟩
  | .integer =>
    match Text.readInt64? token.text.toList with
    | some value => do return .literal ⟨← freshId, value⟩
    | none => fail (.literalRange token)
  | _ => fail (.unexpected .operand token)

def operand : Parser Atom :=
  next .operand >>= operandFrom

def nextIs (kind : Kind) : Parser Bool := do
  return (← ahead).head?.any (·.kind = kind)

def value : Parser Atom := do
  if ← nextIs .label then return .label (← label) else operand

def argument : Parser Atom := do
  if ← nextIs .label then
    let token ← expect .label .label
    noteCallLabel token
    return .label ⟨← freshId, token.text⟩
  else operand

def callee : Parser Callee := do
  let token ← next .callee
  match token.kind with
  | .identifier => return .var ⟨← freshId, token.text⟩
  | .label =>
    noteCallLabel token
    return .label ⟨← freshId, token.text⟩
  | .keyword .print => return .runtime ⟨← freshId, .print⟩
  | .keyword .allocate => return .runtime ⟨← freshId, .allocate⟩
  | .keyword .arrayError => return .runtime ⟨← freshId, .arrayError⟩
  | _ => fail (.unexpected .callee token)

def afterComma (item : Parser α) : Parser α := do
  let _ ← expect .comma .commaOrClose
  item

theorem consumes_afterComma {item : Parser α} (h : item.Consumes) : (afterComma item).Consumes :=
  (consumes_expect _ _).bind fun _ => h.steady

def items (first : Expectation) (item : Parser α) (consumes : item.Consumes) :
    Parser (List α) := do
  let token ← peek first
  if token.kind = .closeParen then return []
  else
    let a ← item
    let as ← whileNext (· == some .comma) (afterComma item) (consumes_afterComma consumes)
    return a :: as

theorem steady_items (first : Expectation) {item : Parser α} (h : item.Consumes) :
    (items first item h).Steady :=
  (steady_peek _).bind fun _ =>
    steady_ite (steady_pure _)
      (h.steady.bind fun _ => (steady_whileNext _ _ _).bind fun _ => steady_pure _)

def listOf (first : Expectation) (item : Parser α) (consumes : item.Consumes) :
    Parser (List α) := do
  let _ ← expect .openParen .openParen
  let as ← items first item consumes
  let _ ← expect .closeParen .commaOrClose
  return as

theorem consumes_listOf (first : Expectation) {item : Parser α} (h : item.Consumes) :
    (listOf first item h).Consumes :=
  (consumes_expect _ _).bind fun _ =>
    (steady_items first h).bind fun _ =>
      (consumes_expect _ _).steady.bind fun _ => steady_pure _

theorem consumes_var : var.Consumes :=
  (consumes_expect _ _).bind fun _ => steady_freshId.bind fun _ => steady_pure _

theorem consumes_label : label.Consumes :=
  (consumes_expect _ _).bind fun _ => steady_freshId.bind fun _ => steady_pure _

theorem steady_operandFrom (token : Token) : (operandFrom token).Steady := by
  unfold operandFrom
  split
  · exact steady_freshId.bind fun _ => steady_pure _
  · split
    · exact steady_freshId.bind fun _ => steady_pure _
    · exact steady_fail _
  · exact steady_fail _

theorem consumes_operand : operand.Consumes :=
  (consumes_next _).bind steady_operandFrom

theorem steady_nextIs (kind : Kind) : (nextIs kind).Steady :=
  steady_ahead.bind fun _ => steady_pure _

theorem consumes_value : value.Consumes :=
  (steady_nextIs _).bind_consumes fun _ =>
    (consumes_label.bind fun _ => steady_pure _).ite consumes_operand

theorem consumes_argument : argument.Consumes :=
  (steady_nextIs _).bind_consumes fun _ =>
    ((consumes_expect _ _).bind fun _ =>
      (steady_noteCallLabel _).bind fun _ =>
        steady_freshId.bind fun _ => steady_pure _).ite consumes_operand

theorem consumes_callee : callee.Consumes := by
  refine (consumes_next _).bind fun token => ?_
  split
  · exact steady_freshId.bind fun _ => steady_pure _
  · exact (steady_noteCallLabel _).bind fun _ => steady_freshId.bind fun _ => steady_pure _
  · exact steady_freshId.bind fun _ => steady_pure _
  · exact steady_freshId.bind fun _ => steady_pure _
  · exact steady_freshId.bind fun _ => steady_pure _
  · exact steady_fail _

def parameters : Parser (List Var) :=
  listOf .parameterOrClose var consumes_var

def arguments : Parser (List Atom) :=
  listOf .argumentOrClose argument consumes_argument

def call : Parser Call := do
  let callee ← callee
  let arguments ← arguments
  return ⟨← freshId, callee, arguments⟩

end Parser

/-- The operation of a written operator on written operands. -/
def Binop.ofWritten (id : NodeId) (operator : Operator) (lhs rhs : Atom) : Binop :=
  match operator with
  | .greater => ⟨id, .comparison .less, rhs, lhs⟩
  | .greaterEqual => ⟨id, .comparison .lessEqual, rhs, lhs⟩
  | _ => ⟨id, operator, lhs, rhs⟩

namespace Parser

def operation (first : Atom) : Parser Expression := do
  match (← ahead).head?.map Token.kind with
  | some (.operator operator) =>
    let _ ← next .operand
    let second ← operand
    return .binop (.ofWritten (← freshId) operator first second)
  | _ => return .atom first

def rightHandSide : Parser Expression := do
  let token ← next .rightHandSide
  match token.kind with
  | .keyword .load =>
    let address ← var
    return .load ⟨← freshId, address⟩
  | .keyword .call => return .call (← call)
  | .label => return .atom (.label ⟨← freshId, token.text⟩)
  | .identifier => operandFrom token >>= operation
  | .integer => operandFrom token >>= operation
  | _ => fail (.unexpected .rightHandSide token)

/-- Whether the tokens after `return` start with its value. A variable before an arrow is the
target of the next instruction. -/
def startsReturned : List Token → Bool
  | [] => false
  | token :: tokens =>
    match token.kind with
    | .integer => true
    | .identifier => !tokens.head?.any (·.kind = .arrow)
    | _ => false

def instructionFrom (token : Token) : Parser Instruction :=
  match token.kind with
  | .label => do return .label ⟨← freshId, token.text⟩
  | .identifier => do
    let target : Var := ⟨← freshId, token.text⟩
    let _ ← expect .arrow .arrow
    let value ← rightHandSide
    return .assign ⟨← freshId, .var target, value⟩
  | .keyword .store => do
    let address ← var
    let target : Store := ⟨← freshId, address⟩
    let _ ← expect .arrow .arrow
    let value ← value
    return .assign ⟨← freshId, .store target, .atom value⟩
  | .keyword .branch => do
    let token ← next .branchTarget
    match token.kind with
    | .label =>
      let target : Label := ⟨← freshId, token.text⟩
      return .goto ⟨← freshId, target⟩
    | .identifier =>
      let condition : Var := ⟨← freshId, token.text⟩
      let onTrue ← label
      let onFalse ← label
      return .branch ⟨← freshId, condition, onTrue, onFalse⟩
    | _ => fail (.unexpected .branchTarget token)
  | .keyword .ret => do
    if startsReturned (← ahead) then
      let value ← operand
      return .returnValue (← freshId) value
    else return .returnVoid (← freshId)
  | .keyword .call => do return .call (← call)
  | _ => fail (.unexpected .instruction token)

def instruction : Parser Instruction :=
  next .instructionOrClose >>= instructionFrom

theorem consumes_call : call.Consumes :=
  consumes_callee.bind fun _ =>
    (consumes_listOf _ consumes_argument).steady.bind fun _ =>
      steady_freshId.bind fun _ => steady_pure _

theorem steady_operation (first : Atom) : (operation first).Steady := by
  refine steady_ahead.bind fun tokens => ?_
  split
  · exact (consumes_next _).steady.bind fun _ =>
      consumes_operand.steady.bind fun _ => steady_freshId.bind fun _ => steady_pure _
  · exact steady_pure _

theorem consumes_rightHandSide : rightHandSide.Consumes := by
  refine (consumes_next _).bind fun token => ?_
  split
  · exact consumes_var.steady.bind fun _ => steady_freshId.bind fun _ => steady_pure _
  · exact consumes_call.steady.bind fun _ => steady_pure _
  · exact steady_freshId.bind fun _ => steady_pure _
  · exact (steady_operandFrom token).bind steady_operation
  · exact (steady_operandFrom token).bind steady_operation
  · exact steady_fail _

theorem steady_instructionFrom (token : Token) : (instructionFrom token).Steady := by
  unfold instructionFrom
  split
  · exact steady_freshId.bind fun _ => steady_pure _
  · exact steady_freshId.bind fun _ =>
      (consumes_expect _ _).steady.bind fun _ =>
        consumes_rightHandSide.steady.bind fun _ => steady_freshId.bind fun _ => steady_pure _
  · exact consumes_var.steady.bind fun _ =>
      steady_freshId.bind fun _ =>
        (consumes_expect _ _).steady.bind fun _ =>
          consumes_value.steady.bind fun _ => steady_freshId.bind fun _ => steady_pure _
  · refine (consumes_next _).steady.bind fun token => ?_
    split
    · exact steady_freshId.bind fun _ => steady_freshId.bind fun _ => steady_pure _
    · exact steady_freshId.bind fun _ =>
        consumes_label.steady.bind fun _ =>
          consumes_label.steady.bind fun _ => steady_freshId.bind fun _ => steady_pure _
    · exact steady_fail _
  · exact steady_ahead.bind fun _ =>
      steady_ite
        (consumes_operand.steady.bind fun _ => steady_freshId.bind fun _ => steady_pure _)
        (steady_freshId.bind fun _ => steady_pure _)
  · exact consumes_call.steady.bind fun _ => steady_pure _
  · exact steady_fail _

theorem consumes_instruction : instruction.Consumes :=
  (consumes_next _).bind steady_instructionFrom

def function : Parser Function := do
  let _ ← expect (.keyword .define) .define
  let name ← label
  let parameters ← parameters
  let _ ← expect .openBrace .openBrace
  let body ← whileNext (· != some .closeBrace) instruction consumes_instruction
  let _ ← expect .closeBrace .instructionOrClose
  return ⟨name, parameters, body⟩

theorem consumes_function : function.Consumes :=
  (consumes_expect _ _).bind fun _ =>
    consumes_label.steady.bind fun _ =>
      (consumes_listOf _ consumes_var).steady.bind fun _ =>
        (consumes_expect _ _).steady.bind fun _ =>
          (steady_whileNext _ _ _).bind fun _ =>
            (consumes_expect _ _).steady.bind fun _ => steady_pure _

def program : Parser Program := do
  let first ← function
  let others ← whileNext Option.isSome function consumes_function
  return ⟨first :: others⟩

end Parser

def Program.strayCallLabel? (program : Program) (callLabels : List Token) : Option Token :=
  callLabels.find? fun token => !program.functionNames.contains token.text

def Program.ofTokens (tokens : List Token) : Except ParseError Program :=
  match Parser.program ⟨tokens, 0, []⟩ with
  | .error e => .error e
  | .ok (program, s) =>
    match program.strayCallLabel? s.callLabels with
    | some token => .error (.unknownFunction token)
    | none => .ok program

def Source.parse (source : Source) : Except ParseError Program :=
  Program.ofTokens source.tokens

end L3Lowering
