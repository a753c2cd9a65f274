import L3Lowering.Parser.Grammar

namespace L3Lowering

/-- What the grammar sees of a token: the text of names, labels and numbers, the kind of others. -/
inductive Word where
  | name (text : String)
  | label (text : String)
  | number (text : String)
  | mark (kind : Kind)
  deriving DecidableEq

def Word.kind : Word → Kind
  | .name _ => .identifier
  | .label _ => .label
  | .number _ => .integer
  | .mark kind => kind

def Token.word (token : Token) : Word :=
  match token.kind with
  | .identifier => .name token.text
  | .label => .label token.text
  | .integer => .number token.text
  | kind => .mark kind

def Runtime.keyword : Runtime → Keyword
  | .print => .print
  | .allocate => .allocate
  | .arrayError => .arrayError

namespace Phrase

inductive Operand where
  | var (name : String)
  | number (text : String)

inductive Value where
  | operand (operand : Operand)
  | label (name : String)

inductive Callee where
  | var (name : String)
  | label (name : String)
  | runtime (function : Runtime)

structure Call where
  callee : Callee
  arguments : List Value

inductive RightHandSide where
  | value (value : Value)
  | operation (operator : Operator) (lhs rhs : Operand)
  | load (address : String)
  | call (call : Call)

inductive Instruction where
  | label (name : String)
  | assign (target : String) (value : RightHandSide)
  | store (address : String) (value : Value)
  | goto (target : String)
  | branch (condition onTrue onFalse : String)
  | returnValue (value : Operand)
  | returnVoid
  | call (call : Call)

structure Function where
  name : String
  parameters : List String
  body : List Instruction

/-- The phrases of a rule of the grammar, and the nodes that they stand for. -/
structure Category (φ α : Type) where
  words : φ → List Word
  size : φ → Nat
  calls : φ → List String
  InRange : φ → Prop
  build : NodeId → φ → α

namespace Category

variable {φ α : Type}

def totalSize (size : φ → Nat) : List φ → Nat
  | [] => 0
  | x :: xs => size x + totalSize size xs

/-- Nodes one after the other, each numbered from where the one before it ends. -/
def buildFrom (build : NodeId → φ → α) (size : φ → Nat) (id : NodeId) : List φ → List α
  | [] => []
  | x :: xs => build id x :: buildFrom build size (id + .ofNat (size x)) xs

variable (category : Category φ α)

def many : Category (List φ) (List α) where
  words xs := xs.flatMap category.words
  size := totalSize category.size
  calls xs := xs.flatMap category.calls
  InRange xs := ∀ x ∈ xs, category.InRange x
  build := buildFrom category.build category.size

theorem words_many_cons (x : φ) (xs : List φ) :
    category.many.words (x :: xs) = category.words x ++ category.many.words xs :=
  List.flatMap_cons

def afterComma : Category φ α :=
  { category with words := fun x => .mark .comma :: category.words x }

def separated : Category (List φ) (List α) :=
  { category.many with
    words := fun
      | [] => []
      | x :: xs => category.words x ++ category.afterComma.many.words xs }

def enclosed : Category (List φ) (List α) :=
  { category.separated with
    words := fun xs => .mark .openParen :: (category.separated.words xs ++ [.mark .closeParen]) }

end Category

def Operand.word : Operand → Word
  | .var name => .name name
  | .number text => .number text

def Operand.InRange : Operand → Prop
  | .var _ => True
  | .number text => (Text.readInt64? text.toList).isSome = true

def Operand.build (id : NodeId) : Operand → Atom
  | .var name => .var ⟨id, name⟩
  | .number text => .literal ⟨id, (Text.readInt64? text.toList).getD 0⟩

def operand : Category Operand Atom where
  words o := [o.word]
  size _ := 1
  calls _ := []
  InRange := Operand.InRange
  build := Operand.build

def Value.word : Value → Word
  | .operand o => o.word
  | .label name => .label name

def Value.InRange : Value → Prop
  | .operand o => o.InRange
  | .label _ => True

def Value.build (id : NodeId) : Value → Atom
  | .operand o => o.build id
  | .label name => .label ⟨id, name⟩

def Value.labels : Value → List String
  | .operand _ => []
  | .label name => [name]

def value : Category Value Atom where
  words v := [v.word]
  size _ := 1
  calls _ := []
  InRange := Value.InRange
  build := Value.build

def argument : Category Value Atom :=
  { value with calls := Value.labels }

def parameter : Category String Var where
  words name := [.name name]
  size _ := 1
  calls _ := []
  InRange _ := True
  build id name := ⟨id, name⟩

def Callee.word : Callee → Word
  | .var name => .name name
  | .label name => .label name
  | .runtime function => .mark (.keyword function.keyword)

def Callee.build (id : NodeId) : Callee → L3Lowering.Callee
  | .var name => .var ⟨id, name⟩
  | .label name => .label ⟨id, name⟩
  | .runtime function => .runtime ⟨id, function⟩

def Callee.labels : Callee → List String
  | .label name => [name]
  | _ => []

def callee : Category Callee L3Lowering.Callee where
  words c := [c.word]
  size _ := 1
  calls := Callee.labels
  InRange _ := True
  build := Callee.build

def call : Category Call L3Lowering.Call where
  words c := c.callee.word :: argument.enclosed.words c.arguments
  size c := 1 + argument.enclosed.size c.arguments + 1
  calls c := c.callee.labels ++ argument.enclosed.calls c.arguments
  InRange c := argument.enclosed.InRange c.arguments
  build id c :=
    ⟨id + .ofNat (1 + argument.enclosed.size c.arguments), c.callee.build id,
      argument.enclosed.build (id + 1) c.arguments⟩

def rightHandSide : Category RightHandSide Expression where
  words
    | .value v => [v.word]
    | .operation operator lhs rhs => [lhs.word, .mark (.operator operator), rhs.word]
    | .load address => [.mark (.keyword .load), .name address]
    | .call c => .mark (.keyword .call) :: call.words c
  size
    | .value _ => 1
    | .operation .. => 3
    | .load _ => 2
    | .call c => call.size c
  calls
    | .call c => call.calls c
    | _ => []
  InRange
    | .value v => v.InRange
    | .operation _ lhs rhs => lhs.InRange ∧ rhs.InRange
    | .load _ => True
    | .call c => call.InRange c
  build id
    | .value v => .atom (v.build id)
    | .operation operator lhs rhs =>
      .binop (.ofWritten (id + 2) operator (lhs.build id) (rhs.build (id + 1)))
    | .load address => .load ⟨id + 1, ⟨id, address⟩⟩
    | .call c => .call (call.build id c)

def instruction : Category Instruction L3Lowering.Instruction where
  words
    | .label name => [.label name]
    | .assign target value => .name target :: .mark .arrow :: rightHandSide.words value
    | .store address v => [.mark (.keyword .store), .name address, .mark .arrow, v.word]
    | .goto target => [.mark (.keyword .branch), .label target]
    | .branch condition onTrue onFalse =>
      [.mark (.keyword .branch), .name condition, .label onTrue, .label onFalse]
    | .returnValue o => [.mark (.keyword .ret), o.word]
    | .returnVoid => [.mark (.keyword .ret)]
    | .call c => .mark (.keyword .call) :: call.words c
  size
    | .label _ => 1
    | .assign _ value => 1 + rightHandSide.size value + 1
    | .store .. => 4
    | .goto _ => 2
    | .branch .. => 4
    | .returnValue _ => 2
    | .returnVoid => 1
    | .call c => call.size c
  calls
    | .assign _ value => rightHandSide.calls value
    | .call c => call.calls c
    | _ => []
  InRange
    | .assign _ value => rightHandSide.InRange value
    | .store _ v => v.InRange
    | .returnValue o => o.InRange
    | .call c => call.InRange c
    | _ => True
  build id
    | .label name => .label ⟨id, name⟩
    | .assign target value =>
      .assign ⟨id + .ofNat (1 + rightHandSide.size value), .var ⟨id, target⟩,
        rightHandSide.build (id + 1) value⟩
    | .store address v =>
      .assign ⟨id + 3, .store ⟨id + 1, ⟨id, address⟩⟩, .atom (v.build (id + 2))⟩
    | .goto target => .goto ⟨id + 1, ⟨id, target⟩⟩
    | .branch condition onTrue onFalse =>
      .branch ⟨id + 3, ⟨id, condition⟩, ⟨id + 1, onTrue⟩, ⟨id + 2, onFalse⟩⟩
    | .returnValue o => .returnValue (id + 1) (o.build id)
    | .returnVoid => .returnVoid id
    | .call c => .call (call.build id c)

def function : Category Function L3Lowering.Function where
  words f :=
    .mark (.keyword .define) :: .label f.name :: (parameter.enclosed.words f.parameters
      ++ .mark .openBrace :: (instruction.many.words f.body ++ [.mark .closeBrace]))
  size f := 1 + parameter.enclosed.size f.parameters + instruction.many.size f.body
  calls f := instruction.many.calls f.body
  InRange f := instruction.many.InRange f.body
  build id f :=
    ⟨⟨id, f.name⟩, parameter.enclosed.build (id + 1) f.parameters,
      instruction.many.build (id + .ofNat (1 + parameter.enclosed.size f.parameters)) f.body⟩

end Phrase

end L3Lowering
