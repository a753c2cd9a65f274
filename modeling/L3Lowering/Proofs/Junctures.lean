import L3Lowering.Proofs.ProgramReading
import L3Lowering.Proofs.Spelling

namespace L3Lowering

/-- A place between two words, named for what is due there. Calls, lists and functions do not nest,
so a place is known by what may come next. -/
inductive Juncture where
  | start
  | functionName
  | parameters
  | firstParameter
  | afterParameter
  | nextParameter
  | openBrace
  | instruction
  | arrow
  | rightHandSide
  | operator
  | secondOperand
  | loadAddress
  | callee
  | arguments
  | firstArgument
  | afterArgument
  | nextArgument
  | storeAddress
  | storeArrow
  | storedValue
  | branchTarget
  | onTrue
  | onFalse
  | returned
  /-- After `return` and a variable, which may turn out to be the target of an assignment. -/
  | returnedVar
  | done
  deriving DecidableEq

namespace Juncture

def either (kind : Kind) (place : Juncture) (others : Kind → Option Juncture) (found : Kind) :
    Option Juncture :=
  if found = kind then some place else others found

def only (kind : Kind) (place : Juncture) : Kind → Option Juncture :=
  either kind place fun _ => none

def afterOperand (place : Juncture) : Kind → Option Juncture :=
  either .identifier place (only .integer place)

def afterValue (place : Juncture) : Kind → Option Juncture :=
  either .label place (afterOperand place)

def afterInstruction : Kind → Option Juncture
  | .label => some .instruction
  | .identifier => some .arrow
  | .keyword .store => some .storeAddress
  | .keyword .branch => some .branchTarget
  | .keyword .ret => some .returned
  | .keyword .call => some .callee
  | .closeBrace => some .done
  | _ => none

def afterArrow : Kind → Option Juncture
  | .keyword .load => some .loadAddress
  | .keyword .call => some .callee
  | .label => some .instruction
  | .identifier => some .operator
  | .integer => some .operator
  | _ => none

def afterCall : Kind → Option Juncture
  | .identifier => some .arguments
  | .label => some .arguments
  | .keyword .print => some .arguments
  | .keyword .allocate => some .arguments
  | .keyword .arrayError => some .arguments
  | _ => none

def next : Juncture → Kind → Option Juncture
  | .start => only (.keyword .define) .functionName
  | .functionName => only .label .parameters
  | .parameters => only .openParen .firstParameter
  | .firstParameter => either .closeParen .openBrace (only .identifier .afterParameter)
  | .afterParameter => either .comma .nextParameter (only .closeParen .openBrace)
  | .nextParameter => only .identifier .afterParameter
  | .openBrace => only .openBrace .instruction
  | .instruction => afterInstruction
  | .arrow => only .arrow .rightHandSide
  | .rightHandSide => afterArrow
  | .operator => fun
    | .operator _ => some .secondOperand
    | kind => afterInstruction kind
  | .secondOperand => afterOperand .instruction
  | .loadAddress => only .identifier .instruction
  | .callee => afterCall
  | .arguments => only .openParen .firstArgument
  | .firstArgument => either .closeParen .instruction (afterValue .afterArgument)
  | .afterArgument => either .comma .nextArgument (only .closeParen .instruction)
  | .nextArgument => afterValue .afterArgument
  | .storeAddress => only .identifier .storeArrow
  | .storeArrow => only .arrow .storedValue
  | .storedValue => afterValue .instruction
  | .branchTarget => either .label .instruction (only .identifier .onTrue)
  | .onTrue => only .label .onFalse
  | .onFalse => only .label .instruction
  | .returned => either .integer .instruction (either .identifier .returnedVar afterInstruction)
  | .returnedVar => either .arrow .rightHandSide afterInstruction
  | .done => only (.keyword .define) .functionName

end Juncture

def Word.fits : Word → Bool
  | .number text => (Text.readInt64? text.toList).isSome
  | _ => true

namespace Juncture

def step (place : Juncture) (word : Word) : Option Juncture :=
  if word.fits then place.next word.kind else none

def run (place : Juncture) (words : List Word) : Option Juncture :=
  words.foldlM step place

def isDone (place : Juncture) : Bool :=
  place == .done

/-- Whether a program may end after the tokens, unless one of them is out of place. -/
def watch (place : Juncture) (tokens : List Token) : Option Bool :=
  (place.run (tokens.map Token.word)).map isDone

theorem run_cons (place : Juncture) (word : Word) (words : List Word) :
    place.run (word :: words) = (place.step word).bind (·.run words) := rfl

theorem run_append (place : Juncture) (words others : List Word) :
    place.run (words ++ others) = (place.run words).bind (·.run others) :=
  List.foldlM_append

variable {place : Juncture} {token : Token}

theorem watch_nil (place : Juncture) : place.watch [] = some place.isDone := rfl

theorem watch_cons (place : Juncture) (token : Token) (tokens : List Token) :
    place.watch (token :: tokens) = (place.step token.word).bind (·.watch tokens) := by
  rw [watch, List.map_cons, run_cons]
  cases place.step token.word <;> rfl

theorem watch_append_eq_none {tokens : List Token} (h : place.watch tokens = none)
    (others : List Token) : place.watch (tokens ++ others) = none := by
  rw [watch, Option.map_eq_none_iff] at h
  rw [watch, List.map_append, run_append, h]
  rfl

theorem step_word (h : token.kind ≠ .integer) : place.step token.word = place.next token.kind := by
  have hfits : token.word.fits = true := by
    cases hkind : token.kind with
    | integer => exact absurd hkind h
    | _ => simp [Token.word, hkind, Word.fits]
  rw [step, if_pos hfits, Parser.kind_word]

theorem step_integer (h : token.kind = .integer) :
    place.step token.word
      = if (Text.readInt64? token.text.toList).isSome then place.next .integer else none := by
  rw [step, Parser.word_number h]
  rfl

theorem watch_congr {other : Juncture} {tokens : List Token} (hdone : place.isDone = other.isDone)
    (hstep : ∀ token ∈ tokens.head?, place.step token.word = other.step token.word)
    {ahead : List Token} (hahead : ahead <+: tokens) : place.watch ahead = other.watch ahead := by
  cases ahead with
  | nil => rw [watch_nil, watch_nil, hdone]
  | cons token ahead =>
      obtain ⟨rest, rfl⟩ := hahead
      rw [watch_cons, watch_cons, hstep token rfl]

/-- Words that lead to the end of a program. -/
def completion : Juncture → List Word
  | .start | .done => .mark (.keyword .define) :: .label ":x" :: emptyLists
  | .functionName => .label ":x" :: emptyLists
  | .parameters => emptyLists
  | .firstParameter | .afterParameter => emptyLists.tail
  | .nextParameter => .name "x" :: emptyLists.tail
  | .openBrace => [.mark .openBrace, .mark .closeBrace]
  | .instruction | .operator | .returned | .returnedVar => [.mark .closeBrace]
  | .arrow | .storeArrow => [.mark .arrow, .name "x", .mark .closeBrace]
  | .rightHandSide | .secondOperand | .loadAddress | .storedValue => [.name "x", .mark .closeBrace]
  | .callee => [.name "x", .mark .openParen, .mark .closeParen, .mark .closeBrace]
  | .arguments => [.mark .openParen, .mark .closeParen, .mark .closeBrace]
  | .firstArgument | .afterArgument => [.mark .closeParen, .mark .closeBrace]
  | .nextArgument => [.name "x", .mark .closeParen, .mark .closeBrace]
  | .storeAddress => [.name "x", .mark .arrow, .name "x", .mark .closeBrace]
  | .branchTarget | .onFalse => [.label ":x", .mark .closeBrace]
  | .onTrue => [.label ":x", .label ":x", .mark .closeBrace]
where
  emptyLists : List Word :=
    [.mark .openParen, .mark .closeParen, .mark .openBrace, .mark .closeBrace]

theorem run_completion (place : Juncture) : place.run place.completion = some .done := by
  cases place <;> rfl

theorem completion_ne_nil (place : Juncture) : place.completion ≠ [] := by
  cases place <;> simp [completion, completion.emptyLists]

end Juncture

end L3Lowering
