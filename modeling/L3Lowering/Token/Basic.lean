import L3Lowering.Operator
import L3Lowering.Source.Basic

namespace L3Lowering

inductive Keyword where
  | define
  | load
  | store
  | branch
  | ret
  | call
  | print
  | allocate
  | arrayError
  deriving DecidableEq

namespace Keyword

def text : Keyword → String
  | .define => "define"
  | .load => "load"
  | .store => "store"
  | .branch => "br"
  | .ret => "return"
  | .call => "call"
  | .print => "print"
  | .allocate => "allocate"
  | .arrayError => "array_error"

def all : List Keyword :=
  [.define, .load, .store, .branch, .ret, .call, .print, .allocate, .arrayError]

def ofText? (text : String) : Option Keyword :=
  all.find? (·.text == text)

theorem ofText?_eq_some_iff {text : String} {keyword : Keyword} :
    ofText? text = some keyword ↔ keyword.text = text := by
  constructor
  · intro h
    simpa using List.find?_some h
  · rintro rfl
    cases keyword <;> decide

end Keyword

/-- The class of a token. A character that starts no token is a token of its own, `unknown`. -/
inductive Kind where
  | keyword (keyword : Keyword)
  | identifier
  | label
  | integer
  | openParen
  | closeParen
  | openBrace
  | closeBrace
  | comma
  | arrow
  | operator (operator : Operator)
  | unknown
  deriving DecidableEq

structure Token where
  kind : Kind
  text : String
  span : Span
  deriving DecidableEq

end L3Lowering
