import L3Lowering.Token.Lexeme

namespace L3Lowering

abbrev SignRule :=
  Option Kind → Bool

/-- After something that can be the left operand of an operator a sign is an operator. -/
def signUnlessOperand : SignRule
  | some .identifier => false
  | some .integer => false
  | some .closeParen => false
  | _ => true

/-- A place in a text: the bytes before it, the characters after it, and the kind of the last token
read. -/
structure Cursor where
  offset : Nat
  rest : List Char
  previous : Option Kind

namespace Cursor

def start (cs : List Char) : Cursor :=
  ⟨0, cs, none⟩

def next? (signs : SignRule) (cursor : Cursor) : Option (Token × Cursor) :=
  match splitGap false cursor.rest with
  | (_, []) => none
  | (gap, c :: cs) =>
    let found := lexeme (signs cursor.previous) c cs
    let start := cursor.offset + Text.byteSize gap
    let stop := start + Text.byteSize found.text
    some (⟨found.kind, String.ofList found.text, ⟨start, stop⟩⟩, ⟨stop, found.rest, some found.kind⟩)

theorem next?_rest_lt {signs : SignRule} {cursor after : Cursor} {token : Token}
    (h : cursor.next? signs = some (token, after)) : after.rest.length < cursor.rest.length := by
  have hgap := splitGap_length_le false cursor.rest
  unfold next? at h
  split at h
  · simp at h
  · rename_i gap c cs heq
    obtain ⟨-, rfl⟩ := Prod.mk.inj (Option.some.inj h)
    have hlex := lexeme_rest_length_le (signs cursor.previous) c cs
    simp only [heq, List.length_cons] at hgap
    simp only
    omega

def tokens (signs : SignRule) (cursor : Cursor) : List Token :=
  match h : cursor.next? signs with
  | none => []
  | some (token, after) =>
    have := next?_rest_lt h
    token :: after.tokens signs
termination_by cursor.rest.length

theorem tokens_eq (signs : SignRule) (cursor : Cursor) :
    cursor.tokens signs =
      match cursor.next? signs with
      | none => []
      | some (token, after) => token :: after.tokens signs := by
  rw [tokens]
  split <;> simp_all

end Cursor

def Source.tokensWith (signs : SignRule) (source : Source) : List Token :=
  (Cursor.start source.chars).tokens signs

def Source.tokens (source : Source) : List Token :=
  source.tokensWith signUnlessOperand

end L3Lowering
