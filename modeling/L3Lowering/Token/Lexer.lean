import L3Lowering.Token.Scan

namespace L3Lowering

structure Lexer where
  cursor : Cursor
  buffer : List Token

namespace Lexer

def ofSource (source : Source) : Lexer :=
  ⟨.start source.chars, []⟩

def fill : Nat → Lexer → Lexer
  | 0, lexer => lexer
  | n + 1, lexer =>
    match lexer.cursor.next? signUnlessOperand with
    | none => lexer
    | some (token, after) => fill n ⟨after, lexer.buffer ++ [token]⟩

/-- Looks at the token `n` places ahead without taking anything. -/
def peekNth (n : Nat) (lexer : Lexer) : Option Token × Lexer :=
  let filled := lexer.fill (n + 1 - lexer.buffer.length)
  (filled.buffer[n]?, filled)

def peek (lexer : Lexer) : Option Token × Lexer :=
  lexer.peekNth 0

def next (lexer : Lexer) : Option Token × Lexer :=
  match lexer.buffer with
  | token :: buffer => (some token, { lexer with buffer })
  | [] =>
    match lexer.cursor.next? signUnlessOperand with
    | none => (none, lexer)
    | some (token, after) => (some token, { lexer with cursor := after })

end Lexer

end L3Lowering
