import L3Lowering.Text.Blank
import L3Lowering.Token.Basic

namespace L3Lowering

def isNameStart (c : Char) : Bool :=
  c.isAlpha || c == '_'

def isNameChar (c : Char) : Bool :=
  c.isAlphanum || c == '_'

/-- Splits off leading blanks and comments. The flag says whether a comment is open: it runs up to
its line feed, which is blank itself. -/
def splitGap : Bool → List Char → List Char × List Char
  | _, [] => ([], [])
  | true, c :: cs =>
    let (gap, rest) := splitGap (c != '\n') cs
    (c :: gap, rest)
  | false, '/' :: '/' :: cs =>
    let (gap, rest) := splitGap true cs
    ('/' :: '/' :: gap, rest)
  | false, c :: cs =>
    if Text.isBlank c then
      let (gap, rest) := splitGap false cs
      (c :: gap, rest)
    else ([], c :: cs)

structure Lexeme where
  kind : Kind
  text : List Char
  rest : List Char

namespace Lexeme

def run (kind : List Char → Kind) (p : Char → Bool) (c : Char) (cs : List Char) : Lexeme :=
  ⟨kind (c :: cs.takeWhile p), c :: cs.takeWhile p, cs.dropWhile p⟩

def wordKind (text : List Char) : Kind :=
  match Keyword.ofText? (String.ofList text) with
  | some keyword => .keyword keyword
  | none => .identifier

def symbolKind : Char → Kind
  | '(' => .openParen
  | ')' => .closeParen
  | '\x7b' => .openBrace
  | '\x7d' => .closeBrace
  | ',' => .comma
  | '+' => .operator (.arithmetic .add)
  | '-' => .operator (.arithmetic .subtract)
  | '*' => .operator (.arithmetic .multiply)
  | '&' => .operator (.arithmetic .and)
  | '<' => .operator (.comparison .less)
  | '=' => .operator (.comparison .equal)
  | '>' => .operator .greater
  | _ => .unknown

def symbol : Char → List Char → Lexeme
  | '<', '-' :: rest => ⟨.arrow, ['<', '-'], rest⟩
  | '<', '<' :: rest => ⟨.operator (.arithmetic .shiftLeft), ['<', '<'], rest⟩
  | '>', '>' :: rest => ⟨.operator (.arithmetic .shiftRight), ['>', '>'], rest⟩
  | '<', '=' :: rest => ⟨.operator (.comparison .lessEqual), ['<', '='], rest⟩
  | '>', '=' :: rest => ⟨.operator .greaterEqual, ['>', '='], rest⟩
  | c, rest => ⟨symbolKind c, [c], rest⟩

end Lexeme

/-- The first token of `c :: cs`. `signed` says whether a sign that touches a digit starts a
literal here. -/
def lexeme (signed : Bool) (c : Char) (cs : List Char) : Lexeme :=
  if isNameStart c then .run Lexeme.wordKind isNameChar c cs
  else if c == ':' && cs.head?.any isNameStart then .run (fun _ => .label) isNameChar c cs
  else if c.isDigit || ((c == '-' || c == '+') && signed && cs.head?.any Char.isDigit) then
    .run (fun _ => .integer) Char.isDigit c cs
  else .symbol c cs

theorem splitGap_append (comment : Bool) (cs : List Char) :
    (splitGap comment cs).1 ++ (splitGap comment cs).2 = cs := by
  fun_induction splitGap comment cs <;> simp_all

theorem splitGap_length_le (comment : Bool) (cs : List Char) :
    (splitGap comment cs).2.length ≤ cs.length := by
  have h := congrArg List.length (splitGap_append comment cs)
  rw [List.length_append] at h
  omega

theorem lexeme_append (signed : Bool) (c : Char) (cs : List Char) :
    (lexeme signed c cs).text ++ (lexeme signed c cs).rest = c :: cs := by
  unfold lexeme Lexeme.run
  split
  · simp
  · split
    · simp
    · split
      · simp
      · unfold Lexeme.symbol
        split <;> simp

theorem lexeme_text_ne_nil (signed : Bool) (c : Char) (cs : List Char) :
    (lexeme signed c cs).text ≠ [] := by
  unfold lexeme Lexeme.run
  split
  · simp
  · split
    · simp
    · split
      · simp
      · unfold Lexeme.symbol
        split <;> simp

theorem lexeme_rest_length_le (signed : Bool) (c : Char) (cs : List Char) :
    (lexeme signed c cs).rest.length ≤ cs.length := by
  have h := congrArg List.length (lexeme_append signed c cs)
  have hpos := List.length_pos_iff.2 (lexeme_text_ne_nil signed c cs)
  simp only [List.length_append, List.length_cons] at h
  omega

end L3Lowering
