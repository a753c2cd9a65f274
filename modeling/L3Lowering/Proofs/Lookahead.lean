import L3Lowering.Proofs.Partition
import L3Lowering.Token.Lexer

namespace L3Lowering

namespace Lexer

inductive Query where
  | next
  | peek
  | peekNth (n : Nat)

def serve (lexer : Lexer) : Query → Option Token × Lexer
  | .next => lexer.next
  | .peek => lexer.peek
  | .peekNth n => lexer.peekNth n

def answers (lexer : Lexer) : List Query → List (Option Token)
  | [] => []
  | query :: queries => (lexer.serve query).1 :: (lexer.serve query).2.answers queries

def after (lexer : Lexer) : List Query → Lexer
  | [] => lexer
  | query :: queries => (lexer.serve query).2.after queries

namespace Query

def answerAt (tokens : List Token) (place : Nat) : Query → Option Token
  | .next => tokens[place]?
  | .peek => tokens[place]?
  | .peekNth n => tokens[place + n]?

def placeAfter (place : Nat) : Query → Nat
  | .next => place + 1
  | .peek => place
  | .peekNth _ => place

def answersFrom (tokens : List Token) (place : Nat) : List Query → List (Option Token)
  | [] => []
  | query :: queries =>
    query.answerAt tokens place :: answersFrom tokens (query.placeAfter place) queries

end Query

/-- The tokens that a lexer has still to give. -/
def pending (lexer : Lexer) : List Token :=
  lexer.buffer ++ lexer.cursor.tokens signUnlessOperand

theorem pending_fill (n : Nat) (lexer : Lexer) : (lexer.fill n).pending = lexer.pending := by
  induction n generalizing lexer with
  | zero => rfl
  | succ n ih =>
      rw [fill]
      split
      · rfl
      · rename_i token after hnext
        rw [ih, pending, pending, Cursor.tokens_eq _ lexer.cursor, hnext, List.append_assoc]
        rfl

theorem fill_reaches (n : Nat) (lexer : Lexer) :
    lexer.buffer.length + n ≤ (lexer.fill n).buffer.length ∨
      (lexer.fill n).cursor.tokens signUnlessOperand = [] := by
  induction n generalizing lexer with
  | zero => exact .inl (Nat.le_refl _)
  | succ n ih =>
      rw [fill]
      split
      · rename_i hnext
        right
        rw [Cursor.tokens_eq, hnext]
      · rename_i token after hnext
        apply (ih ⟨after, lexer.buffer ++ [token]⟩).imp_left
        intro hle
        rw [List.length_append, List.length_singleton] at hle
        omega

theorem peekNth_answer (n : Nat) (lexer : Lexer) : (lexer.peekNth n).1 = lexer.pending[n]? := by
  rw [peekNth, ← pending_fill (n + 1 - lexer.buffer.length), pending]
  rcases fill_reaches (n + 1 - lexer.buffer.length) lexer with hle | hend
  · rw [List.getElem?_append_left (by omega)]
  · rw [hend, List.append_nil]

theorem pending_peekNth (n : Nat) (lexer : Lexer) : (lexer.peekNth n).2.pending = lexer.pending :=
  pending_fill _ lexer

theorem next_takes (lexer : Lexer) :
    lexer.next.1 = lexer.pending[0]? ∧ lexer.next.2.pending = lexer.pending.tail := by
  obtain ⟨cursor, buffer⟩ := lexer
  cases buffer with
  | cons token buffer => exact ⟨rfl, rfl⟩
  | nil =>
      rw [next, pending, Cursor.tokens_eq]
      cases hnext : cursor.next? signUnlessOperand with
      | none => exact ⟨rfl, by simp [pending, Cursor.tokens_eq, hnext]⟩
      | some found => exact ⟨rfl, rfl⟩

theorem serve_refines {lexer : Lexer} {tokens : List Token} {place : Nat}
    (h : lexer.pending = tokens.drop place) (query : Query) :
    (lexer.serve query).1 = query.answerAt tokens place ∧
      (lexer.serve query).2.pending = tokens.drop (query.placeAfter place) := by
  cases query with
  | next =>
      obtain ⟨hanswer, hpending⟩ := lexer.next_takes
      rw [h, List.getElem?_drop] at hanswer
      rw [h, List.tail_drop] at hpending
      exact ⟨hanswer, hpending⟩
  | peek =>
      refine ⟨?_, (pending_peekNth 0 lexer).trans h⟩
      have hanswer := peekNth_answer 0 lexer
      rw [h, List.getElem?_drop] at hanswer
      exact hanswer
  | peekNth n =>
      refine ⟨?_, (pending_peekNth n lexer).trans h⟩
      rw [serve, peekNth_answer, h, List.getElem?_drop]
      rfl

theorem answers_refines {lexer : Lexer} {tokens : List Token} {place : Nat}
    (h : lexer.pending = tokens.drop place) (queries : List Query) :
    lexer.answers queries = Query.answersFrom tokens place queries := by
  induction queries generalizing lexer place with
  | nil => rfl
  | cons query queries ih =>
      obtain ⟨hanswer, hpending⟩ := serve_refines h query
      rw [answers, Query.answersFrom, hanswer, ih hpending]

/-- What a lexer answers depends on the tokens that it has still to give, and not on how many of
them are in its buffer. -/
theorem answers_congr {lexer other : Lexer} (h : lexer.pending = other.pending)
    (queries : List Query) : lexer.answers queries = other.answers queries := by
  have hother : other.answers queries = Query.answersFrom other.pending 0 queries :=
    answers_refines rfl queries
  rw [hother]
  exact answers_refines h queries

end Lexer

/-- Taking the tokens of a source one by one gives a list of tokens, and any queries in any order
are answered like at a place in that list: taking gives the token at the place and moves on, looking
ahead gives the token so many places further on, and beyond the end there is no token. However many
queries came before, looking ahead changes no answer after it. -/
theorem Source.lookahead_transparent (source : Source) (queries : List Lexer.Query) :
    (Lexer.ofSource source).Takes source.tokens ∧
      (Lexer.ofSource source).answers queries = Lexer.Query.answersFrom source.tokens 0 queries ∧
      ∀ (n : Nat) (later : List Lexer.Query),
        let lexer := (Lexer.ofSource source).after queries
        (lexer.peekNth n).2.answers later = lexer.answers later ∧
          lexer.peek.2.answers later = lexer.answers later := by
  refine ⟨Lexer.takes_tokens _, Lexer.answers_refines rfl queries, ?_⟩
  intro n later lexer
  exact ⟨Lexer.answers_congr (Lexer.pending_peekNth n lexer) later,
    Lexer.answers_congr (Lexer.pending_peekNth 0 lexer) later⟩

end L3Lowering
