import L3Lowering.Proofs.Tiling
import Mathlib.Logic.Function.Basic

namespace L3Lowering

/-- What numbers and operators mean, for words of any kind. -/
structure Meaning (α : Type) where
  number : Int64 → α
  arithmetic : Arithmetic → α → α → α
  holds : Comparison → α → α → Bool

namespace Meaning

variable {α : Type} (meaning : Meaning α) (vars : String → α)

def compare (op : Comparison) (a b : α) : α :=
  if meaning.holds op a b then meaning.number 1 else meaning.number 0

def operation : Operator → α → α → α
  | .arithmetic op, a, b => meaning.arithmetic op a b
  | .comparison op, a, b => meaning.compare op a b
  | .greater, a, b => meaning.compare .less b a
  | .greaterEqual, a, b => meaning.compare .lessEqual b a

def operand? : Atom → Option α
  | .var v => some (vars v.name)
  | .literal n => some (meaning.number n.value)
  | .label _ | .runtime _ => none

def binop? (b : Binop) : Option α := do
  let lhs ← meaning.operand? vars b.lhs
  let rhs ← meaning.operand? vars b.rhs
  return meaning.operation b.operator lhs rhs

def read : L2.Value → Option α
  | .var name => some (vars name)
  | .literal n => some (meaning.number n)
  | .label _ | .register _ => none

/-- Runs a line that copies, updates or compares; no other lines are run. -/
def step (vars : String → α) : L2.Line → Option (String → α)
  | .move (.var x) a => do
    return Function.update vars x (← meaning.read vars a)
  | .update (.var x) op b => do
    return Function.update vars x (meaning.arithmetic op (vars x) (← meaning.read vars b))
  | .compare (.var x) op a b => do
    let lhs ← meaning.read vars a
    let rhs ← meaning.read vars b
    return Function.update vars x (meaning.compare op lhs rhs)
  | _ => none

def run (lines : List L2.Line) : Option (String → α) :=
  lines.foldlM meaning.step vars

/-- Words of 64 bits, with signed comparisons. Sums, products and differences wrap around, shifts
take their distance modulo 64 and a shift to the right keeps the sign. -/
def words : Meaning Int64 where
  number := id
  arithmetic
    | .add, a, b => a + b
    | .multiply, a, b => a * b
    | .subtract, a, b => a - b
    | .and, a, b => a &&& b
    | .shiftLeft, a, b => a <<< b
    | .shiftRight, a, b => a >>> b
  holds
    | .less, a, b => decide (a < b)
    | .lessEqual, a, b => decide (a ≤ b)
    | .equal, a, b => a == b

end Meaning

def Atom.isVarNamed (name : String) : Atom → Bool
  | .var v => v.name == name
  | _ => false

/-- Whether the right operand is gone when it is read: it is the variable to which the left operand,
another one, has been copied. -/
def Binop.losesRight (target : String) (b : Binop) : Bool :=
  !b.operator.isComparison && b.rhs.isVarNamed target && !b.lhs.isVarNamed target

namespace Meaning

variable {α : Type} {meaning : Meaning α} {vars : String → α}

def Sets (meaning : Meaning α) (vars : String → α) (lines : List L2.Line) (x : String) (word : α) :
    Prop :=
  ∃ after, meaning.run vars lines = some after ∧ after x = word ∧
    ∀ name, name ≠ x → after name = vars name

theorem sets_of_run {lines : List L2.Line} {x : String} {word : α}
    (h : meaning.run vars lines = some (Function.update vars x word)) :
    meaning.Sets vars lines x word :=
  ⟨_, h, Function.update_self x word vars, fun _ hne => Function.update_of_ne hne word vars⟩

theorem Sets.unique {lines : List L2.Line} {x : String} {word word' : α}
    (h : meaning.Sets vars lines x word) (h' : meaning.Sets vars lines x word') : word = word' := by
  obtain ⟨after, hrun, rfl, -⟩ := h
  obtain ⟨after', hrun', rfl, -⟩ := h'
  rw [Option.some.inj (hrun.symm.trans hrun')]

theorem exists_operand? (meaning : Meaning α) (vars : String → α) {atom : Atom}
    (h : atom.isOperand = true) : ∃ word, meaning.operand? vars atom = some word := by
  cases atom with
  | var | literal => exact ⟨_, rfl⟩
  | label | runtime => cases h

theorem read_of_toOperand {atom : Atom} {b : Binop} {value : L2.Value}
    (h : atom.toOperand b = .ok value) :
    meaning.read vars value = meaning.operand? vars atom := by
  cases atom with
  | var | literal =>
      cases h
      rfl
  | label | runtime => cases h

theorem operand?_of_isVarNamed {atom : Atom} {x : String} (h : atom.isVarNamed x = true) :
    meaning.operand? vars atom = some (vars x) := by
  cases atom with
  | var v =>
      have hname : v.name = x := beq_iff_eq.1 h
      rw [operand?, hname]
  | label | literal | runtime => cases h

theorem operand?_update {atom : Atom} {x : String} (h : atom.isVarNamed x = false) (word : α) :
    meaning.operand? (Function.update vars x word) atom = meaning.operand? vars atom := by
  cases atom with
  | var v =>
      have hname : v.name ≠ x := beq_eq_false_iff_ne.1 h
      rw [operand?, operand?, Function.update_of_ne hname]
  | label | literal | runtime => rfl

variable {b : Binop} {x : String} {v w : L2.Value} {lhs rhs : α}

theorem run_comparison (hv : meaning.read vars v = some lhs) (hw : meaning.read vars w = some rhs)
    (op : Comparison) :
    meaning.run vars (Tile.comparison x op v w).lines
      = some (Function.update vars x (meaning.compare op lhs rhs)) := by
  simp [run, Tile.lines, step, hv, hw]

theorem run_arithmetic (hv : meaning.read vars v = some lhs)
    (hw : meaning.read (Function.update vars x lhs) w = some rhs) (op : Arithmetic) :
    meaning.run vars (Tile.arithmetic x op v w).lines
      = some (Function.update vars x (meaning.arithmetic op lhs rhs)) := by
  simp [run, Tile.lines, step, hv, hw]

theorem operand?_after_copy {op : Arithmetic} (hop : b.operator = .arithmetic op)
    (hlhs : meaning.operand? vars b.lhs = some lhs)
    (hrhs : meaning.operand? vars b.rhs = some rhs) :
    meaning.operand? (Function.update vars x lhs) b.rhs
      = some (if b.losesRight x then lhs else rhs) := by
  by_cases hright : b.rhs.isVarNamed x = true
  · rw [operand?_of_isVarNamed hright, Function.update_self]
    by_cases hleft : b.lhs.isVarNamed x = true
    · -- The variable is copied to itself, so that both operands are what it was.
      have hsame : lhs = rhs := by
        rw [operand?_of_isVarNamed hleft] at hlhs
        rw [operand?_of_isVarNamed hright] at hrhs
        exact Option.some.inj (hlhs.symm.trans hrhs)
      rw [hsame, ite_self]
    · have hloses : b.losesRight x = true := by
        simp [Binop.losesRight, hop, Operator.isComparison, hright, hleft]
      rw [if_pos hloses]
  · rw [Bool.not_eq_true] at hright
    have hkeeps : b.losesRight x = false := by
      simp [Binop.losesRight, hright]
    rw [operand?_update hright, hrhs, hkeeps, if_neg Bool.false_ne_true]

end Meaning

/-- The lines of an operation set the assigned variable to the value of the operation, or to that of
the operation with its left operand on both sides if the right one is lost. -/
theorem Binop.sets_lines {b : Binop} (h : (Expression.binop b).isGrammatical = true) (x : Var) :
    ∃ tile, Tile.ofBinopAssignment x (.binop b) = .ok tile ∧
      ∀ (α : Type) (meaning : Meaning α) (vars : String → α), ∃ lhs rhs,
        meaning.operand? vars b.lhs = some lhs ∧ meaning.operand? vars b.rhs = some rhs ∧
        meaning.Sets vars tile.lines x.name
          (meaning.operation b.operator lhs (if b.losesRight x.name then lhs else rhs)) := by
  simp only [Expression.isGrammatical, Bool.and_eq_true] at h
  obtain ⟨⟨hleft, hright⟩, hkept⟩ := h
  obtain ⟨v, hv, -⟩ := Atom.toOperand_ok hleft b
  obtain ⟨w, hw, -⟩ := Atom.toOperand_ok hright b
  cases hop : b.operator with
  | arithmetic op =>
      refine ⟨.arithmetic x.name op v w, ?_, ?_⟩
      · simp only [Tile.ofBinopAssignment, hop, hv, hw]
        rfl
      · intro α meaning vars
        obtain ⟨lhs, hlhs⟩ := meaning.exists_operand? vars hleft
        obtain ⟨rhs, hrhs⟩ := meaning.exists_operand? vars hright
        refine ⟨lhs, rhs, hlhs, hrhs, Meaning.sets_of_run ?_⟩
        apply Meaning.run_arithmetic
        · rw [Meaning.read_of_toOperand hv, hlhs]
        · rw [Meaning.read_of_toOperand hw, Meaning.operand?_after_copy hop hlhs hrhs]
  | comparison op =>
      have hkeeps : b.losesRight x.name = false := by
        simp [losesRight, hop, Operator.isComparison]
      refine ⟨.comparison x.name op v w, ?_, ?_⟩
      · simp only [Tile.ofBinopAssignment, hop, hv, hw]
        rfl
      · intro α meaning vars
        obtain ⟨lhs, hlhs⟩ := meaning.exists_operand? vars hleft
        obtain ⟨rhs, hrhs⟩ := meaning.exists_operand? vars hright
        refine ⟨lhs, rhs, hlhs, hrhs, Meaning.sets_of_run ?_⟩
        rw [hkeeps, if_neg Bool.false_ne_true]
        apply Meaning.run_comparison
        · rw [Meaning.read_of_toOperand hv, hlhs]
        · rw [Meaning.read_of_toOperand hw, hrhs]
  | greater | greaterEqual => simp [hop, Operator.isKept] at hkept

theorem Meaning.binop?_eq {α : Type} {meaning : Meaning α} {vars : String → α} {b : Binop}
    {lhs rhs : α} (hlhs : meaning.operand? vars b.lhs = some lhs)
    (hrhs : meaning.operand? vars b.rhs = some rhs) :
    meaning.binop? vars b = some (meaning.operation b.operator lhs rhs) := by
  rw [binop?, hlhs, hrhs]
  rfl

theorem Meaning.words_one_one_ne (op : Arithmetic) :
    words.arithmetic op 1 1 ≠ words.arithmetic op 1 0 := by
  cases op <;> decide

theorem Binop.words_of_losesRight {b : Binop} {x v : Var} (hlhs : b.lhs = .var v)
    (h : b.losesRight x.name = true) :
    ∃ (vars : String → Int64) (lhs rhs : Int64), Meaning.words.operand? vars b.lhs = some lhs ∧
      Meaning.words.operand? vars b.rhs = some rhs ∧
      Meaning.words.operation b.operator lhs lhs ≠ Meaning.words.operation b.operator lhs rhs := by
  simp only [losesRight, Bool.and_eq_true, Bool.not_eq_true'] at h
  obtain ⟨⟨hop, hright⟩, hleft⟩ := h
  let vars : String → Int64 := Function.update (fun _ => 1) x.name 0
  have hone : vars v.name = 1 := by
    rw [hlhs] at hleft
    exact Function.update_of_ne (beq_eq_false_iff_ne.1 hleft) _ _
  have hzero : vars x.name = 0 := Function.update_self x.name 0 fun _ => 1
  refine ⟨vars, 1, 0, ?_, ?_, ?_⟩
  · rw [hlhs, Meaning.operand?, hone]
  · rw [Meaning.operand?_of_isVarNamed hright, hzero]
  · cases hoperator : b.operator with
    | arithmetic op => exact Meaning.words_one_one_ne op
    | comparison | greater | greaterEqual => simp [hoperator, Operator.isComparison] at hop

/-- The lines of an operation set the assigned variable to the value that the operation has before
them, unless its right operand is lost; then they set it to the value of the operation with the left
operand on both sides, which with two variables is another one for some of the words of 64 bits. -/
theorem Source.operation_lines_compute (source : Source) (program : Program)
    (h : source.parse = .ok program) (function : Function)
    (hfunction : function ∈ program.functions) (id : NodeId) (x : Var) (b : Binop)
    (hbody : Instruction.assign ⟨id, .var x, .binop b⟩ ∈ function.body) :
    ∃ tile, Tile.ofBinopAssignment x (.binop b) = .ok tile ∧
      (∀ (α : Type) (meaning : Meaning α) (vars : String → α),
        ∃ lhs rhs, meaning.operand? vars b.lhs = some lhs ∧
          meaning.operand? vars b.rhs = some rhs ∧
          meaning.binop? vars b = some (meaning.operation b.operator lhs rhs) ∧
          (b.losesRight x.name = false →
            meaning.Sets vars tile.lines x.name (meaning.operation b.operator lhs rhs)) ∧
          (b.losesRight x.name = true →
            meaning.Sets vars tile.lines x.name (meaning.operation b.operator lhs lhs))) ∧
      ∀ v, b.lhs = .var v → b.losesRight x.name = true →
        ∃ (vars : String → Int64) (value : Int64), Meaning.words.binop? vars b = some value ∧
          ¬ Meaning.words.Sets vars tile.lines x.name value := by
  have hgrammatical := (grammatical_of_parse h).shapes function hfunction _ hbody
  obtain ⟨tile, htile, hsets⟩ := Binop.sets_lines hgrammatical x
  refine ⟨tile, htile, ?_, ?_⟩
  · intro α meaning vars
    obtain ⟨lhs, rhs, hlhs, hrhs, hset⟩ := hsets α meaning vars
    refine ⟨lhs, rhs, hlhs, hrhs, Meaning.binop?_eq hlhs hrhs, ?_, ?_⟩
    · intro hkeeps
      rwa [hkeeps, if_neg Bool.false_ne_true] at hset
    · intro hloses
      rwa [if_pos hloses] at hset
  · intro v hv hloses
    obtain ⟨vars, lhs, rhs, hlhs, hrhs, hne⟩ := Binop.words_of_losesRight hv hloses
    refine ⟨vars, _, Meaning.binop?_eq hlhs hrhs, ?_⟩
    intro hvalue
    obtain ⟨lhs', rhs', hlhs', -, hset⟩ := hsets Int64 Meaning.words vars
    rw [if_pos hloses, ← Option.some.inj (hlhs.symm.trans hlhs')] at hset
    exact hne (hset.unique hvalue)

/-- A difference that is assigned to its own left operand. -/
theorem Source.operation_lines_compute_left :
    let source := Source.ofString "define :f(x, y) \x7b x <- x - y return x \x7d"
    let difference : Binop := ⟨6, .arithmetic .subtract, .var ⟨4, "x"⟩, .var ⟨5, "y"⟩⟩
    let body : List Instruction :=
      [.assign ⟨7, .var ⟨3, "x"⟩, .binop difference⟩, .returnValue 9 (.var ⟨8, "x"⟩)]
    source.parse = .ok ⟨[⟨⟨0, ":f"⟩, [⟨1, "x"⟩, ⟨2, "y"⟩], body⟩]⟩ ∧
      difference.losesRight "x" = false ∧
      ∃ tile, Tile.ofBinopAssignment ⟨3, "x"⟩ (.binop difference) = .ok tile ∧
        ∀ vars : String → Int64,
          Meaning.words.Sets vars tile.lines "x" (vars "x" - vars "y") := by
  intro source difference body
  have hparse : source.parse = .ok ⟨[⟨⟨0, ":f"⟩, [⟨1, "x"⟩, ⟨2, "y"⟩], body⟩]⟩ := by
    decide +kernel
  obtain ⟨tile, htile, hsets, -⟩ := operation_lines_compute source _ hparse _ List.mem_cons_self
    7 ⟨3, "x"⟩ difference List.mem_cons_self
  refine ⟨hparse, by decide, tile, htile, ?_⟩
  intro vars
  obtain ⟨lhs, rhs, hlhs, hrhs, -, hset, -⟩ := hsets Int64 Meaning.words vars
  obtain rfl := Option.some.inj hlhs
  obtain rfl := Option.some.inj hrhs
  exact hset (by decide)

/-- A difference that is assigned to its right operand: the lines give `3 - 3` for `3 - 1`. -/
theorem Source.difference_loses_right :
    let source := Source.ofString "define :f(x, y) \x7b x <- y - x return x \x7d"
    let difference : Binop := ⟨6, .arithmetic .subtract, .var ⟨4, "y"⟩, .var ⟨5, "x"⟩⟩
    let body : List Instruction :=
      [.assign ⟨7, .var ⟨3, "x"⟩, .binop difference⟩, .returnValue 9 (.var ⟨8, "x"⟩)]
    let lines : List L2.Line :=
      [.move (.var "x") (.var "y"), .update (.var "x") .subtract (.var "x")]
    let vars : String → Int64 := fun name => if name = "y" then 3 else 1
    source.parse = .ok ⟨[⟨⟨0, ":f"⟩, [⟨1, "x"⟩, ⟨2, "y"⟩], body⟩]⟩ ∧
      (∃ tile, Tile.ofBinopAssignment ⟨3, "x"⟩ (.binop difference) = .ok tile ∧
        tile.lines = lines) ∧
      Meaning.words.binop? vars difference = some 2 ∧
      Meaning.words.Sets vars lines "x" 0 ∧ ¬ Meaning.words.Sets vars lines "x" 2 := by
  intro source difference body lines vars
  have hread : Meaning.words.read (Function.update vars "x" 3) (.var "x") = some 3 := by decide
  have hzero : Meaning.words.Sets vars lines "x" 0 :=
    Meaning.sets_of_run (Meaning.run_arithmetic rfl hread .subtract)
  refine ⟨by decide +kernel, ⟨_, rfl, rfl⟩, by decide, hzero, ?_⟩
  intro htwo
  exact absurd (hzero.unique htwo) (by decide)

end L3Lowering
