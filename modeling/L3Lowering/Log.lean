namespace L3Lowering

inductive Level where
  | debug
  | trace
  deriving DecidableEq

structure LogEntry where
  level : Level
  message : String
  deriving DecidableEq

abbrev Log :=
  List LogEntry

/-- A value, and what was told on the way to it. -/
structure Traced (α : Type) where
  value : α
  log : Log

end L3Lowering
