import L3Lowering.Proofs.SymbolicText
import L3Lowering.Tile.Emit

namespace L3Lowering

open Text Sexp

namespace L2

def Cell.sexp (cell : Cell) : Sexp :=
  .list [.word "mem", .word cell.base.text, .word (intText (offsetWord cell.offset).toInt)]

def Line.sexp : Line → Sexp
  | .move target value => .list [.word target.text, .word "<-", .word value.text]
  | .load target cell => .list [.word target.text, .word "<-", cell.sexp]
  | .store cell value => .list [cell.sexp, .word "<-", .word value.text]
  | .compare target operator lhs rhs =>
    .list [.word target.text, .word "<-", .word lhs.text, .word operator.symbol, .word rhs.text]
  | .update target operator rhs =>
    .list [.word target.text, .word (operator.symbol ++ "="), .word rhs.text]
  | .goto name => .list [.word "goto", .word name]
  | .branch condition onTrue onFalse =>
    .list [.word "cjump", .word condition.text, .word "=", .word "1", .word onTrue, .word onFalse]
  | .call callee arguments => .list [.word "call", .word callee.text, .word (natText arguments)]
  | .ret => .list [.word "return"]
  | .label name => .word name

def Place.names : Place → List String
  | .var name => [name]
  | .register _ => []

def Value.names : Value → List String
  | .var name => [name]
  | .label name => [name]
  | _ => []

def Callee.names : Callee → List String
  | .var name => [name]
  | .label name => [name]
  | .runtime _ => []

def Line.names : Line → List String
  | .move target value => target.names ++ value.names
  | .load target cell => target.names ++ cell.base.names
  | .store cell value => cell.base.names ++ value.names
  | .compare target _ lhs rhs => target.names ++ (lhs.names ++ rhs.names)
  | .update target _ rhs => target.names ++ rhs.names
  | .goto name => [name]
  | .branch condition onTrue onFalse => condition.names ++ [onTrue, onFalse]
  | .call callee _ => callee.names
  | .ret => []
  | .label name => [name]

def Line.Plain (line : Line) : Prop :=
  ∀ name ∈ line.names, isPlain name = true

theorem Register.isPlain_name (r : Register) : isPlain r.name = true := by
  cases r <;> decide

theorem Place.readsAs {place : Place} (h : ∀ name ∈ place.names, isPlain name = true) :
    ReadsAs place.text [.word place.text] := by
  apply readsAs_word
  cases place with
  | var name => exact h name List.mem_cons_self
  | register r => exact r.isPlain_name

theorem Value.readsAs {value : Value} (h : ∀ name ∈ value.names, isPlain name = true) :
    ReadsAs value.text [.word value.text] := by
  apply readsAs_word
  cases value with
  | var name | label name => exact h name List.mem_cons_self
  | literal n => exact isPlain_intText _
  | register r => exact r.isPlain_name

theorem Callee.readsAs {callee : Callee} (h : ∀ name ∈ callee.names, isPlain name = true) :
    ReadsAs callee.text [.word callee.text] := by
  apply readsAs_word
  cases callee with
  | var name | label name => exact h name List.mem_cons_self
  | runtime function => cases function <;> decide

theorem readsAs_list {text : String} (texts : List String) {items : List Sexp}
    (htext : text.toList = ("(" ++ " ".intercalate texts ++ ")").toList)
    (h : List.Forall₂ (fun text item => ReadsAs text [item]) texts items) :
    ReadsAs text [.list items] := by
  rw [String.toList_injective htext]
  exact (readsWhole_line h).readsAs

theorem Cell.readsAs {cell : Cell} (h : ∀ name ∈ cell.base.names, isPlain name = true) :
    ReadsAs cell.text [cell.sexp] := by
  have hmem : ReadsAs "mem" [.word "mem"] := readsAs_word (by decide)
  have hoffset := readsAs_word (isPlain_intText (offsetWord cell.offset).toInt)
  exact readsAs_list ["mem", cell.base.text, intText (offsetWord cell.offset).toInt]
    (by simp [Cell.text]) (.cons hmem (.cons (Place.readsAs h) (.cons hoffset .nil)))

theorem Line.readsAs {line : Line} (h : line.Plain) : ReadsAs line.text [line.sexp] := by
  have harrow : ReadsAs "<-" [.word "<-"] := readsAs_word (by decide)
  cases line with
  | move target value =>
      obtain ⟨htarget, hvalue⟩ := List.forall_mem_append.1 h
      exact readsAs_list [target.text, "<-", value.text] (by simp [text])
        (.cons (Place.readsAs htarget) (.cons harrow (.cons (Value.readsAs hvalue) .nil)))
  | load target cell =>
      obtain ⟨htarget, hbase⟩ := List.forall_mem_append.1 h
      exact readsAs_list [target.text, "<-", cell.text] (by simp [text])
        (.cons (Place.readsAs htarget) (.cons harrow (.cons (Cell.readsAs hbase) .nil)))
  | store cell value =>
      obtain ⟨hbase, hvalue⟩ := List.forall_mem_append.1 h
      exact readsAs_list [cell.text, "<-", value.text] (by simp [text])
        (.cons (Cell.readsAs hbase) (.cons harrow (.cons (Value.readsAs hvalue) .nil)))
  | compare target operator lhs rhs =>
      obtain ⟨htarget, hvalues⟩ := List.forall_mem_append.1 h
      obtain ⟨hlhs, hrhs⟩ := List.forall_mem_append.1 hvalues
      have hoperator : ReadsAs operator.symbol [.word operator.symbol] :=
        readsAs_word (by cases operator <;> decide)
      exact readsAs_list [target.text, "<-", lhs.text, operator.symbol, rhs.text] (by simp [text])
        (.cons (Place.readsAs htarget) (.cons harrow (.cons (Value.readsAs hlhs)
          (.cons hoperator (.cons (Value.readsAs hrhs) .nil)))))
  | update target operator rhs =>
      obtain ⟨htarget, hrhs⟩ := List.forall_mem_append.1 h
      have hoperator : ReadsAs (operator.symbol ++ "=") [.word (operator.symbol ++ "=")] :=
        readsAs_word (by cases operator <;> decide)
      exact readsAs_list [target.text, operator.symbol ++ "=", rhs.text] (by simp [text])
        (.cons (Place.readsAs htarget) (.cons hoperator (.cons (Value.readsAs hrhs) .nil)))
  | goto name =>
      have hgoto : ReadsAs "goto" [.word "goto"] := readsAs_word (by decide)
      exact readsAs_list ["goto", name] (by simp [text])
        (.cons hgoto (.cons (readsAs_word (h name List.mem_cons_self)) .nil))
  | branch condition onTrue onFalse =>
      obtain ⟨hcondition, hlabels⟩ := List.forall_mem_append.1 h
      have hjump : ReadsAs "cjump" [.word "cjump"] := readsAs_word (by decide)
      have hequal : ReadsAs "=" [.word "="] := readsAs_word (by decide)
      have hone : ReadsAs "1" [.word "1"] := readsAs_word (by decide)
      exact readsAs_list ["cjump", condition.text, "=", "1", onTrue, onFalse] (by simp [text])
        (.cons hjump (.cons (Place.readsAs hcondition) (.cons hequal (.cons hone
          (.cons (readsAs_word (hlabels onTrue (by simp)))
            (.cons (readsAs_word (hlabels onFalse (by simp))) .nil))))))
  | call callee arguments =>
      have hcall : ReadsAs "call" [.word "call"] := readsAs_word (by decide)
      exact readsAs_list ["call", callee.text, natText arguments] (by simp [text])
        (.cons hcall (.cons (Callee.readsAs h) (.cons (readsAs_word (isPlain_natText _)) .nil)))
  | ret => exact readsAs_list ["return"] (by simp [text]) (.cons (readsAs_word (by decide)) .nil)
  | label name => exact readsAs_word (h name List.mem_cons_self)

end L2

def Tile.sexps (tile : Tile) : List Sexp :=
  tile.lines.map L2.Line.sexp

/-- The name, the number of parameters and the number of those on the stack, then a list for each
parameter, and then what the tiles stand for. -/
def TiledFunction.sexp (function : TiledFunction) : Sexp :=
  .list (.word function.name :: .word (natText function.parameters.length) ::
    .word (natText (function.parameters.length - 6)) ::
    (function.bindings.map L2.Line.sexp ++ function.tiles.flatMap Tile.sexps))

def TiledProgram.sexp (program : TiledProgram) : Sexp :=
  .list (.word ":main" :: program.functions.map TiledFunction.sexp)

structure TiledFunction.Plain (function : TiledFunction) : Prop where
  name : isPlain function.name = true
  bindings : ∀ line ∈ function.bindings, line.Plain
  tiles : ∀ tile ∈ function.tiles, ∀ line ∈ tile.lines, line.Plain

theorem isBlank_newline : isBlank '\n' = true := by decide

theorem Tile.readsAs {tile : Tile} (h : ∀ line ∈ tile.lines, line.Plain) :
    ReadsAs tile.text tile.sexps := by
  have hlines : ReadsAs ("\n".intercalate (tile.lines.map L2.Line.text)) tile.sexps := by
    have hrows := readsAs_rows isBlank_newline fun line hline => L2.Line.readsAs (h line hline)
    rwa [← List.map_eq_flatMap] at hrows
  rw [text]
  split
  · exact (hlines.blank isBlank_newline).readsAs
  · rwa [String.append_empty]

theorem TiledFunction.readsWhole {function : TiledFunction} (h : function.Plain) :
    ReadsWhole function.text [function.sexp] := by
  have hbindings : ReadsWhole (String.join (function.bindings.map fun line => line.text ++ "\n"))
      (function.bindings.map L2.Line.sexp) :=
    readsWhole_rows isBlank_newline fun line hline => L2.Line.readsAs (h.bindings line hline)
  have htiles : ReadsAs ("\n".intercalate (function.tiles.map Tile.text))
      (function.tiles.flatMap Tile.sexps) :=
    readsAs_rows isBlank_newline fun tile htile => Tile.readsAs (h.tiles tile htile)
  have hname := (readsAs_word h.name).blank isBlank_newline
  have hcount := (readsAs_word (isPlain_natText function.parameters.length)).blank
    (show isBlank ' ' = true by decide)
  have hspill := (readsAs_word (isPlain_natText function.spillCount)).blank isBlank_newline
  have hinner := ((hname.append hcount).append hspill).append_readsAs
    (hbindings.append_readsAs htiles)
  have htext := hinner.list
  simp only [← String.append_assoc] at htext
  exact htext

theorem TiledProgram.readsAs {program : TiledProgram} (h : ∀ f ∈ program.functions, f.Plain) :
    ReadsAs program.text [program.sexp] := by
  have hfunctions : ReadsWhole
      (String.join (program.functions.map fun function => function.text ++ "\n"))
      (program.functions.map TiledFunction.sexp) :=
    readsWhole_rows isBlank_newline fun f hf => (TiledFunction.readsWhole (h f hf)).readsAs
  have hmain : ReadsAs ":main" [.word ":main"] := readsAs_word (by decide)
  have hinner := ((hmain.blank isBlank_newline).readsAs.blank isBlank_newline).append hfunctions
  have hlist := (hinner.readsAs.list.readsAs.blank isBlank_newline).readsAs
  have htext : program.text = "(" ++ (":main" ++ String.ofList ['\n'] ++ String.ofList ['\n']
      ++ String.join (program.functions.map fun function => function.text ++ "\n")) ++ ")"
        ++ String.ofList ['\n'] := by
    apply String.toList_injective
    simp [text, entryPoint]
  rw [htext]
  exact hlist

end L3Lowering
