import L3Lowering.Proofs.InstructionTracking

namespace L3Lowering

namespace Parser

variable {α : Type} {place : Juncture} {s : State}

theorem tracks_body : Tracks (whileNext (· != some .closeBrace) instruction consumes_instruction)
    .instruction .instruction := by
  apply tracks_whileNext
  intro s hagain
  apply tracksAt_next .instructionOrClose fun _ => rfl
  intro token tokens htokens
  apply handles_instructionFrom
  simpa [htokens] using hagain

theorem tracks_closedBody (f : List Instruction → α) : Tracks (do
    let body ← whileNext (· != some .closeBrace) instruction consumes_instruction
    let _ ← expect .closeBrace .instructionOrClose
    return f body) .instruction .done := by
  intro s
  apply (tracks_body s).bind
  intro body t hbody
  have hstop := whileNext_stops _ _ _ _ _ hbody
  have hclose : (expect .closeBrace .instructionOrClose).TracksAt .instruction .done t := by
    apply tracksAt_expect .instructionOrClose (by simp) (fun _ => rfl) rfl
    intro token htoken hne
    rw [Option.mem_def] at htoken
    exact absurd (by simpa [htoken] using hstop) hne
  exact hclose.bind fun _ u _ => tracks_pure _ u

theorem tracksAt_function (hnext : place.next = Juncture.only (.keyword .define) .functionName)
    (hend : s.tokens = [] → place.isDone = false) : function.TracksAt place .done s := by
  apply (tracksAt_only .define hnext (by simp) hend).bind
  intro _ t _
  have hname : Tracks label .functionName .parameters := tracks_label rfl rfl
  have hopen : Tracks (expect .openBrace .openBrace) .openBrace .instruction :=
    tracks_only .openBrace rfl (by simp) rfl
  exact (hname.bind fun _ => tracks_parameters.bind fun _ => hopen.bind fun _ =>
    tracks_closedBody _) t

theorem tracks_program : Tracks program .start .done := by
  have hfirst : Tracks function .start .done := fun _ => tracksAt_function rfl fun _ => rfl
  have hothers : Tracks (whileNext Option.isSome function consumes_function) .done .done := by
    apply tracks_whileNext
    intro s hagain
    apply tracksAt_function rfl
    intro hend
    simp [hend] at hagain
  exact hfirst.bind fun _ => hothers.bind fun _ => tracks_pure _

theorem program_stops {e : ParseError} (h : program s = .error e) :
    Juncture.start.Stops s.tokens e.token? := by
  have hfollows := tracks_program s
  unfold TracksAt at hfollows
  rw [h] at hfollows
  cases hfollows with
  | error hstop => exact hstop

/-- A program is read exactly if the walk over the tokens ends after a function. -/
theorem program_ok_iff (s : State) :
    (∃ r, program s = .ok r) ↔ Juncture.start.watch s.tokens = some true := by
  constructor
  · rintro ⟨⟨a, t⟩, h⟩
    have hfollows := tracks_program s
    unfold TracksAt at hfollows
    rw [h] at hfollows
    obtain ⟨-, -, -, -, hwords, -⟩ := program_yields _ _ _ h
    have hend : t.tokens = [] := List.map_eq_nil_iff.1 hwords
    cases hfollows with
    | ok hpass =>
        obtain ⟨read, hread, hwatch⟩ := hpass
        have hall := hwatch [] List.nil_prefix
        rw [hread, hend]
        exact hall
  · intro hwatch
    cases hprogram : program s with
    | ok r => exact ⟨r, rfl⟩
    | error e => exact absurd hwatch (program_stops hprogram).watch_ne

end Parser

end L3Lowering
