import L3Lowering.Proofs.ErrorReports
import L3Lowering.Proofs.Junctures

namespace L3Lowering

namespace Juncture

/-- The tokens before `rest` lead from one juncture to another, as far as `rest` can tell. -/
def Passes (place goal : Juncture) (tokens rest : List Token) : Prop :=
  ∃ read, tokens = read ++ rest ∧
    ∀ ahead, ahead <+: rest → place.watch (read ++ ahead) = goal.watch ahead

/-- The walk stops at the first token that is out of place, or at the end of the tokens if the
program cannot end there. -/
inductive Stops (place : Juncture) (tokens : List Token) : Option Token → Prop
  | atEnd (h : place.watch tokens = some false) : Stops place tokens none
  | atToken {read rest : List Token} {token : Token} (h : tokens = read ++ token :: rest)
      (hread : (place.watch read).isSome = true) (htoken : place.watch (read ++ [token]) = none) :
      Stops place tokens (some token)

variable {place middle goal : Juncture} {tokens rest others : List Token} {token : Token}

theorem Passes.refl (place : Juncture) (tokens : List Token) : Passes place place tokens tokens :=
  ⟨[], rfl, fun _ _ => rfl⟩

theorem Passes.trans (h : Passes place middle tokens rest) (h' : Passes middle goal rest others) :
    Passes place goal tokens others := by
  obtain ⟨read, rfl, hread⟩ := h
  obtain ⟨read', rfl, hread'⟩ := h'
  refine ⟨read ++ read', by rw [List.append_assoc], ?_⟩
  intro ahead hahead
  rw [List.append_assoc, hread _ ((List.prefix_append_right_inj read').2 hahead), hread' _ hahead]

theorem Passes.stops {stop : Option Token} (h : Passes place middle tokens rest)
    (h' : Stops middle rest stop) : Stops place tokens stop := by
  obtain ⟨read, rfl, hread⟩ := h
  cases h' with
  | atEnd hend => exact .atEnd ((hread rest (List.prefix_refl rest)).trans hend)
  | @atToken read' rest token htokens hsome htoken =>
      subst htokens
      refine .atToken (List.append_assoc read read' _).symm ?_ ?_
      · rw [hread read' (List.prefix_append read' _)]
        exact hsome
      · rw [List.append_assoc, hread _ ((List.prefix_append_right_inj read').2
          (List.prefix_append [token] rest))]
        exact htoken

theorem Stops.watch_ne {stop : Option Token} (h : Stops place tokens stop) :
    place.watch tokens ≠ some true := by
  cases h with
  | atEnd hend => simp [hend]
  | @atToken read rest token htokens _ htoken =>
      have hnone := watch_append_eq_none htoken rest
      rw [List.append_assoc, List.singleton_append, ← htokens] at hnone
      simp [hnone]

theorem passes_cons (h : place.step token.word = some middle) :
    Passes place middle (token :: tokens) tokens := by
  refine ⟨[token], rfl, fun ahead _ => ?_⟩
  rw [List.singleton_append, watch_cons, h]
  rfl

theorem stops_cons (h : place.step token.word = none) :
    Stops place (token :: tokens) (some token) := by
  have htoken : place.watch ([] ++ [token]) = none := by
    rw [List.nil_append, watch_cons, h]
    rfl
  exact .atToken (List.nil_append _).symm rfl htoken

theorem step_congr (h : place.next token.kind = goal.next token.kind) :
    place.step token.word = goal.step token.word := by
  rw [step, step, Parser.kind_word, h]

theorem step_eq_none (h : place.next token.kind = none) : place.step token.word = none := by
  rw [step, Parser.kind_word, h, ite_self]

theorem passes_of_congr (hdone : place.isDone = goal.isDone)
    (h : ∀ token ∈ tokens.head?, place.next token.kind = goal.next token.kind) :
    Passes place goal tokens tokens :=
  ⟨[], rfl, fun _ => watch_congr hdone fun token htoken => step_congr (h token htoken)⟩

end Juncture

namespace Parser

variable {α β : Type} {p : Parser α} {f : α → Parser β} {place middle goal : Juncture} {s : State}

/-- The outcome of a parser agrees with the walk over the tokens. -/
inductive Follows (place goal : Juncture) (tokens : List Token) :
    Except ParseError (α × State) → Prop
  | ok {a : α} {t : State} (h : place.Passes goal tokens t.tokens) :
      Follows place goal tokens (.ok (a, t))
  | error {e : ParseError} (h : place.Stops tokens e.token?) :
      Follows place goal tokens (.error e)

def TracksAt (p : Parser α) (place goal : Juncture) (s : State) : Prop :=
  Follows place goal s.tokens (p s)

def Tracks (p : Parser α) (place goal : Juncture) : Prop :=
  ∀ s, p.TracksAt place goal s

theorem TracksAt.after {t : State} {tokens : List Token}
    (hpass : place.Passes middle tokens t.tokens) (h : p.TracksAt middle goal t) :
    Follows place goal tokens (p t) := by
  unfold TracksAt at h
  generalize p t = r at h ⊢
  cases h with
  | ok h => exact .ok (hpass.trans h)
  | error h => exact .error (hpass.stops h)

theorem TracksAt.bind (hp : p.TracksAt place middle s)
    (hf : ∀ a t, p s = .ok (a, t) → (f a).TracksAt middle goal t) :
    (p >>= f).TracksAt place goal s := by
  unfold TracksAt at hp ⊢
  rw [bind_apply]
  generalize p s = r at hp hf ⊢
  cases hp with
  | ok hpass => exact (hf _ _ rfl).after hpass
  | error hstop => exact .error hstop

theorem Tracks.bind (hp : p.Tracks place middle) (hf : ∀ a, (f a).Tracks middle goal) :
    (p >>= f).Tracks place goal :=
  fun s => (hp s).bind fun a t _ => hf a t

theorem tracks_pure (a : α) : Tracks (pure a : Parser α) place place :=
  fun s => .ok (.refl place s.tokens)

theorem tracks_freshId : Tracks freshId place place :=
  fun s => .ok (.refl place s.tokens)

theorem tracks_noteCallLabel (token : Token) : Tracks (noteCallLabel token) place place :=
  fun s => .ok (.refl place s.tokens)

theorem tracks_numbered (f : NodeId → α) : Tracks (do return f (← freshId)) place place :=
  tracks_freshId.bind fun _ => tracks_pure _

/-- What is done with the next token agrees with where the token leads. -/
inductive Handles (f : Token → Parser β) (place goal : Juncture) (token : Token) (s : State) : Prop
  | go {middle : Juncture} (hstep : place.step token.word = some middle)
      (h : (f token).TracksAt middle goal s)
  | stop {e : ParseError} (hstep : place.step token.word = none) (h : f token s = .error e)
      (he : e.token? = some token)

theorem Handles.ofKind {f : Token → Parser β} {token : Token} {kind : Kind}
    (hkind : token.kind = kind) (hinteger : kind ≠ .integer) (hnext : place.next kind = some middle)
    (h : (f token).TracksAt middle goal s) : Handles f place goal token s := by
  refine .go ?_ h
  rw [Juncture.step_word (hkind ▸ hinteger), hkind, hnext]

theorem Handles.unexpected {f : Token → Parser β} {token : Token} {kind : Kind}
    (expected : Expectation) (hkind : token.kind = kind) (hnext : place.next kind = none)
    (h : f token s = .error (.unexpected expected token)) : Handles f place goal token s :=
  .stop (Juncture.step_eq_none (hkind ▸ hnext)) h rfl

theorem tracksAt_next {f : Token → Parser β} (expected : Expectation)
    (hend : s.tokens = [] → place.isDone = false)
    (h : ∀ token tokens, s.tokens = token :: tokens →
      Handles f place goal token { s with tokens }) :
    (next expected >>= f).TracksAt place goal s := by
  unfold TracksAt
  cases htokens : s.tokens with
  | nil =>
      have hnext : (next expected >>= f) s = .error (.atEnd expected) := by
        simp only [bind_apply, next, htokens]
      rw [hnext]
      exact .error (.atEnd (by rw [Juncture.watch_nil, hend htokens]))
  | cons token tokens =>
      have hnext : (next expected >>= f) s = f token { s with tokens } := by
        simp only [bind_apply, next, htokens]
      rw [hnext]
      cases h token tokens htokens with
      | go hstep htracks => exact htracks.after (Juncture.passes_cons hstep)
      | stop hstep hfail htoken =>
          rw [hfail]
          exact .error (htoken ▸ Juncture.stops_cons hstep)

theorem tracks_next {f : Token → Parser β} (expected : Expectation) (hend : place.isDone = false)
    (h : ∀ token s, Handles f place goal token s) : Tracks (next expected >>= f) place goal :=
  fun _ => tracksAt_next expected (fun _ => hend) fun token _ _ => h token _

theorem tracksAt_expect {kind : Kind} (expected : Expectation) (hinteger : kind ≠ .integer)
    (hend : s.tokens = [] → place.isDone = false) (hdue : place.next kind = some middle)
    (hother : ∀ token ∈ s.tokens.head?, token.kind ≠ kind → place.step token.word = none) :
    (expect kind expected).TracksAt place middle s := by
  apply tracksAt_next expected hend
  intro token tokens htokens
  by_cases hkind : token.kind = kind
  · have hstep : place.step token.word = some middle := by
      rw [Juncture.step_word (hkind ▸ hinteger), hkind, hdue]
    apply Handles.go hstep
    rw [if_pos hkind]
    exact tracks_pure token _
  · have hhead : token ∈ s.tokens.head? := by rw [htokens]; rfl
    exact .stop (hother token hhead hkind) (by rw [if_neg hkind]; rfl) rfl

theorem tracksAt_only {kind : Kind} (expected : Expectation)
    (hnext : place.next = Juncture.only kind middle) (hinteger : kind ≠ .integer)
    (hend : s.tokens = [] → place.isDone = false) :
    (expect kind expected).TracksAt place middle s := by
  apply tracksAt_expect expected hinteger hend
  · rw [hnext]
    exact if_pos rfl
  · intro token _ hkind
    apply Juncture.step_eq_none
    rw [hnext]
    exact if_neg hkind

theorem tracks_only {kind : Kind} (expected : Expectation)
    (hnext : place.next = Juncture.only kind middle) (hinteger : kind ≠ .integer)
    (hend : place.isDone = false) : (expect kind expected).Tracks place middle :=
  fun _ => tracksAt_only expected hnext hinteger fun _ => hend

theorem tracks_var (hnext : place.next = Juncture.only .identifier goal)
    (hend : place.isDone = false) : Tracks var place goal :=
  (tracks_only .var hnext (by decide) hend).bind fun _ => tracks_numbered _

theorem tracks_label (hnext : place.next = Juncture.only .label goal)
    (hend : place.isDone = false) : Tracks label place goal :=
  (tracks_only .label hnext (by decide) hend).bind fun _ => tracks_numbered _

end Parser

end L3Lowering
