import L3Lowering.Proofs.PlainNames

namespace L3Lowering

/-- A place in an L2 program where a label can be defined. -/
inductive Site where
  | header (function : Nat)
  | binding (function line : Nat)
  | line (function tile line : Nat)
  deriving DecidableEq

def L2.sites (place : Nat → Site) (lines : List L2.Line) : List (String × Site) :=
  lines.zipIdx.filterMap fun (line, k) => line.label?.map fun name => (name, place k)

def TiledFunction.sites (i : Nat) (function : TiledFunction) : List (String × Site) :=
  (function.name, .header i) :: (L2.sites (.binding i) function.bindings ++
    function.tiles.zipIdx.flatMap fun (tile, k) => L2.sites (.line i k) tile.lines)

def TiledProgram.sites (program : TiledProgram) : List (String × Site) :=
  program.functions.zipIdx.flatMap fun (function, i) => function.sites i

def sitesNamed (name : String) (sites : List (String × Site)) : List Site :=
  (sites.filter (·.1 == name)).map Prod.snd

/-- Where an L2 program defines a label. -/
def TiledProgram.sitesOf (program : TiledProgram) (name : String) : List Site :=
  sitesNamed name program.sites

def Instruction.isLabel (name : String) : Instruction → Bool
  | .label l => l.name == name
  | _ => false

def Function.labelPlaces (function : Function) (name : String) : List Nat :=
  (function.body.zipIdx.filter fun (i, _) => i.isLabel name).map Prod.snd

variable {name : String}

theorem sitesNamed_eq_nil {sites : List (String × Site)} (h : ∀ s ∈ sites, s.1 ≠ name) :
    sitesNamed name sites = [] := by
  rw [sitesNamed, List.map_eq_nil_iff, List.filter_eq_nil_iff]
  intro s hs
  simpa using h s hs

theorem sitesNamed_append (sites sites' : List (String × Site)) :
    sitesNamed name (sites ++ sites') = sitesNamed name sites ++ sitesNamed name sites' := by
  simp [sitesNamed]

theorem sitesNamed_flatMap {α : Type} (xs : List α) (sites : α → List (String × Site)) :
    sitesNamed name (xs.flatMap sites) = xs.flatMap fun x => sitesNamed name (sites x) := by
  simp [sitesNamed, List.filter_flatMap, List.map_flatMap]

theorem mem_sites {place : Nat → Site} {lines : List L2.Line} {s : String × Site}
    (h : s ∈ L2.sites place lines) : s.1 ∈ lines.filterMap L2.Line.label? := by
  obtain ⟨⟨line, k⟩, hline, hs⟩ := List.mem_filterMap.1 h
  obtain ⟨label, hlabel, rfl⟩ := Option.map_eq_some_iff.1 hs
  exact List.mem_filterMap.2 ⟨line, List.fst_mem_of_mem_zipIdx hline, hlabel⟩

theorem sites_bindings (i : Nat) (function : TiledFunction) :
    L2.sites (.binding i) function.bindings = [] := by
  rw [List.eq_nil_iff_forall_not_mem]
  intro s hs
  obtain ⟨line, hline, hlabel⟩ := List.mem_filterMap.1 (mem_sites hs)
  obtain ⟨place, hplace, rfl⟩ := List.mem_mapIdx.1 hline
  unfold L2.bindParameter at hlabel
  split at hlabel <;> simp [L2.Line.label?] at hlabel

theorem flatMap_zipIdx_of_only {α β : Type} {f : α × Nat → List β} {xs : List α} {x : α} {i : Nat}
    (hx : xs[i]? = some x) (n : Nat)
    (h : ∀ j y, xs[j]? = some y → j ≠ i → f (y, n + j) = []) :
    (xs.zipIdx n).flatMap f = f (x, n + i) := by
  induction xs generalizing i n with
  | nil => simp at hx
  | cons y ys ih =>
      rw [List.zipIdx_cons, List.flatMap_cons]
      cases i with
      | zero =>
          obtain rfl : y = x := by simpa using hx
          have hothers : (ys.zipIdx (n + 1)).flatMap f = [] := by
            rw [List.flatMap_eq_nil_iff]
            rintro ⟨z, k⟩ hz
            obtain ⟨hle, hget⟩ := List.mk_mem_zipIdx_iff_le_and_getElem?_sub.1 hz
            have hk : n + (k - (n + 1) + 1) = k := by omega
            rw [← hk]
            exact h (k - (n + 1) + 1) z hget (by omega)
          rw [hothers, List.append_nil]
          rfl
      | succ i =>
          have hfirst : f (y, n) = [] := h 0 y rfl (by omega)
          have hindex : n + (i + 1) = n + 1 + i := by omega
          rw [hfirst, List.nil_append, hindex]
          refine ih hx (n + 1) fun j z hz hne => ?_
          have hj : n + 1 + j = n + (j + 1) := by omega
          rw [hj]
          exact h (j + 1) z hz (by omega)

namespace Program

variable {program : Program} {other : String} {i j : Nat}

theorem scopedName_eq_iff (h : program.Scopable) (hname : name ∈ program.writtenNames)
    (hother : other ∈ program.writtenNames) (hlocal : other ∉ program.functionNames) :
    program.scopedName j name = program.scopedName i other ↔ j = i ∧ name = other := by
  constructor
  · intro heq
    by_cases hfunction : name ∈ program.functionNames
    · rw [scopedName_of_mem hfunction] at heq
      exact absurd heq.symm (scopedName_not_mem hlocal hname)
    · obtain rfl := scopedName_place_injective h hname hother hfunction hlocal heq
      exact ⟨rfl, scopedName_injective h hname hother heq⟩
  · rintro ⟨rfl, rfl⟩
    rfl

theorem returnLabel_ne_scopedName (hlocal : other ∉ program.functionNames) (issued : Nat) :
    LabelSupply.returnLabel program.stem issued ≠ program.scopedName i other := by
  intro heq
  have htext : (LabelSupply.returnLabel program.stem issued).toList
      = ':' :: (program.stem.toList ++ '_' :: ("ret".toList ++ Text.digits issued)) := by
    simp [LabelSupply.returnLabel]
  have hreserved : (program.stem ++ "_").toList
      <+: (Label.bare (program.scopedName i other)).toList := by
    rw [← heq, Label.bare, htext]
    simp
  exact scopedName_not_reserved hlocal hreserved

end Program

theorem Instruction.eq_of_mem_defines {instruction : Instruction} {returnLabel : String}
    (h : name ∈ instruction.defines returnLabel) :
    name = returnLabel ∨ ∃ l, instruction = .label l := by
  unfold defines at h
  split at h
  · exact .inr ⟨_, rfl⟩
  · exact .inl (List.mem_singleton.1 h)
  · exact .inl (List.mem_singleton.1 h)
  · exact absurd h List.not_mem_nil

theorem Instruction.eq_label_of_mapLabels {calls : CallScope} {rename : String → String}
    {instruction : Instruction} {l : Label} (h : instruction.mapLabels calls rename = .label l) :
    ∃ original, instruction = .label original := by
  cases instruction with
  | label original => exact ⟨original, rfl⟩
  | assign | goto | branch | call | returnValue | returnVoid => simp [mapLabels] at h

namespace Program

variable {program : Program} {other : String} {i j : Nat}

/-- A tile defines a local label only if it is the tile of that label in that function. -/
theorem sitesNamed_tile (h : program.Scopable) (hother : other ∈ program.writtenNames)
    (hlocal : other ∉ program.functionNames) {instruction : Instruction} {tile : Tile}
    (hwritten : ∀ l ∈ instruction.labels, l.name ∈ program.writtenNames)
    (hcovers : Tile.Covers program.stem
      (instruction.mapLabels .enter (program.scopedName j)) tile) (place : Nat → Site) :
    sitesNamed (program.scopedName i other) (L2.sites place tile.lines)
      = if j = i ∧ instruction.isLabel other = true then [place 0] else [] := by
  -- Only labels and calls define anything, and return labels have names of their own.
  by_cases hlabel : ∃ l, instruction = .label l
  · obtain ⟨l, rfl⟩ := hlabel
    obtain rfl := hcovers.label _ rfl
    have hname : l.name ∈ program.writtenNames :=
      hwritten l (by simp [Instruction.labels_eq, Instruction.outerLabels])
    have hsame := scopedName_eq_iff (j := j) (i := i) h hname hother hlocal
    have hsites : L2.sites place (Tile.label (program.scopedName j l.name)).lines
        = [(program.scopedName j l.name, place 0)] := rfl
    have hisLabel : (Instruction.label l).isLabel other = true ↔ l.name = other := by
      simp [Instruction.isLabel]
    simp only [Label.mapName, hsites, sitesNamed, hisLabel, ← hsame]
    by_cases heq : program.scopedName j l.name = program.scopedName i other
    · simp [heq]
    · simp [heq]
  · have hisLabel : instruction.isLabel other = false := by
      cases instruction with
      | label l => exact absurd ⟨l, rfl⟩ hlabel
      | _ => rfl
    rw [if_neg (by simp [hisLabel])]
    apply sitesNamed_eq_nil
    intro s hs
    obtain ⟨issued, hdefines⟩ := hcovers.defines
    have hmem : s.1 ∈ tile.defines := mem_sites hs
    rw [hdefines] at hmem
    rcases Instruction.eq_of_mem_defines hmem with hreturn | ⟨l, hl⟩
    · rw [hreturn]
      exact returnLabel_ne_scopedName hlocal issued
    · exact absurd (Instruction.eq_label_of_mapLabels hl) hlabel

theorem sitesNamed_tiles (h : program.Scopable) (hother : other ∈ program.writtenNames)
    (hlocal : other ∉ program.functionNames) {body : List Instruction} {tiles : List Tile}
    (hwritten : ∀ instruction ∈ body, ∀ l ∈ instruction.labels, l.name ∈ program.writtenNames)
    (hcovers : List.Forall₂ (Tile.Covers program.stem)
      (body.map (Instruction.mapLabels .enter (program.scopedName j))) tiles) (n : Nat) :
    ((tiles.zipIdx n).flatMap fun (tile, k) =>
        sitesNamed (program.scopedName i other) (L2.sites (.line j k) tile.lines))
      = if j = i then
          ((body.zipIdx n).filter fun (instruction, _) => instruction.isLabel other).map
            fun (_, k) => Site.line j k 0
        else [] := by
  induction body generalizing tiles n with
  | nil =>
      cases hcovers
      simp
  | cons instruction body ih =>
      cases hcovers with
      | @cons _ tile _ tiles htile htiles =>
          have hfirst := sitesNamed_tile (i := i) h hother hlocal
            (hwritten instruction List.mem_cons_self) htile (.line j n)
          have hrest := ih (fun b hb => hwritten b (List.mem_cons_of_mem _ hb)) htiles (n + 1)
          rw [List.zipIdx_cons, List.flatMap_cons, hrest, List.zipIdx_cons, List.filter_cons]
          simp only [hfirst]
          by_cases hplace : j = i
          · cases instruction.isLabel other <;> simp [hplace]
          · simp [hplace]

theorem sitesNamed_function (h : program.Scopable) (hother : other ∈ program.writtenNames)
    (hlocal : other ∉ program.functionNames) {function : Function} {tiled : TiledFunction}
    (hfunction : function ∈ program.functions) (hfresh : Instruction.Fresh [] function.body)
    (hemits : TiledFunction.Emits program.stem
      (function.mapLabels .enter (program.scopedName j)) tiled) :
    sitesNamed (program.scopedName i other) (tiled.sites j)
      = if j = i then (function.labelPlaces other).map (Site.line j · 0) else [] := by
  have hheader : tiled.name ≠ program.scopedName i other := by
    have hname : function.name.name ∈ program.functionNames :=
      mem_functionNames.2 ⟨function, hfunction, rfl⟩
    rw [hemits.name]
    exact (scopedName_not_mem hlocal (functionNames_subset hname)).symm
  have hwritten : ∀ instruction ∈ function.body, ∀ l ∈ instruction.labels,
      l.name ∈ program.writtenNames := fun instruction hinstruction l hl =>
    bodyLabels_subset hfunction (List.mem_flatMap.2 ⟨instruction, hinstruction, hl⟩)
  have htiles := sitesNamed_tiles (i := i) h hother hlocal hwritten
    (hemits.tiles (hfresh.mapLabels _ _)) 0
  have hfirst : sitesNamed (program.scopedName i other) [(tiled.name, Site.header j)] = [] :=
    sitesNamed_eq_nil fun s hs => by rwa [List.mem_singleton.1 hs]
  rw [TiledFunction.sites, sites_bindings, List.nil_append, ← List.singleton_append,
    sitesNamed_append, hfirst, List.nil_append, sitesNamed_flatMap, htiles, Function.labelPlaces,
    List.map_map]
  rfl

end Program

theorem forall₂_getElem? {α β : Type} {R : α → β → Prop} {as : List α} {bs : List β}
    (h : List.Forall₂ R as bs) (k : Nat) :
    (as[k]? = none ∧ bs[k]? = none) ∨ ∃ a b, as[k]? = some a ∧ bs[k]? = some b ∧ R a b := by
  induction h generalizing k with
  | nil => exact .inl ⟨rfl, rfl⟩
  | cons hab _ ih =>
      cases k with
      | zero => exact .inr ⟨_, _, rfl, rfl, hab⟩
      | succ k => exact ih k

structure TiledProgram.Resolves (program : Program) (tiled : TiledProgram) : Prop where
  names : tiled.functions.map TiledFunction.name = program.functionNames
  emitted : ∀ (i : Nat) (function : Function), program.functions[i]? = some function →
    ∃ tiledFunction, tiled.functions[i]? = some tiledFunction ∧
      tiledFunction.tiles.length = function.body.length ∧
      ∀ (k : Nat) (instruction : Instruction), function.body[k]? = some instruction →
        ∃ tile, tiledFunction.tiles[k]? = some tile ∧
          (∃ issued, (Selector.choose (.counted program.stem issued)
            (instruction.mapLabels .enter (program.scopedName i))).1 = .ok tile) ∧
          tile.outerLabels
            = instruction.outerLabels.map fun label => program.scopedName i label.name
  /-- A local label is defined where its function has it, and nowhere else. -/
  resolved : ∀ (i : Nat) (function : Function), program.functions[i]? = some function →
    ∀ label ∈ function.outerLabels, label.name ∉ program.functionNames →
      tiled.sitesOf (program.scopedName i label.name)
        = (function.labelPlaces label.name).map (Site.line i · 0)

namespace Program.Grammatical

variable {program : Program} {tiled : TiledProgram}

theorem emits_getElem? (h : program.Grammatical)
    (hemits : List.Forall₂ (TiledFunction.Emits program.stem) program.scopeLabels.functions
      tiled.functions) (i : Nat) :
    (program.functions[i]? = none ∧ tiled.functions[i]? = none) ∨
      ∃ function tiledFunction, program.functions[i]? = some function ∧
        tiled.functions[i]? = some tiledFunction ∧
        TiledFunction.Emits program.stem (function.mapLabels .enter (program.scopedName i))
          tiledFunction := by
  rw [scopeLabels_eq_renamed h.scopable] at hemits
  have hplace : program.renamed.functions[i]? = program.functions[i]?.map fun function =>
      function.mapLabels .enter (program.scopedName i) := List.getElem?_mapIdx
  rcases forall₂_getElem? hemits i with ⟨hnone, htiled⟩ | ⟨after, tiledFunction, hafter, htiled, hR⟩
  · rw [hplace, Option.map_eq_none_iff] at hnone
    exact .inl ⟨hnone, htiled⟩
  · rw [hplace] at hafter
    obtain ⟨function, hfunction, rfl⟩ := Option.map_eq_some_iff.1 hafter
    exact .inr ⟨function, tiledFunction, hfunction, htiled, hR⟩

theorem emits_of_getElem? (h : program.Grammatical)
    (hemits : List.Forall₂ (TiledFunction.Emits program.stem) program.scopeLabels.functions
      tiled.functions) {i : Nat} {function : Function}
    (hfunction : program.functions[i]? = some function) :
    ∃ tiledFunction, tiled.functions[i]? = some tiledFunction ∧
      TiledFunction.Emits program.stem (function.mapLabels .enter (program.scopedName i))
        tiledFunction := by
  rcases h.emits_getElem? hemits i with ⟨hnone, -⟩ | ⟨found, tiledFunction, hfound, htiled, hR⟩
  · simp [hnone] at hfunction
  · obtain rfl : found = function := by simpa [hfound] using hfunction
    exact ⟨tiledFunction, htiled, hR⟩

theorem emitted_names (h : program.Grammatical)
    (hemits : List.Forall₂ (TiledFunction.Emits program.stem) program.scopeLabels.functions
      tiled.functions) : tiled.functions.map TiledFunction.name = program.functionNames := by
  apply List.ext_getElem?
  intro i
  rw [functionNames, List.getElem?_map, List.getElem?_map]
  rcases h.emits_getElem? hemits i with
    ⟨hnone, htiled⟩ | ⟨function, tiledFunction, hfunction, htiled, hR⟩
  · rw [hnone, htiled]
    rfl
  · rw [hfunction, htiled, Option.map_some, Option.map_some, hR.name]
    rfl

theorem tile_of_getElem? {i k : Nat} {function : Function} {tiles : List Tile}
    (htiles : List.Forall₂ (Tile.Covers program.stem)
      (function.mapLabels .enter (program.scopedName i)).body tiles)
    {instruction : Instruction} (hinstruction : function.body[k]? = some instruction) :
    ∃ tile, tiles[k]? = some tile ∧
      (∃ issued, (Selector.choose (.counted program.stem issued)
        (instruction.mapLabels .enter (program.scopedName i))).1 = .ok tile) ∧
      tile.outerLabels
        = instruction.outerLabels.map fun label => program.scopedName i label.name := by
  have hmapped : (function.mapLabels .enter (program.scopedName i)).body[k]?
      = some (instruction.mapLabels .enter (program.scopedName i)) := by
    rw [Function.mapLabels, List.getElem?_map, hinstruction]
    rfl
  rcases forall₂_getElem? htiles k with ⟨hnone, -⟩ | ⟨after, tile, hafter, htile, hcovers⟩
  · simp [hmapped] at hnone
  · rw [hmapped, Option.some.injEq] at hafter
    subst hafter
    refine ⟨tile, htile, hcovers.chosen, ?_⟩
    rw [hcovers.outerLabels, Instruction.outerLabels_mapLabels, List.map_map]
    rfl

theorem sitesOf_scopedName (h : program.Grammatical)
    (hfresh : ∀ function ∈ program.functions, Instruction.Fresh [] function.body)
    (hemits : List.Forall₂ (TiledFunction.Emits program.stem) program.scopeLabels.functions
      tiled.functions) {i : Nat} {function : Function}
    (hfunction : program.functions[i]? = some function) {label : Label}
    (hlabel : label ∈ function.outerLabels) (hlocal : label.name ∉ program.functionNames) :
    tiled.sitesOf (program.scopedName i label.name)
      = (function.labelPlaces label.name).map (Site.line i · 0) := by
  have hmem : function ∈ program.functions := List.mem_of_getElem? hfunction
  have hwritten : label.name ∈ program.writtenNames :=
    bodyLabels_subset hmem (Function.mem_bodyLabels.2 (.inl hlabel))
  have hplace (j : Nat) (found : Function) (tiledFunction : TiledFunction)
      (hfound : program.functions[j]? = some found)
      (hR : TiledFunction.Emits program.stem (found.mapLabels .enter (program.scopedName j))
        tiledFunction) :
      sitesNamed (program.scopedName i label.name) (tiledFunction.sites j)
        = if j = i then (found.labelPlaces label.name).map (Site.line j · 0) else [] :=
    sitesNamed_function h.scopable hwritten hlocal (List.mem_of_getElem? hfound)
      (hfresh found (List.mem_of_getElem? hfound)) hR
  obtain ⟨tiledFunction, htiled, hR⟩ := h.emits_of_getElem? hemits hfunction
  rw [TiledProgram.sitesOf, TiledProgram.sites, sitesNamed_flatMap,
    flatMap_zipIdx_of_only htiled 0, Nat.zero_add]
  · exact (hplace i function tiledFunction hfunction hR).trans (if_pos rfl)
  · intro j other hother hne
    rw [Nat.zero_add]
    rcases h.emits_getElem? hemits j with ⟨-, hnone⟩ | ⟨found, tiled', hfound, htiled', hR'⟩
    · simp [hnone] at hother
    · obtain rfl : tiled' = other := by simpa [htiled'] using hother
      exact (hplace j found tiled' hfound hR').trans (if_neg hne)

theorem resolves (h : program.Grammatical)
    (hfresh : ∀ function ∈ program.functions, Instruction.Fresh [] function.body)
    (hemits : List.Forall₂ (TiledFunction.Emits program.stem) program.scopeLabels.functions
      tiled.functions) : tiled.Resolves program where
  names := h.emitted_names hemits
  emitted := by
    intro i function hfunction
    obtain ⟨tiledFunction, htiled, hR⟩ := h.emits_of_getElem? hemits hfunction
    have htiles := hR.tiles ((hfresh function (List.mem_of_getElem? hfunction)).mapLabels _ _)
    refine ⟨tiledFunction, htiled, ?_, fun k instruction => tile_of_getElem? htiles⟩
    rw [← htiles.length_eq]
    exact List.length_map ..
  resolved i function hfunction label := h.sitesOf_scopedName hfresh hemits hfunction

end Program.Grammatical

/-- Every source of at most `2 ^ 32` tokens that can be parsed is compiled to the text of an L2
program, which reads back as that program. In it each function's local labels are defined where the
function has them, and nowhere else. -/
theorem Source.labels_resolve (source : Source) (program : Program)
    (h : source.parse = .ok program) (hsize : source.tokens.length ≤ UInt32.size) :
    ∃ tiled, program.lower.result = .ok tiled ∧ source.compile.value = .ok tiled.text ∧
      Sexp.read tiled.text = some [tiled.sexp] ∧ tiled.Resolves program := by
  have hgrammatical := grammatical_of_parse h
  have hfresh := fresh_of_parse h hsize
  obtain ⟨tiled, hlower, hemits⟩ := hgrammatical.lower_ok
  exact ⟨tiled, hlower, compile_of_lower h hlower, hgrammatical.read_text hfresh hlower,
    hgrammatical.resolves hfresh hemits⟩

/-- Both functions have a label `:z0`, with which the numbered stems start; `:g` jumps to a label
that only `:f` has. -/
theorem Source.labels_resolve_twice :
    let source := Source.ofString
      "define :f() \x7b :z0 :z br :z \x7d define :g() \x7b call :f() :z0 br :z \x7d"
    let program : Program :=
      ⟨[⟨⟨0, ":f"⟩, [], [.label ⟨1, ":z0"⟩, .label ⟨2, ":z"⟩, .goto ⟨4, ⟨3, ":z"⟩⟩]⟩,
        ⟨⟨5, ":g"⟩, [], [.call ⟨7, .label ⟨6, ":f"⟩, []⟩, .label ⟨8, ":z0"⟩,
          .goto ⟨10, ⟨9, ":z"⟩⟩]⟩]⟩
    source.parse = .ok program ∧ source.tokens.length ≤ UInt32.size ∧
      ∃ tiled : TiledProgram, source.compile.value = .ok tiled.text ∧
        Sexp.read tiled.text = some [tiled.sexp] ∧ tiled.Resolves program ∧
        tiled.sitesOf (program.scopedName 0 ":z") = [.line 0 1 0] ∧
        tiled.sitesOf (program.scopedName 1 ":z") = [] := by
  intro source program
  have hparse : source.parse = .ok program := by decide +kernel
  have hsize : source.tokens.length ≤ UInt32.size := by decide +kernel
  obtain ⟨tiled, -, hcompile, hread, hresolves⟩ := labels_resolve source program hparse hsize
  refine ⟨hparse, hsize, tiled, hcompile, hread, hresolves, ?_, ?_⟩
  · exact hresolves.resolved 0 _ rfl ⟨2, ":z"⟩ (by decide) (by decide)
  · exact hresolves.resolved 1 _ rfl ⟨9, ":z"⟩ (by decide) (by decide)

end L3Lowering
