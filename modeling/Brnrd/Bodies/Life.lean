import Brnrd.Bodies.Next
import Brnrd.Ledger.Writer

/-! A generation of a strand has one life: what a body's passes write and start,
over every run with crashes and restarts between any two of their actions. -/
namespace Brnrd.Bodies

open Python Facts Ledger Project

/-- A body that was started: the letters its wake carries, and how many facts
its install's folder held. -/
structure Spawn where
  strand : String
  gen : Int
  letters : List String
  written : Nat

/-- An install's folder of the ledger, and the bodies it has started. -/
structure World where
  folder : Folder
  spawned : List Spawn

def World.start : World :=
  ⟨Folder.empty, []⟩

def World.spawn (w : World) (o : Observation) (letters : List String) : World :=
  { w with spawned := w.spawned ++ [⟨o.strand, o.gen, letters, w.folder.own.length⟩] }

/-- The kinds that only a body's passes write. -/
def ownKinds : List String :=
  ["body.pending", "body.parked", "body.started", "body.leaving", "body.stayed", "body.stopped",
    "body.unidentified", "body.exited", "attempt.ended", "port.drained", "released"]

/-- The id of a fact that says what a wake carried. -/
def isWakeId (ident : String) : Bool :=
  startsWith ident "shown:wake:"

/-- One fact is appended to the folder. -/
def World.Appends (install : String) (w : World) (fact : Fact) (w' : World) : Prop :=
  ∃ now stored, append now install w.folder fact = .ok (w'.folder, stored) ∧ w'.spawned = w.spawned

/-- Anyone else writes a fact: a router, a connector, a strand, a person. -/
def World.Elsewhere (install : String) (w w' : World) : Prop :=
  ∃ fact, fact.kind ∉ ownKinds ∧ ¬ isWakeId fact.id ∧ w.Appends install fact w'

/-- The hands that leave no fact of the table's: what they drain out of a port
is written elsewhere. -/
def silentHands : List CommandName :=
  [.signal, .letGo, .collect, .drain]

/-- The hands that a record already there makes do nothing. `_end_attempt` looks
for the id of its fact, which is the kind, the strand and the generation. -/
def skips : CommandName → Option String
  | .end_ | .endSettled | .endFailed | .endReincarnated | .endMoved => some "attempt.ended"
  | .drained => some "port.drained"
  | _ => none

/-- The observation the table is asked again with: a preparation or a start has
failed, or the signal has ended the body. -/
inductive Again (o : Observation) : CommandName → Observation → Prop where
  | prepare (failure : String) : Again o .prepare { o with failure := failure }
  | spawn (failure : String) : Again o .spawn { o with failure := failure }
  | signal : Again o .signal { o with alive := false }

/-- The hands performing commands over `o` with the letters prepared so far. A
pass may stop anywhere: at a crash, at an exception or at a hand that says so. -/
inductive Pass (floats : Floats) (install : String) :
    List Command → Observation → List String → World → World → Prop where
  | stop {commands : List Command} {o : Observation} {letters : List String} {w : World} :
      Pass floats install commands o letters w w
  | elsewhere {commands : List Command} {o : Observation} {letters : List String} {w w' w'' : World}
      (hOther : w.Elsewhere install w') (hRest : Pass floats install commands o letters w' w'') :
      Pass floats install commands o letters w w''
  | prepared {command : Command} {commands : List Command} {o : Observation} {letters : List String}
      {w w' : World} (carried : List String) (hName : command.name = .prepare)
      (hRest : Pass floats install commands o carried w w') :
      Pass floats install (command :: commands) o letters w w'
  | spawned {command : Command} {commands : List Command} {o : Observation} {letters : List String}
      {w w' : World} (hName : command.name = .spawn)
      (hRest : Pass floats install commands o letters (w.spawn o letters) w') :
      Pass floats install (command :: commands) o letters w w'
  | silent {command : Command} {commands : List Command} {o : Observation} {letters : List String}
      {w w' : World} (hName : command.name ∈ silentHands)
      (hRest : Pass floats install commands o letters w w') :
      Pass floats install (command :: commands) o letters w w'
  | recorded {command : Command} {commands : List Command} {o : Observation} {letters : List String}
      {w w' w'' : World} {fact : Fact} (x : Shared) (hLetters : x.letters = letters)
      (hFact : command.fact floats x o = some fact) (hAppend : w.Appends install fact w')
      (hRest : Pass floats install commands o letters w' w'') :
      Pass floats install (command :: commands) o letters w w''
  | skipped {command : Command} {commands : List Command} {o : Observation} {letters : List String}
      {w w' : World} {kind : String} (hSkips : skips command.name = some kind)
      (hThere : (factFor w.folder.own kind o.strand o.gen).isSome)
      (hRest : Pass floats install commands o letters w w') :
      Pass floats install (command :: commands) o letters w w'
  | again {command : Command} {commands commands' : List Command} {o o' : Observation} {letters : List String}
      {w w' : World} (hAgain : Again o command.name o')
      (hDecided : decided floats.read w.folder.own o' = .ok commands')
      (hRest : Pass floats install commands' o' letters w w') :
      Pass floats install (command :: commands) o letters w w'

/-- One step of a run: a pass over some body, observed in any way, or a fact
written elsewhere. -/
inductive Step (floats : Floats) (install : String) : World → World → Prop where
  | pass {o : Observation} {commands : List Command} {w w' : World}
      (hDecided : decided floats.read w.folder.own o = .ok commands)
      (hPass : Pass floats install commands o [] w w') : Step floats install w w'
  | elsewhere {w w' : World} (hOther : w.Elsewhere install w') : Step floats install w w'

/-- The worlds that runs reach. -/
def Reachable (floats : Floats) (install : String) (w : World) : Prop :=
  Relation.ReflTransGen (Step floats install) World.start w

/-- A fact of a kind about a generation is among `facts`. -/
def Has (facts : List Fact) (kind strand : String) (gen : Int) : Prop :=
  ∃ f ∈ facts, f.kind = kind ∧ ofBody strand gen f

/-- The fact says what a wake of the generation carries. -/
structure IsWake (strand : String) (gen : Int) (f : Fact) : Prop where
  ident : isWakeId f.id
  kind : f.kind = "shown"
  body : ofBody strand gen f

def Woken (facts : List Fact) (strand : String) (gen : Int) : Prop :=
  ∃ f ∈ facts, IsWake strand gen f

/-- The fact says that a wake of the generation carries the letters. -/
def Carries (strand : String) (gen : Int) (letters : List String) (f : Fact) : Prop :=
  IsWake strand gen f ∧ Dict.get f.data "ids" = .arr (letters.map .str)

/-- What appending a fact does to a world. -/
structure Appended (w : World) (fact : Fact) (w' : World) (stored : Fact) : Prop where
  ident : stored.id = fact.id
  kind : stored.kind = fact.kind
  data : stored.data = fact.data
  spawned : w'.spawned = w.spawned
  own : w'.folder.own = w.folder.own ∧ stored ∈ w.folder.own ∨ w'.folder.own = w.folder.own ++ [stored]

theorem World.Appends.spec {install : String} {w w' : World} {fact : Fact} (h : w.Appends install fact w')
    (hInStep : w.folder.InStep) : w'.folder.InStep ∧ ∃ stored, Appended w fact w' stored := by
  obtain ⟨now, stored, hAppend, hSpawned⟩ := h
  obtain ⟨hNext, hCases⟩ := append_cases hInStep hAppend
  have hContent := append_content hAppend
  have hKind : stored.kind = fact.kind := congrArg Prod.fst hContent
  have hData : stored.data = fact.data := congrArg (fun c => c.2.2) hContent
  refine ⟨hNext, stored, ?_, hKind, hData, hSpawned, ?_⟩
  · rcases hCases with ⟨-, -, hId⟩ | ⟨-, -, index, -, rfl⟩
    · exact hId
    · rfl
  · exact hCases.imp (fun h => ⟨h.1, h.2.1⟩) fun h => h.1

section Appended

variable {w w' : World} {fact stored : Fact}

theorem Appended.mem (h : Appended w fact w' stored) {f : Fact} : f ∈ w'.folder.own ↔ f ∈ w.folder.own ∨ f = stored := by
  rcases h.own with ⟨hOwn, hMem⟩ | hOwn
  · rw [hOwn]
    exact ⟨Or.inl, fun h => h.elim id fun h => h ▸ hMem⟩
  · rw [hOwn, List.mem_append, List.mem_singleton]

variable {gen : Int} {strand : String}

theorem Appended.ofBody_iff (h : Appended w fact w' stored) : ofBody strand gen stored ↔ ofBody strand gen fact := by
  rw [ofBody, ofBody, h.data]

theorem Appended.has_iff (h : Appended w fact w' stored) {kind : String} :
    Has w'.folder.own kind strand gen ↔
      Has w.folder.own kind strand gen ∨ fact.kind = kind ∧ ofBody strand gen fact := by
  constructor
  · rintro ⟨f, hf, hKind, hBody⟩
    rcases h.mem.mp hf with hf | rfl
    · exact .inl ⟨f, hf, hKind, hBody⟩
    · exact .inr ⟨h.kind ▸ hKind, h.ofBody_iff.mp hBody⟩
  · rintro (⟨f, hf, hKind, hBody⟩ | ⟨hKind, hBody⟩)
    · exact ⟨f, h.mem.mpr (Or.inl hf), hKind, hBody⟩
    · exact ⟨stored, h.mem.mpr (Or.inr rfl), h.kind.trans hKind, h.ofBody_iff.mpr hBody⟩

theorem Appended.isWake_iff (h : Appended w fact w' stored) :
    IsWake strand gen stored ↔ IsWake strand gen fact :=
  ⟨fun hWake => ⟨h.ident ▸ hWake.ident, h.kind ▸ hWake.kind, h.ofBody_iff.mp hWake.body⟩,
    fun hWake => ⟨h.ident ▸ hWake.ident, h.kind ▸ hWake.kind, h.ofBody_iff.mpr hWake.body⟩⟩

theorem Appended.woken_iff (h : Appended w fact w' stored) :
    Woken w'.folder.own strand gen ↔ Woken w.folder.own strand gen ∨ IsWake strand gen fact := by
  constructor
  · rintro ⟨f, hf, hWake⟩
    rcases h.mem.mp hf with hf | rfl
    · exact .inl ⟨f, hf, hWake⟩
    · exact .inr (h.isWake_iff.mp hWake)
  · rintro (⟨f, hf, hWake⟩ | hWake)
    · exact ⟨f, h.mem.mpr (Or.inl hf), hWake⟩
    · exact ⟨stored, h.mem.mpr (Or.inr rfl), h.isWake_iff.mpr hWake⟩

end Appended

section Marks

variable {float : String → ℚ} {own : List Fact} {strand : String} {gen : Int}

variable {found : List Mark}

/-- The marks of a folder with one more fact. -/
theorem marks_snoc {fact : Fact} (h : marks float (own ++ [fact]) strand gen = .ok found) :
    ∃ before, marks float own strand gen = .ok before ∧
      (¬ ofBody strand gen fact ∧ found = before ∨
        ofBody strand gen fact ∧ ∃ mark, markOf float fact = .ok mark ∧ found = before ++ [mark]) := by
  unfold marks at h ⊢
  rw [List.filter_append, List.mapM_append] at h
  obtain ⟨before, hBefore, h⟩ := Fallible.peel h
  refine ⟨before, hBefore, ?_⟩
  by_cases hBody : ofBody strand gen fact
  · rw [List.filter_cons_of_pos hBody] at h
    cases hMark : markOf float fact with
    | error =>
        simp only [List.filter_nil, List.mapM_cons, hMark] at h
        cases h
    | ok mark =>
        simp only [List.filter_nil, List.mapM_cons, List.mapM_nil, hMark] at h
        exact .inr ⟨hBody, mark, rfl, (Except.ok.inj h).symm⟩
  · rw [List.filter_cons_of_neg hBody] at h
    refine Or.inl ⟨hBody, ?_⟩
    have hEq : before ++ [] = found := Except.ok.inj h
    rw [← hEq, List.append_nil]

variable {m mark : Mark}

/-- The marks of a kind are the facts of it. -/
theorem mem_marks {kind : String} (hKind : ∀ f m, markOf float f = .ok m → (m = mark ↔ f.kind = kind))
    (h : marks float own strand gen = .ok found) : mark ∈ found ↔ Has own kind strand gen := by
  induction own using List.reverseRecOn generalizing found with
  | nil =>
      obtain rfl := Except.ok.inj h
      simp [Has]
  | append_singleton own fact ih =>
      obtain ⟨before, hBefore, ⟨hBody, rfl⟩ | ⟨hBody, m, hMark, rfl⟩⟩ := marks_snoc h
      · rw [ih hBefore]
        simp [Has, or_and_right, exists_or, hBody]
      · rw [List.mem_append, ih hBefore, List.mem_singleton, eq_comm, hKind fact m hMark]
        simp [Has, or_and_right, exists_or, hBody]

/-- What a mark says of its fact's kind. -/
def Mark.kind : Mark → Option String
  | .lease => some "lease"
  | .pending => some "body.pending"
  | .parked _ => some "body.parked"
  | .shown => some "shown"
  | .leaving _ => some "body.leaving"
  | .stopped => some "body.stopped"
  | .unidentified => some "body.unidentified"
  | .exited => some "body.exited"
  | .ended => some "attempt.ended"
  | .released => some "released"
  | .running | .other => none

theorem markOf_kind {f : Fact} (h : markOf float f = .ok m) {kind : String} (hKind : m.kind = some kind) : f.kind = kind := by
  have hMap : ∀ {x : Except Raised ℚ} {g : ℚ → Mark}, x.map g = .ok m → ∃ t, g t = m := by
    intro x g hx
    cases x with
    | error => cases hx
    | ok t => exact ⟨t, Except.ok.inj hx⟩
  unfold markOf at h
  split at h
  case h_3 hf | h_7 hf =>
    obtain ⟨t, rfl⟩ := hMap h
    exact hf.trans (Option.some.inj hKind)
  all_goals
    obtain rfl := Except.ok.inj h
    first
      | exact Eq.trans ‹f.kind = _› (Option.some.inj hKind)
      | cases hKind

/-- The three marks that only their own kind leaves. -/
theorem markOf_iff {f : Fact} (h : markOf float f = .ok m) :
    (m = .exited ↔ f.kind = "body.exited") ∧ (m = .ended ↔ f.kind = "attempt.ended") ∧
      (m = .released ↔ f.kind = "released") := by
  refine ⟨⟨fun hm => ?_, fun hKind => ?_⟩, ⟨fun hm => ?_, fun hKind => ?_⟩, ⟨fun hm => ?_, fun hKind => ?_⟩⟩
  · exact markOf_kind h (by rw [hm]; rfl)
  · simp only [markOf, hKind] at h
    exact (Except.ok.inj h).symm
  · exact markOf_kind h (by rw [hm]; rfl)
  · simp only [markOf, hKind] at h
    exact (Except.ok.inj h).symm
  · exact markOf_kind h (by rw [hm]; rfl)
  · simp only [markOf, hKind] at h
    exact (Except.ok.inj h).symm

theorem foldl_released {alive : Bool} (landed : List Mark) (s : Folding) :
    (landed.foldl (Folding.read alive) s).state.released = (s.state.released || decide (.released ∈ landed)) := by
  induction landed generalizing s with
  | nil => simp
  | cons mark landed ih =>
      have hRead : (s.read alive mark).state.released = (s.state.released || decide (mark = .released)) := by
        cases mark <;> simp [Folding.read, Folding.setName, apply_ite Folding.state, apply_ite State.released]
      rw [List.foldl_cons, ih, hRead, Bool.or_assoc, ← Bool.decide_or]
      simp only [List.mem_cons, eq_comm]

/-- The flags of the fold are facts of the generation. -/
theorem folded_has (h : marks float own strand gen = .ok found) (alive : Bool) :
    ((folded alive found).exited = true ↔ Has own "body.exited" strand gen) ∧
      ((folded alive found).ended = true ↔ Has own "attempt.ended" strand gen) ∧
      ((folded alive found).state.released = true ↔ Has own "released" strand gen) := by
  rw [folded, foldl_exited, foldl_ended, foldl_released, ← mem_marks (fun f m hm => (markOf_iff hm).1) h,
    ← mem_marks (fun f m hm => (markOf_iff hm).2.1) h, ← mem_marks (fun f m hm => (markOf_iff hm).2.2) h]
  simp [Folding.start]

/-- Only parking makes a body that has started wait again. -/
theorem read_not_startable {alive : Bool} {s : Folding}
    (h : mark = .shown ∨ s.state.name ∉ startable ∧ ∀ time, mark ≠ .parked time) :
    (s.read alive mark).state.name ∉ startable := by
  cases mark with
  | shown =>
      simp only [Folding.read]
      split
      · simp [Folding.setName, startable]
      · next hName => exact hName
  | parked time => exact absurd rfl ((h.resolve_left (by simp)).2 time)
  | lease =>
      simp only [Folding.read]
      split
      · simp [Folding.setName, startable]
      · exact (h.resolve_left (by simp)).1
  | running | leaving | unidentified => simp [Folding.read, Folding.setName, startable]
  | pending | stopped | exited | ended | released | other => exact (h.resolve_left (by simp)).1

end Marks

/-- The kinds of which a generation has at most one fact. -/
def onceOnly : List String :=
  ["body.started", "body.exited", "attempt.ended", "released"]

/-- The facts of a kind about a generation. -/
def countOf (facts : List Fact) (kind strand : String) (gen : Int) : Nat :=
  facts.countP fun f => f.kind = kind && ofBody strand gen f

/-- The bodies started for a generation. -/
def startsOf (spawned : List Spawn) (strand : String) (gen : Int) : Nat :=
  spawned.countP fun s => s.strand = strand && s.gen = gen

/-- What every world of a run satisfies. -/
structure World.Inv (float : String → ℚ) (w : World) : Prop where
  inStep : w.folder.InStep
  /-- A body whose wake is on record does not wait to start. -/
  awake : ∀ strand gen, Woken w.folder.own strand gen → ∀ alive found,
    marks float w.folder.own strand gen = .ok found → (folded alive found).state.name ∉ startable
  started : ∀ strand gen, Has w.folder.own "body.started" strand gen → Woken w.folder.own strand gen
  spawned : ∀ s ∈ w.spawned, ∃ f ∈ w.folder.own.take s.written, Carries s.strand s.gen s.letters f
  spawnedOnce : ∀ strand gen, startsOf w.spawned strand gen ≤ 1
  once : ∀ kind ∈ onceOnly, ∀ strand gen, countOf w.folder.own kind strand gen ≤ 1
  closed : ∀ before f after, w.folder.own = before ++ f :: after → f.kind = "released" →
    ∀ strand gen, ofBody strand gen f → Has before "attempt.ended" strand gen ∧ Has before "port.drained" strand gen

/-- What must hold of a world before a fact is appended. -/
structure World.Accepts (w : World) (fact : Fact) : Prop where
  parked : fact.kind = "body.parked" → ∀ strand gen, ofBody strand gen fact → ¬ Woken w.folder.own strand gen
  started : fact.kind = "body.started" → ∀ strand gen, ofBody strand gen fact → Woken w.folder.own strand gen
  once : fact.kind ∈ onceOnly → ∀ strand gen, ofBody strand gen fact → ¬ Has w.folder.own fact.kind strand gen
  released : fact.kind = "released" → ∀ strand gen, ofBody strand gen fact →
    Has w.folder.own "attempt.ended" strand gen ∧ Has w.folder.own "port.drained" strand gen

theorem countOf_eq_zero {facts : List Fact} {kind strand : String} {gen : Int}
    (h : ¬ Has facts kind strand gen) : countOf facts kind strand gen = 0 := by
  rw [countOf, List.countP_eq_zero]
  intro f hf hBoth
  simp only [Bool.and_eq_true, decide_eq_true_eq] at hBoth
  exact h ⟨f, hf, hBoth⟩

section Inv

variable {float : String → ℚ} {w w' : World} {fact stored : Fact}

theorem World.Inv.awake_snoc (hInv : w.Inv float) (h : Appended w fact w' stored)
    (hParked : fact.kind = "body.parked" → ∀ strand gen, ofBody strand gen fact → ¬ Woken w.folder.own strand gen)
    (hOwn : w'.folder.own = w.folder.own ++ [stored]) {strand : String} {gen : Int}
    (hWoken : Woken w'.folder.own strand gen) {alive : Bool} {found : List Mark}
    (hFound : marks float w'.folder.own strand gen = .ok found) :
    (folded alive found).state.name ∉ startable := by
  rw [hOwn] at hFound
  obtain ⟨before, hBefore, ⟨hBody, rfl⟩ | ⟨hBody, mark, hMark, rfl⟩⟩ := marks_snoc hFound
  · rcases h.woken_iff.mp hWoken with hWoken | hWake
    · exact hInv.awake strand gen hWoken alive _ hBefore
    · exact absurd (h.ofBody_iff.mpr hWake.body) hBody
  · rw [folded_snoc]
    refine read_not_startable ?_
    rcases h.woken_iff.mp hWoken with hWoken | hWake
    · refine Or.inr ⟨hInv.awake strand gen hWoken alive _ hBefore, fun time hTime => ?_⟩
      have hKind : fact.kind = "body.parked" := h.kind ▸ markOf_kind hMark (by rw [hTime]; rfl)
      exact hParked hKind strand gen (h.ofBody_iff.mp hBody) hWoken
    · have hShown : stored.kind = "shown" := h.kind.trans hWake.kind
      simp only [markOf, hShown] at hMark
      exact .inl (Except.ok.inj hMark).symm

/-- A fact that the world accepts leaves everything as it should be. -/
theorem Appended.inv (h : Appended w fact w' stored) (hInStep : w'.folder.InStep) (hInv : w.Inv float)
    (hAccepts : w.Accepts fact) : w'.Inv float := by
  rcases h.own with ⟨hOwn, -⟩ | hOwn
  · obtain ⟨folder, spawned⟩ := w'
    obtain rfl := h.spawned
    simp only at hOwn
    exact ⟨hInStep, by simpa only [hOwn] using hInv.awake, by simpa only [hOwn] using hInv.started,
      by simpa only [hOwn] using hInv.spawned, hInv.spawnedOnce, by simpa only [hOwn] using hInv.once,
      by simpa only [hOwn] using hInv.closed⟩
  · refine ⟨hInStep, fun strand gen hWoken alive found => hInv.awake_snoc h hAccepts.parked hOwn hWoken,
      fun strand gen hHas => ?_, fun s hs => ?_, by rw [h.spawned]; exact hInv.spawnedOnce,
      fun kind hKind strand gen => ?_, fun before f after hSplit hKind strand gen hBody => ?_⟩
    · rcases h.has_iff.mp hHas with hHas | ⟨hKind, hBody⟩
      · exact h.woken_iff.mpr (Or.inl (hInv.started strand gen hHas))
      · exact h.woken_iff.mpr (Or.inl (hAccepts.started hKind strand gen hBody))
    · rw [h.spawned] at hs
      obtain ⟨f, hf, hCarries⟩ := hInv.spawned s hs
      exact ⟨f, by rw [hOwn, List.take_append]; exact List.mem_append_left _ hf, hCarries⟩
    · rw [hOwn, countOf, List.countP_append]
      have hPrior := hInv.once kind hKind strand gen
      by_cases hBoth : stored.kind = kind ∧ ofBody strand gen stored
      · have hNone : countOf w.folder.own kind strand gen = 0 := by
          refine countOf_eq_zero fun hHas => ?_
          have hFact : fact.kind = kind := h.kind.symm.trans hBoth.1
          exact hAccepts.once (hFact ▸ hKind) strand gen (h.ofBody_iff.mp hBoth.2) (hFact ▸ hHas)
        rw [countOf] at hNone
        rw [hNone, Nat.zero_add]
        exact List.countP_le_length
      · have hZero : List.countP (fun f => f.kind = kind && ofBody strand gen f) [stored] = 0 := by
          rw [List.countP_eq_zero]
          intro f hf hTrue
          obtain rfl := List.mem_singleton.mp hf
          exact hBoth (by simpa using hTrue)
        rw [hZero]
        exact hPrior
    · rcases List.eq_nil_or_concat after with rfl | ⟨rest, last, rfl⟩
      · obtain ⟨rfl, hLast⟩ := List.append_inj' (hOwn.symm.trans hSplit) rfl
        obtain rfl := (List.singleton_inj.mp hLast)
        exact hAccepts.released (h.kind ▸ hKind) strand gen (h.ofBody_iff.mp hBody)
      · have hEq : w.folder.own ++ [stored] = (before ++ f :: rest) ++ [last] := by
          rw [← hOwn, hSplit]
          simp
        obtain ⟨hInit, -⟩ := List.append_inj' hEq rfl
        exact hInv.closed before f rest hInit hKind strand gen hBody

end Inv

/-- What a pass knows of its generation between two hands. -/
structure Known where
  asleep : Bool
  unspawned : Bool
  unstarted : Bool
  woken : Bool
  unexited : Bool
  unended : Bool
  ended : Bool
  drained : Bool
  unreleased : Bool

/-- What the state that a decision is made in says. -/
def Known.of (name : Name) : Known :=
  let waits : Bool := name ∈ startable
  { asleep := waits
    unspawned := waits
    unstarted := waits
    woken := false
    unexited := name ≠ .exited && name ≠ .ended
    unended := name ≠ .ended
    ended := name = .ended
    drained := false
    unreleased := true }

/-- What a command needs to be known. -/
def Known.allows (k : Known) : CommandName → Bool
  | .park => k.asleep
  | .spawn => k.woken && k.unspawned
  | .started => k.woken && k.unstarted
  | .exit => k.unexited
  | .end_ | .endSettled | .endFailed | .endReincarnated | .endMoved => k.unended
  | .release => k.ended && k.drained && k.unreleased
  | _ => true

/-- What is known once a command is done. -/
def Known.after (k : Known) : CommandName → Known
  | .prepare => { k with woken := false }
  | .shown => { k with asleep := false, woken := true }
  | .spawn => { k with unspawned := false }
  | .started => { k with unstarted := false }
  | .exit => { k with unexited := false }
  | .end_ | .endSettled | .endFailed | .endReincarnated | .endMoved => { k with unended := false, ended := true }
  | .drained => { k with drained := true }
  | .release => { k with unreleased := false }
  | _ => k

/-- Each command of a list is allowed by what is known when it comes. -/
def Known.safe (k : Known) : List CommandName → Bool
  | [] => true
  | name :: rest => k.allows name && (k.after name).safe rest

/-- Every row's commands are in an order that keeps a generation to one life. -/
theorem table_safe : ∀ row ∈ table, ∀ name ∈ row.states, ∀ pending identified : Bool,
    (Known.of name).safe (row.commands.filter fun command =>
      !(command = .pending && pending || command = .unidentified && !identified)) := by
  decide

/-- What is known holds in a world. -/
structure Known.Holds (k : Known) (w : World) (strand : String) (gen : Int) (letters : List String) : Prop where
  asleep : k.asleep → ¬ Woken w.folder.own strand gen
  unspawned : k.unspawned → startsOf w.spawned strand gen = 0
  unstarted : k.unstarted → ¬ Has w.folder.own "body.started" strand gen
  woken : k.woken → ∃ f ∈ w.folder.own, Carries strand gen letters f
  unexited : k.unexited → ¬ Has w.folder.own "body.exited" strand gen
  unended : k.unended → ¬ Has w.folder.own "attempt.ended" strand gen
  ended : k.ended → Has w.folder.own "attempt.ended" strand gen
  drained : k.drained → Has w.folder.own "port.drained" strand gen
  unreleased : k.unreleased → ¬ Has w.folder.own "released" strand gen

section Decided

variable {float : String → ℚ} {w : World} {o : Observation} {commands : List Command}

theorem World.Inv.released_ended (hInv : w.Inv float) {strand : String} {gen : Int}
    (h : Has w.folder.own "released" strand gen) : Has w.folder.own "attempt.ended" strand gen := by
  obtain ⟨f, hf, hKind, hBody⟩ := h
  obtain ⟨before, after, hSplit⟩ := List.append_of_mem hf
  obtain ⟨⟨e, he, hEnded⟩, -⟩ := hInv.closed before f after hSplit hKind strand gen hBody
  exact ⟨e, hSplit ▸ List.mem_append_left _ he, hEnded⟩

theorem World.Inv.spawned_woken (hInv : w.Inv float) {strand : String} {gen : Int}
    (h : ¬ Woken w.folder.own strand gen) : startsOf w.spawned strand gen = 0 := by
  rw [startsOf, List.countP_eq_zero]
  intro s hs hBoth
  simp only [Bool.and_eq_true, decide_eq_true_eq] at hBoth
  obtain ⟨f, hf, hCarries⟩ := hInv.spawned s hs
  obtain ⟨rfl, rfl⟩ := hBoth
  exact h ⟨f, List.mem_of_mem_take hf, hCarries.1⟩

/-- What the name of the state says of the flags. -/
theorem flags_of_finalName {alive : Bool} {found : List Mark} {name : Name}
    (h : (folded alive found).finalName alive = name) :
    (name ≠ .ended → (folded alive found).ended = false) ∧
      (name ≠ .exited ∧ name ≠ .ended → (folded alive found).exited = false) ∧
      (name = .ended → (folded alive found).ended = true) ∧
      (name ∈ startable → (folded alive found).state.name ∈ startable) := by
  have hOwn := folded_name alive found
  refine ⟨fun hName => ?_, fun hName => ?_, fun hName => ?_, fun hName => ?_⟩
  · rw [Folding.finalName_eq] at h
    split at h
    · exact absurd h.symm hName
    · next hEnded => simpa using hEnded
  · rw [Folding.finalName_eq] at h
    split at h
    · exact absurd h.symm hName.2
    · split at h
      · exact absurd h.symm hName.1
      · next hExited => simpa using hExited
  · subst hName
    by_contra hEnded
    rw [Folding.finalName_eq, if_neg hEnded, Folding.liveName] at h
    split_ifs at h
    exact hOwn (by simp [h])
  · subst h
    have hAlive := alive_of_startable hName
    rwa [Folding.finalName_of_flags (Folding.flags_of_name (not_mem_of_startable hName)),
      if_neg (by simp [hAlive])] at hName

/-- What the state of a decision says holds. -/
theorem World.Inv.known (hInv : w.Inv float) {found : List Mark}
    (hMarks : marks float w.folder.own o.strand o.gen = .ok found)
    (hReleased : (folded o.alive found).finalName o.alive = .ended →
      (folded o.alive found).state.released = false) (letters : List String) :
    (Known.of ((folded o.alive found).finalName o.alive)).Holds w o.strand o.gen letters := by
  obtain ⟨hUnended, hUnexited, hEnded, hWaits⟩ := flags_of_finalName rfl
  obtain ⟨hHasExited, hHasEnded, hHasReleased⟩ := folded_has hMarks o.alive
  have hAsleep : (folded o.alive found).finalName o.alive ∈ startable → ¬ Woken w.folder.own o.strand o.gen :=
    fun hName hWoken => hInv.awake _ _ hWoken o.alive found hMarks (hWaits hName)
  have hNotReleased : ¬ Has w.folder.own "released" o.strand o.gen := by
    intro hHas
    have hFlag := hHasEnded.mpr (hInv.released_ended hHas)
    have hFalse := hReleased (by rw [Folding.finalName_eq, if_pos hFlag])
    rw [hHasReleased.mpr hHas] at hFalse
    cases hFalse
  refine ⟨fun h => hAsleep (by simpa [Known.of] using h),
    fun h => hInv.spawned_woken (hAsleep (by simpa [Known.of] using h)),
    fun h hHas => hAsleep (by simpa [Known.of] using h) (hInv.started _ _ hHas), fun h => by simp [Known.of] at h,
    fun h hHas => ?_, fun h hHas => ?_, fun h => ?_, fun h => by simp [Known.of] at h, fun _ => hNotReleased⟩
  · have hFalse := hUnexited (by simpa [Known.of] using h)
    rw [hHasExited.mpr hHas] at hFalse
    cases hFalse
  · have hFalse := hUnended (by simpa [Known.of] using h)
    rw [hHasEnded.mpr hHas] at hFalse
    cases hFalse
  · exact hHasEnded.mp (hEnded (by simpa [Known.of] using h))

/-- A decision's commands are safe, and what its state says holds. -/
theorem World.Inv.decided_safe (hInv : w.Inv float)
    (h : decided float w.folder.own o = .ok commands) (letters : List String) :
    ∃ k : Known, k.Holds w o.strand o.gen letters ∧ k.safe (commands.map Command.name) := by
  obtain ⟨s, hState, h⟩ := Fallible.peel h
  obtain ⟨row, hRow, hEq⟩ := Fallible.peel h
  obtain rfl := Except.ok.inj hEq
  obtain ⟨found, hMarks, hTable, hFits⟩ := rowFor_eq_ok hRow
  have hResult : s = (folded o.alive found).result o.alive := by
    rw [stateOf, hMarks] at hState
    exact (Except.ok.inj hState).symm
  obtain ⟨hStates, hHolds⟩ := Bool.and_eq_true_iff.mp hFits
  have hNotReleased : ∀ row ∈ table, .ended ∈ row.states → row.observed = .notReleased := by decide
  refine ⟨_, hInv.known hMarks (fun hName => ?_) letters, ?_⟩
  · rw [hNotReleased row hTable (hName ▸ of_decide_eq_true hStates)] at hHolds
    simpa [Observed.holds, Folding.result] using hHolds
  · have hSafe := table_safe row hTable _ (of_decide_eq_true hStates) s.pending s.identified
    have hNames : (row.decided s o).map Command.name = row.commands.filter fun name =>
        !(name = .pending && s.pending || name = .unidentified && !s.identified) := by
      rw [Row.decided, List.map_map]
      exact List.map_id _
    rw [hNames]
    exact hSafe

end Decided

section Hands

variable {floats : Floats} {x : Shared} {o : Observation} {command : Command} {fact : Fact}

/-- A command's fact is of the kind that the table says, about its generation. -/
theorem Command.fact_kind (h : command.fact floats x o = some fact) :
    records command.name = some fact.kind ∧ ofBody o.strand o.gen fact := by
  obtain ⟨name, deadline⟩ := command
  cases name with
  | prepare | spawn | signal | letGo | collect | drain => cases h
  | shown | drained | release | end_ | endSettled | endFailed | endReincarnated | endMoved =>
      obtain rfl := Option.some.inj h
      exact ⟨rfl, ofBody_of_lookup rfl rfl⟩
  | started | pending | park | leaving | stayed | stopped | unidentified | exit =>
      obtain ⟨hBody, hKind⟩ := record_kind rfl (by decide) h
      exact ⟨congrArg some hKind.symm, hBody⟩

theorem Shared.shown_carries (x : Shared) (o : Observation) : Carries o.strand o.gen x.letters (x.shown o) := by
  refine ⟨⟨?_, rfl, ofBody_of_lookup rfl rfl⟩, rfl⟩
  change startsWith ("shown:wake:" ++ bodyId o) "shown:wake:"
  simp [startsWith]

theorem ofBody_unique {strand strand' : String} {gen gen' : Int} (h : ofBody strand gen fact)
    (h' : ofBody strand' gen' fact) : strand = strand' ∧ gen = gen' := by
  simp only [ofBody, Bool.and_eq_true, decide_eq_true_eq] at h h'
  exact ⟨Value.str.inj (h.1.symm.trans h'.1), Value.int.inj (h.2.symm.trans h'.2)⟩

/-- The commands that end an attempt. -/
def endings : List CommandName :=
  [.end_, .endSettled, .endFailed, .endReincarnated, .endMoved]

theorem records_iff (name : CommandName) :
    (records name = some "shown" ↔ name = .shown) ∧ (records name = some "body.parked" ↔ name = .park) ∧
      (records name = some "body.started" ↔ name = .started) ∧ (records name = some "body.exited" ↔ name = .exit) ∧
      (records name = some "attempt.ended" ↔ name ∈ endings) ∧
      (records name = some "port.drained" ↔ name = .drained) ∧
      (records name = some "released" ↔ name = .release) := by
  cases name <;> simp [records, endings]

/-- What a command changes of what is known. -/
theorem Known.after_iff (k : Known) (name : CommandName) :
    ((k.after name).asleep ↔ k.asleep ∧ name ≠ .shown) ∧
      ((k.after name).unspawned ↔ k.unspawned ∧ name ≠ .spawn) ∧
      ((k.after name).unstarted ↔ k.unstarted ∧ name ≠ .started) ∧
      ((k.after name).woken ↔ k.woken ∧ name ≠ .prepare ∨ name = .shown) ∧
      ((k.after name).unexited ↔ k.unexited ∧ name ≠ .exit) ∧
      ((k.after name).unended ↔ k.unended ∧ name ∉ endings) ∧
      ((k.after name).ended ↔ k.ended ∨ name ∈ endings) ∧
      ((k.after name).drained ↔ k.drained ∨ name = .drained) ∧
      ((k.after name).unreleased ↔ k.unreleased ∧ name ≠ .release) := by
  cases name <;> simp [Known.after, endings]

theorem Known.allows_iff (k : Known) (name : CommandName) (h : k.allows name) :
    (name = .park → k.asleep) ∧ (name = .spawn → k.woken ∧ k.unspawned) ∧
      (name = .started → k.woken ∧ k.unstarted) ∧ (name = .exit → k.unexited) ∧ (name ∈ endings → k.unended) ∧
      (name = .release → k.ended ∧ k.drained ∧ k.unreleased) := by
  cases name <;> simp_all [Known.allows, endings]

end Hands

section Steps

variable {floats : Floats} {install : String} {w w' : World} {o : Observation} {letters : List String} {k : Known}

variable {fact stored : Fact}

/-- What is known survives a fact that is none of the body's own. -/
theorem Known.Holds.elsewhere {strand : String} {gen : Int} (hHolds : k.Holds w strand gen letters)
    (h : Appended w fact w' stored) (hKind : fact.kind ∉ ownKinds) (hWake : ¬ isWakeId fact.id) :
    k.Holds w' strand gen letters := by
  have hHas : ∀ kind ∈ ownKinds, Has w'.folder.own kind strand gen → Has w.folder.own kind strand gen := by
    intro kind hMem hHas
    exact (h.has_iff.mp hHas).resolve_right fun hBoth => hKind (hBoth.1 ▸ hMem)
  refine ⟨fun hk hWoken => hHolds.asleep hk ((h.woken_iff.mp hWoken).resolve_right fun hNew => hWake hNew.ident),
    fun hk => h.spawned ▸ hHolds.unspawned hk, fun hk hNew => hHolds.unstarted hk (hHas _ (by decide) hNew),
    fun hk => ?_, fun hk hNew => hHolds.unexited hk (hHas _ (by decide) hNew),
    fun hk hNew => hHolds.unended hk (hHas _ (by decide) hNew), fun hk => h.has_iff.mpr (Or.inl (hHolds.ended hk)),
    fun hk => h.has_iff.mpr (Or.inl (hHolds.drained hk)),
    fun hk hNew => hHolds.unreleased hk (hHas _ (by decide) hNew)⟩
  obtain ⟨f, hf, hCarries⟩ := hHolds.woken hk
  exact ⟨f, h.mem.mpr (Or.inl hf), hCarries⟩

variable {float : String → ℚ}

theorem World.Elsewhere.inv (h : w.Elsewhere install w') (hInv : w.Inv float) :
    w'.Inv float ∧ ∀ k strand gen letters, Known.Holds k w strand gen letters →
      Known.Holds k w' strand gen letters := by
  obtain ⟨fact, hKind, hWake, hAppends⟩ := h
  obtain ⟨hInStep, stored, hAppended⟩ := hAppends.spec hInv.inStep
  have hNot : ∀ kind ∈ ownKinds, fact.kind ≠ kind := fun kind hMem hEq => hKind (hEq ▸ hMem)
  refine ⟨hAppended.inv hInStep hInv ⟨fun h => absurd h (hNot _ (by decide)),
    fun h => absurd h (hNot _ (by decide)), fun h => ?_, fun h => absurd h (hNot _ (by decide))⟩,
    fun k strand gen letters hHolds => hHolds.elsewhere hAppended hKind hWake⟩
  have hOnce : ∀ kind ∈ onceOnly, kind ∈ ownKinds := by decide
  exact absurd (hOnce _ h) hKind

/-- A command's fact is accepted where the command is allowed. -/
theorem Known.Holds.accepts {command : Command} {x : Shared} (hHolds : k.Holds w o.strand o.gen letters)
    (hInv : w.Inv float) (hAllows : k.allows command.name) (hFact : command.fact floats x o = some fact) : w.Accepts fact := by
  obtain ⟨hKind, hBody⟩ := Command.fact_kind hFact
  obtain ⟨hPark, -, hStarted, hExit, hEnd, hRelease⟩ := k.allows_iff _ hAllows
  obtain ⟨-, hParkIff, hStartedIff, hExitIff, hEndIff, -, hReleaseIff⟩ := records_iff command.name
  have hWoken : k.woken → Woken w.folder.own o.strand o.gen := fun hk => by
    obtain ⟨f, hf, hCarries⟩ := hHolds.woken hk
    exact ⟨f, hf, hCarries.1⟩
  refine ⟨fun h strand gen hOf => ?_, fun h strand gen hOf => ?_, fun h strand gen hOf => ?_,
    fun h strand gen hOf => ?_⟩
  all_goals obtain ⟨rfl, rfl⟩ := ofBody_unique hBody hOf
  · exact hHolds.asleep (hPark (hParkIff.mp (hKind.trans (congrArg some h))))
  · exact hWoken (hStarted (hStartedIff.mp (hKind.trans (congrArg some h)))).1
  · simp only [onceOnly, List.mem_cons, List.not_mem_nil, or_false] at h
    rcases h with h | h | h | h
    · rw [h]
      exact hHolds.unstarted (hStarted (hStartedIff.mp (hKind.trans (congrArg some h)))).2
    · rw [h]
      exact hHolds.unexited (hExit (hExitIff.mp (hKind.trans (congrArg some h))))
    · rw [h]
      exact hHolds.unended (hEnd (hEndIff.mp (hKind.trans (congrArg some h))))
    · rw [h]
      exact hHolds.unreleased (hRelease (hReleaseIff.mp (hKind.trans (congrArg some h)))).2.2
  · obtain ⟨hEnded, hDrained, -⟩ := hRelease (hReleaseIff.mp (hKind.trans (congrArg some h)))
    exact ⟨hHolds.ended hEnded, hHolds.drained hDrained⟩

/-- What is known once a command's fact is appended. -/
theorem Known.Holds.recorded {command : Command} {x : Shared} (hHolds : k.Holds w o.strand o.gen letters)
    (hLetters : x.letters = letters) (hFact : command.fact floats x o = some fact) (h : Appended w fact w' stored) :
    (k.after command.name).Holds w' o.strand o.gen letters := by
  obtain ⟨hKind, hBody⟩ := Command.fact_kind hFact
  obtain ⟨hShown, -, hStarted, hExit, hEnd, hDrained, hRelease⟩ := records_iff command.name
  obtain ⟨hA, hB, hC, hD, hE, hF, hG, hH, hI⟩ := k.after_iff command.name
  have hSame : ∀ {kind : String}, fact.kind = kind → records command.name = some kind :=
    fun hEq => hKind.trans (congrArg some hEq)
  refine ⟨fun hk hWoken => ?_, fun hk => h.spawned ▸ hHolds.unspawned (hB.mp hk).1, fun hk hHas => ?_,
    fun hk => ?_, fun hk hHas => ?_, fun hk hHas => ?_, fun hk => ?_, fun hk => ?_, fun hk hHas => ?_⟩
  · rcases h.woken_iff.mp hWoken with hWoken | hWake
    · exact hHolds.asleep (hA.mp hk).1 hWoken
    · exact (hA.mp hk).2 (hShown.mp (hSame hWake.kind))
  · rcases h.has_iff.mp hHas with hHas | ⟨hEq, -⟩
    · exact hHolds.unstarted (hC.mp hk).1 hHas
    · exact (hC.mp hk).2 (hStarted.mp (hSame hEq))
  · rcases hD.mp hk with ⟨hWoken, -⟩ | hName
    · obtain ⟨f, hf, hCarries⟩ := hHolds.woken hWoken
      exact ⟨f, h.mem.mpr (Or.inl hf), hCarries⟩
    · refine ⟨stored, h.mem.mpr (Or.inr rfl), ?_⟩
      have hEq : fact = x.shown o := by
        obtain ⟨name, deadline⟩ := command
        obtain rfl : name = .shown := hName
        exact (Option.some.inj hFact).symm
      obtain ⟨hWake, hIds⟩ := hLetters ▸ Shared.shown_carries x o
      rw [← hEq] at hWake hIds
      exact ⟨h.isWake_iff.mpr hWake, by rw [h.data]; exact hIds⟩
  · rcases h.has_iff.mp hHas with hHas | ⟨hEq, -⟩
    · exact hHolds.unexited (hE.mp hk).1 hHas
    · exact (hE.mp hk).2 (hExit.mp (hSame hEq))
  · rcases h.has_iff.mp hHas with hHas | ⟨hEq, -⟩
    · exact hHolds.unended (hF.mp hk).1 hHas
    · exact (hF.mp hk).2 (hEnd.mp (hSame hEq))
  · refine h.has_iff.mpr ((hG.mp hk).imp hHolds.ended fun hName => ?_)
    exact ⟨Option.some.inj (hKind.symm.trans (hEnd.mpr hName)), hBody⟩
  · refine h.has_iff.mpr ((hH.mp hk).imp hHolds.drained fun hName => ?_)
    exact ⟨Option.some.inj (hKind.symm.trans (hDrained.mpr hName)), hBody⟩
  · rcases h.has_iff.mp hHas with hHas | ⟨hEq, -⟩
    · exact hHolds.unreleased (hI.mp hk).1 hHas
    · exact (hI.mp hk).2 (hRelease.mp (hSame hEq))

/-- A start that is allowed leaves everything as it should be. -/
theorem World.Inv.spawn (hInv : w.Inv float) (hHolds : k.Holds w o.strand o.gen letters) (hWoken : k.woken)
    (hUnspawned : k.unspawned) : (w.spawn o letters).Inv float := by
  refine ⟨hInv.inStep, hInv.awake, hInv.started, fun s hs => ?_, fun strand gen => ?_, hInv.once, hInv.closed⟩
  · rcases List.mem_append.mp hs with hs | hs
    · exact hInv.spawned s hs
    · obtain rfl := List.mem_singleton.mp hs
      obtain ⟨f, hf, hCarries⟩ := hHolds.woken hWoken
      exact ⟨f, by simpa [World.spawn] using hf, hCarries⟩
  · have hPrior := hInv.spawnedOnce strand gen
    have hNone := hHolds.unspawned hUnspawned
    simp only [startsOf, World.spawn, List.countP_append] at hPrior hNone ⊢
    by_cases hBody : o.strand = strand ∧ o.gen = gen
    · obtain ⟨rfl, rfl⟩ := hBody
      rw [hNone, Nat.zero_add]
      exact List.countP_le_length
    · have hZero : List.countP (fun s : Spawn => s.strand = strand && s.gen = gen)
          [⟨o.strand, o.gen, letters, w.folder.own.length⟩] = 0 := by
        rw [List.countP_eq_zero]
        intro s hs hTrue
        obtain rfl := List.mem_singleton.mp hs
        exact hBody (by simpa using hTrue)
      rw [hZero]
      exact hPrior

theorem Known.Holds.spawned (hHolds : k.Holds w o.strand o.gen letters) :
    (k.after .spawn).Holds (w.spawn o letters) o.strand o.gen letters :=
  ⟨hHolds.asleep, nofun, hHolds.unstarted, hHolds.woken, hHolds.unexited, hHolds.unended,
    hHolds.ended, hHolds.drained, hHolds.unreleased⟩

theorem Known.Holds.prepared (hHolds : k.Holds w o.strand o.gen letters) (carried : List String) :
    (k.after .prepare).Holds w o.strand o.gen carried :=
  ⟨hHolds.asleep, hHolds.unspawned, hHolds.unstarted, nofun, hHolds.unexited, hHolds.unended,
    hHolds.ended, hHolds.drained, hHolds.unreleased⟩

/-- A record that is there already says what writing it would have. -/
theorem Known.Holds.skipped {name : CommandName} {kind : String} (hHolds : k.Holds w o.strand o.gen letters)
    (hSkips : skips name = some kind) (hThere : (factFor w.folder.own kind o.strand o.gen).isSome) :
    (k.after name).Holds w o.strand o.gen letters := by
  obtain ⟨f, hf⟩ := Option.isSome_iff_exists.mp hThere
  obtain ⟨hKind, hBody⟩ : f.kind = kind ∧ ofBody o.strand o.gen f := by simpa using List.find?_some hf
  have hHas : Has w.folder.own kind o.strand o.gen :=
    ⟨f, List.mem_reverse.mp (List.mem_of_find?_eq_some hf), hKind, hBody⟩
  cases name with
  | end_ | endSettled | endFailed | endReincarnated | endMoved =>
      obtain rfl := Option.some.inj hSkips
      exact { hHolds with unended := nofun, ended := fun _ => hHas }
  | drained =>
      obtain rfl := Option.some.inj hSkips
      exact { hHolds with drained := fun _ => hHas }
  | prepare | shown | spawn | started | pending | park | leaving | stayed | stopped | unidentified
  | signal | letGo | collect | drain | exit | release => cases hSkips

theorem Known.after_silent {name : CommandName} (h : name ∈ silentHands) : k.after name = k := by
  cases name with
  | signal | letGo | collect | drain => rfl
  | prepare | shown | spawn | started | pending | park | leaving | stayed | stopped | unidentified
  | exit | end_ | endSettled | endFailed | endReincarnated | endMoved | drained | release =>
      exact absurd h (by decide)

/-- A pass over commands that are safe, from a world where what is known holds. -/
theorem Pass.inv {commands : List Command} (h : Pass floats install commands o letters w w')
    (hInv : w.Inv floats.read) (hHolds : k.Holds w o.strand o.gen letters)
    (hSafe : k.safe (commands.map Command.name)) : w'.Inv floats.read := by
  induction h generalizing k with
  | stop => exact hInv
  | elsewhere hOther _ ih =>
      obtain ⟨hNext, hKnown⟩ := hOther.inv hInv
      exact ih hNext (hKnown k _ _ _ hHolds) hSafe
  | prepared carried hName _ ih =>
      obtain ⟨-, hRest⟩ := Bool.and_eq_true_iff.mp hSafe
      rw [hName] at hRest
      exact ih hInv (hHolds.prepared carried) hRest
  | spawned hName _ ih =>
      obtain ⟨hAllows, hRest⟩ := Bool.and_eq_true_iff.mp hSafe
      rw [hName] at hAllows hRest
      obtain ⟨hWoken, hUnspawned⟩ := (k.allows_iff _ hAllows).2.1 rfl
      exact ih (hInv.spawn hHolds hWoken hUnspawned) hHolds.spawned hRest
  | silent hName _ ih =>
      obtain ⟨-, hRest⟩ := Bool.and_eq_true_iff.mp hSafe
      rw [Known.after_silent hName] at hRest
      exact ih hInv hHolds hRest
  | recorded x hLetters hFact hAppend _ ih =>
      obtain ⟨hAllows, hRest⟩ := Bool.and_eq_true_iff.mp hSafe
      obtain ⟨hInStep, stored, hAppended⟩ := hAppend.spec hInv.inStep
      exact ih (hAppended.inv hInStep hInv (hHolds.accepts hInv hAllows hFact))
        (hHolds.recorded hLetters hFact hAppended) hRest
  | skipped hSkips hThere _ ih =>
      obtain ⟨-, hRest⟩ := Bool.and_eq_true_iff.mp hSafe
      exact ih hInv (hHolds.skipped hSkips hThere) hRest
  | again hAgain hDecided _ ih =>
      obtain ⟨k', hHolds', hSafe'⟩ := hInv.decided_safe hDecided _
      exact ih hInv hHolds' hSafe'

theorem Step.inv (h : Step floats install w w') (hInv : w.Inv floats.read) : w'.Inv floats.read := by
  cases h with
  | pass hDecided hPass =>
      obtain ⟨k, hHolds, hSafe⟩ := hInv.decided_safe hDecided []
      exact hPass.inv hInv hHolds hSafe
  | elsewhere hOther => exact (hOther.inv hInv).1

end Steps

theorem World.Inv.start (float : String → ℚ) : World.start.Inv float where
  inStep := ⟨[], [], rfl, rfl, fun _ => rfl, nofun, nofun⟩
  awake := fun _ _ ⟨_, hf, _⟩ => by cases hf
  started := fun _ _ ⟨_, hf, _⟩ => by cases hf
  spawned := fun _ hs => by cases hs
  spawnedOnce := fun _ _ => Nat.zero_le _
  once := fun _ _ _ _ => Nat.zero_le _
  closed := fun before f after hSplit => by
    have hLength := congrArg List.length hSplit
    simp [World.start, Folder.empty] at hLength

theorem Reachable.inv {floats : Floats} {install : String} {w : World} (h : Reachable floats install w) :
    w.Inv floats.read := by
  induction h with
  | refl => exact World.Inv.start floats.read
  | tail _ hStep ih => exact hStep.inv ih

/-- A generation of a strand has one life. In every world that a run reaches, at
most one body was started for it, and at most one `body.started`, `body.exited`,
`attempt.ended` and `released` fact stands in the ledger; `released` stands
behind the generation's `attempt.ended` and `port.drained`; and when its body was
started, the letters that its wake carries were on record. -/
theorem one_life {floats : Floats} {install : String} {w : World} (h : Reachable floats install w)
    (strand : String) (gen : Int) :
    startsOf w.spawned strand gen ≤ 1 ∧
    (∀ kind ∈ onceOnly, countOf w.folder.own kind strand gen ≤ 1) ∧
    (∀ before f after, w.folder.own = before ++ f :: after → f.kind = "released" → ofBody strand gen f →
      Has before "attempt.ended" strand gen ∧ Has before "port.drained" strand gen) ∧
    (∀ s ∈ w.spawned, s.strand = strand → s.gen = gen →
      ∃ f ∈ w.folder.own.take s.written, f.kind = "shown" ∧ ofBody strand gen f ∧
        Dict.get f.data "ids" = .arr (s.letters.map .str)) := by
  have hInv := h.inv
  refine ⟨hInv.spawnedOnce strand gen, fun kind hKind => hInv.once kind hKind strand gen,
    fun before f after hSplit hKind hBody => hInv.closed before f after hSplit hKind strand gen hBody, ?_⟩
  rintro s hs rfl rfl
  obtain ⟨f, hf, hWake, hIds⟩ := hInv.spawned s hs
  exact ⟨f, hf, hWake.kind, hWake.body, hIds⟩

/-- A body that has not started, with fuel in its gauge. -/
def wantedObservation : Observation :=
  ⟨"s-1", 1, false, false, .ok, 100, none, 0, false, 60, "", "", false, false, false, false, false⟩

theorem one_life_spawned : ∃ w, Reachable tallyFloats "aaaa" w ∧ startsOf w.spawned "s-1" 1 = 1 ∧
    ∃ f ∈ w.folder.own.take 1, f.kind = "shown" ∧ ofBody "s-1" 1 f ∧
      Dict.get f.data "ids" = .arr [.str "a-1"] := by
  let x : Shared := { plainShared with letters := ["a-1"] }
  have hOk : (append 1000 "aaaa" Folder.empty (x.shown wantedObservation)).map (fun r => r.1.own.length) = .ok 1 := by
    decide
  cases hAppend : append 1000 "aaaa" Folder.empty (x.shown wantedObservation) with
  | error => simp [hAppend, Except.map] at hOk
  | ok r =>
      have hLength : r.1.own.length = 1 := by simpa [hAppend, Except.map] using hOk
      have hDecided : decided tallyFloats.read [] wantedObservation =
          .ok [⟨.prepare, none⟩, ⟨.shown, none⟩, ⟨.spawn, none⟩, ⟨.started, none⟩] := by decide
      have hPass : Pass tallyFloats "aaaa" [⟨.prepare, none⟩, ⟨.shown, none⟩, ⟨.spawn, none⟩, ⟨.started, none⟩]
          wantedObservation [] World.start ((World.mk r.1 []).spawn wantedObservation ["a-1"]) := by
        have hAppends : World.start.Appends "aaaa" (x.shown wantedObservation) (World.mk r.1 []) :=
          ⟨1000, r.2, hAppend, rfl⟩
        exact .prepared ["a-1"] rfl (.recorded x rfl rfl hAppends (.spawned rfl .stop))
      have hReach : Reachable tallyFloats "aaaa" ((World.mk r.1 []).spawn wantedObservation ["a-1"]) :=
        .single (.pass hDecided hPass)
      obtain ⟨hOnce, -, -, hShown⟩ := one_life hReach "s-1" 1
      refine ⟨_, hReach, rfl, ?_⟩
      have hWake := hShown ⟨"s-1", 1, ["a-1"], r.1.own.length⟩ (List.mem_singleton.mpr rfl) rfl rfl
      rw [hLength] at hWake
      exact hWake

end Brnrd.Bodies
