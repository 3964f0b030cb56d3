import Brnrd.Bodies.Table

/-! What one tick observes of a body, and that the table has a row for every
observation it can make of a generation that is not released. -/
namespace Brnrd.Bodies

open Facts Project

/-- What the process table and the room's lock say about a pid. -/
structure Processes where
  lstart : Int → Option String
  command : Int → Option String
  holdsBodyFile : Int → Bool

/-- `needle in text`. -/
def contains (text needle : String) : Bool :=
  text.toList.tails.any fun rest => needle.toList.isPrefixOf rest

/-- `_proven_body(room, pid, lstart, proc, alive=alive)`; `child` is the pid of
an unreaped child, and `rooms` are the two spellings of the room's path. -/
def provenBody (host : Processes) (rooms : List String) (pid : Int) (lstart : String) (child : Option Int)
    (alive : Bool) : Bool :=
  if pid ≤ 1 || !alive then false
  else if child = some pid then true
  else if lstart = "" then host.holdsBodyFile pid
  else if host.lstart pid ≠ some lstart then false
  else
    let command := (host.command pid).getD ""
    if command ≠ "" && rooms.any (contains command) then true else host.holdsBodyFile pid

/-- What a tick reads besides the facts of the generation. `named` are the
bodies that the person's letters on the thread name, and `windows` what is left
in each window of the gauge, `none` while it refreshes. -/
structure Sight where
  now : ℚ
  install : String
  alive : Bool
  closed : Bool
  pin : Option String
  leaseLost : Bool
  handedAway : Bool
  leased : String × String
  heldDry : Bool
  named : List (Option (String × String))
  wakeChoice : Option (String × String)
  windows : Option (List ℚ)
  holdFloor : ℚ
  dryUntil : ℚ
  stopGrace : ℚ
  mainThread : Bool
  pressed : Bool
  workerLive : Bool
  pid : Int
  lstart : String
  child : Option Int
  rooms : List String
  processes : Processes

section Observe

variable (sight : Sight) (s : State) (force : Bool)

/-- `away`: the thread is pinned to another install. -/
def Sight.away : Bool :=
  sight.pin ≠ none && sight.pin ≠ some sight.install

def Sight.handed : Bool :=
  sight.handedAway && sight.pin = none

def Sight.fenced : Bool :=
  (sight.leaseLost || sight.handed) && sight.pin = none

/-- A live body asleep in its own stop hook. -/
def Sight.held : Bool :=
  s.name = .running && sight.alive && !sight.fenced && sight.heldDry

/-- A person's wake of the body that is already leased forces the start. -/
def Sight.forced : Bool :=
  force || ((s.name = .parked || sight.held s) && !sight.held s && sight.named.contains (some sight.leased))

/-- `gauge["windows"]`, `none` for a gauge that refreshes. -/
def Sight.gauge : Option (List ℚ) :=
  if sight.forced s force then some [] else sight.windows

def Sight.reading : Gauge :=
  match sight.gauge s force with
  | none => .refreshing
  | some windows => if windows.any (· ≤ sight.holdFloor) then .empty
      else if windows = [] then .unknown
      else .ok

def Sight.woken : String :=
  if s.name = .parked || sight.held s || (s.name = .running && !sight.alive) then
    match sight.wakeChoice with
    | some (shell, core) => shell ++ "/" ++ core
    | none => ""
  else ""

/-- A stop on record with the body still alive is proved again every tick. -/
def Sight.proven : Option Bool :=
  if sight.alive && (s.name = .stopping || ((sight.closed || sight.fenced || sight.away) &&
      s.name = .leaving && s.deadline ≤ sight.now)) then
    some (provenBody sight.processes sight.rooms sight.pid sight.lstart sight.child sight.alive)
  else none

/-- The memory floor holds only a start, and never the inbox's or a first worker's. -/
def Sight.squeezed : Bool :=
  !(sight.alive || sight.mainThread) && sight.pressed && sight.workerLive

/-- The observation that a tick builds over the state of the generation. -/
def Sight.observation (strand : String) (gen : Int) : Observation where
  strand := strand
  gen := gen
  alive := sight.alive
  closed := sight.closed
  gauge := sight.reading s force
  now := sight.now
  proven := sight.proven s
  until_ := if sight.reading s force = .empty then sight.dryUntil else 0
  force := sight.forced s force
  stopGrace := sight.stopGrace
  failure := ""
  woken := sight.woken s
  fenced := sight.fenced
  held := sight.held s
  away := sight.away
  handed := sight.handed
  pressed := sight.squeezed

end Observe

/-- The observation of `_observe_body`. -/
def observeBody (float : String → ℚ) (facts : List Fact) (strand : String) (gen : Int) (sight : Sight)
    (force : Bool) : Except Raised Observation := do
  let s ← stateOf float facts strand gen sight.alive
  .ok (sight.observation s force strand gen)

/-- The times of the generation's facts are there: the registry requires the
fields, and the loop writes numbers. -/
def Timed (float : String → ℚ) (strand : String) (gen : Int) (facts : List Fact) : Prop :=
  ∀ fact ∈ facts, ofBody strand gen fact →
    (fact.kind = "body.parked" → ∃ value n, fact.data.lookup "until" = some value ∧ number float value = some n) ∧
    (fact.kind = "body.leaving" → ∃ value n, fact.data.lookup "deadline" = some value ∧ number float value = some n)

theorem seconds_eq_ok {float : String → ℚ} {fact : Fact} {key : String}
    (h : ∃ value n, fact.data.lookup key = some value ∧ number float value = some n) :
    ∃ n, seconds float fact key = .ok n := by
  obtain ⟨value, n, hValue, hNumber⟩ := h
  exact ⟨n, by simp [seconds, item, hValue, hNumber, bind, Except.bind]⟩

/-- The state of a generation whose times are there can be told. -/
theorem Timed.marks {float : String → ℚ} {facts : List Fact} {strand : String} {gen : Int}
    (h : Timed float strand gen facts) : ∃ found, marks float facts strand gen = .ok found := by
  have hMark : ∀ fact ∈ facts, ofBody strand gen fact → ∃ mark, markOf float fact = .ok mark := by
    intro fact hFact hBody
    obtain ⟨hParked, hLeaving⟩ := h fact hFact hBody
    unfold markOf
    split
    case h_3 hKind =>
      obtain ⟨n, hn⟩ := seconds_eq_ok (hParked hKind)
      exact ⟨.parked n, by rw [hn]; rfl⟩
    case h_7 hKind =>
      obtain ⟨n, hn⟩ := seconds_eq_ok (hLeaving hKind)
      exact ⟨.leaving n, by rw [hn]; rfl⟩
    all_goals exact ⟨_, rfl⟩
  unfold Bodies.marks
  have hRows : ∀ fact ∈ facts.filter (ofBody strand gen), ∃ mark, markOf float fact = .ok mark :=
    fun fact hFact => hMark fact (List.mem_of_mem_filter hFact) (List.mem_filter.mp hFact).2
  generalize facts.filter (ofBody strand gen) = rows at hRows
  induction rows with
  | nil => exact ⟨[], rfl⟩
  | cons fact rows ih =>
      obtain ⟨mark, hFirst⟩ := hRows fact List.mem_cons_self
      obtain ⟨found, hRest⟩ := ih fun f hf => hRows f (List.mem_cons_of_mem _ hf)
      exact ⟨mark :: found, by rw [List.mapM_cons, hFirst]; simp only [hRest]; rfl⟩

/-- Some row fits the state and the observation. -/
def Covered (s : State) (o : Observation) : Prop :=
  ∃ row ∈ table, row.fits s o

theorem covered_of {s : State} {o : Observation} (row : Row) (hRow : row ∈ table)
    (hName : s.name ∈ row.states) (hHolds : row.observed.holds s o) : Covered s o :=
  ⟨row, hRow, by simp [Row.fits, hName, hHolds]⟩

section Covered

variable {s : State} {o : Observation}

/-- A body that has not started: every reading of the gauge has its row. -/
theorem covered_startable (h : s.name ∈ startable) : Covered s o := by
  cases hGauge : o.gauge with
  | refreshing =>
      have hName : s.name = .wanted ∨ s.name = .parked := by simpa [startable] using h
      rcases hName with hName | hName
      · exact covered_of ⟨[.wanted], .gaugeRefreshing, .wanted, [.pending]⟩ (by simp [table])
          (by simp [hName]) (by simp [Observed.holds, hGauge])
      · exact covered_of ⟨[.parked], .gaugeRefreshing, .parked, []⟩ (by simp [table])
          (by simp [hName]) (by simp [Observed.holds, hGauge])
  | empty =>
      exact covered_of ⟨startable, .gaugeEmpty, .parked, [.park]⟩ (by simp [table]) h
        (by simp [Observed.holds, hGauge])
  | ok | unknown =>
      exact covered_of ⟨startable, .gaugeNotEmpty, .running, [.prepare, .shown, .spawn, .started]⟩
        (by simp [table]) h (by simp [Observed.holds, hGauge])

theorem covered_not_alive (h : s.name ∈ live) (hAlive : o.alive = false) : Covered s o :=
  covered_of ⟨live, .notAlive, .ended, finish⟩ (by simp [table]) h (by simp [Observed.holds, hAlive])

theorem covered_running (h : s.name = .running) (hAlive : o.alive = true) : Covered s o := by
  cases hClosed : o.closed || o.away || o.handed with
  | true =>
      exact covered_of ⟨[.running], .aliveClosed, .leaving, [.leaving]⟩ (by simp [table]) (by simp [h])
        (by rw [Observed.holds, hClosed, hAlive]; rfl)
  | false =>
      exact covered_of ⟨[.running], .aliveOpen, .running, []⟩ (by simp [table]) (by simp [h])
        (by rw [Observed.holds, hClosed, hAlive]; rfl)

/-- A leaving body that is due has been proved, or has failed to be. -/
theorem covered_leaving (h : s.name = .leaving) (hAlive : o.alive = true)
    (hProven : (o.closed || o.away || o.handed) = true → s.deadline ≤ o.now → ∃ b, o.proven = some b) :
    Covered s o := by
  cases hClosed : o.closed || o.away || o.handed with
  | false =>
      exact covered_of ⟨[.leaving, .unidentified], .aliveReopened, .running, [.stayed]⟩ (by simp [table])
        (by simp [h]) (by rw [Observed.holds, hClosed, hAlive]; rfl)
  | true =>
      rcases lt_or_ge o.now s.deadline with hBefore | hDue
      · exact covered_of ⟨[.leaving], .aliveBeforeDeadline, .leaving, []⟩ (by simp [table]) (by simp [h])
          (by simp [Observed.holds, hAlive, hBefore])
      · obtain ⟨b, hb⟩ := hProven hClosed hDue
        cases b with
        | true =>
            exact covered_of ⟨[.leaving], .aliveDueProven, .stopping, [.stopped, .signal]⟩ (by simp [table])
              (by simp [h]) (by simp [Observed.holds, hAlive, hDue, hb])
        | false =>
            exact covered_of ⟨[.leaving], .aliveDueUnproven, .unidentified, [.unidentified]⟩
              (by simp [table]) (by simp [h]) (by simp [Observed.holds, hAlive, hDue, hb])

theorem covered_stopping (h : s.name = .stopping) (hAlive : o.alive = true) : Covered s o := by
  by_cases hProven : o.proven = some true
  · exact covered_of ⟨[.stopping], .aliveProven, .stopping, [.signal]⟩ (by simp [table]) (by simp [h])
      (by simp [Observed.holds, hAlive, hProven])
  · exact covered_of ⟨[.stopping], .aliveNotProven, .stopping, []⟩ (by simp [table]) (by simp [h])
      (by simp [Observed.holds, hAlive, hProven])

theorem covered_unidentified (h : s.name = .unidentified) (hAlive : o.alive = true) : Covered s o := by
  cases hClosed : o.closed || o.away || o.handed with
  | false =>
      exact covered_of ⟨[.leaving, .unidentified], .aliveReopened, .running, [.stayed]⟩ (by simp [table])
        (by simp [h]) (by rw [Observed.holds, hClosed, hAlive]; rfl)
  | true =>
      exact covered_of ⟨[.unidentified], .aliveClosed, .unidentified, []⟩ (by simp [table]) (by simp [h])
        (by rw [Observed.holds, hClosed, hAlive]; rfl)

end Covered

theorem Sight.fenced_of_handed (sight : Sight) (h : sight.handed = true) : sight.fenced = true := by
  obtain ⟨-, hPin⟩ : sight.handedAway = true ∧ sight.pin = none := by simpa [Sight.handed] using h
  simp [Sight.fenced, h, hPin]

/-- What the observer promises of `proven` is all that the table needs. -/
theorem covered_observation (sight : Sight) (s : State) (force : Bool) (strand : String) (gen : Int)
    (hReleased : s.released = false) : Covered s (sight.observation s force strand gen) := by
  have hProven : sight.alive = true → s.name = .leaving →
      (sight.closed || sight.away || sight.handed) = true → s.deadline ≤ sight.now →
      ∃ b, sight.proven s = some b := by
    intro hAlive hName hClosed hDue
    have hFenced : (sight.closed || sight.fenced || sight.away) = true := by
      simp only [Bool.or_eq_true] at hClosed ⊢
      rcases hClosed with (hClosed | hAway) | hHanded
      · exact .inl (Or.inl hClosed)
      · exact .inr hAway
      · exact .inl (Or.inr (sight.fenced_of_handed hHanded))
    exact ⟨_, by rw [Sight.proven, if_pos (by simp only [hAlive, hName, hFenced, hDue]; decide)]⟩
  cases hName : s.name with
  | wanted | parked => exact covered_startable (by rw [hName]; decide)
  | exited => exact covered_of ⟨[.exited], .any, .ended, end_⟩ (by simp [table]) (by simp [hName]) rfl
  | ended =>
      exact covered_of ⟨[.ended], .notReleased, .ended, cleanup⟩ (by simp [table]) (by simp [hName])
        (by simp [Observed.holds, hReleased])
  | running | leaving | stopping | unidentified =>
      cases hAlive : sight.alive with
      | false => exact covered_not_alive (by rw [hName]; decide) hAlive
      | true =>
          first
            | exact covered_running hName hAlive
            | exact covered_leaving hName hAlive (hProven hAlive hName)
            | exact covered_stopping hName hAlive
            | exact covered_unidentified hName hAlive

/-- The table is total over what a tick can observe: nothing raises, and unless
the generation is released some row is found. -/
theorem row_for_total {float : String → ℚ} {facts : List Fact} {strand : String} {gen : Int}
    (hTimed : Timed float strand gen facts) (sight : Sight) (force : Bool) :
    ∃ s o, stateOf float facts strand gen sight.alive = .ok s ∧
      observeBody float facts strand gen sight force = .ok o ∧
      (s.released = false → ∃ row, rowFor float facts o = .ok row) := by
  obtain ⟨found, hMarks⟩ := hTimed.marks
  have hState : stateOf float facts strand gen sight.alive = .ok ((folded sight.alive found).result sight.alive) := by
    rw [stateOf, hMarks]
    rfl
  refine ⟨_, _, hState, by rw [observeBody, hState]; rfl, fun hReleased => ?_⟩
  obtain ⟨row, hRow, hFits⟩ := covered_observation sight _ force strand gen hReleased
  obtain ⟨found, hFound⟩ := Option.isSome_iff_exists.mp (List.find?_isSome.mpr ⟨row, hRow, hFits⟩)
  refine ⟨found, ?_⟩
  change (stateOf float facts strand gen sight.alive >>= _) = _
  rw [hState]
  simp only [bind, Except.bind, hFound]

/-- A live body of a closed thread, whose pid is no longer the one that started. -/
def closedSight : Sight where
  now := 100
  install := "aaaa"
  alive := true
  closed := true
  pin := none
  leaseLost := false
  handedAway := false
  leased := ("claude", "opus")
  heldDry := false
  named := []
  wakeChoice := none
  windows := some [50]
  holdFloor := 2
  dryUntil := 0
  stopGrace := 60
  mainThread := false
  pressed := false
  workerLive := false
  pid := 7
  lstart := "Mon"
  child := none
  rooms := ["/rooms/s-1"]
  processes := ⟨fun _ => some "Tue", fun _ => none, fun _ => false⟩

theorem row_for_total_leaving : ∃ o row,
    observeBody (fun _ => 0) [bodyRow "body.leaving" [("deadline", .int 60)]] "s-1" 1 closedSight false = .ok o ∧
      rowFor (fun _ => 0) [bodyRow "body.leaving" [("deadline", .int 60)]] o = .ok row := by
  have hTimed : Timed (fun _ => 0) "s-1" 1 [bodyRow "body.leaving" [("deadline", .int 60)]] := by
    intro fact hFact _
    obtain rfl := List.mem_singleton.mp hFact
    exact ⟨fun hKind => absurd hKind (by decide), fun _ => ⟨.int 60, 60, rfl, rfl⟩⟩
  obtain ⟨s, o, hState, hObserve, hRow⟩ := row_for_total hTimed closedSight false
  have hReleased : (stateOf (fun _ => 0) [bodyRow "body.leaving" [("deadline", .int 60)]] "s-1" 1 true).map
      State.released = .ok false := by decide
  have hFalse : s.released = false := by
    change stateOf _ _ _ _ true = _ at hState
    simpa [hState, Except.map] using hReleased
  obtain ⟨row, hFound⟩ := hRow hFalse
  exact ⟨o, row, hObserve, hFound⟩

end Brnrd.Bodies
