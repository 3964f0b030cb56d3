import Brnrd.Schedule.Firing

/-! Whole runs of the scheduler from an empty state: what is returned as due in them,
and in which of them every entry keeps to its trigger. -/
namespace Brnrd.Schedule

open Python
open Events (Text)

/-- What one tick finds. -/
structure Tick where
  text : Text
  signals : Signals
  now : ℚ
  staleGrace : ℚ

variable (calls : Calls)

def Tick.entries (tick : Tick) : List ScheduleEntry :=
  parseScheduleText calls tick.text

def Tick.reset (state : State) (tick : Tick) : State :=
  applyResetSignals (tick.entries calls) state tick.signals tick.now

def Tick.due (state : State) (tick : Tick) : List ScheduleEntry :=
  (dueEntries (tick.entries calls) (tick.reset calls state) tick.now tick.staleGrace).1

def Tick.next (state : State) (tick : Tick) : State :=
  (dueEntries (tick.entries calls) (tick.reset calls state) tick.now tick.staleGrace).2

/-- The state some ticks leave. -/
def stateAfter (ticks : List Tick) : State :=
  ticks.foldl (Tick.next calls) []

/-- How often an entry is returned by the ticks from a state on. -/
def timesDue (entry : ScheduleEntry) : State → List Tick → ℕ
  | _, [] => 0
  | state, tick :: rest => (tick.due calls state).count entry + timesDue entry (tick.next calls state) rest

/-- What counts for the recurring entries of an id in a tick: a firing under it, or a
signal that they are reset by. -/
def Moment (before : List Tick) (tick : Tick) (id : Text) (time : ℚ) : Prop :=
  (∃ due ∈ tick.due calls (stateAfter calls before), due.id = id ∧ time = tick.now) ∨
    ∃ entry ∈ tick.entries calls, entry.id = id ∧ entry.kind = .every ∧
      candidateTs tick.signals tick.now entry = some time

/-- Whether a moment of an id is one of some ticks. -/
def Past (before : List Tick) (id : Text) (time : ℚ) : Prop :=
  ∃ first earlier later, before = first ++ earlier :: later ∧ Moment calls first earlier id time

/-- Every entry of a run keeps to its trigger, and no reset moves a record back. -/
structure Lawful (ticks : List Tick) : Prop where
  once : ∀ shot, shot.kind = .atTime → (∀ tick ∈ ticks, shot ∈ tick.entries calls) → timesDue calls shot [] ticks ≤ 1
  punctual : ∀ before tick after, ticks = before ++ tick :: after → ∀ due ∈ tick.due calls (stateAfter calls before),
    due.kind = .atTime → ∃ time, due.atTime = some time ∧ time ≤ tick.now ∧ tick.now ≤ time + tick.staleGrace
  anchored : ∀ before tick after, ticks = before ++ tick :: after → ∀ due ∈ tick.due calls (stateAfter calls before),
    due.kind = .every → ∃ earlier ∈ before, ∃ entry ∈ earlier.entries calls,
      entry.kind = .every ∧ entry.heading = due.heading
  spaced : ∀ before tick after, ticks = before ++ tick :: after → ∀ due ∈ tick.due calls (stateAfter calls before),
    due.kind = .every → ∀ time, Past calls before due.id time ∨ candidateTs tick.signals tick.now due = some time →
      ∃ interval, due.interval = some interval ∧ time + interval ≤ tick.now
  forward : ∀ before tick after, ticks = before ++ tick :: after → ∀ id last,
    lastFired id (stateAfter calls before) = some last →
      ∃ next, lastFired id (tick.reset calls (stateAfter calls before)) = some next ∧ last ≤ next

/-- No tick loses a mark, takes a record for that of a new heading or makes one out of
a signal. -/
structure Apart (before : List Tick) (tick : Tick) : Prop where
  marks : ∀ entry ∈ tick.entries calls, entry.kind = .every →
    (∃ shot ∈ tick.entries calls, shot.kind = .atTime ∧ shot.id = entry.id) →
      overwrites tick.signals tick.now (stateAfter calls before) entry = false
  fresh : ∀ entry ∈ tick.entries calls, entry.kind = .every →
    (∀ earlier ∈ before, ∀ other ∈ earlier.entries calls, other.kind = .every → other.heading ≠ entry.heading) →
      Entries.get entry.id (stateAfter calls before) = none
  seen : ∀ entry ∈ tick.entries calls, entry.kind = .every → (candidateTs tick.signals tick.now entry).isSome →
    (Entries.get entry.id (stateAfter calls before)).isSome

variable {calls}

theorem stateAfter_concat (before : List Tick) (tick : Tick) :
    stateAfter calls (before ++ [tick]) = tick.next calls (stateAfter calls before) := by
  rw [stateAfter, List.foldl_append, List.foldl_cons, List.foldl_nil, stateAfter]

theorem Tick.entries_wellFormed (tick : Tick) : ∀ entry ∈ tick.entries calls, entry.WellFormed :=
  parseScheduleText_wellFormed tick.text

variable {id : Text} {tick : Tick} {ticks before : List Tick}

theorem past_concat {time : ℚ} :
    Past calls (before ++ [tick]) id time ↔ Past calls before id time ∨ Moment calls before tick id time := by
  constructor
  · rintro ⟨first, earlier, later, hSplit, hMoment⟩
    rcases List.eq_nil_or_concat later with rfl | ⟨later, last, rfl⟩
    · obtain ⟨rfl, hSame⟩ := List.append_inj' hSplit rfl
      rw [List.cons.injEq] at hSame
      exact .inr (hSame.1 ▸ hMoment)
    · rw [List.concat_eq_append, ← List.cons_append, ← List.append_assoc] at hSplit
      exact .inl ⟨first, earlier, later, (List.append_inj' hSplit rfl).1, hMoment⟩
  · rintro (⟨first, earlier, later, rfl, hMoment⟩ | hMoment)
    · exact ⟨first, earlier, later ++ [tick], by simp, hMoment⟩
    · exact ⟨before, tick, [], rfl, hMoment⟩

theorem moment_le {time : ℚ} (h : Moment calls before tick id time) : time ≤ tick.now := by
  rcases h with ⟨_, _, _, rfl⟩ | ⟨_, _, _, _, hTs⟩
  · exact le_refl _
  · exact candidateTs_le hTs

theorem past_le {now : ℚ} {time : ℚ} (hClock : ∀ earlier ∈ before, earlier.now ≤ now) (h : Past calls before id time) :
    time ≤ now := by
  obtain ⟨first, earlier, later, rfl, hMoment⟩ := h
  exact (moment_le hMoment).trans (hClock earlier (by simp))

variable (calls)

/-- The record under an id is no older than any moment of the id. -/
def Covers (before : List Tick) : Prop :=
  ∀ id record, Entries.get id (stateAfter calls before) = some record →
    ∃ last, record.lastFired = some last ∧ ∀ time, Past calls before id time → time ≤ last

variable {calls}

/-- After the resets of a tick that makes no record out of a signal, a record is one
of the state before, and no older than what the tick has read either. -/
theorem covers_reset (hCovers : Covers calls before) (hApart : Apart calls before tick) {record : Record}
    (hGet : Entries.get id (tick.reset calls (stateAfter calls before)) = some record) :
    (Entries.get id (stateAfter calls before)).isSome ∧ ∃ last, record.lastFired = some last ∧
      (∀ time, Past calls before id time → time ≤ last) ∧
      ∀ entry ∈ tick.entries calls, entry.id = id → entry.kind = .every → ∀ time,
        candidateTs tick.signals tick.now entry = some time → time ≤ last := by
  have hSome : (Entries.get id (stateAfter calls before)).isSome := by
    rcases get_applyResetSignals (tick.entries calls) (stateAfter calls before) tick.signals tick.now id with
      hSame | ⟨entry, hEntry, rfl, hKind, ts, hTs, -, -⟩
    · exact Option.isSome_iff_exists.mpr ⟨record, hSame.symm.trans hGet⟩
    · exact hApart.seen entry hEntry hKind (Option.isSome_iff_exists.mpr ⟨ts, hTs⟩)
  refine ⟨hSome, ?_⟩
  obtain ⟨old, hOld⟩ := Option.isSome_iff_exists.mp hSome
  obtain ⟨last, hLast, hPast⟩ := hCovers id old hOld
  obtain ⟨next, hNext, hLe⟩ := @lastFired_applyResetSignals (tick.entries calls) (stateAfter calls before) tick.signals
    tick.now id last (by rw [lastFired, hOld]; exact hLast)
  have hRecord : record.lastFired = some next := by
    have hReset : Entries.get id (applyResetSignals (tick.entries calls) (stateAfter calls before) tick.signals
      tick.now) = some record := hGet
    rwa [lastFired, hReset, Option.bind_some] at hNext
  refine ⟨next, hRecord, fun time hTime => (hPast time hTime).trans hLe, ?_⟩
  rintro entry hEntry rfl hKind time hTime
  obtain ⟨reached, hReached, hBound⟩ := @candidate_le_lastFired (tick.entries calls) (stateAfter calls before)
    tick.signals tick.now time entry hEntry hKind hTime
  obtain rfl : reached = next := Option.mem_unique hReached hNext
  exact hBound

/-- One tick keeps the records no older than the moments. -/
theorem covers_next (hCovers : Covers calls before) (hApart : Apart calls before tick)
    (hClock : ∀ earlier ∈ before, earlier.now ≤ tick.now) : Covers calls (before ++ [tick]) := by
  intro id record hGet
  rw [stateAfter_concat, Tick.next, dueEntries, Entries.get_filter (fun key => decide (key ∈ _))] at hGet
  split at hGet
  · rcases get_visitAll tick.staleGrace tick.now (tick.entries calls) (tick.reset calls (stateAfter calls before)) id with
      ⟨hSame, hNone⟩ | ⟨written, hWritten, hNow⟩
    · obtain ⟨-, last, hLast, hPast, hRead⟩ := covers_reset hCovers hApart (hSame.symm.trans hGet)
      refine ⟨last, hLast, fun time hTime => ?_⟩
      rcases past_concat.mp hTime with hTime | ⟨due, hDue, hId, -⟩ | ⟨entry, hEntry, hId, hKind, hTs⟩
      · exact hPast time hTime
      · exact absurd hId (hNone due hDue)
      · exact hRead entry hEntry hId hKind time hTs
    · obtain rfl : written = record := Option.mem_unique hWritten hGet
      refine ⟨tick.now, hNow, fun time hTime => ?_⟩
      rcases past_concat.mp hTime with hTime | hMoment
      · exact past_le hClock hTime
      · exact moment_le hMoment
  · cases hGet

/-- Every run of such ticks. -/
theorem covers_run (hClock : ticks.Pairwise fun earlier later => earlier.now ≤ later.now)
    (hApart : ∀ before tick after, ticks = before ++ tick :: after → Apart calls before tick) : Covers calls ticks := by
  induction ticks using List.reverseRecOn with
  | nil =>
      intro id record hGet
      cases hGet
  | append_singleton before tick ih =>
      rw [List.pairwise_append] at hClock
      refine covers_next (ih hClock.1 fun first earlier later hSplit => ?_) (hApart before tick [] rfl)
        fun earlier hEarlier => hClock.2.2 earlier hEarlier tick (List.mem_singleton_self _)
      exact hApart first earlier (later ++ [tick]) (by rw [hSplit]; simp)

/-- One tick: a one-shot entry is returned by it only against the mark it leaves. -/
theorem spent_tick {shot : ScheduleEntry} (hApart : Apart calls before tick) (hKind : shot.kind = .atTime)
    (hListed : shot ∈ tick.entries calls) :
    (tick.due calls (stateAfter calls before)).count shot + mark shot.id (stateAfter calls before) ≤
      mark shot.id (tick.next calls (stateAfter calls before)) := by
  have hKept : ∀ entry ∈ tick.entries calls, entry.id = shot.id → entry.kind = .every →
      overwrites tick.signals tick.now (stateAfter calls before) entry = false :=
    fun entry hEntry hId hEvery => hApart.marks entry hEntry hEvery ⟨shot, hListed, hKind, hId.symm⟩
  have hSame := @mark_applyResetSignals (tick.entries calls) (stateAfter calls before) tick.signals tick.now shot.id hKept
  have hLoop := @spent_visitAll tick.staleGrace tick.now (tick.entries calls) (tick.reset calls (stateAfter calls before))
    shot hKind tick.entries_wellFormed <| by
      intro record hGet hFired entry hEntry hId hEvery
      have hMark : mark shot.id (tick.reset calls (stateAfter calls before)) = 1 := by
        simp [mark, hGet, hFired]
      have hNot := hKept entry hEntry hId hEvery
      rw [Tick.reset, hSame (.inr hMark)] at hGet
      simp only [overwrites, hId, hGet, hFired, Bool.true_and, Bool.or_eq_false_iff] at hNot
      exact hNot.2
  have hReset : mark shot.id (stateAfter calls before) ≤ mark shot.id (tick.reset calls (stateAfter calls before)) := by
    by_cases hMark : mark shot.id (stateAfter calls before) = 1
    · rw [Tick.reset, mark, mark, hSame (.inl hMark)]
    · have hClear : mark shot.id (stateAfter calls before) = 0 := by
        unfold mark at hMark ⊢
        split <;> simp_all
      omega
  have hPresent : shot.id ∈ (tick.entries calls).map (·.id) := List.mem_map.mpr ⟨shot, hListed, rfl⟩
  have hFilter : mark shot.id (tick.next calls (stateAfter calls before)) =
      mark shot.id (visitAll tick.staleGrace tick.now (tick.entries calls) (tick.reset calls (stateAfter calls before))).2 := by
    rw [Tick.next, dueEntries, mark, Entries.get_filter (fun key => decide (key ∈ _)),
      if_pos (decide_eq_true hPresent), mark]
  rw [hFilter]
  exact (Nat.add_le_add_left hReset _).trans hLoop

theorem mark_le_one (id : Text) (state : State) : mark id state ≤ 1 := by
  unfold mark
  split <;> omega

/-- The ticks behind some others: an entry that all of them list is returned by them
only against the mark they leave. -/
theorem spent_run {rest : List Tick} {shot : ScheduleEntry} (hKind : shot.kind = .atTime)
    (hListed : ∀ tick ∈ rest, shot ∈ tick.entries calls)
    (hApart : ∀ first tick after, rest = first ++ tick :: after → Apart calls (before ++ first) tick) :
    timesDue calls shot (stateAfter calls before) rest + mark shot.id (stateAfter calls before) ≤ 1 := by
  induction rest generalizing before with
  | nil =>
      rw [timesDue, Nat.zero_add]
      exact mark_le_one ..
  | cons tick rest ih =>
      have hTick : Apart calls before tick := by
        simpa using hApart [] tick rest rfl
      have hSpent := spent_tick hTick hKind (hListed tick List.mem_cons_self)
      have hRest := @ih (before ++ [tick]) (fun later hLater => hListed later (List.mem_cons_of_mem _ hLater)) <| by
        intro first later after hSplit
        simpa using hApart (tick :: first) later after (by rw [hSplit]; rfl)
      rw [stateAfter_concat] at hRest
      rw [timesDue]
      omega

/-- A recurring entry that a tick of such a run returns has a record in the state
before, no older than its moments and by its interval behind the clock. -/
theorem record_of_due {after : List Tick} {due : ScheduleEntry}
    (hClock : ticks.Pairwise fun earlier later => earlier.now ≤ later.now)
    (hApart : ∀ before tick after, ticks = before ++ tick :: after → Apart calls before tick)
    (hSplit : ticks = before ++ tick :: after) (hDue : due ∈ tick.due calls (stateAfter calls before))
    (hKind : due.kind = .every) :
    (Entries.get due.id (stateAfter calls before)).isSome ∧ ∃ last interval, due.interval = some interval ∧
      last + interval ≤ tick.now ∧
      ∀ time, Past calls before due.id time ∨ candidateTs tick.signals tick.now due = some time → time ≤ last := by
  have hListed := mem_of_visitAll hDue
  obtain ⟨record, hRecord, hElapsed⟩ := elapsed_of_due tick.entries_wellFormed hKind hDue
  have hCovers : Covers calls before := by
    refine covers_run ?_ fun first earlier later hBefore => ?_
    · rw [hSplit, List.pairwise_append] at hClock
      exact hClock.1
    · exact hApart first earlier (later ++ tick :: after) (by rw [hSplit, hBefore]; simp)
  obtain ⟨hSome, last, hLast, hPast, hRead⟩ := covers_reset hCovers (hApart before tick after hSplit) hRecord
  obtain ⟨interval, hInterval, -⟩ := (tick.entries_wellFormed due hListed).spaced hKind
  have hOver : interval ≤ tick.now - last := by
    simpa [Record.elapsed, hLast, hInterval] using hElapsed
  exact ⟨hSome, last, interval, hInterval, by linarith,
    fun time hTime => hTime.elim (hPast time) (hRead due hListed rfl hKind time)⟩

/-- A clock that does not go back: in every run whose ticks lose no mark, take no
record for that of a new heading and make none out of a signal, every entry keeps to
its trigger. -/
theorem lawful_of_apart {ticks : List Tick} (hClock : ticks.Pairwise fun earlier later => earlier.now ≤ later.now)
    (hApart : ∀ before tick after, ticks = before ++ tick :: after → Apart calls before tick) : Lawful calls ticks where
  once := by
    intro shot hKind hListed
    have hRun := @spent_run calls [] ticks shot hKind hListed fun first tick after hSplit => hApart first tick after hSplit
    exact (Nat.le_add_right _ _).trans hRun
  punctual := by
    intro before tick after _ due hDue hKind
    obtain ⟨hPast, hGrace⟩ := punctual_of_due hKind hDue
    obtain ⟨time, hTime⟩ := Option.isSome_iff_exists.mp ((tick.entries_wellFormed due (mem_of_visitAll hDue)).timed hKind).1
    rw [hTime, Option.getD_some] at hPast hGrace
    exact ⟨time, hTime, hPast, hGrace⟩
  anchored := by
    intro before tick after hSplit due hDue hKind
    have hSome := (record_of_due hClock hApart hSplit hDue hKind).1
    by_contra hNew
    rw [(hApart before tick after hSplit).fresh due (mem_of_visitAll hDue) hKind
      fun earlier hEarlier other hOther hEvery hSame => hNew ⟨earlier, hEarlier, other, hOther, hEvery, hSame⟩] at hSome
    cases hSome
  spaced := by
    intro before tick after hSplit due hDue hKind time hTime
    obtain ⟨-, last, interval, hInterval, hOver, hBound⟩ := record_of_due hClock hApart hSplit hDue hKind
    exact ⟨interval, hInterval, (add_le_add_left (hBound time hTime) interval).trans hOver⟩
  forward := fun _ _ _ _ _ _ hLast => lastFired_applyResetSignals hLast

instance (before : List Tick) (tick : Tick) : Decidable (Apart calls before tick) :=
  decidable_of_iff (_ ∧ _ ∧ _) ⟨fun ⟨hMarks, hFresh, hSeen⟩ => ⟨hMarks, hFresh, hSeen⟩,
    fun h => ⟨h.marks, h.fresh, h.seen⟩⟩

/-- ASCII letters and digits, and the first instant of a year. -/
def asciiCalls : Calls where
  lower := List.map Char.toLower
  digit c := if asciiDigit c then some (c.toNat - 48) else none
  fromIso text := if text = "2026-01-01T00:00:00+00:00".toList then some 1767225600 else none

def yearLetter : Text := "## Letter\nat: 2026-01-01T00:00:00Z\nHappy new year.\n".toList

/-- A letter and a pulse of each hour, which a run resets. -/
def apartTicks : List Tick :=
  let text := yearLetter ++ "## Pulse\nevery: 1h\nreset_on: user-run, spawn\n".toList
  [⟨text, [], 1767220000, 604800⟩, ⟨text, [("spawn".toList, 1767225000)], 1767225600, 604800⟩,
    ⟨text, [("spawn".toList, 1767225000)], 1767228600, 604800⟩]

theorem letter_and_pulse_are_lawful : Lawful asciiCalls apartTicks := by
  have hAll : ∀ n < 3, (apartTicks[n]?).all (fun tick => decide (Apart asciiCalls (apartTicks.take n) tick)) = true := by
    decide +kernel
  refine lawful_of_apart (by decide +kernel) fun before tick after hSplit => ?_
  have hTick := hAll before.length (by have := congrArg List.length hSplit; simp [apartTicks] at this; omega)
  rw [hSplit] at hTick
  simpa using hTick

/-- The letter, and a pulse whose heading has the same slug. -/
def sharedTicks : List Tick :=
  let text := yearLetter ++ "## letter\nevery: 1h\n".toList
  [⟨text, [], 1767225600, 604800⟩, ⟨text, [], 1767229200, 604800⟩, ⟨text, [], 1767229230, 604800⟩]

/-- The pulse writes over the mark of the letter, which is returned a second time. -/
theorem shared_slug_returns_a_letter_twice :
    sharedTicks.Pairwise (fun earlier later => earlier.now ≤ later.now) ∧ ¬Lawful asciiCalls sharedTicks := by
  refine ⟨by decide +kernel, fun h => ?_⟩
  have hTwice : ∃ shot ∈ parseScheduleText asciiCalls (yearLetter ++ "## letter\nevery: 1h\n".toList),
      shot.kind = .atTime ∧ (∀ tick ∈ sharedTicks, shot ∈ tick.entries asciiCalls) ∧
        timesDue asciiCalls shot [] sharedTicks = 2 := by decide +kernel
  obtain ⟨shot, -, hKind, hListed, hTimes⟩ := hTwice
  have hOnce := h.once shot hKind hListed
  omega

/-- A pulse that is new to the schedule is due at once where an old signal resets it. -/
example : (Tick.due asciiCalls [] ⟨"## Pulse\nevery: 1h\nreset_on: spawn\n".toList, [("spawn".toList, 1767222000)],
    1767225600, 604800⟩).length = 1 := by decide +kernel

/-- A letter that has fired and is turned into a pulse is due as soon as it is seen. -/
example : (Tick.due asciiCalls (stateAfter asciiCalls [⟨yearLetter, [], 1767225600, 604800⟩])
    ⟨"## Letter\nevery: 1h\n".toList, [], 1767229200, 604800⟩).length = 1 := by decide +kernel

end Brnrd.Schedule
