import Brnrd.Schedule.Entry
import Mathlib.Tactic.Linarith

/-! The firing state and the two calls of a tick over it: the reset signals and the
entries that are due. -/
namespace Brnrd.Schedule

open Python
open Events (Text)

/-- What the state holds under the id of an entry. -/
structure Record where
  kind : Kind
  lastFired : Option ℚ
  fired : Bool
deriving DecidableEq

abbrev State := List (Text × Record)

abbrev Signals := List (Text × ℚ)

/-- `{"kind": "every", "last_fired": time}`. -/
def everyRecord (time : ℚ) : Record := ⟨.every, some time, false⟩

/-- `{"kind": "at", "last_fired": now, "fired": True}`. -/
def firedRecord (now : ℚ) : Record := ⟨.atTime, some now, true⟩

/-- The `last_fired` of the record under an id. -/
def lastFired (id : Text) (state : State) : Option ℚ :=
  (Entries.get id state).bind (·.lastFired)

/-- `reset_on_names`. -/
def resetOnNames (entry : ScheduleEntry) : List Text :=
  ((splitAny (· = ',') (entry.resetOn.getD [])).map strip).filter (· ≠ [])

/-- The most recent of the named signals that have happened. -/
def candidateTs (signals : Signals) (now : ℚ) (entry : ScheduleEntry) : Option ℚ :=
  (((resetOnNames entry).filterMap (Entries.get · signals)).filter (· ≤ now)).max?

/-- The turn of one entry in `apply_reset_signals`. -/
def resetEntry (signals : Signals) (now : ℚ) (state : State) (entry : ScheduleEntry) : State :=
  if entry.kind ≠ .every then state
  else
    match candidateTs signals now entry with
    | none => state
    | some ts =>
        if (lastFired entry.id state).any (ts ≤ ·) then state else Entries.set entry.id (everyRecord ts) state

/-- `apply_reset_signals`. -/
def applyResetSignals (entries : List ScheduleEntry) (state : State) (signals : Signals) (now : ℚ) : State :=
  if signals = [] then state else entries.foldl (resetEntry signals now) state

/-- Whether the interval of an entry is over: `last is None or (now - last) >= (e.interval or 0)`. -/
def Record.elapsed (record : Record) (now : ℚ) (entry : ScheduleEntry) : Bool :=
  record.lastFired.all (entry.interval.getD 0 ≤ now - ·)

/-- The turn of one entry in `due_entries`: whether it is due, and the state behind. -/
def visit (staleGrace now : ℚ) (state : State) (entry : ScheduleEntry) : Bool × State :=
  match entry.kind, Entries.get entry.id state with
  | .every, none => (false, Entries.set entry.id (everyRecord now) state)
  | .every, some record =>
      if record.elapsed now entry then (true, Entries.set entry.id (everyRecord now) state) else (false, state)
  | .atTime, seen =>
      if seen.any (·.fired) then (false, state)
      else if entry.atTime.getD 0 ≤ now then
        -- too late: anchored as fired, and not due
        (¬staleGrace < now - entry.atTime.getD 0, Entries.set entry.id (firedRecord now) state)
      else (false, state)

/-- The loop of `due_entries`. -/
def visitAll (staleGrace now : ℚ) : List ScheduleEntry → State → List ScheduleEntry × State
  | [], state => ([], state)
  | entry :: rest, state =>
      let (fires, next) := visit staleGrace now state entry
      let (due, last) := visitAll staleGrace now rest next
      (if fires then entry :: due else due, last)

/-- `due_entries`. -/
def dueEntries (entries : List ScheduleEntry) (state : State) (now staleGrace : ℚ) : List ScheduleEntry × State :=
  let (due, next) := visitAll staleGrace now entries state
  (due, next.filter fun item => decide (item.1 ∈ entries.map (·.id)))

/-- What the reset signals do under one id: nothing, or a record of the latest. -/
theorem get_resetEntry (signals : Signals) (now : ℚ) (state : State) (entry : ScheduleEntry) (id : Text) :
    Entries.get id (resetEntry signals now state entry) = Entries.get id state ∨
      entry.id = id ∧ entry.kind = .every ∧ ∃ ts, candidateTs signals now entry = some ts ∧
        (lastFired id state).any (ts ≤ ·) = false ∧
        Entries.get id (resetEntry signals now state entry) = some (everyRecord ts) := by
  unfold resetEntry
  split
  · exact .inl rfl
  · rename_i hKind
    split
    · exact .inl rfl
    · rename_i ts hTs
      split
      · exact .inl rfl
      · rename_i hBehind
        by_cases hId : entry.id = id
        · subst hId
          refine .inr ⟨rfl, not_not.mp hKind, ts, hTs, by simpa using hBehind, ?_⟩
          rw [Entries.get_set, if_pos rfl]
        · exact .inl (by rw [Entries.get_set, if_neg hId])

variable {entry : ScheduleEntry} {now staleGrace : ℚ}

theorem candidateTs_le {signals : Signals} {ts : ℚ} (h : candidateTs signals now entry = some ts) : ts ≤ now := by
  have hMem := List.max?_mem h
  simpa using (List.mem_filter.mp hMem).2

/-- What one entry's turn does under an id: nothing, or a record of this instant. -/
theorem get_visit (staleGrace now : ℚ) (state : State) (entry : ScheduleEntry) (id : Text) :
    Entries.get id (visit staleGrace now state entry).2 = Entries.get id state ∧
        (entry.id = id → (visit staleGrace now state entry).1 = false) ∨
      entry.id = id ∧ ∃ record, Entries.get id (visit staleGrace now state entry).2 = some record ∧
        record.lastFired = some now := by
  by_cases hId : entry.id = id
  · subst hId
    unfold visit
    split
    · exact .inr ⟨rfl, everyRecord now, by simp, rfl⟩
    · split
      · exact .inr ⟨rfl, everyRecord now, by simp, rfl⟩
      · exact .inl ⟨rfl, fun _ => rfl⟩
    · split
      · exact .inl ⟨rfl, fun _ => rfl⟩
      · split
        · exact .inr ⟨rfl, firedRecord now, by simp, rfl⟩
        · exact .inl ⟨rfl, fun _ => rfl⟩
  · refine .inl ⟨?_, fun h => absurd h hId⟩
    unfold visit
    split
    · exact (Entries.get_set ..).trans (if_neg hId)
    · split
      · exact (Entries.get_set ..).trans (if_neg hId)
      · rfl
    · split
      · rfl
      · split
        · exact (Entries.get_set ..).trans (if_neg hId)
        · rfl

theorem resetEntry_of_nil (now : ℚ) (state : State) (entry : ScheduleEntry) : resetEntry [] now state entry = state := by
  have hNone : candidateTs [] now entry = none := by
    simp [candidateTs, Entries.get]
  simp [resetEntry, hNone]

theorem applyResetSignals_eq (entries : List ScheduleEntry) (state : State) (signals : Signals) (now : ℚ) :
    applyResetSignals entries state signals now = entries.foldl (resetEntry signals now) state := by
  unfold applyResetSignals
  split
  · rename_i hNil
    rw [hNil]
    induction entries with
    | nil => rfl
    | cons entry entries ih => rw [List.foldl_cons, resetEntry_of_nil, ← ih]
  · rfl

/-- What all the resets of a tick do under one id: nothing, or a record of one that
is later than what stood there. -/
theorem get_applyResetSignals (entries : List ScheduleEntry) (state : State) (signals : Signals) (now : ℚ) (id : Text) :
    Entries.get id (applyResetSignals entries state signals now) = Entries.get id state ∨
      ∃ entry ∈ entries, entry.id = id ∧ entry.kind = .every ∧ ∃ ts, candidateTs signals now entry = some ts ∧
        (lastFired id state).any (ts ≤ ·) = false ∧
        Entries.get id (applyResetSignals entries state signals now) = some (everyRecord ts) := by
  rw [applyResetSignals_eq]
  induction entries generalizing state with
  | nil => exact .inl rfl
  | cons entry entries ih =>
      rw [List.foldl_cons]
      have hFirst := get_resetEntry signals now state entry id
      rcases ih (resetEntry signals now state entry) with hRest | ⟨later, hLater, hId, hKind, ts, hTs, hBehind, hRest⟩
      · rw [hRest]
        rcases hFirst with hSame | ⟨hId, hKind, ts, hTs, hBehind, hNew⟩
        · exact .inl hSame
        · exact .inr ⟨entry, List.mem_cons_self .., hId, hKind, ts, hTs, hBehind, hNew⟩
      · refine .inr ⟨later, List.mem_cons_of_mem _ hLater, hId, hKind, ts, hTs, ?_, hRest⟩
        rcases hFirst with hSame | ⟨-, -, first, -, hFirst, hNew⟩
        · rwa [lastFired, hSame] at hBehind
        · -- the second of two resets is later than the first, and so than the record
          simp only [lastFired, hNew, everyRecord, Option.bind_some, Option.any_some, decide_eq_false_iff_not,
            not_le] at hBehind
          cases hLast : lastFired id state with
          | none => rfl
          | some last =>
              simp only [hLast, Option.any_some, decide_eq_false_iff_not, not_le] at hFirst ⊢
              exact hFirst.trans hBehind

/-- `apply_reset_signals` moves no `last_fired` back. -/
theorem lastFired_applyResetSignals {entries : List ScheduleEntry} {state : State} {signals : Signals} {now : ℚ} {id : Text}
    {last : ℚ} (h : lastFired id state = some last) :
    ∃ next, lastFired id (applyResetSignals entries state signals now) = some next ∧ last ≤ next := by
  rcases get_applyResetSignals entries state signals now id with hSame | ⟨_, _, _, _, ts, _, hBehind, hNew⟩
  · exact ⟨last, by rw [lastFired, hSame]; exact h, le_refl _⟩
  · rw [h, Option.any_some, decide_eq_false_iff_not, not_le] at hBehind
    exact ⟨ts, by rw [lastFired, hNew]; rfl, hBehind.le⟩

/-- After the resets no signal that an entry names is later than its record. -/
theorem candidate_le_lastFired {entries : List ScheduleEntry} {state : State} {signals : Signals} {now ts : ℚ}
    {entry : ScheduleEntry} (hEntry : entry ∈ entries) (hKind : entry.kind = .every)
    (hTs : candidateTs signals now entry = some ts) :
    ∃ last, lastFired entry.id (applyResetSignals entries state signals now) = some last ∧ ts ≤ last := by
  rw [applyResetSignals_eq]
  obtain ⟨before, after, rfl⟩ := List.append_of_mem hEntry
  rw [List.foldl_append, List.foldl_cons, ← applyResetSignals_eq after]
  generalize before.foldl (resetEntry signals now) state = reached
  have hTurn : ∃ last, lastFired entry.id (resetEntry signals now reached entry) = some last ∧ ts ≤ last := by
    unfold resetEntry
    rw [if_neg (by simp [hKind]), hTs]
    dsimp only
    split
    · rename_i hAny
      obtain ⟨last, hLast, hLe⟩ := (Option.any_eq_true ..).mp hAny
      exact ⟨last, hLast, by simpa using hLe⟩
    · exact ⟨ts, by simp [lastFired, everyRecord], le_refl _⟩
  obtain ⟨last, hLast, hLe⟩ := hTurn
  obtain ⟨next, hNext, hMore⟩ := @lastFired_applyResetSignals after _ signals now _ _ hLast
  exact ⟨next, hNext, hLe.trans hMore⟩

variable {state : State}

theorem visit_every (hKind : entry.kind = .every) :
    visit staleGrace now state entry =
      match Entries.get entry.id state with
      | none => (false, Entries.set entry.id (everyRecord now) state)
      | some record =>
          if record.elapsed now entry then (true, Entries.set entry.id (everyRecord now) state) else (false, state) := by
  unfold visit
  rw [hKind]
  cases Entries.get entry.id state <;> rfl

theorem visit_atTime (hKind : entry.kind = .atTime) :
    visit staleGrace now state entry =
      if (Entries.get entry.id state).any (·.fired) then (false, state)
      else if entry.atTime.getD 0 ≤ now then
        (¬staleGrace < now - entry.atTime.getD 0, Entries.set entry.id (firedRecord now) state)
      else (false, state) := by
  unfold visit
  rw [hKind]

theorem visitAll_cons (staleGrace now : ℚ) (entry : ScheduleEntry) (rest : List ScheduleEntry) (state : State) :
    visitAll staleGrace now (entry :: rest) state =
      let turn := visit staleGrace now state entry
      let later := visitAll staleGrace now rest turn.2
      (if turn.1 then entry :: later.1 else later.1, later.2) := rfl

theorem mem_visitAll_cons {due : ScheduleEntry} {rest : List ScheduleEntry}
    (h : due ∈ (visitAll staleGrace now (entry :: rest) state).1) :
    due = entry ∧ (visit staleGrace now state entry).1 = true ∨
      due ∈ (visitAll staleGrace now rest (visit staleGrace now state entry).2).1 := by
  rw [visitAll_cons] at h
  dsimp only at h
  split at h
  · rename_i hFires
    exact (List.mem_cons.mp h).imp_left fun hDue => ⟨hDue, hFires⟩
  · exact .inr h

/-- What the whole loop does under an id: nothing, and none of its entries is due,
or a record of this instant. -/
theorem get_visitAll (staleGrace now : ℚ) (entries : List ScheduleEntry) (state : State) (id : Text) :
    Entries.get id (visitAll staleGrace now entries state).2 = Entries.get id state ∧
        (∀ due ∈ (visitAll staleGrace now entries state).1, due.id ≠ id) ∨
      ∃ record, Entries.get id (visitAll staleGrace now entries state).2 = some record ∧ record.lastFired = some now := by
  induction entries generalizing state with
  | nil => exact .inl ⟨rfl, by simp [visitAll]⟩
  | cons entry rest ih =>
      rcases ih (visit staleGrace now state entry).2 with ⟨hRest, hDue⟩ | hRest
      · rcases get_visit staleGrace now state entry id with ⟨hSame, hNot⟩ | ⟨-, record, hRecord, hNow⟩
        · refine .inl ⟨hRest.trans hSame, fun due hMem hId => ?_⟩
          rcases mem_visitAll_cons hMem with ⟨rfl, hFires⟩ | hMem
          · rw [hNot hId] at hFires
            cases hFires
          · exact hDue due hMem hId
        · exact .inr ⟨record, hRest.trans hRecord, hNow⟩
      · exact .inr hRest

/-- A record of this instant is not over its interval. -/
theorem not_elapsed_now {record : Record} (hEntry : entry.WellFormed) (hKind : entry.kind = .every)
    (hNow : record.lastFired = some now) : record.elapsed now entry = false := by
  obtain ⟨interval, hInterval, hPositive⟩ := hEntry.spaced hKind
  simp [Record.elapsed, hNow, hInterval, hPositive]

theorem mem_of_visitAll {entries : List ScheduleEntry} {due : ScheduleEntry}
    (h : due ∈ (visitAll staleGrace now entries state).1) : due ∈ entries := by
  induction entries generalizing state with
  | nil => cases h
  | cons entry rest ih =>
      rcases mem_visitAll_cons h with ⟨rfl, -⟩ | h
      · exact List.mem_cons_self ..
      · exact List.mem_cons_of_mem _ (ih h)

/-- A recurring entry is due only where the state before the loop has a record of it
whose interval is over. -/
theorem elapsed_of_due {entries : List ScheduleEntry} {due : ScheduleEntry} (hEntries : ∀ entry ∈ entries, entry.WellFormed)
    (hKind : due.kind = .every) (h : due ∈ (visitAll staleGrace now entries state).1) :
    ∃ record, Entries.get due.id state = some record ∧ record.elapsed now due = true := by
  have hDue := hEntries due (mem_of_visitAll h)
  induction entries generalizing state with
  | nil => cases h
  | cons entry rest ih =>
      rcases mem_visitAll_cons h with ⟨rfl, hFires⟩ | h
      · rw [visit_every hKind] at hFires
        split at hFires
        · cases hFires
        · rename_i record hRecord
          split at hFires
          · rename_i hElapsed
            exact ⟨record, hRecord, hElapsed⟩
          · cases hFires
      · obtain ⟨record, hRecord, hElapsed⟩ := ih (fun e he => hEntries e (List.mem_cons_of_mem _ he)) h
        rcases get_visit staleGrace now state entry due.id with ⟨hSame, -⟩ | ⟨-, written, hWritten, hNow⟩
        · exact ⟨record, hSame.symm.trans hRecord, hElapsed⟩
        · obtain rfl : written = record := Option.mem_unique hWritten hRecord
          rw [not_elapsed_now hDue hKind hNow] at hElapsed
          cases hElapsed

/-- A one-shot entry is due between its instant and the end of its grace. -/
theorem punctual_of_due {entries : List ScheduleEntry} {due : ScheduleEntry} (hKind : due.kind = .atTime)
    (h : due ∈ (visitAll staleGrace now entries state).1) :
    due.atTime.getD 0 ≤ now ∧ now ≤ due.atTime.getD 0 + staleGrace := by
  induction entries generalizing state with
  | nil => cases h
  | cons entry rest ih =>
      rcases mem_visitAll_cons h with ⟨rfl, hFires⟩ | h
      · rw [visit_atTime hKind] at hFires
        split at hFires
        · cases hFires
        · split at hFires
          · rename_i hPast
            have hGrace : ¬staleGrace < now - due.atTime.getD 0 := by simpa using hFires
            exact ⟨hPast, by linarith⟩
          · cases hFires
      · exact ih h

/-- One for the mark of a one-shot entry that has fired. -/
def mark (id : Text) (state : State) : ℕ :=
  if (Entries.get id state).any (·.fired) then 1 else 0

/-- One turn: it takes an entry that is due to leave a mark that was not there, while
no recurring entry is due under a marked id. -/
theorem spent_visit {staleGrace now : ℚ} {state : State} {entry shot : ScheduleEntry} (hKind : shot.kind = .atTime)
    (hKept : ∀ record, Entries.get shot.id state = some record → record.fired = true → entry.id = shot.id →
      entry.kind = .every → record.elapsed now entry = false) :
    (if entry = shot ∧ (visit staleGrace now state entry).1 = true then 1 else 0) + mark shot.id state ≤
      mark shot.id (visit staleGrace now state entry).2 := by
  by_cases hId : entry.id = shot.id
  · have hNot : entry.kind = .every → entry ≠ shot := by
      rintro hEvery rfl
      rw [hKind] at hEvery
      cases hEvery
    cases hEvery : entry.kind with
    | every =>
        rw [if_neg (fun h => hNot hEvery h.1), visit_every hEvery, Nat.zero_add]
        split
        · rename_i hNone
          rw [mark, ← hId, hNone]
          simp
        · rename_i record hSome
          split
          · rename_i hElapsed
            have hPlain : record.fired = false := by
              by_contra hFired
              rw [hKept record (hId ▸ hSome) (by simpa using hFired) hId hEvery] at hElapsed
              cases hElapsed
            rw [mark, ← hId, hSome]
            simp [hPlain]
          · exact le_refl _
    | atTime =>
        rw [visit_atTime hEvery]
        split
        · simp
        · rename_i hFresh
          have hClear : mark shot.id state = 0 := by
            rw [mark, ← hId, if_neg hFresh]
          rw [hClear]
          split
          · have hMarked : mark shot.id (Entries.set entry.id (firedRecord now) state) = 1 := by
              simp [mark, hId, firedRecord]
            simp only [hMarked]
            split <;> omega
          · simp
  · have hSame : entry ≠ shot := fun h => hId (by rw [h])
    rcases get_visit staleGrace now state entry shot.id with ⟨hGet, -⟩ | ⟨h, -⟩
    · rw [if_neg (fun h => hSame h.1), mark, mark, hGet, Nat.zero_add]
    · exact absurd h hId

/-- The loop: whatever often a one-shot entry is listed, each return of it costs the
mark that was not there. -/
theorem spent_visitAll {staleGrace now : ℚ} {entries : List ScheduleEntry} {state : State} {shot : ScheduleEntry}
    (hKind : shot.kind = .atTime) (hEntries : ∀ entry ∈ entries, entry.WellFormed)
    (hKept : ∀ record, Entries.get shot.id state = some record → record.fired = true →
      ∀ entry ∈ entries, entry.id = shot.id → entry.kind = .every → record.elapsed now entry = false) :
    (visitAll staleGrace now entries state).1.count shot + mark shot.id state ≤
      mark shot.id (visitAll staleGrace now entries state).2 := by
  induction entries generalizing state with
  | nil => simp [visitAll]
  | cons entry rest ih =>
      have hTurn := @spent_visit staleGrace now state entry shot hKind fun record hGet hFired hId hEvery =>
        hKept record hGet hFired entry List.mem_cons_self hId hEvery
      have hRest := @ih (visit staleGrace now state entry).2 (fun e he => hEntries e (List.mem_cons_of_mem _ he)) <| by
        intro record hGet hFired later hLater hId hEvery
        have hMem := List.mem_cons_of_mem entry hLater
        rcases get_visit staleGrace now state entry shot.id with ⟨hSame, -⟩ | ⟨-, written, hWritten, hNow⟩
        · exact hKept record (hSame.symm.trans hGet) hFired later hMem hId hEvery
        · obtain rfl : written = record := Option.mem_unique hWritten hGet
          exact not_elapsed_now (hEntries later hMem) hEvery hNow
      have hCount : (visitAll staleGrace now (entry :: rest) state).1.count shot =
          (if entry = shot ∧ (visit staleGrace now state entry).1 = true then 1 else 0) +
            (visitAll staleGrace now rest (visit staleGrace now state entry).2).1.count shot := by
        rw [visitAll_cons]
        dsimp only
        cases (visit staleGrace now state entry).1 <;> by_cases hSame : entry = shot <;>
          simp [hSame, Nat.add_comm]
      rw [hCount, visitAll_cons]
      dsimp only
      omega

/-- Whether a tick writes over the record of an entry that says fired: by a reset, or
because the entry is due. -/
def overwrites (signals : Signals) (now : ℚ) (state : State) (entry : ScheduleEntry) : Bool :=
  match Entries.get entry.id state with
  | none => false
  | some record =>
      record.fired && ((candidateTs signals now entry).any (fun ts => !record.lastFired.any (ts ≤ ·)) ||
        record.elapsed now entry)

/-- The resets leave a mark alone where no reset writes over it. -/
theorem mark_applyResetSignals {entries : List ScheduleEntry} {state : State} {signals : Signals} {now : ℚ} {id : Text}
    (hKept : ∀ entry ∈ entries, entry.id = id → entry.kind = .every → overwrites signals now state entry = false)
    (hMark : mark id state = 1 ∨ mark id (applyResetSignals entries state signals now) = 1) :
    Entries.get id (applyResetSignals entries state signals now) = Entries.get id state := by
  rcases get_applyResetSignals entries state signals now id with hSame | ⟨entry, hEntry, hId, hKind, ts, hTs, hBehind, hNew⟩
  · exact hSame
  · rcases hMark with hMark | hMark
    · have hNot := hKept entry hEntry hId hKind
      subst hId
      cases hGet : Entries.get entry.id state with
      | none => simp [mark, hGet] at hMark
      | some record =>
          have hFired : record.fired = true := by
            by_contra hPlain
            simp [mark, hGet, hPlain] at hMark
          simp only [lastFired, hGet, Option.bind_some] at hBehind
          simp [overwrites, hGet, hFired, hTs, hBehind] at hNot
    · simp [mark, hNew, everyRecord] at hMark

end Brnrd.Schedule
