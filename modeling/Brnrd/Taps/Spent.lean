import Brnrd.Machine.Reach
import Brnrd.Taps.Request

/-! The calls of all sessions over one table: each reads, decides, and commits what it
has decided by the keys of the rows, whatever has been committed in between. -/
namespace Brnrd.Taps

/-- The table, the calls that have read and not committed, the answers that claims have
given, and the requests that were refused as parked after the event, once each time. -/
structure World where
  table : Table := []
  calls : List Decision := []
  answers : List (Claim × Answer) := []
  parked : List String := []

inductive Action where
  | pendingForAccount (accountId : String) (now : ℚ)
  | create (accountId profile id : String) (repoLabel environment : Option String) (now : ℚ)
  | cancel (accountId requestId : String) (now : ℚ)
  | claim (claim : Claim) (now : ℚ)
  | commit (i : ℕ)
  /-- The call ends without its commit. -/
  | drop (i : ℕ)

/-- `UPDATE … WHERE id = :id`. -/
def Table.update (table : Table) (change : String × Change) : Table :=
  match Entries.get change.1 table with
  | none => table
  | some row => Entries.set change.1 (change.2.apply row) table

/-- The commit of a call; an id that is taken can not be minted. -/
def World.commit (w : World) (call : Decision) : Option World :=
  let table := call.changes.foldl Table.update w.table
  let next (table : Table) : World :=
    { table
      calls := w.calls
      answers := w.answers ++ call.claim.toList
      parked := w.parked ++ (call.changes.filter (·.2.parkedAfterRefusals.isSome)).map Prod.fst }
  match call.minted with
  | none => some (next table)
  | some (id, row) => if (Entries.get id table).isSome then none else some (next (Entries.set id row table))

def World.step (w : World) : Action → Option World
  | .pendingForAccount accountId now =>
      some { w with calls := w.calls ++ [(pendingForAccount w.table accountId now).1] }
  | .create accountId profile id repoLabel environment now =>
      some { w with calls := w.calls ++ [create w.table accountId profile id repoLabel environment now] }
  | .cancel accountId requestId now => some { w with calls := w.calls ++ [cancel w.table accountId requestId now] }
  | .claim args now => some { w with calls := w.calls ++ [claim w.table args now] }
  | .commit i =>
      match w.calls[i]? with
      | none => none
      | some call => { w with calls := w.calls.eraseIdx i }.commit call
  | .drop i => some { w with calls := w.calls.eraseIdx i }

/-- Whether a claim has been told to spend a request. -/
def spends (id : String) (answer : Claim × Answer) : Bool :=
  answer.2.apply && answer.1.requestId = id

/-- What the claims and the refusals of a request may have come to. -/
structure World.Lawful (w : World) : Prop where
  once : ∀ id, w.answers.countP (spends id) ≤ 1
  consumed : ∀ answer ∈ w.answers, answer.2.apply = true →
    ∃ row, Entries.get answer.1.requestId w.table = some row ∧ row.status = .consumed
  spares : ∀ call ∈ w.calls, ∀ claim answer, call.claim = some (claim, answer) →
    (claim.source = some "schedule" ∨ ∃ row, Entries.get claim.requestId w.table = some row ∧ claim.unknown row = true) →
      answer.apply = false ∧ ∀ change ∈ call.changes, change.2.status.map Prod.fst ≠ some .consumed
  bounded : ∀ id, w.parked.count id ≤ parkedAfterRefusalBound

/-- A request that is no longer pending keeps its status. -/
def World.Kept (w later : World) : Prop :=
  ∀ id row, Entries.get id w.table = some row → row.status ≠ .pending →
    ∃ next, Entries.get id later.table = some next ∧ next.status = row.status

/-- A call commits a status only for requests that are still pending, and a count of
refusals only where it is still the one it has read. -/
def World.Current (w : World) : Action → Prop
  | .commit i => ∀ call ∈ w.calls[i]?, ∀ change ∈ call.changes, ∀ row ∈ Entries.get change.1 w.table,
      (change.2.status.isSome → row.status = .pending) ∧
        ∀ n ∈ change.2.parkedAfterRefusals, n = row.parkedAfterRefusals + 1
  | _ => True

/-- The shapes of what a call has decided. -/
inductive Shape : Decision → Prop where
  | moved (ids : List String) (status : Status) (time : ℚ) (minted : Option (String × Row)) (claim : Option (Claim × Answer))
      (hStatus : status ≠ .consumed) (hMinted : ∀ item ∈ minted, item.2.status = .pending ∧ item.2.parkedAfterRefusals = 0)
      (hClaim : ∀ told ∈ claim, told.2.apply = false) : Shape ⟨moves ids status time, minted, claim⟩
  | deferred (claim : Claim) (reason : Option (Option String)) (refusals : Option ℕ) (answer : Answer)
      (hBound : ∀ n ∈ refusals, n ≤ parkedAfterRefusalBound) (hAnswer : answer.apply = false) :
      Shape ⟨[(claim.requestId, ⟨none, reason, refusals⟩)], none, some (claim, answer)⟩
  | spent (claim : Claim) (time : ℚ) (reason : Option (Option String)) (answer : Answer) (hAnswer : answer.apply = true)
      (hSource : claim.source ≠ some "schedule") :
      Shape ⟨[(claim.requestId, ⟨some (.consumed, time), reason, none⟩)], none, some (claim, answer)⟩

theorem shape_nothing (claim : Option (Claim × Answer)) (hClaim : ∀ told ∈ claim, told.2.apply = false) :
    Shape { claim } :=
  .moved [] .canceled 0 none claim (by decide) (by simp) hClaim

theorem shape_pendingForAccount (table : Table) (accountId : String) (now : ℚ) :
    Shape (pendingForAccount table accountId now).1 :=
  .moved _ .expired now none none (by decide) (by simp) (by simp)

theorem shape_create (table : Table) (accountId profile id : String) (repoLabel environment : Option String) (now : ℚ) :
    Shape (create table accountId profile id repoLabel environment now) :=
  .moved _ .canceled now (some _) none (by decide) (by simp) (by simp)

theorem shape_cancel (table : Table) (accountId requestId : String) (now : ℚ) :
    Shape (cancel table accountId requestId now) := by
  unfold cancel
  split
  · exact shape_nothing none (by simp)
  · split
    · exact .moved [requestId] .canceled now none none (by decide) (by simp) (by simp)
    · exact shape_nothing none (by simp)

/-- The ladder of a claim ends in a refusal, in a deferral or in a request that it
spends, which is the one it has read and is none of another profile's. -/
theorem shape_claim (table : Table) (args : Claim) (now : ℚ) : Shape (claim table args now) := by
  unfold claim
  dsimp only
  split
  · exact shape_nothing _ (by simp [refuse])
  · split
    · exact shape_nothing _ (by simp [refuse])
    · rename_i row hRow
      split
      · exact shape_nothing _ (by simp [refuse])
      · split
        · exact shape_nothing _ (by simp [refuse])
        · split
          · exact .moved [args.requestId] .expired now none (some _) (by decide) (by simp) (by simp [refuse])
          · split
            · exact .deferred args _ none _ (by simp) rfl
            · rename_i hSource
              split
              · exact .deferred args _ none _ (by simp) rfl
              · split
                · rename_i hParked
                  exact .deferred args _ (some _) _ (fun n hn => Option.mem_some.mp hn ▸ hParked.2) rfl
                · exact .spent args now _ _ rfl hSource

theorem get_update (table : Table) (change : String × Change) (id : String) :
    Entries.get id (table.update change) =
      if change.1 = id then (Entries.get id table).map change.2.apply else Entries.get id table := by
  unfold Table.update
  split
  · rename_i hNone
    split
    · rename_i hId
      rw [← hId, hNone, Option.map_none]
    · rfl
  · rename_i row hRow
    rw [Entries.get_set]
    split
    · rename_i hId
      rw [← hId, hRow, Option.map_some]
    · rfl

/-- The move of some requests: each of them has the status, the others are as they were. -/
theorem get_moves (ids : List String) (status : Status) (time : ℚ) (table : Table) (id : String) :
    Entries.get id ((moves ids status time).foldl Table.update table) =
      (Entries.get id table).map fun row =>
        if id ∈ ids then { row with status := status, decidedAt := some time } else row := by
  induction ids generalizing table with
  | nil => simp [moves]
  | cons first ids ih =>
      rw [moves, List.map_cons, List.foldl_cons, ← moves, ih, get_update]
      cases hRow : Entries.get id table with
      | none => simp
      | some row =>
          by_cases hFirst : first = id
          · by_cases hLater : id ∈ ids <;> simp [hFirst, hLater, Change.apply]
          · simp [hFirst, Ne.symm hFirst]

/-- What holds of the table, of the calls that are open and of what has been answered. -/
structure World.Inv (w : World) : Prop where
  shapes : ∀ call ∈ w.calls, Shape call
  present : ∀ call ∈ w.calls, ∀ change ∈ call.changes, (Entries.get change.1 w.table).isSome
  known : ∀ call ∈ w.calls, ∀ claim answer, call.claim = some (claim, answer) → answer.apply = true →
    ∀ row, Entries.get claim.requestId w.table = some row → claim.unknown row = false
  spent : ∀ id, w.answers.countP (spends id) =
    if (Entries.get id w.table).any (·.status = .consumed) then 1 else 0
  counted : ∀ id, w.parked.count id = ((Entries.get id w.table).map (·.parkedAfterRefusals)).getD 0
  bounded : ∀ id row, Entries.get id w.table = some row → row.parkedAfterRefusals ≤ parkedAfterRefusalBound

variable {w : World}

theorem World.Inv.lawful (h : w.Inv) : w.Lawful where
  once := by
    intro id
    rw [h.spent]
    split <;> omega
  consumed := by
    intro answer hAnswer hApply
    have hCount : 0 < w.answers.countP (spends answer.1.requestId) :=
      List.countP_pos_iff.mpr ⟨answer, hAnswer, by simp [spends, hApply]⟩
    rw [h.spent] at hCount
    split at hCount
    · rename_i hAny
      obtain ⟨row, hRow, hStatus⟩ := (Option.any_eq_true ..).mp hAny
      exact ⟨row, hRow, of_decide_eq_true hStatus⟩
    · omega
  spares := by
    intro call hCall claim answer hClaim hSpared
    have hKnown := h.known call hCall claim answer hClaim
    cases h.shapes call hCall with
    | moved ids status time minted told hStatus hMinted hTold =>
        refine ⟨hTold _ hClaim, fun change hChange => ?_⟩
        obtain ⟨id, -, rfl⟩ := List.mem_map.mp hChange
        simpa using hStatus
    | deferred told reason refusals given hBound hAnswer =>
        obtain ⟨rfl, rfl⟩ := Prod.mk.inj (Option.some.inj hClaim)
        exact ⟨hAnswer, by simp⟩
    | spent told time reason given hAnswer hSource =>
        obtain ⟨rfl, rfl⟩ := Prod.mk.inj (Option.some.inj hClaim)
        rcases hSpared with hSchedule | ⟨row, hRow, hUnknown⟩
        · exact absurd hSchedule hSource
        · rw [hKnown hAnswer row hRow] at hUnknown
          cases hUnknown
  bounded := by
    intro id
    rw [h.counted]
    cases hRow : Entries.get id w.table with
    | none => exact Nat.zero_le _
    | some row => exact h.bounded id row hRow

/-- A call that reads adds what it has decided. -/
theorem World.Inv.read (h : w.Inv) {call : Decision} (hShape : Shape call)
    (hPresent : ∀ change ∈ call.changes, (Entries.get change.1 w.table).isSome)
    (hKnown : ∀ claim answer, call.claim = some (claim, answer) → answer.apply = true → ∀ row, Entries.get claim.requestId w.table = some row → claim.unknown row = false) :
    World.Inv { w with calls := w.calls ++ [call] } where
  shapes := by
    intro other hOther
    rcases List.mem_append.mp hOther with hOther | hOther
    · exact h.shapes other hOther
    · exact List.mem_singleton.mp hOther ▸ hShape
  present := by
    intro other hOther
    rcases List.mem_append.mp hOther with hOther | hOther
    · exact h.present other hOther
    · exact List.mem_singleton.mp hOther ▸ hPresent
  known := by
    intro other hOther
    rcases List.mem_append.mp hOther with hOther | hOther
    · exact h.known other hOther
    · exact List.mem_singleton.mp hOther ▸ hKnown
  spent := h.spent
  counted := h.counted
  bounded := h.bounded

theorem World.Inv.drop (h : w.Inv) (i : ℕ) : World.Inv { w with calls := w.calls.eraseIdx i } where
  shapes := fun call hCall => h.shapes call (List.mem_of_mem_eraseIdx hCall)
  present := fun call hCall => h.present call (List.mem_of_mem_eraseIdx hCall)
  known := fun call hCall => h.known call (List.mem_of_mem_eraseIdx hCall)
  spent := h.spent
  counted := h.counted
  bounded := h.bounded

theorem isSome_of_mem {table : Table} {id : String} (h : id ∈ table.map Prod.fst) : (Entries.get id table).isSome := by
  by_contra hNone
  exact Entries.get_eq_none.mp (by simpa using hNone) h

theorem present_moves {table : Table} {ids : List String} {status : Status} {time : ℚ}
    (h : ∀ id ∈ ids, id ∈ table.map Prod.fst) : ∀ change ∈ moves ids status time, (Entries.get change.1 table).isSome := by
  intro change hChange
  obtain ⟨id, hId, rfl⟩ := List.mem_map.mp hChange
  exact isSome_of_mem (h id hId)

theorem pendingOf_subset (table : Table) (accountId : String) :
    ∀ id ∈ (pendingOf table accountId).map Prod.fst, id ∈ table.map Prod.fst :=
  fun _ hId => (List.filter_sublist.map Prod.fst).subset hId

/-- A claim decides on the row it has read. -/
theorem claim_read (table : Table) (args : Claim) (now : ℚ) :
    (∀ change ∈ (claim table args now).changes, (Entries.get change.1 table).isSome) ∧
      ∀ told answer, (claim table args now).claim = some (told, answer) → answer.apply = true →
        ∀ row, Entries.get told.requestId table = some row → told.unknown row = false := by
  unfold claim
  dsimp only
  split
  · simp [refuse]
  · split
    · simp [refuse]
    · rename_i row hRow
      split
      · simp [refuse]
      · split
        · simp [refuse]
        · split
          · simp [refuse, moves, hRow]
          · split
            · simp [defer, refuse, hRow]
            · split
              · simp [defer, refuse, hRow]
              · rename_i hKnown
                split
                · simp [defer, refuse, hRow]
                · refine ⟨by simp [hRow], ?_⟩
                  rintro told answer hTold - other hOther
                  obtain ⟨rfl, -⟩ := Prod.mk.inj (Option.some.inj hTold)
                  obtain rfl := Option.mem_unique hRow hOther
                  simpa using hKnown

/-- What a commit leaves: the rows it has, their profiles and the status of those that
were decided. -/
structure Table.Keeps (table later : Table) : Prop where
  profile : ∀ id row, Entries.get id table = some row → ∃ next, Entries.get id later = some next ∧
    next.profile = row.profile
  decided : ∀ id row, Entries.get id table = some row → row.status ≠ .pending → ∃ next,
    Entries.get id later = some next ∧ next.status = row.status

/-- The calls that are open after a commit were open before, and what they have read is
still there. -/
theorem World.Inv.calls (h : w.Inv) {table : Table} (hKeeps : w.table.Keeps table) (call : Decision)
    (hCall : call ∈ w.calls) :
    (∀ change ∈ call.changes, (Entries.get change.1 table).isSome) ∧
      ∀ claim answer, call.claim = some (claim, answer) → answer.apply = true →
        ∀ row, Entries.get claim.requestId table = some row → claim.unknown row = false := by
  constructor
  · intro change hChange
    obtain ⟨row, hRow⟩ := Option.isSome_iff_exists.mp (h.present call hCall change hChange)
    obtain ⟨next, hNext, -⟩ := hKeeps.profile change.1 row hRow
    exact Option.isSome_iff_exists.mpr ⟨next, hNext⟩
  · intro claim answer hClaim hApply next hNext
    have hPresent : (Entries.get claim.requestId w.table).isSome := by
      cases h.shapes call hCall with
      | moved ids status time minted told hStatus hMinted hTold =>
          rw [hTold _ hClaim] at hApply
          cases hApply
      | deferred told reason refusals given hBound hAnswer =>
          obtain ⟨rfl, rfl⟩ := Prod.mk.inj (Option.some.inj hClaim)
          exact h.present _ hCall _ (List.mem_singleton_self _)
      | spent told time reason given hAnswer hSource =>
          obtain ⟨rfl, rfl⟩ := Prod.mk.inj (Option.some.inj hClaim)
          exact h.present _ hCall _ (List.mem_singleton_self _)
    obtain ⟨row, hRow⟩ := Option.isSome_iff_exists.mp hPresent
    obtain ⟨kept, hKept, hProfile⟩ := hKeeps.profile _ row hRow
    obtain rfl := Option.mem_unique hKept hNext
    rw [Claim.unknown, hProfile]
    exact h.known call hCall claim answer hClaim hApply row hRow

theorem Table.Keeps.trans {first second third : Table} (h : first.Keeps second) (h' : second.Keeps third) :
    first.Keeps third where
  profile := by
    intro id row hRow
    obtain ⟨next, hNext, hProfile⟩ := h.profile id row hRow
    obtain ⟨last, hLast, hSame⟩ := h'.profile id next hNext
    exact ⟨last, hLast, hSame.trans hProfile⟩
  decided := by
    intro id row hRow hDecided
    obtain ⟨next, hNext, hStatus⟩ := h.decided id row hRow hDecided
    obtain ⟨last, hLast, hSame⟩ := h'.decided id next hNext (hStatus ▸ hDecided)
    exact ⟨last, hLast, hSame.trans hStatus⟩

/-- A new request is pending, and nobody has claimed it. -/
theorem World.Inv.mint (h : w.Inv) {id : String} {row : Row} (hNew : Entries.get id w.table = none)
    (hPending : row.status = .pending) (hCount : row.parkedAfterRefusals = 0) :
    World.Inv { w with table := Entries.set id row w.table } ∧ w.table.Keeps (Entries.set id row w.table) := by
  have hGet : ∀ other, Entries.get other (Entries.set id row w.table) =
      if id = other then some row else Entries.get other w.table := fun other => Entries.get_set ..
  have hKeeps : w.table.Keeps (Entries.set id row w.table) := by
    have hOld : ∀ other old, Entries.get other w.table = some old →
        Entries.get other (Entries.set id row w.table) = some old := by
      intro other old hRow
      rw [hGet, if_neg]
      · exact hRow
      · rintro rfl
        rw [hNew] at hRow
        cases hRow
    exact ⟨fun other old hRow => ⟨old, hOld other old hRow, rfl⟩, fun other old hRow _ => ⟨old, hOld other old hRow, rfl⟩⟩
  refine ⟨⟨h.shapes, fun call hCall => (h.calls hKeeps call hCall).1, fun call hCall => (h.calls hKeeps call hCall).2,
    fun other => ?_, fun other => ?_, fun other old hOld => ?_⟩, hKeeps⟩
  · rw [h.spent, hGet]
    by_cases hId : id = other
    · subst hId
      simp [hNew, hPending]
    · rw [if_neg hId]
  · rw [h.counted, hGet]
    by_cases hId : id = other
    · subst hId
      simp [hNew, hCount]
    · rw [if_neg hId]
  · dsimp only at hOld
    rw [hGet] at hOld
    split at hOld
    · obtain rfl := Option.some.inj hOld
      omega
    · exact h.bounded other old hOld

/-- The move of requests that are all pending to a status other than consumed. -/
theorem World.Inv.move (h : w.Inv) {ids : List String} {status : Status} {time : ℚ} {claim : Option (Claim × Answer)}
    (hStatus : status ≠ .consumed) (hClaim : ∀ told ∈ claim, told.2.apply = false)
    (hPending : ∀ id ∈ ids, ∀ row ∈ Entries.get id w.table, row.status = .pending) :
    let table := (moves ids status time).foldl Table.update w.table
    World.Inv { w with table, answers := w.answers ++ claim.toList } ∧ w.table.Keeps table := by
  have hGet := get_moves ids status time w.table
  have hKeeps : w.table.Keeps ((moves ids status time).foldl Table.update w.table) := by
    constructor
    · intro id row hRow
      rw [hGet, hRow]
      refine ⟨_, rfl, ?_⟩
      split <;> rfl
    · intro id row hRow hDecided
      rw [hGet, hRow]
      refine ⟨_, rfl, ?_⟩
      dsimp only
      rw [if_neg fun hId => hDecided (hPending id hId row hRow)]
  have hTold : ∀ id, (w.answers ++ claim.toList).countP (spends id) = w.answers.countP (spends id) := by
    intro id
    have hNone : claim.toList.countP (spends id) = 0 := by
      rw [List.countP_eq_zero]
      intro told hTold
      simp [spends, hClaim told (Option.mem_toList.mp hTold)]
    rw [List.countP_append, hNone, Nat.add_zero]
  refine ⟨⟨h.shapes, fun call hCall => (h.calls hKeeps call hCall).1, fun call hCall => (h.calls hKeeps call hCall).2,
    fun id => ?_, fun id => ?_, fun id row hRow => ?_⟩, hKeeps⟩
  · rw [hTold, h.spent, hGet]
    cases hRow : Entries.get id w.table with
    | none => rfl
    | some row =>
        by_cases hId : id ∈ ids
        · simp [hId, hPending id hId row hRow, hStatus]
        · simp [hId]
  · rw [h.counted, hGet]
    cases Entries.get id w.table with
    | none => rfl
    | some row =>
        simp only [Option.map_some, Option.getD_some]
        split <;> rfl
  · dsimp only at hRow
    rw [hGet] at hRow
    obtain ⟨old, hOld, rfl⟩ := Option.map_eq_some_iff.mp hRow
    have hBound := h.bounded id old hOld
    split <;> exact hBound

theorem keeps_update {table : Table} {id : String} {change : Change}
    (hPending : ∀ row ∈ Entries.get id table, change.status.isSome → row.status = .pending) :
    table.Keeps (table.update (id, change)) := by
  have hGet := get_update table (id, change)
  constructor
  · intro other row hRow
    rw [hGet]
    split
    · exact ⟨change.apply row, by rw [hRow]; rfl, rfl⟩
    · exact ⟨row, hRow, rfl⟩
  · intro other row hRow hDecided
    rw [hGet]
    split
    · rename_i hId
      obtain rfl : id = other := hId
      refine ⟨change.apply row, by rw [hRow]; rfl, ?_⟩
      cases hStatus : change.status with
      | none => simp [Change.apply, hStatus]
      | some status => exact absurd (hPending row hRow (by simp [hStatus])) hDecided
    · exact ⟨row, hRow, rfl⟩

/-- A deferral, with the count that it has read and raised by one, where it counts. -/
theorem World.Inv.defer {w : World} (h : w.Inv) {claim : Claim} {reason : Option (Option String)} {refusals : Option ℕ}
    {answer : Answer} (hPresent : (Entries.get claim.requestId w.table).isSome)
    (hBound : ∀ n ∈ refusals, n ≤ parkedAfterRefusalBound) (hAnswer : answer.apply = false)
    (hCount : ∀ row ∈ Entries.get claim.requestId w.table, ∀ n ∈ refusals, n = row.parkedAfterRefusals + 1) :
    let table := w.table.update (claim.requestId, ⟨none, reason, refusals⟩)
    World.Inv { w with
      table
      answers := w.answers ++ [(claim, answer)]
      parked := w.parked ++ refusals.toList.map fun _ => claim.requestId } ∧ w.table.Keeps table := by
  have hGet := get_update w.table (claim.requestId, ⟨none, reason, refusals⟩)
  have hKeeps : w.table.Keeps (w.table.update (claim.requestId, ⟨none, reason, refusals⟩)) :=
    keeps_update fun row hRow hSome => by simp at hSome
  obtain ⟨read, hRead⟩ := Option.isSome_iff_exists.mp hPresent
  refine ⟨⟨h.shapes, fun call hCall => (h.calls hKeeps call hCall).1, fun call hCall => (h.calls hKeeps call hCall).2,
    fun id => ?_, fun id => ?_, fun id row hRow => ?_⟩, hKeeps⟩
  · rw [List.countP_append, h.spent, hGet]
    by_cases hId : claim.requestId = id
    · subst hId
      simp [spends, hAnswer, hRead, Change.apply]
    · simp [spends, hAnswer, hId]
  · rw [List.count_append, h.counted, hGet]
    by_cases hId : claim.requestId = id
    · subst hId
      cases hRefusals : refusals with
      | none => simp [hRead, Change.apply]
      | some n => simp [hRead, Change.apply, hCount read hRead n hRefusals]
    · have hNone : (refusals.toList.map fun _ => claim.requestId).count id = 0 := by
        rw [List.count_eq_zero]
        intro hMem
        obtain ⟨_, _, hSame⟩ := List.mem_map.mp hMem
        exact hId hSame
      rw [hNone, Nat.add_zero, if_neg hId]
  · dsimp only at hRow
    rw [hGet] at hRow
    split at hRow
    · obtain ⟨old, hOld, rfl⟩ := Option.map_eq_some_iff.mp hRow
      cases hRefusals : refusals with
      | none => simpa [Change.apply] using h.bounded _ old hOld
      | some n => simpa [Change.apply] using hBound n hRefusals
    · exact h.bounded id row hRow

/-- A request that is spent was pending. -/
theorem World.Inv.spend {w : World} (h : w.Inv) {claim : Claim} {time : ℚ} {reason : Option (Option String)}
    {answer : Answer} (hPresent : (Entries.get claim.requestId w.table).isSome) (hAnswer : answer.apply = true)
    (hPending : ∀ row ∈ Entries.get claim.requestId w.table, row.status = .pending) :
    let table := w.table.update (claim.requestId, ⟨some (.consumed, time), reason, none⟩)
    World.Inv { w with table, answers := w.answers ++ [(claim, answer)] } ∧ w.table.Keeps table := by
  have hGet := get_update w.table (claim.requestId, ⟨some (.consumed, time), reason, none⟩)
  have hKeeps : w.table.Keeps (w.table.update (claim.requestId, ⟨some (.consumed, time), reason, none⟩)) :=
    keeps_update fun row hRow _ => hPending row hRow
  obtain ⟨read, hRead⟩ := Option.isSome_iff_exists.mp hPresent
  refine ⟨⟨h.shapes, fun call hCall => (h.calls hKeeps call hCall).1, fun call hCall => (h.calls hKeeps call hCall).2,
    fun id => ?_, fun id => ?_, fun id row hRow => ?_⟩, hKeeps⟩
  · rw [List.countP_append, h.spent, hGet]
    by_cases hId : claim.requestId = id
    · subst hId
      simp [spends, hAnswer, hRead, Change.apply, hPending read hRead]
    · simp [spends, hAnswer, hId]
  · rw [h.counted, hGet]
    by_cases hId : claim.requestId = id
    · subst hId
      simp [hRead, Change.apply]
    · rw [if_neg hId]
  · dsimp only at hRow
    rw [hGet] at hRow
    split at hRow
    · obtain ⟨old, hOld, rfl⟩ := Option.map_eq_some_iff.mp hRow
      simpa [Change.apply] using h.bounded _ old hOld
    · exact h.bounded id row hRow

/-- The commit of a call on rows that are current. -/
theorem World.Inv.commit {next : World} (h : w.Inv) {call : Decision} (hShape : Shape call)
    (hPresent : ∀ change ∈ call.changes, (Entries.get change.1 w.table).isSome)
    (hCurrent : ∀ change ∈ call.changes, ∀ row ∈ Entries.get change.1 w.table, (change.2.status.isSome → row.status = .pending) ∧ ∀ n ∈ change.2.parkedAfterRefusals, n = row.parkedAfterRefusals + 1)
    (hCommit : w.commit call = some next) : next.Inv ∧ w.table.Keeps next.table := by
  cases hShape with
  | moved ids status time minted claim hStatus hMinted hClaim =>
      have hPending : ∀ id ∈ ids, ∀ row ∈ Entries.get id w.table, row.status = .pending := by
        intro id hId row hRow
        exact (hCurrent (id, { status := some (status, time) }) (List.mem_map.mpr ⟨id, hId, rfl⟩) row hRow).1 rfl
      obtain ⟨hMoved, hKeeps⟩ := h.move hStatus hClaim hPending
      have hParked : ((moves ids status time).filter (·.2.parkedAfterRefusals.isSome)).map Prod.fst = [] := by
        rw [List.map_eq_nil_iff, List.filter_eq_nil_iff]
        intro change hChange
        obtain ⟨id, -, rfl⟩ := List.mem_map.mp hChange
        simp
      unfold World.commit at hCommit
      dsimp only at hCommit
      rw [hParked, List.append_nil] at hCommit
      split at hCommit
      · obtain rfl := Option.some.inj hCommit
        exact ⟨hMoved, hKeeps⟩
      · rename_i id row
        split at hCommit
        · cases hCommit
        · rename_i hFree
          obtain rfl := Option.some.inj hCommit
          obtain ⟨hRowPending, hRowCount⟩ := hMinted _ rfl
          obtain ⟨hBoth, hMore⟩ := hMoved.mint (by simpa using hFree) hRowPending hRowCount
          exact ⟨hBoth, hKeeps.trans hMore⟩
  | deferred claim reason refusals answer hBound hAnswer =>
      have hRow := hCurrent _ (List.mem_singleton_self _)
      obtain ⟨hDeferred, hKeeps⟩ := @World.Inv.defer w h claim reason refusals answer
        (hPresent _ (List.mem_singleton_self _)) hBound hAnswer fun row hGet => (hRow row hGet).2
      obtain rfl := Option.some.inj hCommit
      refine ⟨?_, hKeeps⟩
      cases refusals <;> exact hDeferred
  | spent claim time reason answer hAnswer hSource =>
      have hRow := hCurrent _ (List.mem_singleton_self _)
      obtain ⟨hSpent, hKeeps⟩ := @World.Inv.spend w h claim time reason answer
        (hPresent _ (List.mem_singleton_self _)) hAnswer fun row hGet => (hRow row hGet).1 rfl
      obtain rfl := Option.some.inj hCommit
      refine ⟨?_, hKeeps⟩
      show World.Inv ⟨_, _, _, w.parked ++ []⟩
      rw [List.append_nil]
      exact hSpent

/-- One step. -/
theorem World.Inv.step {w next : World} {action : Action} (h : w.Inv) (hCurrent : w.Current action)
    (hStep : w.step action = some next) : next.Inv ∧ w.table.Keeps next.table := by
  have hSame : w.table.Keeps w.table := ⟨fun _ row hRow => ⟨row, hRow, rfl⟩, fun _ row hRow _ => ⟨row, hRow, rfl⟩⟩
  cases action with
  | pendingForAccount accountId now =>
      obtain rfl := Option.some.inj hStep
      refine ⟨h.read (shape_pendingForAccount ..) (present_moves fun id hId => ?_) (by simp [pendingForAccount]), hSame⟩
      have hSorted := (List.filter_sublist.map Prod.fst).subset hId
      exact pendingOf_subset _ _ id (((List.perm_insertionSort _ _).map Prod.fst).mem_iff.mp hSorted)
  | create accountId profile id repoLabel environment now =>
      obtain rfl := Option.some.inj hStep
      exact ⟨h.read (shape_create ..) (present_moves (pendingOf_subset _ _)) (by simp [create]), hSame⟩
  | cancel accountId requestId now =>
      obtain rfl := Option.some.inj hStep
      refine ⟨h.read (shape_cancel ..) ?_ ?_, hSame⟩
      · unfold cancel
        split
        · simp
        · rename_i row hRow
          split
          · simp [moves, hRow]
          · simp
      · unfold cancel
        split
        · simp
        · split <;> simp
  | claim args now =>
      obtain rfl := Option.some.inj hStep
      exact ⟨h.read (shape_claim ..) (claim_read ..).1 (claim_read ..).2, hSame⟩
  | commit i =>
      unfold World.step at hStep
      dsimp only at hStep
      split at hStep
      · cases hStep
      · rename_i call hCall
        have hMem := List.mem_of_getElem? hCall
        exact (h.drop i).commit (h.shapes call hMem) (h.present call hMem) (hCurrent call hCall) hStep
  | drop i =>
      obtain rfl := Option.some.inj hStep
      exact ⟨h.drop i, hSame⟩

theorem inv_empty : World.Inv {} where
  shapes := by simp
  present := by simp
  known := by simp
  spent := by simp [Entries.get]
  counted := by simp [Entries.get]
  bounded := by simp [Entries.get]

/-- In every interleaving in which a call commits to rows as it has read them a tap is
spent once, a schedule's wake or one of an unknown profile spends none, a live tap is
refused as parked after the event no more often than the bound says, and a request that
was decided keeps its status. -/
theorem tap_is_spent_once {w : World} (hReach : Machine.Reach World.step World.Current {} w) :
    w.Lawful ∧ ∀ later, Machine.Reach World.step World.Current w later → w.Kept later := by
  have hInv : w.Inv := hReach.invariant World.Inv inv_empty fun _ _ _ h hCurrent hStep => (h.step hCurrent hStep).1
  refine ⟨hInv.lawful, fun later hLater => ?_⟩
  have hBoth := hLater.invariant (fun s => s.Inv ∧ w.table.Keeps s.table)
    ⟨hInv, fun _ row hRow => ⟨row, hRow, rfl⟩, fun _ row hRow _ => ⟨row, hRow, rfl⟩⟩ fun s action t h hCurrent hStep => by
      obtain ⟨hNext, hKeeps⟩ := h.1.step hCurrent hStep
      exact ⟨hNext, h.2.trans hKeeps⟩
  exact hBoth.2.decided

instance (w : World) : DecidablePred w.Current
  | .commit i => inferInstanceAs (Decidable (∀ call ∈ w.calls[i]?, ∀ change ∈ call.changes,
      ∀ row ∈ Entries.get change.1 w.table, _ ∧ ∀ n ∈ change.2.parkedAfterRefusals, _))
  | .pendingForAccount _ _ | .create .. | .cancel .. | .claim .. | .drop _ => isTrue trivial

def wakeClaim : Claim := ⟨"a-1", "w-1", some "telegram", none, none, none⟩

/-- A tap is minted, refused to the schedule, and spent by the next wake. -/
theorem tap_is_spent : ∃ w : World, (w.Lawful ∧ ∀ later, Machine.Reach World.step World.Current w later → w.Kept later) ∧
    w.answers.countP (spends "w-1") = 1 := by
  let actions : List Action :=
    [.create "a-1" "opus" "w-1" none none 0, .commit 0, .claim { wakeClaim with source := some "schedule" } 5, .commit 0,
      .claim wakeClaim 10, .commit 0]
  have hRun : (Machine.follow World.step World.Current {} actions).any (fun w => w.answers.countP (spends "w-1") = 1) =
      true := by decide +kernel
  obtain ⟨w, hReached, hOnce⟩ := (Option.any_eq_true ..).mp hRun
  exact ⟨w, tap_is_spent_once (.follow .refl hReached), of_decide_eq_true hOnce⟩

/-- Two daemons read the same pending tap; both are told to spend it. -/
theorem tap_is_spent_twice : ∃ w : World, Machine.Reach World.step (fun _ _ => True) {} w ∧ ¬w.Lawful := by
  let actions : List Action :=
    [.create "a-1" "opus" "w-1" none none 0, .commit 0, .claim wakeClaim 10, .claim wakeClaim 10, .commit 0, .commit 0]
  have hRun : (Machine.follow World.step (fun _ _ => True) {} actions).any (fun w => w.answers.countP (spends "w-1") = 2) =
      true := by decide +kernel
  obtain ⟨w, hReached, hTwice⟩ := (Option.any_eq_true ..).mp hRun
  refine ⟨w, .follow .refl hReached, fun h => ?_⟩
  have hOnce := h.once "w-1"
  have hTwo : w.answers.countP (spends "w-1") = 2 := of_decide_eq_true hTwice
  omega

end Brnrd.Taps
