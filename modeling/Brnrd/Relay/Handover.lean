import Brnrd.Relay.Lock

/-! What the two consumers take in, in every interleaving with failures and crashes: one
polls at a time, no cursor passes an event that nobody has taken in, and an event is one
consumer's where each starts from what the other has taken in. -/
namespace Brnrd.Relay

/-- The consumer has the lock. -/
def Stage.holds : Stage → Prop
  | .off | .idle | .free | .leaving => False
  | _ => True

/-- The consumer waits for a poll, or is at its page. -/
def Stage.polls : Stage → Prop
  | .polling | .ingesting .. => True
  | _ => False

/-- The consumer has the lock, and has adopted the cursor of the record. -/
def Stage.adopted : Stage → Prop
  | .polling | .ingesting .. | .saved | .rewriting _ true | .done => True
  | _ => False

theorem Stage.polls.holds {stage : Stage} (h : stage.polls) : stage.holds := by
  cases stage <;> first | exact h | trivial

namespace World

/-- Every event up to here was taken in. -/
def Covered (w : World) (n : ℕ) : Prop :=
  ∀ seq ∈ w.events, seq ≤ n → ∃ c, (c, seq) ∈ w.ingested

/-- At most one consumer polls; no cursor passes an event that nobody has taken in. -/
structure Safe (w : World) : Prop where
  one : ∀ c d, (w.party c).stage.polls → (w.party d).stage.polls → c = d
  cursor : ∀ c, w.Covered (w.party c).cursor
  record : ∀ n ∈ w.record, w.Covered n

/-- Every event is one consumer's. -/
def Apart (w : World) : Prop :=
  ∀ c d seq, (c, seq) ∈ w.ingested → (d, seq) ∈ w.ingested → c = d

/-- A consumer that begins to poll under the lock starts at or above every event that the
other has taken in, from its own cursor or from the record as it can be read. -/
def HandsOver (w : World) : Action → Prop
  | .next c => (w.party c).stage = .held →
      ∀ item ∈ w.ingested, item.1 = c.other → item.2 ≤ max (w.party c).cursor (w.record.getD 0)
  | _ => True

/-- What holds of a consumer where it is. -/
def Sound (w : World) (party : Party) : Prop :=
  match party.stage with
  | .locked (some n) | .rewriting (some n) _ => n ≤ w.top ∧ w.Covered n
  | .ingesting page cursor failed => (party.cursor ≤ cursor ∧ cursor ≤ w.top) ∧ (∀ seq ∈ page, party.cursor < seq) ∧
      (failed = false → ∀ seq ∈ w.events, seq ≤ cursor → (∃ c, (c, seq) ∈ w.ingested) ∨ seq ∈ page)
  | _ => True

structure Inv (w : World) : Prop where
  sorted : w.events.Pairwise (· < ·)
  top : ∀ seq ∈ w.events, seq ≤ w.top
  closed : ∀ seq ∈ w.closed, ∃ c, (c, seq) ∈ w.ingested
  owner : ∀ c, (w.party c).stage.holds → w.flock = some c
  cursor : ∀ c, (w.party c).cursor ≤ w.top ∧ w.Covered (w.party c).cursor
  record : ∀ n ∈ w.record, n ≤ w.top ∧ w.Covered n
  sound : ∀ c, w.Sound (w.party c)

theorem inv_empty : Inv {} where
  sorted := .nil
  top := by simp
  closed := by simp
  owner := fun _ h => h.elim
  cursor := fun _ => ⟨Nat.le_refl 0, by simp [Covered]⟩
  record := by simp
  sound := fun _ => trivial

theorem Inv.safe {w : World} (h : w.Inv) : w.Safe where
  one := by
    intro c d hC hD
    have hSame := (h.owner c hC.holds).symm.trans (h.owner d hD.holds)
    exact Option.some.inj hSame
  cursor := fun c => (h.cursor c).2
  record := fun n hn => (h.record n hn).2

variable {w later : World} {c : Consumer}

/-- One consumer moves: the lock stays, or is taken where it was free, or is let go by the
consumer that has it. -/
theorem Inv.moves {flock : Option Consumer} {record : Option ℕ} {want : Bool} {party : Party} (h : w.Inv)
    (hOwner : party.stage.holds → flock = some c) (hFlock : flock = w.flock ∨ w.flock = none ∨ w.flock = some c)
    (hCursor : party.cursor ≤ w.top ∧ w.Covered party.cursor) (hRecord : ∀ n ∈ record, n ≤ w.top ∧ w.Covered n)
    (hSound : w.Sound party) : Inv { w with flock, record, want, party := Function.update w.party c party } where
  sorted := h.sorted
  top := h.top
  closed := h.closed
  owner := by
    intro d hHolds
    by_cases hSame : d = c
    · subst hSame
      exact hOwner (by simpa using hHolds)
    · have hOld := h.owner d (by simpa [hSame] using hHolds)
      rcases hFlock with hKept | hFree | hMine
      · exact hKept.trans hOld
      · rw [hFree] at hOld
        cases hOld
      · exact absurd (Option.mem_unique hOld hMine) hSame
  cursor := by
    intro d
    dsimp only
    by_cases hSame : d = c
    · subst hSame
      rw [Function.update_self]
      exact hCursor
    · rw [Function.update_of_ne hSame]
      exact h.cursor d
  record := hRecord
  sound := by
    intro d
    dsimp only
    by_cases hSame : d = c
    · subst hSame
      rw [Function.update_self]
      exact hSound
    · rw [Function.update_of_ne hSame]
      exact h.sound d

variable {n seq limit since : ℕ}

theorem Covered.ingest (h : w.Covered n) : (w.ingest c seq).Covered n := by
  unfold World.ingest
  split
  · exact h
  · intro other hOther hLe
    obtain ⟨d, hD⟩ := h other hOther hLe
    exact ⟨d, List.mem_append_left _ hD⟩

/-- What a consumer takes in takes nothing from what was taken in. -/
theorem mem_ingest (w : World) (c : Consumer) (seq : ℕ) (item : Consumer × ℕ) :
    item ∈ (w.ingest c seq).ingested ↔ item ∈ w.ingested ∨ item = (c, seq) := by
  unfold World.ingest
  split
  · rename_i hKnown
    exact ⟨.inl, fun h => h.elim id fun hSame => hSame ▸ hKnown⟩
  · simp

theorem ingest_same (w : World) (c : Consumer) (seq : ℕ) : (w.ingest c seq).events = w.events ∧
    (w.ingest c seq).closed = w.closed ∧ (w.ingest c seq).top = w.top ∧ (w.ingest c seq).flock = w.flock ∧
      (w.ingest c seq).record = w.record ∧ (w.ingest c seq).want = w.want ∧ (w.ingest c seq).party = w.party := by
  unfold World.ingest
  split <;> exact ⟨rfl, rfl, rfl, rfl, rfl, rfl, rfl⟩

theorem Sound.ingest {party : Party} (h : w.Sound party) : (w.ingest c seq).Sound party := by
  obtain ⟨hEvents, -, hTop, -⟩ := ingest_same w c seq
  unfold World.Sound at h ⊢
  split at h
  · rw [hTop]
    exact ⟨h.1, h.2.ingest⟩
  · rw [hTop]
    exact ⟨h.1, h.2.ingest⟩
  · rw [hTop, hEvents]
    refine ⟨h.1, h.2.1, fun hFailed other hOther hLe => (h.2.2 hFailed other hOther hLe).imp_left fun ⟨d, hD⟩ => ⟨d, ?_⟩⟩
    exact (mem_ingest w c seq _).mpr (.inl hD)
  · trivial

theorem Inv.ingest (h : w.Inv) : (w.ingest c seq).Inv := by
  obtain ⟨hEvents, hClosed, hTop, hFlock, hRecord, -, hParty⟩ := ingest_same w c seq
  refine ⟨by rw [hEvents]; exact h.sorted, by rw [hEvents, hTop]; exact h.top, ?_, by rw [hFlock, hParty]; exact h.owner, ?_,
    ?_, ?_⟩
  · rw [hClosed]
    intro other hOther
    obtain ⟨d, hD⟩ := h.closed other hOther
    exact ⟨d, (mem_ingest w c seq _).mpr (.inl hD)⟩
  · rw [hParty, hTop]
    exact fun d => ⟨(h.cursor d).1, (h.cursor d).2.ingest⟩
  · rw [hRecord, hTop]
    exact fun n hn => ⟨(h.record n hn).1, (h.record n hn).2.ingest⟩
  · rw [hParty]
    exact fun d => (h.sound d).ingest

/-- Up to the last event of a page every event was taken in before or is on it. -/
theorem serve_complete (h : w.Inv) {cursor : ℕ} (hSince : w.Covered since)
    (hCursor : cursor = ((w.serve since limit).getLast?).getD since) :
    ∀ seq ∈ w.events, seq ≤ cursor → (∃ c, (c, seq) ∈ w.ingested) ∨ seq ∈ w.serve since limit := by
  intro seq hSeq hLe
  by_cases hOld : seq ≤ since
  · exact .inl (hSince seq hSeq hOld)
  · by_cases hClosed : seq ∈ w.closed
    · exact .inl (h.closed seq hClosed)
    · refine .inr ?_
      let rows := w.events.filter fun seq => decide (since < seq ∧ seq ∉ w.closed)
      have hRow : seq ∈ rows := List.mem_filter.mpr ⟨hSeq, decide_eq_true ⟨Nat.lt_of_not_le hOld, hClosed⟩⟩
      have hSorted : rows.Pairwise (· < ·) := h.sorted.sublist List.filter_sublist
      cases hLast : (w.serve since limit).getLast? with
      | none =>
          rw [hLast] at hCursor
          exact absurd (hLe.trans_eq hCursor) hOld
      | some last =>
          rw [hLast] at hCursor
          have hMem : last ∈ rows.take limit := List.mem_of_getLast? hLast
          rw [← List.take_append_drop limit rows] at hRow hSorted
          rcases List.mem_append.mp hRow with hTaken | hLater
          · exact hTaken
          · have hLess := (List.pairwise_append.mp hSorted).2.2 last hMem seq hLater
            rw [hCursor] at hLe
            exact absurd hLess (Nat.not_lt.mpr hLe)

theorem mem_serve (h : seq ∈ w.serve since limit) : seq ∈ w.events ∧ since < seq := by
  obtain ⟨hMem, hBoth⟩ := List.mem_filter.mp (List.mem_of_mem_take h)
  exact ⟨hMem, (of_decide_eq_true hBoth).1⟩

/-- A move of one consumer that keeps its cursor. -/
theorem Inv.enters {flock : Option Consumer} {record : Option ℕ} {want : Bool} {stage : Stage} (h : w.Inv)
    (hOwner : stage.holds → flock = some c) (hFlock : flock = w.flock ∨ w.flock = none ∨ w.flock = some c)
    (hRecord : ∀ n ∈ record, n ≤ w.top ∧ w.Covered n) (hSound : w.Sound { w.party c with stage }) :
    Inv (enter { w with flock, record, want } c stage) :=
  h.moves hOwner hFlock (h.cursor c) hRecord hSound

/-- A consumer that has got nowhere, with the lock as it is or let go. -/
theorem Inv.releases {want : Bool} {stage : Stage} (h : w.Inv) (hStage : ¬stage.holds) (hSound : w.Sound { w.party c with stage }) :
    Inv (enter { w.release c with want } c stage) := by
  unfold World.release
  split
  · rename_i hMine
    exact h.enters (fun hHolds => absurd hHolds hStage) (.inr (.inr hMine)) h.record hSound
  · exact h.enters (fun hHolds => absurd hHolds hStage) (.inl rfl) h.record hSound

theorem Inv.tryAcquire (h : w.Inv) : (w.tryAcquire c).Inv := by
  unfold World.tryAcquire
  split
  · rename_i hFree
    refine h.enters (fun _ => rfl) (.inr (.inl hFree)) h.record ?_
    cases hRecord : w.record with
    | none => trivial
    | some n => exact h.record n hRecord
  · rename_i holder hFlock
    split
    · rename_i hSame
      exact @Inv.enters w c w.flock w.record w.want _ h (fun _ => hSame ▸ hFlock) (.inl rfl) h.record trivial
    · exact @Inv.enters w c w.flock w.record w.want _ h (fun hHolds => hHolds.elim) (.inl rfl) h.record trivial

theorem Inv.next (h : w.Inv) (hStep : w.next limit c = some later) : later.Inv := by
  have hOwner := h.owner c
  have hSound := h.sound c
  have hCursor := h.cursor c
  unfold World.next at hStep
  split at hStep <;> rename_i hStage <;> rw [hStage] at hOwner <;> simp only [Sound, hStage] at hSound
  · cases hStep
  · split at hStep
    · split at hStep
      · cases hStep
      · obtain rfl := Option.some.inj hStep
        exact @Inv.enters w _ w.flock w.record w.want _ h (fun hHolds => hHolds.elim) (.inl rfl) h.record trivial
    · obtain rfl := Option.some.inj hStep
      exact h.tryAcquire
  · obtain rfl := Option.some.inj hStep
    exact h.tryAcquire
  · obtain rfl := Option.some.inj hStep
    refine @Inv.enters w _ w.flock none w.want _ h (fun _ => hOwner trivial) (.inl rfl) (by simp) ?_
    rename_i read
    cases read with
    | none => trivial
    | some n => exact hSound
  · obtain rfl := Option.some.inj hStep
    rename_i cursor polled
    refine @Inv.enters w _ w.flock cursor w.want _ h (fun _ => hOwner trivial) (.inl rfl) (fun n hn => ?_) ?_
    · obtain rfl : cursor = some n := hn
      exact hSound
    · cases polled <;> trivial
  · obtain rfl := Option.some.inj hStep
    refine @Inv.moves w _ w.flock w.record w.want _ h (fun _ => hOwner trivial) (.inl rfl) ?_ h.record trivial
    cases hRecord : w.record with
    | none => simpa using hCursor
    | some n =>
        rcases Nat.le_total (w.party c).cursor n with hLe | hLe
        · simpa [hLe] using h.record n hRecord
        · simpa [hLe] using hCursor
  · obtain rfl := Option.some.inj hStep
    refine @Inv.enters w _ w.flock w.record w.want _ h (fun _ => hOwner trivial) (.inl rfl) h.record ⟨?_, ?_, ?_⟩
    · cases hLast : (w.serve (w.party c).cursor limit).getLast? with
      | none => exact ⟨Nat.le_refl _, hCursor.1⟩
      | some last =>
          obtain ⟨hMem, hAbove⟩ := mem_serve (List.mem_of_getLast? hLast)
          exact ⟨Nat.le_of_lt hAbove, h.top last hMem⟩
    · exact fun seq hSeq => (mem_serve hSeq).2
    · exact fun _ => serve_complete h hCursor.2 rfl
  · obtain rfl := Option.some.inj hStep
    rename_i seq page cursor failed
    obtain ⟨hTop, hAbove, hPage⟩ := hSound
    obtain ⟨hEvents, -, hSameTop, hFlock, -, -, hParty⟩ := ingest_same w c seq
    refine @Inv.enters (w.ingest c seq) _ (w.ingest c seq).flock _ _ _ h.ingest (fun _ => hFlock.trans (hOwner trivial))
      (.inl rfl) h.ingest.record ⟨?_, ?_, ?_⟩
    · rw [hParty, hSameTop]
      exact hTop
    · rw [hParty]
      exact fun other hOther => hAbove other (List.mem_cons_of_mem _ hOther)
    · rw [hEvents]
      intro hFailed other hOther hLe
      rcases hPage hFailed other hOther hLe with ⟨d, hD⟩ | hMem
      · exact .inl ⟨d, (mem_ingest w c seq _).mpr (.inl hD)⟩
      · rcases List.mem_cons.mp hMem with rfl | hMem
        · exact .inl ⟨c, (mem_ingest w c _ _).mpr (.inr rfl)⟩
        · exact .inr hMem
  · obtain rfl := Option.some.inj hStep
    rename_i cursor failed
    obtain ⟨hTop, hAbove, hPage⟩ := hSound
    split
    · exact @Inv.enters w _ w.flock w.record w.want _ h (fun _ => hOwner trivial) (.inl rfl) h.record trivial
    · rename_i hFailed
      refine @Inv.moves w _ w.flock w.record w.want _ h (fun _ => hOwner trivial) (.inl rfl) ⟨hTop.2, fun seq hSeq hLe => ?_⟩
        h.record trivial
      exact (hPage (by simpa using hFailed) seq hSeq hLe).resolve_right List.not_mem_nil
  · obtain rfl := Option.some.inj hStep
    exact @Inv.enters w _ w.flock none w.want _ h (fun _ => hOwner trivial) (.inl rfl) (by simp) hCursor
  · split at hStep
    · obtain rfl := Option.some.inj hStep
      exact h.releases (fun hHolds => hHolds) trivial
    · obtain rfl := Option.some.inj hStep
      exact @Inv.enters w _ w.flock w.record w.want _ h (fun _ => hOwner trivial) (.inl rfl) h.record trivial
  · obtain rfl := Option.some.inj hStep
    exact @Inv.enters w _ w.flock w.record false _ h (fun hHolds => hHolds.elim) (.inl rfl) h.record trivial

theorem Inv.raise (h : w.Inv) (hStep : w.raise c = some later) : later.Inv := by
  have hOwner := h.owner c
  unfold World.raise at hStep
  split at hStep <;> cases hStep
  · exact @Inv.enters w _ w.flock w.record w.want _ h (fun hHolds => hHolds.elim) (.inl rfl) h.record trivial
  · exact @Inv.enters w _ w.flock w.record w.want _ h (fun hHolds => hHolds.elim) (.inl rfl) h.record trivial
  all_goals first
    | exact h
    | exact h.releases (fun hHolds => hHolds) trivial
    | (rename_i hStage
       rw [hStage] at hOwner
       exact @Inv.enters w _ w.flock w.record w.want _ h (fun _ => hOwner trivial) (.inl rfl) h.record trivial)

theorem Covered.post (h : w.Covered n) (hTop : n ≤ w.top) (hNew : w.top < seq) :
    Covered { w with events := w.events ++ [seq], top := seq } n := by
  intro other hOther hLe
  rcases List.mem_append.mp hOther with hOld | hOne
  · exact h other hOld hLe
  · obtain rfl := List.mem_singleton.mp hOne
    omega

theorem Inv.post (h : w.Inv) (hNew : w.top < seq) : Inv { w with events := w.events ++ [seq], top := seq } where
  sorted := by
    refine List.pairwise_append.mpr ⟨h.sorted, List.pairwise_singleton _ _, fun other hOther last hLast => ?_⟩
    rw [List.mem_singleton.mp hLast]
    exact Nat.lt_of_le_of_lt (h.top other hOther) hNew
  top := by
    intro other hOther
    rcases List.mem_append.mp hOther with hOld | hOne
    · exact Nat.le_of_lt (Nat.lt_of_le_of_lt (h.top other hOld) hNew)
    · exact Nat.le_of_eq (List.mem_singleton.mp hOne)
  closed := h.closed
  owner := h.owner
  cursor := fun d => ⟨Nat.le_of_lt (Nat.lt_of_le_of_lt (h.cursor d).1 hNew), (h.cursor d).2.post (h.cursor d).1 hNew⟩
  record := fun n hn => ⟨Nat.le_of_lt (Nat.lt_of_le_of_lt (h.record n hn).1 hNew), (h.record n hn).2.post (h.record n hn).1 hNew⟩
  sound := by
    intro d
    have hSound := h.sound d
    dsimp only
    unfold World.Sound at hSound ⊢
    split at hSound
    · exact ⟨Nat.le_of_lt (Nat.lt_of_le_of_lt hSound.1 hNew), hSound.2.post hSound.1 hNew⟩
    · exact ⟨Nat.le_of_lt (Nat.lt_of_le_of_lt hSound.1 hNew), hSound.2.post hSound.1 hNew⟩
    · obtain ⟨hCursor, hAbove, hPage⟩ := hSound
      refine ⟨⟨hCursor.1, Nat.le_of_lt (Nat.lt_of_le_of_lt hCursor.2 hNew)⟩, hAbove, fun hFailed other hOther hLe => ?_⟩
      rcases List.mem_append.mp hOther with hOld | hOne
      · exact hPage hFailed other hOld hLe
      · obtain rfl := List.mem_singleton.mp hOne
        omega
    · trivial

theorem Inv.step {limit : ℕ} {action : Action} (h : w.Inv) (hStep : w.step limit action = some later) : later.Inv := by
  cases action with
  | post seq =>
      dsimp only [World.step] at hStep
      split at hStep
      · rename_i hNew
        obtain rfl := Option.some.inj hStep
        exact h.post hNew
      · cases hStep
  | close seq =>
      dsimp only [World.step] at hStep
      split at hStep
      · rename_i hMem
        obtain rfl := Option.some.inj hStep
        refine ⟨h.sorted, h.top, fun other hOther => ?_, h.owner, h.cursor, h.record, h.sound⟩
        rcases List.mem_cons.mp hOther with rfl | hOld
        · obtain ⟨⟨d, other⟩, hItem, rfl⟩ := List.mem_map.mp hMem
          exact ⟨d, hItem⟩
        · exact h.closed other hOld
      · cases hStep
  | start c =>
      dsimp only [World.step] at hStep
      split at hStep
      · obtain rfl := Option.some.inj hStep
        exact @Inv.enters w _ w.flock w.record w.want _ h (fun hHolds => hHolds.elim) (.inl rfl) h.record trivial
      · obtain rfl := Option.some.inj hStep
        exact @Inv.enters w _ w.flock w.record true _ h (fun hHolds => hHolds.elim) (.inl rfl) h.record trivial
      · cases hStep
  | next c => exact h.next hStep
  | raise c => exact h.raise hStep
  | skip =>
      have hOwner := h.owner .loom
      have hSound := h.sound .loom
      dsimp only [World.step] at hStep
      split at hStep
      · rename_i seq page cursor failed hStage
        obtain rfl := Option.some.inj hStep
        rw [hStage] at hOwner
        simp only [Sound, hStage] at hSound
        exact @Inv.enters w _ w.flock w.record w.want _ h (fun _ => hOwner trivial) (.inl rfl) h.record
          ⟨hSound.1, fun other hOther => hSound.2.1 other (List.mem_cons_of_mem _ hOther), fun hFailed => by cases hFailed⟩
      · cases hStep
  | stop =>
      dsimp only [World.step] at hStep
      split at hStep <;> cases hStep <;> exact h.releases (fun hHolds => hHolds) trivial
  | crash c =>
      obtain rfl := Option.some.inj hStep
      exact h.releases (fun hHolds => hHolds) trivial

/-- An event is one consumer's, and the one that polls is past all that the other has
taken in. -/
structure Owned (w : World) : Prop where
  apart : ∀ c seq, (c, seq) ∈ w.ingested → (c.other, seq) ∉ w.ingested
  ahead : ∀ c, (w.party c).stage.adopted → ∀ seq, (c.other, seq) ∈ w.ingested → seq ≤ (w.party c).cursor

theorem owned_empty : Owned {} where
  apart := by simp
  ahead := by simp

theorem Owned.moves {flock : Option Consumer} {record : Option ℕ} {want : Bool} {party : Party} (h : w.Owned)
    (hAhead : party.stage.adopted → ∀ seq, (c.other, seq) ∈ w.ingested → seq ≤ party.cursor) :
    Owned { w with flock, record, want, party := Function.update w.party c party } where
  apart := h.apart
  ahead := by
    intro d hAdopted seq hSeq
    dsimp only at hAdopted ⊢
    by_cases hSame : d = c
    · subst hSame
      rw [Function.update_self] at hAdopted ⊢
      exact hAhead hAdopted seq hSeq
    · rw [Function.update_of_ne hSame] at hAdopted ⊢
      exact h.ahead d hAdopted seq hSeq

/-- A consumer that keeps its cursor, and polls only where it has polled. -/
theorem Owned.enters {flock : Option Consumer} {record : Option ℕ} {want : Bool} {stage : Stage} (h : w.Owned)
    (hAdopted : stage.adopted → (w.party c).stage.adopted) : Owned (enter { w with flock, record, want } c stage) :=
  h.moves fun hStage => h.ahead c (hAdopted hStage)

theorem Owned.releases {want : Bool} {stage : Stage} (h : w.Owned) (hStage : ¬stage.adopted) :
    Owned (enter { w.release c with want } c stage) := by
  unfold World.release
  split <;> exact h.enters fun hAdopted => absurd hAdopted hStage

theorem Owned.tryAcquire (h : w.Owned) : (w.tryAcquire c).Owned := by
  unfold World.tryAcquire
  split
  · exact h.enters fun hAdopted => hAdopted.elim
  · refine @Owned.enters w c w.flock w.record w.want _ h fun hAdopted => ?_
    split at hAdopted <;> exact hAdopted.elim

theorem other_other (c : Consumer) : c.other.other = c := by
  cases c <;> rfl

theorem other_ne (c : Consumer) : c.other ≠ c := by
  cases c <;> decide

theorem Stage.adopted_holds {stage : Stage} (h : stage.adopted) : stage.holds := by
  cases stage <;> first | exact h | trivial

/-- An event above the cursor of the one that polls is not the other's. -/
theorem Owned.ingest (h : w.Owned) (hInv : w.Inv) (hAdopted : (w.party c).stage.adopted) (hAbove : (w.party c).cursor < seq) :
    (w.ingest c seq).Owned := by
  have hNot : (c.other, seq) ∉ w.ingested := fun hMem => by
    have := h.ahead c hAdopted seq hMem
    omega
  refine ⟨fun d other hMem hOther => ?_, fun d hStage other hOther => ?_⟩
  · rcases (mem_ingest w c seq _).mp hMem with hOld | hNew <;> rcases (mem_ingest w c seq _).mp hOther with hBefore | hAdded
    · exact h.apart d other hOld hBefore
    · obtain ⟨hSame, rfl⟩ := Prod.mk.inj hAdded
      rw [← hSame, other_other] at hNot
      exact hNot hOld
    · obtain ⟨rfl, rfl⟩ := Prod.mk.inj hNew
      exact hNot hBefore
    · obtain ⟨rfl, -⟩ := Prod.mk.inj hNew
      exact other_ne d (Prod.mk.inj hAdded).1
  · have hParty := (ingest_same w c seq).2.2.2.2.2.2
    rw [hParty] at hStage ⊢
    rcases (mem_ingest w c seq _).mp hOther with hOld | hNew
    · exact h.ahead d hStage other hOld
    · -- the other one has not got the lock
      have hD := hInv.owner d (Stage.adopted_holds hStage)
      rw [hInv.owner c (Stage.adopted_holds hAdopted)] at hD
      exact absurd ((Prod.mk.inj hNew).1.trans (Option.some.inj hD)) (other_ne d)

theorem Owned.next (h : w.Owned) (hInv : w.Inv) (hHands : w.HandsOver (.next c)) (hStep : w.next limit c = some later) :
    later.Owned := by
  have hSound := hInv.sound c
  have hAhead := h.ahead c
  unfold World.next at hStep
  split at hStep <;> rename_i hStage <;> rw [hStage] at hAhead <;> simp only [Sound, hStage] at hSound
  · cases hStep
  · split at hStep
    · split at hStep
      · cases hStep
      · obtain rfl := Option.some.inj hStep
        exact @Owned.enters w _ w.flock w.record w.want _ h fun hAdopted => hAdopted.elim
    · obtain rfl := Option.some.inj hStep
      exact h.tryAcquire
  · obtain rfl := Option.some.inj hStep
    exact h.tryAcquire
  · obtain rfl := Option.some.inj hStep
    exact @Owned.enters w _ w.flock none w.want _ h fun hAdopted => hAdopted.elim
  · obtain rfl := Option.some.inj hStep
    rename_i cursor polled
    refine @Owned.enters w _ w.flock cursor w.want _ h fun hAdopted => ?_
    rw [hStage]
    cases polled
    · exact hAdopted.elim
    · trivial
  · obtain rfl := Option.some.inj hStep
    exact @Owned.moves w _ w.flock w.record w.want _ h fun _ seq hSeq => hHands hStage _ hSeq rfl
  · obtain rfl := Option.some.inj hStep
    exact @Owned.enters w _ w.flock w.record w.want _ h fun _ => hStage ▸ trivial
  · obtain rfl := Option.some.inj hStep
    rename_i seq page cursor failed
    have hAdopted : (w.party c).stage.adopted := by
      rw [hStage]
      trivial
    have hParty := (ingest_same w c seq).2.2.2.2.2.2
    refine @Owned.enters (w.ingest c seq) _ (w.ingest c seq).flock _ _ _
      (h.ingest hInv hAdopted (hSound.2.1 seq List.mem_cons_self)) fun _ => ?_
    rw [hParty]
    exact hAdopted
  · obtain rfl := Option.some.inj hStep
    split
    · exact @Owned.enters w _ w.flock w.record w.want _ h fun _ => hStage ▸ trivial
    · exact @Owned.moves w _ w.flock w.record w.want _ h fun _ seq hSeq => Nat.le_trans (hAhead trivial seq hSeq) hSound.1.1
  · obtain rfl := Option.some.inj hStep
    exact @Owned.enters w _ w.flock none w.want _ h fun _ => hStage ▸ trivial
  · split at hStep
    · obtain rfl := Option.some.inj hStep
      exact h.releases fun hAdopted => hAdopted
    · obtain rfl := Option.some.inj hStep
      exact @Owned.enters w _ w.flock w.record w.want _ h fun _ => hStage ▸ trivial
  · obtain rfl := Option.some.inj hStep
    exact @Owned.enters w _ w.flock w.record false _ h fun hAdopted => hAdopted.elim

theorem Owned.raise (h : w.Owned) (hStep : w.raise c = some later) : later.Owned := by
  unfold World.raise at hStep
  split at hStep <;> cases hStep
  · exact @Owned.enters w _ w.flock w.record w.want _ h fun hAdopted => hAdopted.elim
  · exact @Owned.enters w _ w.flock w.record w.want _ h fun hAdopted => hAdopted.elim
  all_goals first
    | exact h
    | exact h.releases fun hAdopted => hAdopted
    | (rename_i hStage
       exact @Owned.enters w _ w.flock w.record w.want _ h fun _ => hStage ▸ trivial)

theorem Owned.step {limit : ℕ} {action : Action} (h : w.Owned) (hInv : w.Inv) (hHands : w.HandsOver action)
    (hStep : w.step limit action = some later) : later.Owned := by
  cases action with
  | post seq =>
      dsimp only [World.step] at hStep
      split at hStep <;> cases hStep
      exact ⟨h.apart, h.ahead⟩
  | close seq =>
      dsimp only [World.step] at hStep
      split at hStep <;> cases hStep
      exact ⟨h.apart, h.ahead⟩
  | start c =>
      dsimp only [World.step] at hStep
      split at hStep <;> cases hStep
      · exact @Owned.enters w _ w.flock w.record w.want _ h fun hAdopted => hAdopted.elim
      · exact @Owned.enters w _ w.flock w.record true _ h fun hAdopted => hAdopted.elim
  | next c => exact h.next hInv hHands hStep
  | raise c => exact h.raise hStep
  | skip =>
      dsimp only [World.step] at hStep
      split at hStep
      · rename_i hStage
        obtain rfl := Option.some.inj hStep
        exact @Owned.enters w _ w.flock w.record w.want _ h fun _ => hStage ▸ trivial
      · cases hStep
  | stop =>
      dsimp only [World.step] at hStep
      split at hStep <;> cases hStep <;> exact h.releases fun hAdopted => hAdopted
  | crash c =>
      obtain rfl := Option.some.inj hStep
      exact h.releases fun hAdopted => hAdopted

theorem Owned.separate (h : w.Owned) : w.Apart := by
  intro c d seq hC hD
  have hNot := h.apart c seq hC
  cases c <;> cases d <;> first | rfl | exact absurd hD hNot

end World

/-- In every interleaving one consumer polls at a time and no cursor passes an event that
nobody has taken in; where each begins at or above what the other has taken in, no event
is taken in by both. -/
theorem relay_is_handed_over {limit : ℕ} {w : World} (hReach : Machine.Reach (World.step limit) World.HandsOver {} w) :
    w.Safe ∧ w.Apart := by
  have hBoth := hReach.invariant (fun w => w.Inv ∧ w.Owned) ⟨World.inv_empty, World.owned_empty⟩
    fun _ _ _ h hHands hStep => ⟨h.1.step hStep, h.2.step h.1 hHands hStep⟩
  exact ⟨hBoth.1.safe, hBoth.2.separate⟩

instance (w : World) : DecidablePred w.HandsOver
  | .next c => inferInstanceAs (Decidable ((w.party c).stage = .held →
      ∀ item ∈ w.ingested, item.1 = c.other → item.2 ≤ max (w.party c).cursor (w.record.getD 0)))
  | .post _ | .close _ | .start _ | .raise _ | .skip | .stop | .crash _ => isTrue trivial

/-- The daemon takes an event in and the loom, which takes over, the next one. -/
theorem relay_changes_hands : ∃ w : World, (w.Safe ∧ w.Apart) ∧ w.ingested = [(.daemon, 1), (.loom, 2)] := by
  let actions : List Action :=
    [.post 1, .start .daemon] ++ List.replicate 12 (.next .daemon) ++ [.start .loom, .post 2] ++ List.replicate 8 (.next .loom)
  have hRun : (Machine.follow (World.step 200) World.HandsOver {} actions).any
      (fun w => w.ingested = [(.daemon, 1), (.loom, 2)]) = true := by decide +kernel
  obtain ⟨w, hReached, hSame⟩ := (Option.any_eq_true ..).mp hRun
  exact ⟨w, relay_is_handed_over (.follow .refl hReached), of_decide_eq_true hSame⟩

/-- The daemon fails after it has taken a page in and before it rewrites the record; the
loom takes the page in again. -/
theorem event_is_taken_in_twice : ∃ w : World, Machine.Reach (World.step 200) (fun _ _ => True) {} w ∧ ¬w.Apart := by
  let actions : List Action :=
    [.post 1, .start .daemon] ++ List.replicate 8 (.next .daemon) ++ [.raise .daemon, .start .loom] ++
      List.replicate 6 (.next .loom)
  have hRun : (Machine.follow (World.step 200) (fun _ _ => True) {} actions).any
      (fun w => (.daemon, 1) ∈ w.ingested ∧ (.loom, 1) ∈ w.ingested) = true := by decide +kernel
  obtain ⟨w, hReached, hBoth⟩ := (Option.any_eq_true ..).mp hRun
  obtain ⟨hDaemon, hLoom⟩ := of_decide_eq_true hBoth
  exact ⟨w, .follow .refl hReached, fun h => by cases h _ _ 1 hDaemon hLoom⟩

end Brnrd.Relay
