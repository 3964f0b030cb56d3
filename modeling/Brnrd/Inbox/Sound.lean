import Brnrd.Inbox.Relay

/-! What holds of the relay in every interleaving: what each call has read ages into what
is there, and no two calls hold the same `seq` or the same id. -/
namespace Brnrd.Inbox

variable {δ : Type}

/-- The `seq` of a row that is inserted and not committed. -/
def Stage.pending : Stage δ → Option ℕ
  | .merging _ _ _ _ seq => some seq
  | .minted event => some event.seq
  | _ => none

/-- The id that a call of `enqueue` has drawn. -/
def Stage.draws : Stage δ → Option String
  | .seeking item _ _ | .merging item _ _ _ _ | .minting item => some item.eventId
  | .minted event => some event.eventId
  | _ => none

namespace World

def page (w : World δ) : List (Event δ) :=
  match w.poll with
  | some (.fetched _ page) => page
  | _ => []

def seqs (w : World δ) : List ℕ :=
  w.committed.map fun item => item.2.seq

/-- An event as it was read: it was committed, and what is there now has aged from it. -/
structure Copied (w : World δ) (event : Event δ) : Prop where
  source : ∃ item ∈ w.committed, item.2.seq = event.seq ∧ item.2.eventId = event.eventId
  aged : ∀ row ∈ w.table, row.seq = event.seq → Aged event row

/-- What holds of a call where it is. -/
def Holds (w : World δ) : Stage δ → Prop
  | .merging _ _ _ existing _ =>
      w.Copied existing ∧ existing.Fine w.clock ∧ existing.status = .queued ∧ existing.body.isSome
  | .minted event => event.Fine w.clock ∧ event.status = .queued
  | .reading post event | .adopted post event | .forwarded post event =>
      w.Copied event ∧ event.Fine w.clock ∧ event.eventId = post.eventId
  | .sweeping rows now => (∀ event ∈ rows, w.Copied event ∧ event.Fine w.clock ∧ event.status = .queued) ∧ now ≤ w.clock
  | .collecting now => now ≤ w.clock
  | .seeking .. | .minting _ => True

structure Sound (w : World δ) : Prop where
  fine : ∀ row ∈ w.table, row.Fine w.clock
  copied : ∀ row ∈ w.table, w.Copied row
  distinct : Set.InjOn Event.seq {event | event ∈ w.table}
  ids : Set.InjOn Event.eventId {event | event ∈ w.table}
  committed : ∀ item ∈ w.committed, item.2.seq < w.nextSeq ∧ item.2.eventId ∈ w.drawn ∧ item.1 < w.started
  stages : ∀ call stage, w.calls call = some stage → call < w.started ∧ w.Holds stage
  pending : ∀ call stage seq, w.calls call = some stage → stage.pending = some seq →
    seq < w.nextSeq ∧ seq ∉ w.seqs ∧
      ∀ other next, w.calls other = some next → next.pending = some seq → other = call
  draws : ∀ call stage id, w.calls call = some stage → stage.draws = some id →
    id ∈ w.drawn ∧ (∀ item ∈ w.committed, item.2.eventId ≠ id ∧ item.1 ≠ call) ∧
      ∀ other next, w.calls other = some next → next.draws = some id → other = call
  page : ∀ event ∈ w.page, w.Copied event
  returned : ∀ event ∈ w.returned, w.Copied event

theorem sound_empty : Sound ({} : World δ) where
  fine := by simp
  copied := by simp
  distinct := by simp
  ids := by simp
  committed := by simp
  stages := by simp
  pending := by simp
  draws := by simp
  page := by simp [page]
  returned := by simp

/-- The rows of the later table are the rows of the table, aged, and new ones. -/
structure Follows (w later : World δ) : Prop where
  table : ∀ row ∈ later.table, (∃ old ∈ w.table, Aged old row) ∨ row.seq ∉ w.seqs
  committed : w.committed ⊆ later.committed
  clock : w.clock ≤ later.clock

variable {w later : World δ}

variable {event existing : Event δ}

theorem Copied.follows (h : w.Copied event) (hFollows : w.Follows later) : later.Copied event := by
  obtain ⟨item, hItem, hSeq, hId⟩ := h.source
  refine ⟨⟨item, hFollows.committed hItem, hSeq, hId⟩, fun row hRow hSame => ?_⟩
  rcases hFollows.table row hRow with ⟨old, hOld, hAged⟩ | hNew
  · exact (h.aged old hOld (hAged.seq.symm.trans hSame)).trans hAged
  · exact absurd (List.mem_map.mpr ⟨item, hItem, hSeq.trans hSame.symm⟩) hNew

theorem Holds.follows {stage : Stage δ} (h : w.Holds stage) (hFollows : w.Follows later) : later.Holds stage := by
  have hClock := hFollows.clock
  cases stage with
  | seeking | minting => trivial
  | merging item group attempts existing seq =>
      exact ⟨h.1.follows hFollows, h.2.1.later hClock, h.2.2⟩
  | minted event => exact ⟨h.1.later hClock, h.2⟩
  | reading post event | adopted post event | forwarded post event =>
      exact ⟨h.1.follows hFollows, h.2.1.later hClock, h.2.2⟩
  | sweeping rows now =>
      refine ⟨fun event hEvent => ?_, h.2.trans hClock⟩
      obtain ⟨hCopied, hFine, hQueued⟩ := h.1 event hEvent
      exact ⟨hCopied.follows hFollows, hFine.later hClock, hQueued⟩
  | collecting now => exact le_trans h hClock

theorem follows_of_ages (hTable : Ages w.table later.table) (hCommitted : later.committed = w.committed)
    (hClock : w.clock ≤ later.clock) : w.Follows later where
  table := by
    obtain ⟨write, hWrite⟩ := hTable
    intro row hRow
    obtain ⟨old, hOld, hAged, rfl⟩ := hWrite row hRow
    exact .inl ⟨old, hOld, hAged⟩
  committed := by
    rw [hCommitted]
    exact List.Subset.refl _
  clock := hClock

/-- A step of a call that commits no row of its own. -/
structure Moves (w later : World δ) (call : ℕ) : Prop where
  table : Ages w.table later.table
  fine : ∀ row ∈ later.table, row.Fine later.clock
  committed : later.committed = w.committed
  nextSeq : w.nextSeq ≤ later.nextSeq
  clock : w.clock ≤ later.clock
  started : w.started ≤ later.started
  drawn : w.drawn ⊆ later.drawn
  poll : later.poll = w.poll
  cursor : later.cursor = w.cursor
  returned : later.returned = w.returned
  others : ∀ other, other ≠ call → later.calls other = w.calls other
  stage : ∀ stage, later.calls call = some stage → call < later.started ∧ later.Holds stage ∧
    (∀ seq, stage.pending = some seq → seq = w.nextSeq ∧ seq < later.nextSeq) ∧
    ∀ id, stage.draws = some id → (∃ old, w.calls call = some old ∧ old.draws = some id) ∨
      (id ∉ w.drawn ∧ id ∈ later.drawn ∧ w.started ≤ call)

theorem Ages.copied (hCopied : ∀ row ∈ w.table, w.Copied row) (hAges : Ages w.table later.table)
    (hFollows : w.Follows later) (hDistinct : Set.InjOn Event.seq {event | event ∈ later.table}) :
    ∀ row ∈ later.table, later.Copied row := by
  obtain ⟨write, hWrite⟩ := hAges
  intro row hRow
  obtain ⟨old, hOld, hAged, rfl⟩ := hWrite row hRow
  obtain ⟨⟨item, hItem, hSeq, hId⟩, -⟩ := hCopied old hOld
  refine ⟨⟨item, hFollows.committed hItem, hSeq.trans hAged.seq.symm, hId.trans hAged.eventId.symm⟩, ?_⟩
  intro other hOther hSame
  rw [hDistinct hOther hRow hSame]
  exact .refl _

theorem Sound.moves {call : ℕ} (h : w.Sound) (hMoves : w.Moves later call) : later.Sound := by
  have hFollows := follows_of_ages hMoves.table hMoves.committed hMoves.clock
  have hDistinct := hMoves.table.injOn (fun _ _ hAged => hAged.seq) h.distinct
  have hSeqs : later.seqs = w.seqs := by
    unfold seqs
    rw [hMoves.committed]
  refine ⟨hMoves.fine, Ages.copied h.copied hMoves.table hFollows hDistinct, hDistinct,
    hMoves.table.injOn (fun _ _ hAged => hAged.eventId) h.ids, ?_, ?_, ?_, ?_, ?_, ?_⟩
  · rw [hMoves.committed]
    intro item hItem
    obtain ⟨hSeq, hId, hToken⟩ := h.committed item hItem
    exact ⟨hSeq.trans_le hMoves.nextSeq, hMoves.drawn hId, hToken.trans_le hMoves.started⟩
  · intro other stage hStage
    by_cases hOther : other = call
    · subst hOther
      exact ⟨(hMoves.stage stage hStage).1, (hMoves.stage stage hStage).2.1⟩
    · rw [hMoves.others other hOther] at hStage
      exact ⟨(h.stages other stage hStage).1.trans_le hMoves.started, (h.stages other stage hStage).2.follows hFollows⟩
  · have hOld : ∀ other stage seq, later.calls other = some stage → stage.pending = some seq →
        (other = call ∧ seq = w.nextSeq ∧ seq < later.nextSeq) ∨ (other ≠ call ∧ w.calls other = some stage) := by
      intro other stage seq hStage hPending
      by_cases hOther : other = call
      · subst hOther
        exact .inl ⟨rfl, (hMoves.stage stage hStage).2.2.1 seq hPending⟩
      · rw [hMoves.others other hOther] at hStage
        exact .inr ⟨hOther, hStage⟩
    intro other stage seq hStage hPending
    rw [hSeqs]
    rcases hOld other stage seq hStage hPending with ⟨rfl, rfl, hBelow⟩ | ⟨hOther, hBefore⟩
    · refine ⟨hBelow, fun hMem => ?_, fun third next hNext hSame => ?_⟩
      · obtain ⟨item, hItem, hSeq⟩ := List.mem_map.mp hMem
        exact (h.committed item hItem).1.ne hSeq
      · rcases hOld third next _ hNext hSame with ⟨rfl, -⟩ | ⟨-, hBefore⟩
        · rfl
        · exact absurd (h.pending third next _ hBefore hSame).1 (lt_irrefl _)
    · obtain ⟨hBelow, hNew, hOnly⟩ := h.pending other stage seq hBefore hPending
      refine ⟨hBelow.trans_le hMoves.nextSeq, hNew, fun third next hNext hSame => ?_⟩
      rcases hOld third next seq hNext hSame with ⟨rfl, rfl, -⟩ | ⟨-, hThird⟩
      · exact absurd hBelow (lt_irrefl _)
      · exact hOnly third next hThird hSame
  · have hOld : ∀ other stage id, later.calls other = some stage → stage.draws = some id →
        (∃ old, w.calls other = some old ∧ old.draws = some id) ∨
          (other = call ∧ id ∉ w.drawn ∧ id ∈ later.drawn ∧ w.started ≤ other) := by
      intro other stage id hStage hDraws
      by_cases hOther : other = call
      · subst hOther
        rcases (hMoves.stage stage hStage).2.2.2 id hDraws with hBefore | hNew
        · exact .inl hBefore
        · exact .inr ⟨rfl, hNew⟩
      · rw [hMoves.others other hOther] at hStage
        exact .inl ⟨stage, hStage, hDraws⟩
    intro other stage id hStage hDraws
    rw [hMoves.committed]
    rcases hOld other stage id hStage hDraws with ⟨old, hBefore, hSame⟩ | ⟨rfl, hNew, hDrawn, hStarted⟩
    · obtain ⟨hDrawn, hApart, hOnly⟩ := h.draws other old id hBefore hSame
      refine ⟨hMoves.drawn hDrawn, hApart, fun third next hNext hThird => ?_⟩
      rcases hOld third next id hNext hThird with ⟨older, hOlder, hEq⟩ | ⟨-, hNew, -⟩
      · exact hOnly third older hOlder hEq
      · exact absurd hDrawn hNew
    · refine ⟨hDrawn, fun item hItem => ⟨?_, ?_⟩, fun third next hNext hThird => ?_⟩
      · rintro rfl
        exact hNew (h.committed item hItem).2.1
      · exact ((h.committed item hItem).2.2.trans_le hStarted).ne
      · rcases hOld third next id hNext hThird with ⟨older, hOlder, hEq⟩ | ⟨rfl, -⟩
        · exact absurd (h.draws third older id hOlder hEq).1 hNew
        · rfl
  · unfold World.page
    rw [hMoves.poll]
    exact fun event hEvent => (h.page event hEvent).follows hFollows
  · rw [hMoves.returned]
    exact fun event hEvent => (h.returned event hEvent).follows hFollows

/-- The commit of a row that a call has inserted, in place of another or for itself. -/
theorem Sound.commits {call : ℕ} {stage : Stage δ} {rows : List (Event δ)} {new : Event δ} (h : w.Sound)
    (hStage : w.calls call = some stage) (hPending : stage.pending = some new.seq) (hDraws : stage.draws.isSome)
    (hRows : Ages w.table rows) (hFine : ∀ row ∈ rows, row.Fine w.clock) (hNew : new.Fine w.clock)
    (hDrawn : new.eventId ∈ w.drawn) (hApart : ∀ row ∈ rows, row.eventId ≠ new.eventId)
    (hOthers : ∀ other next, other ≠ call → w.calls other = some next → next.draws ≠ some new.eventId) :
    (leave { w with table := rows ++ [new], committed := w.committed ++ [(call, new)] } call).Sound := by
  obtain ⟨hBelow, hFresh, hOnly⟩ := h.pending call stage new.seq hStage hPending
  obtain ⟨id, hId⟩ := Option.isSome_iff_exists.mp hDraws
  obtain ⟨-, hTokens, -⟩ := h.draws call stage id hStage hId
  have hFollows : w.Follows (leave { w with table := rows ++ [new], committed := w.committed ++ [(call, new)] } call) := by
    refine ⟨fun row hRow => ?_, List.subset_append_left _ _, le_rfl⟩
    rcases List.mem_append.mp hRow with hOld | hOne
    · obtain ⟨write, hWrite⟩ := hRows
      obtain ⟨old, hMem, hAged, rfl⟩ := hWrite row hOld
      exact .inl ⟨old, hMem, hAged⟩
    · exact .inr (List.mem_singleton.mp hOne ▸ hFresh)
  have hSeqs : ∀ row ∈ rows, row.seq ≠ new.seq := by
    obtain ⟨write, hWrite⟩ := hRows
    intro row hRow hSame
    obtain ⟨old, hOld, hAged, rfl⟩ := hWrite row hRow
    obtain ⟨item, hItem, hSeq, -⟩ := (h.copied old hOld).source
    exact hFresh (List.mem_map.mpr ⟨item, hItem, hSeq.trans (hAged.seq.symm.trans hSame)⟩)
  have hInj : ∀ {κ : Type} (key : Event δ → κ), Set.InjOn key {event | event ∈ rows} →
      (∀ row ∈ rows, key row ≠ key new) → Set.InjOn key {event | event ∈ rows ++ [new]} := by
    intro κ key hKey hOther a ha b hb hSame
    rcases List.mem_append.mp ha with hA | hA <;> rcases List.mem_append.mp hb with hB | hB
    · exact hKey hA hB hSame
    · exact absurd (List.mem_singleton.mp hB ▸ hSame) (hOther a hA)
    · exact absurd (List.mem_singleton.mp hA ▸ hSame.symm) (hOther b hB)
    · rw [List.mem_singleton.mp hA, List.mem_singleton.mp hB]
  have hDistinct := hInj Event.seq (hRows.injOn (fun _ _ hAged => hAged.seq) h.distinct) hSeqs
  have hCalls : ∀ other next, (leave { w with table := rows ++ [new], committed := w.committed ++ [(call, new)] } call).calls
      other = some next → other ≠ call ∧ w.calls other = some next := by
    intro other next hNext
    by_cases hOther : other = call
    · subst hOther
      simp [leave] at hNext
    · exact ⟨hOther, by simpa [leave, hOther] using hNext⟩
  refine ⟨fun row hRow => ?_, fun row hRow => ?_, hDistinct,
    hInj Event.eventId (hRows.injOn (fun _ _ hAged => hAged.eventId) h.ids) hApart, fun item hItem => ?_, ?_, ?_, ?_,
    fun event hEvent => (h.page event hEvent).follows hFollows,
    fun event hEvent => (h.returned event hEvent).follows hFollows⟩
  · rcases List.mem_append.mp hRow with hOld | hOne
    · exact hFine row hOld
    · exact List.mem_singleton.mp hOne ▸ hNew
  · rcases List.mem_append.mp hRow with hOld | hOne
    · obtain ⟨write, hWrite⟩ := hRows
      obtain ⟨old, hMem, hAged, rfl⟩ := hWrite row hOld
      obtain ⟨item, hItem, hSeq, hSame⟩ := (h.copied old hMem).source
      refine ⟨⟨item, List.mem_append_left _ hItem, hSeq.trans hAged.seq.symm, hSame.trans hAged.eventId.symm⟩, ?_⟩
      intro other hOther hEq
      rw [hDistinct hOther hRow hEq]
      exact .refl _
    · obtain rfl := List.mem_singleton.mp hOne
      refine ⟨⟨(call, row), List.mem_append_right _ (List.mem_singleton_self _), rfl, rfl⟩, ?_⟩
      intro other hOther hEq
      rw [hDistinct hOther hRow hEq]
      exact .refl _
  · rcases List.mem_append.mp hItem with hOld | hOne
    · exact h.committed item hOld
    · obtain rfl := List.mem_singleton.mp hOne
      exact ⟨hBelow, hDrawn, (h.stages call stage hStage).1⟩
  · intro other next hNext
    obtain ⟨-, hBefore⟩ := hCalls other next hNext
    exact ⟨(h.stages other next hBefore).1, (h.stages other next hBefore).2.follows hFollows⟩
  · intro other next seq hNext hSeq
    obtain ⟨hOther, hBefore⟩ := hCalls other next hNext
    obtain ⟨hLess, hUnseen, hUnique⟩ := h.pending other next seq hBefore hSeq
    refine ⟨hLess, fun hMem => ?_, fun third last hLast hSame => hUnique third last (hCalls third last hLast).2 hSame⟩
    obtain ⟨item, hItem, hItemSeq⟩ := List.mem_map.mp hMem
    rcases List.mem_append.mp hItem with hOld | hOne
    · exact hUnseen (List.mem_map.mpr ⟨item, hOld, hItemSeq⟩)
    · obtain rfl := List.mem_singleton.mp hOne
      exact hOther (hOnly other next hBefore (hItemSeq ▸ hSeq))
  · intro other next drawn hNext hSame
    obtain ⟨hOther, hBefore⟩ := hCalls other next hNext
    obtain ⟨hMem, hOld, hUnique⟩ := h.draws other next drawn hBefore hSame
    refine ⟨hMem, fun item hItem => ?_, fun third last hLast hEq => hUnique third last (hCalls third last hLast).2 hEq⟩
    rcases List.mem_append.mp hItem with hItem | hOne
    · exact hOld item hItem
    · obtain rfl := List.mem_singleton.mp hOne
      refine ⟨fun hEq => hOthers other next hOther hBefore ?_, Ne.symm hOther⟩
      rw [hEq]
      exact hSame

variable {forwards : List (ℕ × Post × Event δ)} {now seq call attempts : ℕ}

/-- A call that is open goes on to a stage, or ends, with writes to the rows. -/
theorem Sound.goes {nextSeq : ℕ} {table : List (Event δ)} {acked : List Post} {recorded : List (String × δ)}
    {stage : Stage δ} {next : Option (Stage δ)} (h : w.Sound) (hStage : w.calls call = some stage)
    (hTable : Ages w.table table) (hFine : ∀ row ∈ table, row.Fine w.clock) (hSeq : w.nextSeq ≤ nextSeq)
    (hNext : ∀ after, next = some after → w.Holds after ∧ (∀ seq, after.pending = some seq → seq = w.nextSeq ∧ seq < nextSeq) ∧ ∀ id, after.draws = some id → stage.draws = some id) :
    w.Moves { w with table, nextSeq, forwards, acked, recorded, calls := Function.update w.calls call next } call := by
  have hFollows : w.Follows { w with table, nextSeq, forwards, acked, recorded, calls := Function.update w.calls call next } :=
    follows_of_ages hTable rfl le_rfl
  refine ⟨hTable, hFine, rfl, hSeq, le_rfl, le_rfl, List.Subset.refl _, rfl, rfl, rfl,
    fun other hOther => Function.update_of_ne hOther _ _, fun after hAfter => ?_⟩
  have hAfter : next = some after := by simpa using hAfter
  obtain ⟨hHolds, hPending, hDraws⟩ := hNext after hAfter
  exact ⟨(h.stages call stage hStage).1, hHolds.follows hFollows, hPending, fun id hId => .inl ⟨stage, hStage, hDraws id hId⟩⟩

/-- A call that ends leaves the rest as it is. -/
theorem Sound.leave {call : ℕ} {acked : List Post} {stage : Stage δ} (h : w.Sound) (hStage : w.calls call = some stage) :
    w.Moves { w with acked, calls := Function.update w.calls call none } call :=
  h.goes hStage (.refl _) h.fine le_rfl fun _ hNone => by cases hNone

/-- A call that goes on with nothing written. -/
theorem Sound.enter {call : ℕ} {forwards : List (ℕ × Post × Event δ)} {stage next : Stage δ} (h : w.Sound)
    (hStage : w.calls call = some stage) (hHolds : w.Holds next) (hPending : next.pending = none)
    (hDraws : ∀ id, next.draws = some id → stage.draws = some id) :
    w.Moves { w with forwards, calls := Function.update w.calls call (some next) } call := by
  refine h.goes hStage (.refl _) h.fine le_rfl fun after hAfter => ?_
  obtain rfl := Option.some.inj hAfter
  exact ⟨hHolds, fun seq hSeq => (Option.some_ne_none seq (hSeq.symm.trans hPending)).elim, hDraws⟩

/-- A call that begins. -/
theorem Sound.start {drawn : List String} {stage : Stage δ} (h : w.Sound) (hDrawn : w.drawn ⊆ drawn) (hHolds : w.Holds stage)
    (hPending : stage.pending = none) (hDraws : ∀ id, stage.draws = some id → id ∉ w.drawn ∧ id ∈ drawn) :
    w.Moves (World.start { w with drawn } stage) w.started := by
  refine ⟨.refl _, h.fine, rfl, le_rfl, le_rfl, Nat.le_succ _, hDrawn, rfl, rfl, rfl,
    fun other hOther => Function.update_of_ne hOther _ _, fun after hAfter => ?_⟩
  have hAfter : some stage = some after := by simpa [World.start, World.enter] using hAfter
  obtain rfl := Option.some.inj hAfter
  refine ⟨Nat.lt_succ_self _, hHolds.follows (follows_of_ages (.refl _) rfl le_rfl), fun seq hSeq => ?_, fun id hId => ?_⟩
  · rw [hPending] at hSeq
    cases hSeq
  · exact .inr ⟨(hDraws id hId).1, (hDraws id hId).2, le_rfl⟩

theorem Sound.seek {item : Item} {group : String} (h : w.Sound)
    (hStage : w.calls call = some (.seeking item group attempts)) : w.Moves (w.seek call item group attempts) call := by
  cases attempts with
  | zero => exact h.enter hStage trivial rfl fun _ hId => hId
  | succ attempts =>
      dsimp only [World.seek]
      split
      · exact h.enter hStage trivial rfl fun _ hId => hId
      · rename_i existing hFound
        obtain ⟨hMem, hQueued, hWindow⟩ := find_open_spec hFound
        split
        · exact h.leave hStage
        · refine h.goes hStage (.refl _) h.fine (Nat.le_succ _) fun after hAfter => ?_
          obtain rfl := Option.some.inj hAfter
          refine ⟨⟨h.copied existing hMem, h.fine existing hMem, hQueued, ?_⟩, fun seq hSeq => ?_, fun _ hId => hId⟩
          · -- a row in the window is too young to have lost its body
            by_contra hBody
            have hAged := (h.fine existing hMem).aged hQueued (by simpa using hBody)
            unfold eventBodyTtl at hAged
            unfold mediaGroupMergeWindow at hWindow
            omega
          · obtain rfl := Option.some.inj hSeq
            exact ⟨rfl, Nat.lt_succ_self _⟩

theorem Sound.mint {item : Item} (h : w.Sound) (hStage : w.calls call = some (.minting item)) :
    w.Moves (w.mint call item) call := by
  refine h.goes hStage (.refl _) h.fine (Nat.le_succ _) fun after hAfter => ?_
  obtain rfl := Option.some.inj hAfter
  refine ⟨⟨fine_event item _ _, rfl⟩, fun seq hSeq => ?_, fun _ hId => hId⟩
  obtain rfl := Option.some.inj hSeq
  exact ⟨rfl, Nat.lt_succ_self _⟩

theorem Sound.commit (h : w.Sound) (hStage : w.calls call = some (.minted event)) : (w.commit call event).Sound := by
  obtain ⟨hDrawn, hApart, hOnly⟩ := h.draws call _ event.eventId hStage rfl
  refine h.commits hStage rfl rfl (.refl _) h.fine (h.stages call _ hStage).2.1 hDrawn (fun row hRow hSame => ?_)
    fun other next hOther hNext hSame => hOther (hOnly other next hNext hSame)
  obtain ⟨item, hItem, -, hId⟩ := (h.copied row hRow).source
  exact (hApart item hItem).1 (hId.trans hSame)

/-- What the `DELETE` of a merge finds: the event as it was read, still open. -/
theorem Sound.swapped (h : w.Sound) (hCopied : w.Copied existing) (hBody : existing.body.isSome)
    (hSwaps : w.swaps existing = true) : ∃ row ∈ w.table, Aged existing row ∧ row.seq = existing.seq ∧
      row.body = existing.body ∧ row.attachments = existing.attachments ∧ row.status = .queued := by
  obtain ⟨row, hRow, hSame⟩ := List.any_eq_true.mp hSwaps
  obtain ⟨hSeq, hSameBody, hAttachments⟩ := of_decide_eq_true hSame
  exact ⟨row, hRow, hCopied.aged row hRow hSeq, hSeq, hSameBody, hAttachments,
    (h.fine row hRow).open (hSameBody ▸ hBody)⟩

theorem fine_replacement {item : Item} (hFine : existing.Fine now) (hQueued : existing.status = .queued)
    (hBody : existing.body.isSome) : (item.replacement existing seq).Fine now where
  responded := by
    intro h
    rw [show (item.replacement existing seq).status = existing.status from rfl, hQueued] at h
    cases h
  queued := fun _ => hFine.queued hQueued
  aged := by
    intro _ hNone
    have hMerged : item.mergedBody existing = none := hNone
    unfold Item.mergedBody at hMerged
    split at hMerged
    · cases hMerged
    · rw [hMerged] at hBody
      cases hBody

theorem Sound.swap {item : Item} {group : String} (h : w.Sound)
    (hStage : w.calls call = some (.merging item group attempts existing seq)) (hSwaps : w.swaps existing = true) :
    (w.swap call item group attempts existing seq).Sound := by
  obtain ⟨hCopied, hFine, hQueued, hBody⟩ := (h.stages call _ hStage).2
  obtain ⟨row, hRow, hAged, hSeq, -⟩ := h.swapped hCopied hBody hSwaps
  obtain ⟨source, hSource, -, hId⟩ := hCopied.source
  unfold World.swap
  rw [if_pos hSwaps]
  refine @Sound.commits δ w call _ _ (item.replacement existing seq) h hStage rfl rfl (.filter _ _)
    (fun other hOther => h.fine other (List.mem_of_mem_filter hOther)) (fine_replacement hFine hQueued hBody)
    ?_ (fun other hOther hSame => ?_) fun other next hOther hNext hSame => ?_
  · show existing.eventId ∈ w.drawn
    exact hId ▸ (h.committed source hSource).2.1
  · obtain ⟨hMem, hOther⟩ := List.mem_filter.mp hOther
    rw [h.ids hMem hRow (hSame.trans hAged.eventId.symm)] at hOther
    exact of_decide_eq_true hOther hSeq
  · exact ((h.draws other next _ hNext hSame).2.1 source hSource).1 hId

variable {write : Event δ → Event δ}

theorem update_eq_some {next : World δ} (h : w.update seq write = some next) :
    next = { w with table := w.table.map fun event => if event.seq = seq then write event else event } := by
  unfold update at h
  split at h
  · exact (Option.some.inj h).symm
  · cases h

theorem mem_of_update {next : World δ} (h : w.update seq write = some next) : ∃ row ∈ w.table, row.seq = seq := by
  unfold update at h
  split at h
  · rename_i hMem
    exact List.mem_map.mp hMem
  · cases h

/-- A call that writes to the row it has read, and goes on or ends. -/
theorem Sound.writes {acked : List Post} {recorded : List (String × δ)} {stage : Stage δ} {next : Option (Stage δ)}
    {read : Event δ} (h : w.Sound) (hStage : w.calls call = some stage) (hCopied : w.Copied read)
    (hWrite : ∀ row, Aged read row → row.Fine w.clock → Aged row (write row) ∧ (write row).Fine w.clock)
    (hNext : ∀ after, next = some after → w.Holds after ∧ after.pending = none ∧ after.draws = none) :
    w.Moves { w with
      table := w.table.map fun event => if event.seq = read.seq then write event else event
      forwards, acked, recorded, calls := Function.update w.calls call next } call := by
  refine h.goes hStage (.map fun event hEvent => ?_) (fun row hRow => ?_) le_rfl fun after hAfter => ?_
  · split
    · rename_i hSeq
      exact (hWrite event (hCopied.aged event hEvent hSeq) (h.fine event hEvent)).1
    · exact .refl event
  · obtain ⟨event, hEvent, rfl⟩ := List.mem_map.mp hRow
    split
    · rename_i hSeq
      exact (hWrite event (hCopied.aged event hEvent hSeq) (h.fine event hEvent)).2
    · exact h.fine event hEvent
  · obtain ⟨hHolds, hPending, hDraws⟩ := hNext after hAfter
    refine ⟨hHolds, fun seq hSeq => ?_, fun id hId => ?_⟩
    · rw [hPending] at hSeq
      cases hSeq
    · rw [hDraws] at hId
      cases hId

theorem Sound.adopt {post : Post} {read : Event δ} (h : w.Sound) (hStage : w.calls call = some (.reading post read)) :
    w.Moves (w.adopt call post read) call := by
  obtain ⟨hCopied, hFine, hId⟩ := (h.stages call _ hStage).2
  unfold World.adopt
  split
  · exact h.enter hStage ⟨hCopied, hFine, hId⟩ rfl fun _ hNone => by cases hNone
  · rename_i key hKey
    split
    · exact h.leave hStage
    · rename_i next hNext
      obtain rfl := update_eq_some hNext
      refine h.writes hStage hCopied (fun row _ hRow => ⟨⟨rfl, rfl, rfl, rfl, rfl, rfl, rfl, .inl ⟨rfl, rfl⟩, id⟩,
        ⟨hRow.responded, hRow.queued, hRow.aged⟩⟩) fun after hAfter => ?_
      obtain rfl := Option.some.inj hAfter
      refine ⟨⟨⟨hCopied.source, fun row hRow hSeq => ?_⟩, ⟨hFine.responded, hFine.queued, hFine.aged⟩, hId⟩, rfl, rfl⟩
      have hAged := hCopied.aged row hRow hSeq
      exact ⟨hAged.seq, hAged.eventId, hAged.repoId, hAged.runtimeId, hAged.source, hAged.replyTo, hAged.createdAt,
        hAged.contents, hAged.status⟩

variable [DecidableEq δ] {settings : Settings δ}

theorem Sound.answer {post : Post} {read : Event δ} {delivered : Bool} (h : w.Sound)
    (hStage : w.calls call = some (.adopted post read)) : w.Moves (w.answer settings call post read delivered) call := by
  obtain ⟨hCopied, hFine, hId⟩ := (h.stages call _ hStage).2
  unfold World.answer acknowledge
  split
  · split
    · exact h.leave hStage
    · rename_i hOpen
      split
      · exact h.leave hStage
      · rename_i next hNext
        obtain rfl := update_eq_some hNext
        have hQueued : read.status = .queued := by
          cases hStatus : read.status with
          | queued => rfl
          | responded => exact absurd hStatus hOpen
        exact h.writes hStage hCopied (fun row hAged _ => ⟨aged_close hAged, fine_close hAged hQueued⟩)
          fun _ hNone => by cases hNone
  · split
    · exact h.leave hStage
    · split
      · exact h.enter hStage ⟨hCopied, hFine, hId⟩ rfl fun _ hNone => by cases hNone
      · exact h.leave hStage

theorem Sound.record {call : ℕ} {post : Post} {read : Event δ} (h : w.Sound)
    (hStage : w.calls call = some (.forwarded post read)) : w.Moves (w.record settings call post read) call := by
  obtain ⟨hCopied, hFine, hId⟩ := (h.stages call _ hStage).2
  unfold World.record
  split
  · exact h.leave hStage
  · dsimp only
    split
    · exact h.leave hStage
    · rename_i next hNext
      obtain rfl := update_eq_some hNext
      refine h.writes hStage hCopied (fun row hAged hRow => ?_) fun _ hNone => by cases hNone
      cases hStatus : read.status with
      | queued =>
          rw [if_neg (by simp)]
          exact ⟨aged_close hAged, fine_close hAged hStatus⟩
      | responded =>
          rw [if_pos rfl]
          exact ⟨aged_speak, fine_speak hRow hAged hStatus⟩

/-- What the sweep makes of a row. -/
theorem swept {rows : List (Event δ)} {now : ℕ} {sha : δ} (h : w.Sound)
    (hRows : ∀ event ∈ rows, w.Copied event ∧ event.Fine w.clock ∧ event.status = .queued) (event : Event δ)
    (hEvent : event ∈ w.table) :
    let write : Event δ := match rows.find? fun read => decide (read.seq = event.seq) with
      | some read => read.close "expired" 0 sha now event
      | none => event
    Aged event write ∧ write.Fine w.clock := by
  dsimp only
  split
  · rename_i read hFind
    obtain ⟨hCopied, -, hQueued⟩ := hRows read (List.mem_of_find?_eq_some hFind)
    have hSeq : read.seq = event.seq := by simpa using List.find?_some hFind
    have hAged := hCopied.aged event hEvent hSeq.symm
    exact ⟨aged_close hAged, fine_close hAged hQueued⟩
  · exact ⟨.refl event, h.fine event hEvent⟩

theorem Sound.expire {rows : List (Event δ)} (h : w.Sound) (hStage : w.calls call = some (.sweeping rows now)) :
    w.Moves (w.expire settings call rows now) call := by
  obtain ⟨hRows, hNow⟩ := (h.stages call _ hStage).2
  unfold World.expire
  split
  · refine h.goes hStage (.map fun event hEvent => (swept h hRows event hEvent).1) (fun row hRow => ?_) le_rfl
      fun after hAfter => ?_
    · obtain ⟨event, hEvent, rfl⟩ := List.mem_map.mp hRow
      exact (swept h hRows event hEvent).2
    · obtain rfl := Option.some.inj hAfter
      exact ⟨hNow, nofun, fun _ hId => by cases hId⟩
  · exact h.leave hStage

omit [DecidableEq δ] in
theorem Sound.collect (h : w.Sound) (hStage : w.calls call = some (.collecting now)) : w.Moves (w.collect call now) call := by
  have hNow : now ≤ w.clock := (h.stages call _ hStage).2
  refine h.goes hStage ((Ages.filter _ _).trans (.map fun event _ => ?_)) (fun row hRow => ?_) le_rfl
    fun _ hNone => by cases hNone
  · split
    · exact aged_stripped event
    · exact .refl event
  · obtain ⟨event, hEvent, rfl⟩ := List.mem_map.mp hRow
    have hFine := h.fine event (List.mem_of_mem_filter hEvent)
    split
    · rename_i hOld
      exact ⟨fun _ => ⟨rfl, rfl⟩, hFine.queued, fun _ _ => hOld.2.1.trans_le hNow⟩
    · exact hFine

/-- What a step comes to: most of them leave the rows as they are or age them; a row
comes in at the commits of `enqueue` alone. -/
inductive Effect (settings : Settings δ) (w : World δ) : Action → World δ → Prop where
  | moves {action : Action} {later : World δ} (call : ℕ) (hMoves : w.Moves later call) : Effect settings w action later
  | mints (call : ℕ) (delivered : Bool) (event : Event δ) (hStage : w.calls call = some (.minted event)) :
      Effect settings w (.advance call delivered) (w.commit call event)
  | merges (call : ℕ) (delivered : Bool) (item : Item) (group : String) (attempts : ℕ) (existing : Event δ) (seq : ℕ)
      (hStage : w.calls call = some (.merging item group attempts existing seq)) (hSwaps : w.swaps existing = true) :
      Effect settings w (.advance call delivered) (w.swap call item group attempts existing seq)
  | clamps (hPoll : w.poll = none) : Effect settings w .poll { w with poll := some (.clamped (w.clamp settings)) }
  | reads (since : ℕ) (hPoll : w.poll = some (.clamped since) ∨ w.poll = some (.fetched since [])) :
      Effect settings w .fetch (w.read settings since)
  | delivers (since : ℕ) (page : List (Event δ)) (hPoll : w.poll = some (.fetched since page)) :
      Effect settings w .deliver { w with
        poll := none
        cursor := ((page.map Event.seq).max?).getD since
        returned := w.returned ++ page }
  | loses : Effect settings w .lose { w with poll := none }

theorem Sound.advance {delivered : Bool} {stage : Stage δ} (h : w.Sound) (hStage : w.calls call = some stage) :
    w.Effect settings (.advance call delivered) (w.advance settings call delivered stage) := by
  cases stage with
  | seeking => exact .moves call (h.seek hStage)
  | merging item group attempts existing seq =>
      cases hSwaps : w.swaps existing with
      | true => exact .merges call delivered item group attempts existing seq hStage hSwaps
      | false =>
          have hRolled : w.swap call item group attempts existing seq = w.enter call (.seeking item group attempts) := by
            unfold World.swap
            rw [if_neg (by simp [hSwaps])]
          dsimp only [World.advance]
          rw [hRolled]
          exact .moves call (h.enter hStage trivial rfl fun _ hId => hId)
  | minting => exact .moves call (h.mint hStage)
  | minted event => exact .mints call delivered event hStage
  | reading => exact .moves call (h.adopt hStage)
  | adopted => exact .moves call (h.answer hStage)
  | forwarded => exact .moves call (h.record hStage)
  | sweeping => exact .moves call (h.expire hStage)
  | collecting => exact .moves call (h.collect hStage)

omit [DecidableEq δ] in
/-- Steps that are no call's. -/
theorem Sound.idle {clock : ℕ} (h : w.Sound) (hClock : w.clock ≤ clock) : w.Moves { w with clock } w.started where
  table := .refl _
  fine := fun row hRow => (h.fine row hRow).later hClock
  committed := rfl
  nextSeq := le_rfl
  clock := hClock
  started := le_rfl
  drawn := List.Subset.refl _
  poll := rfl
  cursor := rfl
  returned := rfl
  others := fun _ _ => rfl
  stage := fun stage hStage => absurd (h.stages w.started stage hStage).1 (lt_irrefl _)

theorem Sound.effect {action : Action} (h : w.Sound) (hStep : w.step settings action = some later) :
    w.Effect settings action later := by
  cases action with
  | tick now =>
      dsimp only [World.step] at hStep
      split at hStep
      · rename_i hClock
        obtain rfl := Option.some.inj hStep
        exact .moves w.started (h.idle hClock)
      · cases hStep
  | enqueue item =>
      dsimp only [World.step] at hStep
      split at hStep
      · cases hStep
      · rename_i hFresh
        obtain rfl := Option.some.inj hStep
        refine .moves w.started (h.start (List.subset_cons_self _ _) ?_ ?_ ?_)
        · split <;> trivial
        · split <;> rfl
        · intro id hId
          have hSame : item.eventId = id := by
            split at hId <;> exact Option.some.inj hId
          exact hSame ▸ ⟨hFresh, List.mem_cons_self⟩
  | respond post =>
      obtain ⟨event, hFind, rfl⟩ := Option.map_eq_some_iff.mp hStep
      have hMem := List.mem_of_find?_eq_some hFind
      have hSame : event.eventId = post.eventId ∧ event.repoId = post.repoId := by simpa using List.find?_some hFind
      exact .moves w.started (@Sound.start δ w w.drawn _ h (List.Subset.refl _)
        ⟨h.copied event hMem, h.fine event hMem, hSame.1⟩ rfl fun _ hNone => by cases hNone)
  | gc =>
      obtain rfl := Option.some.inj hStep
      refine .moves w.started (@Sound.start δ w w.drawn _ h (List.Subset.refl _) ?_ ?_ ?_)
      · split
        · refine ⟨fun event hEvent => ?_, le_rfl⟩
          obtain ⟨hMem, hStale⟩ := List.mem_filter.mp hEvent
          rw [Bool.and_eq_true] at hStale
          exact ⟨h.copied event hMem, h.fine event hMem, of_decide_eq_true hStale.1⟩
        · exact le_refl w.clock
      · split <;> rfl
      · intro id hId
        split at hId <;> cases hId
  | advance call delivered =>
      obtain ⟨stage, hStage, rfl⟩ := Option.map_eq_some_iff.mp hStep
      exact h.advance hStage
  | drop call =>
      obtain rfl := Option.some.inj hStep
      cases hStage : w.calls call with
      | none =>
          have hSame : w.leave call = w := by
            unfold World.leave
            rw [← hStage, Function.update_eq_self]
          rw [hSame]
          exact .moves w.started (h.idle le_rfl)
      | some stage => exact .moves call (h.leave hStage)
  | poll =>
      dsimp only [World.step] at hStep
      split at hStep
      · rename_i hPoll
        obtain rfl := Option.some.inj hStep
        exact .clamps hPoll
      · cases hStep
  | fetch =>
      dsimp only [World.step] at hStep
      split at hStep
      · rename_i since hPoll
        obtain rfl := Option.some.inj hStep
        exact .reads since (.inl hPoll)
      · rename_i since hPoll
        obtain rfl := Option.some.inj hStep
        exact .reads since (.inr hPoll)
      · cases hStep
  | deliver =>
      dsimp only [World.step] at hStep
      split at hStep
      · rename_i since page hPoll
        obtain rfl := Option.some.inj hStep
        exact .delivers since page hPoll
      · cases hStep
  | lose =>
      obtain rfl := Option.some.inj hStep
      exact .loses

omit [DecidableEq δ] in
/-- A step of the daemon: what it is given has been read of the table. -/
theorem Sound.polls {poll : Option (Poll δ)} {cursor : ℕ} {returned : List (Event δ)} (h : w.Sound)
    (hPage : ∀ event ∈ World.page { w with poll, cursor, returned }, w.Copied event)
    (hReturned : ∀ event ∈ returned, w.Copied event) : Sound { w with poll, cursor, returned } where
  fine := h.fine
  copied := fun row hRow => (h.copied row hRow).follows (follows_of_ages (.refl _) rfl le_rfl)
  distinct := h.distinct
  ids := h.ids
  committed := h.committed
  stages := fun call stage hStage =>
    ⟨(h.stages call stage hStage).1, (h.stages call stage hStage).2.follows (follows_of_ages (.refl _) rfl le_rfl)⟩
  pending := h.pending
  draws := h.draws
  page := fun event hEvent => (hPage event hEvent).follows (follows_of_ages (.refl _) rfl le_rfl)
  returned := fun event hEvent => (hReturned event hEvent).follows (follows_of_ages (.refl _) rfl le_rfl)

omit [DecidableEq δ] in
theorem Sound.next {action : Action} (h : w.Sound) (hEffect : w.Effect settings action later) : later.Sound := by
  cases hEffect with
  | moves call hMoves => exact h.moves hMoves
  | mints call delivered event hStage => exact h.commit hStage
  | merges call delivered item group attempts existing seq hStage hSwaps => exact h.swap hStage hSwaps
  | clamps => exact h.polls (by simp [World.page]) h.returned
  | reads => exact h.polls (fun event hEvent => h.copied event (mem_fetch hEvent).1) h.returned
  | delivers since page hPoll =>
      refine h.polls (by simp [World.page]) fun event hEvent => ?_
      rcases List.mem_append.mp hEvent with hOld | hNew
      · exact h.returned event hOld
      · exact h.page event (by simpa [World.page, hPoll] using hNew)
  | loses => exact h.polls (by simp [World.page]) h.returned

theorem Sound.step {action : Action} (h : w.Sound) (hStep : w.step settings action = some later) : later.Sound :=
  h.next (h.effect hStep)

end World

end Brnrd.Inbox
