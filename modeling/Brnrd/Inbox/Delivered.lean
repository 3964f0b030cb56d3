import Brnrd.Inbox.Sound

/-! What a daemon has been given of the events that are still queued, in every
interleaving in which no row is committed below what a poll has read. -/
namespace Brnrd.Inbox

variable {δ : Type}

def Poll.since : Poll δ → ℕ
  | .clamped since | .fetched since _ => since

namespace World

/-- What an event that is still queued carries has been given to the daemon, or is above
its cursor; what was committed for an event is in its row for as long as the row has a
body, a blank body apart; and an item is in one event. -/
structure Delivers (settings : Settings δ) (w : World δ) : Prop where
  bodies : ∀ row ∈ w.table, row.status = .queued → row.repoId ∈ settings.repos → ∀ body, row.body = some body →
    w.cursor < row.seq ∨ ∃ event ∈ w.returned, event.eventId = row.eventId ∧ event.body = some body
  attachments : ∀ row ∈ w.table, row.status = .queued → row.repoId ∈ settings.repos → ∀ pointer ∈ row.attachments,
    w.cursor < row.seq ∨ ∃ event ∈ w.returned, event.eventId = row.eventId ∧ pointer ∈ event.attachments
  kept : ∀ item ∈ w.committed, ∀ row ∈ w.table, row.eventId = item.2.eventId → row.body.isSome →
    item.2.attachments ⊆ row.attachments ∧ (item.2.body = row.body ∨ blank (item.2.body.getD "") = true)
  once : ∀ a ∈ w.committed, ∀ b ∈ w.committed, a.1 = b.1 → a.2.eventId = b.2.eventId

/-- The commit of a merge changes no column of its event but these three. -/
def MergesOnly (w later : World δ) : Action → Prop
  | .advance call _ => ∀ item group attempts existing seq,
      w.calls call = some (.merging item group attempts existing seq) →
        later.table = w.table ∨ ∃ row ∈ w.table, ∃ body attachments,
          later.table = (w.table.filter fun event => decide (event.seq ≠ row.seq)) ++ [{ row with seq, body, attachments }]
  | _ => True

/-- No poll has read a `seq` above this one. -/
def Unread (w : World δ) (seq : ℕ) : Prop :=
  w.cursor < seq ∧ ∀ event ∈ w.page, event.seq < seq

/-- A row of the account is committed before a poll reads a `seq` above it, and a merge
finds the conversation of its event as it has read it. -/
def InOrder (settings : Settings δ) (w : World δ) : Action → Prop
  | .advance call _ =>
      match w.calls call with
      | some (.minted event) => event.repoId ∈ settings.repos → w.Unread event.seq
      | some (.merging _ _ _ existing seq) => w.swaps existing = true →
          (existing.repoId ∈ settings.repos → w.Unread seq) ∧
            ∀ row ∈ w.table, row.seq = existing.seq → row.conversationId = existing.conversationId
      | _ => True
  | _ => True

/-- The rows at and below the cursor have been returned, and a page leaves out none
between its ends. -/
structure Shown (settings : Settings δ) (w : World δ) : Prop where
  cursor : ∀ row ∈ w.table, row.status = .queued → row.repoId ∈ settings.repos → row.seq ≤ w.cursor →
    ∃ event ∈ w.returned, event.seq = row.seq
  page : ∀ since page, w.poll = some (.fetched since page) → ∀ row ∈ w.table, row.status = .queued →
    row.repoId ∈ settings.repos → since < row.seq → ∀ last ∈ page, row.seq ≤ last.seq → ∃ event ∈ page, event.seq = row.seq
  since : ∀ poll, w.poll = some poll → poll.since ≤ w.cursor

/-- What was committed for an event, and by which call. -/
structure Merged (w : World δ) : Prop where
  kept : ∀ item ∈ w.committed, ∀ row ∈ w.table, row.eventId = item.2.eventId → row.body.isSome →
    item.2.attachments ⊆ row.attachments ∧ (item.2.body = row.body ∨ blank (item.2.body.getD "") = true)
  once : ∀ a ∈ w.committed, ∀ b ∈ w.committed, a.1 = b.1 → a.2.eventId = b.2.eventId

variable {settings : Settings δ} {w later : World δ}

/-- Rows that come of other rows, aged, are shown as those were. -/
theorem Shown.ages {table : List (Event δ)} (h : w.Shown settings) (hAges : Ages w.table table) :
    (∀ row ∈ table, row.status = .queued → row.repoId ∈ settings.repos → row.seq ≤ w.cursor →
        ∃ event ∈ w.returned, event.seq = row.seq) ∧
      ∀ since page, w.poll = some (.fetched since page) → ∀ row ∈ table, row.status = .queued →
        row.repoId ∈ settings.repos → since < row.seq → ∀ last ∈ page, row.seq ≤ last.seq →
          ∃ event ∈ page, event.seq = row.seq := by
  obtain ⟨write, hWrite⟩ := hAges
  have hOld : ∀ row ∈ table, row.status = .queued → row.repoId ∈ settings.repos →
      ∃ old ∈ w.table, old.status = .queued ∧ old.repoId ∈ settings.repos ∧ row.seq = old.seq := by
    intro row hRow hQueued hScope
    obtain ⟨old, hOld, hAged, rfl⟩ := hWrite row hRow
    refine ⟨old, hOld, ?_, hAged.repoId ▸ hScope, hAged.seq⟩
    cases hStatus : old.status with
    | queued => rfl
    | responded => simp [hAged.status hStatus] at hQueued
  refine ⟨fun row hRow hQueued hScope hCursor => ?_, fun since page hPoll row hRow hQueued hScope hSince last hLast hLe => ?_⟩
  · obtain ⟨old, hMem, hOldQueued, hOldScope, hSeq⟩ := hOld row hRow hQueued hScope
    rw [hSeq] at hCursor ⊢
    exact h.cursor old hMem hOldQueued hOldScope hCursor
  · obtain ⟨old, hMem, hOldQueued, hOldScope, hSeq⟩ := hOld row hRow hQueued hScope
    rw [hSeq] at hSince hLe ⊢
    exact h.page since page hPoll old hMem hOldQueued hOldScope hSince last hLast hLe

/-- A row that is committed above all that was read. -/
theorem Shown.commits {call : ℕ} {rows : List (Event δ)} {new : Event δ} (h : w.Shown settings) (hAges : Ages w.table rows)
    (hUnread : new.repoId ∈ settings.repos → w.Unread new.seq) :
    (leave { w with table := rows ++ [new], committed := w.committed ++ [(call, new)] } call).Shown settings := by
  obtain ⟨hCursor, hPage⟩ := h.ages hAges
  refine ⟨fun row hRow hQueued hScope hBelow => ?_, fun since page hPoll row hRow hQueued hScope hSince last hLast hLe => ?_,
    h.since⟩
  · rcases List.mem_append.mp hRow with hOld | hNew
    · exact hCursor row hOld hQueued hScope hBelow
    · obtain rfl := List.mem_singleton.mp hNew
      exact absurd hBelow (Nat.not_le.mpr (hUnread hScope).1)
  · rcases List.mem_append.mp hRow with hOld | hNew
    · exact hPage since page hPoll row hOld hQueued hScope hSince last hLast hLe
    · obtain rfl := List.mem_singleton.mp hNew
      have hPoll : w.poll = some (.fetched since page) := hPoll
      exact absurd hLe (Nat.not_le.mpr ((hUnread hScope).2 last (by simpa [World.page, hPoll] using hLast)))

/-- The cursor moves to the last of the page; what is below it was below the cursor or is
on the page. -/
theorem Shown.delivers {since : ℕ} {page : List (Event δ)} (h : w.Shown settings) (hPoll : w.poll = some (.fetched since page)) :
    Shown settings { w with
      poll := none
      cursor := ((page.map Event.seq).max?).getD since
      returned := w.returned ++ page } := by
  refine ⟨fun row hRow hQueued hScope hBelow => ?_, nofun, fun _ hNone => by cases hNone⟩
  have hSince : since ≤ w.cursor := h.since _ hPoll
  by_cases hOld : row.seq ≤ since
  · obtain ⟨event, hEvent, hSeq⟩ := h.cursor row hRow hQueued hScope (hOld.trans hSince)
    exact ⟨event, List.mem_append_left _ hEvent, hSeq⟩
  · cases hMax : (page.map Event.seq).max? with
    | none =>
        dsimp only at hBelow
        rw [hMax] at hBelow
        exact absurd hBelow hOld
    | some top =>
        dsimp only at hBelow
        rw [hMax] at hBelow
        obtain ⟨last, hLast, rfl⟩ := List.mem_map.mp (List.max?_eq_some_iff.mp hMax).1
        obtain ⟨event, hEvent, hSeq⟩ := h.page since page hPoll row hRow hQueued hScope (Nat.lt_of_not_le hOld) last hLast hBelow
        exact ⟨event, List.mem_append_right _ hEvent, hSeq⟩

theorem Shown.step [DecidableEq δ] {action : Action} (h : w.Shown settings) (hSound : w.Sound)
    (hInOrder : w.InOrder settings action) (hEffect : w.Effect settings action later) : later.Shown settings := by
  cases hEffect with
  | moves call hMoves =>
      obtain ⟨hCursor, hPage⟩ := h.ages hMoves.table
      refine ⟨?_, ?_, ?_⟩
      · rw [hMoves.cursor, hMoves.returned]
        exact hCursor
      · rw [hMoves.poll]
        exact hPage
      · rw [hMoves.poll, hMoves.cursor]
        exact h.since
  | mints call delivered event hStage =>
      simp only [InOrder, hStage] at hInOrder
      exact h.commits (.refl _) hInOrder
  | merges call delivered item group attempts existing seq hStage hSwaps =>
      simp only [InOrder, hStage] at hInOrder
      unfold World.swap
      rw [if_pos hSwaps]
      exact h.commits (.filter _ _) (hInOrder hSwaps).1
  | clamps =>
      refine ⟨h.cursor, nofun, fun poll hPoll => ?_⟩
      obtain rfl := Option.some.inj hPoll
      show w.clamp settings ≤ w.cursor
      unfold World.clamp
      split
      · exact clamp_le _ _ _
      · exact le_rfl
  | reads since hPoll =>
      refine ⟨h.cursor, fun start page hRead row hRow hQueued hScope hSince last hLast hLe => ?_, fun poll hRead => ?_⟩
      · obtain ⟨rfl, rfl⟩ : since = start ∧ fetchSinceMany w.table settings.repos since settings.pageLimit = page := by
          simpa [World.read] using hRead
        exact ⟨row, fetch_complete hSound.distinct hRow hScope hQueued hSince hLast hLe, rfl⟩
      · obtain rfl := Option.some.inj hRead
        rcases hPoll with hPoll | hPoll
        · exact h.since (.clamped since) hPoll
        · exact h.since (.fetched since []) hPoll
  | delivers since page hPoll => exact h.delivers hPoll
  | loses => exact ⟨h.cursor, nofun, fun _ hNone => by cases hNone⟩

theorem Merged.ages (h : w.Merged) (hAges : Ages w.table later.table) (hCommitted : later.committed = w.committed) :
    later.Merged := by
  obtain ⟨write, hWrite⟩ := hAges
  refine ⟨fun item hItem row hRow hId hBody => ?_, ?_⟩
  · rw [hCommitted] at hItem
    obtain ⟨old, hOld, hAged, rfl⟩ := hWrite row hRow
    rcases hAged.contents with ⟨hSameBody, hAttachments⟩ | ⟨hNone, -⟩
    · rw [hSameBody, hAttachments]
      exact h.kept item hItem old hOld (hAged.eventId.symm.trans hId) (hSameBody ▸ hBody)
    · rw [hNone] at hBody
      cases hBody
  · rw [hCommitted]
    exact h.once

/-- A row that is committed by a call whose item is in no other event. -/
theorem Merged.commits {call : ℕ} {rows : List (Event δ)} {new : Event δ} (h : w.Merged)
    (hRows : ∀ row ∈ rows, row ∈ w.table ∧ row.eventId ≠ new.eventId) (hCall : ∀ item ∈ w.committed, item.1 ≠ call)
    (hNew : ∀ item ∈ w.committed, item.2.eventId = new.eventId →
      item.2.attachments ⊆ new.attachments ∧ (item.2.body = new.body ∨ blank (item.2.body.getD "") = true)) :
    (leave { w with table := rows ++ [new], committed := w.committed ++ [(call, new)] } call).Merged := by
  refine ⟨fun item hItem row hRow hId hBody => ?_, fun a ha b hb hSame => ?_⟩
  · rcases List.mem_append.mp hItem with hOld | hOne <;> rcases List.mem_append.mp hRow with hThere | hAdded
    · exact h.kept item hOld row (hRows row hThere).1 hId hBody
    · obtain rfl := List.mem_singleton.mp hAdded
      exact hNew item hOld hId.symm
    · obtain rfl := List.mem_singleton.mp hOne
      exact absurd hId (hRows row hThere).2
    · obtain rfl := List.mem_singleton.mp hOne
      obtain rfl := List.mem_singleton.mp hAdded
      exact ⟨List.Subset.refl _, .inl rfl⟩
  · rcases List.mem_append.mp ha with hA | hA <;> rcases List.mem_append.mp hb with hB | hB
    · exact h.once a hA b hB hSame
    · obtain rfl := List.mem_singleton.mp hB
      exact absurd hSame (hCall a hA)
    · obtain rfl := List.mem_singleton.mp hA
      exact absurd hSame.symm (hCall b hB)
    · rw [List.mem_singleton.mp hA, List.mem_singleton.mp hB]

/-- What a merge makes of the body and the attachments keeps what was committed. -/
theorem replacement_keeps {item : Item} {existing : Event δ} {seq : ℕ} {attachments : List Pointer} {body : Option String}
    (hAttachments : attachments ⊆ existing.attachments) (hBody : body = existing.body ∨ blank (body.getD "") = true) :
    attachments ⊆ (item.replacement existing seq).attachments ∧
      (body = (item.replacement existing seq).body ∨ blank (body.getD "") = true) := by
  refine ⟨List.Subset.trans hAttachments (List.subset_append_left _ _), ?_⟩
  show body = item.mergedBody existing ∨ _
  unfold Item.mergedBody
  split
  · rename_i hTaken
    rcases hBody with rfl | hBlank
    · exact .inr hTaken.2
    · exact .inr hBlank
  · exact hBody

theorem Merged.step [DecidableEq δ] {action : Action} (h : w.Merged) (hSound : w.Sound)
    (hEffect : w.Effect settings action later) : later.Merged := by
  cases hEffect with
  | moves call hMoves => exact h.ages hMoves.table hMoves.committed
  | mints call delivered event hStage =>
      obtain ⟨-, hApart, -⟩ := hSound.draws call _ event.eventId hStage rfl
      refine h.commits (fun row hRow => ⟨hRow, fun hSame => ?_⟩) (fun item hItem => (hApart item hItem).2)
        fun item hItem hSame => absurd hSame (hApart item hItem).1
      obtain ⟨item, hItem, -, hId⟩ := (hSound.copied row hRow).source
      exact (hApart item hItem).1 (hId.trans hSame)
  | merges call delivered item group attempts existing seq hStage hSwaps =>
      obtain ⟨hCopied, -, -, hBody⟩ := (hSound.stages call _ hStage).2
      obtain ⟨-, hApart, -⟩ := hSound.draws call _ item.eventId hStage rfl
      obtain ⟨row, hRow, hAged, hSeq, hSameBody, hAttachments, -⟩ := hSound.swapped hCopied hBody hSwaps
      unfold World.swap
      rw [if_pos hSwaps]
      refine @Merged.commits δ w call _ (item.replacement existing seq) h (fun other hOther => ?_)
        (fun item hItem => (hApart item hItem).2) fun old hOld hSame => ?_
      · obtain ⟨hMem, hOther⟩ := List.mem_filter.mp hOther
        refine ⟨hMem, fun hSame => of_decide_eq_true hOther ?_⟩
        rw [hSound.ids hMem hRow (hSame.trans hAged.eventId.symm)]
        exact hSeq
      · have hKept := h.kept old hOld row hRow (hAged.eventId.trans hSame.symm) (hSameBody ▸ hBody)
        rw [hSameBody, hAttachments] at hKept
        exact replacement_keeps hKept.1 hKept.2
  | clamps => exact ⟨h.kept, h.once⟩
  | reads => exact ⟨h.kept, h.once⟩
  | delivers => exact ⟨h.kept, h.once⟩
  | loses => exact ⟨h.kept, h.once⟩

/-- What is below the cursor was returned as it was read, and has only aged since. -/
theorem Shown.delivered (h : w.Shown settings) (hSound : w.Sound) {row : Event δ} (hRow : row ∈ w.table)
    (hQueued : row.status = .queued) (hScope : row.repoId ∈ settings.repos) :
    w.cursor < row.seq ∨ ∃ event ∈ w.returned, Aged event row := by
  by_cases hBelow : row.seq ≤ w.cursor
  · obtain ⟨event, hEvent, hSeq⟩ := h.cursor row hRow hQueued hScope hBelow
    exact .inr ⟨event, hEvent, (hSound.returned event hEvent).aged row hRow hSeq.symm⟩
  · exact .inl (Nat.lt_of_not_le hBelow)

theorem Shown.delivers_all (h : w.Shown settings) (hSound : w.Sound) (hMerged : w.Merged) : w.Delivers settings where
  bodies := by
    intro row hRow hQueued hScope body hBody
    refine (h.delivered hSound hRow hQueued hScope).imp_right fun ⟨event, hEvent, hAged⟩ => ?_
    rcases hAged.body with hSame | hNone
    · exact ⟨event, hEvent, hAged.eventId.symm, hSame.symm.trans hBody⟩
    · rw [hNone] at hBody
      cases hBody
  attachments := by
    intro row hRow hQueued hScope pointer hPointer
    refine (h.delivered hSound hRow hQueued hScope).imp_right fun ⟨event, hEvent, hAged⟩ => ?_
    rcases hAged.attachments with hSame | hNone
    · exact ⟨event, hEvent, hAged.eventId.symm, hSame ▸ hPointer⟩
    · rw [hNone] at hPointer
      cases hPointer
  kept := hMerged.kept
  once := hMerged.once

/-- The row that a merge swaps is the one it has read, where no conversation was adopted
in between. -/
theorem Sound.replaced {item : Item} {existing row : Event δ} {seq : ℕ} (h : w.Sound) (hFine : existing.Fine w.clock)
    (hQueued : existing.status = .queued) (hRow : row ∈ w.table) (hOpen : row.status = .queued)
    (hAged : Aged existing row) (hConversation : row.conversationId = existing.conversationId) :
    item.replacement existing seq =
      { row with seq, body := item.mergedBody existing, attachments := item.mergedAttachments existing } := by
  obtain ⟨hStatus, hLen, hMs, hAt, hSha⟩ := (h.fine row hRow).queued hOpen
  obtain ⟨hOldStatus, hOldLen, hOldMs, hOldAt, hOldSha⟩ := hFine.queued hQueued
  unfold Item.replacement
  rw [hAged.eventId, hAged.repoId, hAged.runtimeId, hAged.source, hAged.replyTo, hAged.createdAt, hOpen, hStatus, hLen, hMs,
    hAt, hSha, hConversation, hQueued, hOldStatus, hOldLen, hOldMs, hOldAt, hOldSha]

theorem Sound.mergesOnly [DecidableEq δ] {action : Action} (h : w.Sound) (hInOrder : w.InOrder settings action)
    (hStep : w.step settings action = some later) : w.MergesOnly later action := by
  cases action with
  | advance call delivered =>
      intro item group attempts existing seq hStage
      simp only [InOrder, hStage] at hInOrder
      simp only [World.step, hStage, Option.map_some, World.advance, Option.some.injEq] at hStep
      subst hStep
      unfold World.swap
      split
      · rename_i hSwaps
        obtain ⟨hCopied, hFine, hQueued, hBody⟩ := (h.stages call _ hStage).2
        obtain ⟨row, hRow, hAged, hSeq, -, -, hOpen⟩ := h.swapped hCopied hBody hSwaps
        refine .inr ⟨row, hRow, item.mergedBody existing, item.mergedAttachments existing, ?_⟩
        rw [← h.replaced hFine hQueued hRow hOpen hAged ((hInOrder hSwaps).2 row hRow hSeq), hSeq]
        rfl
      · exact .inl rfl
  | tick | enqueue | respond | gc | drop | poll | fetch | deliver | lose => trivial

end World

variable [DecidableEq δ] {settings : Settings δ}

/-- In every interleaving in which no row of the account is committed below what a poll
has read and a merge finds the conversation as it has read it, what an event that is
queued carries has been returned or is above the cursor, a merge changes no other column,
and no item is in two events. -/
theorem relay_loses_nothing {w : World δ}
    (hReach : Machine.Reach (World.step settings) (World.InOrder settings) {} w) :
    w.Delivers settings ∧ ∀ action later, w.InOrder settings action → w.step settings action = some later →
      w.MergesOnly later action := by
  have hInv : w.Sound ∧ w.Shown settings ∧ w.Merged := by
    refine hReach.invariant (fun w => w.Sound ∧ w.Shown settings ∧ w.Merged)
      ⟨World.sound_empty, ⟨by simp, by simp, by simp⟩, ⟨by simp, by simp⟩⟩ fun w action later h hInOrder hStep => ?_
    have hEffect := h.1.effect hStep
    exact ⟨h.1.next hEffect, h.2.1.step h.1 hInOrder hEffect, h.2.2.step h.1 hEffect⟩
  exact ⟨hInv.2.1.delivers_all hInv.1 hInv.2.2, fun action later hInOrder hStep => hInv.1.mergesOnly hInOrder hStep⟩

instance (w : World δ) (seq : ℕ) : Decidable (w.Unread seq) :=
  inferInstanceAs (Decidable (_ ∧ ∀ event ∈ w.page, _))

instance (w : World δ) : DecidablePred (w.InOrder settings)
  | .advance call _ => by
      unfold World.InOrder
      dsimp only
      split <;> infer_instance
  | .tick _ | .enqueue _ | .respond _ | .gc | .drop _ | .poll | .fetch | .deliver | .lose => isTrue trivial

def inboxSettings : Settings String := ⟨id, ["r-1"], some 200, 0⟩

def photo (file eventId : String) (album : Option String) : Item :=
  ⟨"r-1", "", "telegram", ⟨some "telegram", some "7", none, []⟩, [⟨file, file, "photo", none⟩], album, eventId⟩

/-- Two photos of an album are one event, which is returned with the first and again with
both. -/
theorem album_is_delivered : ∃ w : World String, (w.Delivers inboxSettings ∧ ∀ action later,
    w.InOrder inboxSettings action → w.step inboxSettings action = some later → w.MergesOnly later action) ∧
      w.returned.map (fun event => (event.eventId, event.attachments.length)) = [("e-1", 1), ("e-1", 2)] := by
  let actions : List Action :=
    [.enqueue (photo "f-1" "e-1" (some "g")), .advance 0 true, .advance 0 true, .advance 0 true, .poll, .fetch, .deliver,
      .enqueue (photo "f-2" "e-2" (some "g")), .advance 1 true, .advance 1 true, .poll, .fetch, .deliver]
  have hRun : (Machine.follow (World.step inboxSettings) (World.InOrder inboxSettings) {} actions).any (fun w =>
      w.returned.map (fun event => (event.eventId, event.attachments.length)) = [("e-1", 1), ("e-1", 2)]) = true := by
    decide +kernel
  obtain ⟨w, hReached, hReturned⟩ := (Option.any_eq_true ..).mp hRun
  exact ⟨w, relay_loses_nothing (.follow .refl hReached), of_decide_eq_true hReturned⟩

omit [DecidableEq δ] in
/-- What a merge writes has the conversation of a row of the table. -/
theorem World.MergesOnly.conversation {w later : World δ} {call : ℕ} {delivered : Bool} {item : Item} {group : String}
    {attempts seq : ℕ} {existing : Event δ} (h : w.MergesOnly later (.advance call delivered))
    (hStage : w.calls call = some (.merging item group attempts existing seq)) (row : Event δ) (hRow : row ∈ later.table) :
    ∃ old ∈ w.table, row.conversationId = old.conversationId := by
  rcases h item group attempts existing seq hStage with hSame | ⟨old, hOld, body, attachments, hTable⟩
  · exact ⟨row, hSame ▸ hRow, rfl⟩
  · rw [hTable] at hRow
    rcases List.mem_append.mp hRow with hThere | hNew
    · exact ⟨row, List.mem_of_mem_filter hThere, rfl⟩
    · obtain rfl := List.mem_singleton.mp hNew
      exact ⟨old, hOld, rfl⟩

def Stage.isMerging : Stage String → Bool
  | .merging .. => true
  | _ => false

/-- A row that commits after a poll has read a later one is not returned, and a merge
undoes the conversation that a response has adopted since the merge has read the event. -/
theorem relay_loses_a_message :
    (∃ w : World String, Machine.Reach (World.step inboxSettings) (fun _ _ => True) {} w ∧ ¬w.Delivers inboxSettings) ∧
      ∃ (w : World String) (action : Action) (later : World String),
        Machine.Reach (World.step inboxSettings) (fun _ _ => True) {} w ∧ w.step inboxSettings action = some later ∧
          ¬w.MergesOnly later action := by
  constructor
  · let actions : List Action :=
      [.enqueue (photo "f-1" "e-1" none), .enqueue (photo "f-2" "e-2" none), .advance 0 true, .advance 1 true,
        .advance 1 true, .poll, .fetch, .deliver, .advance 0 true]
    have hRun : (Machine.follow (World.step inboxSettings) (fun _ _ => True) {} actions).any (fun w =>
        w.table.any (fun row => row.status = .queued ∧ row.repoId = "r-1" ∧ row.body = some "" ∧ row.seq ≤ w.cursor ∧
          ∀ event ∈ w.returned, event.eventId ≠ row.eventId)) = true := by decide +kernel
    obtain ⟨w, hReached, hLost⟩ := (Option.any_eq_true ..).mp hRun
    obtain ⟨row, hRow, hRest⟩ := List.any_eq_true.mp hLost
    obtain ⟨hQueued, hRepo, hBody, hBelow, hNever⟩ := of_decide_eq_true hRest
    refine ⟨w, .follow .refl hReached, fun h => ?_⟩
    rcases h.bodies row hRow hQueued (by rw [hRepo]; decide) "" hBody with hAbove | ⟨event, hEvent, hSame, -⟩
    · omega
    · exact hNever event hEvent hSame
  · let actions : List Action :=
      [.enqueue (photo "f-1" "e-1" (some "g")), .advance 0 true, .advance 0 true, .advance 0 true,
        .enqueue (photo "f-2" "e-2" (some "g")), .advance 1 true,
        .respond ⟨"r-1", "e-1", "one moment", "processing", some "telegram:7:"⟩, .advance 2 true]
    have hRun : (Machine.follow (World.step inboxSettings) (fun _ _ => True) {} actions).any (fun w =>
        (w.calls 1).any Stage.isMerging &&
          w.table.all (fun row => row.conversationId.isSome) &&
            (w.step inboxSettings (.advance 1 true)).any fun later => later.table.any fun row => row.conversationId.isNone) =
        true := by decide +kernel
    obtain ⟨w, hReached, hLost⟩ := (Option.any_eq_true ..).mp hRun
    rw [Bool.and_eq_true, Bool.and_eq_true] at hLost
    obtain ⟨⟨hMerging, hAll⟩, hAny⟩ := hLost
    obtain ⟨later, hStep, hForgot⟩ := (Option.any_eq_true ..).mp hAny
    obtain ⟨row, hRow, hNone⟩ := List.any_eq_true.mp hForgot
    refine ⟨w, .advance 1 true, later, .follow .refl hReached, hStep, fun h => ?_⟩
    obtain ⟨stage, hStage, hMerges⟩ := (Option.any_eq_true ..).mp hMerging
    cases stage with
    | merging =>
        obtain ⟨old, hOld, hSame⟩ := h.conversation hStage row hRow
        have hSome := List.all_eq_true.mp hAll old hOld
        rw [← hSame] at hSome
        simp [Option.isNone_iff_eq_none.mp hNone] at hSome
    | _ => cases hMerges

end Brnrd.Inbox
