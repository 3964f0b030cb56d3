import Brnrd.Python.Value
import Mathlib.Data.List.Sort

/-! A row of the relay's `events`: what the calls make of the rows they have read, and
what a row becomes where it stands. -/
namespace Brnrd.Inbox

inductive Status where
  | queued
  | responded
deriving DecidableEq

/-- An attachment, by its pointer. -/
structure Pointer where
  fileId : String
  filename : String
  kind : String
  fileSize : Option ℕ
deriving DecidableEq

/-- `reply_to`, as far as its keys are read. -/
structure Address where
  platform : Option String
  chatId : Option String
  mediaGroupId : Option String
  rest : List (String × String)
deriving DecidableEq

/-- `Event`. Times are in microseconds; `δ` is the type of the digests. -/
structure Event (δ : Type) where
  seq : ℕ
  eventId : String
  repoId : String
  runtimeId : Option String
  source : String
  body : Option String
  replyTo : Address
  status : Status
  createdAt : ℕ
  responseStatus : Option String
  responseLen : Option ℕ
  responseMs : Option ℕ
  respondedAt : Option ℕ
  responseSha : Option δ
  conversationId : Option String
  attachments : List Pointer
deriving DecidableEq

/-- The arguments of `enqueue`, with the id that it draws. -/
structure Item where
  repoId : String
  body : String
  source : String
  replyTo : Address
  attachments : List Pointer
  mediaGroupId : Option String
  eventId : String

/-- `_MEDIA_GROUP_MERGE_WINDOW`. -/
def mediaGroupMergeWindow : ℕ := 15 * 1000000

/-- `_MEDIA_GROUP_MERGE_MAX_ATTEMPTS`. -/
def mediaGroupMergeMaxAttempts : ℕ := 12

/-- `_EVENT_BODY_TTL`. -/
def eventBodyTtl : ℕ := 14 * 86400 * 1000000

/-- `_EVENT_ROW_TTL`. -/
def eventRowTtl : ℕ := 90 * 86400 * 1000000

/-- Nothing is left of the text without its outer whitespace. -/
def blank (text : String) : Bool :=
  (Python.strip text.toList).isEmpty

/-- `str(media_group_id or "").strip() or None`. -/
def Item.group (item : Item) : Option String :=
  match item.mediaGroupId with
  | none => none
  | some group => if blank group then none else some (String.ofList (Python.strip group.toList))

variable {δ : Type}

/-- The row that `enqueue` inserts. -/
def Item.event (item : Item) (seq now : ℕ) : Event δ where
  seq := seq
  eventId := item.eventId
  repoId := item.repoId
  runtimeId := none
  source := item.source
  body := some item.body
  replyTo := match item.group with
    | none => item.replyTo
    | some group => { item.replyTo with mediaGroupId := some group }
  status := .queued
  createdAt := now
  responseStatus := none
  responseLen := none
  responseMs := none
  respondedAt := none
  responseSha := none
  conversationId := none
  attachments := item.attachments

/-- `_find_open_media_group`: the newest queued row of the album. -/
def findOpenMediaGroup (table : List (Event δ)) (now : ℕ) (repoId group : String) (chatId : Option String) :
    Option (Event δ) :=
  let candidates := table.filter fun event => decide (event.repoId = repoId ∧ event.status = .queued ∧
    event.source = "telegram" ∧ now ≤ event.createdAt + mediaGroupMergeWindow)
  (candidates.insertionSort fun a b => b.seq ≤ a.seq).find? fun event =>
    decide (event.replyTo.mediaGroupId = some group ∧ (chatId = none ∨ event.replyTo.chatId = chatId))

/-- The body of the row that takes an item in: the item's own where the row has none. -/
def Item.mergedBody (item : Item) (existing : Event δ) : Option String :=
  if item.body ≠ "" ∧ blank (existing.body.getD "") then some item.body else existing.body

def Item.mergedAttachments (item : Item) (existing : Event δ) : List Pointer :=
  existing.attachments ++ item.attachments

/-- The row that replaces one that takes an item in: a copy of what was read of it. -/
def Item.replacement (item : Item) (existing : Event δ) (seq : ℕ) : Event δ :=
  { existing with seq, body := item.mergedBody existing, attachments := item.mergedAttachments existing }

/-- A column in the `UPDATE` of a flush: it is set where its value is another than the
one that was read. -/
def flushed {α : Type} [DecidableEq α] (read new current : α) : α :=
  if new = read then current else new

/-- The rows in the scope of a poll. -/
def inScope (table : List (Event δ)) (repos : List String) : List (Event δ) :=
  table.filter fun event => decide (event.repoId ∈ repos)

def isQueued (event : Event δ) : Bool :=
  decide (event.status = .queued)

/-- `clamp_since_many`. -/
def clampSinceMany (table : List (Event δ)) (repos : List String) (since : ℕ) : ℕ :=
  if repos = [] then 0
  else
    let ceiling := (((inScope table repos).map Event.seq).max?).getD 0
    if since ≤ ceiling then since
    else
      match (((inScope table repos).filter isQueued).map Event.seq).min? with
      | some oldest => oldest - 1
      | none => ceiling

/-- `fetch_since_many`: one page of what is queued, oldest first. -/
def fetchSinceMany (table : List (Event δ)) (repos : List String) (since : ℕ) (limit : Option ℕ) : List (Event δ) :=
  let rows := (((inScope table repos).filter isQueued).filter fun event => decide (since < event.seq)).insertionSort
    fun a b => a.seq ≤ b.seq
  match limit with
  | some n => if 0 < n then rows.take n else rows
  | none => rows

variable [DecidableEq δ]

/-- The close of a row, off what was read of it. -/
def Event.close (read : Event δ) (status : String) (length : ℕ) (sha : δ) (now : ℕ) (row : Event δ) : Event δ :=
  { row with
    responseStatus := flushed read.responseStatus (some status) row.responseStatus
    responseLen := flushed read.responseLen (some length) row.responseLen
    responseMs := flushed read.responseMs (some ((now - read.createdAt) / 1000)) row.responseMs
    responseSha := flushed read.responseSha (some sha) row.responseSha
    respondedAt := flushed read.respondedAt (some now) row.respondedAt
    status := flushed read.status .responded row.status
    body := flushed read.body none row.body
    attachments := flushed read.attachments [] row.attachments }

/-- What a continuation leaves in a row that is closed. -/
def Event.speak (read : Event δ) (length : ℕ) (sha : δ) (row : Event δ) : Event δ :=
  { row with
    responseSha := flushed read.responseSha (some sha) row.responseSha
    responseLen := flushed read.responseLen (some length) row.responseLen }

end Brnrd.Inbox

/-! What becomes of a row where it stands, and what a reader of the table finds. -/
namespace Brnrd.Inbox

variable {δ : Type}

/-- What writes to a row may make of it: its body and its attachments may go, both at
once, and it may be closed. -/
structure Aged (old new : Event δ) : Prop where
  seq : new.seq = old.seq
  eventId : new.eventId = old.eventId
  repoId : new.repoId = old.repoId
  runtimeId : new.runtimeId = old.runtimeId
  source : new.source = old.source
  replyTo : new.replyTo = old.replyTo
  createdAt : new.createdAt = old.createdAt
  contents : (new.body = old.body ∧ new.attachments = old.attachments) ∨ (new.body = none ∧ new.attachments = [])
  status : old.status = .responded → new.status = .responded

/-- What holds of every row: a closed one carries nothing, an open one has no response,
and it loses its body only with age. -/
structure Event.Fine (event : Event δ) (now : ℕ) : Prop where
  responded : event.status = .responded → event.body = none ∧ event.attachments = []
  queued : event.status = .queued → event.responseStatus = none ∧ event.responseLen = none ∧
    event.responseMs = none ∧ event.respondedAt = none ∧ event.responseSha = none
  aged : event.status = .queued → event.body = none → event.createdAt + eventBodyTtl < now

variable {new old event : Event δ}

theorem Aged.body (h : Aged old new) : new.body = old.body ∨ new.body = none :=
  h.contents.imp And.left And.left

theorem Aged.attachments (h : Aged old new) :
    new.attachments = old.attachments ∨ new.attachments = [] :=
  h.contents.imp And.right And.right

theorem Aged.refl (event : Event δ) : Aged event event :=
  ⟨rfl, rfl, rfl, rfl, rfl, rfl, rfl, .inl ⟨rfl, rfl⟩, id⟩

theorem Aged.trans {a b c : Event δ} (hFirst : Aged a b) (hNext : Aged b c) : Aged a c where
  seq := hNext.seq.trans hFirst.seq
  eventId := hNext.eventId.trans hFirst.eventId
  repoId := hNext.repoId.trans hFirst.repoId
  runtimeId := hNext.runtimeId.trans hFirst.runtimeId
  source := hNext.source.trans hFirst.source
  replyTo := hNext.replyTo.trans hFirst.replyTo
  createdAt := hNext.createdAt.trans hFirst.createdAt
  contents := by
    rcases hNext.contents with ⟨hBody, hAttachments⟩ | hGone
    · rw [hBody, hAttachments]
      exact hFirst.contents
    · exact .inr hGone
  status := fun h => hNext.status (hFirst.status h)

variable {now since : ℕ}

theorem Event.Fine.later {later : ℕ} (h : event.Fine now) (hLater : now ≤ later) :
    event.Fine later :=
  ⟨h.responded, h.queued, fun hQueued hBody => (h.aged hQueued hBody).trans_le hLater⟩

/-- A row that has a body is open. -/
theorem Event.Fine.open (h : event.Fine now) (hBody : event.body.isSome) : event.status = .queued := by
  cases hStatus : event.status with
  | queued => rfl
  | responded =>
      rw [(h.responded hStatus).1] at hBody
      cases hBody

theorem fine_event (item : Item) (seq now : ℕ) : (item.event seq now : Event δ).Fine now where
  responded := by
    intro h
    cases h
  queued := fun _ => ⟨rfl, rfl, rfl, rfl, rfl⟩
  aged := by
    intro _ h
    cases h

/-- What ages out of a row that is old enough. -/
theorem aged_stripped (event : Event δ) : Aged event { event with body := none, attachments := [] } :=
  ⟨rfl, rfl, rfl, rfl, rfl, rfl, rfl, .inr ⟨rfl, rfl⟩, id⟩

section Writes

variable {α : Type} [DecidableEq α]

theorem flushed_of_ne {read new : α} (h : new ≠ read) (current : α) : flushed read new current = new :=
  if_neg h

/-- A column that can only have gone since it was read is gone after the flush. -/
theorem flushed_gone {read gone current : α} (h : current = read ∨ current = gone) : flushed read gone current = gone := by
  unfold flushed
  split
  · rename_i hSame
    rcases h with h | h
    · exact h.trans hSame.symm
    · exact h
  · rfl

end Writes

section Close

variable [DecidableEq δ] {read row : Event δ} {status : String} {length now clock : ℕ} {sha : δ}

theorem aged_close (hAged : Aged read row) : Aged row (read.close status length sha now row) where
  seq := rfl
  eventId := rfl
  repoId := rfl
  runtimeId := rfl
  source := rfl
  replyTo := rfl
  createdAt := rfl
  contents := .inr ⟨flushed_gone hAged.body, flushed_gone hAged.attachments⟩
  status := by
    intro h
    show flushed _ _ row.status = _
    rw [h]
    exact flushed_gone (.inr rfl)

theorem aged_speak : Aged row (read.speak length sha row) :=
  ⟨rfl, rfl, rfl, rfl, rfl, rfl, rfl, .inl ⟨rfl, rfl⟩, id⟩

/-- A close off an open row closes what the row has become. -/
theorem close_status (hRead : read.status = .queued) : (read.close status length sha now row).status = .responded :=
  flushed_of_ne (by simp [hRead]) _

theorem fine_close (hAged : Aged read row) (hRead : read.status = .queued) :
    (read.close status length sha now row).Fine clock := by
  have hStatus := @close_status δ _ read row status length now sha hRead
  refine ⟨fun _ => ⟨flushed_gone hAged.body, flushed_gone hAged.attachments⟩, fun h => ?_, fun h => ?_⟩ <;>
    simp [hStatus] at h

theorem fine_speak (hFine : row.Fine clock) (hAged : Aged read row) (hRead : read.status = .responded) :
    (read.speak length sha row).Fine clock := by
  have hStatus : (read.speak length sha row).status = .responded := hAged.status hRead
  exact ⟨fun _ => hFine.responded (hAged.status hRead), fun h => by simp [hStatus] at h, fun h => by simp [hStatus] at h⟩

/-- The digest that a flush off a row leaves is the new one where no other has been
recorded since, and where it is not the one that was read. -/
theorem close_sha (hFine : read.Fine clock) (hRead : read.status = .queued) :
    (read.close status length sha now row).responseSha = some sha :=
  flushed_of_ne (by simp [(hFine.queued hRead).2.2.2.2]) _

theorem speak_sha (h : some sha ≠ read.responseSha) : (read.speak length sha row).responseSha = some sha :=
  flushed_of_ne h _

end Close

/-- The rows of a later table are rows of the table, aged. -/
def Ages (table later : List (Event δ)) : Prop :=
  ∃ write : Event δ → Event δ, ∀ new ∈ later, ∃ old ∈ table, Aged old new ∧ write old = new

theorem Ages.refl (table : List (Event δ)) : Ages table table :=
  ⟨id, fun new hNew => ⟨new, hNew, .refl new, rfl⟩⟩

theorem Ages.filter (table : List (Event δ)) (p : Event δ → Bool) : Ages table (table.filter p) :=
  ⟨id, fun new hNew => ⟨new, List.mem_of_mem_filter hNew, .refl new, rfl⟩⟩

theorem Ages.map {table : List (Event δ)} {write : Event δ → Event δ} (h : ∀ event ∈ table, Aged event (write event)) :
    Ages table (table.map write) :=
  ⟨write, fun new hNew => by
    obtain ⟨old, hOld, rfl⟩ := List.mem_map.mp hNew
    exact ⟨old, hOld, h old hOld, rfl⟩⟩

theorem Ages.trans {a b c : List (Event δ)} (hFirst : Ages a b) (hNext : Ages b c) : Ages a c := by
  obtain ⟨first, hFirst⟩ := hFirst
  obtain ⟨next, hNext⟩ := hNext
  refine ⟨next ∘ first, fun new hNew => ?_⟩
  obtain ⟨middle, hMiddle, hAged, rfl⟩ := hNext new hNew
  obtain ⟨old, hOld, hBefore, rfl⟩ := hFirst middle hMiddle
  exact ⟨old, hOld, hBefore.trans hAged, rfl⟩

/-- What tells the rows of a table apart and does not age tells the later ones apart. -/
theorem Ages.injOn {table later : List (Event δ)} {κ : Type} {key : Event δ → κ} (h : Ages table later)
    (hKey : ∀ old new, Aged old new → key new = key old) (hApart : Set.InjOn key {event | event ∈ table}) :
    Set.InjOn key {event | event ∈ later} := by
  obtain ⟨write, hWrite⟩ := h
  intro a ha b hb hSame
  obtain ⟨oldA, hA, hAgedA, rfl⟩ := hWrite a ha
  obtain ⟨oldB, hB, hAgedB, rfl⟩ := hWrite b hb
  rw [hKey _ _ hAgedA, hKey _ _ hAgedB] at hSame
  rw [hApart hA hB hSame]

theorem find_open_spec {table : List (Event δ)} {repoId group : String} {chatId : Option String}
    (h : findOpenMediaGroup table now repoId group chatId = some event) :
    event ∈ table ∧ event.status = .queued ∧ now ≤ event.createdAt + mediaGroupMergeWindow := by
  have hMem := List.mem_of_find?_eq_some h
  rw [List.mem_insertionSort, List.mem_filter, decide_eq_true_eq] at hMem
  exact ⟨hMem.1, hMem.2.2.1, hMem.2.2.2.2⟩

theorem clamp_le (table : List (Event δ)) (repos : List String) (since : ℕ) : clampSinceMany table repos since ≤ since := by
  unfold clampSinceMany
  split
  · exact Nat.zero_le _
  · dsimp only
    split
    · exact le_rfl
    · rename_i hAbove
      have hCeiling := (Nat.lt_of_not_le hAbove).le
      split
      · rename_i oldest hOldest
        refine le_trans (Nat.sub_le _ _) (le_trans ?_ hCeiling)
        obtain ⟨event, hEvent, rfl⟩ := List.mem_map.mp (List.min?_mem hOldest)
        have hMem : event.seq ∈ (inScope table repos).map Event.seq :=
          List.mem_map_of_mem (List.mem_of_mem_filter hEvent)
        cases hMax : ((inScope table repos).map Event.seq).max? with
        | none => simp [List.max?_eq_none_iff.mp hMax] at hMem
        | some top => exact (List.max?_eq_some_iff.mp hMax).2 _ hMem
      · exact hCeiling

theorem mem_fetch {table : List (Event δ)} {repos : List String} {limit : Option ℕ}
    (h : event ∈ fetchSinceMany table repos since limit) :
    event ∈ table ∧ event.repoId ∈ repos ∧ event.status = .queued ∧ since < event.seq := by
  have hRow : event ∈ ((inScope table repos).filter isQueued).filter fun event => decide (since < event.seq) := by
    unfold fetchSinceMany at h
    dsimp only at h
    split at h
    · split at h
      · exact (List.mem_insertionSort _).mp (List.mem_of_mem_take h)
      · exact (List.mem_insertionSort _).mp h
    · exact (List.mem_insertionSort _).mp h
  simp only [inScope, isQueued, List.mem_filter, decide_eq_true_eq] at hRow
  exact ⟨hRow.1.1.1, hRow.1.1.2, hRow.1.2, hRow.2⟩

/-- In a list sorted by keys that tell its elements apart, what is no larger than an
element of a first part is in that part. -/
theorem mem_take_of_le {rows : List (Event δ)} (hSorted : rows.Pairwise fun a b => a.seq ≤ b.seq)
    (hApart : Set.InjOn Event.seq {event | event ∈ rows}) {n : ℕ} {row last : Event δ} (hRow : row ∈ rows)
    (hLast : last ∈ rows.take n) (hLe : row.seq ≤ last.seq) : row ∈ rows.take n := by
  rw [← List.take_append_drop n rows] at hRow hSorted
  rcases List.mem_append.mp hRow with h | h
  · exact h
  · have hBefore := (List.pairwise_append.mp hSorted).2.2 last hLast row h
    have hSame := hApart (List.mem_of_mem_take hLast) (List.mem_of_mem_drop h) (le_antisymm hBefore hLe)
    exact hSame ▸ hLast

/-- A page leaves out nothing below the last of it. -/
theorem fetch_complete {table : List (Event δ)} (hApart : Set.InjOn Event.seq {event | event ∈ table}) {repos : List String}
    {limit : Option ℕ} {row last : Event δ} (hRow : row ∈ table) (hScope : row.repoId ∈ repos)
    (hQueued : row.status = .queued) (hSince : since < row.seq) (hLast : last ∈ fetchSinceMany table repos since limit)
    (hLe : row.seq ≤ last.seq) :
    row ∈ fetchSinceMany table repos since limit := by
  have hIn : row ∈ (((inScope table repos).filter isQueued).filter fun event => decide (since < event.seq)).insertionSort
      fun a b => a.seq ≤ b.seq := by
    rw [List.mem_insertionSort]
    simp [inScope, isQueued, hRow, hScope, hQueued, hSince]
  unfold fetchSinceMany at hLast ⊢
  dsimp only at hLast ⊢
  split at hLast
  · split at hLast
    · rename_i hLimit
      rw [if_pos hLimit]
      refine mem_take_of_le ?_ ?_ hIn hLast hLe
      · exact @List.pairwise_insertionSort _ (fun a b : Event δ => a.seq ≤ b.seq) _ ⟨fun a b => Nat.le_total a.seq b.seq⟩
          ⟨fun _ _ _ => Nat.le_trans⟩ _
      · intro a ha b hb
        refine hApart ?_ ?_
        · simp only [Set.mem_ofPred_eq, List.mem_insertionSort, List.mem_filter, inScope] at ha
          exact ha.1.1.1
        · simp only [Set.mem_ofPred_eq, List.mem_insertionSort, List.mem_filter, inScope] at hb
          exact hb.1.1.1
    · rename_i hLimit
      rw [if_neg hLimit]
      exact hIn
  · exact hIn

end Brnrd.Inbox
