import Brnrd.Inbox.Rows
import Brnrd.Machine.Reach

/-! The relay: the calls of all its sessions over one table, each at the statement it has
come to, and a daemon that polls it. A row has its `seq` from its insert and is there for
others from the commit on. -/
namespace Brnrd.Inbox

/-- A message of a daemon for an event. -/
structure Post where
  repoId : String
  eventId : String
  body : String
  status : String
  conversationId : Option String
deriving DecidableEq

structure Settings (δ : Type) where
  sha : String → δ
  /-- The repos of the daemon's account. -/
  repos : List String
  pageLimit : Option ℕ
  /-- The age at which a queued event is closed; none is at `0`. -/
  horizon : ℕ

/-- Where a call has come to. -/
inductive Stage (δ : Type) where
  /-- `enqueue`, before an attempt to merge. -/
  | seeking (item : Item) (group : String) (attempts : ℕ)
  /-- The replacement of the event it has read is inserted under `seq`. -/
  | merging (item : Item) (group : String) (attempts : ℕ) (existing : Event δ) (seq : ℕ)
  | minting (item : Item)
  /-- The new row is inserted and not committed. -/
  | minted (event : Event δ)
  /-- `record_response`, with the event as it has read it. -/
  | reading (post : Post) (event : Event δ)
  | adopted (post : Post) (event : Event δ)
  | forwarded (post : Post) (event : Event δ)
  /-- `gc_events`, with the stale rows it has read. -/
  | sweeping (rows : List (Event δ)) (now : ℕ)
  | collecting (now : ℕ)

/-- A poll of the daemon: its cursor after the clamp, and the page once it is read. -/
inductive Poll (δ : Type) where
  | clamped (since : ℕ)
  | fetched (since : ℕ) (page : List (Event δ))

/-- What the sessions share, where each call is, and what has come of the calls: the rows
they have committed, what was forwarded by which call off which row, the posts that were
acknowledged with nothing forwarded, the digests that were recorded, and what the daemon
was given. -/
structure World (δ : Type) where
  table : List (Event δ) := []
  nextSeq : ℕ := 1
  clock : ℕ := 0
  calls : ℕ → Option (Stage δ) := fun _ => none
  started : ℕ := 0
  drawn : List String := []
  poll : Option (Poll δ) := none
  cursor : ℕ := 0
  committed : List (ℕ × Event δ) := []
  forwards : List (ℕ × Post × Event δ) := []
  acked : List Post := []
  recorded : List (String × δ) := []
  returned : List (Event δ) := []

inductive Action where
  | tick (now : ℕ)
  | enqueue (item : Item)
  | respond (post : Post)
  | gc
  /-- The next statement of a call; a message that is due is delivered, or not. -/
  | advance (call : ℕ) (delivered : Bool)
  /-- A call ends where it is. -/
  | drop (call : ℕ)
  | poll
  | fetch
  /-- The answer reaches the daemon. -/
  | deliver
  | lose

variable {δ : Type}

namespace World

def enter (w : World δ) (call : ℕ) (stage : Stage δ) : World δ :=
  { w with calls := Function.update w.calls call (some stage) }

def leave (w : World δ) (call : ℕ) : World δ :=
  { w with calls := Function.update w.calls call none }

def start (w : World δ) (stage : Stage δ) : World δ :=
  enter { w with started := w.started + 1 } w.started stage

/-- One attempt of `_merge_into_open_media_group`, up to its insert. -/
def seek (w : World δ) (call : ℕ) (item : Item) (group : String) : ℕ → World δ
  | 0 => w.enter call (.minting item)
  | attempts + 1 =>
      match findOpenMediaGroup w.table w.clock item.repoId group item.replyTo.chatId with
      | none => w.enter call (.minting item)
      | some existing =>
          if item.mergedBody existing = existing.body ∧ item.mergedAttachments existing = existing.attachments then
            w.leave call
          else enter { w with nextSeq := w.nextSeq + 1 } call (.merging item group attempts existing w.nextSeq)

/-- Whether the `DELETE` of a merge still finds the event as it was read. -/
def swaps (w : World δ) (existing : Event δ) : Bool :=
  w.table.any fun event => decide (event.seq = existing.seq ∧ event.body = existing.body ∧
    event.attachments = existing.attachments)

/-- The swap of a merge, and its commit; or its rollback. -/
def swap (w : World δ) (call : ℕ) (item : Item) (group : String) (attempts : ℕ) (existing : Event δ) (seq : ℕ) :
    World δ :=
  if w.swaps existing then
    let replacement := item.replacement existing seq
    leave { w with
      table := (w.table.filter fun event => decide (event.seq ≠ existing.seq)) ++ [replacement]
      committed := w.committed ++ [(call, replacement)] } call
  else w.enter call (.seeking item group attempts)

def mint (w : World δ) (call : ℕ) (item : Item) : World δ :=
  enter { w with nextSeq := w.nextSeq + 1 } call (.minted (item.event w.nextSeq w.clock))

def commit (w : World δ) (call : ℕ) (event : Event δ) : World δ :=
  leave { w with table := w.table ++ [event], committed := w.committed ++ [(call, event)] } call

/-- `UPDATE events … WHERE seq = :seq`: it is refused where there is no such row. -/
def update (w : World δ) (seq : ℕ) (write : Event δ → Event δ) : Option (World δ) :=
  if seq ∈ w.table.map Event.seq then
    some { w with table := w.table.map fun event => if event.seq = seq then write event else event }
  else none

end World

/-- The conversation that a post gives to an event that has none. -/
def Post.adopts (post : Post) (read : Event δ) : Option String :=
  if read.conversationId.getD "" = "" then post.conversationId.filter fun key => decide (key ≠ "") else none

namespace World

def adopt (w : World δ) (call : ℕ) (post : Post) (read : Event δ) : World δ :=
  match post.adopts read with
  | none => w.enter call (.adopted post read)
  | some key =>
      match w.update read.seq fun event => { event with conversationId := some key } with
      | none => w.leave call
      | some next => next.enter call (.adopted post { read with conversationId := some key })

def acknowledge (w : World δ) (call : ℕ) (post : Post) : World δ :=
  leave { w with acked := w.acked ++ [post] } call

variable [DecidableEq δ] (settings : Settings δ)

/-- `record_response` after the adoption, up to the forward. -/
def answer (w : World δ) (call : ℕ) (post : Post) (read : Event δ) (delivered : Bool) : World δ :=
  if post.status = "noted" then
    if read.status = .responded then w.acknowledge call post
    else
      match w.update read.seq (read.close "noted" 0 (settings.sha "") w.clock) with
      | none => w.leave call
      | some next =>
          acknowledge { next with recorded := next.recorded ++ [(read.eventId, settings.sha "")] } call post
  else if read.status = .responded ∧ some (settings.sha post.body) = read.responseSha then w.acknowledge call post
  else if delivered then enter { w with forwards := w.forwards ++ [(call, post, read)] } call (.forwarded post read)
  else w.leave call

/-- `record_response` after the forward. -/
def record (w : World δ) (call : ℕ) (post : Post) (read : Event δ) : World δ :=
  if read.status ≠ .responded ∧ post.status ≠ "done" then w.leave call
  else
    let write :=
      if read.status = .responded then read.speak post.body.length (settings.sha post.body)
      else read.close post.status post.body.length (settings.sha post.body) w.clock
    match w.update read.seq write with
    | none => w.leave call
    | some next => leave { next with recorded := next.recorded ++ [(read.eventId, settings.sha post.body)] } call

/-- `_expire_stale_queued` at its commit. -/
def expire (w : World δ) (call : ℕ) (rows : List (Event δ)) (now : ℕ) : World δ :=
  if ∀ read ∈ rows, read.seq ∈ w.table.map Event.seq then
    enter { w with
      table := w.table.map fun event =>
        match rows.find? fun read => decide (read.seq = event.seq) with
        | some read => read.close "expired" 0 (settings.sha "") now event
        | none => event
      recorded := w.recorded ++ rows.map fun read => (read.eventId, settings.sha "") } call (.collecting now)
  else w.leave call

/-- The rest of `gc_events`. -/
def collect (w : World δ) (call : ℕ) (now : ℕ) : World δ :=
  leave { w with
    table := (w.table.filter fun event => decide (now ≤ event.createdAt + eventRowTtl)).map fun event =>
      if event.status = .queued ∧ event.createdAt + eventBodyTtl < now ∧ event.body.isSome then
        { event with body := none, attachments := [] }
      else event } call

def advance (w : World δ) (call : ℕ) (delivered : Bool) : Stage δ → World δ
  | .seeking item group attempts => w.seek call item group attempts
  | .merging item group attempts existing seq => w.swap call item group attempts existing seq
  | .minting item => w.mint call item
  | .minted event => w.commit call event
  | .reading post event => w.adopt call post event
  | .adopted post event => w.answer settings call post event delivered
  | .forwarded post event => w.record settings call post event
  | .sweeping rows now => w.expire settings call rows now
  | .collecting now => w.collect call now

/-- `_inbox_scope`. -/
def clamp (w : World δ) : ℕ :=
  if 0 < w.cursor then clampSinceMany w.table settings.repos w.cursor else w.cursor

def read (w : World δ) (since : ℕ) : World δ :=
  { w with poll := some (.fetched since (fetchSinceMany w.table settings.repos since settings.pageLimit)) }

def step (w : World δ) : Action → Option (World δ)
  | .tick now => if w.clock ≤ now then some { w with clock := now } else none
  | .enqueue item =>
      if item.eventId ∈ w.drawn then none
      else
        some ({ w with drawn := item.eventId :: w.drawn }.start
          (match item.group with
            | some group => .seeking item group mediaGroupMergeMaxAttempts
            | none => .minting item))
  | .respond post =>
      (w.table.find? fun event => decide (event.eventId = post.eventId ∧ event.repoId = post.repoId)).map fun event =>
        w.start (.reading post event)
  | .gc =>
      some (w.start
        (if 0 < settings.horizon then
          .sweeping (w.table.filter fun event => isQueued event && decide (event.createdAt + settings.horizon < w.clock)) w.clock
        else .collecting w.clock))
  | .advance call delivered => (w.calls call).map (w.advance settings call delivered)
  | .drop call => some (w.leave call)
  | .poll =>
      match w.poll with
      | none => some { w with poll := some (.clamped (w.clamp settings)) }
      | some _ => none
  | .fetch =>
      match w.poll with
      | some (.clamped since) | some (.fetched since []) => some (w.read settings since)
      | _ => none
  | .deliver =>
      match w.poll with
      | some (.fetched since page) =>
          some { w with
            poll := none
            cursor := ((page.map Event.seq).max?).getD since
            returned := w.returned ++ page }
      | _ => none
  | .lose => some { w with poll := none }

end World

end Brnrd.Inbox
