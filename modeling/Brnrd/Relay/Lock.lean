import Brnrd.Machine.Reach
import Mathlib.Order.Basic

/-! The relay of one state directory: the daemon's gate and the loom's relay, each at the
statement it has come to, with the lock, its record and the server they poll. -/
namespace Brnrd.Relay

inductive Consumer where
  | daemon
  | loom
deriving DecidableEq

def Consumer.other : Consumer → Consumer
  | .daemon => .loom
  | .loom => .daemon

inductive Stage where
  | off
  /-- The top of the daemon's loop; the loom waits for the lock. -/
  | idle
  /-- The daemon has seen that nobody else wants the relay. -/
  | free
  /-- The lock is taken, and the cursor of its record is read. -/
  | locked (read : Option ℕ)
  /-- The record is emptied, on taking the lock or after a poll. -/
  | rewriting (cursor : Option ℕ) (polled : Bool)
  | held
  | polling
  /-- What is left of a page, the cursor that came with it, and whether an event of it has
  failed. -/
  | ingesting (page : List ℕ) (cursor : ℕ) (failed : Bool)
  /-- The page is taken in and the consumer's own cursor is saved. -/
  | saved
  | done
  | leaving
deriving DecidableEq

/-- A consumer, with the cursor in its own file. -/
structure Party where
  stage : Stage := .off
  cursor : ℕ := 0

/-- `top` is the last seq that the server has given. -/
structure World where
  events : List ℕ := []
  closed : List ℕ := []
  top : ℕ := 0
  flock : Option Consumer := none
  /-- The cursor that the lock's record is read to have. -/
  record : Option ℕ := none
  want : Bool := false
  party : Consumer → Party := fun _ => {}
  ingested : List (Consumer × ℕ) := []

inductive Action where
  | post (seq : ℕ)
  /-- The server closes an event that was answered. -/
  | close (seq : ℕ)
  | start (c : Consumer)
  | next (c : Consumer)
  /-- The statement raises. -/
  | raise (c : Consumer)
  /-- An event of the loom's page raises, and the page goes on. -/
  | skip
  /-- The loom is told to stop. -/
  | stop
  | crash (c : Consumer)

namespace World

def enter (w : World) (c : Consumer) (stage : Stage) : World :=
  { w with party := Function.update w.party c { w.party c with stage } }

/-- `flock` is freed, where this consumer has it. -/
def release (w : World) (c : Consumer) : World :=
  if w.flock = some c then { w with flock := none } else w

/-- `wanted_by_other`, of the daemon. -/
def wanted (w : World) : Bool :=
  w.want && decide ((w.party .loom).stage ≠ .off)

/-- `try_acquire`, up to the rewrite of the record. -/
def tryAcquire (w : World) (c : Consumer) : World :=
  match w.flock with
  | none => { w with flock := some c }.enter c (.locked w.record)
  | some holder => w.enter c (if holder = c then .held else .idle)

/-- The events that the server returns to a poll, oldest first. -/
def serve (w : World) (since limit : ℕ) : List ℕ :=
  ((w.events.filter fun seq => decide (since < seq ∧ seq ∉ w.closed)).take limit)

def ingest (w : World) (c : Consumer) (seq : ℕ) : World :=
  if (c, seq) ∈ w.ingested then w else { w with ingested := w.ingested ++ [(c, seq)] }

def save (w : World) (c : Consumer) (cursor : ℕ) (stage : Stage) : World :=
  { w with party := Function.update w.party c ⟨stage, cursor⟩ }

/-- The next statement of a consumer. -/
def next (limit : ℕ) (w : World) (c : Consumer) : Option World :=
  match (w.party c).stage with
  | .off => none
  | .idle =>
      match c with
      | .daemon => if w.wanted then none else some (w.enter c .free)
      | .loom => some (w.tryAcquire c)
  | .free => some (w.tryAcquire c)
  | .locked read => some ({ w with record := none }.enter c (.rewriting read false))
  | .rewriting cursor polled => some ({ w with record := cursor }.enter c (if polled then .done else .held))
  -- `_adopt_relay_cursor`, and the loom's first look
  | .held => some (w.save c (max (w.party c).cursor (w.record.getD 0)) .polling)
  | .polling =>
      let page := w.serve (w.party c).cursor limit
      some (w.enter c (.ingesting page (page.getLast?.getD (w.party c).cursor) false))
  | .ingesting (seq :: page) cursor failed => some ((w.ingest c seq).enter c (.ingesting page cursor failed))
  | .ingesting [] cursor failed => some (if failed then w.enter c .polling else w.save c cursor .saved)
  | .saved => some ({ w with record := none }.enter c (.rewriting (some (w.party c).cursor) true))
  | .done =>
      match c with
      | .daemon => some ((w.release c).enter c .idle)
      | .loom => some (w.enter c .polling)
  | .leaving => some ({ w with want := false }.enter c .off)

/-- A statement raises: the daemon releases the lock that it polls under and goes on; the
loom keeps it, and leaves where it has not got it. -/
def raise (w : World) (c : Consumer) : Option World :=
  match c, (w.party c).stage with
  | .daemon, .locked _ | .daemon, .rewriting _ false => some (w.enter c .idle)
  | .daemon, .held | .daemon, .polling | .daemon, .ingesting .. | .daemon, .saved | .daemon, .rewriting _ true | .daemon, .done =>
      some ((w.release c).enter c .idle)
  | .loom, .held => some w
  | .loom, .polling | .loom, .ingesting .. | .loom, .saved | .loom, .rewriting _ true | .loom, .done => some (w.enter c .polling)
  | .loom, .idle | .loom, .locked _ | .loom, .rewriting _ false => some ((w.release c).enter c .leaving)
  | _, _ => none

def step (limit : ℕ) (w : World) : Action → Option World
  | .post seq => if w.top < seq then some { w with events := w.events ++ [seq], top := seq } else none
  | .close seq => if seq ∈ w.ingested.map Prod.snd then some { w with closed := seq :: w.closed } else none
  | .start c =>
      match (w.party c).stage, c with
      | .off, .daemon => some (w.enter c .idle)
      | .off, .loom => some ({ w with want := true }.enter c .idle)
      | _, _ => none
  | .next c => w.next limit c
  | .raise c => w.raise c
  | .skip =>
      match (w.party .loom).stage with
      | .ingesting (_ :: page) cursor _ => some (w.enter .loom (.ingesting page cursor true))
      | _ => none
  | .stop =>
      match (w.party .loom).stage with
      | .idle | .polling => some ((w.release .loom).enter .loom .leaving)
      | _ => none
  | .crash c => some ((w.release c).enter c .off)

end World

end Brnrd.Relay
