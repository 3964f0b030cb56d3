import Brnrd.Tables.Patches
import Mathlib.Data.List.Infix

/-! The board's server: the parts of the last compute, the index that carries each one's
hash, and the patches between the beads of one hash and the next. -/
namespace Brnrd.Board

open Patches

/-- Ids, names and times are texts `ι`; what no code here looks into is a value `J`. -/
structure Letter (ι J : Type) where
  id : ι
  written : ι
  row : J
deriving DecidableEq

/-- A thread part whole. The tape is its `tools` and `live`, the body all the rest. -/
structure Thread (ι J : Type) where
  letters : List (Letter ι J)
  body : J
  tape : J
deriving DecidableEq

/-- A thread part as it is sent, cut to a stretch of its letters. -/
structure ThreadPart (ι J : Type) where
  letters : List (Letter ι J)
  more : Bool
  body : J
  tape : J
deriving DecidableEq

/-- `LETTERS`. -/
def lettersPerPart : ℕ := 200

/-- `BEAD_DELTAS`. -/
def beadDeltas : ℕ := 8

section Window

variable {ι J : Type} [DecidableEq ι]

/-- Where the cut ends and where it starts. -/
def cutEnd (ids : List ι) (before : Option ι) : ℕ :=
  match before with
  | some id => if id ∈ ids then ids.idxOf id else ids.length
  | none => ids.length

def cutStart (ids : List ι) (before target : Option ι) : ℕ :=
  let start := cutEnd ids before - lettersPerPart
  match target with
  | some id => if id ∈ ids then min start (ids.idxOf id) else start
  | none => start

/-- The newest letters older than `before`; `until` reaches back to a target. -/
def window (part : Thread ι J) (before target : Option ι) : ThreadPart ι J :=
  let ids := part.letters.map Letter.id
  let start := cutStart ids before target
  ⟨(part.letters.take (cutEnd ids before)).drop start, decide (0 < start), part.body, part.tape⟩

end Window

/-- What a compute makes. `unthreaded` is a part only when it has a wish. -/
structure Parts (ι J : Type) where
  head : J
  fuel : J
  threads : List (ι × Thread ι J)
  beads : List (ι × J)
  topics : List J
  unthreaded : List J
  distinct : (beads.map Prod.fst).Nodup

/-- What is hashed: a part as canonical text, so beads by what each id reads. -/
inductive Part (ι J : Type) where
  | thread (thread : Thread ι J)
  | beads (rows : ι → Option J)
  | rows (rows : List J)

structure BeadsDelta (ι J δ : Type) where
  since : δ
  hash : δ
  patch : Patch ι J
deriving DecidableEq

/-- The index: short rows in `head`, the hash of each part, and the patches that came
with the compute that moved the beads. -/
structure Index (ι J δ : Type) where
  head : J
  fuel : J
  threads : List (ι × δ)
  beads : δ
  topics : Option δ
  unthreaded : Option δ
  beadsDelta : Option (BeadsDelta ι J δ × List (δ × BeadsDelta ι J δ))
deriving DecidableEq

/-- `Parts`: the last compute, the patches its index carries, and those kept for `?since=`. -/
structure Server (ι J δ : Type) where
  parts : Parts ι J
  indexDelta : Option (BeadsDelta ι J δ × List (δ × BeadsDelta ι J δ))
  beadDeltas : List (δ × BeadsDelta ι J δ)

section Deltas

variable {ι J δ : Type} [DecidableEq ι] [DecidableEq J] [DecidableEq δ]

/-- `beads_delta`. -/
def beads_delta (since : δ) (was : List (ι × J)) (now : Parts ι J) (newHash : δ) : BeadsDelta ι J δ :=
  ⟨since, newHash, between was now.beads now.distinct⟩

/-- The walk from one hash to another. A hash walked through is taken out, so each round
leaves one patch fewer and a hash seen again breaks the walk. -/
def walk (current : δ) : ℕ → List (δ × BeadsDelta ι J δ) → δ → Patch ι J → Option (Patch ι J)
  | 0, _, cur, merged => if cur = current then some merged else none
  | rounds + 1, deltas, cur, merged =>
      if cur = current then some merged
      else match Entries.get cur deltas with
        | none => none
        | some step =>
            walk current rounds (deltas.filter fun item => item.1 ≠ cur) step.hash (merged.merge step.patch)

/-- `compose_deltas`: the patch from `since` to the current hash, or none when the walk
breaks. -/
def compose_deltas (deltas : List (δ × BeadsDelta ι J δ)) (since current : δ) : Option (BeadsDelta ι J δ) :=
  (walk current deltas.length deltas since .empty).map fun patch => ⟨since, current, patch⟩

end Deltas

namespace Server

variable {ι J δ : Type} [DecidableEq ι] [DecidableEq J] [DecidableEq δ] (digest : Part ι J → δ)

def beadsHash (server : Server ι J δ) : δ :=
  digest (.beads fun id => Entries.get id server.parts.beads)

def threadHash (server : Server ι J δ) (name : ι) : Option δ :=
  (Entries.get name server.parts.threads).map fun thread => digest (.thread thread)

def topicsHash (server : Server ι J δ) : Option δ :=
  some (digest (.rows server.parts.topics))

def unthreadedHash (server : Server ι J δ) : Option δ :=
  if server.parts.unthreaded = [] then none else some (digest (.rows server.parts.unthreaded))

def index (server : Server ι J δ) : Index ι J δ where
  head := server.parts.head
  fuel := server.parts.fuel
  threads := server.parts.threads.map fun item => (item.1, digest (.thread item.2))
  beads := server.beadsHash digest
  topics := server.topicsHash digest
  unthreaded := server.unthreadedHash digest
  beadsDelta := server.indexDelta

/-- A whole compute. Beads that moved leave the patch from the hash before, and the
oldest patches go. -/
def recomputed (server : Server ι J δ) (parts : Parts ι J) : Server ι J δ :=
  let plain : Server ι J δ := ⟨parts, none, server.beadDeltas⟩
  let old := server.beadsHash digest
  let new := plain.beadsHash digest
  if old = new then plain
  else
    let delta := beads_delta old server.parts.beads parts new
    let kept := Entries.set old delta server.beadDeltas
    let deltas := kept.drop (kept.length - Board.beadDeltas)
    ⟨parts, some (delta, deltas), deltas⟩

/-- `_retaped`: the last compute with the tapes cut fresh. -/
def retaped (server : Server ι J δ) (tapes : List (ι × J)) : Server ι J δ :=
  let threads := server.parts.threads.map fun item =>
    (item.1, { item.2 with tape := (Entries.get item.1 tapes).getD item.2.tape })
  { server with parts := { server.parts with threads := threads } }

/-- `_with_fuel`: the index's fuel rows replaced. -/
def withFuel (server : Server ι J δ) (fuel : J) : Server ι J δ :=
  { server with parts := { server.parts with fuel := fuel } }

/-- `hashes == self.hashes`: a step that moves no hash leaves the parts as they were. The
index has the hashes of the others, so it stands for its own. -/
def moved (server now : Server ι J δ) : Bool :=
  now.index digest ≠ server.index digest

end Server

/-- What a step makes: a whole compute, or the last one with tapes and fuel spliced in. -/
inductive Move (ι J : Type) where
  | recompute (parts : Parts ι J)
  | splice (tapes : List (ι × J)) (fuel : J)

section Step

variable {ι J δ : Type} [DecidableEq ι] [DecidableEq J] [DecidableEq δ] (digest : Part ι J → δ)

def Server.now (server : Server ι J δ) : Move ι J → Server ι J δ
  | .recompute parts => server.recomputed digest parts
  | .splice tapes fuel => (server.retaped tapes).withFuel fuel

/-- `Parts.step`. -/
def Server.step (server : Server ι J δ) (move : Move ι J) : Server ι J δ :=
  if server.moved digest (server.now digest move) then server.now digest move else server

/-- The first compute. -/
def Server.start (parts : Parts ι J) : Server ι J δ := ⟨parts, none, []⟩

end Step

end Brnrd.Board

/-! The board's client: the parts it holds, the hash each is filed under, and what a sync
does from one request to the next. -/
namespace Brnrd.Board

variable {ι J δ : Type} [DecidableEq ι] [DecidableEq J] [DecidableEq δ]

/-- `held`: the hash each part is filed under. -/
structure Hashes (ι δ : Type) where
  threads : List (ι × δ)
  beads : Option δ
  topics : Option δ
  unthreaded : Option δ

structure Store (ι J δ : Type) where
  index : Option (Index ι J δ)
  threads : List (ι × ThreadPart ι J)
  beads : Option (List (ι × J))
  topics : List J
  unthreaded : List J
  held : Hashes ι δ

def Store.fresh : Store ι J δ := ⟨none, [], none, [], [], ⟨[], none, none, none⟩⟩

/-- The thread parts whose hash moved since `held`. -/
def movedFetch (index : Index ι J δ) (held : Hashes ι δ) : List ι :=
  (index.threads.map Prod.fst).filter fun name => Entries.get name held.threads ≠ Entries.get name index.threads

/-- The ones the index no longer names. -/
def movedDrop (index : Index ι J δ) (held : Hashes ι δ) : List ι :=
  (held.threads.map Prod.fst).filter fun name => (Entries.get name index.threads).isNone

section Keep

variable [LT ι] [DecidableLT ι]

/-- The letters held that are not in the window and come before its first. -/
def prior (was got : ThreadPart ι J) (first : Letter ι J) : List (Letter ι J) :=
  was.letters.filter fun l =>
    l.id ∉ got.letters.map Letter.id ∧ (l.written < first.written ∨ l.written = first.written ∧ l.id < first.id)

/-- A refetched part is the newest window again; the older letters scrolled in before it
stay. -/
def keep (was : Option (ThreadPart ι J)) (got : ThreadPart ι J) : ThreadPart ι J :=
  match was, got.letters.head? with
  | some was, some first =>
      if got.more = false ∨ prior was got first = [] then got
      else { got with letters := prior was got first ++ got.letters, more := was.more }
  | _, _ => got

end Keep

/-- An older stretch put in front of a part. -/
def lengthen (p cut : ThreadPart ι J) : ThreadPart ι J :=
  { p with letters := (cut.letters.filter fun l => l.id ∉ p.letters.map Letter.id) ++ p.letters, more := cut.more }

/-- What `beads?since=` answers: a patch, or the whole part. -/
inductive BeadsAnswer (ι J δ : Type) where
  | delta (delta : BeadsDelta ι J δ)
  | whole (rows : List (ι × J))

/-- Where a sync waits. An answer comes with the part it was cut from, which the store
does not read. The call that patches is awaited also when it needed no request. -/
inductive Stage (ι J δ : Type) where
  | index
  | threads (drop : List ι) (got : List (ι × Option (ThreadPart ι J × Thread ι J)))
  | beads (since : δ) (got : Option (BeadsAnswer ι J δ))
  | patched
  | topics (got : Option (List J))
  | unthreaded (got : Option (List J))

namespace Store

variable (store : Store ι J δ) (index : Index ι J δ)

/-- The end of a sync. -/
def finish : Store ι J δ × Option (Stage ι J δ) :=
  ({ store with index := some index }, none)

def syncUnthreaded : Store ι J δ × Option (Stage ι J δ) :=
  match index.unthreaded with
  | none => finish { store with unthreaded := [], held := { store.held with unthreaded := none } } index
  | some hash => if store.held.unthreaded = some hash then store.finish index else (store, some (.unthreaded none))

def syncTopics : Store ι J δ × Option (Stage ι J δ) :=
  match index.topics with
  | none => syncUnthreaded { store with topics := [], held := { store.held with topics := none } } index
  | some hash => if store.held.topics = some hash then store.syncUnthreaded index else (store, some (.topics none))

/-- `patchBeads(held, delta)`, filed under the patch's hash. -/
def patch (delta : BeadsDelta ι J δ) : Store ι J δ :=
  { store with
    beads := store.beads.map delta.patch.apply
    held := { store.held with beads := some delta.hash } }

/-- `patchBeads(index)`: the index's patch when the beads are filed under its `since`,
else a request. -/
def patchBeads : Store ι J δ × Option (Stage ι J δ) :=
  match store.held.beads with
  | none => (store, some .patched)
  | some since =>
      match index.beadsDelta with
      | some (delta, _) => if delta.since = since then (store.patch delta, some .patched) else (store, some (.beads since none))
      | none => (store, some (.beads since none))

def syncBeads : Store ι J δ × Option (Stage ι J δ) :=
  if store.beads.isSome ∧ store.held.beads ≠ some index.beads then store.patchBeads index else store.syncTopics index

/-- The index in hand: nothing to do when it reads the same, else the parts that moved
are asked for. -/
def syncIndex : Store ι J δ × Option (Stage ι J δ) :=
  if store.index = some index then (store, none)
  else (store, some (.threads (movedDrop index store.held) ((movedFetch index store.held).map fun name => (name, none))))

/-- One thread's answer filed. -/
def fileThread [LT ι] [DecidableLT ι] (item : ι × ThreadPart ι J × Thread ι J) : Store ι J δ :=
  match Entries.get item.1 index.threads with
  | none => store
  | some hash =>
      { store with
        threads := Entries.set item.1 (keep (Entries.get item.1 store.threads) item.2.1) store.threads
        held := { store.held with threads := Entries.set item.1 hash store.held.threads } }

def dropThread (name : ι) : Store ι J δ :=
  { store with
    threads := store.threads.filter fun item => item.1 ≠ name
    held := { store.held with threads := store.held.threads.filter fun item => item.1 ≠ name } }

def fileThreads [LT ι] [DecidableLT ι] (drop : List ι) (got : List (ι × ThreadPart ι J × Thread ι J)) : Store ι J δ :=
  drop.foldl dropThread (got.foldl (fun store item => store.fileThread index item) store)

/-- An answer to `beads?since=` filed. -/
def fileBeads : BeadsAnswer ι J δ → Store ι J δ
  | .delta delta => store.patch delta
  | .whole rows => { store with beads := some rows, held := { store.held with beads := some index.beads } }

end Store

end Brnrd.Board
