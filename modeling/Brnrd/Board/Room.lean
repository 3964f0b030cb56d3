import Brnrd.Board.Store
import Brnrd.Machine.Reach

/-! The server that moves and the client's calls under way: syncs, one load of the beads
and any number of reads of older letters, each stopped where it awaits an answer. -/
namespace Brnrd.Board

variable {ι J δ : Type} [DecidableEq ι] [DecidableEq J] [DecidableEq δ]

/-- A sync has asked for the index, or goes on with the one it read and the move of the
server at which that was. -/
inductive Sync (ι J δ : Type) where
  | asking
  | going (version : ℕ) (index : Index ι J δ) (stage : Stage ι J δ)

/-- A call of `older`: the part in hand when it began, with the version that was cut from. -/
structure Older (ι J : Type) where
  thread : ι
  part : ThreadPart ι J
  origin : Thread ι J
  target : Option ι
  got : Option (ThreadPart ι J)

/-- The last four are read by no code: how often the server has moved, the index that the
last sync went on with, the moves at which finished syncs read theirs, and the version
each part held was cut from. -/
structure World (ι J δ : Type) where
  server : Server ι J δ
  store : Store ι J δ
  syncs : List (ℕ × Sync ι J δ)
  loading : Option (δ × Option (List (ι × J)))
  olders : List (ℕ × Older ι J)
  moves : ℕ
  taken : Option (ℕ × Index ι J δ)
  finished : List ℕ
  origins : List (ι × Thread ι J)

inductive Action (ι J : Type) where
  | server (move : Move ι J)
  | sync (k : ℕ)
  | answer (k : ℕ)
  | answerThread (k : ℕ) (name : ι)
  | resume (k : ℕ)
  | fail (k : ℕ)
  | load
  | answerLoad
  | resumeLoad
  | failLoad
  | older (k : ℕ) (thread : ι) (target : Option ι)
  | answerOlder (k : ℕ)
  | resumeOlder (k : ℕ)
  | failOlder (k : ℕ)

/-- The letter that `older` asks up to: the oldest in hand, unless it reaches for a target. -/
def Older.before (older : Older ι J) : Option ι :=
  if older.target.isSome then none else older.part.letters.head?.map Letter.id

section Server

variable (digest : Part ι J → δ)

/-- `GET beads?since=`. -/
def Server.beadsSince (server : Server ι J δ) (since : δ) : BeadsAnswer ι J δ :=
  match compose_deltas server.beadDeltas since (server.beadsHash digest) with
  | some delta => .delta delta
  | none => .whole server.parts.beads

/-- What the server answers a sync that waits for one request. -/
def Server.answer (server : Server ι J δ) : Stage ι J δ → Option (Stage ι J δ)
  | .beads since none => some (.beads since (some (server.beadsSince digest since)))
  | .topics none => some (.topics (some server.parts.topics))
  | .unthreaded none =>
      if server.parts.unthreaded = [] then none else some (.unthreaded (some server.parts.unthreaded))
  | _ => none

/-- What it answers one of the requests for thread parts. -/
def Server.answerThread (server : Server ι J δ) (name : ι) : Stage ι J δ → Option (Stage ι J δ)
  | .threads drop got =>
      match Entries.get name got, Entries.get name server.parts.threads with
      | some none, some thread => some (.threads drop (Entries.set name (some (window thread none none, thread)) got))
      | _, _ => none
  | _ => none

end Server

/-- All the requests answered, in order. -/
def answers (got : List (ι × Option (ThreadPart ι J × Thread ι J))) : Option (List (ι × ThreadPart ι J × Thread ι J)) :=
  got.mapM fun item => item.2.map fun answer => (item.1, answer)

/-- The versions that filed answers were cut from. -/
def cutFrom (origins : List (ι × Thread ι J)) (got : List (ι × ThreadPart ι J × Thread ι J)) : List (ι × Thread ι J) :=
  got.foldl (fun origins item => Entries.set item.1 item.2.2 origins) origins

namespace World

variable (digest : Part ι J → δ) (w : World ι J δ)

def start (parts : Parts ι J) : World ι J δ :=
  ⟨.start parts, .fresh, [], none, [], 0, none, [], []⟩

/-- A step of the server, counted when a hash moved. -/
def move (m : Move ι J) : World ι J δ :=
  if w.server.moved digest (w.server.now digest m) then { w with server := w.server.now digest m, moves := w.moves + 1 }
  else w

/-- A sync stops at its next request or ends. -/
def go (k version : ℕ) (index : Index ι J δ) (outcome : Store ι J δ × Option (Stage ι J δ)) : World ι J δ :=
  match outcome.2 with
  | some stage => { w with store := outcome.1, syncs := Entries.set k (.going version index stage) w.syncs }
  | none =>
      { w with
        store := outcome.1
        syncs := w.syncs.filter fun item => item.1 ≠ k
        finished := version :: w.finished }

/-- A sync goes on from where it waited. -/
def resume [LT ι] [DecidableLT ι] (k version : ℕ) (index : Index ι J δ) : Stage ι J δ → Option (World ι J δ)
  | .index => some ({ w with taken := some (version, index) }.go k version index (w.store.syncIndex index))
  | .threads drop got =>
      (answers got).map fun got =>
        { w with origins := cutFrom w.origins got }.go k version index ((w.store.fileThreads index drop got).syncBeads index)
  | .beads _ got => got.map fun answer => w.go k version index (w.store.fileBeads index answer, some .patched)
  | .patched => some (w.go k version index (w.store.syncTopics index))
  | .topics got =>
      got.map fun rows =>
        let store := { w.store with topics := rows, held := { w.store.held with topics := index.topics } }
        w.go k version index (store.syncUnthreaded index)
  | .unthreaded got =>
      got.map fun rows =>
        let store := { w.store with unthreaded := rows, held := { w.store.held with unthreaded := index.unthreaded } }
        w.go k version index (store.finish index)

def step [LT ι] [DecidableLT ι] : Action ι J → Option (World ι J δ)
  | .server m => some (w.move digest m)
  | .sync k =>
      match Entries.get k w.syncs with
      | none => some { w with syncs := Entries.set k .asking w.syncs }
      | some _ => none
  | .answer k =>
      match Entries.get k w.syncs with
      | some .asking => some { w with syncs := Entries.set k (.going w.moves (w.server.index digest) .index) w.syncs }
      | some (.going version index stage) =>
          (w.server.answer digest stage).map fun stage =>
            { w with syncs := Entries.set k (.going version index stage) w.syncs }
      | none => none
  | .answerThread k name =>
      match Entries.get k w.syncs with
      | some (.going version index stage) =>
          (w.server.answerThread name stage).map fun stage =>
            { w with syncs := Entries.set k (.going version index stage) w.syncs }
      | _ => none
  | .resume k =>
      match Entries.get k w.syncs with
      | some (.going version index stage) => w.resume k version index stage
      | _ => none
  -- a request that ends badly ends its call; what was filed before stays
  | .fail k => some { w with syncs := w.syncs.filter fun item => item.1 ≠ k }
  | .load =>
      match w.store.beads, w.loading, w.store.index with
      | none, none, some index => some { w with loading := some (index.beads, none) }
      | _, _, _ => some w
  | .answerLoad =>
      match w.loading with
      | some (hash, none) => some { w with loading := some (hash, some w.server.parts.beads) }
      | _ => none
  | .resumeLoad =>
      match w.loading with
      | some (hash, some rows) =>
          let store := { w.store with beads := some rows, held := { w.store.held with beads := some hash } }
          some { w with store := store, loading := none }
      | _ => none
  | .failLoad => some { w with loading := none }
  | .older k thread target =>
      match Entries.get k w.olders, Entries.get thread w.store.threads, Entries.get thread w.origins with
      | none, some part, some origin =>
          if part.more then some { w with olders := Entries.set k ⟨thread, part, origin, target, none⟩ w.olders }
          else some w
      | none, none, _ => some w
      | _, _, _ => none
  | .answerOlder k =>
      match Entries.get k w.olders with
      | some older =>
          match older.got, Entries.get older.thread w.server.parts.threads with
          | none, some thread =>
              some { w with olders := Entries.set k { older with got := some (window thread older.before older.target) } w.olders }
          | _, _ => none
      | none => none
  | .resumeOlder k =>
      match Entries.get k w.olders with
      | some older =>
          older.got.map fun cut =>
            { w with
              store := { w.store with threads := Entries.set older.thread (lengthen older.part cut) w.store.threads }
              olders := w.olders.filter fun item => item.1 ≠ k }
      | none => none
  | .failOlder k => some { w with olders := w.olders.filter fun item => item.1 ≠ k }

end World

end Brnrd.Board
