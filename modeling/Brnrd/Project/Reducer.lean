import Brnrd.Project.Replay
import Mathlib.Data.Finset.Image

/-! The reducer: what it keeps between batches, its second loop over the newly
accepted facts, the closure of handled letters, and the whole replay that is
its oracle. -/
namespace Brnrd.Project

open Python Facts

/-- The dicts the second loop fills. -/
structure Activity where
  writers : Value → Option String
  activity : String → Option ℚ
  boundary : Value → Option ℚ
  bodies : Value → Option Fact
  ends : Value → Option Fact
  originParents : Value → List (Nat × Value)
  strandActivity : Value → Option ℚ
  activityParts : String → List ((String × Value) × ℚ)
  originOrder : Nat

def Activity.start : Activity where
  writers := fun _ => none
  activity := fun _ => none
  boundary := fun _ => none
  bodies := fun _ => none
  ends := fun _ => none
  originParents := fun _ => []
  strandActivity := fun _ => none
  activityParts := fun _ => []
  originOrder := 0

/-- `hash(value)`: a list or a dict raises. -/
def hash (value : Value) : Except Raised Unit :=
  if value.hashable then .ok () else .error .type

/-- `data.get('strand') or fact.by.removeprefix('strand:')`. -/
def strandKey (fact : Fact) : Value :=
  (Dict.get fact.data "strand").orElse (.str (removePrefix fact.by_ "strand:"))

/-- `max(parts.values())`, for `parts` that may be empty. -/
def latestPart (parts : List ((String × Value) × ℚ)) : Option ℚ :=
  (parts.map Prod.snd).max?

/-- `parts[token] = stamp`. -/
def setPart (parts : List ((String × Value) × ℚ)) (token : String × Value) (stamp : ℚ) :
    List ((String × Value) × ℚ) :=
  (token, stamp) :: parts.filter fun part => part.1 ≠ token

/-- A strand leased on another thread takes its activity along. -/
def Activity.reassign (a : Activity) (strand : Value) (target : String) : Activity :=
  let moved := { a with writers := Function.update a.writers strand (some target) }
  match a.writers strand with
  | some previous =>
      if previous ≠ "" ∧ previous ≠ target then
        let parts := (a.activityParts previous).filter fun part => part.1 ≠ ("strand", strand)
        { moved with
          activityParts := Function.update a.activityParts previous parts
          activity := Function.update a.activity previous (latestPart parts) }
      else moved
  | none => moved

def Activity.lease (host : Host) (a : Activity) (fact : Fact) : Except Raised Activity :=
  if fact.kind = "lease" then do
    hash (strandKey fact)
    let thread ← item fact.data "thread"
    .ok (a.reassign (strandKey fact) (thread.toStr host))
  else .ok a

/-- The newest stamp of one part of a thread's activity. -/
def Activity.record (a : Activity) (target : String) (token : String × Value) (stamp : ℚ) : Activity :=
  let parts := setPart (a.activityParts target) token
    (max (((a.activityParts target).lookup token).getD 0) stamp)
  { a with
    activityParts := Function.update a.activityParts target parts
    activity := Function.update a.activity target (latestPart parts) }

/-- A letter with a destination is its thread's activity; anything else is its strand's. -/
def Activity.touch (host : Host) (a : Activity) (fact : Fact) (stamp : ℚ) : Except Raised Activity :=
  match if fact.kind = "letter" then destination host fact.data else none with
  | some target => .ok (a.record target ("letter", .str target) stamp)
  | none => do
      let strand := strandKey fact
      hash strand
      let stamp := max ((a.strandActivity strand).getD 0) stamp
      let a := { a with strandActivity := Function.update a.strandActivity strand (some stamp) }
      match a.writers strand with
      | some target => .ok (if target ≠ "" then a.record target ("strand", strand) stamp else a)
      | none => .ok a

/-- The newest `shown` of a strand, and the last `attempt.ended` of a thread. -/
def Activity.bound (a : Activity) (fact : Fact) (stamp : ℚ) : Except Raised Activity :=
  if fact.kind = "shown" then
    let strand := strandKey fact
    let newest := max ((a.boundary strand).getD 0) stamp
    .ok { a with boundary := Function.update a.boundary strand (some newest) }
  else if fact.kind = "attempt.ended" then do
    let thread := Dict.get fact.data "thread"
    hash thread
    .ok { a with ends := Function.update a.ends thread (some fact) }
  else .ok a

def Activity.body (a : Activity) (fact : Fact) : Activity :=
  let strand := Dict.get fact.data "strand"
  if startsWith fact.kind "body." && strand.truthy then
    { a with bodies := Function.update a.bodies strand (some fact) }
  else a

/-- `disposition.get('successor', {})`, whose `.get` is called. -/
def successorOf (disposition : Dict) : Except Raised Dict :=
  if Dict.has disposition "successor" then fields (Dict.get disposition "successor") else .ok []

/-- The letter a successor came from. -/
def Activity.origin (a : Activity) (value : Value) : Except Raised Activity := do
  let disposition ← fields value
  let successor ← successorOf disposition
  let ident := Dict.get successor "id"
  if ident.truthy then do
    hash ident
    let parent ← item disposition "id"
    let parents := a.originParents ident ++ [(a.originOrder, parent)]
    .ok { a with
      originParents := Function.update a.originParents ident parents
      originOrder := a.originOrder + 1 }
  else .ok a

/-- One turn of the second loop, up to its notices. -/
def Activity.row (host : Host) (a : Activity) (fact : Fact) : Except Raised Activity :=
  match host.seconds fact.at_ with
  | none => .error .value
  | some stamp => do
      let a ← a.lease host fact
      let a ← a.touch host fact stamp
      let a ← a.bound fact stamp
      let dispositions ← dispositionsOf fact.data
      dispositions.foldlM Activity.origin (a.body fact)

/-- A notice's letter and the letter it stands for, where it names both. -/
def noticePair (fact : Fact) : Option (Value × Value) :=
  let left := Dict.get fact.data "id"
  let right := Dict.get fact.data "stands"
  if isNotice fact ∧ left ≠ .null ∧ right ≠ .null then some (left, right) else none

/-- `Reducer`. `state.handled` is `handled`; the rest of `state` is in `replay`
and `activity`. Handled letters and notice ids are keys of one kind. -/
structure Reducer where
  replay : Replay
  explicit : Finset String
  pendingHandled : List String
  disposed : Finset String
  activity : Activity
  noticeEdges : Value → List (Int × Value)
  noticeCount : Nat
  available : Value → Option Int
  published : Finset Value
  handled : Finset Value
  offset : Nat

def Reducer.start : Reducer where
  replay := Replay.start
  explicit := ∅
  pendingHandled := []
  disposed := ∅
  activity := Activity.start
  noticeEdges := fun _ => []
  noticeCount := 0
  available := fun _ => none
  published := ∅
  handled := ∅
  offset := 0

/-- `mark(ident)`. -/
def Reducer.mark (r : Reducer) (ident : String) : Reducer :=
  if ident ∈ r.explicit then r
  else { r with explicit := insert ident r.explicit, pendingHandled := r.pendingHandled ++ [ident] }

/-- A letter a disposition closes. -/
def Reducer.dispose (r : Reducer) (ident : String) : Reducer :=
  { r with disposed := insert ident r.disposed, published := insert (.str ident) r.published }

/-- One turn of the first loop. -/
def Reducer.read (host : Host) (r : Reducer) (fact : Fact) : Except Raised Reducer := do
  let e ← r.replay.row host fact
  .ok (e.done.foldl Reducer.dispose (e.marks.foldl Reducer.mark { r with replay := e.replay }))

/-- One end of a new edge becomes available with the other. -/
def Reducer.reach (index : Int) (r : Reducer) (ident : Value) : Reducer :=
  if r.available ident = none then
    { r with
      available := Function.update r.available ident (some index)
      published := insert ident r.published }
  else r

/-- The edge in both directions, under the next index. -/
def Reducer.addEdge (r : Reducer) (left right : Value) : Reducer :=
  let index : Int := r.noticeCount
  let edges := Function.update r.noticeEdges left (r.noticeEdges left ++ [(index, right)])
  { r with
    noticeEdges := Function.update edges right (edges right ++ [(index, left)])
    noticeCount := r.noticeCount + 1 }

/-- New edges occur after every existing path: a previously available endpoint
can cross it. -/
def Reducer.link (r : Reducer) (left right : Value) : Reducer :=
  if (r.available left).isSome || (r.available right).isSome then
    [left, right].foldl (Reducer.reach r.noticeCount) (r.addEdge left right)
  else r.addEdge left right

/-- One turn of the second loop. -/
def Reducer.index (host : Host) (r : Reducer) (fact : Fact) : Except Raised Reducer := do
  let activity ← r.activity.row host fact
  let r := { r with activity := activity }
  match noticePair fact with
  | some (left, right) => do
      hash left
      hash right
      .ok (r.link left right)
  | none => .ok r

/-- `apply(rows)`. -/
def Reducer.apply (host : Host) (r : Reducer) (rows : List Fact) : Except Raised Reducer := do
  let before := r.replay.accepted.length
  let r ← rows.foldlM (Reducer.read host) r
  (r.replay.accepted.drop before).foldlM (Reducer.index host) r

/-- What `finish` changes as it runs. -/
structure Closing where
  available : Value → Option Int
  published : Finset Value
  pending : List (Int × Value)

/-- A newly handled letter. -/
def Closing.seed (c : Closing) (ident : String) : Closing where
  available := Function.update c.available (.str ident) (some (-1))
  published := insert (.str ident) c.published
  pending := c.pending ++ [(-1, .str ident)]

/-- One edge out of a letter available since `available`. -/
def Closing.cross (available : Int) (c : Closing) (edge : Int × Value) : Closing :=
  if available < edge.1 ∧ (c.available edge.2).all (edge.1 < ·) then
    { available := Function.update c.available edge.2 (some edge.1)
      published := insert edge.2 c.published
      pending := c.pending ++ [edge] }
  else c

/-- `heapq.heappop(pending)`. Only the new seeds tie, and in what order they
come makes no difference. -/
def heappop (pending : List (Int × Value)) : Option ((Int × Value) × List (Int × Value)) :=
  (@List.argmin _ _ Int.instLinearOrder.toPreorder _ Prod.fst pending).map fun entry => (entry, pending.erase entry)

/-- `while pending`. Every turn takes an entry and every push uses up one
direction of an edge, so their number is fuel enough (`close_spec`). -/
def close (edges : Value → List (Int × Value)) : Nat → Closing → Closing
  | 0, c => c
  | fuel + 1, c => match heappop c.pending with
      | none => c
      | some ((available, ident), rest) =>
          let c := { c with pending := rest }
          if c.available ident = some available then
            close edges fuel ((edges ident).foldl (Closing.cross available) c)
          else close edges fuel c

/-- `finish()`. -/
def Reducer.finish (r : Reducer) : Reducer :=
  let seeded := r.pendingHandled.foldl Closing.seed ⟨r.available, r.published, []⟩
  let closed := close r.noticeEdges (seeded.pending.length + 2 * r.noticeCount) seeded
  { r with
    available := closed.available
    published := closed.published
    pendingHandled := []
    handled := closed.published }

/-- The facts of the view behind the offset. -/
def Reducer.advance (host : Host) (r : Reducer) (facts : List Fact) : Except Raised Reducer :=
  if r.offset < facts.length then do
    let r ← r.apply host (facts.drop r.offset)
    .ok { r with offset := facts.length }
  else .ok r

/-- `resume(facts)`, for a view of `facts`. -/
def Reducer.resume (host : Host) (r : Reducer) (facts : List Fact) : Except Raised Reducer := do
  let r ← r.advance host facts
  .ok r.finish

/-- A view and its reducer. -/
structure Resumed where
  facts : List Fact
  reducer : Reducer

/-- The view grows by a batch, and its reducer is resumed. -/
def Resumed.feed (host : Host) (s : Resumed) (batch : List Fact) : Except Raised Resumed := do
  let facts := s.facts ++ batch
  let r ← s.reducer.resume host facts
  .ok ⟨facts, r⟩

def resumeAll (host : Host) (batches : List (List Fact)) : Except Raised Resumed :=
  batches.foldlM (Resumed.feed host) ⟨[], Reducer.start⟩

/-- One accepted fact in the oracle's pass. -/
def passNotice (handled : Finset Value) (fact : Fact) : Except Raised (Finset Value) := do
  let left := Dict.get fact.data "id"
  let right := Dict.get fact.data "stands"
  hash left
  hash right
  if isNotice fact ∧ (left ≠ .null ∧ right ≠ .null) ∧ (left ∈ handled ∨ right ∈ handled) then
    .ok (insert left (insert right handled))
  else .ok handled

/-- `_fold(facts)`, for facts that are in order. -/
def fold (host : Host) (facts : List Fact) : Except Raised Reducer := do
  let r ← Reducer.start.apply host facts
  let handled ← r.replay.accepted.foldlM passNotice (r.explicit.image .str)
  .ok { r with handled := handled ∪ r.disposed.image .str }

end Brnrd.Project
