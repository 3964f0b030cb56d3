import Brnrd.Facts.Union

/-! The process-local ledger view: the facts in canonical order with the
indexes over them, extended at its tail where a batch allows it and rebuilt
from the union where it does not. -/
namespace Brnrd.Ledger

open Python Facts

/-- The ways an operation of the view raises. -/
inductive ViewError where
  | union (error : UnionError)
  /-- A list or a dict where an index needs a key. -/
  | unhashable (id : String)
  /-- `datetime.fromisoformat` on a fact's `at`. -/
  | timestamp (at_ : String)
  deriving DecidableEq

def liftUnion {α : Type} : Except UnionError α → Except ViewError α
  | .ok a => .ok a
  | .error e => .error (.union e)

/-- `fact.kind == "router.renewed"`. -/
def isRenewal (fact : Fact) : Bool :=
  fact.kind = "router.renewed"

/-- `(f.data.get("install"), f.data.get("gen"))`. -/
def renewalKey (fact : Fact) : Value × Value :=
  (Dict.get fact.data "install", Dict.get fact.data "gen")

/-- `newest`: for each key the id of its last renewal. -/
def newestOf (facts : List Fact) : List ((Value × Value) × String) :=
  (facts.filter isRenewal).foldl (fun newest f => (renewalKey f, f.id) :: newest) []

/-- The list that `newest_renewals` returns. -/
def cutRenewals (facts : List Fact) : List Fact :=
  if ((newestOf facts).map Prod.fst).dedup.length = (facts.filter isRenewal).length then facts
  else facts.filter fun f => !isRenewal f || (newestOf facts).lookup (renewalKey f) = some f.id

/-- `newest_renewals(facts)`: each (install, gen)'s renewals cut to the newest. -/
def newestRenewals (facts : List Fact) : Except ViewError (List Fact) :=
  match facts.find? fun f => isRenewal f && !((renewalKey f).1.hashable && (renewalKey f).2.hashable) with
  | some f => .error (.unhashable f.id)
  | none => .ok (cutRenewals facts)

/-- `LedgerView`, less its caches. A dict is a list in which a later item
shadows an earlier one, a set a list. -/
structure LedgerView where
  facts : List Fact
  revision : Nat
  byId : List (String × Fact)
  positions : List (String × Nat)
  byKind : List (String × List Fact)
  rawLetters : List (String × Fact)
  namedLetters : List (String × Fact)
  lettersBySource : List (Value × List String)
  lettersByReply : List (Value × List String)
  sourcesByBlob : List (String × List String)
  noncanonicalLetters : Bool
  byBody : List ((Value × Value) × List Fact)
  byStrand : List (Value × List Fact)
  latest : List ((String × Value × Value) × Fact)
  latestStrand : List ((String × Value) × Fact)
  latestAt : List ((String × Value) × ℚ)
  timed : List (Value × Fact)
  dueIds : List String
  missing : List String
  maximum : Option Key
  semanticRevision : Nat
  delta : List Fact
  reset : Bool
  duplicates : List Fact

def LedgerView.empty : LedgerView where
  facts := []
  revision := 0
  byId := []
  positions := []
  byKind := []
  rawLetters := []
  namedLetters := []
  lettersBySource := []
  lettersByReply := []
  sourcesByBlob := []
  noncanonicalLetters := false
  byBody := []
  byStrand := []
  latest := []
  latestStrand := []
  latestAt := []
  timed := []
  dueIds := []
  missing := []
  maximum := none
  semanticRevision := 0
  delta := []
  reset := true
  duplicates := []

section Dicts

variable {κ ν : Type} [DecidableEq κ] [DecidableEq ν]

/-- `index[key].append(value)` on a `defaultdict(list)`. -/
def appendAt (index : List (κ × List ν)) (key : κ) (value : ν) : List (κ × List ν) :=
  (key, (index.lookup key).getD [] ++ [value]) :: index

/-- `index[key].add(value)` on a `defaultdict(set)`. -/
def addAt (index : List (κ × List ν)) (key : κ) (value : ν) : List (κ × List ν) :=
  (key, ((index.lookup key).getD []).insert value) :: index

end Dicts

/-- The part of `_add` for a letter: its names, and where it points. -/
def LedgerView.addLetter (host : Host) (v : LedgerView) (fact : Fact) : LedgerView :=
  let name := ((Dict.get fact.data "id").orElse (.str fact.id)).toStr host
  { v with
    rawLetters := (fact.id, fact) :: v.rawLetters
    noncanonicalLetters := v.noncanonicalLetters || name != fact.id
    namedLetters := (name, fact) :: v.namedLetters
    lettersBySource := addAt v.lettersBySource (Dict.get fact.data "cites") fact.id
    lettersByReply := addAt v.lettersByReply (Dict.get fact.data "re") fact.id }

/-- The part of `_add` for a source: the blobs it names. -/
def LedgerView.addSource (v : LedgerView) (fact : Fact) : LedgerView where
  __ := v
  sourcesByBlob := fact.after.foldl (fun index ref => addAt index ref fact.id) v.sourcesByBlob

/-- The part of `_add` for a letter's time and for its coming due. -/
def LedgerView.addTimed (v : LedgerView) (fact : Fact) : LedgerView :=
  if fact.kind = "letter" && (Dict.get fact.data "at").truthy then
    { v with timed := (.str fact.id, fact) :: v.timed }
  else if fact.kind = "letter.due" then
    { v with
      dueIds := v.dueIds.insert fact.id
      timed := v.timed.filter fun entry => entry.1 != Dict.get fact.data "letter" }
  else v

/-- The indexes every fact enters. -/
def LedgerView.enter (v : LedgerView) (fact : Fact) (stamp : ℚ) : LedgerView :=
  let strand := Dict.get fact.data "strand"
  let gen := Dict.get fact.data "gen"
  { v with
    semanticRevision := if isRenewal fact then v.semanticRevision else v.semanticRevision + 1
    positions := (fact.id, v.facts.length) :: v.positions
    facts := v.facts ++ [fact]
    byId := (fact.id, fact) :: v.byId
    byKind := appendAt v.byKind fact.kind fact
    byBody := appendAt v.byBody (strand, gen) fact
    byStrand := appendAt v.byStrand strand fact
    latest := ((fact.kind, strand, gen), fact) :: v.latest
    latestStrand := ((fact.kind, strand), fact) :: v.latestStrand
    latestAt := ((fact.kind, strand),
      max ((v.latestAt.lookup (fact.kind, strand)).getD 0) stamp) :: v.latestAt }

/-- The keys of `data` that `_add` hashes. -/
def hashedKeys (v : LedgerView) (fact : Fact) : List String :=
  ["strand", "gen"] ++ (if fact.kind = "letter" then ["cites", "re"] else []) ++
    (if fact.kind = "letter.due" && !v.timed.isEmpty then ["letter"] else [])

/-- `_add(fact)`. -/
def LedgerView.add (host : Host) (v : LedgerView) (fact : Fact) : Except ViewError LedgerView :=
  if (hashedKeys v fact).any fun key => !(Dict.get fact.data key).hashable then
    .error (.unhashable fact.id)
  else match host.seconds fact.at_ with
    | none => .error (.timestamp fact.at_)
    | some stamp => do
        let v := v.enter fact stamp
        let v := if fact.kind = "letter" then v.addLetter host fact
          else if fact.kind = "source" then v.addSource fact
          else v
        let v := v.addTimed fact
        let key ← liftUnion (order host fact)
        .ok { v with
          missing := ((fact.after.filter fun p => (v.byId.lookup p).isNone).foldl
            (fun missing p => missing.insert p) v.missing).filter fun p => p ≠ fact.id
          maximum := some (match v.maximum with
            | some top => max top key
            | none => key) }

/-- What `incoming` has gathered of a batch. -/
structure Incoming where
  added : List Fact
  displaced : Bool
  duplicates : List Fact

/-- One fact of a batch against the copy the view holds of its id. -/
def LedgerView.admitFact (v : LedgerView) (s : Incoming) (fact : Fact) : Except ViewError Incoming :=
  match v.byId.lookup fact.id with
  | none => .ok { s with added := s.added ++ [fact] }
  | some old =>
      if old = fact then .ok s
      else do
        let kept ← liftUnion (keep old fact)
        if kept = old then .ok { s with duplicates := s.duplicates ++ [fact] }
        else .ok { s with added := s.added ++ [fact], displaced := true }

/-- `fact_order(f) <= maximum` for some `f`. -/
def notAbove (host : Host) (maximum : Option Key) (delta : List Fact) : Except ViewError Bool :=
  match maximum with
  | none => .ok false
  | some top => do
      let keys ← liftUnion (delta.mapM (order host))
      .ok (keys.any fun key => key ≤ top)

/-- `incoming(facts)`: the view with the displaced copies recorded, the batch's
new facts in canonical order, and whether they reorder the view. -/
def LedgerView.incoming (host : Host) (v : LedgerView) (facts : List Fact) :
    Except ViewError (LedgerView × List Fact × Bool) := do
  let s ← facts.foldlM v.admitFact ⟨[], false, v.duplicates⟩
  if s.added = [] then .ok ({ v with duplicates := s.duplicates }, [], false)
  else do
    let (delta, duplicates) ← liftUnion (unionWith host [s.added] s.duplicates)
    let late ← notAbove host v.maximum delta
    .ok ({ v with duplicates := duplicates }, delta,
      s.displaced || delta.any (fun f => f.id ∈ v.missing) || late)

/-- A first load cuts renewals as a rebuild does. -/
def firstCut (v : LedgerView) (delta : List Fact) : Except ViewError (List Fact) :=
  if v.facts = [] then newestRenewals delta else .ok delta

/-- `apply(delta, repair)` without repair: the batch goes to the tail. -/
def LedgerView.grow (host : Host) (v : LedgerView) (delta : List Fact) : Except ViewError LedgerView :=
  if delta = [] then .ok { v with delta := [] }
  else do
    let delta ← firstCut v delta
    let v ← delta.foldlM (LedgerView.add host) v
    .ok { v with revision := v.revision + 1, delta := delta, reset := false }

/-- `LedgerView(facts)`: an empty view has no order to repair. -/
def LedgerView.load (host : Host) (facts : List Fact) : Except ViewError LedgerView := do
  let (v, delta, _) ← LedgerView.empty.incoming host facts
  v.grow host delta

/-- `apply(delta, repair)`: the repair replays the union of the view and the batch. -/
def LedgerView.apply (host : Host) (v : LedgerView) (delta : List Fact) (repair : Bool) :
    Except ViewError LedgerView :=
  if delta = [] then .ok { v with delta := [] }
  else if repair then do
    let delta ← firstCut v delta
    let (ordered, duplicates) ← liftUnion (unionWith host [v.facts, delta] v.duplicates)
    let fresh ← LedgerView.load host ordered
    .ok { fresh with
      duplicates := duplicates, revision := v.revision + 1, delta := ordered, reset := true }
  else v.grow host delta

/-- `extend(facts)`. -/
def LedgerView.extend (host : Host) (v : LedgerView) (facts : List Fact) :
    Except ViewError LedgerView := do
  let (v, delta, repair) ← v.incoming host facts
  v.apply host delta repair

end Brnrd.Ledger
