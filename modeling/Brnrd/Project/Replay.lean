import Brnrd.Ledger.Registry
import Mathlib.Data.Finset.Basic

/-! The first loop of the reducer: who holds which thread, which facts are
accepted, and which letters each row marks handled. A dict is a function. -/
namespace Brnrd.Project

open Python Facts Ledger

/-- The exceptions a replay can meet. -/
inductive Raised where
  /-- `KeyError`. -/
  | key (name : String)
  /-- `TypeError` or `AttributeError`. -/
  | type
  /-- `ValueError` or `OverflowError`. -/
  | value
  deriving DecidableEq

/-- `data[name]`. -/
def item (data : Dict) (name : String) : Except Raised Value :=
  match data.lookup name with
  | some value => .ok value
  | none => .error (.key name)

/-- `int(value)`. -/
def int (value : Value) : Except Raised Int :=
  match value.toInt with
  | some n => .ok n
  | none => match value with
      | .float .. | .str _ => .error .value
      | _ => .error .type

/-- `int` of an infinity: an `OverflowError`, which no handler here catches. -/
def overflows : Value → Bool
  | .float text none => text != "nan"
  | _ => false

/-- `for item in value`. -/
def iterate : Value → Except Raised (List Value)
  | .arr items => .ok items
  | .str s => .ok (s.toList.map fun c => .str (String.singleton c))
  | .obj fields => .ok (fields.map fun field => .str field.1)
  | _ => .error .type

/-- A value whose `.get` is called. -/
def fields : Value → Except Raised Dict
  | .obj fields => .ok fields
  | _ => .error .type

def idChar (c : Char) : Bool :=
  c.isAlphanum || c = '.' || c = '_' || c = '-'

/-- `_THREAD_ID.match`. Its `$` also matches before a newline at the end. -/
def isThreadId (text : String) : Bool :=
  match text.toList with
  | [] => false
  | first :: rest =>
      let rest := if rest.getLast? = some '\n' then rest.dropLast else rest
      first.isAlphanum && decide (rest.length ≤ 80) && rest.all idChar

/-- `thread_of(to)`, `none` where it raises `ValueError`. -/
def threadOf (address : String) : Option String :=
  if startsWith address "thread:" then
    let thread := removePrefix address "thread:"
    if isThreadId thread then some thread else none
  else none

/-- `_destination(data)`. -/
def destination (host : Host) (data : Dict) : Option String :=
  threadOf ((Dict.get data "to").toStr host)

/-- A letter the loom wrote about a condition it could not settle itself. -/
def isNotice (fact : Fact) : Bool :=
  fact.kind = "letter" && startsWith fact.by_ "loom:" && Dict.get fact.data "from" = .str "loom"

/-- A pinned thread's grant comes from its machine, not from the router. -/
def pinned (fact : Fact) : Bool :=
  (Dict.get fact.data "pin").truthy && Dict.get fact.data "pin" = Dict.get fact.data "install"

/-- A lease counts only from the router that was current when it was written. -/
def leaseAccepted (newestRouter : Option Int) (fact : Fact) : Except Raised Bool :=
  if pinned fact then .ok true
  else if Dict.get fact.data "router_gen" = .null then .ok newestRouter.isNone
  else match (Dict.get fact.data "router_gen").toInt with
    | some grant => .ok (newestRouter = some grant)
    | none => if overflows (Dict.get fact.data "router_gen") then .error .value else .ok false

/-- A strand at a generation. -/
abbrev Body := String × Int

/-- The variables of the first loop, less the sets of handled letters. -/
structure Replay where
  accepted : List Fact
  holder : String → Option Body
  shown : String → Option (Finset String)
  channelReplies : String → Option String
  live : String → Option Int
  dest : String → Option String
  newest : Option Int
  pendingReplies : String → Option String
  handovers : Finset String

def Replay.start : Replay where
  accepted := []
  holder := fun _ => none
  shown := fun _ => none
  channelReplies := fun _ => none
  live := fun _ => none
  dest := fun _ => none
  newest := none
  pendingReplies := fun _ => none
  handovers := ∅

/-- What one row does: the variables after it, the letters it marks handled and
the ones a disposition closes. -/
structure Effect where
  replay : Replay
  marks : List String
  done : List String

def Replay.quiet (s : Replay) : Effect :=
  ⟨s, [], []⟩

def Replay.accept (s : Replay) (fact : Fact) : Replay :=
  { s with accepted := s.accepted ++ [fact] }

/-- `dest[ident] = thread`, where there is a thread. -/
def Replay.address (s : Replay) (ident : String) : Option String → Replay
  | some thread => { s with dest := Function.update s.dest ident (some thread) }
  | none => s

/-- A letter's destination under the id its data gives. -/
def Replay.named (host : Host) (s : Replay) (fact : Fact) : Replay :=
  if (Dict.get fact.data "id").truthy then
    s.address ((Dict.get fact.data "id").toStr host) (destination host fact.data)
  else s

/-- `consider(writer, gen, re)`: marks a letter whose thread the body holds. -/
def Replay.consider (s : Replay) (body : Body) : Value → List String
  | .str re => if re ≠ "" ∧ (s.dest re).bind s.holder = some body then [re] else []
  | _ => []

/-- `data.get("dispositions", ())`. -/
def dispositionsOf (data : Dict) : Except Raised (List Value) :=
  if Dict.has data "dispositions" then iterate (Dict.get data "dispositions") else .ok []

/-- The letter a disposition closes. -/
def doneId (host : Host) (disposition : Dict) : Except Raised (List String) :=
  if Dict.get disposition "outcome" = .str "done" then
    (item disposition "id").map fun ident => [ident.toStr host]
  else .ok []

/-- The letter a disposition leaves in its place. An id that is no text counts
as one it raises on. -/
def successorLetter (fact : Fact) (disposition : Dict) : Except Raised (Option Fact) :=
  if (Dict.get disposition "successor").truthy then do
    let data ← fields (Dict.get disposition "successor")
    match ← item data "id" with
    | .str ident =>
        .ok (some ⟨"letter", fact.by_, data, fact.at_, ident, version, fact.hlc, [fact.id]⟩)
    | _ => .error .type
  else .ok none

def Replay.succeed (host : Host) (s : Replay) : Option Fact → Replay
  | some letter => (s.accept letter).address letter.id (destination host letter.data)
  | none => s

def Effect.dispose (host : Host) (fact : Fact) (e : Effect) (value : Value) : Except Raised Effect := do
  let disposition ← fields value
  let done ← doneId host disposition
  let letter ← successorLetter fact disposition
  .ok ⟨e.replay.succeed host letter, e.marks, e.done ++ done⟩

/-- The letters a `speech` row closes: the one it sent, and the one that answers. -/
def Replay.sent (host : Host) (s : Replay) (fact : Fact) : List String :=
  if fact.kind = "speech" ∧ Dict.get fact.data "state" = .str "sent" then
    let key := (Dict.get fact.data "key").toStr host
    key :: (s.pendingReplies key).toList
  else []

/-- The kinds a loom settles things with. -/
def settlingKinds : List String :=
  ["attempt.ended", "port.drained", "letter.disposed", "letter.due", "speech", "speech.part"]

def Replay.settling (host : Host) (s : Replay) (fact : Fact) : Except Raised Effect := do
  let dispositions ← dispositionsOf fact.data
  dispositions.foldlM (Effect.dispose host fact) ⟨s.accept fact, s.sent host fact, []⟩

/-- A `router` row raises the newest generation, or counts for nothing. -/
def Replay.router (s : Replay) (fact : Fact) : Except Raised Replay :=
  match fact.data.lookup "gen" with
  | none => .ok s
  | some value => match value.toInt with
      | some gen => .ok { s with newest := some (match s.newest with
          | some newest => if gen > newest then gen else newest
          | none => gen) }
      | none => if overflows value then .error .value else .ok s

/-- The thread and the body a `lease` or a `released` row is about. -/
def tenure (host : Host) (data : Dict) : Except Raised (String × Body) := do
  let strand ← item data "strand"
  let gen ← item data "gen"
  let gen ← int gen
  let thread ← item data "thread"
  .ok (thread.toStr host, strand.toStr host, gen)

/-- A new holder fences the previous strand even across installs. -/
def Replay.grant (s : Replay) (thread : String) (body : Body) : Replay :=
  let live := match s.holder thread with
    | some previous =>
        if previous ≠ body ∧ s.live previous.1 = some previous.2 then
          Function.update s.live previous.1 none
        else s.live
    | none => s.live
  { s with
    holder := Function.update s.holder thread (some body)
    live := Function.update live body.1 (some body.2) }

def Replay.lease (host : Host) (s : Replay) (fact : Fact) : Except Raised Replay := do
  let counts ← leaseAccepted s.newest fact
  if counts then do
    let (thread, body) ← tenure host fact.data
    .ok ((s.grant thread body).accept fact)
  else .ok s

/-- `holder.pop(thread)`, and the strand is no longer live at that generation. -/
def Replay.free (s : Replay) (thread : String) (body : Body) : Replay :=
  { s with
    holder := Function.update s.holder thread none
    live := if s.live body.1 = some body.2 then Function.update s.live body.1 none else s.live }

def Replay.released (host : Host) (s : Replay) (fact : Fact) : Except Raised Replay := do
  let (thread, body) ← tenure host fact.data
  .ok (if s.holder thread = some body then (s.free thread body).accept fact else s)

/-- A letter with no generation: a person's, an ingested one or a notice. -/
def Replay.injected (host : Host) (s : Replay) (fact : Fact) : Replay :=
  let sender := ((Dict.get fact.data "from").orElse (.str "")).toStr host
  let cites := ((Dict.get fact.data "cites").orElse (.str "")).toStr host
  let ingress := startsWith fact.by_ "loom:" && startsWith cites "source:"
  if startsWith fact.by_ "person:" || startsWith sender "p-" || ingress || isNotice fact then
    (s.accept fact).named host fact
  else s

/-- A reply to a channel waits until it is sent. -/
def Replay.answer (s : Replay) (fact : Fact) (body : Body) (re : String) : Replay :=
  if (s.dest re).bind s.holder = some body then
    { s with
      pendingReplies := Function.update s.pendingReplies fact.id (some re)
      channelReplies := Function.update s.channelReplies re (some fact.id) }
  else s

/-- An accepted strand's letter. -/
def Replay.letter (host : Host) (s : Replay) (fact : Fact) (body : Body) : Effect :=
  let s := s.named host fact
  let s := if (Dict.get fact.data "reincarnate").truthy then
    { s with handovers := insert fact.id s.handovers } else s
  let re := Dict.get fact.data "re"
  if startsWith ((Dict.get fact.data "to").toStr host) "channel:" then
    match re with
    | .str re => (s.answer fact body re).quiet
    | _ => s.quiet
  else ⟨s, s.consider body re, []⟩

/-- The ids a `shown` row lists. -/
def shownIds (host : Host) (data : Dict) : Except Raised (List String) :=
  if (Dict.get data "ids").truthy then
    (iterate (Dict.get data "ids")).map fun ids => ids.map (Value.toStr host)
  else .ok []

def Replay.showTo (s : Replay) (strand : String) (ids : List String) : Replay :=
  let before := (s.shown strand).getD ∅
  { s with shown := Function.update s.shown strand (some (before ∪ ids.toFinset)) }

/-- An accepted strand's `shown` row. Its own boundary showing it a handover is
what closes the handover. -/
def Replay.showRow (host : Host) (s : Replay) (fact : Fact) (body : Body) : Except Raised Effect := do
  let ids ← shownIds host fact.data
  let own := if fact.by_ = "strand:" ++ body.1 then ids.filter (· ∈ s.handovers) else []
  .ok ⟨s.showTo body.1 ids, own.flatMap fun ident => s.consider body (.str ident), []⟩

/-- A row of the strand that is live at its generation. -/
def Replay.written (host : Host) (s : Replay) (fact : Fact) (body : Body) : Except Raised Effect :=
  let s := s.accept fact
  if fact.kind = "letter" then .ok (s.letter host fact body)
  else if fact.kind = "note" then .ok ⟨s, s.consider body (Dict.get fact.data "re"), []⟩
  else if fact.kind = "shown" then s.showRow host fact body
  else .ok s.quiet

/-- A strand's row counts while the strand is live at its generation. -/
def Replay.strandRow (host : Host) (s : Replay) (fact : Fact) : Except Raised Effect :=
  match strandOf fact, fact.data.lookup "gen" with
  | some strand, some value => do
      let gen ← int value
      if s.live strand = some gen then s.written host fact (strand, gen) else .ok s.quiet
  | _, _ => .ok s.quiet

/-- A person's hand note or the loom's failure disposition settles a letter. -/
def settlesByNote (fact : Fact) : Bool :=
  fact.kind = "note" && (startsWith fact.by_ "person:" || startsWith fact.by_ "loom:")

/-- One turn of the first loop. -/
def Replay.row (host : Host) (s : Replay) (fact : Fact) : Except Raised Effect :=
  if fact.kind ∈ settlingKinds ∧ startsWith fact.by_ "loom:" then s.settling host fact
  else if fact.kind = "router" then (s.router fact).map Replay.quiet
  else if settlesByNote fact then .ok ⟨s, [(Dict.get fact.data "re").toStr host], []⟩
  else if fact.kind = "lease" then (s.lease host fact).map Replay.quiet
  else if fact.kind = "released" then (s.released host fact).map Replay.quiet
  else if fact.kind = "attention" then .ok (s.accept fact).quiet
  else if fact.kind = "letter" ∧ !Dict.has fact.data "gen" then .ok (s.injected host fact).quiet
  else s.strandRow host fact

/-- The first loop over `rows`. -/
def replay (host : Host) (rows : List Fact) : Except Raised Replay :=
  rows.foldlM (fun s fact => (s.row host fact).map Effect.replay) Replay.start

end Brnrd.Project
