import Brnrd.Leases.Local
import Brnrd.Ledger.Writer

/-! A router's outward speech for one letter: `speak_out`, `speak` and
`effect_once`, cut where a crash can fall between two of their writes. The lock
on the home's loop leaves one such process at a time. -/
namespace Brnrd.Speech

open Python Facts Ledger Leases

/-- The letter of one key, on one install. `safe` is the hash of the key, under
which the journal and the send lease are kept. -/
structure Letter where
  install : String
  key : String
  safe : String

/-- What `speak` reads of a receipt: whether its `status` is `sent` or
`not-sent`, its `reason` and its `ids`. -/
structure Receipt where
  sent : Bool
  reason : Value
  ids : List Value
  deriving DecidableEq

/-- The receipt of an attempt nothing is known of, `{}`. -/
def Receipt.empty : Receipt :=
  ⟨false, .str "", []⟩

inductive Status where
  | sent | notSent | maybeSent
  deriving DecidableEq

def Receipt.status (receipt : Receipt) : Status :=
  if receipt.sent then .sent else .notSent

/-- The `state` of a `speech` fact. -/
def Status.state : Status → String
  | .sent => "sent"
  | .notSent => "not-sent"
  | .maybeSent => "intended"

/-- A fact of the journal of sends. -/
inductive Entry where
  | intended
  | sent (receipt : Receipt)
  deriving DecidableEq

/-- The receipt of the journal's first `sent` fact. -/
def receiptOf (journal : List Entry) : Option Receipt :=
  journal.findSome? fun entry => match entry with
    | .sent receipt => some receipt
    | .intended => none

/-- One call of `speak`: the router's lease and the letter's channel. -/
structure Call where
  lease : Lease
  channel : String
  deriving DecidableEq

/-- How `effect_once` ends. -/
inductive Ending where
  | receipt (receipt : Receipt)
  | raised
  | stale
  deriving DecidableEq

/-- Where the one process stands with the letter. -/
inductive Stage where
  | idle
  | speaking (call : Call)
  | sending (call : Call)
  | holding (call : Call) (send : Lease)
  | intending (call : Call) (send : Lease)
  /-- `out` is running. -/
  | attempting (call : Call) (send : Lease)
  | receiving (call : Call) (send : Lease) (receipt : Receipt)
  | leaving (call : Call) (send : Lease) (ending : Ending)
  /-- The ledger facts are being appended, `parts` of them so far. -/
  | recording (call : Call) (status : Status) (receipt : Receipt) (parts : Nat)
  | telling (status : Status)
  deriving DecidableEq

/-- What `tell` reports, and whether an attempt was unknown then. -/
structure Report where
  kind : String
  unknown : Bool
  deriving DecidableEq

/-- The three stores, how often `out` was run, and what `tell` has reported. -/
structure World where
  send : Row
  journal : List Entry
  folder : Folder
  attempts : Nat
  reports : List Report
  stage : Stage

def World.start : World :=
  ⟨Row.missing, [], Folder.empty, 0, [], .idle⟩

/-- `out` was run, and no receipt has come back. -/
def World.Unknown (w : World) : Prop :=
  0 < w.attempts ∧ receiptOf w.journal = none

instance (w : World) : Decidable w.Unknown :=
  inferInstanceAs (Decidable (_ ∧ _))

def speechId (key state : String) : String :=
  "speech:" ++ state ++ ":" ++ key

/-- `{key}#{n}`. -/
def partKey (key : String) (n : Nat) : String :=
  key ++ "#" ++ toString n

def partId (key : String) (n : Nat) : String :=
  "speech.part:" ++ partKey key n

/-- The `speech.part` fact of the `n`th message id. -/
def Letter.partFact (letter : Letter) (channel : String) (n : Nat) (ident : Value) : Fact :=
  ⟨"speech.part", "loom:" ++ letter.install,
    [("channel", .str channel), ("key", .str letter.key), ("part", .str (partKey letter.key n)),
      ("receipt", .obj [("message_id", ident)])],
    "", partId letter.key n, version, none, []⟩

def Letter.speechFact (letter : Letter) (gen : Int) (status : Status) (reason : Value) : Fact :=
  ⟨"speech", "loom:" ++ letter.install,
    [("key", .str letter.key), ("reason", reason), ("router_gen", .int gen), ("state", .str status.state)],
    "", speechId letter.key status.state, version, none, []⟩

/-- The fact that `speak` appends next: the parts in order, then the speech. -/
def Letter.fact (letter : Letter) (call : Call) (status : Status) (receipt : Receipt) (parts : Nat) : Fact :=
  match receipt.ids[parts]? with
  | some ident => letter.partFact call.channel (parts + 1) ident
  | none => letter.speechFact call.lease.gen status receipt.reason

/-- What `out` comes to: a receipt, or an exception. -/
inductive Outcome where
  | receipt (receipt : Receipt)
  | raised

/-- What a step of the process reads from outside: the clock of the leases, the
row of the router's lease, a fresh holder, the wall clock in milliseconds, and
what `out` comes to. -/
structure Inputs where
  now : ℚ
  router : Row
  uuid : String
  ms : Int
  outcome : Outcome

/-- `authorize`, whose key `router` has a path. -/
def Inputs.authorized (i : Inputs) (call : Call) : Bool :=
  i.router.valid call.lease i.now

/-- `tell`, and the pass is over. -/
def World.told (w : World) (kind : String) : World :=
  { w with reports := w.reports ++ [⟨kind, decide w.Unknown⟩], stage := .idle }

/-- The next action of the process. -/
def World.advance (letter : Letter) (i : Inputs) (w : World) : World :=
  match w.stage with
  | .idle => w
  | .speaking call =>
      if i.authorized call then
        match receiptOf w.journal with
        | some receipt => { w with stage := .recording call receipt.status receipt 0 }
        | none =>
            if .intended ∈ w.journal then { w with stage := .recording call .maybeSent .empty 0 }
            else { w with stage := .sending call }
      else { w with stage := .idle }
  | .sending call =>
      if i.authorized call then
        match receiptOf w.journal with
        | some receipt => { w with stage := .recording call receipt.status receipt 0 }
        | none =>
            match acquire w.send i.now ("send:" ++ letter.safe) i.uuid 300 none none none with
            | .ok (row, some send) => { w with send := row, stage := .holding call send }
            -- `EffectInFlight` is one of the exceptions that leave the outcome open.
            | _ => { w with stage := .recording call .maybeSent .empty 0 }
      else { w with stage := .idle }
  | .holding call send =>
      match receiptOf w.journal with
      | some receipt => { w with stage := .leaving call send (.receipt receipt) }
      | none => { w with journal := w.journal ++ [.intended], stage := .intending call send }
  | .intending call send =>
      if i.authorized call then { w with attempts := w.attempts + 1, stage := .attempting call send }
      else { w with stage := .leaving call send .stale }
  | .attempting call send =>
      match i.outcome with
      | .receipt receipt => { w with stage := .receiving call send receipt }
      | .raised => { w with stage := .leaving call send .raised }
  | .receiving call send receipt =>
      { w with journal := w.journal ++ [.sent receipt], stage := .leaving call send (.receipt receipt) }
  | .leaving call send ending =>
      let row := match release w.send i.now send with
        | .ok (row, _) => row
        | .error _ => w.send
      { w with
        send := row
        stage := match ending with
          | .receipt receipt => .recording call receipt.status receipt 0
          | .raised => .recording call .maybeSent .empty 0
          | .stale => .idle }
  | .recording call status receipt parts =>
      match append i.ms letter.install w.folder (letter.fact call status receipt parts) with
      | .ok (folder, _) =>
          { w with
            folder := folder
            stage := if parts < receipt.ids.length then .recording call status receipt (parts + 1)
              else .telling status }
      | .error _ => w.told "speech-refused"
  | .telling status =>
      match status with
      | .sent => { w with stage := .idle }
      | .notSent => w.told "speech-refused"
      | .maybeSent => w.told "maybe-sent"

/-- `_held_since(facts, gen)` of the router whose generation is `current`. -/
def heldSince (facts : List Fact) (install : String) (gen current : Int) : Bool :=
  let held := (facts.filter fun f => f.kind = "router" && Dict.get f.data "install" = .str install).filterMap
    fun f => (Dict.get f.data "gen").toInt
  (List.range (current + 1 - gen).toNat).all fun n => held.contains (gen + n)

/-- `speak_out` comes to the letter, which was drafted under `grant`. -/
def World.speakOut (letter : Letter) (facts : List Fact) (grant : Int) (call : Call) (w : World) : World :=
  let gen := call.lease.gen
  let grant := if grant < gen ∧ heldSince facts letter.install grant gen then gen else grant
  if grant = gen then { w with stage := .speaking call }
  else if grant < gen then w.told "stale-speech"
  else w

/-- The id is of a fact about the letter's speech. -/
def Letter.Own (letter : Letter) (ident : String) : Prop :=
  (∃ n, ident = partId letter.key n) ∨ ∃ status : Status, ident = speechId letter.key status.state

/-- One thing that happens: the router comes to the letter, an exception before
`speak` has looked into the journal refuses it, the process takes its next
action or dies, or anything else is written to the install's folder. -/
inductive Event where
  | speakOut (facts : List Fact) (grant : Int) (call : Call)
  | refuse
  | advance (inputs : Inputs)
  | crash
  | elsewhere (ms : Int) (fact : Fact)

/-- Only `speak` writes what is about the letter's speech. -/
def Event.Allowed (letter : Letter) : Event → Prop
  | .elsewhere _ fact => ¬letter.Own fact.id
  | _ => True

/-- An event that cannot happen where the process stands changes nothing. -/
def World.step (letter : Letter) (w : World) : Event → World
  | .speakOut facts grant call => if w.stage = .idle then w.speakOut letter facts grant call else w
  | .refuse =>
      match w.stage with
      | .speaking _ => w.told "speech-refused"
      | _ => w
  | .advance inputs => w.advance letter inputs
  | .crash => { w with folder := { w.folder with index := ⟨0, [], []⟩ }, stage := .idle }
  | .elsewhere ms fact =>
      match append ms letter.install w.folder fact with
      | .ok (folder, _) => { w with folder := folder }
      | .error _ => w

/-- The worlds that runs reach whose steps all meet `Meets`. -/
inductive Reach (letter : Letter) (Meets : World → Event → Prop) : World → Prop where
  | start : Reach letter Meets .start
  | step {w : World} {e : Event} (prior : Reach letter Meets w) (hAllowed : e.Allowed letter)
      (hMeets : Meets w e) : Reach letter Meets (w.step letter e)

end Brnrd.Speech
