import Brnrd.Project.Replay

/-! One body's lifecycle: the facts of a generation determine its state, and the
state and an observation select a row of the table. -/
namespace Brnrd.Bodies

open Python Facts Project

/-- The states by name. -/
inductive Name where
  | wanted | parked | running | leaving | stopping | unidentified | exited | ended
  deriving DecidableEq

/-- `until_` is the source's `until`. -/
structure State where
  name : Name
  until_ : ℚ
  deadline : ℚ
  pending : Bool
  stopped : Bool
  identified : Bool
  released : Bool

/-- What a gauge reads. -/
inductive Gauge where
  | refreshing | empty | ok | unknown
  deriving DecidableEq

structure Observation where
  strand : String
  gen : Int
  alive : Bool
  closed : Bool
  gauge : Gauge
  now : ℚ
  proven : Option Bool
  until_ : ℚ
  force : Bool
  stopGrace : ℚ
  failure : String
  woken : String
  fenced : Bool
  held : Bool
  away : Bool
  handed : Bool
  pressed : Bool

/-- The readings a row's `observed` column may name. -/
inductive Observed where
  | closed | fenced | pinnedAway | failure | wokenOnAnotherBody | memoryPressed
  | heldDryWokenOnAnotherBody | gaugeUnknownBeforeUntil | gaugeRefreshing | gaugeEmpty | gaugeNotEmpty
  | notAlive | aliveProven | aliveNotProven | aliveOpen | aliveClosed | aliveReopened
  | aliveBeforeDeadline | aliveDueProven | aliveDueUnproven | any | notReleased
  deriving DecidableEq

/-- The commands, by name. -/
inductive CommandName where
  | prepare | shown | spawn | started | pending | park | leaving | stayed | stopped | unidentified
  | signal | letGo | collect | drain | exit | end_ | endSettled | endFailed | endReincarnated | endMoved
  | drained | release
  deriving DecidableEq

structure Row where
  states : List Name
  observed : Observed
  next : Name
  commands : List CommandName
  deriving DecidableEq

def startable : List Name :=
  [.wanted, .parked]

def live : List Name :=
  [.running, .leaving, .stopping, .unidentified]

def cleanup : List CommandName :=
  [.drain, .drained, .release]

def end_ : List CommandName :=
  .end_ :: cleanup

def finish : List CommandName :=
  [.collect, .drain, .exit] ++ end_

/-- `TABLE`. -/
def table : List Row :=
  [⟨startable, .closed, .ended, .endSettled :: cleanup⟩,
   ⟨startable, .failure, .ended, [.exit, .endFailed] ++ cleanup⟩,
   ⟨startable, .pinnedAway, .ended, .endMoved :: cleanup⟩,
   ⟨[.wanted], .fenced, .wanted, []⟩,
   ⟨[.parked], .fenced, .parked, []⟩,
   ⟨[.parked], .wokenOnAnotherBody, .ended, .endReincarnated :: cleanup⟩,
   ⟨[.wanted], .memoryPressed, .wanted, [.pending]⟩,
   ⟨[.parked], .memoryPressed, .parked, []⟩,
   ⟨[.parked], .gaugeUnknownBeforeUntil, .parked, []⟩,
   ⟨[.parked], .gaugeRefreshing, .parked, []⟩,
   ⟨[.wanted], .gaugeRefreshing, .wanted, [.pending]⟩,
   ⟨[.parked], .gaugeEmpty, .parked, []⟩,
   ⟨startable, .gaugeEmpty, .parked, [.park]⟩,
   ⟨startable, .gaugeNotEmpty, .running, [.prepare, .shown, .spawn, .started]⟩,
   ⟨live, .notAlive, .ended, finish⟩,
   ⟨[.running], .heldDryWokenOnAnotherBody, .running, [.letGo]⟩,
   ⟨[.running], .aliveOpen, .running, []⟩,
   ⟨[.running], .aliveClosed, .leaving, [.leaving]⟩,
   ⟨[.leaving, .unidentified], .aliveReopened, .running, [.stayed]⟩,
   ⟨[.leaving], .aliveBeforeDeadline, .leaving, []⟩,
   ⟨[.leaving], .aliveDueProven, .stopping, [.stopped, .signal]⟩,
   ⟨[.leaving], .aliveDueUnproven, .unidentified, [.unidentified]⟩,
   ⟨[.stopping], .aliveProven, .stopping, [.signal]⟩,
   ⟨[.stopping], .aliveNotProven, .stopping, []⟩,
   ⟨[.unidentified], .aliveClosed, .unidentified, []⟩,
   ⟨[.exited], .any, .ended, end_⟩,
   ⟨[.ended], .notReleased, .ended, cleanup⟩]

/-- The fact a command leaves. -/
def records : CommandName → Option String
  | .shown => some "shown"
  | .started => some "body.started"
  | .pending => some "body.pending"
  | .park => some "body.parked"
  | .leaving => some "body.leaving"
  | .stayed => some "body.stayed"
  | .stopped => some "body.stopped"
  | .unidentified => some "body.unidentified"
  | .exit => some "body.exited"
  | .end_ | .endSettled | .endFailed | .endReincarnated | .endMoved => some "attempt.ended"
  | .drained => some "port.drained"
  | .release => some "released"
  | .prepare | .spawn | .signal | .letGo | .collect | .drain => none

/-- The fact is one of the generation's. -/
def ofBody (strand : String) (gen : Int) (fact : Fact) : Bool :=
  Dict.get fact.data "strand" = .str strand && Dict.get fact.data "gen" = .int gen

/-- `fact_for(facts, kind, strand, gen)`. -/
def factFor (facts : List Fact) (kind strand : String) (gen : Int) : Option Fact :=
  facts.reverse.find? fun f => f.kind = kind && ofBody strand gen f

/-- A number of seconds; `float` reads the printed text of one. -/
def number (float : String → ℚ) : Value → Option ℚ
  | .bool b => some (if b then 1 else 0)
  | .int n => some n
  | .float text _ => some (float text)
  | _ => none

/-- What the fold reads of a fact: what its kind says, and the time that a
parked or a leaving one carries. -/
inductive Mark where
  | lease | pending | parked (time : ℚ) | shown | running | leaving (time : ℚ) | stopped | unidentified
  | exited | ended | released | other
  deriving DecidableEq

/-- A time a fact carries: raises where there is none. -/
def seconds (float : String → ℚ) (fact : Fact) (key : String) : Except Raised ℚ := do
  let value ← item fact.data key
  match number float value with
  | some n => .ok n
  | none => .error .type

def markOf (float : String → ℚ) (fact : Fact) : Except Raised Mark :=
  match fact.kind with
  | "lease" => .ok .lease
  | "body.pending" => .ok .pending
  | "body.parked" => (seconds float fact "until").map .parked
  | "shown" => .ok .shown
  | "body.started" | "body.stayed" => .ok .running
  | "body.leaving" => (seconds float fact "deadline").map .leaving
  | "body.stopped" => .ok .stopped
  | "body.unidentified" => .ok .unidentified
  | "body.exited" => .ok .exited
  | "attempt.ended" => .ok .ended
  | "released" => .ok .released
  | _ => .ok .other

/-- What the fold reads of a generation. -/
def marks (float : String → ℚ) (facts : List Fact) (strand : String) (gen : Int) :
    Except Raised (List Mark) :=
  (facts.filter (ofBody strand gen)).mapM (markOf float)

/-- The variables of the fold. -/
structure Folding where
  state : State
  exited : Bool
  ended : Bool

def Folding.start : Folding :=
  ⟨⟨.wanted, 0, 0, false, false, true, false⟩, false, false⟩

def Folding.setName (s : Folding) (name : Name) : Folding :=
  { s with state := { s.state with name := name } }

/-- One fact of the generation. -/
def Folding.read (alive : Bool) (s : Folding) : Mark → Folding
  | .lease => if alive then s.setName .running else s
  | .pending => { s with state := { s.state with pending := true } }
  | .parked time => { s with state := { s.state with name := .parked, until_ := time } }
  | .shown => if s.state.name ∈ startable then s.setName .running else s
  | .running => s.setName .running
  | .leaving time => { s with state := { s.state with name := .leaving, deadline := time, identified := true } }
  | .stopped => { s with state := { s.state with stopped := true } }
  | .unidentified => { s with state := { s.state with name := .unidentified, identified := false } }
  | .exited => { s with exited := true }
  | .ended => { s with ended := true }
  | .released => { s with state := { s.state with released := true } }
  | .other => s

def folded (alive : Bool) (marks : List Mark) : Folding :=
  marks.foldl (Folding.read alive) Folding.start

/-- The name after the fold. -/
def Folding.finalName (alive : Bool) (s : Folding) : Name :=
  if s.ended then .ended
  else if s.exited then .exited
  else if s.state.stopped then .stopping
  else if alive ∧ s.state.name ∈ startable then .running
  else s.state.name

def Folding.result (alive : Bool) (s : Folding) : State :=
  { s.state with name := s.finalName alive }

/-- `state_of(facts, strand, gen, alive=alive)`. -/
def stateOf (float : String → ℚ) (facts : List Fact) (strand : String) (gen : Int) (alive : Bool) :
    Except Raised State := do
  let found ← marks float facts strand gen
  .ok ((folded alive found).result alive)

/-- `OBSERVED`. -/
def Observed.holds (s : State) (o : Observation) : Observed → Bool
  | .closed => o.closed
  | .fenced => o.fenced
  | .pinnedAway => o.away
  | .failure => o.failure ≠ ""
  | .wokenOnAnotherBody => o.woken ≠ ""
  | .memoryPressed => o.pressed && !o.force
  | .heldDryWokenOnAnotherBody => o.alive && o.held && o.woken ≠ ""
  | .gaugeUnknownBeforeUntil => !o.force && o.gauge = .unknown && o.now < s.until_
  | .gaugeRefreshing => o.gauge = .refreshing
  | .gaugeEmpty => o.gauge = .empty
  | .gaugeNotEmpty => o.gauge = .ok || o.gauge = .unknown
  | .notAlive => !o.alive
  | .aliveProven => o.alive && o.proven = some true
  | .aliveNotProven => o.alive && o.proven ≠ some true
  | .aliveOpen => o.alive && !(o.closed || o.away || o.handed)
  | .aliveClosed => o.alive && (o.closed || o.away || o.handed)
  | .aliveReopened => o.alive && !(o.closed || o.away || o.handed)
  | .aliveBeforeDeadline => o.alive && o.now < s.deadline
  | .aliveDueProven => o.alive && s.deadline ≤ o.now && o.proven = some true
  | .aliveDueUnproven => o.alive && s.deadline ≤ o.now && o.proven = some false
  | .any => true
  | .notReleased => !s.released

/-- The row is one for the state and the observation. -/
def Row.fits (s : State) (o : Observation) (row : Row) : Bool :=
  s.name ∈ row.states && row.observed.holds s o

/-- `row_for(facts, o)`, as the row itself; where none fits, it raises `ValueError`. -/
def rowFor (float : String → ℚ) (facts : List Fact) (o : Observation) : Except Raised Row := do
  let s ← stateOf float facts o.strand o.gen o.alive
  match table.find? (Row.fits s o) with
  | some row => .ok row
  | none => .error .value

/-- A command and what `decide` fixes for it. -/
structure Command where
  name : CommandName
  deadline : Option ℚ
  deriving DecidableEq

/-- The commands of a row that `decide` does not skip. -/
def Row.decided (s : State) (o : Observation) (row : Row) : List Command :=
  (row.commands.filter fun name => !(name = .pending && s.pending ||
    name = .unidentified && !s.identified)).map fun name =>
      ⟨name, if name = .leaving then some (o.now + o.stopGrace) else none⟩

/-- `decide(facts, [o])`. -/
def decided (float : String → ℚ) (facts : List Fact) (o : Observation) : Except Raised (List Command) := do
  let s ← stateOf float facts o.strand o.gen o.alive
  let row ← rowFor float facts o
  .ok (row.decided s o)

/-- A row of generation 1 of the strand `s-1`. -/
def bodyRow (kind : String) (data : Dict) : Fact :=
  ⟨kind, "loom:aaaa", data ++ [("gen", .int 1), ("strand", .str "s-1")], "", kind ++ ":s-1:1", version, none, []⟩

example : (stateOf (fun _ => 0) [bodyRow "shown" [], bodyRow "body.leaving" [("deadline", .int 60)]] "s-1" 1 true).map
    State.name = .ok .leaving := by decide

end Brnrd.Bodies

/-! The facts that the commands of a body record. -/
namespace Brnrd.Bodies

open Python Facts Ledger

/-- The interpreter's floats and their texts: each is read back from its own. -/
structure Floats where
  read : String → ℚ
  text : ℚ → String
  read_text : ∀ q, read (text q) = q

/-- The JSON number of a float. -/
def Floats.value (floats : Floats) (q : ℚ) : Value :=
  .float (floats.text q) (some (q.num.tdiv q.den))

@[simp] theorem Floats.number_value (floats : Floats) (q : ℚ) :
    number floats.read (floats.value q) = some q := by
  simp [number, Floats.value, floats.read_text]

/-- What the end of an attempt says beyond its body. -/
structure Attempt where
  cause : Value
  code : Value
  dispositions : Value
  evidence : Value
  ids : Value

/-- What the hands of one decision share: the context of the observation, the
values gathered so far, and the letters the wake carries. `minted` is the random
part of the next id. -/
structure Shared where
  install : String
  thread : String
  why : String
  failure : String
  pressure : String
  pid : Int
  values : Dict
  letters : List String
  attempt : Attempt
  minted : String

/-- `why.get(kind)` of `_hand_record`. -/
def Shared.whyOf (x : Shared) (kind : String) : Value :=
  if kind = "body.stopped" then .str x.why
  else if kind = "body.exited" then .str x.failure
  else if kind = "body.pending" then .str x.pressure
  else if kind = "body.unidentified" then
    .str ("pid " ++ toString x.pid ++ " could not be proven to be the body on thread " ++ x.thread)
  else .null

/-- `values[name]` of `_hand_record`; the body and its times come from the observation. -/
def Shared.value (floats : Floats) (x : Shared) (o : Observation) (command : Command) (kind name : String) :
    Value :=
  if name = "strand" then .str o.strand
  else if name = "gen" then .int o.gen
  else if name = "until" then floats.value o.until_
  else if name = "deadline" then (command.deadline.map floats.value).getD .null
  else if name = "why" then x.whyOf kind
  else Dict.get x.values name

/-- The fields of a record: the required ones, and the others that are not empty. -/
def recordData (row : Kind) (value : String → Value) : Dict :=
  ((row.names.insertionSort (· ≤ ·)).filter fun name => name ∈ row.required || (value name).truthy).map
    fun name => (name, value name)

/-- The kinds the loop records at most once in a generation. -/
def onceKinds : List String :=
  ["body.pending", "body.started", "body.stopped", "body.exited"]

/-- `{strand}:{gen}`. -/
def bodyId (o : Observation) : String :=
  o.strand ++ ":" ++ toString o.gen

/-- `_record(home, kind, data, ident)`, before the ledger stamps it. -/
def loomFact (x : Shared) (kind ident : String) (data : Dict) : Fact :=
  ⟨kind, "loom:" ++ x.install, data, "", ident, version, none, []⟩

/-- `_hand_record`. -/
def Shared.record (floats : Floats) (x : Shared) (o : Observation) (command : Command) (row : Kind) : Fact :=
  loomFact x row.kind
    (row.kind ++ ":" ++ bodyId o ++ if row.kind ∈ onceKinds then "" else ":" ++ x.minted)
    (recordData row (x.value floats o command row.kind))

/-- `_hand_show`. -/
def Shared.shown (x : Shared) (o : Observation) : Fact :=
  loomFact x "shown" ("shown:wake:" ++ bodyId o)
    [("gen", .int o.gen), ("ids", .arr (x.letters.map .str)), ("strand", .str o.strand)]

/-- What `_end_attempt` records. -/
def Shared.attemptEnded (x : Shared) (o : Observation) : Fact :=
  loomFact x "attempt.ended" ("attempt.ended:" ++ bodyId o)
    [("cause", x.attempt.cause), ("code", x.attempt.code), ("dispositions", x.attempt.dispositions),
      ("evidence", x.attempt.evidence), ("gen", .int o.gen), ("ids", x.attempt.ids),
      ("strand", .str o.strand), ("thread", .str x.thread)]

/-- What `_drained` records. -/
def Shared.portDrained (x : Shared) (o : Observation) : Fact :=
  loomFact x "port.drained" ("port.drained:" ++ bodyId o)
    [("gen", .int o.gen), ("strand", .str o.strand), ("thread", .str x.thread)]

/-- What `_release` records. -/
def Shared.released (x : Shared) (o : Observation) : Fact :=
  loomFact x "released" ("released:" ++ x.thread ++ ":" ++ toString o.gen)
    [("gen", .int o.gen), ("install", .str x.install), ("strand", .str o.strand),
      ("thread", .str x.thread), ("why", .str "body ended")]

/-- The fact that a command's hand records. -/
def Command.fact (floats : Floats) (x : Shared) (o : Observation) (command : Command) : Option Fact :=
  match records command.name with
  | none => none
  | some "shown" => some (x.shown o)
  | some "attempt.ended" => some (x.attemptEnded o)
  | some "port.drained" => some (x.portDrained o)
  | some "released" => some (x.released o)
  | some kind => (kindRow kind).map (x.record floats o command)

end Brnrd.Bodies
