import Brnrd.Ledger.Rows
import Mathlib.Data.Finset.Sort

/-! The record of a conversation's seat, the chart its state moves along, and
the row it is kept as. -/
namespace Brnrd.Seats

open Python Ledger

/-- A chart loaded from its file. -/
structure Machine (σ τ : Type) where
  start : σ
  edges : List (σ × τ × σ)

inductive SeatError where
  | value (message : String)
  | stale (message : String)
  | key (name : String)
  | type
deriving DecidableEq

/-- `Machine.next`: the one target of the state's edges on the trigger. -/
def Machine.next {σ τ : Type} [DecidableEq σ] [DecidableEq τ] [ToString σ] [ToString τ] (machine : Machine σ τ)
    (state : σ) (trigger : τ) : Except SeatError σ :=
  match ((machine.edges.filter fun e => e.1 = state ∧ e.2.1 = trigger).map fun e => e.2.2).dedup with
  | [target] => .ok target
  | _ => .error (.value ("illegal transition: " ++ toString state ++ " / " ++ toString trigger))

inductive SeatState where
  | running | awaiting | parked | ended
deriving DecidableEq

inductive Trigger where
  | dispatch | await | signal | park | recover | wake | handover | finish
deriving DecidableEq

def SeatState.name : SeatState → String
  | running => "running"
  | awaiting => "awaiting"
  | parked => "parked"
  | ended => "ended"

def Trigger.name : Trigger → String
  | dispatch => "dispatch"
  | await => "await"
  | signal => "signal"
  | park => "park"
  | recover => "recover"
  | wake => "wake"
  | handover => "handover"
  | finish => "end"

instance : ToString SeatState := ⟨SeatState.name⟩

instance : ToString Trigger := ⟨Trigger.name⟩

/-- `states/seat.yaml`; its trigger `end` is `finish` here. -/
def chart : Machine SeatState Trigger where
  start := .parked
  edges :=
    [(.parked, .dispatch, .running), (.ended, .dispatch, .running), (.running, .await, .awaiting),
      (.awaiting, .signal, .running), (.awaiting, .park, .parked), (.running, .recover, .running),
      (.awaiting, .recover, .running), (.running, .park, .parked), (.parked, .wake, .running),
      (.running, .handover, .parked), (.running, .finish, .ended), (.awaiting, .finish, .ended),
      (.parked, .finish, .ended)]

/-- The optional fields that no predicate reads are left out. -/
structure Signal where
  kind : String
  conversation : String
  ask : Option String
  parent : Option String
  edge : Option String
  schedule : Option String
  pool : Option String
  remainingPct : Option ℚ
  measuredAt : Option ℚ
  control : Option String

structure WakePredicate where
  kind : String
  params : Dict

/-- What `float` makes of a JSON value, told by the comparisons `x >= float(v)`,
`x <= float(v)` and `x < float(v)` with a clock reading or a measured number,
each `none` where the conversion raises. -/
structure Floats where
  atLeast : ℚ → Value → Option Bool
  atMost : ℚ → Value → Option Bool
  below : ℚ → Value → Option Bool

/-- An optional text as `==` compares it. -/
def optional : Option String → Value
  | none => .null
  | some s => .str s

/-- `p[name]` and the comparison of its `float`. -/
def compared (test : Value → Option Bool) (params : Dict) (name : String) : Except SeatError Bool :=
  match params.lookup name with
  | none => .error (.key name)
  | some value =>
      match test value with
      | none => .error .type
      | some answer => .ok answer

/-- `item in container`. -/
def isIn (item : Value) : Value → Except SeatError Bool
  | .arr items => .ok (item ∈ items)
  | .obj fields => if item.hashable then .ok (item ∈ fields.map fun f => Value.str f.1) else .error .type
  | .str text =>
      match item with
      | .str part => .ok (part.toList <:+: text.toList)
      | _ => .error .type
  | _ => .error .type

/-- `WakePredicate.matches`. -/
def WakePredicate.matchesSignal (floats : Floats) (p : WakePredicate) (signal : Signal) (now : ℚ)
    (conversation : String) (authorize : Option (Signal → Bool)) : Except SeatError Bool :=
  let authorized := authorize.any fun allowed => allowed signal
  if signal.conversation ≠ conversation then .ok false
  else match p.kind with
    | "M" => .ok (signal.kind = "mail" ∧ (¬(p.params.get "ask").truthy ∨ p.params.get "ask" = optional signal.ask))
    | "S" => .ok (signal.kind = "schedule" ∧
        (¬(p.params.get "name").truthy ∨ p.params.get "name" = optional signal.schedule))
    | "C" => .ok (signal.kind = "child" ∧ p.params.get "parent" = optional signal.parent ∧
        p.params.get "edge" = optional signal.edge)
    | "H" => .ok (signal.kind = "handover" ∧ authorized)
    | "R" =>
        if signal.kind ≠ "resource" ∨ p.params.get "pool" ≠ optional signal.pool then .ok false
        else match signal.remainingPct with
          | none => .ok false
          | some remaining => do
              if !(← compared (floats.atLeast remaining) p.params "floor") then return false
              match signal.measuredAt with
              | none => return false
              | some measured =>
                  if 0 ≤ now - measured then compared (floats.atMost (now - measured)) p.params "freshness"
                  else return false
    | "T" => if signal.kind ≠ "timer" then .ok false else compared (floats.atLeast now) p.params "deadline"
    | "U" =>
        if signal.kind ≠ "control" ∨ ¬authorized then .ok false
        else if ¬(p.params.get "actions").truthy then .ok true
        else isIn (optional signal.control) (p.params.get "actions")
    | _ => .error (.value ("unknown wake predicate: " ++ p.kind))

structure SeatRecord where
  conversation : String
  state : SeatState
  generation : Int
  resumeGeneration : Int
  wakeOn : List WakePredicate
  why : String
  checkpoint : Dict
  nativeSession : Option Dict
  queuedLetters : List String
  obligations : List String
  carry : Option Dict
  asks : List String
  runId : String
  handoverFrom : Option Dict

/-- `SeatRecord(conversation)`. -/
def SeatRecord.fresh (conversation : String) : SeatRecord where
  conversation := conversation
  state := .parked
  generation := 0
  resumeGeneration := 0
  wakeOn := []
  why := ""
  checkpoint := []
  nativeSession := none
  queuedLetters := []
  obligations := []
  carry := none
  asks := []
  runId := ""
  handoverFrom := none

def SeatState.ofName : String → Option SeatState
  | "running" => some running
  | "awaiting" => some awaiting
  | "parked" => some parked
  | "ended" => some ended
  | _ => none

def WakePredicate.row (p : WakePredicate) : Value :=
  .obj [("kind", .str p.kind), ("params", .obj p.params)]

/-- A dict or `None`. -/
def optionalDict : Option Dict → Value
  | none => .null
  | some fields => .obj fields

/-- `SeatRecord.row`, its keys in order. -/
def SeatRecord.row (r : SeatRecord) : Dict :=
  [("asks", .arr (r.asks.map .str)), ("carry", optionalDict r.carry), ("checkpoint", .obj r.checkpoint),
    ("conversation", .str r.conversation), ("generation", .int r.generation),
    ("handover_from", optionalDict r.handoverFrom), ("native_session", optionalDict r.nativeSession),
    ("obligations", .arr (r.obligations.map .str)), ("queued_letters", .arr (r.queuedLetters.map .str)),
    ("resume_generation", .int r.resumeGeneration), ("run_id", .str r.runId), ("state", .str r.state.name),
    ("wake_on", .arr (r.wakeOn.map WakePredicate.row)), ("why", .str r.why)]

/-- `WakePredicate(**p)`, `none` where it raises. -/
def WakePredicate.fromRow : Value → Option WakePredicate
  | .obj [("kind", .str kind), ("params", .obj params)] => some ⟨kind, params⟩
  | .obj [("kind", .str kind)] => some ⟨kind, []⟩
  | _ => none

/-- The value of an optional key that holds a list of a kind. -/
def listAt {α : Type} (read : Value → Option α) (row : Dict) (name : String) : Option (List α) :=
  match row.lookup name with
  | none => some []
  | some (.arr items) => items.mapM read
  | some _ => none

/-- The value of an optional key that holds a text. -/
def textAt (row : Dict) (name : String) : Option String :=
  match row.lookup name with
  | none => some ""
  | some value => asStr value

/-- The value of an optional key that holds a dict or `None`. -/
def dictAt (row : Dict) (name : String) : Option (Option Dict) :=
  match row.lookup name with
  | none | some .null => some none
  | some (.obj fields) => some (some fields)
  | some _ => none

/-- `SeatRecord.from_row`, `none` where it raises. A row with a value of another
type counts as one it raises on. -/
def SeatRecord.fromRow (row : Dict) : Option SeatRecord := do
  return {
    conversation := ← (row.lookup "conversation").bind asStr
    state := ← ((row.lookup "state").bind asStr).bind SeatState.ofName
    generation := ← (row.lookup "generation").bind asInt
    resumeGeneration := ← (row.lookup "resume_generation").bind asInt
    wakeOn := ← listAt WakePredicate.fromRow row "wake_on"
    why := ← textAt row "why"
    checkpoint := (← dictAt row "checkpoint").getD []
    nativeSession := ← dictAt row "native_session"
    queuedLetters := ← listAt asStr row "queued_letters"
    obligations := ← listAt asStr row "obligations"
    carry := ← dictAt row "carry"
    asks := ← listAt asStr row "asks"
    runId := ← textAt row "run_id"
    handoverFrom := ← dictAt row "handover_from" }

@[simp] theorem SeatState.ofName_name (state : SeatState) : SeatState.ofName state.name = some state := by
  cases state <;> rfl

@[simp] theorem WakePredicate.fromRow_row (p : WakePredicate) : WakePredicate.fromRow p.row = some p := by
  cases p
  simp [WakePredicate.row, WakePredicate.fromRow]

theorem mapM_of_inverse {α β : Type} {read : β → Option α} {write : α → β} (h : ∀ a, read (write a) = some a)
    (l : List α) : (l.map write).mapM read = some l := by
  induction l with
  | nil => rfl
  | cons a l ih => simp [h, ih]

/-- A record read back from its row is the record. -/
theorem SeatRecord.fromRow_row (r : SeatRecord) : SeatRecord.fromRow r.row = some r := by
  have hTexts : ∀ texts : List String, (texts.map Value.str).mapM asStr = some texts :=
    mapM_of_inverse fun _ => rfl
  have hPredicates : (r.wakeOn.map WakePredicate.row).mapM WakePredicate.fromRow = some r.wakeOn :=
    mapM_of_inverse WakePredicate.fromRow_row _
  have hDict : ∀ found : Option Dict,
      (match some (optionalDict found) with
        | none | some Value.null => some none
        | some (.obj fields) => some (some fields)
        | some _ => none) = some found := by
    intro found
    cases found <;> rfl
  simp [SeatRecord.fromRow, SeatRecord.row, listAt, textAt, dictAt, List.lookup_cons, hTexts, hPredicates, hDict,
    asStr, asInt]

end Brnrd.Seats

/-! The store of seat records and the methods of a seat. A method reads the
record, checks what it read, and asks the store for one change at the generation
its caller names. -/
namespace Brnrd.Seats

open Python

/-- The files of the store, by conversation. -/
abbrev Store := String → Option Dict

/-- `SeatStore.read`. -/
def Store.read (store : Store) (conversation : String) : Except SeatError SeatRecord :=
  if conversation = "" then .error (.value "conversation required")
  else match store conversation with
    | none => .ok (.fresh conversation)
    | some row =>
        match SeatRecord.fromRow row with
        | some record => .ok record
        | none => .error .type

abbrev Update := SeatRecord → Except SeatError SeatRecord

/-- `SeatStore.change`, which replaces the file whole under the conversation's
lock. -/
def Store.change (store : Store) (conversation : String) (expected : Int) (update : Update) :
    Except SeatError (Store × SeatRecord) := do
  let current ← store.read conversation
  if current.generation ≠ expected then
    throw (.stale (conversation ++ ": expected " ++ toString expected ++ ", got " ++ toString current.generation))
  let updated ← update current
  if updated.conversation ≠ conversation then throw (.value "seat address changed")
  let updated := { updated with generation := expected + 1 }
  return (Function.update store conversation (some updated.row), updated)

/-- What a seat is built with, and the interpreter's conversions. -/
structure Seat where
  conversation : String
  authorize : Option (Signal → Bool)
  floats : Floats
  host : Host

/-- The `update` of `_transition`. -/
def transition (trigger : Trigger) (changes : SeatRecord → SeatRecord) : Update := fun current => do
  let state ← chart.next current.state trigger
  return changes { current with state }

/-- How a woken seat goes on: `mode` and `session_id` of a `Wake`. -/
structure Resume where
  mode : String
  sessionId : Option String

/-- A change a method asks the store for, and what it returns beside the record. -/
structure Request where
  update : Update
  resume : Option Resume

/-- Whether some predicate matches; each is asked with a new clock reading. -/
def Seat.anyMatch (seat : Seat) (signal : Signal) : List WakePredicate → (Nat → ℚ) → Except SeatError Bool
  | [], _ => .ok false
  | p :: rest, clock => do
      if ← p.matchesSignal seat.floats signal (clock 0) seat.conversation seat.authorize then return true
      seat.anyMatch signal rest fun n => clock (n + 1)

/-- The elements of `set(value)`. -/
def elements : Value → Except SeatError (List Value)
  | .arr items => if items.all Value.hashable then .ok items else .error .type
  | .obj fields => .ok (fields.map fun f => .str f.1)
  | .str text => .ok (text.toList.map fun c => .str (String.singleton c))
  | _ => .error .type

/-- `valid`: whether the native session can be gone on with. -/
def Seat.valid (seat : Seat) (native : Dict) (shell : String) (now : ℚ) (capabilities : Finset String) :
    Except SeatError Bool := do
  if native.get "shell" ≠ .str shell ∨ ¬(native.get "id").truthy then return false
  match seat.floats.below now ((native.lookup "valid_until").getD (.int 0)) with
  | none => throw .type
  | some live =>
      if !live then return false
      let needed ← elements ((native.lookup "valid_for").getD (.arr []))
      return needed.all fun item => decide (∃ c ∈ capabilities, item = .str c)

/-- The `Wake` of a valid or an invalid native session. -/
def Seat.resume (seat : Seat) (native : Dict) (valid : Bool) : Resume :=
  if valid then ⟨"native", some ((native.get "id").toStr seat.host)⟩ else ⟨"checkpoint", none⟩

/-- A method that makes its change without a read of its own. -/
def changes (update : Update) : Except SeatError (Option Request) :=
  .ok (some ⟨update, none⟩)

def start (runId : String) : Except SeatError (Option Request) :=
  changes (transition .dispatch fun r => { r with runId := runId })

def awaitSignal (predicates : List WakePredicate) : Except SeatError (Option Request) :=
  changes (transition .await fun r => { r with wakeOn := predicates })

/-- `signal` on the record it read. -/
def Seat.signal (seat : Seat) (current : SeatRecord) (expected : Int) (signal : Signal) (clock : Nat → ℚ) :
    Except SeatError (Option Request) := do
  if current.generation ≠ expected then throw (.stale "stale await generation")
  if !(← seat.anyMatch signal current.wakeOn clock) then return none
  changes (transition .signal fun r => { r with wakeOn := [] })

def resolveAwait (outcome : String) : Except SeatError (Option Request) := do
  if outcome ∉ ["event", "condition", "timeout"] then throw (.value "unknown await outcome")
  changes (transition .signal fun r => { r with wakeOn := [] })

def checkpoint (data : Dict) (obligations : List String) (nativeSession : Option Dict)
    (queuedLetters : Option (List String)) : Except SeatError (Option Request) :=
  changes fun current => do
    if current.state ∉ [.running, .awaiting, .parked] then throw (.value "ended seat cannot checkpoint")
    return { current with
      checkpoint := data
      obligations := obligations
      nativeSession := nativeSession
      queuedLetters := queuedLetters.getD current.queuedLetters }

def park (why : String) (wakeOn : List WakePredicate) : Except SeatError (Option Request) := do
  if wakeOn = [] then throw (.value "park requires a wake predicate")
  changes (transition .park fun r => { r with why := why, wakeOn := wakeOn })

/-- `handover` on the record it read. -/
def handover (current : SeatRecord) (expected : Int) (carry : Dict) (wakeOn : List WakePredicate) :
    Except SeatError (Option Request) := do
  if carry = [] ∨ wakeOn = [] then throw (.value "handover requires carry and wake predicates")
  if current.generation ≠ expected ∨ current.runId = "" then
    throw (.stale "handover requires the active run generation")
  changes (transition .handover fun r =>
    { r with
      carry := some carry
      why := "handover"
      wakeOn := wakeOn
      handoverFrom := some [("generation", .int expected), ("run", .str current.runId)] })

/-- `tuple(dict.fromkeys(items))`: each item at its first place. -/
def fromKeys (items : List String) : List String :=
  items.reverse.dedup.reverse

def queueLetter (letterId : String) : Except SeatError (Option Request) :=
  changes fun current => do
    if current.state = .ended then throw (.value "ended seat cannot queue mail")
    return { current with queuedLetters := fromKeys (current.queuedLetters ++ [letterId]) }

/-- `wake` on the record it read. -/
def Seat.wake (seat : Seat) (current : SeatRecord) (expected : Int) (signal : Signal) (shell : String)
    (capabilities : Finset String) (runId : String) (clock : Nat → ℚ) (now : ℚ) :
    Except SeatError (Option Request) := do
  if current.generation ≠ expected then throw (.stale "stale resume generation")
  if current.state ≠ .parked then throw (.value "only a parked seat can wake")
  if !(← seat.anyMatch signal current.wakeOn clock) then return none
  let native := current.nativeSession.getD []
  let valid ← seat.valid native shell now capabilities
  return some ⟨transition .wake fun r =>
    { r with
      wakeOn := []
      resumeGeneration := current.resumeGeneration + 1
      runId := if runId ≠ "" then runId else current.runId }, some (seat.resume native valid)⟩

/-- `recover` on the record it read. -/
def Seat.recover (seat : Seat) (current : SeatRecord) (expected : Int) (shell : String)
    (capabilities : Finset String) (runId : String) (now : ℚ) : Except SeatError (Option Request) := do
  if current.generation ≠ expected ∨ current.state ∉ [.running, .awaiting] then
    throw (.stale "no interrupted seat at this generation")
  let native := current.nativeSession.getD []
  let valid ← seat.valid native shell now capabilities
  return some ⟨transition .recover fun r =>
    { r with
      runId := runId
      resumeGeneration := current.resumeGeneration + 1
      wakeOn := [] }, some (seat.resume native valid)⟩

def finish : Except SeatError (Option Request) :=
  changes (transition .finish fun r => { r with wakeOn := [] })

/-- The methods of a seat, with the clock readings of those that take some. -/
inductive Op where
  | start (runId : String)
  | awaitSignal (predicates : List WakePredicate)
  | signal (signal : Signal) (clock : Nat → ℚ)
  | resolveAwait (outcome : String)
  | checkpoint (data : Dict) (obligations : List String) (nativeSession : Option Dict)
      (queuedLetters : Option (List String))
  | park (why : String) (wakeOn : List WakePredicate)
  | handover (carry : Dict) (wakeOn : List WakePredicate)
  | queueLetter (letterId : String)
  | wake (signal : Signal) (shell : String) (capabilities : Finset String) (runId : String) (clock : Nat → ℚ)
      (now : ℚ)
  | recover (shell : String) (capabilities : Finset String) (runId : String) (now : ℚ)
  | finish

/-- What a method does with the record it read. -/
def Op.request (seat : Seat) (current : SeatRecord) (expected : Int) : Op → Except SeatError (Option Request)
  | start runId => Seats.start runId
  | awaitSignal predicates => Seats.awaitSignal predicates
  | .signal sent clock => seat.signal current expected sent clock
  | resolveAwait outcome => Seats.resolveAwait outcome
  | checkpoint data obligations nativeSession queuedLetters =>
      Seats.checkpoint data obligations nativeSession queuedLetters
  | park why wakeOn => Seats.park why wakeOn
  | handover carry wakeOn => Seats.handover current expected carry wakeOn
  | queueLetter letterId => Seats.queueLetter letterId
  | wake sent shell capabilities runId clock now =>
      seat.wake current expected sent shell capabilities runId clock now
  | recover shell capabilities runId now => seat.recover current expected shell capabilities runId now
  | finish => Seats.finish

end Brnrd.Seats
