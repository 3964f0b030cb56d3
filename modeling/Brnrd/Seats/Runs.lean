import Brnrd.Seats.Record

/-! The runs of any number of seats' methods over one store. A method's read and
its change are two steps, and other methods may come between them. -/
namespace Brnrd.Seats

open Python

/-- A method on its way: its caller's arguments and the record it read. -/
structure Call where
  seat : Seat
  expected : Int
  op : Op
  current : SeatRecord

/-- The change of a call, `none` where the method returns `None`. -/
def Call.change (call : Call) (store : Store) : Except SeatError (Option (Store × SeatRecord × Option Resume)) := do
  match ← call.op.request call.seat call.current call.expected with
  | none => return none
  | some request => do
      let (store', record) ← store.change call.seat.conversation call.expected request.update
      return some (store', record, request.resume)

/-- A call that made its change, and the record before and after it. -/
structure Done where
  call : Call
  before : SeatRecord
  after : SeatRecord

/-- The store, the calls on their way, and the changes made, the last one first. -/
structure World where
  store : Store
  calls : List Call
  done : List Done

def World.start : World :=
  ⟨fun _ => none, [], []⟩

/-- A method begins with its read. -/
def World.read (w : World) (seat : Seat) (expected : Int) (op : Op) : World :=
  match w.store.read seat.conversation with
  | .ok current => { w with calls := ⟨seat, expected, op, current⟩ :: w.calls }
  | .error _ => w

/-- A method ends: its change is made, or it raises or returns `None`. -/
def World.finish (w : World) (call : Call) (others : List Call) : World :=
  match call.change w.store, w.store.read call.seat.conversation with
  | .ok (some (store, after, _)), .ok before => ⟨store, others, ⟨call, before, after⟩ :: w.done⟩
  | _, _ => { w with calls := others }

/-- The worlds some run reaches. A process that dies leaves a call that never ends. -/
inductive World.Reach : World → Prop where
  | start : Reach .start
  | read {w : World} (prior : Reach w) (seat : Seat) (expected : Int) (op : Op) : Reach (w.read seat expected op)
  | finish {w : World} (prior : Reach w) {first others : List Call} {call : Call}
      (hCall : w.calls = first ++ call :: others) : Reach (w.finish call (first ++ others))

/-- A method that runs from its read to its end with no other in between. -/
def World.call (w : World) (seat : Seat) (expected : Int) (op : Op) : World :=
  match w.store.read seat.conversation with
  | .ok current => w.finish ⟨seat, expected, op, current⟩ w.calls
  | .error _ => w

theorem World.Reach.call {w : World} (h : w.Reach) (seat : Seat) (expected : Int) (op : Op) :
    (w.call seat expected op).Reach := by
  have hBegun := h.read seat expected op
  unfold World.read at hBegun
  unfold World.call
  split
  · rename_i current hRead
    rw [hRead] at hBegun
    exact @World.Reach.finish _ hBegun [] w.calls _ rfl
  · exact h

/-- What a successful method makes of the record, its new generation aside. -/
inductive Op.Effect (r : SeatRecord) : Op → SeatRecord → Prop where
  | start (runId : String) (hState : r.state = .parked ∨ r.state = .ended) :
      Effect r (.start runId) { r with state := .running, runId := runId }
  | awaitSignal (predicates : List WakePredicate) (hState : r.state = .running) :
      Effect r (.awaitSignal predicates) { r with state := .awaiting, wakeOn := predicates }
  | signal (sent : Signal) (clock : Nat → ℚ) (hState : r.state = .awaiting) (hArmed : r.wakeOn ≠ []) :
      Effect r (.signal sent clock) { r with state := .running, wakeOn := [] }
  | resolveAwait (outcome : String) (hState : r.state = .awaiting) :
      Effect r (.resolveAwait outcome) { r with state := .running, wakeOn := [] }
  | checkpoint (data : Dict) (obligations : List String) (nativeSession : Option Dict)
      (queuedLetters : Option (List String)) (hState : r.state ≠ .ended) :
      Effect r (.checkpoint data obligations nativeSession queuedLetters)
        { r with
          checkpoint := data
          obligations := obligations
          nativeSession := nativeSession
          queuedLetters := queuedLetters.getD r.queuedLetters }
  | park (why : String) (wakeOn : List WakePredicate) (hState : r.state = .running ∨ r.state = .awaiting)
      (hArms : wakeOn ≠ []) :
      Effect r (.park why wakeOn) { r with state := .parked, why := why, wakeOn := wakeOn }
  | handover (carry : Dict) (wakeOn : List WakePredicate) (hState : r.state = .running) (hArms : wakeOn ≠ []) :
      Effect r (.handover carry wakeOn)
        { r with
          state := .parked
          carry := some carry
          why := "handover"
          wakeOn := wakeOn
          handoverFrom := some [("generation", .int r.generation), ("run", .str r.runId)] }
  | queueLetter (letterId : String) (hState : r.state ≠ .ended) :
      Effect r (.queueLetter letterId) { r with queuedLetters := fromKeys (r.queuedLetters ++ [letterId]) }
  | wake (sent : Signal) (shell : String) (capabilities : Finset String) (runId : String) (clock : Nat → ℚ) (now : ℚ)
      (hState : r.state = .parked) (hArmed : r.wakeOn ≠ []) :
      Effect r (.wake sent shell capabilities runId clock now)
        { r with
          state := .running
          wakeOn := []
          resumeGeneration := r.resumeGeneration + 1
          runId := if runId ≠ "" then runId else r.runId }
  | recover (shell : String) (capabilities : Finset String) (runId : String) (now : ℚ)
      (hState : r.state = .running ∨ r.state = .awaiting) :
      Effect r (.recover shell capabilities runId now)
        { r with state := .running, runId := runId, resumeGeneration := r.resumeGeneration + 1, wakeOn := [] }
  | finish (hState : r.state ≠ .ended) : Effect r .finish { r with state := .ended, wakeOn := [] }

theorem next_eq_ok {state target : SeatState} {trigger : Trigger} :
    chart.next state trigger = .ok target ↔ (state, trigger, target) ∈ chart.edges := by
  cases state <;> cases trigger <;> cases target <;> decide

theorem transition_eq_ok {trigger : Trigger} {f : SeatRecord → SeatRecord} {r u : SeatRecord}
    (h : transition trigger f r = .ok u) :
    ∃ target, (r.state, trigger, target) ∈ chart.edges ∧ f { r with state := target } = u := by
  obtain ⟨target, hNext, hu⟩ := Fallible.peel h
  exact ⟨target, next_eq_ok.mp hNext, Except.ok.inj hu⟩

/-- A method that matched some predicate found one. -/
theorem anyMatch_armed {seat : Seat} {sent : Signal} {predicates : List WakePredicate} {clock : Nat → ℚ}
    (h : seat.anyMatch sent predicates clock = .ok true) : predicates ≠ [] := by
  intro hNone
  subst hNone
  cases h

/-- A guard that did not raise was not met. -/
theorem guard_eq_ok {α : Type} {condition : Prop} [Decidable condition] {error : SeatError}
    {rest : Except SeatError α} {f : PUnit → Except SeatError α} {a : α}
    (h : (if condition then throw error >>= f else rest) = .ok a) : ¬condition ∧ rest = .ok a := by
  split at h
  · cases h
  · exact ⟨‹_›, h⟩

theorem changes_eq_ok {update : Update} {request : Request} (h : changes update = .ok (some request)) :
    request.update = update :=
  congrArg Request.update (Option.some.inj (Except.ok.inj h)).symm

/-- A method that goes on after a match had an armed predicate. -/
theorem matched_eq_ok {seat : Seat} {sent : Signal} {predicates : List WakePredicate} {clock : Nat → ℚ}
    {rest : Except SeatError (Option Request)} {request : Request}
    (h : (do
      if !(← seat.anyMatch sent predicates clock) then return none
      rest) = .ok (some request)) : predicates ≠ [] ∧ rest = .ok (some request) := by
  obtain ⟨found, hFound, hRest⟩ := Fallible.peel h
  cases found with
  | false => cases hRest
  | true => exact ⟨anyMatch_armed hFound, hRest⟩

/-- What a method's change makes of the record it was computed from. -/
theorem request_effect {seat : Seat} {current r u : SeatRecord} {expected : Int} {op : Op} {request : Request}
    (hRequest : op.request seat current expected = .ok (some request)) (hUpdate : request.update r = .ok u)
    (hExpected : r.generation = expected) (hCurrent : current.generation = r.generation → current = r) :
    op.Effect r u := by
  cases op with
  | start runId =>
      rw [changes_eq_ok hRequest] at hUpdate
      obtain ⟨target, hEdge, hu⟩ := transition_eq_ok hUpdate
      obtain ⟨hState, rfl⟩ | ⟨hState, rfl⟩ : r.state = .parked ∧ target = .running ∨
          r.state = .ended ∧ target = .running := by simpa [chart] using hEdge
      · exact hu ▸ .start runId (Or.inl hState)
      · exact hu ▸ .start runId (Or.inr hState)
  | awaitSignal predicates =>
      rw [changes_eq_ok hRequest] at hUpdate
      obtain ⟨target, hEdge, hu⟩ := transition_eq_ok hUpdate
      obtain ⟨hState, rfl⟩ : r.state = .running ∧ target = .awaiting := by simpa [chart] using hEdge
      exact hu ▸ .awaitSignal predicates hState
  | signal sent clock =>
      simp only [Op.request, Seat.signal] at hRequest
      obtain ⟨hGeneration, hRequest⟩ := guard_eq_ok hRequest
      obtain ⟨hArmed, hRequest⟩ := matched_eq_ok hRequest
      rw [changes_eq_ok hRequest] at hUpdate
      obtain ⟨target, hEdge, hu⟩ := transition_eq_ok hUpdate
      obtain ⟨hState, rfl⟩ : r.state = .awaiting ∧ target = .running := by simpa [chart] using hEdge
      have hRead := hCurrent ((not_not.mp hGeneration).trans hExpected.symm)
      exact hu ▸ .signal sent clock hState (hRead ▸ hArmed)
  | resolveAwait outcome =>
      simp only [Op.request, resolveAwait] at hRequest
      rw [changes_eq_ok (guard_eq_ok hRequest).2] at hUpdate
      obtain ⟨target, hEdge, hu⟩ := transition_eq_ok hUpdate
      obtain ⟨hState, rfl⟩ : r.state = .awaiting ∧ target = .running := by simpa [chart] using hEdge
      exact hu ▸ .resolveAwait outcome hState
  | checkpoint data obligations nativeSession queuedLetters =>
      rw [changes_eq_ok hRequest] at hUpdate
      obtain ⟨hOpen, hu⟩ := guard_eq_ok hUpdate
      have hState : r.state ≠ .ended := by
        intro hEnded
        simp [hEnded] at hOpen
      exact Except.ok.inj hu ▸ .checkpoint data obligations nativeSession queuedLetters hState
  | park why wakeOn =>
      simp only [Op.request, park] at hRequest
      obtain ⟨hArms, hRequest⟩ := guard_eq_ok hRequest
      rw [changes_eq_ok hRequest] at hUpdate
      obtain ⟨target, hEdge, hu⟩ := transition_eq_ok hUpdate
      obtain ⟨hState, rfl⟩ | ⟨hState, rfl⟩ : r.state = .awaiting ∧ target = .parked ∨
          r.state = .running ∧ target = .parked := by simpa [chart] using hEdge
      · exact hu ▸ .park why wakeOn (Or.inr hState) hArms
      · exact hu ▸ .park why wakeOn (Or.inl hState) hArms
  | handover carry wakeOn =>
      simp only [Op.request, handover] at hRequest
      obtain ⟨hGiven, hRequest⟩ := guard_eq_ok hRequest
      obtain ⟨hActive, hRequest⟩ := guard_eq_ok hRequest
      rw [changes_eq_ok hRequest] at hUpdate
      obtain ⟨target, hEdge, hu⟩ := transition_eq_ok hUpdate
      obtain ⟨hState, rfl⟩ : r.state = .running ∧ target = .parked := by simpa [chart] using hEdge
      obtain rfl := hCurrent ((not_not.mp (not_or.mp hActive).1).trans hExpected.symm)
      subst hExpected
      exact hu ▸ .handover carry wakeOn hState (not_or.mp hGiven).2
  | queueLetter letterId =>
      rw [changes_eq_ok hRequest] at hUpdate
      obtain ⟨hState, hu⟩ := guard_eq_ok hUpdate
      exact Except.ok.inj hu ▸ .queueLetter letterId hState
  | wake sent shell capabilities runId clock now =>
      simp only [Op.request, Seat.wake] at hRequest
      obtain ⟨hGeneration, hRequest⟩ := guard_eq_ok hRequest
      obtain ⟨hParked, hRequest⟩ := guard_eq_ok hRequest
      obtain ⟨hArmed, hRequest⟩ := matched_eq_ok hRequest
      obtain ⟨valid, _, hRequest⟩ := Fallible.peel hRequest
      cases hRequest
      dsimp only at hUpdate
      obtain ⟨target, hEdge, hu⟩ := transition_eq_ok hUpdate
      obtain ⟨hState, rfl⟩ : r.state = .parked ∧ target = .running := by simpa [chart] using hEdge
      obtain rfl := hCurrent ((not_not.mp hGeneration).trans hExpected.symm)
      exact hu ▸ .wake sent shell capabilities runId clock now hState hArmed
  | recover shell capabilities runId now =>
      simp only [Op.request, Seat.recover] at hRequest
      obtain ⟨hInterrupted, hRequest⟩ := guard_eq_ok hRequest
      obtain ⟨valid, _, hRequest⟩ := Fallible.peel hRequest
      cases hRequest
      dsimp only at hUpdate
      obtain ⟨target, hEdge, hu⟩ := transition_eq_ok hUpdate
      obtain rfl := hCurrent ((not_not.mp (not_or.mp hInterrupted).1).trans hExpected.symm)
      obtain ⟨hState, rfl⟩ | ⟨hState, rfl⟩ : current.state = .running ∧ target = .running ∨
          current.state = .awaiting ∧ target = .running := by simpa [chart] using hEdge
      · exact hu ▸ .recover shell capabilities runId now (Or.inl hState)
      · exact hu ▸ .recover shell capabilities runId now (Or.inr hState)
  | finish =>
      rw [changes_eq_ok hRequest] at hUpdate
      obtain ⟨target, hEdge, hu⟩ := transition_eq_ok hUpdate
      have hEnded : target = .ended ∧ r.state ≠ .ended := by
        rcases (by simpa [chart] using hEdge : r.state = .running ∧ target = .ended ∨
          r.state = .awaiting ∧ target = .ended ∨ r.state = .parked ∧ target = .ended) with h | h | h <;>
          simp [h]
      obtain ⟨rfl, hState⟩ := hEnded
      exact hu ▸ .finish hState

/-- The record of a conversation behind the changes made. -/
def latest : List Done → String → SeatRecord
  | [], conversation => .fresh conversation
  | d :: earlier, conversation =>
      if d.call.seat.conversation = conversation then d.after else latest earlier conversation

/-- Each change was made on the latest record, at the generation its caller named. -/
def Chained : List Done → Prop
  | [] => True
  | d :: earlier => (∃ r, d.call.op.Effect d.before r ∧ d.after = { r with generation := d.before.generation + 1 }) ∧
      d.before = latest earlier d.call.seat.conversation ∧ d.call.expected = d.before.generation ∧ Chained earlier

theorem Store.change_eq_ok {store store' : Store} {conversation : String} {expected : Int} {update : Update}
    {record : SeatRecord} (h : store.change conversation expected update = .ok (store', record)) :
    ∃ current u, store.read conversation = .ok current ∧ current.generation = expected ∧ update current = .ok u ∧
      u.conversation = conversation ∧ record = { u with generation := expected + 1 } ∧
      store' = Function.update store conversation (some record.row) := by
  obtain ⟨current, hRead, h⟩ := Fallible.peel h
  obtain ⟨hGeneration, h⟩ := guard_eq_ok h
  obtain ⟨u, hUpdate, h⟩ := Fallible.peel h
  obtain ⟨hAddress, h⟩ := guard_eq_ok h
  cases h
  exact ⟨current, u, hRead, not_not.mp hGeneration, hUpdate, not_not.mp hAddress, rfl, rfl⟩

theorem Call.change_eq_ok {call : Call} {store store' : Store} {record : SeatRecord} {resume : Option Resume}
    (h : call.change store = .ok (some (store', record, resume))) :
    ∃ request, call.op.request call.seat call.current call.expected = .ok (some request) ∧
      store.change call.seat.conversation call.expected request.update = .ok (store', record) := by
  obtain ⟨request, hRequest, h⟩ := Fallible.peel h
  cases request with
  | none => cases h
  | some request =>
      obtain ⟨⟨store'', record'⟩, hChange, h⟩ := Fallible.peel h
      cases h
      exact ⟨request, hRequest, hChange⟩

theorem Store.read_update {store : Store} {conversation other : String} {record : SeatRecord}
    (hName : conversation ≠ "") :
    Store.read (Function.update store conversation (some record.row)) other =
      if other = conversation then .ok record else store.read other := by
  by_cases hOther : other = conversation
  · subst hOther
    simp [Store.read, hName, SeatRecord.fromRow_row]
  · simp [Store.read, hOther]

theorem Store.read_named {store : Store} {conversation : String} {record : SeatRecord}
    (h : store.read conversation = .ok record) : conversation ≠ "" := by
  intro hNone
  subst hNone
  cases h

/-- The end of a call leaves the store, or makes the call's change. -/
theorem World.finish_cases (w : World) (call : Call) (others : List Call) :
    w.finish call others = { w with calls := others } ∨
      ∃ store after resume before, call.change w.store = .ok (some (store, after, resume)) ∧
        w.store.read call.seat.conversation = .ok before ∧
        w.finish call others = ⟨store, others, ⟨call, before, after⟩ :: w.done⟩ := by
  unfold World.finish
  split
  · rename_i store after resume before hChange hRead
    exact .inr ⟨store, after, resume, before, hChange, hRead, rfl⟩
  · exact .inl rfl

/-- What every run keeps: the store holds the latest records, and a call whose
read is not yet outdated has read the latest one. -/
structure World.Holds (w : World) : Prop where
  latest : ∀ conversation, conversation ≠ "" → w.store.read conversation = .ok (latest w.done conversation)
  calls : ∀ call ∈ w.calls,
    call.current.generation ≤ (Seats.latest w.done call.seat.conversation).generation ∧
      (call.current.generation = (Seats.latest w.done call.seat.conversation).generation →
        call.current = Seats.latest w.done call.seat.conversation)
  chained : Chained w.done

theorem World.Holds.read {w : World} (h : w.Holds) (seat : Seat) (expected : Int) (op : Op) :
    (w.read seat expected op).Holds := by
  unfold World.read
  split
  · rename_i current hRead
    have hCurrent : current = Seats.latest w.done seat.conversation :=
      Except.ok.inj (hRead.symm.trans (h.latest _ (Store.read_named hRead)))
    constructor
    · exact h.latest
    · intro call hCall
      rcases List.mem_cons.mp hCall with rfl | hCall
      · exact ⟨hCurrent ▸ le_refl _, fun _ => hCurrent⟩
      · exact h.calls call hCall
    · exact h.chained
  · exact h

theorem World.Holds.finish {w : World} (h : w.Holds) {first others : List Call} {call : Call}
    (hCall : w.calls = first ++ call :: others) : (w.finish call (first ++ others)).Holds := by
  have hOthers : ∀ other ∈ first ++ others, other ∈ w.calls := by
    intro other hOther
    rw [hCall]
    simp only [List.mem_append, List.mem_cons] at hOther ⊢
    exact hOther.imp_right Or.inr
  rcases w.finish_cases call (first ++ others) with hSame | ⟨store, after, resume, before, hChange, hRead, hDone⟩
  · rw [hSame]
    exact ⟨h.latest, fun other hOther => h.calls other (hOthers other hOther), h.chained⟩
  obtain ⟨request, hRequest, hChange⟩ := Call.change_eq_ok hChange
  obtain ⟨current, u, hCurrent, hGeneration, hUpdate, -, rfl, rfl⟩ := Store.change_eq_ok hChange
  obtain rfl : before = current := Fallible.same hRead hCurrent
  have hName := Store.read_named hRead
  have hBefore : before = Seats.latest w.done call.seat.conversation :=
    Except.ok.inj (hRead.symm.trans (h.latest _ hName))
  have hEffect : call.op.Effect before u :=
    request_effect hRequest hUpdate hGeneration
      (hBefore ▸ (h.calls call (hCall ▸ List.mem_append_right _ List.mem_cons_self)).2)
  rw [hDone]
  constructor
  · intro conversation hConversation
    simp only [Store.read_update hName, Seats.latest, eq_comm (a := conversation)]
    split
    · rfl
    · exact h.latest conversation hConversation
  · intro other hOther
    simp only [Seats.latest]
    split
    · rename_i hSeat
      -- The generation moved on, so that no earlier read is the latest record.
      have hBehind := (h.calls other (hOthers other hOther)).1
      rw [← hSeat, ← hBefore, hGeneration] at hBehind
      exact ⟨by simpa using Int.le_add_one hBehind, fun hEq => absurd hEq (by simp; omega)⟩
    · exact h.calls other (hOthers other hOther)
  · exact ⟨⟨u, hEffect, by simp [hGeneration]⟩, hBefore, hGeneration.symm, h.chained⟩

theorem World.Holds.start : World.start.Holds := by
  constructor
  · intro conversation hName
    simp [World.start, Store.read, hName, Seats.latest]
  · intro call hCall
    simp [World.start] at hCall
  · exact trivial

theorem World.Reach.holds {w : World} (h : w.Reach) : w.Holds := by
  induction h with
  | start => exact World.Holds.start
  | read prior seat expected op ih => exact ih.read seat expected op
  | finish prior hCall ih => exact ih.finish hCall

end Brnrd.Seats
