import Brnrd.Seats.Runs

/-! The wake discipline of a seat over whole runs: what arms it, what fires, what
drops a queued letter, and what its resume generation counts. -/
namespace Brnrd.Seats

/-- The methods that set predicates. -/
def Op.arms : Op → Bool
  | awaitSignal .. | park .. | handover .. => true
  | _ => false

/-- The methods that answer a signal some predicate matched. -/
def Op.fires : Op → Bool
  | signal .. | wake .. => true
  | _ => false

def Op.resumes : Op → Bool
  | wake .. | recover .. => true
  | _ => false

def Op.starts : Op → Bool
  | start .. => true
  | _ => false

def Op.checkpoints : Op → Bool
  | checkpoint .. => true
  | _ => false

/-- No predicates wait on a running or ended seat. -/
def SeatRecord.Unarmed (r : SeatRecord) : Prop :=
  r.state = .running ∨ r.state = .ended → r.wakeOn = []

def Done.of (conversation : String) (d : Done) : Prop :=
  d.call.seat.conversation = conversation

/-- The wake discipline of the changes made so far and of the calls on their way. -/
structure World.Disciplined (w : World) : Prop where
  raised : ∀ d ∈ w.done, d.after.generation = d.before.generation + 1
  stale : ∀ first call others current, w.calls = first ++ call :: others →
    w.store.read call.seat.conversation = .ok current → call.expected ≠ current.generation →
      w.finish call (first ++ others) = { w with calls := first ++ others }
  unarmed : ∀ d ∈ w.done, d.after.Unarmed
  once : ∀ later second between first earlier, w.done = later ++ second :: between ++ first :: earlier →
    first.of second.call.seat.conversation → second.call.op.fires = true → first.call.op.fires = true →
      ∃ d ∈ between, d.of second.call.seat.conversation ∧ d.call.op.arms = true
  dropped : ∀ d ∈ w.done, ∀ letter ∈ d.before.queuedLetters, letter ∉ d.after.queuedLetters →
    d.call.op.checkpoints = true ∧ d.call.expected = d.before.generation
  resumed : ∀ conversation current, w.store.read conversation = .ok current →
    current.resumeGeneration = w.done.countP fun d => d.call.seat.conversation = conversation && d.call.op.resumes

variable {op : Op} {r u : SeatRecord}

theorem Op.Effect.unarmed (h : op.Effect r u) (hBefore : r.Unarmed) (hStart : op.starts = true → r.wakeOn = []) :
    u.Unarmed := by
  intro hRest
  cases h with
  | start runId => exact hStart rfl
  | awaitSignal | park | handover => simp at hRest
  | checkpoint | queueLetter => exact hBefore hRest
  | signal | resolveAwait | wake | recover | finish => rfl

theorem Op.Effect.started (h : op.Effect r u) (hStart : op.starts = true) : u.state = .running ∧ u.wakeOn = r.wakeOn := by
  cases h with
  | start => exact ⟨rfl, rfl⟩
  | _ => cases hStart

theorem Op.Effect.fired (h : op.Effect r u) (hFires : op.fires = true) : r.wakeOn ≠ [] ∧ u.wakeOn = [] := by
  cases h with
  | signal sent clock hState hArmed => exact ⟨hArmed, rfl⟩
  | wake sent shell capabilities runId clock now hState hArmed => exact ⟨hArmed, rfl⟩
  | _ => cases hFires

theorem Op.Effect.disarmed (h : op.Effect r u) (hArms : op.arms ≠ true) (hBefore : r.wakeOn = []) : u.wakeOn = [] := by
  cases h with
  | awaitSignal | park | handover => exact absurd rfl hArms
  | start | checkpoint | queueLetter => exact hBefore
  | signal | resolveAwait | wake | recover | finish => rfl

theorem mem_fromKeys {items : List String} {item : String} : item ∈ fromKeys items ↔ item ∈ items := by
  simp [fromKeys]

theorem Op.Effect.letters (h : op.Effect r u) (hOther : op.checkpoints ≠ true) {letter : String}
    (hLetter : letter ∈ r.queuedLetters) : letter ∈ u.queuedLetters := by
  cases h with
  | checkpoint => exact absurd rfl hOther
  | queueLetter letterId => exact mem_fromKeys.mpr (List.mem_append_left _ hLetter)
  | _ => exact hLetter

theorem Op.Effect.resumed (h : op.Effect r u) :
    u.resumeGeneration = r.resumeGeneration + if op.resumes then 1 else 0 := by
  cases h <;> simp [Op.resumes]

variable {done earlier : List Done}

/-- The latest record of a seat is unarmed where every start found it disarmed. -/
theorem Chained.unarmed (h : Chained done) (hStarts : ∀ d ∈ done, d.call.op.starts = true → d.before.wakeOn = [])
    (conversation : String) :
    (latest done conversation).Unarmed ∧ ∀ d ∈ done, d.after.Unarmed := by
  induction done generalizing conversation with
  | nil => exact ⟨fun _ => rfl, by simp⟩
  | cons d earlier ih =>
      obtain ⟨⟨u, hEffect, hAfter⟩, hBefore, -, hEarlier⟩ := h
      have hKept := ih hEarlier fun e he => hStarts e (List.mem_cons_of_mem _ he)
      have hLast : d.after.Unarmed := by
        rw [hAfter]
        exact hEffect.unarmed (hBefore ▸ (hKept _).1) (hStarts d List.mem_cons_self)
      refine ⟨?_, fun e he => (List.mem_cons.mp he).elim (fun hEq => hEq ▸ hLast) ((hKept conversation).2 e)⟩
      unfold latest
      split
      · exact hLast
      · exact (hKept conversation).1

/-- Once a predicate fired, the seat stays disarmed until predicates are set. -/
theorem Chained.disarmed {between : List Done} {first : Done} (h : Chained (between ++ first :: earlier))
    (hFires : first.call.op.fires = true) (hArms : ∀ d ∈ between, d.of first.call.seat.conversation → d.call.op.arms ≠ true) :
    (latest (between ++ first :: earlier) first.call.seat.conversation).wakeOn = [] := by
  induction between with
  | nil =>
      obtain ⟨⟨u, hEffect, hAfter⟩, -⟩ := h
      simp [latest, hAfter, (hEffect.fired hFires).2]
  | cons d between ih =>
      obtain ⟨⟨u, hEffect, hAfter⟩, hBefore, -, hEarlier⟩ := h
      have hBetween := ih hEarlier fun e he => hArms e (List.mem_cons_of_mem _ he)
      rw [List.cons_append, latest]
      split
      · rename_i hSeat
        rw [hSeat] at hBefore
        rw [hAfter]
        exact hEffect.disarmed (hArms d List.mem_cons_self hSeat) (hBefore ▸ hBetween)
      · exact hBetween

theorem Chained.resumed (h : Chained done) (conversation : String) :
    (latest done conversation).resumeGeneration =
      done.countP fun d => d.call.seat.conversation = conversation && d.call.op.resumes := by
  induction done with
  | nil => rfl
  | cons d earlier ih =>
      obtain ⟨⟨u, hEffect, hAfter⟩, hBefore, -, hEarlier⟩ := h
      rw [List.countP_cons, latest]
      split
      · rename_i hSeat
        rw [hAfter]
        simp only [hEffect.resumed, hBefore, hSeat, ih hEarlier, decide_true, Bool.true_and]
        split <;> simp
      · rename_i hSeat
        simp [hSeat, ih hEarlier]

theorem Chained.tail {later : List Done} (h : Chained (later ++ earlier)) : Chained earlier := by
  induction later with
  | nil => exact h
  | cons d later ih => exact ih h.2.2.2

/-- Each change is the effect of its method, at the generation its caller named. -/
theorem Chained.mem (h : Chained done) {d : Done} (hd : d ∈ done) :
    (∃ r, d.call.op.Effect d.before r ∧ d.after = { r with generation := d.before.generation + 1 }) ∧
      d.call.expected = d.before.generation := by
  obtain ⟨later, earlier, rfl⟩ := List.append_of_mem hd
  obtain ⟨hEffect, -, hExpected, -⟩ := h.tail
  exact ⟨hEffect, hExpected⟩

/-- A call at a stale generation changes nothing. -/
theorem World.finish_stale {w : World} {call : Call} {others : List Call} {current : SeatRecord}
    (hRead : w.store.read call.seat.conversation = .ok current) (hStale : call.expected ≠ current.generation) :
    w.finish call others = { w with calls := others } := by
  rcases w.finish_cases call others with hSame | ⟨store, after, resume, before, hChange, -, -⟩
  · exact hSame
  · obtain ⟨request, -, hChange⟩ := Call.change_eq_ok hChange
    obtain ⟨found, u, hFound, hGeneration, -⟩ := Store.change_eq_ok hChange
    obtain rfl := Fallible.same hRead hFound
    exact absurd hGeneration.symm hStale

/-- A run keeps the wake discipline exactly as long as each of its starts found
the seat without armed predicates. -/
theorem disciplined_iff {w : World} (h : w.Reach) :
    w.Disciplined ↔ ∀ d ∈ w.done, d.call.op.starts = true → d.before.wakeOn = [] := by
  have hHolds := h.holds
  have hChained := hHolds.chained
  constructor
  · intro hKept d hd hStart
    obtain ⟨⟨u, hEffect, hAfter⟩, -⟩ := hChained.mem hd
    have hStarted := hEffect.started hStart
    have hUnarmed := hKept.unarmed d hd
    rw [hAfter] at hUnarmed
    exact hStarted.2.symm.trans (hUnarmed (Or.inl hStarted.1))
  · intro hStarts
    constructor
    · intro d hd
      obtain ⟨⟨u, -, hAfter⟩, -⟩ := hChained.mem hd
      rw [hAfter]
    · intro first call others current hCalls hRead hStale
      exact World.finish_stale hRead hStale
    · exact (hChained.unarmed hStarts "").2
    · intro later second between first earlier hDone hSame hSecond hFirst
      rw [hDone, List.append_assoc] at hChained
      obtain ⟨⟨u, hEffect, -⟩, hBefore, -, hBetween⟩ := hChained.tail
      by_contra hNone
      refine (hEffect.fired hSecond).1 ?_
      rw [hBefore, ← hSame]
      refine hBetween.disarmed hFirst fun d hd hOf hArms => hNone ⟨d, hd, ?_, hArms⟩
      exact hOf.trans hSame
    · intro d hd letter hLetter hDropped
      obtain ⟨⟨u, hEffect, hAfter⟩, hExpected⟩ := hChained.mem hd
      refine ⟨?_, hExpected⟩
      by_contra hOther
      rw [hAfter] at hDropped
      exact hDropped (hEffect.letters hOther hLetter)
    · intro conversation current hRead
      have hLatest := hHolds.latest conversation (Store.read_named hRead)
      rw [hRead] at hLatest
      rw [Except.ok.inj hLatest]
      exact hChained.resumed conversation

/-- A seat of one conversation whose predicates compare no numbers. -/
def deskSeat : Seat where
  conversation := "desk"
  authorize := none
  floats := ⟨fun _ _ => none, fun _ _ => none, fun _ _ => none⟩
  host := ⟨fun _ => none, fun _ => none, fun _ => "", fun _ => none⟩

/-- The seat was dispatched, and parked until mail comes. -/
def parkedDesk : World :=
  (World.start.call deskSeat 0 (.start "r1")).call deskSeat 1 (.park "quiet" [⟨"M", []⟩])

def deskMail : Signal :=
  ⟨"mail", "desk", none, none, none, none, none, none, none, none⟩

theorem parkedDesk_reach : parkedDesk.Reach :=
  (World.Reach.start.call _ _ _).call _ _ _

/-- Mail wakes the parked seat, and the run keeps its discipline. -/
theorem disciplined_iff_woken :
    (parkedDesk.call deskSeat 2 (.wake deskMail "sh" ∅ "r2" (fun _ => 0) 0)).Disciplined ↔
      ∀ d ∈ (parkedDesk.call deskSeat 2 (.wake deskMail "sh" ∅ "r2" (fun _ => 0) 0)).done,
        d.call.op.starts = true → d.before.wakeOn = [] :=
  disciplined_iff (parkedDesk_reach.call _ _ _)

example : (parkedDesk.call deskSeat 2 (.wake deskMail "sh" ∅ "r2" (fun _ => 0) 0)).done.map (·.after.wakeOn.length) =
    [0, 1, 0] := by decide +kernel

/-- A start at a parked seat leaves its predicates armed on the running seat. -/
theorem armed_running : ∃ w : World, w.Reach ∧ ¬w.Disciplined := by
  refine ⟨parkedDesk.call deskSeat 2 (.start "r2"), parkedDesk_reach.call _ _ _, fun h => ?_⟩
  have hArmed : ∃ d ∈ (parkedDesk.call deskSeat 2 (.start "r2")).done, d.after.state = .running ∧ d.after.wakeOn ≠ [] := by
    decide +kernel
  obtain ⟨d, hd, hState, hPredicates⟩ := hArmed
  exact hPredicates (h.unarmed d hd (Or.inl hState))

end Brnrd.Seats
