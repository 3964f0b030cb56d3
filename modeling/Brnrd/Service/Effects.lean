import Brnrd.Fences.Section
import Brnrd.Service.LetterService

/-! What one transaction of a call can do to the world, and the runs of any number
of calls. -/
namespace Brnrd.Service

open Python Facts Leases

/-- Where a call stands in the section of its send. -/
def Point.hold : Point → Option (Fenced.Hold ℚ)
  | .priorAgain _ lease => some ⟨lease.gen, lease.heldUntil, .entered⟩
  | .intend _ lease | .recheck _ lease | .send _ lease => some ⟨lease.gen, lease.heldUntil, .armed⟩
  | .sent _ lease _ => some ⟨lease.gen, lease.heldUntil, .done⟩
  | .settle _ lease _ => some ⟨lease.gen, lease.heldUntil, .leaving⟩
  | _ => none

/-- A claim that has not seen the end of its letter. -/
def Point.pastLook : Point → Bool
  | .door _ _ | .last _ _ _ | .reopen _ _ _ | .take _ _ => true
  | _ => false

/-- The letter's facts fold, at some time, to no end of it. -/
def Unsettled (host : Host) (floats : Floats) (log : List Fact) : Prop :=
  ∃ now folded, stateOf host floats log now = some folded ∧ ∀ letter, folded = some letter → letter.state.terminal = false

/-- The sends of a log, in order. -/
def sentFacts (log : List Fact) : List Fact :=
  log.filter fun f => f.kind = "sent"

/-- What a transaction does: it reads, or moves the letter's lease, outside the
section; it records a fact of the letter; it grants the claim; or it is one step
through the section of the send. -/
inductive Effect (host : Host) (floats : Floats) (w : World) (call : Call) (input : Input) : World → Point → Prop where
  | outside {row : Row} {point : Point} (hFrom : call.point.hold = none) (hTo : point.hold = none)
      (hPast : point.pastLook = true → call.point.pastLook = true ∨ Unsettled host floats w.facts) :
      Effect host floats w call input { w with row := row } point
  | recorded {log : List Fact} {kind by_ : String} {data : Dict} {point : Point}
      (hRecord : record host w.facts input kind by_ data = some log) (hFrom : call.point.hold = none)
      (hTo : point.hold = none) (hPast : point.pastLook = true → call.point.pastLook = true) :
      Effect host floats w call input { w with facts := log } point
  | granted {log : List Fact} {claim : Claim} {kind by_ : String} {data : Dict}
      (hLog : log = w.facts ∨ record host w.facts input kind by_ data = some log) (hFrom : call.point.hold = none)
      (hPast : call.point.pastLook = true) :
      Effect host floats w call input { w with facts := log, granted := w.granted ++ [⟨claim, call.began⟩] } .over
  | entered {r : Reply} {row : Row} {lease : Lease} (hPoint : call.point = .sendLease r)
      (hAcquire : acquire w.sendRow w.clock ("send:" ++ w.key) input.holder 300 none none none = .ok (row, some lease)) :
      Effect host floats w call input { w with sendRow := row } (.priorAgain r lease)
  | armed {r : Reply} {send : Lease} {sends : List Fact} (hPoint : call.point = .priorAgain r send)
      (hRead : readLog host w.sends = some sends) (hNone : sentFacts sends = []) :
      Effect host floats w call input w (.intend r send)
  | turned {r : Reply} {send : Lease} {receipt : Option Value} {stage : Fenced.Stage}
      (hFrom : call.point.hold = some ⟨send.gen, send.heldUntil, stage⟩) (hStage : stage = .entered ∨ stage = .armed) :
      Effect host floats w call input w (.settle r send receipt)
  | intended {r : Reply} {send : Lease} {log : List Fact} {by_ : String} {data : Dict}
      (hPoint : call.point = .intend r send) (hRecord : record host w.sends input "intended" by_ data = some log) :
      Effect host floats w call input { w with sends := log } (.recheck r send)
  | rechecked {r : Reply} {send : Lease} (hPoint : call.point = .recheck r send) :
      Effect host floats w call input w (.send r send)
  | completed {r : Reply} {send : Lease} {receipt : Option Value} {point : Point} (hPoint : call.point = .send r send)
      (hOutcome : input.outcome = some receipt) (hTo : ∀ value, receipt = some value → point = .sent r send value)
      (hPast : point.pastLook = false) :
      Effect host floats w call input { w with completed := w.completed + 1 } point
  | noted {r : Reply} {send : Lease} {receipt : Value} {log : List Fact} {by_ : String} {data : Dict}
      (hPoint : call.point = .sent r send receipt) (hRecord : record host w.sends input "sent" by_ data = some log) :
      Effect host floats w call input { w with sends := log } (.settle r send (some receipt))
  | unnoted {r : Reply} {send : Lease} {receipt : Value} {by_ : String} {data : Dict}
      (hPoint : call.point = .sent r send receipt) (hRecord : record host w.sends input "sent" by_ data = none) :
      Effect host floats w call input w (.settle r send none)
  | settled {r : Reply} {send : Lease} {receipt : Option Value} {row : Row} {point : Point}
      (hPoint : call.point = .settle r send receipt) (hFreed : freed w.sendRow w.clock send = some row)
      (hTo : point.hold = none) (hPast : point.pastLook = false) :
      Effect host floats w call input { w with sendRow := row } point

variable {host : Host} {floats : Floats}

variable {point : Point} {input : Input} {call : Call} {w w' : World}

theorem claim_effect (h : w.claim host floats call.began input call.point = some (w', point)) :
    Effect host floats w call input w' point := by
  obtain ⟨from_, began⟩ := call
  cases from_ with
  | acquire a =>
      obtain ⟨⟨row, lease⟩, -, hEq⟩ := Option.bind_eq_some_iff.mp h
      obtain ⟨rfl, rfl⟩ := Prod.mk.inj (Option.some.inj hEq)
      cases lease with
      | none => exact .outside rfl rfl (by simp [Point.pastLook])
      | some lease => exact .outside rfl rfl (by simp [Point.pastLook])
  | look a lease again =>
      obtain ⟨folded, hState, hEq⟩ := Option.bind_eq_some_iff.mp h
      obtain ⟨rfl, rfl⟩ := Prod.mk.inj (Option.some.inj hEq)
      cases folded with
      | none =>
          refine .outside rfl (by cases again <;> rfl) fun _ => .inr ⟨_, _, hState, by simp⟩
      | some letter =>
          by_cases hTerminal : letter.state.terminal = true
          · exact .outside rfl (by simp [hTerminal, Point.hold]) (by simp [hTerminal, Point.pastLook])
          · refine .outside rfl (by simp [hTerminal, Point.hold]) fun _ => .inr ⟨_, _, hState, ?_⟩
            rintro letter' hSame
            obtain rfl := Option.some.inj hSame
            simpa using hTerminal
  | door a lease =>
      obtain ⟨log, hRecord, hEq⟩ := Option.bind_eq_some_iff.mp h
      obtain ⟨rfl, rfl⟩ := Prod.mk.inj (Option.some.inj hEq)
      exact .recorded hRecord rfl rfl (by simp [Point.pastLook])
  | last a lease letter =>
      obtain ⟨log, -, hEq⟩ := Option.bind_eq_some_iff.mp h
      dsimp only at hEq
      split at hEq
      · obtain ⟨heldUntil, -, hEq⟩ := Option.bind_eq_some_iff.mp hEq
        obtain ⟨rfl, rfl⟩ := Prod.mk.inj (Option.some.inj hEq)
        exact .outside rfl (by split <;> rfl) fun _ => .inl rfl
      · split at hEq
        · obtain ⟨rfl, rfl⟩ := Prod.mk.inj (Option.some.inj hEq)
          exact @Effect.granted _ _ _ _ _ _ _ "" "" [] (.inl rfl) rfl rfl
        · obtain ⟨rfl, rfl⟩ := Prod.mk.inj (Option.some.inj hEq)
          exact .outside rfl rfl fun _ => .inl rfl
      · obtain ⟨rfl, rfl⟩ := Prod.mk.inj (Option.some.inj hEq)
        exact .outside rfl rfl fun _ => .inl rfl
  | reopen a lease gen =>
      obtain ⟨log, hRecord, hEq⟩ := Option.bind_eq_some_iff.mp h
      obtain ⟨rfl, rfl⟩ := Prod.mk.inj (Option.some.inj hEq)
      exact .recorded hRecord rfl rfl fun _ => rfl
  | take a lease =>
      obtain ⟨log, hRecord, hEq⟩ := Option.bind_eq_some_iff.mp h
      obtain ⟨rfl, rfl⟩ := Prod.mk.inj (Option.some.inj hEq)
      exact .granted (.inr hRecord) rfl rfl
  | decline lease =>
      obtain ⟨row, -, hEq⟩ := Option.bind_eq_some_iff.mp h
      obtain ⟨rfl, rfl⟩ := Prod.mk.inj (Option.some.inj hEq)
      exact .outside rfl rfl (by simp [Point.pastLook])
  | _ => cases h

/-- A transaction that goes on only where a check holds. -/
theorem checked_eq_some {next : Point} {answer : Option Bool}
    (h : (do if ← answer then some (w, next) else none) = some (w', point)) : w' = w ∧ point = next := by
  obtain ⟨yes, -, hEq⟩ := Option.bind_eq_some_iff.mp h
  split at hEq
  · obtain ⟨rfl, rfl⟩ := Prod.mk.inj (Option.some.inj hEq)
    exact ⟨rfl, rfl⟩
  · cases hEq

theorem answer_effect (h : w.answer host floats input call.point = some (w', point)) :
    Effect host floats w call input w' point := by
  obtain ⟨from_, began⟩ := call
  cases from_ with
  | check r =>
      obtain ⟨rfl, rfl⟩ := checked_eq_some h
      exact .outside rfl rfl (by simp [Point.pastLook])
  | current r =>
      obtain ⟨folded, -, hEq⟩ := Option.bind_eq_some_iff.mp h
      cases folded with
      | none => cases hEq
      | some letter =>
          dsimp only at hEq
          split at hEq
          · obtain ⟨rfl, rfl⟩ := Prod.mk.inj (Option.some.inj hEq)
            exact .outside rfl rfl (by simp [Point.pastLook])
          · cases hEq
  | answered r receipt =>
      obtain ⟨log, hRecord, hEq⟩ := Option.bind_eq_some_iff.mp h
      obtain ⟨rfl, rfl⟩ := Prod.mk.inj (Option.some.inj hEq)
      exact .recorded hRecord rfl rfl (by simp [Point.pastLook])
  | _ => cases h

theorem letGo_effect (h : w.letGo host input call.point = some (w', point)) : Effect host floats w call input w' point := by
  obtain ⟨from_, began⟩ := call
  cases from_ with
  | retire claim by_ why =>
      obtain ⟨rfl, rfl⟩ := checked_eq_some h
      exact .outside rfl rfl (by simp [Point.pastLook])
  | retired claim by_ why =>
      obtain ⟨log, hRecord, hEq⟩ := Option.bind_eq_some_iff.mp h
      obtain ⟨rfl, rfl⟩ := Prod.mk.inj (Option.some.inj hEq)
      exact .recorded hRecord rfl rfl (by simp [Point.pastLook])
  | release claim why =>
      obtain ⟨rfl, rfl⟩ := checked_eq_some h
      exact .outside rfl rfl (by simp [Point.pastLook])
  | released claim why =>
      obtain ⟨log, hRecord, hEq⟩ := Option.bind_eq_some_iff.mp h
      obtain ⟨rfl, rfl⟩ := Prod.mk.inj (Option.some.inj hEq)
      exact .recorded hRecord rfl rfl (by simp [Point.pastLook])
  | leave lease =>
      obtain ⟨row, -, hEq⟩ := Option.bind_eq_some_iff.mp h
      obtain ⟨rfl, rfl⟩ := Prod.mk.inj (Option.some.inj hEq)
      exact .outside rfl rfl (by simp [Point.pastLook])
  | _ => cases h

theorem effectOnce_effect (h : w.effectOnce host input call.point = some (w', point)) :
    Effect host floats w call input w' point := by
  obtain ⟨from_, began⟩ := call
  cases from_ with
  | enter r =>
      obtain ⟨rfl, rfl⟩ := checked_eq_some h
      exact .outside rfl rfl (by simp [Point.pastLook])
  | prior r =>
      obtain ⟨sends, -, hEq⟩ := Option.bind_eq_some_iff.mp h
      split at hEq
      · obtain ⟨receipt, -, hEq⟩ := Option.bind_eq_some_iff.mp hEq
        obtain ⟨rfl, rfl⟩ := Prod.mk.inj (Option.some.inj hEq)
        exact .outside rfl rfl (by simp [Point.pastLook])
      · obtain ⟨rfl, rfl⟩ := Prod.mk.inj (Option.some.inj hEq)
        exact .outside rfl rfl (by simp [Point.pastLook])
  | sendLease r =>
      obtain ⟨⟨row, lease⟩, hAcquire, hEq⟩ := Option.bind_eq_some_iff.mp h
      obtain ⟨send, rfl, hEq⟩ := Option.bind_eq_some_iff.mp hEq
      obtain ⟨rfl, rfl⟩ := Prod.mk.inj (Option.some.inj hEq)
      refine .entered rfl ?_
      cases hRow : acquire w.sendRow w.clock ("send:" ++ w.key) input.holder 300 none none none with
      | error e => simp [hRow, Except.toOption] at hAcquire
      | ok result =>
          rw [hRow] at hAcquire
          rw [Option.some.inj hAcquire]
  | priorAgain r send =>
      dsimp only [World.effectOnce] at h
      split at h
      · obtain ⟨rfl, rfl⟩ := Prod.mk.inj (Option.some.inj h)
        exact .turned rfl (.inl rfl)
      · rename_i sends hRead
        split at h
        · obtain ⟨rfl, rfl⟩ := Prod.mk.inj (Option.some.inj h)
          exact .turned rfl (.inl rfl)
        · rename_i hNone
          obtain ⟨rfl, rfl⟩ := Prod.mk.inj (Option.some.inj h)
          exact .armed rfl hRead hNone
  | intend r send =>
      dsimp only [World.effectOnce] at h
      split at h
      · obtain ⟨rfl, rfl⟩ := Prod.mk.inj (Option.some.inj h)
        exact .turned rfl (.inr rfl)
      · rename_i log hRecord
        obtain ⟨rfl, rfl⟩ := Prod.mk.inj (Option.some.inj h)
        exact .intended rfl hRecord
  | recheck r send =>
      obtain ⟨rfl, rfl⟩ := Prod.mk.inj (Option.some.inj h)
      split
      · exact .rechecked rfl
      · exact .turned rfl (.inr rfl)
  | send r send =>
      dsimp only [World.effectOnce] at h
      split at h
      · obtain ⟨rfl, rfl⟩ := Prod.mk.inj (Option.some.inj h)
        exact .turned rfl (.inr rfl)
      · rename_i hOutcome
        obtain ⟨rfl, rfl⟩ := Prod.mk.inj (Option.some.inj h)
        exact .completed rfl hOutcome (by simp) rfl
      · rename_i receipt hOutcome
        obtain ⟨rfl, rfl⟩ := Prod.mk.inj (Option.some.inj h)
        exact .completed rfl hOutcome (by simp) rfl
  | sent r send receipt =>
      dsimp only [World.effectOnce] at h
      split at h
      · rename_i hRecord
        obtain ⟨rfl, rfl⟩ := Prod.mk.inj (Option.some.inj h)
        exact .unnoted rfl hRecord
      · rename_i log hRecord
        obtain ⟨rfl, rfl⟩ := Prod.mk.inj (Option.some.inj h)
        exact .noted rfl hRecord
  | settle r send receipt =>
      obtain ⟨row, hFreed, hEq⟩ := Option.bind_eq_some_iff.mp h
      obtain ⟨rfl, rfl⟩ := Prod.mk.inj (Option.some.inj hEq)
      cases receipt with
      | none => exact .settled rfl hFreed rfl rfl
      | some receipt => exact .settled rfl hFreed rfl rfl
  | _ => cases h

/-- Every transaction has one of the effects. -/
theorem transact_effect (h : w.transact host floats call input = some (w', point)) :
    Effect host floats w call input w' point := by
  unfold World.transact at h
  split at h
  all_goals first
    | exact claim_effect h
    | exact answer_effect h
    | exact effectOnce_effect h
    | exact letGo_effect h
    | cases h

/-- A transaction raises outside the section, or on the way out of it. -/
theorem transact_eq_none (h : w.transact host floats call input = none) {hold : Fenced.Hold ℚ}
    (hHold : call.point.hold = some hold) : hold.stage = .leaving := by
  obtain ⟨point, began⟩ := call
  cases point with
  | priorAgain r send =>
      simp only [World.transact, World.effectOnce] at h
      split at h
      · cases h
      · split at h <;> cases h
  | intend r send =>
      simp only [World.transact, World.effectOnce] at h
      split at h <;> cases h
  | recheck r send => cases h
  | send r send =>
      simp only [World.transact, World.effectOnce] at h
      split at h <;> cases h
  | sent r send receipt =>
      simp only [World.transact, World.effectOnce] at h
      split at h <;> cases h
  | settle r send receipt =>
      obtain rfl := Option.some.inj hHold
      rfl
  | _ => cases hHold

end Brnrd.Service

/-! A letter is settled once: in every run of claims, answers, retirements and
releases, whichever of their transactions come first. -/
namespace Brnrd.Service

open Python Facts

variable (host : Host) (floats : Floats)

/-- A step that can happen: the clock does not go back, a caller has the claim it
uses, and the ids of `uuid4` are new. -/
def Step.Real (w : World) : Step → Prop
  | .tick clock => w.clock ≤ clock
  | .claim _ _ _ _ => True
  | .answer held _ | .retire held _ _ | .release held _ => ∃ g ∈ w.granted, g.claim = held
  | .advance _ input => FreshId w.facts input.id ∧ FreshId w.sends input.id ∧ input.holder ≠ w.sendRow.holder

/-- The effect of a reply gives JSON, and it completes and is noted before the lease
of its send is over. -/
def Step.InTime (w : World) : Step → Prop
  | .tick clock => ∀ call ∈ w.calls, ∀ hold, call.point.hold = some hold → hold.stage = .done → clock < hold.deadline
  | .advance i input => ∀ call r send, w.calls[i]? = some call → call.point = .send r send →
      ∀ receipt, input.outcome = some receipt → receipt.isSome ∧ w.clock < send.heldUntil
  | _ => True

/-- A letter whose logs are in order, before the first call. -/
structure World.Fresh (w : World) : Prop where
  facts : InOrder w.facts
  sends : InOrder w.sends
  calls : w.calls = []
  granted : w.granted = []
  completed : w.completed = 0

/-- The worlds a run reaches from one, each step meeting `Cond` where it is taken. -/
inductive World.Run (Cond : World → Step → Prop) : World → World → Prop where
  | refl (w : World) : Run Cond w w
  | step {start w : World} (prior : Run Cond start w) (step : Step) (hReal : step.Real w) (hCond : Cond w step) :
      Run Cond start (step.apply host floats w)

/-- What every run keeps: the logs are in order, each call began with a part of the
letter's facts, and none that began behind the end of the letter gets past its look. -/
structure World.Holds (w : World) : Prop where
  facts : InOrder w.facts
  sends : InOrder w.sends
  began : ∀ call ∈ w.calls, call.began <+: w.facts
  looked : ∀ call ∈ w.calls, Terminal call.began → call.point.pastLook = false
  granted : ∀ g ∈ w.granted, ¬Terminal g.began

variable {host floats}

variable {log log' : List Fact}

theorem Terminal.of_prefix (h : Terminal log) (hPrefix : log <+: log') : Terminal log' := by
  obtain ⟨later, rfl⟩ := hPrefix
  exact h.append later

/-- A letter at its end is not seen otherwise. -/
theorem Terminal.not_unsettled (h : Terminal log) (hOrder : InOrder log) : ¬Unsettled host floats log := by
  rintro ⟨now, folded, hState, hOpen⟩
  obtain ⟨letter, hFold, hTerminal⟩ := h
  rw [stateOf_terminal hOrder hFold hTerminal now] at hState
  rw [hOpen letter (Option.some.inj hState).symm] at hTerminal
  cases hTerminal

/-- What a transaction does to the logs, to the clock and to what was granted. -/
structure Frame (w : World) (call : Call) (w' : World) (point : Point) : Prop where
  calls : w'.calls = w.calls
  facts : w.facts <+: w'.facts
  factsOrder : InOrder w'.facts
  sendsOrder : InOrder w'.sends
  granted : ∀ g ∈ w'.granted, g ∈ w.granted ∨ g.began = call.began ∧ call.point.pastLook = true
  looked : point.pastLook = true → call.point.pastLook = true ∨ Unsettled host floats w.facts

theorem InOrder.recorded {input : Input} {kind by_ : String} {data : Dict} (h : InOrder log) (hFresh : FreshId log input.id)
    (hRecord : Service.record host log input kind by_ data = some log') :
    ∃ f, f.kind = kind ∧ log' = log ++ [f] ∧ InOrder log' := by
  obtain ⟨f, hKind, -, hEq, hOrder⟩ := @InOrder.record host _ h _ hFresh kind by_ data
  obtain rfl := Option.mem_unique hEq hRecord
  exact ⟨f, hKind, rfl, hOrder⟩

variable {w start : World}

theorem Effect.frame {w' : World} {call : Call} {input : Input} {point : Point}
    (h : Effect host floats w call input w' point) (hFacts : InOrder w.facts) (hSends : InOrder w.sends)
    (hFreshFact : FreshId w.facts input.id) (hFreshSend : FreshId w.sends input.id) :
    @Frame host floats w call w' point := by
  have hSame : ∀ g ∈ w.granted, g ∈ w.granted ∨ g.began = call.began ∧ call.point.pastLook = true := fun g hg => .inl hg
  cases h with
  | outside hFrom hTo hPast => exact ⟨rfl, List.prefix_rfl, hFacts, hSends, hSame, hPast⟩
  | recorded hRecord hFrom hTo hPast =>
      obtain ⟨f, -, rfl, hOrder⟩ := hFacts.recorded hFreshFact hRecord
      exact ⟨rfl, List.prefix_append _ _, hOrder, hSends, hSame, fun hNext => .inl (hPast hNext)⟩
  | granted hLog hFrom hPast =>
      have hGranted : ∀ claim, ∀ g ∈ w.granted ++ [⟨claim, call.began⟩],
          g ∈ w.granted ∨ g.began = call.began ∧ call.point.pastLook = true := by
        intro claim g hg
        rcases List.mem_append.mp hg with hg | hg
        · exact .inl hg
        · obtain rfl := List.mem_singleton.mp hg
          exact .inr ⟨rfl, hPast⟩
      rcases hLog with rfl | hRecord
      · exact ⟨rfl, List.prefix_rfl, hFacts, hSends, hGranted _, nofun⟩
      · obtain ⟨f, -, rfl, hOrder⟩ := hFacts.recorded hFreshFact hRecord
        exact ⟨rfl, List.prefix_append _ _, hOrder, hSends, hGranted _, nofun⟩
  | entered => exact ⟨rfl, List.prefix_rfl, hFacts, hSends, hSame, nofun⟩
  | armed => exact ⟨rfl, List.prefix_rfl, hFacts, hSends, hSame, nofun⟩
  | turned => exact ⟨rfl, List.prefix_rfl, hFacts, hSends, hSame, nofun⟩
  | intended hPoint hRecord =>
      obtain ⟨f, -, rfl, hOrder⟩ := hSends.recorded hFreshSend hRecord
      exact ⟨rfl, List.prefix_rfl, hFacts, hOrder, hSame, nofun⟩
  | rechecked => exact ⟨rfl, List.prefix_rfl, hFacts, hSends, hSame, nofun⟩
  | completed hPoint hOutcome hTo hPast =>
      exact ⟨rfl, List.prefix_rfl, hFacts, hSends, hSame, fun hNext => by rw [hPast] at hNext; cases hNext⟩
  | noted hPoint hRecord =>
      obtain ⟨f, -, rfl, hOrder⟩ := hSends.recorded hFreshSend hRecord
      exact ⟨rfl, List.prefix_rfl, hFacts, hOrder, hSame, nofun⟩
  | unnoted => exact ⟨rfl, List.prefix_rfl, hFacts, hSends, hSame, nofun⟩
  | settled hPoint hFreed hTo hPast =>
      exact ⟨rfl, List.prefix_rfl, hFacts, hSends, hSame, fun hNext => by rw [hPast] at hNext; cases hNext⟩

theorem World.Fresh.holds (h : w.Fresh) : w.Holds where
  facts := h.facts
  sends := h.sends
  began := by simp [h.calls]
  looked := by simp [h.calls]
  granted := by simp [h.granted]

theorem World.Holds.begin (h : w.Holds) {point : Point} (hPast : point.pastLook = false) :
    (w.begin point).Holds where
  facts := h.facts
  sends := h.sends
  began := fun call hCall => by
    rcases List.mem_append.mp hCall with hCall | hCall
    · exact h.began call hCall
    · obtain rfl := List.mem_singleton.mp hCall
      exact List.prefix_rfl
  looked := fun call hCall hTerminal => by
    rcases List.mem_append.mp hCall with hCall | hCall
    · exact h.looked call hCall hTerminal
    · obtain rfl := List.mem_singleton.mp hCall
      exact hPast
  granted := h.granted

theorem World.Holds.advance (h : w.Holds) {i : Nat} {input : Input} (hReal : (Step.advance i input).Real w) :
    (w.advance host floats i input).Holds := by
  obtain ⟨hFreshFact, hFreshSend, -⟩ := hReal
  unfold World.advance
  split
  · exact h
  · rename_i call hCall
    have hMem : call ∈ w.calls := List.mem_of_getElem? hCall
    split
    · refine ⟨h.facts, h.sends, fun c hc => ?_, fun c hc hTerminal => ?_, h.granted⟩
      · rcases List.mem_or_eq_of_mem_set hc with hc | rfl
        · exact h.began c hc
        · exact h.began call hMem
      · rcases List.mem_or_eq_of_mem_set hc with hc | rfl
        · exact h.looked c hc hTerminal
        · rfl
    · rename_i w' point hTransact
      obtain ⟨hCalls, hGrown, hFacts, hSends, hGranted, hLooked⟩ :=
        (transact_effect hTransact).frame h.facts h.sends hFreshFact hFreshSend
      refine ⟨hFacts, hSends, fun c hc => ?_, fun c hc hTerminal => ?_, fun g hg => ?_⟩
      · rcases List.mem_or_eq_of_mem_set hc with hc | rfl
        · exact (h.began c hc).trans hGrown
        · exact (h.began call hMem).trans hGrown
      · rcases List.mem_or_eq_of_mem_set hc with hc | rfl
        · exact h.looked c hc hTerminal
        · by_contra hPast
          rcases hLooked (by simpa using hPast) with hBefore | hOpen
          · rw [h.looked call hMem hTerminal] at hBefore
            cases hBefore
          · exact (hTerminal.of_prefix (h.began call hMem)).not_unsettled h.facts hOpen
      · rcases hGranted g hg with hOld | ⟨hBegan, hPast⟩
        · exact h.granted g hOld
        · rw [hBegan]
          intro hTerminal
          rw [h.looked call hMem hTerminal] at hPast
          cases hPast

theorem World.Holds.step (h : w.Holds) {step : Step} (hReal : step.Real w) : (step.apply host floats w).Holds := by
  cases step with
  | tick clock => exact ⟨h.facts, h.sends, h.began, h.looked, h.granted⟩
  | claim => exact h.begin rfl
  | answer => exact h.begin rfl
  | retire => exact h.begin rfl
  | release => exact h.begin rfl
  | advance i input => exact h.advance hReal

variable {Cond : World → Step → Prop}

theorem World.Run.holds (h : World.Run host floats Cond start w) (hStart : start.Holds) : w.Holds := by
  induction h with
  | refl => exact hStart
  | step prior step hReal hCond ih => exact ih.step hReal

/-- The letter's facts only grow. -/
theorem World.Holds.grows (h : w.Holds) {step : Step} (hReal : step.Real w) :
    w.facts <+: (step.apply host floats w).facts := by
  cases step with
  | advance i input =>
      obtain ⟨hFreshFact, hFreshSend, -⟩ := hReal
      simp only [Step.apply, World.advance]
      split
      · exact List.prefix_rfl
      · split
        · exact List.prefix_rfl
        · rename_i hTransact
          exact ((transact_effect hTransact).frame h.facts h.sends hFreshFact hFreshSend).facts
  | _ => exact List.prefix_rfl

theorem World.Run.grows (h : World.Run host floats Cond start w) (hStart : start.Holds) : start.facts <+: w.facts := by
  induction h with
  | refl => exact List.prefix_rfl
  | step prior step hReal hCond ih => exact ih.trans ((prior.holds hStart).grows hReal)

end Brnrd.Service
