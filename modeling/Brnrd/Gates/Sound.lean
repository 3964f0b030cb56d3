import Brnrd.Gates.Stream
import Brnrd.Machine.Reach

/-! What every step of a run and of a gate keeps true of an event's carriers, its rows and
the sends that were tried. -/
namespace Brnrd.Gates

variable {ρ : Type} [DecidableEq ρ]

/-- A transition changes its own row, and only from pending. -/
theorem get_settle (row : Option ρ) (status : RowStatus) (rows : List (ρ × RowStatus)) (r : ρ) :
    Entries.get r (settle row status rows) =
      if row = some r ∧ Entries.get r rows = some .pending then some status else Entries.get r rows := by
  cases row with
  | none => simp [settle]
  | some own =>
      simp only [settle, transition]
      split
      · rename_i hNone
        by_cases hOwn : own = r
        · subst hOwn
          simp [hNone]
        · simp [hOwn]
      · rename_i hPending
        rw [Entries.get_set]
        by_cases hOwn : own = r
        · subst hOwn
          simp [hPending]
        · simp [hOwn]
      · rename_i current hNot hCurrent
        by_cases hOwn : own = r
        · subst hOwn
          have hOther : current ≠ .pending := hNot
          simp [hCurrent, hOther]
        · simp [hOwn]

theorem mem_pendingRows {rows : List (ρ × RowStatus)} {r : ρ} : r ∈ pendingRows rows ↔ Entries.get r rows = some .pending := by
  rw [pendingRows, List.mem_filter, decide_eq_true_eq]
  refine ⟨fun h => h.2, fun h => ⟨?_, h⟩⟩
  exact List.mem_map_of_mem (Entries.mem_of_get h)

namespace World

variable {fenced : Bool} {w later : World ρ}

omit [DecidableEq ρ] in
/-- The carriers that are there to be sent. -/
def carriers (w : World ρ) : List (Carrier ρ) :=
  w.partials.map Prod.snd ++ w.response.toList

/-- Where the condition on a run's steps and on a pass that gives up stands: a partial has
text, a name of six digits that the fence does not know and no response before it; there is
one response, or another with the same row or in place of a settled one; nothing is staged
behind the done status, and no row without its carrier before it; a terminal that is not
sent has a row; and a pass gives an event up only where no row but the one in flight is
pending. -/
def Allowed (fenced : Bool) (w : World ρ) : Action ρ → Prop
  | .stage _ => w.event.status ≠ .done
  | .writePartial text row => w.event.status ≠ .done ∧ text ≠ [] ∧ w.response = none ∧
      (∀ r ∈ row, (Entries.get r w.rows).isSome = true) ∧ nextSeq w.partials ≤ 999999 ∧
      SendKey.interim (fileName (nextSeq w.partials)) ∉ w.facts
  | .writeResponse _ row => w.event.status ≠ .done ∧ w.event.suppressed = false ∧
      (∀ r ∈ row, (Entries.get r w.rows).isSome = true) ∧
      ∀ old ∈ w.response, ∃ r ∈ old.row, Entries.get r w.rows ≠ some .pending ∨ row = some r
  | .suppress => (w.response.bind Carrier.row).isSome = true
  | .done => ∀ r ∈ pendingRows w.rows, ∃ c ∈ w.carriers, c.row = some r
  | .deliver outcome => w.givesUp outcome → ∀ flight ∈ w.inFlight fenced, flight.1.status = w.event.status →
      ∀ r ∈ pendingRows w.rows, flight.2 = some r
  | _ => True

instance (action : Action ρ) : Decidable (w.Allowed fenced action) := by
  cases action <;> unfold Allowed <;> infer_instance

/-- A carrier that was sent, or whose row is settled. -/
def Settled (w : World ρ) (c : Carrier ρ) : Prop :=
  (c.number, true) ∈ w.attempts ∨ ∃ r ∈ c.row, ∃ status, Entries.get r w.rows = some status ∧ status ≠ .pending

/-- The order of two sends: none comes behind one of a later carrier, nor a confirmed one
again. -/
def Follows (x y : ℕ × Bool) : Prop :=
  x.1 ≤ y.1 ∧ (x.2 = true → x.1 < y.1)

/-- What is known in the middle of a pass. -/
structure Passing (w : World ρ) (pass : Pass) (queue : List ℕ) : Prop where
  sorted : queue.Pairwise (· < ·)
  queued : ∀ seq ∈ queue, seq ∈ w.partials.map Prod.fst
  closed : ∀ item ∈ w.partials, item.1 ∉ queue → w.isOpen item.2 = false ∨ ∀ seq ∈ queue, seq < item.1
  last : pass.status = .done → ∀ item ∈ w.partials, item.1 ∉ queue → w.isOpen item.2 = false

/-- What a pass read still holds. -/
structure Fresh (w : World ρ) (pass : Pass) : Prop where
  done : pass.status = .done → w.event.status = .done
  suppressed : pass.suppressed = true → w.event.suppressed = true

def StageOk (w : World ρ) : Stage → Prop
  | .idle => True
  | .read pass => w.Fresh pass
  | .sending pass queue => w.Fresh pass ∧ w.Passing pass queue

/-- The carriers on disk and their rows. -/
structure Disk (w : World ρ) : Prop where
  order : w.partials.Pairwise fun a b => a.1 < b.1 ∧ a.2.number < b.2.number
  small : ∀ item ∈ w.partials, item.1 ≤ 999999
  texts : ∀ item ∈ w.partials, item.2.text ≠ []
  response : ∀ c ∈ w.response, ∀ item ∈ w.partials, item.2.number < c.number
  staged : ∀ c ∈ w.staged, c.number < w.staged.length
  there : ∀ c ∈ w.carriers, c ∈ w.staged
  rowed : ∀ c ∈ w.staged, ∀ r ∈ c.row, (Entries.get r w.rows).isSome = true

/-- The sends that were tried, and what is still to be sent. -/
structure Tried (w : World ρ) : Prop where
  numbers : ∀ attempt ∈ w.attempts, attempt.1 < w.staged.length
  ordered : w.attempts.Pairwise Follows
  ahead : w.event.status ≠ .delivered → ∀ attempt ∈ w.attempts, ∀ c ∈ w.carriers, w.isOpen c = true →
    Follows attempt (c.number, false)

/-- No carrier is forgotten, and no row without one waits at the end. -/
structure Covered (w : World ρ) : Prop where
  carriers : ∀ c ∈ w.staged, w.Settled c ∨ c ∈ w.carriers ∨ ∃ r ∈ c.row, ∃ other ∈ w.carriers, other.row = some r
  rows : w.event.status = .done → ∀ r ∈ pendingRows w.rows, ∃ c ∈ w.carriers, c.row = some r
  suppressed : w.event.suppressed = true → ∀ c ∈ w.response, w.isOpen c = false

/-- What the fence knows was sent. -/
structure Fenced (w : World ρ) : Prop where
  interim : ∀ item ∈ w.partials, w.isOpen item.2 = true → SendKey.interim (fileName item.1) ∉ w.facts
  terminal : SendKey.terminal ∈ w.facts → w.event.status = .delivered

/-- How the event ended. -/
structure Ended (w : World ρ) : Prop where
  idle : w.event.status = .delivered ∨ w.event.status = .error → w.stage = .idle
  mark : ∀ k ∈ w.before, k ≤ w.staged.length
  whole : w.event.status = .delivered → ∀ k ∈ w.before, ∀ c ∈ w.staged.take k, w.Settled c
  left : ∀ rows ∈ w.left, rows = []

structure Sound (w : World ρ) : Prop where
  disk : w.Disk
  tried : w.Tried
  covered : w.Covered
  fenced : w.Fenced
  ended : w.Ended
  stage : w.StageOk w.stage

/-- Rows went only from pending to settled. -/
def RowsAdvance (w later : World ρ) : Prop :=
  ∀ r, Entries.get r later.rows = Entries.get r w.rows ∨
    (Entries.get r w.rows = some .pending ∧ ∃ status, Entries.get r later.rows = some status ∧ status ≠ .pending)

/-- The carriers are the same, and the rows advanced. -/
structure Advances (w later : World ρ) : Prop where
  partials : later.partials = w.partials
  response : later.response = w.response
  staged : later.staged = w.staged
  rows : RowsAdvance w later

omit [DecidableEq ρ] in
theorem carriers_congr (hPartials : later.partials = w.partials) (hResponse : later.response = w.response) :
    later.carriers = w.carriers := by
  rw [carriers, carriers, hPartials, hResponse]

theorem advances_settle (w : World ρ) (row : Option ρ) {status : RowStatus} (hStatus : status ≠ .pending) (r : ρ) :
    Entries.get r (settle row status w.rows) = Entries.get r w.rows ∨
      (Entries.get r w.rows = some .pending ∧ ∃ other, Entries.get r (settle row status w.rows) = some other ∧ other ≠ .pending) := by
  rw [get_settle]
  split_ifs with hOwn
  · exact .inr ⟨hOwn.2, status, rfl, hStatus⟩
  · exact .inl rfl

theorem Advances.carriers (h : Advances w later) : later.carriers = w.carriers :=
  carriers_congr h.partials h.response

variable {c : Carrier ρ}

theorem isOpen_iff : w.isOpen c = true ↔ ∀ r ∈ c.row, ∀ status, Entries.get r w.rows = some status → status = .pending := by
  simp only [isOpen, Option.all_eq_true, decide_eq_true_eq]
  exact ⟨fun h r hRow status hStatus => h r hRow status hStatus, fun h r hRow status hStatus => h r hRow status hStatus⟩

theorem RowsAdvance.isOpen (h : RowsAdvance w later) (hOpen : later.isOpen c = true) : w.isOpen c = true := by
  rw [isOpen_iff] at hOpen ⊢
  intro r hRow status hStatus
  rcases h r with hSame | ⟨hPending, -⟩
  · exact hOpen r hRow status (hSame.trans hStatus)
  · exact (Option.mem_unique hStatus hPending)

theorem RowsAdvance.closed (h : RowsAdvance w later) (hClosed : w.isOpen c = false) : later.isOpen c = false :=
  Bool.eq_false_iff.mpr fun hOpen => Bool.eq_false_iff.mp hClosed (h.isOpen hOpen)

theorem RowsAdvance.isSome (h : RowsAdvance w later) {r : ρ} (hSome : (Entries.get r w.rows).isSome = true) :
    (Entries.get r later.rows).isSome = true := by
  rcases h r with hSame | ⟨-, status, hStatus, -⟩
  · rwa [hSame]
  · rw [hStatus]
    rfl

theorem RowsAdvance.settled (h : RowsAdvance w later) (hAttempts : ∀ attempt ∈ w.attempts, attempt ∈ later.attempts)
    (hSettled : w.Settled c) : later.Settled c := by
  rcases hSettled with hSent | ⟨r, hRow, status, hStatus, hNot⟩
  · exact .inl (hAttempts _ hSent)
  · rcases h r with hSame | ⟨hPending, -⟩
    · exact .inr ⟨r, hRow, status, hSame.trans hStatus, hNot⟩
    · rw [hPending] at hStatus
      exact absurd (Option.some.inj hStatus).symm hNot

theorem RowsAdvance.pending (h : RowsAdvance w later) {r : ρ} (hPending : r ∈ pendingRows later.rows) : r ∈ pendingRows w.rows := by
  rw [mem_pendingRows] at hPending ⊢
  rcases h r with hSame | ⟨-, status, hStatus, hNot⟩
  · exact hSame.symm.trans hPending
  · rw [hPending] at hStatus
    exact absurd (Option.some.inj hStatus).symm hNot

theorem Disk.advance (h : w.Disk) (hLater : Advances w later) : later.Disk where
  order := hLater.partials ▸ h.order
  small := hLater.partials ▸ h.small
  texts := hLater.partials ▸ h.texts
  response := by
    rw [hLater.partials, hLater.response]
    exact h.response
  staged := hLater.staged ▸ h.staged
  there := by
    rw [hLater.carriers, hLater.staged]
    exact h.there
  rowed := by
    rw [hLater.staged]
    exact fun c hC r hRow => hLater.rows.isSome (h.rowed c hC r hRow)

/-- A carrier that is open while none in front of it is. -/
structure First (w : World ρ) (c : Carrier ρ) : Prop where
  there : c ∈ w.carriers
  isOpen : w.isOpen c = true
  front : ∀ other ∈ w.carriers, w.isOpen other = true → other = c ∨ c.number < other.number

/-- A send that fails. -/
theorem Tried.fails (h : w.Tried) (hDisk : w.Disk) (hLater : Advances w later) (hFirst : w.First c)
    (hActive : w.event.status ≠ .delivered) (hAttempts : later.attempts = w.attempts ++ [(c.number, false)]) : later.Tried := by
  have hAhead := h.ahead hActive
  refine ⟨fun attempt hAttempt => ?_, ?_, fun _ attempt hAttempt other hOther hOpen => ?_⟩
  · rw [hAttempts] at hAttempt
    rw [hLater.staged]
    rcases List.mem_append.mp hAttempt with hOld | hNew
    · exact h.numbers attempt hOld
    · rw [List.mem_singleton.mp hNew]
      exact hDisk.staged c (hDisk.there c hFirst.there)
  · rw [hAttempts, List.pairwise_append]
    refine ⟨h.ordered, List.pairwise_singleton .., fun old hOld new hNew => ?_⟩
    rw [List.mem_singleton.mp hNew]
    exact hAhead old hOld c hFirst.there hFirst.isOpen
  · rw [hLater.carriers] at hOther
    have hBefore := hLater.rows.isOpen hOpen
    rw [hAttempts] at hAttempt
    rcases List.mem_append.mp hAttempt with hOld | hNew
    · exact hAhead attempt hOld other hOther hBefore
    · rw [List.mem_singleton.mp hNew]
      refine ⟨?_, nofun⟩
      rcases hFirst.front other hOther hBefore with rfl | hLess
      · exact Nat.le_refl _
      · exact Nat.le_of_lt hLess

theorem Tried.same (h : w.Tried) (hLater : Advances w later) (hAttempts : later.attempts = w.attempts)
    (hStatus : later.event.status ≠ .delivered → w.event.status ≠ .delivered) : later.Tried where
  numbers := by
    rw [hAttempts, hLater.staged]
    exact h.numbers
  ordered := hAttempts ▸ h.ordered
  ahead := by
    rw [hAttempts, hLater.carriers]
    exact fun hActive attempt hAttempt other hOther hOpen =>
      h.ahead (hStatus hActive) attempt hAttempt other hOther (hLater.rows.isOpen hOpen)

theorem Covered.advance (h : w.Covered) (hLater : Advances w later) (hAttempts : ∀ attempt ∈ w.attempts, attempt ∈ later.attempts)
    (hDone : later.event.status = .done → w.event.status = .done)
    (hSuppressed : later.event.suppressed = true → w.event.suppressed = true) : later.Covered where
  carriers := by
    rw [hLater.staged, hLater.carriers]
    exact fun c hC => (h.carriers c hC).imp_left (hLater.rows.settled hAttempts)
  rows := by
    rw [hLater.carriers]
    exact fun hStatus r hPending => h.rows (hDone hStatus) r (hLater.rows.pending hPending)
  suppressed := by
    rw [hLater.response]
    exact fun hFlag c hC => hLater.rows.closed (h.suppressed (hSuppressed hFlag) c hC)

theorem Fenced.advance (h : w.Fenced) (hLater : Advances w later) (hFacts : later.facts = w.facts)
    (hStatus : w.event.status = .delivered → later.event.status = .delivered) : later.Fenced where
  interim := by
    rw [hLater.partials, hFacts]
    exact fun item hItem hOpen => h.interim item hItem (hLater.rows.isOpen hOpen)
  terminal := by
    rw [hFacts]
    exact fun hKnown => hStatus (h.terminal hKnown)

end World

end Brnrd.Gates
