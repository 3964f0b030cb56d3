import Mathlib.Data.Finset.Sort
import Mathlib.Data.String.Basic
import Mathlib.Tactic.Linarith

/-! The lease of one key on one machine: the calls on its row, each a
transaction under the key's lock, and what a run of them leaves authorized. -/
namespace Brnrd.Leases

/-- The row on disk; `heldUntil` is its `until`. A row that was never written has
no capabilities. -/
structure Row where
  gen : Int
  holder : String
  heldUntil : ℚ
  capabilities : Option (List String)
deriving DecidableEq

/-- What `_read` makes of a missing file. -/
def Row.missing : Row :=
  ⟨0, "", 0, none⟩

structure Lease where
  what : String
  holder : String
  gen : Int
  heldUntil : ℚ
  capabilities : List String
deriving DecidableEq

structure ValueError where
  message : String
deriving DecidableEq

/-- The check of `_paths`. -/
def validKey (what : String) : Bool :=
  what != "" && !what.toList.contains '/' && !what.toList.contains (Char.ofNat 0)

/-- `_locked`: the action on the key's row, unless the key has no path. -/
def locked {α : Type} (what : String) (action : Row × α) : Except ValueError (Row × α) :=
  if validKey what then .ok action else .error ⟨"invalid lease key"⟩

def Row.lease (row : Row) (what : String) : Lease :=
  ⟨what, row.holder, row.gen, row.heldUntil, row.capabilities.getD []⟩

/-- `acquire` at the clock's reading `now`. -/
def acquire (row : Row) (now : ℚ) (what holder : String) (ttl : ℚ) (capabilities required : Option (Finset String))
    (gen : Option Int) : Except ValueError (Row × Option Lease) :=
  let offered := capabilities.getD ∅
  let deadline := now + ttl
  if holder = "" ∨ ttl ≤ 0 then .error ⟨"holder and positive ttl required"⟩
  else if ¬required.getD ∅ ⊆ offered then .ok (row, none)
  else locked what <|
    match gen with
    | some gen =>
        if gen < row.gen then (row, none)
        else
          let seated : Row := ⟨gen, holder, deadline, some (offered.sort (· ≤ ·))⟩
          (seated, some (seated.lease what))
    | none =>
        if now < row.heldUntil ∧ row.holder ≠ holder then (row, none)
        else
          let held : Row :=
            if now < row.heldUntil ∧ row.holder = holder then
              -- A live holder keeps its generation.
              { row with
                heldUntil := deadline
                capabilities := if capabilities.isSome then some (offered.sort (· ≤ ·)) else row.capabilities }
            else ⟨row.gen + 1, holder, deadline, some (offered.sort (· ≤ ·))⟩
          (held, some (held.lease what))

/-- `_valid` at the clock's reading `now`. -/
def Row.valid (row : Row) (lease : Lease) (now : ℚ) : Bool :=
  row.gen = lease.gen && row.holder = lease.holder && now < row.heldUntil

/-- `renew`, which reads the clock once to check the lease and once more to
extend it. -/
def renew (row : Row) (now later : ℚ) (lease : Lease) (ttl : ℚ) : Except ValueError (Row × Option Lease) :=
  if ttl ≤ 0 then .error ⟨"positive ttl required"⟩
  else locked lease.what <|
    if row.valid lease now then
      let renewed := { row with heldUntil := later + ttl }
      (renewed, some ⟨lease.what, lease.holder, lease.gen, renewed.heldUntil, row.capabilities.getD []⟩)
    else (row, none)

def authorize (row : Row) (now : ℚ) (lease : Lease) : Except ValueError (Row × Bool) :=
  locked lease.what (row, row.valid lease now)

def release (row : Row) (now : ℚ) (lease : Lease) : Except ValueError (Row × Bool) :=
  locked lease.what (if row.valid lease now then ({ row with heldUntil := 0 }, true) else (row, false))

/-- The calls on a key that name no generation. -/
inductive Call where
  | acquire (holder : String) (ttl : ℚ) (capabilities required : Option (Finset String))
  | renew (lease : Lease) (ttl : ℚ)
  | authorize (lease : Lease)
  | release (lease : Lease)

inductive Answer where
  | raised (error : ValueError)
  | lease (lease : Option Lease)
  | told (yes : Bool)

/-- What a call leaves of the row, and what its caller gets. -/
def answered {α : Type} (row : Row) (answer : α → Answer) : Except ValueError (Row × α) → Row × Answer
  | .ok (row', result) => (row', answer result)
  | .error error => (row, .raised error)

def Call.run (what : String) (row : Row) (now later : ℚ) : Call → Row × Answer
  | .acquire holder ttl capabilities required =>
      answered row .lease (Leases.acquire row now what holder ttl capabilities required none)
  | .renew lease ttl => answered row .lease (Leases.renew row now later lease ttl)
  | .authorize lease => answered row .told (Leases.authorize row now lease)
  | .release lease => answered row .told (Leases.release row now lease)

/-- A call of a run, the two readings of the clock it takes, and its answer. -/
structure Event where
  call : Call
  now : ℚ≥0
  later : ℚ≥0
  answer : Answer

/-- The runs of a key's calls from a row, the clock never going back. -/
inductive Run (what : String) : Row → List Event → Row → Prop where
  | nil (row : Row) : Run what row [] row
  | snoc {start row : Row} {events : List Event} (prior : Run what start events row) (call : Call)
      {now later : ℚ≥0} (hClock : ∀ e ∈ events, e.later ≤ now) (hReads : now ≤ later) :
      Run what start (events ++ [⟨call, now, later, (call.run what row now later).2⟩])
        (call.run what row now later).1

def Answer.granted : Answer → Option Lease
  | .lease found => found
  | _ => none

def Event.grants (e : Event) (lease : Lease) : Prop :=
  e.answer.granted = some lease

def Event.authorizes (e : Event) (lease : Lease) : Prop :=
  e.call = .authorize lease ∧ e.answer = .told true

def Event.releases (e : Event) (lease : Lease) : Prop :=
  e.call = .release lease ∧ e.answer = .told true

/-- A failed `authorize` or `renew` of a lease. -/
def Event.refuses (e : Event) (lease : Lease) : Prop :=
  (e.call = .authorize lease ∧ e.answer = .told false) ∨
    ((∃ ttl, e.call = .renew lease ttl) ∧ e.answer = .lease none)

variable {what : String}

theorem locked_eq_ok {α : Type} {action result : Row × α} (h : locked what action = .ok result) : result = action := by
  unfold locked at h
  split at h
  · exact (Except.ok.inj h).symm
  · cases h

variable {now ttl later : ℚ} {a b lease : Lease} {row row' start : Row}

theorem Row.valid_iff :
    row.valid lease now = true ↔ row.gen = lease.gen ∧ row.holder = lease.holder ∧ now < row.heldUntil := by
  simp [Row.valid, and_assoc]

/-- A granted lease is the one the row holds behind the call. -/
structure Row.Grants (row : Row) (lease : Lease) : Prop where
  gen : lease.gen = row.gen
  holder : lease.holder = row.holder
  deadline : lease.heldUntil = row.heldUntil

/-- What a call may do to the row, and the lease it then grants: leave the row,
extend or end the live lease of its holder, or begin a new generation behind a
lease that is over. -/
inductive Row.Moves (row : Row) (now : ℚ) : Row → Option Lease → Prop where
  | kept : Moves row now row none
  | extended {row' : Row} {lease : Lease} (hLive : now < row.heldUntil) (hGen : row'.gen = row.gen)
      (hHolder : row'.holder = row.holder) (hGrants : row'.Grants lease) : Moves row now row' (some lease)
  | released (hLive : now < row.heldUntil) : Moves row now { row with heldUntil := 0 } none
  | taken {row' : Row} {lease : Lease} (hOver : row.heldUntil ≤ now) (hGen : row'.gen = row.gen + 1)
      (hGrants : row'.Grants lease) : Moves row now row' (some lease)

theorem acquire_spec {holder : String} {capabilities required : Option (Finset String)} {result : Option Lease}
    (h : acquire row now what holder ttl capabilities required none = .ok (row', result)) :
    row.Moves now row' result := by
  dsimp only [acquire] at h
  split at h
  · cases h
  split at h
  · cases h
    exact .kept
  have hAction := locked_eq_ok h
  split at hAction
  · cases hAction
    exact .kept
  rename_i hFree
  cases hAction
  split
  · rename_i hLive
    exact .extended hLive.1 rfl rfl ⟨rfl, rfl, rfl⟩
  · rename_i hLapsed
    have hOver : row.heldUntil ≤ now := by
      apply not_lt.mp
      intro hLive
      exact hLapsed ⟨hLive, by_contra fun hOther => hFree ⟨hLive, hOther⟩⟩
    exact .taken hOver rfl ⟨rfl, rfl, rfl⟩

theorem renew_spec {result : Option Lease} (h : renew row now later lease ttl = .ok (row', result)) :
    row.Moves now row' result ∧ (result = none → row' = row ∧ row.valid lease now = false) := by
  unfold renew at h
  split at h
  · cases h
  have hAction := locked_eq_ok h
  split at hAction
  · rename_i hValid
    obtain ⟨hGen, hHolder, hLive⟩ := Row.valid_iff.mp hValid
    cases hAction
    exact ⟨.extended hLive rfl rfl ⟨hGen.symm, hHolder.symm, rfl⟩, nofun⟩
  · rename_i hStale
    cases hAction
    exact ⟨.kept, fun _ => ⟨rfl, by simpa using hStale⟩⟩

theorem authorize_spec {yes : Bool} (h : authorize row now lease = .ok (row', yes)) :
    row' = row ∧ row.valid lease now = yes := by
  have hAction := locked_eq_ok h
  cases hAction
  exact ⟨rfl, rfl⟩

theorem release_spec {yes : Bool} (h : release row now lease = .ok (row', yes)) :
    row.Moves now row' none ∧
      (yes = true → row.valid lease now = true ∧ row' = { row with heldUntil := 0 }) := by
  have hAction := locked_eq_ok h
  split at hAction
  · rename_i hValid
    cases hAction
    exact ⟨.released (Row.valid_iff.mp hValid).2.2, fun _ => ⟨hValid, rfl⟩⟩
  · cases hAction
    exact ⟨.kept, nofun⟩

theorem Call.run_moves (what : String) (row : Row) (now later : ℚ) (call : Call) :
    row.Moves now (call.run what row now later).1 (call.run what row now later).2.granted := by
  cases call with
  | acquire holder ttl capabilities required =>
      dsimp only [Call.run]
      cases h : Leases.acquire row now what holder ttl capabilities required none with
      | error => exact .kept
      | ok result => exact acquire_spec h
  | renew lease ttl =>
      dsimp only [Call.run]
      cases h : Leases.renew row now later lease ttl with
      | error => exact .kept
      | ok result => exact (renew_spec h).1
  | authorize lease =>
      dsimp only [Call.run]
      cases h : Leases.authorize row now lease with
      | error => exact .kept
      | ok result => exact (authorize_spec h).1 ▸ .kept
  | release lease =>
      dsimp only [Call.run]
      cases h : Leases.release row now lease with
      | error => exact .kept
      | ok result => exact (release_spec h).1

theorem Call.authorize_told {yes : Bool} (h : ((Call.authorize lease).run what row now later).2 = .told yes) :
    ((Call.authorize lease).run what row now later).1 = row ∧ row.valid lease now = yes := by
  dsimp only [Call.run] at h ⊢
  cases hRun : Leases.authorize row now lease with
  | error => simp [hRun, answered] at h
  | ok result =>
      rw [hRun] at h
      obtain ⟨hRow, hValid⟩ := authorize_spec hRun
      exact ⟨hRow, hValid.trans (Answer.told.inj h)⟩

theorem Call.renew_refused (h : ((Call.renew lease ttl).run what row now later).2 = .lease none) :
    ((Call.renew lease ttl).run what row now later).1 = row ∧ row.valid lease now = false := by
  dsimp only [Call.run] at h ⊢
  cases hRun : Leases.renew row now later lease ttl with
  | error => simp [hRun, answered] at h
  | ok result =>
      rw [hRun] at h
      exact (renew_spec hRun).2 (Answer.lease.inj h)

theorem Call.release_told (h : ((Call.release lease).run what row now later).2 = .told true) :
    row.valid lease now = true ∧
      ((Call.release lease).run what row now later).1 = { row with heldUntil := 0 } := by
  dsimp only [Call.run] at h ⊢
  cases hRun : Leases.release row now lease with
  | error => simp [hRun, answered] at h
  | ok result =>
      rw [hRun] at h
      exact (release_spec hRun).2 (Answer.told.inj h)

variable {e e₁ e₂ : Event} {after before events middle : List Event}

/-- A run through an event is a run up to it, its call, and a run behind it
that begins no earlier than the call's last look at the clock. -/
theorem Run.split (h : Run what start (before ++ e :: after) row) :
    ∃ middle, Run what start before middle ∧ (e.call.run what middle e.now e.later).2 = e.answer ∧
      Run what (e.call.run what middle e.now e.later).1 after row ∧
      (∀ e' ∈ before, e'.later ≤ e.now) ∧ e.now ≤ e.later ∧ ∀ e' ∈ after, e.later ≤ e'.now := by
  induction after using List.reverseRecOn generalizing row with
  | nil =>
      generalize hEvents : before ++ [e] = events at h
      cases h with
      | nil => simp at hEvents
      | snoc prior call hClock hReads =>
          obtain ⟨rfl, hEvent⟩ := List.append_inj' hEvents rfl
          obtain rfl := List.singleton_inj.mp hEvent
          exact ⟨_, prior, rfl, .nil _, hClock, hReads, by simp⟩
  | append_singleton after last ih =>
      generalize hEvents : before ++ e :: (after ++ [last]) = events at h
      cases h with
      | nil => simp at hEvents
      | @snoc middle' events prior call now later hClock hReads =>
          rw [← List.cons_append, ← List.append_assoc] at hEvents
          obtain ⟨rfl, hEvent⟩ := List.append_inj' hEvents rfl
          obtain rfl := List.singleton_inj.mp hEvent
          obtain ⟨middle, hBefore, hAnswer, hAfter, hEarlier, hOwn, hLater⟩ := ih prior
          refine ⟨middle, hBefore, hAnswer, .snoc hAfter call (fun e' he' => hClock e' (by simp [he'])) hReads,
            hEarlier, hOwn, fun e' he' => ?_⟩
          rcases List.mem_append.mp he' with he' | he'
          · exact hLater e' he'
          · obtain rfl := List.mem_singleton.mp he'
            exact hClock e (by simp)

/-- The generation never decreases, and within one generation the holder stays. -/
theorem Run.gen_mono (h : Run what start events row) :
    start.gen < row.gen ∨ row.gen = start.gen ∧ row.holder = start.holder := by
  induction h with
  | nil => exact .inr ⟨rfl, rfl⟩
  | @snoc middle _ _ call now later _ _ ih =>
      have hMoves := call.run_moves what middle now later
      generalize (call.run what middle now later).1 = row at hMoves ⊢
      generalize (call.run what middle now later).2.granted = granted at hMoves
      cases hMoves with
      | kept => exact ih
      | extended hLive hGen hHolder =>
          rw [hGen, hHolder]
          exact ih
      | released => exact ih
      | taken hOver hGen => omega

/-- A lease that is over at `t` stays over until the next generation. -/
theorem Run.over (h : Run what start events row) {t : ℚ} (hOver : start.heldUntil ≤ t) (hLater : ∀ e ∈ events, t ≤ e.now) :
    start.gen < row.gen ∨ row = start := by
  induction h with
  | nil => exact .inr rfl
  | @snoc middle events _ call now later _ hReads ih =>
      have hNow : t ≤ now := hLater _ (List.mem_append_right _ (List.mem_singleton_self _))
      rcases ih (fun e he => hLater e (List.mem_append_left _ he)) with hNext | rfl
      · have hStep : Run what middle _ _ := .snoc (.nil middle) call (by simp) hReads
        have hGen := hStep.gen_mono
        left
        omega
      · have hMoves := call.run_moves what middle now later
        generalize (call.run what middle now later).1 = row at hMoves ⊢
        generalize (call.run what middle now later).2.granted = granted at hMoves
        cases hMoves with
        | kept => exact .inr rfl
        | extended hLive => exact absurd hLive (not_lt.mpr (hOver.trans hNow))
        | released hLive => exact absurd hLive (not_lt.mpr (hOver.trans hNow))
        | taken _ hGen => exact .inl (by omega)

/-- Without a grant the lease is only ever ended. -/
theorem Run.ungranted (h : Run what start events row) (hNone : ∀ e ∈ events, ∀ lease, ¬e.grants lease) :
    row.heldUntil ≤ max start.heldUntil 0 := by
  induction h with
  | nil => exact le_max_left _ _
  | @snoc middle events _ call now later _ hReads ih =>
      have hLast := hNone _ (List.mem_append_right _ (List.mem_singleton_self _))
      have hMiddle := ih fun e he => hNone e (List.mem_append_left _ he)
      have hMoves := call.run_moves what middle now later
      generalize (call.run what middle now later).1 = row at hMoves ⊢
      generalize hGranted : (call.run what middle now later).2.granted = granted at hMoves
      cases hMoves with
      | kept => exact hMiddle
      | extended => exact absurd hGranted (hLast _)
      | released => exact le_max_right _ _
      | taken => exact absurd hGranted (hLast _)

/-- A run through an event, with the event's own move. -/
theorem Run.at_event (h : Run what start (before ++ e :: after) row) :
    ∃ middle middle', Run what start before middle ∧ middle.Moves e.now middle' e.answer.granted ∧
      Run what middle' after row ∧ ∀ e' ∈ after, e.later ≤ e'.now := by
  obtain ⟨middle, hBefore, hAnswer, hAfter, -, -, hLater⟩ := h.split
  refine ⟨middle, _, hBefore, ?_, hAfter, hLater⟩
  rw [← hAnswer]
  exact e.call.run_moves what middle e.now e.later

theorem Row.Moves.grants (h : row.Moves now row' (some lease)) :
    row'.Grants lease ∧ (row.heldUntil ≤ now → row'.gen = row.gen + 1) := by
  cases h with
  | extended hLive _ _ hGrants => exact ⟨hGrants, fun hOver => absurd hLive (not_lt.mpr hOver)⟩
  | taken _ hGen hGrants => exact ⟨hGrants, fun _ => hGen⟩

/-- A lease granted at the start of a run never leads the row, and lags behind
it once the holder is another. -/
theorem Run.granted (h : Run what start events row) (hGrants : start.Grants lease) :
    lease.gen < row.gen ∨ lease.gen = row.gen ∧ lease.holder = row.holder := by
  have hGen := h.gen_mono
  rw [hGrants.gen, hGrants.holder]
  exact hGen.imp id fun hSame => ⟨hSame.1.symm, hSame.2.symm⟩

/-- The row an authorizing call finds. -/
theorem Run.at_authorize (h : Run what start (before ++ e :: after) row) (hAuthorizes : e.authorizes lease) :
    ∃ middle, Run what start before middle ∧ middle.valid lease e.now = true ∧ Run what middle after row := by
  obtain ⟨middle, hBefore, hAnswer, hAfter, -⟩ := h.split
  rw [hAuthorizes.1] at hAnswer hAfter
  obtain ⟨hRow, hValid⟩ := Call.authorize_told (hAnswer.trans hAuthorizes.2)
  exact ⟨middle, hBefore, hValid, hRow ▸ hAfter⟩

/-- The row a refusing call finds. -/
theorem Run.at_refuse (h : Run what start (before ++ e :: after) row) (hRefuses : e.refuses lease) :
    ∃ middle, Run what start before middle ∧ middle.valid lease e.now = false ∧ Run what middle after row ∧
      ∀ e' ∈ after, e.now ≤ e'.now := by
  obtain ⟨middle, hBefore, hAnswer, hAfter, -, hReads, hLater⟩ := h.split
  have hKept : (e.call.run what middle e.now e.later).1 = middle ∧ middle.valid lease e.now = false := by
    rcases hRefuses with ⟨hCall, hTold⟩ | ⟨⟨ttl, hCall⟩, hTold⟩
    · rw [hCall] at hAnswer ⊢
      exact Call.authorize_told (hAnswer.trans hTold)
    · rw [hCall] at hAnswer ⊢
      exact Call.renew_refused (hAnswer.trans hTold)
  exact ⟨middle, hBefore, hKept.2, hKept.1 ▸ hAfter, fun e' he' => hReads.trans (hLater e' he')⟩

/-- Between two authorized leases the generation does not fall, and it rises
where the holder changes. -/
theorem Run.authorized_in_order (h : Run what start (before ++ e₁ :: (middle ++ e₂ :: after)) row)
    (hFirst : e₁.authorizes a) (hSecond : e₂.authorizes b) :
    a.gen ≤ b.gen ∧ (a.holder ≠ b.holder → a.gen < b.gen) := by
  obtain ⟨row₁, -, hValid₁, hRest⟩ := h.at_authorize hFirst
  obtain ⟨row₂, hMiddle, hValid₂, -⟩ := hRest.at_authorize hSecond
  obtain ⟨hGen₁, hHolder₁, -⟩ := Row.valid_iff.mp hValid₁
  obtain ⟨hGen₂, hHolder₂, -⟩ := Row.valid_iff.mp hValid₂
  rcases hMiddle.gen_mono with hLess | ⟨hSame, hHolder⟩
  · exact ⟨by omega, fun _ => by omega⟩
  · refine ⟨by omega, fun hOther => absurd ?_ hOther⟩
    rw [← hHolder₁, ← hHolder₂, hHolder]

/-- Between two grants the generation does not fall; it rises where the holder
changes, behind a release, and where the first lease has run out. -/
theorem Run.granted_in_order (h : Run what start (before ++ e₁ :: (middle ++ e₂ :: after)) row) (hFirst : e₁.grants a)
    (hSecond : e₂.grants b) :
    a.gen ≤ b.gen ∧ (a.holder ≠ b.holder → a.gen < b.gen) ∧
      ((∃ e ∈ middle, ∃ held, e.releases held ∧ held.gen = a.gen) → a.gen < b.gen) ∧
      ((∀ e ∈ middle, ∀ lease, ¬e.grants lease) → a.heldUntil ≤ e₂.now → a.gen < b.gen) := by
  obtain ⟨_, row₁, -, hMoves₁, hRest, -⟩ := h.at_event
  rw [hFirst] at hMoves₁
  obtain ⟨hGrants₁, -⟩ := hMoves₁.grants
  obtain ⟨row₂, row₃, hMiddle, hMoves₂, -, -⟩ := hRest.at_event
  rw [hSecond] at hMoves₂
  obtain ⟨hGrants₂, hNext⟩ := hMoves₂.grants
  have hLast : row₂.gen ≤ row₃.gen := by
    cases hMoves₂ with
    | extended _ hGen => omega
    | taken _ hGen => omega
  have hBetween := hMiddle.granted hGrants₁
  refine ⟨?_, fun hOther => ?_, fun hReleased => ?_, fun hNone hOver => ?_⟩
  · rw [hGrants₂.gen]
    omega
  · rw [hGrants₂.gen]
    rcases hBetween with hLess | ⟨hSame, hHolder⟩
    · omega
    · cases hMoves₂ with
      | extended _ hGen hHolder₂ =>
          refine absurd ?_ hOther
          rw [hHolder, hGrants₂.holder, hHolder₂]
      | taken _ hGen => omega
  · obtain ⟨e, he, held, ⟨hCall, hTold⟩, hHeld⟩ := hReleased
    obtain ⟨first, last, rfl⟩ := List.append_of_mem he
    obtain ⟨row₄, -, hAnswer, hEnd, -⟩ := hMiddle.split
    rw [hCall] at hAnswer hEnd
    obtain ⟨hValid, hRow⟩ := Call.release_told (hAnswer.trans hTold)
    rw [hRow] at hEnd
    have hOwn := (Row.valid_iff.mp hValid).1
    rw [hGrants₂.gen]
    rcases hEnd.over (t := 0) le_rfl (fun e _ => e.now.2) with hLess | rfl
    · have hEnded : row₄.gen < row₂.gen := hLess
      omega
    · have hGen : row₃.gen = row₄.gen + 1 := hNext e₂.now.2
      omega
  · have hOver₂ : row₂.heldUntil ≤ e₂.now := by
      refine (hMiddle.ungranted hNone).trans (max_le ?_ e₂.now.2)
      rwa [← hGrants₁.deadline]
    have hGen := hNext hOver₂
    rw [hGrants₂.gen]
    omega

/-- A lease that was granted and then refused once is refused for good. -/
theorem Run.refused_for_good {between : List Event} {e₀ : Event}
    (h : Run what start (before ++ e₀ :: (between ++ e₁ :: (middle ++ e₂ :: after))) row) (hGranted : e₀.grants lease)
    (hRefused : e₁.refuses lease) : ¬e₂.authorizes lease := by
  intro hAuthorized
  obtain ⟨_, row₀, -, hMoves, hRest, -⟩ := h.at_event
  rw [hGranted] at hMoves
  obtain ⟨row₁, hBetween, hInvalid, hEnd, hLater⟩ := hRest.at_refuse hRefused
  have hIssued := hBetween.granted hMoves.grants.1
  obtain ⟨row₂, hMiddle, hValid, -⟩ := hEnd.at_authorize hAuthorized
  obtain ⟨hGen, hHolder, hLive⟩ := Row.valid_iff.mp hValid
  -- The row has left the lease's generation, or holds it past its deadline.
  rcases hIssued with hLess | ⟨hSame, hSameHolder⟩
  · have hMono := hMiddle.gen_mono
    omega
  · have hOver : row₁.heldUntil ≤ e₁.now := by
      by_contra hStill
      have hValid₁ : row₁.valid lease e₁.now = true :=
        Row.valid_iff.mpr ⟨hSame.symm, hSameHolder.symm, not_le.mp hStill⟩
      simp [hValid₁] at hInvalid
    rcases hMiddle.over hOver (fun e he => hLater e (List.mem_append_left _ he)) with hNext | rfl
    · omega
    · have hAfter : e₁.now ≤ e₂.now := hLater e₂ (by simp)
      exact absurd hLive (not_lt.mpr (hOver.trans hAfter))

/-- One fenced holder, in every run of a key's calls. At any instant one holder
and one generation are authorized, and authorizations follow the generations;
generations never decrease and rise behind another holder, a release and a
deadline; and a lease whose `authorize` or `renew` failed is not authorized again. -/
theorem one_fenced_holder {what : String} {events : List Event} {row : Row} (h : Run what Row.missing events row) :
    (∀ (now : ℚ) (a b : Lease), row.valid a now = true → row.valid b now = true →
      a.holder = b.holder ∧ a.gen = b.gen) ∧
    (∀ before e₁ middle e₂ after, events = before ++ e₁ :: (middle ++ e₂ :: after) → ∀ a b,
      (e₁.authorizes a → e₂.authorizes b → a.gen ≤ b.gen ∧ (a.holder ≠ b.holder → a.gen < b.gen)) ∧
      (e₁.grants a → e₂.grants b →
        a.gen ≤ b.gen ∧ (a.holder ≠ b.holder → a.gen < b.gen) ∧
        ((∃ e ∈ middle, ∃ held, e.releases held ∧ held.gen = a.gen) → a.gen < b.gen) ∧
        ((∀ e ∈ middle, ∀ lease, ¬e.grants lease) → a.heldUntil ≤ e₂.now → a.gen < b.gen)) ∧
      ((∃ e ∈ before, e.grants a) → e₁.refuses a → ¬e₂.authorizes a)) := by
  constructor
  · intro now a b hA hB
    obtain ⟨hGenA, hHolderA, -⟩ := Row.valid_iff.mp hA
    obtain ⟨hGenB, hHolderB, -⟩ := Row.valid_iff.mp hB
    exact ⟨hHolderA.symm.trans hHolderB, hGenA.symm.trans hGenB⟩
  · intro before e₁ middle e₂ after hEvents a b
    subst hEvents
    refine ⟨h.authorized_in_order, h.granted_in_order, fun hGranted hRefused => ?_⟩
    obtain ⟨e₀, he₀, hGrants⟩ := hGranted
    obtain ⟨early, between, rfl⟩ := List.append_of_mem he₀
    rw [List.append_assoc, List.cons_append] at h
    exact h.refused_for_good hGrants hRefused

/-- A second holder takes the key at the very deadline of the first. -/
theorem one_fenced_holder_handover : ∃ e₁ e₂ row, Run "fleet" Row.missing [e₁, e₂] row ∧
    ∃ a b, e₁.grants a ∧ e₂.grants b ∧ a.holder = "a" ∧ b.holder = "b" ∧ a.gen < b.gen := by
  have hKey : validKey "fleet" = true := by decide
  have hNames : ¬"a" = "" ∧ ¬"b" = "" := by decide
  let first : Call := .acquire "a" 10 none none
  let second : Call := .acquire "b" 10 none none
  let row : Row := ⟨1, "a", 11, some []⟩
  let a : Lease := ⟨"fleet", "a", 1, 11, []⟩
  let b : Lease := ⟨"fleet", "b", 2, 21, []⟩
  have hFirst : first.run "fleet" Row.missing (1 : ℚ≥0) (1 : ℚ≥0) = (row, .lease (some a)) := by
    norm_num [first, Call.run, Leases.acquire, answered, locked, hKey, hNames, Row.missing, Row.lease, row, a]
  have hSecond : second.run "fleet" row (11 : ℚ≥0) (11 : ℚ≥0) = (⟨2, "b", 21, some []⟩, .lease (some b)) := by
    norm_num [second, Call.run, Leases.acquire, answered, locked, hKey, hNames, Row.lease, row, b]
  have hRun₁ : Run "fleet" Row.missing [⟨first, 1, 1, .lease (some a)⟩] row := by
    have h : Run "fleet" _ _ _ := .snoc (.nil Row.missing) first (by simp) (le_refl 1)
    rw [hFirst] at h
    exact h
  have hClock : ∀ e ∈ [Event.mk first 1 1 (.lease (some a))], e.later ≤ 11 := by
    intro e he
    obtain rfl := List.mem_singleton.mp he
    show ((1 : ℚ≥0) : ℚ) ≤ (11 : ℚ≥0)
    norm_num
  have hRun₂ : Run "fleet" Row.missing [⟨first, 1, 1, .lease (some a)⟩, ⟨second, 11, 11, .lease (some b)⟩]
      ⟨2, "b", 21, some []⟩ := by
    have h := hRun₁.snoc second hClock (le_refl 11)
    rw [hSecond] at h
    exact h
  have hOrder := ((one_fenced_holder hRun₂).2 [] _ [] _ [] rfl a b).2.1 rfl rfl
  exact ⟨_, _, _, hRun₂, a, b, rfl, rfl, rfl, rfl, hOrder.2.1 (by decide)⟩

end Brnrd.Leases
