import Brnrd.Leases.Local
import Brnrd.Machine.Reach

/-! `effect_once`: calls for one key, each a chain of transactions around an effect that runs
outside of every lock, under any interleaving with each other and with the leases. -/
namespace Brnrd.Leases.Once

universe u

/-- How a call ends: it returns a receipt or raises. -/
inductive Outcome (R : Type u) where
  | returned (receipt : R)
  | staleLease
  | inFlight
  | failed
  | raised (error : ValueError)
  deriving DecidableEq

/-- Where a call stands between two transactions, with the lease that it holds for the send. -/
inductive Point (R : Type u) where
  | enter
  | prior
  | sendLease
  | priorAgain (send : Lease)
  | intend (send : Lease)
  | recheck (send : Lease)
  | effect (send : Lease)
  | running (send : Lease) (since : ℚ≥0)
  | sent (send : Lease) (receipt : R)
  | settle (send : Lease) (outcome : Outcome R)
  | over (outcome : Outcome R)
  deriving DecidableEq

/-- A fact of the key's sends. -/
inductive Record (R : Type u) where
  | intended (by_ : String) (gen : Int) (what : String)
  | sent (by_ : String) (gen : Int) (receipt : R)

structure Call (R : Type u) where
  lease : Lease
  point : Point R
  deriving DecidableEq

/-- The rows of all leases, the sends of the key, the receipts of the effects that completed,
the names `uuid4` has given, and the calls. -/
structure World (R : Type u) where
  rows : String → Row
  now : ℚ≥0
  sends : List (Record R)
  completed : List R
  names : List String
  calls : List (Call R)

/-- What a transaction takes from outside: a name of `uuid4`, and how the effect ends, which
is with a receipt or with a raise. -/
structure Input (R : Type u) where
  name : String
  outcome : Option R

inductive Action (R : Type u) where
  | call (lease : Lease)
  | advance (i : ℕ) (input : Input R)
  | tick (now : ℚ≥0)
  | seat (what : String) (row : Row)

def Record.receipt {R : Type u} : Record R → Option R
  | .intended _ _ _ => none
  | .sent _ _ receipt => some receipt

/-- The lease that a call holds for the send. -/
def Point.claim {R : Type u} : Point R → Option Lease
  | .priorAgain send | .intend send | .recheck send | .effect send | .running send _ | .sent send _ | .settle send _ =>
      some send
  | _ => none

variable {R : Type u}

/-- `prior[0].data["receipt"]`, if there is a prior send. -/
def World.prior (w : World R) : Option R :=
  (w.sends.filterMap Record.receipt).head?

def sendKey (key : String) : String :=
  "send:" ++ key

variable (again : R → R) (key : String)

/-- The next transaction of a call for the key; `again` is a receipt as its fact gives it
back. `none` where the call is over, or the name is not a new one. -/
def World.transact (w : World R) (lease : Lease) (input : Input R) : Point R → Option (World R × Point R)
  | .enter =>
      if key = "" then some (w, .over (.raised ⟨"effect idempotency key required"⟩))
      else match authorize (w.rows lease.what) w.now lease with
        | .error error => some (w, .over (.raised error))
        | .ok (_, yes) => some (w, if yes then .prior else .over .staleLease)
  | .prior =>
      match w.prior with
      | some receipt => some (w, .over (.returned receipt))
      | none => some (w, .sendLease)
  | .sendLease =>
      if input.name = "" ∨ input.name ∈ w.names then none
      else match acquire (w.rows (sendKey key)) w.now (sendKey key) input.name 300 none none none with
        | .error error => some (w, .over (.raised error))
        | .ok (_, none) => some (w, .over .inFlight)
        | .ok (row, some send) =>
            some ({ w with rows := Function.update w.rows (sendKey key) row, names := input.name :: w.names }, .priorAgain send)
  -- from here on the call lets the send's lease go, whether it returns or raises
  | .priorAgain send =>
      match w.prior with
      | some receipt => some (w, .settle send (.returned receipt))
      | none => some (w, .intend send)
  | .intend send =>
      some ({ w with sends := w.sends ++ [.intended lease.holder lease.gen lease.what] }, .recheck send)
  | .recheck send =>
      match authorize (w.rows lease.what) w.now lease with
      | .error error => some (w, .settle send (.raised error))
      | .ok (_, yes) => some (w, if yes then .effect send else .settle send .staleLease)
  | .effect send => some (w, .running send w.now)
  | .running send _ =>
      match input.outcome with
      | none => some (w, .settle send .failed)
      | some receipt => some ({ w with completed := w.completed ++ [receipt] }, .sent send receipt)
  | .sent send receipt =>
      some ({ w with sends := w.sends ++ [.sent lease.holder lease.gen (again receipt)] }, .settle send (.returned receipt))
  | .settle send outcome =>
      match release (w.rows (sendKey key)) w.now send with
      | .error error => some (w, .over (.raised error))
      | .ok (row, _) => some ({ w with rows := Function.update w.rows (sendKey key) row }, .over outcome)
  | .over _ => none

/-- What can happen: a call begins or comes to its next transaction, time passes, or the row
of another lease is written. -/
def World.step (w : World R) : Action R → Option (World R)
  | .call lease => some { w with calls := w.calls ++ [⟨lease, .enter⟩] }
  | .advance i input => do
      let call ← w.calls[i]?
      let (next, point) ← w.transact again key call.lease input call.point
      some { next with calls := next.calls.set i ⟨call.lease, point⟩ }
  | .tick now => if w.now ≤ now then some { w with now := now } else none
  | .seat what row => if what = sendKey key then none else some { w with rows := Function.update w.rows what row }

/-- No call yet, and no send of the key. -/
def World.start (rows : String → Row) (now : ℚ≥0) : World R where
  rows := Function.update rows (sendKey key) .missing
  now := now
  sends := []
  completed := []
  names := []
  calls := []


/-- The row of the send's lease. -/
def World.row (w : World R) : Row :=
  w.rows (sendKey key)

/-- The receipts of the key, as they are read back. -/
def World.receipts (w : World R) : List R :=
  w.sends.filterMap Record.receipt

/-- What a transaction does to the claim of its call: it keeps it, takes it where nobody holds
one, or lets it go. -/
inductive Turns (w next : World R) (name : String) : Point R → Point R → Prop where
  | keeps {point point' : Point R} (hRows : next.rows = w.rows) (hNames : next.names = w.names)
      (hClaim : point'.claim = point.claim) : Turns w next name point point'
  | takes {send : Lease} (hNew : name ∉ w.names) (hFree : (w.row key).heldUntil ≤ w.now ∨ (w.row key).holder = name)
      (hGrants : (next.row key).Grants send) (hHolder : send.holder = name)
      (hWhat : send.what = sendKey key ∧ validKey (sendKey key) = true) (hNames : next.names = name :: w.names) : Turns w next name .sendLease (.priorAgain send)
  | lets {send : Lease} {outcome : Outcome R} {point' : Point R} (hOver : point'.claim = none) (hNames : next.names = w.names)
      (hRow : validKey send.what = true → next.row key =
        if (w.row key).valid send w.now then { w.row key with heldUntil := 0 } else w.row key) :
      Turns w next name (.settle send outcome) point'

variable {again key} {w next : World R} {lease : Lease} {input : Input R} {point point' : Point R}

variable {send : Lease}

theorem acquire_fresh {row row' : Row} {now : ℚ} {what name : String}
    (h : acquire row now what name 300 none none none = .ok (row', some send)) :
    (row.heldUntil ≤ now ∨ row.holder = name) ∧ row'.Grants send ∧ send.holder = name ∧ send.what = what ∧
      validKey what = true := by
  dsimp only [acquire] at h
  split at h
  · cases h
  split at h
  · cases h
  have hValid : validKey what = true := by
    by_contra hNot
    rw [locked, if_neg hNot] at h
    cases h
  have hAction := locked_eq_ok h
  split at hAction
  · cases hAction
  · rename_i hFree
    have hOver : row.heldUntil ≤ now ∨ row.holder = name := by
      by_contra hBoth
      rw [not_or, not_le] at hBoth
      exact hFree hBoth
    cases hAction
    refine ⟨hOver, ⟨rfl, rfl, rfl⟩, ?_, rfl, hValid⟩
    simp only [Row.lease]
    split
    · rename_i hHeld
      exact hHeld.2
    · rfl

theorem transact_turns (h : w.transact again key lease input point = some (next, point')) :
    (next.now = w.now ∧ next.calls = w.calls) ∧ Turns key w next input.name point point' := by
  cases point with
  | enter =>
      simp only [World.transact] at h
      split at h
      · cases h
        exact ⟨⟨rfl, rfl⟩, .keeps rfl rfl rfl⟩
      · split at h
        · cases h
          exact ⟨⟨rfl, rfl⟩, .keeps rfl rfl rfl⟩
        · rename_i yes _
          cases h
          exact ⟨⟨rfl, rfl⟩, .keeps rfl rfl (by cases yes <;> rfl)⟩
  | prior =>
      simp only [World.transact] at h
      split at h <;> cases h <;> exact ⟨⟨rfl, rfl⟩, .keeps rfl rfl rfl⟩
  | sendLease =>
      simp only [World.transact] at h
      split at h
      · cases h
      · rename_i hName
        split at h
        · cases h
          exact ⟨⟨rfl, rfl⟩, .keeps rfl rfl rfl⟩
        · cases h
          exact ⟨⟨rfl, rfl⟩, .keeps rfl rfl rfl⟩
        · rename_i row send hAcquire
          cases h
          obtain ⟨hFree, hGrants, hHolder, hWhat⟩ := acquire_fresh hAcquire
          have hRow : World.row key { w with
              rows := Function.update w.rows (sendKey key) row, names := input.name :: w.names } = row := by
            simp [World.row]
          exact ⟨⟨rfl, rfl⟩, .takes (not_or.mp hName).2 hFree (hRow.symm ▸ hGrants) hHolder hWhat rfl⟩
  | priorAgain send =>
      simp only [World.transact] at h
      split at h <;> cases h <;> exact ⟨⟨rfl, rfl⟩, .keeps rfl rfl rfl⟩
  | intend send =>
      cases h
      exact ⟨⟨rfl, rfl⟩, .keeps rfl rfl rfl⟩
  | recheck send =>
      simp only [World.transact] at h
      split at h
      · cases h
        exact ⟨⟨rfl, rfl⟩, .keeps rfl rfl rfl⟩
      · rename_i yes _
        cases h
        exact ⟨⟨rfl, rfl⟩, .keeps rfl rfl (by cases yes <;> rfl)⟩
  | effect send =>
      cases h
      exact ⟨⟨rfl, rfl⟩, .keeps rfl rfl rfl⟩
  | running send since =>
      simp only [World.transact] at h
      split at h <;> cases h <;> exact ⟨⟨rfl, rfl⟩, .keeps rfl rfl rfl⟩
  | sent send receipt =>
      cases h
      exact ⟨⟨rfl, rfl⟩, .keeps rfl rfl rfl⟩
  | settle send outcome =>
      simp only [World.transact] at h
      split at h
      · rename_i hRelease
        cases h
        refine ⟨⟨rfl, rfl⟩, .lets rfl rfl fun hValid => ?_⟩
        rw [release, locked, if_pos hValid] at hRelease
        cases hRelease
      · rename_i row yes hRelease
        cases h
        refine ⟨⟨rfl, rfl⟩, .lets rfl rfl fun hValid => ?_⟩
        have hRow := congrArg Prod.fst (locked_eq_ok hRelease)
        refine (Function.update_self (sendKey key) row w.rows).trans (hRow.trans ?_)
        unfold World.row
        split <;> rfl
  | «over» outcome => cases h

/-- A call holds a lease for the send. -/
def World.Claims (w : World R) (i : ℕ) (send : Lease) : Prop :=
  ∃ call, w.calls[i]? = some call ∧ call.point.claim = some send

/-- The claims of the calls and the row of the send's lease: no two calls have one claim, a
claim that has not run out is the row's, and a row that has not run out is some call's. -/
structure World.Seated (key : String) (w : World R) : Prop where
  named : ∀ i send, w.Claims i send → send.holder ∈ w.names
  what : ∀ i send, w.Claims i send → send.what = sendKey key ∧ validKey (sendKey key) = true
  apart : ∀ i j send send', w.Claims i send → w.Claims j send' → send.holder = send'.holder → i = j
  granted : ∀ i send, w.Claims i send → send.heldUntil ≤ w.now ∨ (w.row key).Grants send
  held : w.now < (w.row key).heldUntil → ∃ i send, w.Claims i send ∧ (w.row key).Grants send

variable {i j : ℕ}

/-- Of two claims at most one has not run out. -/
theorem World.Seated.alone (h : w.Seated key) {send' : Lease} (hSend : w.Claims i send) (hSend' : w.Claims j send')
    (hLive : w.now < send.heldUntil) (hOther : i ≠ j) : send'.heldUntil ≤ w.now := by
  refine (h.granted j send' hSend').resolve_right fun hGrants' => ?_
  have hGrants := (h.granted i send hSend).resolve_left (not_le.mpr hLive)
  exact hOther (h.apart i j send send' hSend hSend' (hGrants.holder.trans hGrants'.holder.symm))

/-- The world behind a transaction. -/
def World.behind (next : World R) (i : ℕ) (call : Call R) : World R :=
  { next with calls := next.calls.set i call }

theorem World.behind_calls {call call' : Call R} (hi : i < next.calls.length) :
    (next.behind i call).calls[j]? = some call' ↔ j = i ∧ call' = call ∨ j ≠ i ∧ next.calls[j]? = some call' := by
  rw [World.behind, List.getElem?_set]
  by_cases hSame : i = j
  · subst hSame
    simp [hi, eq_comm]
  · simp [hSame, Ne.symm hSame]

theorem World.behind_claims (hi : i < next.calls.length) :
    (next.behind i ⟨lease, point'⟩).Claims j send ↔ j = i ∧ point'.claim = some send ∨ j ≠ i ∧ next.Claims j send := by
  unfold World.Claims
  constructor
  · rintro ⟨call, hCall, hClaim⟩
    rcases (behind_calls hi).mp hCall with ⟨rfl, rfl⟩ | ⟨hOther, hCall⟩
    · exact .inl ⟨rfl, hClaim⟩
    · exact .inr ⟨hOther, call, hCall, hClaim⟩
  · rintro (⟨rfl, hClaim⟩ | ⟨hOther, call, hCall, hClaim⟩)
    · exact ⟨_, (behind_calls hi).mpr (.inl ⟨rfl, rfl⟩), hClaim⟩
    · exact ⟨call, (behind_calls hi).mpr (.inr ⟨hOther, hCall⟩), hClaim⟩

theorem World.Seated.advance (h : w.Seated key) (hCall : w.calls[i]? = some ⟨lease, point⟩)
    (hTurns : (next.now = w.now ∧ next.calls = w.calls) ∧ Turns key w next input.name point point') :
    (next.behind i ⟨lease, point'⟩).Seated key := by
  obtain ⟨⟨hNow, hCalls⟩, hTurns⟩ := hTurns
  have hi : i < next.calls.length := hCalls ▸ (List.getElem?_eq_some_iff.mp hCall).1
  have hSame : ∀ j send, next.Claims j send ↔ w.Claims j send := fun j send => by rw [World.Claims, World.Claims, hCalls]
  have hBehind : ∀ j send, (next.behind i ⟨lease, point'⟩).Claims j send ↔
      j = i ∧ point'.claim = some send ∨ j ≠ i ∧ w.Claims j send := fun j send => by
    rw [World.behind_claims hi, hSame]
  have hOwn : ∀ {send}, point.claim = some send → w.Claims i send := fun hClaim => ⟨_, hCall, hClaim⟩
  have hNow' : (next.behind i ⟨lease, point'⟩).now = w.now := hNow
  have hNames' : (next.behind i ⟨lease, point'⟩).names = next.names := rfl
  have hRow' : (next.behind i ⟨lease, point'⟩).row key = next.row key := rfl
  cases hTurns with
  | keeps hRows hNames hClaim =>
      have hClaims : ∀ j send, (next.behind i ⟨lease, point'⟩).Claims j send ↔ w.Claims j send := by
        intro j send
        rw [hBehind, hClaim]
        constructor
        · rintro (⟨rfl, hClaim⟩ | ⟨-, hClaims⟩)
          · exact hOwn hClaim
          · exact hClaims
        · rintro ⟨call, hCall', hClaim⟩
          by_cases hj : j = i
          · subst hj
            obtain rfl := Option.mem_unique hCall hCall'
            exact .inl ⟨rfl, hClaim⟩
          · exact .inr ⟨hj, call, hCall', hClaim⟩
      have hRow : next.row key = w.row key := congrFun hRows _
      constructor <;> simp only [hClaims, hNow', hNames', hRow', hNames, hRow]
      · exact h.named
      · exact h.what
      · exact h.apart
      · exact h.granted
      · exact h.held
  | @takes send hNew hFree hGrants hHolder hWhat hNames =>
      have hOver : (w.row key).heldUntil ≤ w.now := by
        refine hFree.elim id fun hName => ?_
        by_contra hLive
        obtain ⟨j, other, hOther, hRow⟩ := h.held (not_le.mp hLive)
        exact hNew (hName ▸ hRow.holder ▸ h.named j other hOther)
      have hTaken : ∀ {j other}, j = i ∧ (Point.priorAgain send : Point R).claim = some other ∨ j ≠ i ∧ w.Claims j other →
          j = i ∧ other = send ∨ j ≠ i ∧ w.Claims j other :=
        fun hEither => hEither.imp_left fun ⟨hj, hSend⟩ => ⟨hj, (Option.some.inj hSend).symm⟩
      constructor <;> simp only [hBehind, hNow', hNames', hRow', hNames]
      · intro j other hOther
        rcases hTaken hOther with ⟨-, rfl⟩ | ⟨-, hOther⟩
        · exact hHolder ▸ List.mem_cons_self ..
        · exact List.mem_cons_of_mem _ (h.named j other hOther)
      · intro j other hOther
        rcases hTaken hOther with ⟨-, rfl⟩ | ⟨-, hOther⟩
        · exact hWhat
        · exact h.what j other hOther
      · intro j k a b ha hb hHolders
        rcases hTaken ha with ⟨rfl, rfl⟩ | ⟨-, haOld⟩ <;> rcases hTaken hb with ⟨rfl, rfl⟩ | ⟨-, hbOld⟩
        · rfl
        · exact (hNew (hHolder ▸ hHolders ▸ h.named k b hbOld)).elim
        · exact (hNew (hHolder ▸ hHolders ▸ h.named j a haOld)).elim
        · exact h.apart j k a b haOld hbOld hHolders
      · intro j other hOther
        rcases hTaken hOther with ⟨-, rfl⟩ | ⟨-, hOther⟩
        · exact .inr hGrants
        · exact .inl ((h.granted j other hOther).elim id fun hRow => hRow.deadline.trans_le hOver)
      · exact fun _ => ⟨i, send, .inl ⟨rfl, rfl⟩, hGrants⟩
  | @lets send outcome point' hOver hNames hRow =>
      have hSend : w.Claims i send := hOwn rfl
      have hRow := hRow ((h.what i send hSend).1 ▸ (h.what i send hSend).2)
      have hLeft : ∀ {j other}, j = i ∧ point'.claim = some other ∨ j ≠ i ∧ w.Claims j other → j ≠ i ∧ w.Claims j other :=
        fun hEither => hEither.resolve_left fun ⟨_, hClaim⟩ => by
          rw [hOver] at hClaim
          cases hClaim
      constructor <;> simp only [hBehind, hNow', hNames', hRow', hNames]
      · exact fun j other hOther => h.named j other (hLeft hOther).2
      · exact fun j other hOther => h.what j other (hLeft hOther).2
      · exact fun j k a b ha hb => h.apart j k a b (hLeft ha).2 (hLeft hb).2
      · intro j other hOther
        obtain ⟨hj, hOther⟩ := hLeft hOther
        refine (h.granted j other hOther).imp_right fun hGrants => ?_
        have hStale : ¬ (w.row key).valid send w.now = true := fun hValid =>
          hj (h.apart j i other send hOther hSend (hGrants.holder.trans (Row.valid_iff.mp hValid).2.1))
        rwa [hRow, if_neg hStale]
      · intro hLive
        rw [hRow] at hLive ⊢
        split at hLive
        · exact absurd hLive (not_lt.mpr (NNRat.coe_nonneg w.now))
        · rename_i hStale
          obtain ⟨j, other, hOther, hGrants⟩ := h.held hLive
          refine ⟨j, other, .inr ⟨fun hj => hStale ?_, hOther⟩, by rwa [if_neg hStale]⟩
          have hSame : other = send := by
            obtain ⟨call, hCall', hClaim⟩ := hOther
            rw [hj, hCall] at hCall'
            obtain rfl := Option.some.inj hCall'
            exact (Option.some.inj hClaim).symm
          exact Row.valid_iff.mpr ⟨hSame ▸ hGrants.gen.symm, hSame ▸ hGrants.holder.symm, hLive⟩

/-- Worlds with the same claims, names and row are seated alike, if no time goes back. -/
theorem World.Seated.congr (h : w.Seated key) (hClaims : ∀ i send, next.Claims i send ↔ w.Claims i send)
    (hNames : next.names = w.names) (hRow : next.row key = w.row key) (hNow : w.now ≤ next.now) : next.Seated key := by
  have hLater : (w.now : ℚ) ≤ next.now := NNRat.coe_le_coe.mpr hNow
  constructor <;> simp only [hClaims, hNames, hRow]
  · exact h.named
  · exact h.what
  · exact h.apart
  · exact fun i send hSend => (h.granted i send hSend).imp_left hLater.trans'
  · exact fun hLive => h.held (hLater.trans_lt hLive)

theorem World.start_seated (rows : String → Row) (now : ℚ≥0) : (World.start key rows now : World R).Seated key := by
  have hNone : ∀ i send, ¬ (World.start key rows now : World R).Claims i send := by
    rintro i send ⟨call, hCall, -⟩
    cases hCall
  refine ⟨fun i send h => (hNone i send h).elim, fun i send h => (hNone i send h).elim,
    fun i _ send _ h => (hNone i send h).elim, fun i send h => (hNone i send h).elim, fun hLive => ?_⟩
  have hRow : (World.start key rows now : World R).row key = .missing := by simp [World.row, World.start]
  rw [hRow] at hLive
  exact absurd hLive (not_lt.mpr (NNRat.coe_nonneg now))

theorem World.claims_call :
    World.Claims { w with calls := w.calls ++ [⟨lease, .enter⟩] } i send ↔ w.Claims i send := by
  constructor
  · rintro ⟨call, hCall, hClaim⟩
    rw [List.getElem?_append] at hCall
    split at hCall
    · exact ⟨call, hCall, hClaim⟩
    · obtain rfl := List.mem_singleton.mp (List.mem_of_getElem? hCall)
      cases hClaim
  · rintro ⟨call, hCall, hClaim⟩
    exact ⟨call, List.getElem?_append_left (List.getElem?_eq_some_iff.mp hCall).1 ▸ hCall, hClaim⟩

/-- What a step does: a transaction of a call, or nothing that a call's claim or receipt
depends on. -/
theorem World.step_cases {action : Action R} (h : w.step again key action = some next) :
    (∃ i input lease point moved point', action = .advance i input ∧ w.calls[i]? = some ⟨lease, point⟩ ∧
      w.transact again key lease input point = some (moved, point') ∧ next = moved.behind i ⟨lease, point'⟩) ∨
    (w.now ≤ next.now ∧ next.row key = w.row key ∧ next.names = w.names ∧ next.sends = w.sends ∧
      next.completed = w.completed ∧ (next.calls = w.calls ∨ ∃ lease, next.calls = w.calls ++ [⟨lease, .enter⟩]) ∧
      (next.now = w.now ∨ action = .tick next.now)) := by
  cases action with
  | call lease =>
      cases h
      exact .inr ⟨le_rfl, rfl, rfl, rfl, rfl, .inr ⟨lease, rfl⟩, .inl rfl⟩
  | advance i input =>
      obtain ⟨call, hCall, hRest⟩ := Option.bind_eq_some_iff.mp h
      obtain ⟨⟨moved, point'⟩, hTurn, hNext⟩ := Option.bind_eq_some_iff.mp hRest
      cases hNext
      exact .inl ⟨i, input, call.lease, call.point, moved, point', rfl, hCall, hTurn, rfl⟩
  | tick now =>
      rw [World.step] at h
      split at h
      · rename_i hLater
        cases h
        exact .inr ⟨hLater, rfl, rfl, rfl, rfl, .inl rfl, .inr rfl⟩
      · cases h
  | seat what row =>
      rw [World.step] at h
      split at h
      · cases h
      · rename_i hOther
        cases h
        have hRow : Function.update w.rows what row (sendKey key) = w.rows (sendKey key) :=
          Function.update_of_ne (Ne.symm hOther) row w.rows
        exact .inr ⟨le_rfl, hRow, rfl, rfl, rfl, .inl rfl, .inl rfl⟩

theorem World.Seated.step {action : Action R} (h : w.Seated key) (hStep : w.step again key action = some next) :
    next.Seated key := by
  rcases World.step_cases hStep with ⟨i, input, lease, point, moved, point', -, hCall, hTurn, rfl⟩ |
    ⟨hNow, hRow, hNames, -, -, hCalls, -⟩
  · exact h.advance hCall (transact_turns hTurn)
  · refine h.congr (fun i send => ?_) hNames hRow hNow
    rcases hCalls with hSame | ⟨lease, hMore⟩
    · rw [World.Claims, World.Claims, hSame]
    · rw [World.Claims, hMore]
      exact World.claims_call

end Brnrd.Leases.Once
