import Brnrd.Lists.Entries
import Mathlib.Algebra.Order.Ring.Rat
import Mathlib.Data.List.Sort

/-! A tap for the next wake as a row of the server: what each call makes of the rows it
has read, up to its commit. -/
namespace Brnrd.Taps

inductive Status where
  | pending
  | consumed
  | canceled
  | expired
deriving DecidableEq

def Status.text : Status → String
  | .pending => "pending"
  | .consumed => "consumed"
  | .canceled => "canceled"
  | .expired => "expired"

/-- `RunnerWakeRequest`, under its id. -/
structure Row where
  accountId : String
  profile : String
  repoLabel : Option String
  environment : Option String
  status : Status
  createdAt : ℚ
  decidedAt : Option ℚ
  expiresAt : ℚ
  parkedAfterRefusals : ℕ
  blockedReason : Option String

abbrev Table := List (String × Row)

/-- `WAKE_REQUEST_TTL_S`. -/
def wakeRequestTtl : ℚ := 24 * 3600

/-- `PARKED_AFTER_REFUSAL_BOUND`. -/
def parkedAfterRefusalBound : ℕ := 2

/-- What a commit writes of a row that its session has changed. -/
structure Change where
  status : Option (Status × ℚ) := none
  blockedReason : Option (Option String) := none
  parkedAfterRefusals : Option ℕ := none

/-- The `UPDATE` of a row by its key: only the columns that were changed. -/
def Change.apply (change : Change) (row : Row) : Row :=
  { row with
    status := (change.status.map (·.1)).getD row.status
    decidedAt := match change.status with
      | some (_, time) => some time
      | none => row.decidedAt
    blockedReason := change.blockedReason.getD row.blockedReason
    parkedAfterRefusals := change.parkedAfterRefusals.getD row.parkedAfterRefusals }

/-- The answer to a claim. -/
structure Answer where
  apply : Bool
  reason : Option String
  requestId : String
  status : String
  profile : Option String
  repoLabel : Option String
  environment : Option String

/-- `_refuse`. -/
def refuse (row : Option Row) (requestId reason : String) : Answer :=
  ⟨false, some reason, requestId, (row.map (·.status.text)).getD "absent", row.map (·.profile),
    row.bind (·.repoLabel), row.bind (·.environment)⟩

/-- The arguments of a claim; times are absent where the daemon gives none. -/
structure Claim where
  accountId : String
  requestId : String
  source : Option String
  eventCreated : Option ℚ
  daemonNow : Option ℚ
  knownProfiles : Option (List String)

/-- What a call has decided on what it has read, up to its commit: the rows to update,
a row to insert, and the answer, where the call is a claim. -/
structure Decision where
  changes : List (String × Change) := []
  minted : Option (String × Row) := none
  claim : Option (Claim × Answer) := none

def pendingOf (table : Table) (accountId : String) : Table :=
  table.filter fun item => decide (item.2.accountId = accountId ∧ item.2.status = .pending)

/-- The move of some requests to a final status. -/
def moves (ids : List String) (status : Status) (time : ℚ) : List (String × Change) :=
  ids.map fun id => (id, { status := some (status, time) })

/-- `pending_for_account`: what it moves to expired, and the newest that is left. -/
def pendingForAccount (table : Table) (accountId : String) (now : ℚ) : Decision × Option String :=
  let rows := (pendingOf table accountId).insertionSort fun a b => b.2.createdAt ≤ a.2.createdAt
  let past := rows.filter fun item => decide (item.2.expiresAt < now)
  let newest := ((rows.filter fun item => decide (¬item.2.expiresAt < now)).head?).map Prod.fst
  ({ changes := moves (past.map Prod.fst) .expired now }, newest)

/-- `create`: it cancels what is pending and mints a new request. -/
def create (table : Table) (accountId profile id : String) (repoLabel environment : Option String) (now : ℚ) : Decision where
  changes := moves ((pendingOf table accountId).map Prod.fst) .canceled now
  minted := some (id, ⟨accountId, profile, repoLabel, environment, .pending, now, none, now + wakeRequestTtl, 0, none⟩)

/-- `cancel`. -/
def cancel (table : Table) (accountId requestId : String) (now : ℚ) : Decision :=
  match Entries.get requestId table with
  | none => {}
  | some row =>
      if row.accountId = accountId ∧ row.status = .pending then { changes := moves [requestId] .canceled now } else {}

/-- A column that is written only where its value is another than the one read. -/
def written {α : Type} [DecidableEq α] (old new : α) : Option α :=
  if old = new then none else some new

/-- `_defer`: a refusal that leaves the request pending and remembers why. -/
def defer (claim : Claim) (row : Row) (reason : String) (refusals : Option ℕ) : Decision where
  changes := [(claim.requestId,
    { blockedReason := written row.blockedReason (some reason), parkedAfterRefusals := refusals })]
  claim := some (claim, refuse (some row) claim.requestId reason)

/-- Whether the tap was parked after the event existed: each age off one clock. -/
def parkedAfter (claim : Claim) (row : Row) (now : ℚ) : Bool :=
  match claim.eventCreated, claim.daemonNow with
  | some eventAt, some daemonAt => now - row.createdAt < daemonAt - eventAt
  | _, _ => false

/-- Whether the daemon says which profiles it has, and the tapped one is not there. -/
def Claim.unknown (claim : Claim) (row : Row) : Bool :=
  claim.knownProfiles.any fun known => !known.contains row.profile

/-- `claim`: the ladder of its rungs. -/
def claim (table : Table) (claim : Claim) (now : ℚ) : Decision :=
  let refused (row : Option Row) (reason : String) : Decision :=
    { claim := some (claim, refuse row claim.requestId reason) }
  if claim.requestId = "" then refused none "claim carried no request id"
  else
    match Entries.get claim.requestId table with
    | none => refused none "no such wake request"
    | some row =>
        if row.accountId ≠ claim.accountId then refused none "no such wake request"
        else if row.status ≠ .pending then refused (some row) ("the tap is already " ++ row.status.text)
        else if row.expiresAt < now then
          { changes := moves [claim.requestId] .expired now
            claim := some (claim, refuse (some { row with status := .expired }) claim.requestId
              "the tap expired before a wake claimed it") }
        else if claim.source = some "schedule" then
          defer claim row "a schedule-source wake never spends a dashboard tap" none
        else if claim.unknown row then
          defer claim row ("profile '" ++ row.profile ++ "' is not in this daemon's reported catalog") none
        else if parkedAfter claim row now ∧ row.parkedAfterRefusals < parkedAfterRefusalBound then
          defer claim row "the tap was parked after this event existed; it is for the next wake"
            (some (row.parkedAfterRefusals + 1))
        else
          { changes := [(claim.requestId,
              { status := some (.consumed, now), blockedReason := written row.blockedReason none })]
            claim := some (claim, ⟨true, none, claim.requestId, Status.consumed.text, some row.profile, row.repoLabel,
              row.environment⟩) }

end Brnrd.Taps
