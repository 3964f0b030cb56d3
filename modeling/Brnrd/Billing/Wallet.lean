import Brnrd.Project.Replay

/-! The rows the billing core writes, and the wallet operations: buckets of
credits, and the ledger that every change of a bucket is entered in. -/
namespace Brnrd.Billing

open Python Project

inductive Tier where
  | free
  | subscribed
  deriving DecidableEq

/-- `Account`, as far as billing reads and writes it. -/
structure Account where
  id : String
  tier : Tier
  stripeCustomerId : Option String
  deletedAt : Option String
  deriving DecidableEq

inductive Status where
  | active
  | pastDue
  | canceled
  deriving DecidableEq

inductive Cohort where
  | cohortSupporter
  | cohortPublic
  deriving DecidableEq

/-- `Subscription`. -/
structure Subscription where
  accountId : String
  stripeSubscriptionId : String
  stripePriceId : String
  cohort : Cohort
  annual : Bool
  status : Status
  cancelAtPeriodEnd : Bool
  currentPeriodEnd : Option String
  updatedAt : String
  deriving DecidableEq

inductive Source where
  | freeSignupBonus
  | subscriberMonthly
  | purchased
  | promotional
  deriving DecidableEq

/-- `CreditBucket`. -/
structure CreditBucket where
  id : String
  accountId : String
  source : Source
  granted : Int
  remaining : Int
  expiresAt : Option String
  stripeRef : Option String
  deriving DecidableEq

/-- `BillingLedgerEntry`. -/
structure LedgerEntry where
  accountId : String
  op : String
  delta : Int
  bucketId : Option String
  metadata : Dict
  deriving DecidableEq

structure Db where
  accounts : List Account
  subscriptions : List Subscription
  buckets : List CreditBucket
  ledger : List LedgerEntry
  /-- The ids of `StripeEvent`. -/
  events : List String
  deriving DecidableEq

/-- The ways an event is not applied. -/
inductive BillingError where
  | raised (e : Raised)
  /-- `IntegrityError`. -/
  | integrity
  /-- `MultipleResultsFound`. -/
  | multiple
  deriving DecidableEq

abbrev Billed (α : Type) := Except BillingError α

def raising {α : Type} (x : Except Raised α) : Billed α :=
  x.mapError .raised

/-- What the driver and the clock decide: the text a value that is none becomes
in a text column, or that it is refused there; a moment from a timestamp; and
the moment of the call. -/
structure Calls where
  bind : Value → Except Raised String
  fromTimestamp : Value → Except Raised String
  now : String

/-- A value as the parameter of a text column. -/
def Calls.column (c : Calls) : Value → Billed String
  | .str text => .ok text
  | value => raising (c.bind value)

/-- `.scalar_one_or_none()`. -/
def oneOrNone {α : Type} : List α → Billed (Option α)
  | [] => .ok none
  | [row] => .ok (some row)
  | _ => .error .multiple

theorem oneOrNone_eq_ok {α : Type} {rows : List α} {row : Option α} (h : oneOrNone rows = .ok row) : rows = row.toList := by
  match rows, h with
  | [], h => exact (Except.ok.inj h) ▸ rfl
  | [_], h => exact (Except.ok.inj h) ▸ rfl
  | _ :: _ :: _, h => cases h

/-- `value or {}`, whose `.get` is called. -/
def orDict (value : Value) : Billed Dict :=
  if value.truthy then raising (fields value) else .ok []

/-- `db.get(Account, id)`. -/
def Db.account (db : Db) (id : String) : Option Account :=
  db.accounts.find? fun a => a.id = id

def Db.setAccount (db : Db) (id : String) (change : Account → Account) : Db :=
  { db with accounts := db.accounts.map fun a => if a.id = id then change a else a }

/-- The row of a Stripe subscription id. -/
def Db.subscription (db : Db) (stripeId : String) : Billed (Option Subscription) :=
  oneOrNone (db.subscriptions.filter fun s => s.stripeSubscriptionId = stripeId)

def Db.setSubscription (db : Db) (stripeId : String) (change : Subscription → Subscription) : Db :=
  { db with subscriptions := db.subscriptions.map fun s => if s.stripeSubscriptionId = stripeId then change s else s }

/-- The bucket of a Stripe reference. -/
def Db.bucket (db : Db) (ref : String) : Billed (Option CreditBucket) :=
  oneOrNone (db.buckets.filter fun b => b.stripeRef = some ref)

/-- `ledger_append`. -/
def Db.append (db : Db) (entry : LedgerEntry) : Db :=
  { db with ledger := db.ledger ++ [entry] }

/-- What a grant puts into a bucket. -/
structure Grant where
  accountId : String
  source : Source
  credits : Int
  op : String
  expiresAt : Option String
  stripeRef : Value
  metadata : Dict

/-- A reference as it is stored. -/
def Calls.reference (c : Calls) (ref : Value) : Billed (Option String) :=
  if ref = .null then .ok none else (c.column ref).map some

/-- The bucket of a reference that was granted before. -/
def granted (c : Calls) (db : Db) (ref : Value) : Billed (Option CreditBucket) :=
  if ref.truthy then do
    let text ← c.column ref
    db.bucket text
  else .ok none

/-- `db.add(bucket)` and the flush: ids and references are unique. -/
def Db.addBucket (db : Db) (bucket : CreditBucket) : Billed Db :=
  if db.buckets.any fun b => b.id = bucket.id ∨ b.stripeRef ≠ none ∧ b.stripeRef = bucket.stripeRef then
    .error .integrity
  else .ok { db with buckets := db.buckets ++ [bucket] }

/-- `grant_bucket`, `none` where the reference was granted before. `bucketId` is
the id that is minted. -/
def grantBucket (c : Calls) (bucketId : String) (db : Db) (g : Grant) : Billed (Option Db) := do
  match ← granted c db g.stripeRef with
  | some _ => .ok none
  | none => do
      let ref ← c.reference g.stripeRef
      let db ← db.addBucket ⟨bucketId, g.accountId, g.source, g.credits, g.credits, g.expiresAt, ref⟩
      .ok (some (db.append ⟨g.accountId, g.op, g.credits, some bucketId, g.metadata⟩))

/-- The live buckets of a source. -/
def isLive (accountId : String) (source : Source) (b : CreditBucket) : Bool :=
  b.accountId = accountId && b.source = source && 0 < b.remaining

/-- `expire_buckets`. -/
def expireBuckets (db : Db) (accountId : String) (source : Source) (op : String) : Db :=
  { db with
    buckets := db.buckets.map fun b => if isLive accountId source b then { b with remaining := 0 } else b
    ledger := db.ledger ++ (db.buckets.filter (isLive accountId source)).map fun b =>
      ⟨accountId, op, -b.remaining, some b.id, []⟩ }

/-- A subscription that is not canceled. -/
def Subscription.lives (accountId : String) (s : Subscription) : Bool :=
  s.accountId = accountId && s.status ≠ .canceled

/-- `_refresh_tier`. -/
def refreshTier (db : Db) (accountId : String) : Db :=
  db.setAccount accountId fun a =>
    { a with tier := if db.subscriptions.any (Subscription.lives accountId) then .subscribed else .free }

end Brnrd.Billing
