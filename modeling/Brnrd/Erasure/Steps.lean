import Brnrd.Project.Replay
import Brnrd.Tables.Sweep

/-! The stores of the service that belong to accounts, with the columns that key
them, and the account deletion that sweeps them. -/
namespace Brnrd.Erasure

open Python

/-- The models, one for each table that belongs to accounts. -/
inductive Store where
  | account
  | termsAcceptance
  | repo
  | token
  | daemon
  | boardConsent
  | loomPart
  | daemonRepo
  | activityRecord
  | event
  | channelRoute
  | gitHubInstallation
  | gitHubInstalledRepo
  | tgPairCode
  | pairRequest
  | configChangeRequest
  | runnerWakeRequest
  | runStopRequest
  | runReleaseRequest
  | runRespawnRequest
  | subscription
  | creditBucket
  | billingLedgerEntry
  deriving DecidableEq

/-- The columns that name a row of another store. -/
inductive Key where
  | account
  | repo
  | daemon
  | token
  | installation
  | bucket
  deriving DecidableEq

def Key.column : Key → String
  | .account => "account_id"
  | .repo => "repo_id"
  | .daemon => "daemon_id"
  | .token => "token_id"
  | .installation => "github_installation_id"
  | .bucket => "bucket_id"

/-- `ForeignKey(..)`, of each column that has one. -/
def Store.foreignKeys : Store → List (Key × Store)
  | .account | .boardConsent | .pairRequest => []
  | .termsAcceptance | .repo | .gitHubInstallation | .runnerWakeRequest | .runStopRequest | .runReleaseRequest
  | .runRespawnRequest | .subscription | .creditBucket => [(.account, .account)]
  | .token | .channelRoute | .tgPairCode | .configChangeRequest => [(.account, .account), (.repo, .repo)]
  | .daemon => [(.account, .account), (.repo, .repo), (.token, .token)]
  | .loomPart => [(.daemon, .daemon), (.account, .account), (.repo, .repo)]
  | .daemonRepo => [(.daemon, .daemon), (.repo, .repo)]
  | .activityRecord => [(.repo, .repo), (.token, .token), (.daemon, .daemon)]
  | .event => [(.repo, .repo)]
  | .gitHubInstalledRepo => [(.installation, .gitHubInstallation)]
  | .billingLedgerEntry => [(.account, .account), (.bucket, .creditBucket)]

/-- The key columns of a store. Two stores have some that are no foreign keys. -/
def Store.keys : Store → List Key
  | .boardConsent => [.repo]
  | .pairRequest => [.account, .repo]
  | store => store.foreignKeys.map Prod.fst

structure Row where
  store : Store
  columns : Dict
  deriving DecidableEq

abbrev Db := List Row

def Row.text (r : Row) (column : String) : Option String :=
  match Dict.get r.columns column with
  | .str text => some text
  | _ => none

def Row.id (r : Row) : Option String :=
  r.text "id"

def Row.key (r : Row) (k : Key) : Option String :=
  if k ∈ r.store.keys then r.text k.column else none

def Row.set (r : Row) (column : String) (value : Value) : Row :=
  { r with columns := (column, value) :: r.columns.filter fun item => item.1 ≠ column }

theorem lookup_dropped {items : Dict} {column other : String} (h : other ≠ column) :
    (items.filter fun item => item.1 ≠ column).lookup other = items.lookup other := by
  induction items with
  | nil => rfl
  | cons item rest ih =>
      obtain ⟨key, value⟩ := item
      rw [lookup_cons_if]
      by_cases hKey : key = column
      · have hOther : other ≠ key := fun hSame => h (hSame.trans hKey)
        rw [List.filter_cons_of_neg (by simpa using hKey), ih, if_neg hOther]
      · rw [List.filter_cons_of_pos (by simpa using hKey), lookup_cons_if, ih]

theorem get_set (r : Row) (column other : String) (value : Value) :
    Dict.get (r.set column value).columns other = if other = column then value else Dict.get r.columns other := by
  rw [Dict.get, Row.set, lookup_cons_if]
  by_cases h : other = column
  · simp [h]
  · rw [if_neg h, if_neg h, lookup_dropped h, Dict.get]

/-- A foreign key of the row names the other. -/
def Refers (r t : Row) : Prop :=
  ∃ reference ∈ r.store.foreignKeys, t.store = reference.2 ∧ r.key reference.1 ≠ none ∧ r.key reference.1 = t.id

instance (r t : Row) : Decidable (Refers r t) :=
  inferInstanceAs (Decidable (∃ reference ∈ r.store.foreignKeys, t.store = reference.2 ∧
    r.key reference.1 ≠ none ∧ r.key reference.1 = t.id))

/-- Every foreign key names a row. -/
def Resolved (db : Db) : Prop :=
  ∀ r ∈ db, ∀ reference ∈ r.store.foreignKeys, r.key reference.1 ≠ none →
    ∃ t ∈ db, t.store = reference.2 ∧ r.key reference.1 = t.id

/-- The ways a deletion does not come through. -/
inductive Failure where
  /-- `StripeError`. -/
  | stripe
  /-- `IntegrityError`. -/
  | integrity
  deriving DecidableEq

abbrev Erased (α : Type) := Except Failure α

/-- `db.execute(delete(..))`. -/
def Db.delete (db : Db) (goes : Row → Bool) : Erased Db :=
  match Tables.delete Refers goes db with
  | some kept => .ok kept
  | none => .error .integrity

/-- `model.account_id == account_id`. -/
def ofAccount (accountId : String) (store : Store) (r : Row) : Bool :=
  r.store = store && r.key .account = some accountId

/-- `model.column.in_(ids)`. -/
def isIn (store : Store) (k : Key) (ids : List String) (r : Row) : Bool :=
  r.store = store && (r.key k).any (· ∈ ids)

/-- `select(model.id).where(model.account_id == account_id)`. -/
def Db.ids (db : Db) (store : Store) (accountId : String) : List String :=
  (db.filter (ofAccount accountId store)).filterMap Row.id

/-- One deletion after the other. -/
def Db.deleteEach (db : Db) (conditions : List (Row → Bool)) : Erased Db :=
  conditions.foldlM Db.delete db

/-- `_ACCOUNT_ID_MODELS_BEFORE_TOKEN`. -/
def accountIdModelsBeforeToken : List Store :=
  [.configChangeRequest, .channelRoute, .tgPairCode, .pairRequest, .daemon]

/-- `_ACCOUNT_ID_MODELS_AFTER_TOKEN`. -/
def accountIdModelsAfterToken : List Store :=
  [.runnerWakeRequest, .runStopRequest]

/-- `_cancel_live_subscriptions`: whether there was one. -/
def cancelLiveSubscriptions (cancel : String → Erased Unit) (db : Db) (accountId : String) : Erased Bool := do
  let live := db.filter fun r => ofAccount accountId .subscription r && Dict.get r.columns "status" ≠ .str "canceled"
  live.forM fun r => cancel ((r.text "stripe_subscription_id").getD "")
  .ok (!live.isEmpty)

/-- The content of the repos, where there are any. -/
def Db.deleteRepoContent (db : Db) (repoIds : List String) : Erased Db :=
  if repoIds.isEmpty then .ok db
  else db.deleteEach [isIn .activityRecord .repo repoIds, isIn .event .repo repoIds]

def Db.deleteInstalledRepos (db : Db) (installationIds : List String) : Erased Db :=
  if installationIds.isEmpty then .ok db
  else db.delete (isIn .gitHubInstalledRepo .installation installationIds)

/-- `update(BillingLedgerEntry).where(..).values(bucket_id=None)`. -/
def Row.release (bucketIds : List String) (r : Row) : Row :=
  if isIn .billingLedgerEntry .bucket bucketIds r then r.set "bucket_id" .null else r

def Db.deleteBuckets (db : Db) (accountId : String) (bucketIds : List String) : Erased Db :=
  if bucketIds.isEmpty then .ok db
  else Db.delete (db.map (Row.release bucketIds)) (ofAccount accountId .creditBucket)

/-- `account_id.split("_", 1)[-1][:24]` after `_GITHUB_ID_TOMBSTONE_PREFIX`. -/
def tombstone (accountId : String) : String :=
  let suffix := if '_' ∈ accountId.toList then (accountId.toList.dropWhile (· ≠ '_')).drop 1 else accountId.toList
  "deleted-" ++ String.ofList (suffix.take 24)

/-- What the account row is set to. -/
def Row.anonymize (accountId now : String) (r : Row) : Row :=
  if r.store = .account && r.id = some accountId then
    ((((((((r.set "github_id" (.str (tombstone accountId))).set "github_login" (.str "")).set "email" .null).set
      "surface_json" (.str "[]")).set "surface_updated_at" (.str now)).set "tier" (.str "free")).set
      "stripe_customer_id" .null).set "deleted_at" (.str now))
  else r

/-- The flush of the account row: `github_id` is unique. -/
def Db.anonymize (db : Db) (accountId now : String) : Erased Db :=
  if db.any fun r => r.store = .account && r.id ≠ some accountId && r.text "github_id" = some (tombstone accountId) then
    .error .integrity
  else .ok (db.map (Row.anonymize accountId now))

/-- `RetainedStore`. -/
structure RetainedStore where
  store : String
  reason : String
  deriving DecidableEq

/-- `DeletionReceipt`. -/
structure DeletionReceipt where
  accountId : String
  deletedAt : String
  stripeSubscriptionCanceled : Bool
  retained : List RetainedStore
  deriving DecidableEq

/-- `_LEDGER_RETENTION_REASON`. -/
def ledgerRetentionReason : String :=
  "the append-only billing ledger (invoices, subscription and refund " ++
  "events) is retained for accounting purposes; its statutory retention " ++
  "period is to be confirmed with counsel (see the Art 30 record, " ++
  "§A “Billing and payment”). Stripe separately retains its own " ++
  "copy of your customer and payment records under Stripe's own " ++
  "retention policy."

/-- `delete_account`. -/
def deleteAccount (cancel : String → Erased Unit) (now : String) (db : Db) (accountId : String) :
    Erased (Db × DeletionReceipt) := do
  let canceled ← cancelLiveSubscriptions cancel db accountId
  let db ← db.deleteRepoContent (db.ids .repo accountId)
  let db ← db.deleteEach (accountIdModelsBeforeToken.map (ofAccount accountId))
  let db ← db.delete (ofAccount accountId .token)
  let db ← db.deleteEach (accountIdModelsAfterToken.map (ofAccount accountId))
  let db ← db.deleteInstalledRepos (db.ids .gitHubInstallation accountId)
  let db ← db.delete (ofAccount accountId .gitHubInstallation)
  let db ← db.deleteBuckets accountId (db.ids .creditBucket accountId)
  let db ← db.delete (ofAccount accountId .subscription)
  let db ← db.delete (ofAccount accountId .termsAcceptance)
  let db ← db.delete (ofAccount accountId .repo)
  let db ← db.anonymize accountId now
  .ok (db, ⟨accountId, now, canceled, [⟨"billing_ledger", ledgerRetentionReason⟩]⟩)

end Brnrd.Erasure

/-! The account deletion as two sweeps with the ledger's release between them. -/
namespace Brnrd.Erasure

open Tables

variable {db kept : Db} {accountId now : String} {conditions : List (Row → Bool)} {store : Store}

variable {goes : Row → Bool}

theorem delete_eq_ok_iff : db.delete goes = .ok kept ↔ Tables.delete Refers goes db = some kept := by
  unfold Db.delete
  cases Tables.delete Refers goes db <;> simp

theorem deleteEach_eq_ok_iff : db.deleteEach conditions = .ok kept ↔ sweep Refers conditions db = some kept := by
  induction conditions generalizing db with
  | nil => simp [Db.deleteEach, sweep, pure, Except.pure]
  | cons goes rest ih =>
      simp only [Db.deleteEach, sweep, List.foldlM_cons, Fallible.bind_eq_ok, Option.bind_eq_bind, Option.bind_eq_some_iff,
        delete_eq_ok_iff]
      exact exists_congr fun middle => and_congr_right fun _ => ih

theorem deleteEach_one : db.deleteEach [goes] = db.delete goes := by
  simp [Db.deleteEach]

theorem deleteEach_append {more : List (Row → Bool)} :
    db.deleteEach (conditions ++ more) = db.deleteEach conditions >>= fun db => db.deleteEach more :=
  List.foldlM_append

/-- What deletions leave. -/
theorem deleteEach_rows (h : db.deleteEach conditions = .ok kept) : kept = db.filter fun r => !swept conditions r := by
  induction conditions generalizing db with
  | nil =>
      obtain rfl : db = kept := Except.ok.inj h
      simp [swept]
  | cons goes rest ih =>
      obtain ⟨middle, hFirst, hRest⟩ := Fallible.peel h
      obtain ⟨-, rfl⟩ := delete_eq_some_iff.mp (delete_eq_ok_iff.mp hFirst)
      rw [ih hRest, List.filter_filter]
      exact List.filter_congr fun r _ => by simp [swept, Bool.and_comm]

/-- A deletion that takes nothing. -/
theorem delete_nothing (h : ∀ r ∈ db, goes r = false) : db.delete goes = .ok db := by
  refine delete_eq_ok_iff.mpr (delete_eq_some_iff.mpr ⟨?_, ?_⟩)
  · rintro ⟨r, -, -, t, ht, hGoes, -⟩
    exact absurd hGoes (by simp [h t ht])
  · exact (List.filter_eq_self.mpr fun r hr => by simp [h r hr]).symm

theorem isIn_nil {k : Key} {r : Row} : isIn store k [] r = false := by
  simp [isIn]

theorem deleteRepoContent_eq (repoIds : List String) :
    db.deleteRepoContent repoIds = db.deleteEach [isIn .activityRecord .repo repoIds, isIn .event .repo repoIds] := by
  unfold Db.deleteRepoContent
  split
  · next hNone =>
      obtain rfl := List.isEmpty_iff.mp hNone
      simp [Db.deleteEach, delete_nothing fun _ _ => isIn_nil, Fallible.ok_bind]
  · rfl

theorem deleteInstalledRepos_eq (installationIds : List String) :
    db.deleteInstalledRepos installationIds = db.delete (isIn .gitHubInstalledRepo .installation installationIds) := by
  unfold Db.deleteInstalledRepos
  split
  · next hNone =>
      obtain rfl := List.isEmpty_iff.mp hNone
      exact (delete_nothing fun _ _ => isIn_nil).symm
  · rfl

theorem release_nil {r : Row} : r.release [] = r := by
  simp [Row.release, isIn_nil]

/-- The stores whose rows have an id. -/
def Store.hasId : Store → Bool
  | .boardConsent | .loomPart | .event => false
  | _ => true

/-- The ids are primary keys. -/
structure Keyed (db : Db) : Prop where
  present : ∀ r ∈ db, r.store.hasId = true → r.id ≠ none
  unique : ∀ r ∈ db, ∀ t ∈ db, r.store = t.store → r.id ≠ none → r.id = t.id → r = t

theorem mem_ids {id : String} : id ∈ db.ids store accountId ↔ ∃ r ∈ db, ofAccount accountId store r = true ∧ r.id = some id := by
  simp [Db.ids, and_assoc]

theorem ids_filter {keep : Row → Bool} (h : ∀ r, r.store = store → keep r = true) :
    Db.ids (db.filter keep) store accountId = db.ids store accountId := by
  rw [Db.ids, List.filter_filter, Db.ids]
  refine congrArg _ (List.filter_congr fun r _ => ?_)
  by_cases hStore : r.store = store
  · simp [h r hStore]
  · simp [ofAccount, hStore]

theorem deleteBuckets_eq (hPresent : ∀ r ∈ db, r.store = .creditBucket → r.id ≠ none) :
    db.deleteBuckets accountId (db.ids .creditBucket accountId) =
      Db.delete (db.map (Row.release (db.ids .creditBucket accountId))) (ofAccount accountId .creditBucket) := by
  unfold Db.deleteBuckets
  split
  · next hNone =>
      have hIds : db.ids .creditBucket accountId = [] := List.isEmpty_iff.mp hNone
      have hRows : db.map (Row.release []) = db := (List.map_congr_left fun r _ => release_nil).trans (List.map_id _)
      rw [hIds, hRows]
      refine (delete_nothing fun r hr => ?_).symm
      by_contra hGoes
      have hGoes : ofAccount accountId .creditBucket r = true := by simpa using hGoes
      have hStore : r.store = .creditBucket := by simp only [ofAccount, Bool.and_eq_true, decide_eq_true_eq] at hGoes; exact hGoes.1
      obtain ⟨id, hId⟩ := Option.ne_none_iff_exists'.mp (hPresent r hr hStore)
      have hMem : id ∈ db.ids .creditBucket accountId := mem_ids.mpr ⟨r, hr, hGoes, hId⟩
      simp [hIds] at hMem
  · rfl

/-- What goes before the ledger lets go of the buckets, up to the installations. -/
def sweepFirst (db : Db) (accountId : String) : List (Row → Bool) :=
  [isIn .activityRecord .repo (db.ids .repo accountId), isIn .event .repo (db.ids .repo accountId)] ++
    (accountIdModelsBeforeToken.map (ofAccount accountId) ++ ([ofAccount accountId .token] ++
      accountIdModelsAfterToken.map (ofAccount accountId)))

def sweepInstallations (db : Db) (accountId : String) : List (Row → Bool) :=
  [isIn .gitHubInstalledRepo .installation (db.ids .gitHubInstallation accountId), ofAccount accountId .gitHubInstallation]

def sweepBefore (db : Db) (accountId : String) : List (Row → Bool) :=
  sweepFirst db accountId ++ sweepInstallations db accountId

/-- What goes after it. -/
def sweepAfter (accountId : String) : List (Row → Bool) :=
  [.creditBucket, .subscription, .termsAcceptance, .repo].map (ofAccount accountId)

theorem sweepFirst_keeps (hStore : store = .gitHubInstallation ∨ store = .creditBucket) {r : Row} (h : r.store = store) :
    swept (sweepFirst db accountId) r = false := by
  subst h
  rcases hStore with hStore | hStore <;>
    simp [swept, sweepFirst, accountIdModelsBeforeToken, accountIdModelsAfterToken, isIn, ofAccount, hStore]

theorem sweepBefore_keeps {r : Row} (h : r.store = .creditBucket) : swept (sweepBefore db accountId) r = false := by
  have hFirst : swept (sweepFirst db accountId) r = false := sweepFirst_keeps (Or.inr rfl) h
  simp only [swept, List.any_eq_false] at hFirst ⊢
  simpa [sweepBefore, sweepInstallations, isIn, ofAccount, h, or_imp, forall_and] using hFirst

/-- The deletion in two sweeps. -/
theorem deleteAccount_eq (cancel : String → Erased Unit) (hKeyed : Keyed db) : deleteAccount cancel now db accountId = (do
    let canceled ← cancelLiveSubscriptions cancel db accountId
    let left ← db.deleteEach (sweepBefore db accountId)
    let left ← Db.deleteEach (left.map (Row.release (db.ids .creditBucket accountId))) (sweepAfter accountId)
    let left ← left.anonymize accountId now
    .ok (left, ⟨accountId, now, canceled, [⟨"billing_ledger", ledgerRetentionReason⟩]⟩)) := by
  refine Fallible.bind_congr_ok fun canceled _ => ?_
  have hFirst : db.deleteEach (sweepFirst db accountId) = (do
      let db ← db.deleteRepoContent (db.ids .repo accountId)
      let db ← db.deleteEach (accountIdModelsBeforeToken.map (ofAccount accountId))
      let db ← db.delete (ofAccount accountId .token)
      db.deleteEach (accountIdModelsAfterToken.map (ofAccount accountId))) := by
    simp only [sweepFirst, deleteEach_append, deleteRepoContent_eq, deleteEach_one]
  rw [sweepBefore, deleteEach_append, hFirst]
  simp only [bind_assoc]
  refine Fallible.bind_congr_ok fun one hOne => Fallible.bind_congr_ok fun two hTwo =>
    Fallible.bind_congr_ok fun three hThree => Fallible.bind_congr_ok fun four hFour => ?_
  have hRows : four = db.filter fun r => !swept (sweepFirst db accountId) r := by
    refine deleteEach_rows (hFirst.trans ?_)
    simp only [hOne, hTwo, hThree, hFour, Fallible.ok_bind]
  have hInstallations : four.ids .gitHubInstallation accountId = db.ids .gitHubInstallation accountId := by
    rw [hRows]
    exact ids_filter fun r hStore => by simp [sweepFirst_keeps (Or.inl rfl) hStore]
  have hSecond : four.deleteEach (sweepInstallations db accountId) = (do
      let db ← four.deleteInstalledRepos (four.ids .gitHubInstallation accountId)
      db.delete (ofAccount accountId .gitHubInstallation)) := by
    rw [deleteInstalledRepos_eq, hInstallations]
    simp [Db.deleteEach, sweepInstallations]
  rw [hSecond]
  simp only [bind_assoc]
  refine Fallible.bind_congr_ok fun five hFive => Fallible.bind_congr_ok fun six hSix => ?_
  have hBefore : db.deleteEach (sweepBefore db accountId) = .ok six := by
    rw [sweepBefore, deleteEach_append, hFirst]
    simp only [hOne, hTwo, hThree, hFour, hSecond, hFive, hSix, Fallible.ok_bind]
  have hLeft := deleteEach_rows hBefore
  have hBuckets : six.ids .creditBucket accountId = db.ids .creditBucket accountId := by
    rw [hLeft]
    exact ids_filter fun r hStore => by simp [sweepBefore_keeps hStore]
  have hPresent : ∀ r ∈ six, r.store = .creditBucket → r.id ≠ none := by
    intro r hr hStore
    rw [hLeft] at hr
    exact hKeyed.present r (List.mem_of_mem_filter hr) (by rw [hStore]; rfl)
  rw [deleteBuckets_eq hPresent, hBuckets]
  simp [Db.deleteEach, sweepAfter]

end Brnrd.Erasure
