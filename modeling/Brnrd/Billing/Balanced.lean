import Brnrd.Billing.Cases
import Mathlib.Algebra.BigOperators.Group.List.Basic
import Mathlib.Algebra.Order.Group.Int

/-! The wallet balances over any sequence of events: what is left of a bucket is
what the ledger enters for it. What refunds take back is what was refunded
where no refund of a payment comes on top of another. -/
namespace Brnrd.Billing

open Python

/-- What the ledger enters for a bucket. -/
def entered (ledger : List LedgerEntry) (bucketId : String) : Int :=
  ((ledger.filter fun e => e.bucketId = some bucketId).map LedgerEntry.delta).sum

theorem entered_append (ledger entries : List LedgerEntry) (bucketId : String) :
    entered (ledger ++ entries) bucketId = entered ledger bucketId + entered entries bucketId := by
  simp [entered]

theorem entered_eq_zero {ledger : List LedgerEntry} {bucketId : String} (h : ∀ e ∈ ledger, e.bucketId ≠ some bucketId) :
    entered ledger bucketId = 0 := by
  have hNone : (ledger.filter fun e => e.bucketId = some bucketId) = [] := by simpa using h
  simp [entered, hNone]

/-- Two live buckets of the monthly allowance of one account. -/
def TwoMonthly (b b' : CreditBucket) : Prop :=
  b.source = .subscriberMonthly ∧ b'.source = .subscriberMonthly ∧ b.accountId = b'.accountId ∧
    0 < b.remaining ∧ 0 < b'.remaining

structure Balanced (db : Db) : Prop where
  bounded : ∀ b ∈ db.buckets, 0 ≤ b.remaining ∧ b.remaining ≤ b.granted
  entered : ∀ b ∈ db.buckets, b.remaining = entered db.ledger b.id
  ids : (db.buckets.map CreditBucket.id).Nodup
  once : db.buckets.Pairwise fun b b' => b.stripeRef ≠ none → b.stripeRef ≠ b'.stripeRef
  monthly : db.buckets.Pairwise fun b b' => ¬ TwoMonthly b b'
  known : ∀ e ∈ db.ledger, ∀ id, e.bucketId = some id → ∃ b ∈ db.buckets, b.id = id

variable {c : Calls} {settings : Settings} {db db' : Db} {obj : Dict} {bucketId disposition : String}

theorem Balanced.congr (h : Balanced db) (hBuckets : db'.buckets = db.buckets) (hLedger : db'.ledger = db.ledger) :
    Balanced db' :=
  ⟨hBuckets ▸ h.bounded, hLedger.symm ▸ hBuckets ▸ h.entered, hBuckets ▸ h.ids, hBuckets ▸ h.once, hBuckets ▸ h.monthly,
    hLedger.symm ▸ hBuckets.symm ▸ h.known⟩

variable {ref stripeId accountId : String}

theorem Balanced.enter (h : Balanced db) {entries : List LedgerEntry} (hUnnamed : Unnamed accountId entries) :
    Balanced (db.enter entries) where
  bounded := h.bounded
  entered := by
    intro b hb
    have hNone : Billing.entered entries b.id = 0 :=
      entered_eq_zero fun e he => by simp [(hUnnamed e he).1]
    rw [Db.enter, entered_append, hNone, add_zero]
    exact h.entered b hb
  ids := h.ids
  once := h.once
  monthly := h.monthly
  known := by
    intro e he id hId
    rcases List.mem_append.mp he with he | he
    · exact h.known e he id hId
    · exact absurd (hId.symm.trans (hUnnamed e he).1) (by simp)

/-- Buckets that keep their ids, owners, sources and references, and never gain. -/
theorem Balanced.drained (h : Balanced db) {change : CreditBucket → CreditBucket} {entries : List LedgerEntry}
    (hSame : ∀ b, (change b).id = b.id ∧ (change b).accountId = b.accountId ∧ (change b).source = b.source ∧
      (change b).stripeRef = b.stripeRef ∧ (change b).granted = b.granted)
    (hLess : ∀ b ∈ db.buckets, 0 ≤ (change b).remaining ∧ (change b).remaining ≤ b.remaining)
    (hEntered : ∀ b ∈ db.buckets, (change b).remaining = b.remaining + Billing.entered entries b.id)
    (hKnown : ∀ e ∈ entries, ∀ id, e.bucketId = some id → ∃ b ∈ db.buckets, b.id = id) :
    Balanced { db with buckets := db.buckets.map change, ledger := db.ledger ++ entries } where
  bounded := by
    intro b hb
    obtain ⟨old, hOld, rfl⟩ := List.mem_map.mp hb
    rw [(hSame old).2.2.2.2]
    exact ⟨(hLess old hOld).1, (hLess old hOld).2.trans (h.bounded old hOld).2⟩
  entered := by
    intro b hb
    obtain ⟨old, hOld, rfl⟩ := List.mem_map.mp hb
    rw [entered_append, (hSame old).1, ← h.entered old hOld]
    exact hEntered old hOld
  ids := by
    have hIds : (db.buckets.map change).map CreditBucket.id = db.buckets.map CreditBucket.id := by
      rw [List.map_map]
      exact List.map_congr_left fun b _ => (hSame b).1
    simpa only [hIds] using h.ids
  once := by
    refine List.pairwise_map.mpr (h.once.imp fun {b b'} hOnce => ?_)
    rw [(hSame b).2.2.2.1, (hSame b').2.2.2.1]
    exact hOnce
  monthly := by
    refine List.pairwise_map.mpr (h.monthly.imp_of_mem fun {b b'} hb hb' hTwo => ?_)
    rintro ⟨hSource, hSource', hAccount, hLive, hLive'⟩
    rw [(hSame b).2.2.1] at hSource
    rw [(hSame b').2.2.1] at hSource'
    rw [(hSame b).2.1, (hSame b').2.1] at hAccount
    exact hTwo ⟨hSource, hSource', hAccount, hLive.trans_le (hLess b hb).2, hLive'.trans_le (hLess b' hb').2⟩
  known := by
    intro e he id hId
    have hOld : ∃ b ∈ db.buckets, b.id = id := by
      rcases List.mem_append.mp he with he | he
      · exact h.known e he id hId
      · exact hKnown e he id hId
    obtain ⟨b, hb, hbId⟩ := hOld
    exact ⟨change b, List.mem_map_of_mem hb, (hSame b).1.trans hbId⟩

variable {b bucket : CreditBucket}

/-- With distinct ids, the entries made for some of the buckets enter for each
what was made for it. -/
theorem entered_map {buckets : List CreditBucket} (hIds : (buckets.map CreditBucket.id).Nodup) (keep : CreditBucket → Bool)
    (entry : CreditBucket → LedgerEntry) (hEntry : ∀ b, (entry b).bucketId = some b.id) (hb : b ∈ buckets) :
    entered ((buckets.filter keep).map entry) b.id = if keep b then (entry b).delta else 0 := by
  induction buckets with
  | nil => cases hb
  | cons first rest ih =>
      obtain ⟨hFresh, hRest⟩ := List.nodup_cons.mp hIds
      have hSplit : entered (((first :: rest).filter keep).map entry) b.id =
          (if keep first ∧ first.id = b.id then (entry first).delta else 0) +
            entered ((rest.filter keep).map entry) b.id := by
        by_cases hKeep : keep first
        · by_cases hId : first.id = b.id <;> simp [entered, hKeep, hId, hEntry]
        · simp [entered, hKeep]
      rw [hSplit]
      rcases List.mem_cons.mp hb with rfl | hb
      · have hOthers : entered ((rest.filter keep).map entry) b.id = 0 := by
          refine entered_eq_zero fun e he => ?_
          obtain ⟨other, hOther, rfl⟩ := List.mem_map.mp he
          rw [hEntry]
          exact fun hSame => hFresh (Option.some.inj hSame ▸ List.mem_map_of_mem (List.mem_of_mem_filter hOther))
        simp [hOthers]
      · have hOther : first.id ≠ b.id := fun hSame => hFresh (hSame ▸ List.mem_map_of_mem hb)
        rw [ih hRest hb, if_neg (fun hBoth => hOther hBoth.2), zero_add]

theorem Balanced.expire (h : Balanced db) (accountId : String) (source : Source) (op : String) :
    Balanced (expireBuckets db accountId source op) := by
  refine h.drained (fun b => by split <;> simp) (fun b hb => ?_) (fun b hb => ?_) fun e he id hId => ?_
  · split
    · exact ⟨le_rfl, (h.bounded b hb).1⟩
    · exact ⟨(h.bounded b hb).1, le_rfl⟩
  · rw [entered_map h.ids (isLive accountId source) _ (fun _ => rfl) hb]
    split <;> simp
  · obtain ⟨b, hb, rfl⟩ := List.mem_map.mp he
    exact ⟨b, List.mem_of_mem_filter hb, Option.some.inj hId⟩

/-- After an expiry the account has no live bucket of the source. -/
theorem expire_none_live {op : String} {source : Source} (hb : b ∈ (expireBuckets db accountId source op).buckets)
    (hAccount : b.accountId = accountId) (hSource : b.source = source) : ¬ 0 < b.remaining := by
  obtain ⟨old, -, rfl⟩ := List.mem_map.mp hb
  cases hLive : isLive accountId source old with
  | true => simp
  | false =>
      rw [hLive] at hAccount hSource
      simpa [isLive, show old.accountId = accountId from hAccount, show old.source = source from hSource] using hLive

variable {e : LedgerEntry}

theorem Balanced.grant (h : Balanced db) (hGranted : Granted db b e db') (hCredits : 0 ≤ b.granted)
    (hMonthly : b.source = .subscriberMonthly → ∀ other ∈ db.buckets, other.accountId = b.accountId → other.source = .subscriberMonthly → ¬ 0 < other.remaining) :
    Balanced db' := by
  obtain ⟨rfl, hFull, hNamed, hDelta, hNewId, hNewRef⟩ := hGranted
  have hAlone : Billing.entered [e] b.id = e.delta := by simp [Billing.entered, hNamed]
  refine ⟨?_, ?_, ?_, ?_, ?_, ?_⟩
  · intro other hOther
    rcases List.mem_append.mp hOther with hOther | hOther
    · exact h.bounded other hOther
    · obtain rfl := List.mem_singleton.mp hOther
      exact ⟨hFull ▸ hCredits, hFull.le⟩
  · intro other hOther
    rw [entered_append]
    rcases List.mem_append.mp hOther with hOther | hOther
    · have hNone : Billing.entered [e] other.id = 0 := by
        refine entered_eq_zero fun entry hEntry => ?_
        rw [List.mem_singleton.mp hEntry, hNamed]
        exact fun hSame => hNewId other hOther (Option.some.inj hSame).symm
      rw [hNone, add_zero]
      exact h.entered other hOther
    · obtain rfl := List.mem_singleton.mp hOther
      have hNone : Billing.entered db.ledger other.id = 0 := by
        refine entered_eq_zero fun entry hEntry hSame => ?_
        obtain ⟨known, hKnown, hId⟩ := h.known entry hEntry _ hSame
        exact hNewId known hKnown hId
      rw [hNone, zero_add, hAlone, hDelta, hFull]
  · rw [List.map_append, List.map_singleton, List.nodup_append]
    refine ⟨h.ids, List.nodup_singleton _, ?_⟩
    intro id hId other hOther hSame
    obtain ⟨known, hKnown, rfl⟩ := List.mem_map.mp hId
    exact hNewId known hKnown (hSame.trans (List.mem_singleton.mp hOther))
  · refine List.pairwise_append.mpr ⟨h.once, List.pairwise_singleton _ _, fun other hOther new hNew hSome hSame => ?_⟩
    obtain rfl := List.mem_singleton.mp hNew
    exact hNewRef other hOther (hSame ▸ hSome) hSame
  · refine List.pairwise_append.mpr ⟨h.monthly, List.pairwise_singleton _ _, fun other hOther new hNew hTwo => ?_⟩
    obtain rfl := List.mem_singleton.mp hNew
    exact hMonthly hTwo.2.1 other hOther hTwo.2.2.1 hTwo.1 hTwo.2.2.2.1
  · intro entry hEntry id hId
    rcases List.mem_append.mp hEntry with hEntry | hEntry
    · obtain ⟨known, hKnown, hSame⟩ := h.known entry hEntry id hId
      exact ⟨known, List.mem_append_left _ hKnown, hSame⟩
    · rw [List.mem_singleton.mp hEntry, hNamed] at hId
      exact ⟨b, by simp, Option.some.inj hId⟩

theorem bucket_some (h : db.bucket ref = .ok (some b)) : b ∈ db.buckets ∧ b.stripeRef = some ref := by
  have hOne : b ∈ db.buckets.filter fun b => b.stripeRef = some ref := oneOrNone_eq_ok h ▸ List.mem_singleton_self b
  simpa using List.mem_filter.mp hOne

theorem bucket_none (h : db.bucket ref = .ok none) : ∀ b ∈ db.buckets, b.stripeRef ≠ some ref := by
  have hNone : (db.buckets.filter fun b => b.stripeRef = some ref) = [] := oneOrNone_eq_ok h
  simpa using hNone

/-- The text a value that is truthy is looked up by. -/
def lookupText (c : Calls) (value : Value) : Option String :=
  if value.truthy then (c.column value).toOption else none

theorem granted_some {value : Value} (h : granted c db value = .ok (some b)) :
    b ∈ db.buckets ∧ b.stripeRef = lookupText c value ∧ lookupText c value ≠ none := by
  unfold granted at h
  split at h
  · next hTruthy =>
      obtain ⟨text, hText, h⟩ := Fallible.peel h
      obtain ⟨hMem, hRef⟩ := bucket_some h
      have hLookup : lookupText c value = some text := by rw [lookupText, if_pos hTruthy, hText]; rfl
      rw [hLookup]
      exact ⟨hMem, hRef, by simp⟩
  · cases h

theorem granted_none {value : Value} (h : granted c db value = .ok none) (hRef : lookupText c value = some ref) :
    ∀ b ∈ db.buckets, b.stripeRef ≠ some ref := by
  unfold granted at h
  unfold lookupText at hRef
  split at h
  · next hTruthy =>
      obtain ⟨text, hText, h⟩ := Fallible.peel h
      rw [if_pos hTruthy, hText] at hRef
      obtain rfl : text = ref := Option.some.inj hRef
      exact bucket_none h
  · next hFalsy =>
      rw [if_neg hFalsy] at hRef
      cases hRef

theorem claw_zero (db : Db) (bucketId : String) : db.claw bucketId 0 = db := by
  simp [Db.claw]

/-- A refund of an amount that is not negative, in one form. -/
theorem refund_rows {cents : Int} (hAmount : 0 ≤ min cents bucket.remaining)
    (h : db' = (if 0 < min cents bucket.remaining then db.claw bucket.id (min cents bucket.remaining) else db).append e) :
    db' = (db.claw bucket.id (min cents bucket.remaining)).append e := by
  rw [h]
  split
  · rfl
  · next hNot => rw [le_antisymm (not_lt.mp hNot) hAmount, claw_zero]

theorem Balanced.refund (h : Balanced db) (hBucket : bucket ∈ db.buckets) {cents : Int} (hCents : 0 ≤ cents)
    (hNamed : e.bucketId = some bucket.id) (hDelta : e.delta = -min cents bucket.remaining) :
    Balanced ((db.claw bucket.id (min cents bucket.remaining)).append e) := by
  have hOnly : ∀ b ∈ db.buckets, b.id = bucket.id → b = bucket := fun b hb hId =>
    List.inj_on_of_nodup_map h.ids hb hBucket hId
  have hAmount : 0 ≤ min cents bucket.remaining := le_min hCents (h.bounded bucket hBucket).1
  refine h.drained (fun b => by split <;> simp) (fun b hb => ?_) (fun b hb => ?_) fun entry hEntry id hId => ?_
  · split
    · next hId =>
        obtain rfl := hOnly b hb hId
        exact ⟨Int.sub_nonneg.mpr (min_le_right _ _), Int.sub_le_self _ hAmount⟩
    · exact ⟨(h.bounded b hb).1, le_rfl⟩
  · split
    · next hId =>
        have hAlone : Billing.entered [e] b.id = e.delta := by simp [Billing.entered, hNamed, hId]
        rw [hAlone, hDelta, sub_eq_add_neg]
    · next hId =>
        have hNone : Billing.entered [e] b.id = 0 := by
          refine entered_eq_zero fun entry hEntry => ?_
          rw [List.mem_singleton.mp hEntry, hNamed]
          exact fun hSame => hId (Option.some.inj hSame).symm
        rw [hNone, add_zero]
  · rw [List.mem_singleton.mp hEntry, hNamed] at hId
    exact ⟨bucket, hBucket, Option.some.inj hId⟩

theorem Attached.wallet (h : Attached db accountId db') : db'.buckets = db.buckets ∧ db'.ledger = db.ledger := by
  rcases h with rfl | ⟨id, rfl⟩ <;> exact ⟨rfl, rfl⟩

theorem Restated.wallet {status : Status} (h : Restated db stripeId status db') :
    db'.buckets = db.buckets ∧ db'.ledger = db.ledger := by
  obtain ⟨change, -, rfl⟩ := h
  exact ⟨rfl, rfl⟩

theorem Revived.wallet {row : Option Subscription} (h : Revived db stripeId accountId row db') :
    db'.buckets = db.buckets ∧ db'.ledger = db.ledger := by
  rcases h with rfl | ⟨-, restated, hRestated, rfl⟩
  · exact ⟨rfl, rfl⟩
  · exact hRestated.wallet

theorem Upserted.wallet {status : Status} {change : Subscription → Subscription}
    (h : Upserted db accountId stripeId status change db') :
    db'.buckets = db.buckets ∧ ∃ entries, Unnamed accountId entries ∧ db'.ledger = db.ledger ++ entries := by
  cases h with
  | started hFound hRow hEntry => exact ⟨rfl, _, hEntry, rfl⟩
  | updated hFound hChange hEntries => exact ⟨rfl, _, hEntries, rfl⟩

/-- What every handler but the refund's does keeps the balance. -/
theorem Handler.balanced (hCredits : 0 ≤ settings.subscriberMonthlyCredits) (h : Balanced db) {handler : Handler}
    (hOther : handler ≠ .chargeRefunded) (hRun : handler.run c bucketId settings db obj = .ok (db', disposition)) :
    Balanced db' := by
  cases handler with
  | checkoutCompleted =>
      rcases checkout_cases hRun with rfl | ⟨_, account, attached, -, -, hAttached, hDone⟩
      · exact h
      · have hBalanced : Balanced attached := h.congr hAttached.wallet.1 hAttached.wallet.2
        rcases hDone with rfl | ⟨b, e, hGranted, hPositive, -, -, hSource, -⟩
        · exact hBalanced
        · exact hBalanced.grant hGranted hPositive.le fun hMonthly => absurd (hSource.symm.trans hMonthly) (by decide)
  | subscriptionUpserted =>
      rcases upserted_cases hRun with rfl | ⟨_, account, _, _, _, _, written, attached, -, -, -, -, -, -, hWritten, hAttached, rfl⟩
      · exact h
      · obtain ⟨hBuckets, entries, hUnnamed, hLedger⟩ := hWritten.wallet
        exact (h.enter hUnnamed).congr (hAttached.wallet.1.trans hBuckets) (hAttached.wallet.2.trans hLedger)
  | subscriptionDeleted =>
      rcases deleted_cases hRun with ⟨rfl, -⟩ | ⟨_, row, closed, -, -, hClosed, hDone⟩
      · exact h
      · have hBalanced : Balanced closed := h.congr hClosed.wallet.1 hClosed.wallet.2
        rcases hDone with ⟨-, rfl⟩ | ⟨account, entries, -, hUnnamed, rfl⟩
        · exact hBalanced
        · exact ((hBalanced.enter hUnnamed).expire account.id .subscriberMonthly _).congr rfl rfl
  | invoicePaid =>
      rcases invoicePaid_cases hRun with rfl | ⟨_, _, _, account, revived, entries, -, -, -, -, -, -, hRevived, hUnnamed, hDone⟩
      · exact h
      · have hBalanced : Balanced revived := h.congr hRevived.wallet.1 hRevived.wallet.2
        have hExpired := (hBalanced.enter hUnnamed).expire account.id .subscriberMonthly "expire_subscriber_monthly"
        rcases hDone with rfl | ⟨b, e, hGranted, hAmount, hAccount, -, -, -⟩
        · exact hExpired
        · refine hExpired.grant hGranted (hAmount ▸ hCredits) fun _ other hOther hSame hMonthly => ?_
          exact expire_none_live hOther (hSame.trans hAccount) hMonthly
  | invoicePaymentFailed =>
      rcases paymentFailed_cases hRun with rfl | ⟨_, _, row, failed, entries, -, -, -, -, hFailed, hEntries, rfl⟩
      · exact h
      · have hBalanced : Balanced failed := by
          rcases hFailed with rfl | ⟨-, hRestated⟩
          · exact h
          · exact h.congr hRestated.wallet.1 hRestated.wallet.2
        rcases hEntries with ⟨-, rfl⟩ | ⟨account, -, hUnnamed⟩
        · exact (Db.enter_nil failed).symm ▸ hBalanced
        · exact hBalanced.enter hUnnamed
  | chargeRefunded => exact absurd rfl hOther

end Brnrd.Billing
