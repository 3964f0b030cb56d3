import Brnrd.Billing.Stripe

/-! What each handler can do to the rows, said once. -/
namespace Brnrd.Billing

open Python Project

variable {c : Calls} {settings : Settings} {db db' : Db} {obj event : Dict} {bucketId disposition : String}

/-- A delivery that is dropped: its event is recorded. -/
def Repeated (c : Calls) (w : World) (d : Delivery) : Prop :=
  ∃ key, eventKey c d.event = .ok key ∧ isRecorded w.db key = true

/-- The event touches an erased account. -/
def Stopped (c : Calls) (db : Db) (event : Dict) : Prop :=
  ∃ obj touched, eventObject event = .ok obj ∧ accountsTouched c db obj = .ok touched ∧ ∃ a ∈ touched, a.deletedAt ≠ none

theorem not_repeated {w : World} {d : Delivery} {key : Option String} (hKey : eventKey c d.event = .ok key)
    (hNew : isRecorded w.db key = false) : ¬ Repeated c w d := by
  rintro ⟨key', hKey', hOld⟩
  obtain rfl := Fallible.same hKey hKey'
  exact absurd hOld (by simp [hNew])

theorem not_stopped {touched : List Account} (hObj : eventObject event = .ok obj)
    (hTouched : accountsTouched c db obj = .ok touched) (hAlive : ∀ a ∈ touched, a.deletedAt = none) :
    ¬ Stopped c db event := by
  rintro ⟨obj', touched', hObj', hTouched', a, ha, hDeleted⟩
  obtain rfl := Fallible.same hObj hObj'
  obtain rfl := Fallible.same hTouched hTouched'
  exact hDeleted (hAlive a ha)

/-- An event of a type that nothing handles, one that touches an erased account,
or one that a handler takes. -/
theorem handle_cases (h : handleStripeEvent c bucketId settings db event = .ok (db', disposition)) :
    eventHandler event = .ok none ∧ db' = db ∨
    ∃ handler obj touched, eventHandler event = .ok (some handler) ∧ eventObject event = .ok obj ∧
      accountsTouched c db obj = .ok touched ∧
      ((∃ a ∈ touched, a.deletedAt ≠ none) ∧ db' = db ∨
        (∀ a ∈ touched, a.deletedAt = none) ∧ handler.run c bucketId settings db obj = .ok (db', disposition)) := by
  obtain ⟨handler, hHandler, h⟩ := Fallible.peel h
  cases handler with
  | none =>
      obtain ⟨rfl, -⟩ := Fallible.pair h
      exact .inl ⟨hHandler, rfl⟩
  | some handler =>
      obtain ⟨obj, hObj, h⟩ := Fallible.peel h
      obtain ⟨touched, hTouched, h⟩ := Fallible.peel h
      refine Or.inr ⟨handler, obj, touched, hHandler, hObj, hTouched, ?_⟩
      split at h
      · next hErased =>
          obtain ⟨rfl, -⟩ := Fallible.pair h
          obtain ⟨a, ha, hDeleted⟩ := List.any_eq_true.mp hErased
          exact .inl ⟨⟨a, ha, Option.isSome_iff_ne_none.mp hDeleted⟩, rfl⟩
      · next hAlive =>
          refine Or.inr ⟨fun a ha => ?_, h⟩
          by_contra hDeleted
          exact hAlive (List.any_eq_true.mpr ⟨a, ha, Option.isSome_iff_ne_none.mpr hDeleted⟩)

variable {stripeId accountId : String}

theorem account_id {a : Account} (h : db.account accountId = some a) : a.id = accountId := by
  simpa using List.find?_some h

theorem account_none (h : db.account accountId = none) : ∀ a ∈ db.accounts, a.id ≠ accountId := by
  simpa [Db.account] using h

/-- The row of an id is the only one. -/
theorem subscription_only {row s : Subscription} (h : db.subscription stripeId = .ok (some row)) (hs : s ∈ db.subscriptions)
    (hId : s.stripeSubscriptionId = stripeId) : s = row := by
  have hFound : s ∈ (some row).toList := by
    rw [← oneOrNone_eq_ok h]
    exact List.mem_filter.mpr ⟨hs, decide_eq_true hId⟩
  simpa using hFound

theorem subscription_mem {row : Subscription} (h : db.subscription stripeId = .ok (some row)) :
    row ∈ db.subscriptions ∧ row.stripeSubscriptionId = stripeId := by
  have hFound : row ∈ db.subscriptions.filter fun s => s.stripeSubscriptionId = stripeId :=
    oneOrNone_eq_ok h ▸ List.mem_singleton_self row
  simpa using List.mem_filter.mp hFound

theorem subscription_none (h : db.subscription stripeId = .ok none) :
    ∀ s ∈ db.subscriptions, s.stripeSubscriptionId ≠ stripeId := by
  have hNone : (db.subscriptions.filter fun s => s.stripeSubscriptionId = stripeId) = [] := oneOrNone_eq_ok h
  simpa using hNone

theorem touched_mem {touched : List Account} (h : accountsTouched c db obj = .ok touched) {a : Account} (ha : a ∈ touched) :
    a ∈ db.accounts := by
  obtain ⟨metadata, -, h⟩ := Fallible.peel h
  obtain ⟨named, -, h⟩ := Fallible.peel h
  obtain ⟨invoiced, -, h⟩ := Fallible.peel h
  obtain rfl := Except.ok.inj h
  obtain ⟨id, -, hFound⟩ := List.mem_filterMap.mp ha
  exact List.mem_of_find?_eq_some hFound

theorem accountForEvent_mem {metadata : Dict} {customer : Value} {a : Account}
    (h : accountForEvent c db metadata customer = .ok (some a)) : a ∈ db.accounts := by
  obtain ⟨named, hNamed, h⟩ := Fallible.peel h
  cases named with
  | some account =>
      obtain rfl := Option.some.inj (Except.ok.inj h)
      unfold namedAccount at hNamed
      split at hNamed
      · obtain ⟨id, -, hFound⟩ := Fallible.map_eq_ok.mp hNamed
        exact List.mem_of_find?_eq_some hFound
      · cases hNamed
  | none =>
      simp only at h
      split at h
      · obtain ⟨id, -, h⟩ := Fallible.peel h
        have hFound : a ∈ db.customers id := oneOrNone_eq_ok h ▸ List.mem_singleton_self a
        exact List.mem_of_mem_filter hFound
      · cases h

/-- A grant adds one bucket, with its entry, where its id and its reference are
new. -/
structure Granted (db : Db) (b : CreditBucket) (e : LedgerEntry) (db' : Db) : Prop where
  rows : db' = { db with buckets := db.buckets ++ [b], ledger := db.ledger ++ [e] }
  full : b.remaining = b.granted
  named : e.bucketId = some b.id
  delta : e.delta = b.granted
  newId : ∀ other ∈ db.buckets, other.id ≠ b.id
  newRef : ∀ other ∈ db.buckets, b.stripeRef ≠ none → other.stripeRef ≠ b.stripeRef

theorem grantBucket_ok {g : Grant} (h : grantBucket c bucketId db g = .ok (some db')) :
    ∃ ref, c.reference g.stripeRef = .ok ref ∧
      Granted db ⟨bucketId, g.accountId, g.source, g.credits, g.credits, g.expiresAt, ref⟩
        ⟨g.accountId, g.op, g.credits, some bucketId, g.metadata⟩ db' := by
  obtain ⟨before, -, h⟩ := Fallible.peel h
  cases before with
  | some b => cases h
  | none =>
      obtain ⟨ref, hRef, h⟩ := Fallible.peel h
      obtain ⟨added, hAdded, h⟩ := Fallible.peel h
      obtain rfl := Option.some.inj (Except.ok.inj h)
      unfold Db.addBucket at hAdded
      split at hAdded
      · cases hAdded
      · next hNew =>
          obtain rfl := Except.ok.inj hAdded
          simp only [List.any_eq_true, decide_eq_true_eq, not_exists, not_and, not_or] at hNew
          refine ⟨ref, hRef, rfl, rfl, rfl, rfl, fun other hOther => (hNew other hOther).1, fun other hOther hSome hSame => ?_⟩
          exact (hNew other hOther).2 (hSame ▸ hSome) hSame

/-- The customer is attached to the account, or nothing is done. -/
def Attached (db : Db) (accountId : String) (db' : Db) : Prop :=
  db' = db ∨ ∃ id, db' = db.setAccount accountId fun a => { a with stripeCustomerId := some id }

theorem attachCustomer_ok {customer : Value} {isBare : Bool} (h : attachCustomer c db accountId customer isBare = .ok db') :
    Attached db accountId db' := by
  unfold attachCustomer at h
  split at h
  · obtain ⟨id, -, rfl⟩ := Fallible.map_eq_ok.mp h
    exact .inr ⟨id, rfl⟩
  · exact .inl (Except.ok.inj h).symm

theorem Attached.subscriptions (h : Attached db accountId db') : db'.subscriptions = db.subscriptions := by
  rcases h with rfl | ⟨id, rfl⟩ <;> rfl

/-- Attaching a customer leaves ids and tiers. -/
theorem Attached.accounts (h : Attached db accountId db') :
    ∀ a ∈ db'.accounts, ∃ old ∈ db.accounts, old.id = a.id ∧ old.tier = a.tier := by
  rcases h with rfl | ⟨id, rfl⟩
  · exact fun a ha => ⟨a, ha, rfl, rfl⟩
  · intro a ha
    obtain ⟨old, hOld, rfl⟩ := List.mem_map.mp ha
    refine ⟨old, hOld, ?_⟩
    split <;> exact ⟨rfl, rfl⟩

theorem checkout_cases (h : onCheckoutCompleted c bucketId db obj = .ok (db', disposition)) :
    db' = db ∨ ∃ metadata account attached, orDict (Dict.get obj "metadata") = .ok metadata ∧
      accountForEvent c db metadata (Dict.get obj "customer") = .ok (some account) ∧
      Attached db account.id attached ∧
      (db' = attached ∨ ∃ b e, Granted attached b e db' ∧ 0 < b.granted ∧ b.accountId = account.id ∧ e.accountId = account.id ∧
        b.source = .purchased ∧
        c.reference ((Dict.get obj "payment_intent").orElse (Dict.get obj "id")) = .ok b.stripeRef) := by
  obtain ⟨metadata, hMetadata, h⟩ := Fallible.peel h
  obtain ⟨found, hFound, h⟩ := Fallible.peel h
  cases found with
  | none =>
      obtain ⟨rfl, -⟩ := Fallible.pair h
      exact .inl rfl
  | some account =>
      obtain ⟨attached, hAttached, h⟩ := Fallible.peel h
      refine Or.inr ⟨metadata, account, attached, hMetadata, hFound, attachCustomer_ok hAttached, ?_⟩
      split at h
      · obtain ⟨credits, -, h⟩ := Fallible.peel h
        split at h
        · obtain ⟨rfl, -⟩ := Fallible.pair h
          exact .inl rfl
        · next hCredits =>
            obtain ⟨topped, hTopped, h⟩ := Fallible.peel h
            cases topped with
            | none =>
                obtain ⟨rfl, -⟩ := Fallible.pair h
                exact .inl rfl
            | some result =>
                obtain ⟨rfl, -⟩ := Fallible.pair h
                obtain ⟨ref, hRef, hGranted⟩ := grantBucket_ok hTopped
                exact .inr ⟨_, _, hGranted, not_le.mp hCredits, rfl, rfl, rfl, hRef⟩
      · obtain ⟨rfl, -⟩ := Fallible.pair h
        exact .inl rfl

/-- Entries made one after the other. -/
def Db.enter (db : Db) (entries : List LedgerEntry) : Db :=
  { db with ledger := db.ledger ++ entries }

theorem Db.enter_nil (db : Db) : db.enter [] = db := by
  rw [Db.enter, List.append_nil]

/-- Entries that name no bucket. -/
def Unnamed (accountId : String) (entries : List LedgerEntry) : Prop :=
  ∀ e ∈ entries, e.bucketId = none ∧ e.accountId = accountId

/-- A change of a row that sets its status. -/
def Sets (status : Status) (change : Subscription → Subscription) : Prop :=
  ∀ s, (change s).stripeSubscriptionId = s.stripeSubscriptionId ∧ (change s).accountId = s.accountId ∧
    (change s).status = status

/-- The row of a subscription is written: a new one, or the one there is. -/
inductive Upserted (db : Db) (accountId stripeId : String) (status : Status) (change : Subscription → Subscription) :
    Db → Prop where
  | started {row : Subscription} {e : LedgerEntry} (hFound : db.subscription stripeId = .ok none)
      (hRow : row.stripeSubscriptionId = stripeId ∧ row.accountId = accountId ∧ row.status = status)
      (hEntry : Unnamed accountId [e]) :
      Upserted db accountId stripeId status change
        ({ db with subscriptions := db.subscriptions ++ [row] }.enter [e])
  | updated {row : Subscription} {entries : List LedgerEntry} (hFound : db.subscription stripeId = .ok (some row))
      (hChange : Sets status change) (hEntries : Unnamed accountId entries) :
      Upserted db accountId stripeId status change ((db.setSubscription stripeId change).enter entries)

theorem upserted_cases (h : onSubscriptionUpserted c settings db obj = .ok (db', disposition)) :
    db' = db ∨ ∃ metadata account said status stripeId price written attached, orDict (Dict.get obj "metadata") = .ok metadata ∧
      accountForEvent c db metadata (Dict.get obj "customer") = .ok (some account) ∧ subscriptionFields c obj = .ok said ∧
      statusOf (Dict.get obj "status") = .ok status ∧ c.column ((Dict.get obj "id").orElse (.str "")) = .ok stripeId ∧
      c.column said.priceId = .ok price ∧
      Upserted db account.id stripeId status
        (Subscription.restate c said price status (Dict.get obj "cancel_at_period_end").truthy) written ∧
      Attached written account.id attached ∧ db' = refreshTier attached account.id := by
  obtain ⟨metadata, hMetadata, h⟩ := Fallible.peel h
  obtain ⟨found, hAccount, h⟩ := Fallible.peel h
  cases found with
  | none =>
      obtain ⟨rfl, -⟩ := Fallible.pair h
      exact .inl rfl
  | some account =>
      obtain ⟨said, hSaid, h⟩ := Fallible.peel h
      obtain ⟨status, hStatus, h⟩ := Fallible.peel h
      obtain ⟨stripeId, hStripeId, h⟩ := Fallible.peel h
      obtain ⟨price, hPrice, h⟩ := Fallible.peel h
      obtain ⟨row, hRow, h⟩ := Fallible.peel h
      obtain ⟨attached, hAttached, h⟩ := Fallible.peel h
      obtain ⟨rfl, -⟩ := Fallible.pair h
      refine Or.inr ⟨metadata, account, said, status, stripeId, price, _, attached, hMetadata, hAccount, hSaid, hStatus,
        hStripeId, hPrice, ?_, attachCustomer_ok hAttached, rfl⟩
      cases row with
      | none => exact Upserted.started hRow ⟨rfl, rfl, rfl⟩ (by simp [Unnamed])
      | some row =>
          simp only
          split
          · exact Upserted.updated hRow (fun s => ⟨rfl, rfl, rfl⟩) (by simp [Unnamed])
          · rw [← Db.enter_nil (db.setSubscription stripeId _)]
            exact Upserted.updated hRow (fun s => ⟨rfl, rfl, rfl⟩) (by simp [Unnamed])

/-- The row of a subscription is set to another status. -/
def Restated (db : Db) (stripeId : String) (status : Status) (db' : Db) : Prop :=
  ∃ change : Subscription → Subscription, Sets status change ∧ db' = db.setSubscription stripeId change

theorem restated {status : Status} (change : Subscription → Subscription) (hChange : Sets status change) :
    Restated db stripeId status (db.setSubscription stripeId change) :=
  ⟨change, hChange, rfl⟩

theorem deleted_cases (h : onSubscriptionDeleted c db obj = .ok (db', disposition)) :
    (db' = db ∧ ∃ stripeId, c.column ((Dict.get obj "id").orElse (.str "")) = .ok stripeId ∧
      db.subscription stripeId = .ok none) ∨
    ∃ stripeId row closed, c.column ((Dict.get obj "id").orElse (.str "")) = .ok stripeId ∧
      db.subscription stripeId = .ok (some row) ∧ Restated db stripeId .canceled closed ∧
      (closed.account row.accountId = none ∧ db' = closed ∨ ∃ account entries, closed.account row.accountId = some account ∧
        Unnamed account.id entries ∧
        db' = refreshTier (expireBuckets (closed.enter entries) account.id .subscriberMonthly
          "expire_subscriber_monthly") account.id) := by
  obtain ⟨stripeId, hStripeId, h⟩ := Fallible.peel h
  obtain ⟨row, hRow, h⟩ := Fallible.peel h
  cases row with
  | none =>
      obtain ⟨rfl, -⟩ := Fallible.pair h
      exact .inl ⟨rfl, stripeId, hStripeId, hRow⟩
  | some row =>
      simp only at h
      have hClosed : Restated db stripeId .canceled
          (db.setSubscription stripeId fun row => { row with status := .canceled, updatedAt := c.now }) :=
        restated _ fun s => ⟨rfl, rfl, rfl⟩
      refine Or.inr ⟨stripeId, row, _, hStripeId, hRow, hClosed, ?_⟩
      split at h
      · next hNone =>
          obtain ⟨rfl, -⟩ := Fallible.pair h
          exact .inl ⟨hNone, rfl⟩
      · next account hAccount =>
          obtain ⟨rfl, -⟩ := Fallible.pair h
          exact .inr ⟨account, [_], hAccount, by simp [Unnamed], rfl⟩

/-- What an invoice of a subscription may find: a row past due is active again. -/
def Revived (db : Db) (stripeId accountId : String) (row : Option Subscription) (db' : Db) : Prop :=
  db' = db ∨ (∃ r, row = some r ∧ r.status = .pastDue) ∧ ∃ restated, Restated db stripeId .active restated ∧
    db' = refreshTier restated accountId

theorem invoicePaid_cases (h : onInvoicePaid c bucketId settings db obj = .ok (db', disposition)) :
    db' = db ∨ ∃ subscriptionId stripeId row account revived entries, invoiceSubscriptionId obj = .ok subscriptionId ∧
      subscriptionId.truthy = true ∧ c.column subscriptionId = .ok stripeId ∧
      db.subscription stripeId = .ok row ∧ invoiceAccount c db obj row = .ok (some account) ∧
      granted c db (Dict.get obj "id") = .ok none ∧
      Revived db stripeId account.id row revived ∧ Unnamed account.id entries ∧
      (db' = expireBuckets (revived.enter entries) account.id .subscriberMonthly "expire_subscriber_monthly" ∨
        ∃ b e, Granted (expireBuckets (revived.enter entries) account.id .subscriberMonthly "expire_subscriber_monthly")
            b e db' ∧ b.granted = settings.subscriberMonthlyCredits ∧ b.accountId = account.id ∧ e.accountId = account.id ∧
          b.source = .subscriberMonthly ∧ c.reference (Dict.get obj "id") = .ok b.stripeRef) := by
  obtain ⟨subscriptionId, hId, h⟩ := Fallible.peel h
  split at h
  · obtain ⟨rfl, -⟩ := Fallible.pair h
    exact .inl rfl
  · next hTruthy =>
      obtain ⟨stripeId, hStripeId, h⟩ := Fallible.peel h
      obtain ⟨row, hRow, h⟩ := Fallible.peel h
      obtain ⟨found, hAccount, h⟩ := Fallible.peel h
      cases found with
      | none =>
          obtain ⟨rfl, -⟩ := Fallible.pair h
          exact .inl rfl
      | some account =>
          obtain ⟨before, hBefore, h⟩ := Fallible.peel h
          cases before with
          | some b =>
              obtain ⟨rfl, -⟩ := Fallible.pair h
              exact .inl rfl
          | none =>
              obtain ⟨lineEnd, -, h⟩ := Fallible.peel h
              obtain ⟨topped, hTopped, h⟩ := Fallible.peel h
              generalize hRevivedEq : (if row.any fun row => row.status = .pastDue then
                refreshTier (db.setSubscription stripeId fun row => { row with status := .active }) account.id
                else db) = revived at h hTopped
              have hRevived : Revived db stripeId account.id row revived := by
                subst hRevivedEq
                split
                · next hPast =>
                    obtain ⟨r, hSome, hr⟩ := (Option.any_eq_true ..).mp hPast
                    have hActive : Restated db stripeId .active
                        (db.setSubscription stripeId fun row => { row with status := .active }) :=
                      restated _ fun s => ⟨rfl, rfl, rfl⟩
                    exact .inr ⟨⟨r, hSome, by simpa using hr⟩, _, hActive, rfl⟩
                · exact .inl rfl
              generalize hEntriesEq : (if Dict.get obj "billing_reason" = .str "subscription_cycle" then
                revived.append ⟨account.id, "subscription_renewed", 0, none,
                  [("stripe_subscription_id", subscriptionId), ("invoice", Dict.get obj "id")]⟩
                else revived) = renewed at h hTopped
              obtain ⟨entries, hEntries, hRenewed⟩ : ∃ entries, Unnamed account.id entries ∧ renewed = revived.enter entries := by
                subst hEntriesEq
                split
                · exact ⟨[_], by simp [Unnamed], rfl⟩
                · exact ⟨[], by simp [Unnamed], (Db.enter_nil _).symm⟩
              subst hRenewed
              refine Or.inr ⟨subscriptionId, stripeId, row, account, revived, entries, hId, by simpa using hTruthy, hStripeId,
                hRow, hAccount, hBefore, hRevived, hEntries, ?_⟩
              cases topped with
              | none =>
                  obtain ⟨rfl, -⟩ := Fallible.pair h
                  exact .inl rfl
              | some result =>
                  obtain ⟨rfl, -⟩ := Fallible.pair h
                  obtain ⟨ref, hRef, hGranted⟩ := grantBucket_ok hTopped
                  exact .inr ⟨_, _, hGranted, rfl, rfl, rfl, rfl, hRef⟩

theorem paymentFailed_cases (h : onInvoicePaymentFailed c db obj = .ok (db', disposition)) :
    db' = db ∨ ∃ subscriptionId stripeId row failed entries, invoiceSubscriptionId obj = .ok subscriptionId ∧
      subscriptionId.truthy = true ∧ c.column subscriptionId = .ok stripeId ∧
      db.subscription stripeId = .ok (some row) ∧
      (failed = db ∨ row.status = .active ∧ Restated db stripeId .pastDue failed) ∧
      (failed.account row.accountId = none ∧ entries = [] ∨
        ∃ account, failed.account row.accountId = some account ∧ Unnamed account.id entries) ∧
      db' = failed.enter entries := by
  obtain ⟨subscriptionId, hId, h⟩ := Fallible.peel h
  split at h
  · obtain ⟨rfl, -⟩ := Fallible.pair h
    exact .inl rfl
  · next hTruthy =>
      obtain ⟨stripeId, hStripeId, h⟩ := Fallible.peel h
      obtain ⟨row, hRow, h⟩ := Fallible.peel h
      cases row with
      | none =>
          obtain ⟨rfl, -⟩ := Fallible.pair h
          exact .inl rfl
      | some row =>
          simp only at h
          generalize hFailedEq : (if row.status = .active then
            db.setSubscription stripeId fun row => { row with status := .pastDue, updatedAt := c.now } else db) = failed at h
          have hFailed : failed = db ∨ row.status = .active ∧ Restated db stripeId .pastDue failed := by
            subst hFailedEq
            split
            · next hActive => exact .inr ⟨hActive, restated _ fun s => ⟨rfl, rfl, rfl⟩⟩
            · exact .inl rfl
          split at h
          · next hNone =>
              obtain ⟨rfl, -⟩ := Fallible.pair h
              exact .inr ⟨subscriptionId, stripeId, row, _, [], hId, by simpa using hTruthy, hStripeId, hRow, hFailed,
                Or.inl ⟨hNone, rfl⟩, (Db.enter_nil _).symm⟩
          · next account hAccount =>
              obtain ⟨rfl, -⟩ := Fallible.pair h
              exact .inr ⟨subscriptionId, stripeId, row, _, [_], hId, by simpa using hTruthy, hStripeId, hRow, hFailed,
                Or.inr ⟨account, hAccount, by simp [Unnamed]⟩, rfl⟩

/-- What is taken back of a bucket. -/
def Db.claw (db : Db) (bucketId : String) (clawback : Int) : Db :=
  { db with buckets := db.buckets.map fun b =>
      if b.id = bucketId then { b with remaining := b.remaining - clawback } else b }

theorem refunded_cases (h : onChargeRefunded c db obj = .ok (db', disposition)) :
    db' = db ∧ granted c db (Dict.get obj "payment_intent") = .ok none ∨
    ∃ bucket cents e, granted c db (Dict.get obj "payment_intent") = .ok (some bucket) ∧
      int ((Dict.get obj "amount_refunded").orElse (.int 0)) = .ok cents ∧
      e.bucketId = some bucket.id ∧ e.accountId = bucket.accountId ∧ e.delta = -min cents bucket.remaining ∧
      db' = (if 0 < min cents bucket.remaining then db.claw bucket.id (min cents bucket.remaining) else db).append e := by
  obtain ⟨bucket, hBucket, h⟩ := Fallible.peel h
  cases bucket with
  | none =>
      obtain ⟨rfl, -⟩ := Fallible.pair h
      exact .inl ⟨rfl, hBucket⟩
  | some bucket =>
      obtain ⟨cents, hCents, h⟩ := Fallible.peel h
      obtain ⟨rfl, -⟩ := Fallible.pair h
      have hInt : int ((Dict.get obj "amount_refunded").orElse (.int 0)) = .ok cents := by
        cases hRead : int ((Dict.get obj "amount_refunded").orElse (.int 0)) with
        | error e => simp [raising, hRead, Except.mapError] at hCents
        | ok n => simpa [raising, hRead, Except.mapError] using hCents
      exact .inr ⟨bucket, cents, _, hBucket, hInt, rfl, rfl, rfl, rfl⟩

end Brnrd.Billing
