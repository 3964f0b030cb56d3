import Brnrd.Billing.Cases

/-! The tier over a sequence of events: it mirrors the subscriptions as long as an
update stays with the account its row belongs to. A deleted subscription stays
canceled as long as no later event says otherwise. -/
namespace Brnrd.Billing

open Python

/-- The account has a subscription that is not canceled. -/
def Live (db : Db) (accountId : String) : Prop :=
  ∃ s ∈ db.subscriptions, s.accountId = accountId ∧ s.status ≠ .canceled

def Mirrors (db : Db) : Prop :=
  ∀ a ∈ db.accounts, a.tier = .subscribed ↔ Live db a.id

variable {c : Calls} {settings : Settings} {db db' : Db} {obj event : Dict} {bucketId disposition accountId stripeId : String}

theorem lives_iff : db.subscriptions.any (Subscription.lives accountId) = true ↔ Live db accountId := by
  simp [Live, Subscription.lives, List.any_eq_true]

/-- A refresh sets the tier of one account right. -/
theorem mirrors_refresh (hOthers : ∀ a ∈ db.accounts, a.id ≠ accountId → (a.tier = .subscribed ↔ Live db a.id)) :
    Mirrors (refreshTier db accountId) := by
  intro a ha
  obtain ⟨old, hOld, rfl⟩ := List.mem_map.mp ha
  by_cases hId : old.id = accountId
  · subst hId
    rw [if_pos rfl]
    change (if db.subscriptions.any (Subscription.lives old.id) = true then Tier.subscribed else Tier.free) = .subscribed ↔
      Live db old.id
    rw [← lives_iff]
    split <;> simp_all
  · rw [if_neg hId]
    exact hOthers old hOld hId

theorem Mirrors.refresh (h : Mirrors db) (accountId : String) : Mirrors (refreshTier db accountId) :=
  mirrors_refresh fun a ha _ => h a ha

theorem Mirrors.congr (h : Mirrors db) (hAccounts : db'.accounts = db.accounts)
    (hSubscriptions : db'.subscriptions = db.subscriptions) : Mirrors db' := by
  intro a ha
  rw [Live, hSubscriptions]
  exact h a (hAccounts ▸ ha)

theorem Mirrors.attach (h : Mirrors db) (hAttached : Attached db accountId db') : Mirrors db' := by
  intro a ha
  obtain ⟨old, hOld, hId, hTier⟩ := hAttached.accounts a ha
  rw [← hTier, ← hId, Live, hAttached.subscriptions]
  exact h old hOld

variable {s row : Subscription} {status : Status}

/-- Whether an account is live depends on the restated row only where it has none
but this one. -/
theorem Restated.live (h : Restated db stripeId status db') (hRow : db.subscription stripeId = .ok (some row))
    (hSame : row.accountId = accountId → (row.status = .canceled ↔ status = .canceled) ∨ ∃ s ∈ db.subscriptions, s.accountId = accountId ∧ s.status ≠ .canceled ∧ s.stripeSubscriptionId ≠ stripeId) :
    Live db' accountId ↔ Live db accountId := by
  obtain ⟨change, hChange, rfl⟩ := h
  have hKept : ∀ {s : Subscription}, s.stripeSubscriptionId ≠ stripeId → s ∈ db.subscriptions →
      s ∈ (db.setSubscription stripeId change).subscriptions := fun {s} hOther hs =>
    List.mem_map.mpr ⟨s, hs, if_neg hOther⟩
  constructor
  · rintro ⟨s, hs, hAccount, hLive⟩
    obtain ⟨old, hOld, rfl⟩ := List.mem_map.mp hs
    by_cases hId : old.stripeSubscriptionId = stripeId
    · rw [if_pos hId] at hAccount hLive
      obtain rfl := subscription_only hRow hOld hId
      rw [(hChange old).2.1] at hAccount
      rw [(hChange old).2.2] at hLive
      rcases hSame hAccount with hSame | ⟨s, hs, hsAccount, hsLive, -⟩
      · exact ⟨old, hOld, hAccount, fun hCanceled => hLive (hSame.mp hCanceled)⟩
      · exact ⟨s, hs, hsAccount, hsLive⟩
    · rw [if_neg hId] at hAccount hLive
      exact ⟨old, hOld, hAccount, hLive⟩
  · rintro ⟨s, hs, hAccount, hLive⟩
    by_cases hId : s.stripeSubscriptionId = stripeId
    · obtain rfl := subscription_only hRow hs hId
      rcases hSame hAccount with hSame | ⟨other, hOther, hOtherAccount, hOtherLive, hNot⟩
      · refine ⟨change s, List.mem_map.mpr ⟨s, hs, if_pos hId⟩, (hChange s).2.1.trans hAccount, ?_⟩
        rw [(hChange s).2.2]
        exact fun hCanceled => hLive (hSame.mpr hCanceled)
      · exact ⟨other, hKept hNot hOther, hOtherAccount, hOtherLive⟩
    · exact ⟨s, hKept hId hs, hAccount, hLive⟩

/-- Every row was there before, and a canceled one stays canceled. -/
def Stays (db db' : Db) : Prop :=
  ∀ s ∈ db'.subscriptions, ∃ old ∈ db.subscriptions, old.stripeSubscriptionId = s.stripeSubscriptionId ∧
    (old.status = .canceled → s.status = .canceled)

theorem Stays.of_eq (h : db'.subscriptions = db.subscriptions) : Stays db db' :=
  fun s hs => ⟨s, h ▸ hs, rfl, id⟩

theorem Restated.stays (h : Restated db stripeId status db') (hRow : db.subscription stripeId = .ok (some row))
    (hStatus : row.status = .canceled → status = .canceled) :
    Stays db db' := by
  obtain ⟨change, hChange, rfl⟩ := h
  intro s hs
  obtain ⟨old, hOld, rfl⟩ := List.mem_map.mp hs
  refine ⟨old, hOld, ?_⟩
  by_cases hId : old.stripeSubscriptionId = stripeId
  · obtain rfl := subscription_only hRow hOld hId
    rw [if_pos hId, (hChange old).1, (hChange old).2.2]
    exact ⟨rfl, hStatus⟩
  · rw [if_neg hId]
    exact ⟨rfl, id⟩

theorem Restated.canceled (h : Restated db stripeId status db') (hs : s ∈ db'.subscriptions)
    (hId : s.stripeSubscriptionId = stripeId) : s.status = status := by
  obtain ⟨change, hChange, rfl⟩ := h
  obtain ⟨old, hOld, rfl⟩ := List.mem_map.mp hs
  by_cases hOldId : old.stripeSubscriptionId = stripeId
  · rw [if_pos hOldId]
    exact (hChange old).2.2
  · rw [if_neg hOldId] at hId
    exact absurd hId hOldId

theorem Restated.accounts (h : Restated db stripeId status db') : db'.accounts = db.accounts := by
  obtain ⟨change, -, rfl⟩ := h
  rfl

/-- A row that is restated within the same side of canceled leaves the tiers right. -/
theorem Mirrors.restate (h : Mirrors db) (hRestated : Restated db stripeId status db')
    (hRow : db.subscription stripeId = .ok (some row)) (hSame : row.status = .canceled ↔ status = .canceled) : Mirrors db' := by
  intro a ha
  rw [hRestated.live hRow fun _ => Or.inl hSame]
  exact h a (hRestated.accounts ▸ ha)

/-- The subscription that an event says was deleted. -/
def deletedOf (c : Calls) (event : Dict) : Option String :=
  match eventHandler event, eventObject event with
  | .ok (some .subscriptionDeleted), .ok obj => (c.column ((Dict.get obj "id").orElse (.str ""))).toOption
  | _, _ => none

/-- Every handler but the one that writes a subscription keeps the tiers right and
the canceled rows canceled. -/
theorem Handler.tiers (h : Mirrors db) {handler : Handler} (hOther : handler ≠ .subscriptionUpserted)
    (hRun : handler.run c bucketId settings db obj = .ok (db', disposition)) : Mirrors db' ∧ Stays db db' := by
  cases handler with
  | checkoutCompleted =>
      rcases checkout_cases hRun with rfl | ⟨_, account, attached, -, -, hAttached, hDone⟩
      · exact ⟨h, Stays.of_eq rfl⟩
      · have hMirrors := h.attach hAttached
        rcases hDone with rfl | ⟨b, e, hGranted, -⟩
        · exact ⟨hMirrors, Stays.of_eq hAttached.subscriptions⟩
        · obtain ⟨rfl, -⟩ := hGranted
          exact ⟨hMirrors.congr rfl rfl, Stays.of_eq hAttached.subscriptions⟩
  | subscriptionUpserted => exact absurd rfl hOther
  | subscriptionDeleted =>
      rcases deleted_cases hRun with ⟨rfl, -⟩ | ⟨_, row, closed, -, hRow, hClosed, hDone⟩
      · exact ⟨h, Stays.of_eq rfl⟩
      · have hStays : Stays db closed := hClosed.stays hRow fun _ => rfl
        have hOthers : ∀ a ∈ closed.accounts, a.id ≠ row.accountId → (a.tier = .subscribed ↔ Live closed a.id) := by
          intro a ha hNot
          rw [hClosed.live hRow fun hSame => absurd hSame.symm hNot]
          exact h a (hClosed.accounts ▸ ha)
        rcases hDone with ⟨hNone, rfl⟩ | ⟨account, entries, hAccount, -, rfl⟩
        · exact ⟨fun a ha => hOthers a ha (account_none hNone a ha), hStays⟩
        · refine ⟨mirrors_refresh fun a ha hNot => ?_, hStays⟩
          exact hOthers a ha (account_id hAccount ▸ hNot)
  | invoicePaid =>
      rcases invoicePaid_cases hRun with rfl | ⟨_, _, row, account, revived, entries, -, -, -, hRow, -, -, hRevived, -, hDone⟩
      · exact ⟨h, Stays.of_eq rfl⟩
      · have hKept : Mirrors revived ∧ Stays db revived := by
          rcases hRevived with rfl | ⟨⟨r, rfl, hPastDue⟩, restated, hRestated, rfl⟩
          · exact ⟨h, Stays.of_eq rfl⟩
          · have hMirrors := h.restate hRestated hRow (by simp [hPastDue])
            exact ⟨hMirrors.refresh account.id, hRestated.stays hRow (by simp [hPastDue])⟩
        rcases hDone with rfl | ⟨b, e, hGranted, -⟩
        · exact ⟨hKept.1.congr rfl rfl, hKept.2⟩
        · obtain ⟨rfl, -⟩ := hGranted
          exact ⟨hKept.1.congr rfl rfl, hKept.2⟩
  | invoicePaymentFailed =>
      rcases paymentFailed_cases hRun with rfl | ⟨_, _, row, failed, entries, -, -, -, hRow, hFailed, -, rfl⟩
      · exact ⟨h, Stays.of_eq rfl⟩
      · rcases hFailed with rfl | ⟨hActive, hRestated⟩
        · exact ⟨h.congr rfl rfl, Stays.of_eq rfl⟩
        · exact ⟨(h.restate hRestated hRow (by simp [hActive])).congr rfl rfl, hRestated.stays hRow (by simp [hActive])⟩
  | chargeRefunded =>
      rcases refunded_cases hRun with ⟨rfl, -⟩ | ⟨bucket, cents, e, -, -, -, -, -, rfl⟩
      · exact ⟨h, Stays.of_eq rfl⟩
      · split <;> exact ⟨h.congr rfl rfl, Stays.of_eq rfl⟩

/-- After its deletion was handled a subscription's rows are canceled. -/
theorem deleted_canceled (hRun : onSubscriptionDeleted c db obj = .ok (db', disposition))
    (hId : c.column ((Dict.get obj "id").orElse (.str "")) = .ok stripeId) (hs : s ∈ db'.subscriptions)
    (hSame : s.stripeSubscriptionId = stripeId) : s.status = .canceled := by
  rcases deleted_cases hRun with ⟨rfl, id, hId', hNone⟩ | ⟨id, row, closed, hId', -, hClosed, hDone⟩
  · obtain rfl := Fallible.same hId hId'
    exact absurd hSame (subscription_none hNone s hs)
  · obtain rfl := Fallible.same hId hId'
    rcases hDone with ⟨-, rfl⟩ | ⟨account, entries, -, -, rfl⟩
    · exact hClosed.canceled hs hSame
    · exact hClosed.canceled (show s ∈ closed.subscriptions from hs) hSame

/-- A subscription object of the account, with its status and its id. -/
def Upserts (c : Calls) (db : Db) (event : Dict) (account : Account) (status : Status) (stripeId : String) : Prop :=
  ∃ obj metadata, eventHandler event = .ok (some .subscriptionUpserted) ∧ eventObject event = .ok obj ∧
    orDict (Dict.get obj "metadata") = .ok metadata ∧ accountForEvent c db metadata (Dict.get obj "customer") = .ok (some account) ∧
    statusOf (Dict.get obj "status") = .ok status ∧ c.column ((Dict.get obj "id").orElse (.str "")) = .ok stripeId

/-- Setting the status of a row leaves the right tier to the account it belongs
to: it is the event's account, or it stays on the same side of canceled, or it
has another subscription, or there is no such account. -/
def StaysHome (db : Db) (account : Account) (status : Status) (row : Subscription) : Prop :=
  row.accountId = account.id ∨ (row.status = .canceled ↔ status = .canceled) ∨
    (∃ s ∈ db.subscriptions, s.accountId = row.accountId ∧ s.status ≠ .canceled ∧
      s.stripeSubscriptionId ≠ row.stripeSubscriptionId) ∨
    db.account row.accountId = none

/-- What an event has to be for the tiers to mirror the subscriptions. -/
structure Orderly (c : Calls) (w : World) (d : Delivery) : Prop where
  upserted : ¬ Stopped c w.db d.event → ∀ account status stripeId, Upserts c w.db d.event account status stripeId →
    (status = .canceled ∨ ∀ event ∈ w.applied, deletedOf c event ≠ some stripeId) ∧
      ∀ row, w.db.subscription stripeId = .ok (some row) → StaysHome w.db account status row
  stopped : ∀ stripeId, deletedOf c d.event = some stripeId → Stopped c w.db d.event →
    ∀ s ∈ w.db.subscriptions, s.stripeSubscriptionId = stripeId → s.status = .canceled

/-- The rows of a subscription whose deletion was handled are canceled. -/
def Buried (c : Calls) (w : World) : Prop :=
  ∀ event ∈ w.applied, ∀ stripeId, deletedOf c event = some stripeId →
    ∀ s ∈ w.db.subscriptions, s.stripeSubscriptionId = stripeId → s.status = .canceled

variable {w : World}

theorem Buried.stays (h : Buried c w) (hStays : Stays w.db db')
    (hLast : ∀ stripeId, deletedOf c event = some stripeId → ∀ s ∈ db'.subscriptions, s.stripeSubscriptionId = stripeId → s.status = .canceled) :
    Buried c ⟨db', w.applied ++ [event]⟩ := by
  intro e he stripeId hDeleted s hs hId
  rcases List.mem_append.mp he with hOld | hNew
  · obtain ⟨old, hOldMem, hSame, hCanceled⟩ := hStays s hs
    exact hCanceled (h e hOld stripeId hDeleted old hOldMem (hSame.trans hId))
  · obtain rfl := List.mem_singleton.mp hNew
    exact hLast stripeId hDeleted s hs hId

variable {change : Subscription → Subscription}

theorem Upserted.accounts (h : Upserted db accountId stripeId status change db') : db'.accounts = db.accounts := by
  cases h <;> rfl

/-- The written rows of the id have the status, the others are as they were. -/
theorem Upserted.rows (h : Upserted db accountId stripeId status change db') (hs : s ∈ db'.subscriptions) :
    s.stripeSubscriptionId = stripeId ∧ s.status = status ∨ s.stripeSubscriptionId ≠ stripeId ∧ s ∈ db.subscriptions := by
  cases h with
  | started hFound hRow hEntry =>
      rcases List.mem_append.mp hs with hOld | hNew
      · exact .inr ⟨subscription_none hFound s hOld, hOld⟩
      · obtain rfl := List.mem_singleton.mp hNew
        exact .inl ⟨hRow.1, hRow.2.2⟩
  | updated hFound hChange hEntries =>
      obtain ⟨old, hOld, rfl⟩ := List.mem_map.mp hs
      by_cases hId : old.stripeSubscriptionId = stripeId
      · rw [if_pos hId]
        exact .inl ⟨(hChange old).1.trans hId, (hChange old).2.2⟩
      · rw [if_neg hId]
        exact .inr ⟨hId, hOld⟩

/-- The tiers of the other accounts are right after a subscription was written. -/
theorem Upserted.others {account : Account} (h : Upserted db account.id stripeId status change db') (hMirrors : Mirrors db)
    (hHome : ∀ row, db.subscription stripeId = .ok (some row) → StaysHome db account status row) :
    ∀ a ∈ db'.accounts, a.id ≠ account.id → (a.tier = .subscribed ↔ Live db' a.id) := by
  intro a ha hNot
  rw [h.accounts] at ha
  rw [hMirrors a ha]
  cases h with
  | @started row e hFound hRow hEntry =>
      constructor
      · rintro ⟨s, hs, hLive⟩
        exact ⟨s, List.mem_append_left _ hs, hLive⟩
      · rintro ⟨s, hs, hAccount, hLive⟩
        rcases List.mem_append.mp hs with hOld | hNew
        · exact ⟨s, hOld, hAccount, hLive⟩
        · obtain rfl := List.mem_singleton.mp hNew
          exact absurd (hAccount.symm.trans hRow.2.1) hNot
  | @updated row entries hFound hChange hEntries =>
      have hRestated : Restated db stripeId status (db.setSubscription stripeId change) := restated change hChange
      refine (hRestated.live hFound fun hSame => ?_).symm
      rcases hHome row hFound with hAccount | hSide | ⟨s, hs, hAccount, hLive, hOther⟩ | hNone
      · exact absurd (hSame.symm.trans hAccount) hNot
      · exact .inl hSide
      · exact .inr ⟨s, hs, hAccount.trans hSame, hLive, (subscription_mem hFound).2 ▸ hOther⟩
      · exact absurd hSame.symm (account_none hNone a ha)

/-- What an orderly subscription object does. -/
theorem upserted_step {d : Delivery} (hMirrors : Mirrors w.db) (hBuried : Buried c w) (hFits : Orderly c w d)
    (hHandler : eventHandler d.event = .ok (some .subscriptionUpserted)) (hObj : eventObject d.event = .ok obj)
    (hGoesOn : ¬ Stopped c w.db d.event)
    (hRun : onSubscriptionUpserted { c with now := d.now } settings w.db obj = .ok (db', disposition)) :
    Mirrors db' ∧ Buried c ⟨db', w.applied ++ [d.event]⟩ := by
  have hNotDeleted : ∀ stripeId, deletedOf c d.event ≠ some stripeId := by
    simp [deletedOf, hHandler]
  rcases upserted_cases hRun with rfl | ⟨metadata, account, said, status, stripeId, price, written, attached, hMetadata,
    hAccount, -, hStatus, hStripeId, -, hWritten, hAttached, rfl⟩
  · exact ⟨hMirrors, hBuried.stays (Stays.of_eq rfl) fun id hDeleted => absurd hDeleted (hNotDeleted id)⟩
  · obtain ⟨hLate, hHome⟩ := hFits.upserted hGoesOn account status stripeId
      ⟨obj, metadata, hHandler, hObj, hMetadata, hAccount, hStatus, hStripeId⟩
    refine ⟨mirrors_refresh fun a ha hNot => ?_, fun e he id hDeleted s hs hId => ?_⟩
    · obtain ⟨old, hOld, hSame, hTier⟩ := hAttached.accounts a ha
      rw [← hTier, ← hSame, Live, hAttached.subscriptions]
      exact hWritten.others hMirrors hHome old hOld (hSame ▸ hNot)
    · rcases List.mem_append.mp he with hOld | hNew
      · have hWrittenRow : s ∈ written.subscriptions := hAttached.subscriptions ▸ hs
        rcases hWritten.rows hWrittenRow with ⟨hSame, hStatus⟩ | ⟨-, hKept⟩
        · obtain rfl := hSame.symm.trans hId
          rcases hLate with hCanceled | hNever
          · exact hStatus.trans hCanceled
          · exact absurd hDeleted (hNever e hOld)
        · exact hBuried e hOld id hDeleted s hKept hId
      · obtain rfl := List.mem_singleton.mp hNew
        exact absurd hDeleted (hNotDeleted id)

/-- The tiers mirror the subscriptions, and what was deleted is canceled. -/
structure Mirrored (c : Calls) (w : World) : Prop where
  mirrors : Mirrors w.db
  buried : Buried c w

theorem Mirrored.record {applied : List Dict} (h : Mirrored c ⟨db, applied⟩) (key : Option String) :
    Mirrored c ⟨db.record key, applied⟩ := by
  cases key with
  | none => exact h
  | some id => exact ⟨h.mirrors.congr rfl rfl, h.buried⟩

theorem deletedOf_eq {event : Dict} {stripeId : String} (h : deletedOf c event = some stripeId) (hObj : eventObject event = .ok obj) :
    eventHandler event = .ok (some .subscriptionDeleted) ∧ c.column ((Dict.get obj "id").orElse (.str "")) = .ok stripeId := by
  unfold deletedOf at h
  split at h
  · next obj' hHandler hObj' =>
      obtain rfl := Fallible.same hObj hObj'
      refine ⟨hHandler, ?_⟩
      cases hId : c.column ((Dict.get obj "id").orElse (.str "")) with
      | error e => simp [hId, Except.toOption] at h
      | ok id => simpa [hId, Except.toOption] using h
  · cases h

theorem Mirrored.deliver {d : Delivery} (h : Mirrored c w) (hFits : Repeated c w d ∨ Orderly c w d) :
    Mirrored c (w.deliver c settings d) := by
  obtain ⟨hMirrors, hBuried⟩ := h
  rcases World.deliver_cases c settings w d with hSame | ⟨key, db, disposition, hKey, hNew, hHandled, hDone⟩
  · rw [hSame]
    exact ⟨hMirrors, hBuried⟩
  · replace hFits : Orderly c w d := hFits.resolve_left (not_repeated hKey hNew)
    suffices hRows : Mirrored c ⟨db, w.applied ++ [d.event]⟩ by
      rw [hDone]
      exact hRows.record key
    rcases handle_cases hHandled with ⟨hHandler, rfl⟩ | ⟨handler, obj, touched, hHandler, hObj, hTouched, hTaken⟩
    · refine ⟨hMirrors, hBuried.stays (Stays.of_eq rfl) fun stripeId hDeleted => ?_⟩
      simp [deletedOf, hHandler] at hDeleted
    · rcases hTaken with ⟨hErased, rfl⟩ | ⟨hAlive, hRun⟩
      · have hStopped : Stopped c w.db d.event := ⟨obj, touched, hObj, hTouched, hErased⟩
        exact ⟨hMirrors, hBuried.stays (Stays.of_eq rfl) fun stripeId hDeleted => hFits.stopped stripeId hDeleted hStopped⟩
      · by_cases hUpserted : handler = .subscriptionUpserted
        · subst hUpserted
          obtain ⟨hMirrors', hBuried'⟩ := upserted_step hMirrors hBuried hFits hHandler hObj
            (not_stopped hObj hTouched hAlive) hRun
          exact ⟨hMirrors', hBuried'⟩
        · obtain ⟨hMirrors', hStays⟩ := Handler.tiers hMirrors hUpserted hRun
          refine ⟨hMirrors', hBuried.stays hStays fun stripeId hDeleted s hs hId => ?_⟩
          obtain ⟨hIsDeleted, hColumn⟩ := deletedOf_eq hDeleted hObj
          obtain rfl := Option.some.inj (Fallible.same hHandler hIsDeleted)
          exact deleted_canceled hRun hColumn hs hId

/-- Over every sequence of events in which each new one is orderly, every tier
mirrors the subscriptions, and a deleted subscription stays canceled. -/
theorem tier_mirrors_orderly_events {w : World} (hMirrors : Mirrors w.db) (hNone : w.applied = []) {deliveries : List Delivery}
    (hFits : Throughout c settings (fun w d => Repeated c w d ∨ Orderly c w d) w deliveries) :
    Mirrors (w.deliverAll c settings deliveries).db ∧ Buried c (w.deliverAll c settings deliveries) := by
  have hStart : Mirrored c w := ⟨hMirrors, by simp [Buried, hNone]⟩
  have hMirrored : Mirrored c (w.deliverAll c settings deliveries) :=
    World.deliverAll_keeps (fun _ _ h hOrderly => h.deliver hOrderly) hStart hFits
  exact ⟨hMirrored.mirrors, hMirrored.buried⟩

/-- With one account there is no other whose tier could go wrong. -/
theorem orderly_of_one_account {d : Delivery} {a : Account} (hAccounts : w.db.accounts = [a]) (hAlive : a.deletedAt = none)
    (hRows : ∀ s ∈ w.db.subscriptions, s.accountId = a.id) (hNever : ∀ event ∈ w.applied, deletedOf c event = none) :
    Orderly c w d where
  upserted := by
    rintro - account status stripeId ⟨obj, metadata, -, -, -, hAccount, -, -⟩
    refine ⟨.inr fun event hEvent => by simp [hNever event hEvent], fun row hRow => Or.inl ?_⟩
    obtain rfl := List.mem_singleton.mp (hAccounts ▸ accountForEvent_mem hAccount)
    exact hRows row (subscription_mem hRow).1
  stopped := by
    rintro stripeId - ⟨obj, touched, -, hTouched, erased, hErased, hDeleted⟩
    obtain rfl := List.mem_singleton.mp (hAccounts ▸ touched_mem hTouched hErased)
    exact absurd hAlive hDeleted

def subscriptionEvent (id type status : String) (metadata : Dict) : Dict :=
  eventOf id type
    [("id", .str "sub_1"), ("customer", .str "cus_1"), ("status", .str status), ("metadata", .obj metadata)]

/-- A subscription is created, comes past due, and is deleted, which is said twice. -/
theorem tier_mirrors_created_then_deleted :
    Mirrors (oneCustomer.deliverAll textsOnly shippedSettings
      ([subscriptionEvent "evt_1" "customer.subscription.created" "active" [],
        subscriptionEvent "evt_2" "customer.subscription.updated" "past_due" [],
        subscriptionEvent "evt_3" "customer.subscription.deleted" "canceled" [],
        subscriptionEvent "evt_3" "customer.subscription.deleted" "canceled" []].map ofEvent)).db ∧
    Buried textsOnly (oneCustomer.deliverAll textsOnly shippedSettings
      ([subscriptionEvent "evt_1" "customer.subscription.created" "active" [],
        subscriptionEvent "evt_2" "customer.subscription.updated" "past_due" [],
        subscriptionEvent "evt_3" "customer.subscription.deleted" "canceled" [],
        subscriptionEvent "evt_3" "customer.subscription.deleted" "canceled" []].map ofEvent)) := by
  refine tier_mirrors_orderly_events ?_ rfl ⟨.inr ?_, .inr ?_, .inr ?_, .inl ?_, trivial⟩
  · simp [Mirrors, Live, oneCustomer]
  · exact orderly_of_one_account rfl rfl (by simp [oneCustomer]) (by simp [oneCustomer])
  · exact @orderly_of_one_account _ _ _ ⟨"acc-1", .subscribed, some "cus_1", none⟩ (by decide +kernel) rfl (by decide +kernel)
      (by decide +kernel)
  · exact @orderly_of_one_account _ _ _ ⟨"acc-1", .subscribed, some "cus_1", none⟩ (by decide +kernel) rfl (by decide +kernel)
      (by decide +kernel)
  · exact ⟨some "evt_3", by decide +kernel, by decide +kernel⟩

def twoCustomers : World :=
  ⟨⟨[⟨"acc-1", .free, some "cus_1", none⟩, ⟨"acc-2", .free, some "cus_2", none⟩], [], [], [], []⟩, []⟩

/-- A late update makes a deleted subscription active again. An update that names
another account cancels a subscription whose account stays subscribed. -/
theorem late_update_revives :
    (∃ s ∈ (oneCustomer.deliverAll textsOnly shippedSettings
        ([subscriptionEvent "evt_1" "customer.subscription.created" "active" [],
          subscriptionEvent "evt_2" "customer.subscription.deleted" "canceled" [],
          subscriptionEvent "evt_3" "customer.subscription.updated" "active" []].map ofEvent)).db.subscriptions,
      s.stripeSubscriptionId = "sub_1" ∧ s.status = .active) ∧
    ¬ Buried textsOnly (oneCustomer.deliverAll textsOnly shippedSettings
        ([subscriptionEvent "evt_1" "customer.subscription.created" "active" [],
          subscriptionEvent "evt_2" "customer.subscription.deleted" "canceled" [],
          subscriptionEvent "evt_3" "customer.subscription.updated" "active" []].map ofEvent)) ∧
    ¬ Mirrors (twoCustomers.deliverAll textsOnly shippedSettings
        ([subscriptionEvent "evt_1" "customer.subscription.created" "active" [],
          subscriptionEvent "evt_2" "customer.subscription.updated" "canceled"
            [("brnrd_account_id", .str "acc-2")]].map ofEvent)).db := by
  have hActive : ∃ s ∈ (oneCustomer.deliverAll textsOnly shippedSettings
      ([subscriptionEvent "evt_1" "customer.subscription.created" "active" [],
        subscriptionEvent "evt_2" "customer.subscription.deleted" "canceled" [],
        subscriptionEvent "evt_3" "customer.subscription.updated" "active" []].map ofEvent)).db.subscriptions,
      s.stripeSubscriptionId = "sub_1" ∧ s.status = .active := by decide +kernel
  refine ⟨hActive, fun hBuried => ?_, fun hMirrors => ?_⟩
  · obtain ⟨s, hs, hId, hStatus⟩ := hActive
    have hCanceled := hBuried (subscriptionEvent "evt_2" "customer.subscription.deleted" "canceled" []) (by decide +kernel)
      "sub_1" (by decide +kernel) s hs hId
    rw [hStatus] at hCanceled
    cases hCanceled
  · have hStays := hMirrors ⟨"acc-1", .subscribed, some "cus_1", none⟩ (by decide +kernel)
    obtain ⟨s, hs, hAccount, hLive⟩ := hStays.mp rfl
    have hNone : ∀ s ∈ (twoCustomers.deliverAll textsOnly shippedSettings
        ([subscriptionEvent "evt_1" "customer.subscription.created" "active" [],
          subscriptionEvent "evt_2" "customer.subscription.updated" "canceled"
            [("brnrd_account_id", .str "acc-2")]].map ofEvent)).db.subscriptions, s.status = .canceled := by decide +kernel
    exact hLive (hNone s hs)

end Brnrd.Billing
