import Brnrd.Billing.Balanced

/-! Refunds over a sequence of events: Stripe reports the amount refunded so far,
the handler takes back what it is told each time. -/
namespace Brnrd.Billing

open Python Project

/-- The payment and the amount of an event that says how much of it was refunded. -/
def refundOf (c : Calls) (event : Dict) : Option (String × Int) :=
  match eventHandler event, eventObject event with
  | .ok (some .chargeRefunded), .ok obj =>
      match lookupText c (Dict.get obj "payment_intent"), int ((Dict.get obj "amount_refunded").orElse (.int 0)) with
      | some payment, .ok cents => some (payment, cents)
      | _, _ => none
  | _, _ => none

/-- The amounts that events said were refunded of a payment. -/
def refunds (c : Calls) (events : List Dict) (payment : String) : List Int :=
  (events.filterMap (refundOf c)).filterMap fun said => if said.1 = payment then some said.2 else none

def largest (amounts : List Int) : Int :=
  amounts.foldl max 0

theorem largest_append (amounts : List Int) (n : Int) : largest (amounts ++ [n]) = max (largest amounts) n := by
  simp [largest]

/-- What was taken back of a purchased bucket is what was refunded of its payment. -/
def Clawed (c : Calls) (w : World) (b : CreditBucket) : Prop :=
  ∀ payment, b.source = .purchased → b.stripeRef = some payment →
    b.granted - b.remaining = min b.granted (largest (refunds c w.applied payment))

def Lawful (c : Calls) (w : World) : Prop :=
  ∀ b ∈ w.db.buckets, Clawed c w b

/-- A refund that can be taken back as it is said: the first of its payment, one
of all that was granted, or one after all was taken. Where the event is stopped,
nothing is taken back for it. -/
def FairRefund (c : Calls) (db : Db) (event : Dict) (cents : Int) (b : CreditBucket) : Prop :=
  b.remaining = 0 ∨ cents = 0 ∨ Stopped c db event ∧ cents ≤ b.granted - b.remaining ∨
    ¬ Stopped c db event ∧ (b.remaining = b.granted ∨ b.granted ≤ cents)

/-- A checkout whose payment was not refunded before, or is known. -/
def FairCheckout (c : Calls) (w : World) (obj : Dict) : Prop :=
  ∀ payment, c.reference ((Dict.get obj "payment_intent").orElse (Dict.get obj "id")) = .ok (some payment) →
    largest (refunds c w.applied payment) = 0 ∨ ∃ b ∈ w.db.buckets, b.stripeRef = some payment

/-- What an event has to be for the refunds to be taken back as they were made. -/
structure Fair (c : Calls) (w : World) (d : Delivery) : Prop where
  refund : ∀ payment cents, refundOf c d.event = some (payment, cents) →
    ∀ b ∈ w.db.buckets, b.stripeRef = some payment →
      (0 ≤ cents ∨ Stopped c w.db d.event) ∧ (b.source = .purchased → FairRefund c w.db d.event cents b)
  checkout : ∀ obj, eventHandler d.event = .ok (some .checkoutCompleted) → eventObject d.event = .ok obj →
    FairCheckout c w obj

variable {c : Calls} {settings : Settings} {db db' : Db} {obj event : Dict} {bucketId disposition : String}

variable {payment : String} {events : List Dict}

theorem refunds_append_none (hNone : refundOf c event = none) :
    refunds c (events ++ [event]) payment = refunds c events payment := by
  simp [refunds, hNone]

variable {most cents remaining : Int}

theorem refunds_append_other {said : String} (hSaid : refundOf c event = some (said, cents)) (hOther : said ≠ payment) :
    refunds c (events ++ [event]) payment = refunds c events payment := by
  simp [refunds, hSaid, hOther]

theorem refunds_append_same (hSaid : refundOf c event = some (payment, cents)) :
    refunds c (events ++ [event]) payment = refunds c events payment ++ [cents] := by
  simp [refunds, hSaid]

theorem refundOf_eq_some (h : refundOf c event = some (payment, cents)) :
    eventHandler event = .ok (some .chargeRefunded) ∧ ∃ obj, eventObject event = .ok obj ∧
      lookupText c (Dict.get obj "payment_intent") = some payment ∧
      int ((Dict.get obj "amount_refunded").orElse (.int 0)) = .ok cents := by
  unfold refundOf at h
  split at h
  · next obj hHandler hObj =>
      split at h
      · next hText hInt =>
          obtain ⟨rfl, rfl⟩ := Prod.mk.inj (Option.some.inj h)
          exact ⟨hHandler, obj, hObj, hText, hInt⟩
      · cases h
  · cases h

variable {b bucket : CreditBucket}

/-- The one bucket of a reference. -/
theorem granted_only {value : Value} (h : granted c db value = .ok (some bucket)) (hb : b ∈ db.buckets)
    (hRef : b.stripeRef = lookupText c value) : b = bucket := by
  unfold granted at h
  split at h
  · next hTruthy =>
      obtain ⟨text, hText, h⟩ := Fallible.peel h
      rw [lookupText, if_pos hTruthy, hText] at hRef
      have hFound : b ∈ (some bucket).toList := by
        rw [← oneOrNone_eq_ok h]
        exact List.mem_filter.mpr ⟨hb, decide_eq_true hRef⟩
      simpa using hFound
  · cases h

theorem expire_purchased {accountId op : String} (hb : b ∈ (expireBuckets db accountId .subscriberMonthly op).buckets)
    (hSource : b.source = .purchased) : b ∈ db.buckets := by
  obtain ⟨old, hOld, rfl⟩ := List.mem_map.mp hb
  split
  · next hLive =>
      rw [if_pos hLive] at hSource
      simp [isLive, show old.source = .purchased from hSource] at hLive
  · exact hOld

/-- A purchased bucket that was bought by this checkout. -/
structure Bought (c : Calls) (db : Db) (obj : Dict) (b : CreditBucket) : Prop where
  full : b.remaining = b.granted
  positive : 0 < b.granted
  reference : c.reference ((Dict.get obj "payment_intent").orElse (Dict.get obj "id")) = .ok b.stripeRef
  fresh : ∀ other ∈ db.buckets, b.stripeRef ≠ none → other.stripeRef ≠ b.stripeRef

theorem Bought.at_any_moment {now : String} (h : Bought { c with now := now } db obj b) : Bought c db obj b :=
  ⟨h.full, h.positive, h.reference, h.fresh⟩

/-- Every handler but the refund's leaves the purchased buckets as they are; a
checkout may add one. -/
theorem Handler.purchased {handler : Handler} (hOther : handler ≠ .chargeRefunded)
    (hRun : handler.run c bucketId settings db obj = .ok (db', disposition)) (hb : b ∈ db'.buckets)
    (hSource : b.source = .purchased) : b ∈ db.buckets ∨ handler = .checkoutCompleted ∧ Bought c db obj b := by
  cases handler with
  | checkoutCompleted =>
      rcases checkout_cases hRun with rfl | ⟨_, account, attached, -, -, hAttached, hDone⟩
      · exact .inl hb
      · rcases hDone with rfl | ⟨new, e, hGranted, hPositive, -, -, -, hRef⟩
        · exact .inl (hAttached.wallet.1 ▸ hb)
        · obtain ⟨rfl, hFull, -, -, -, hNewRef⟩ := hGranted
          rcases List.mem_append.mp hb with hOld | hNew
          · exact .inl (hAttached.wallet.1 ▸ hOld)
          · obtain rfl := List.mem_singleton.mp hNew
            exact .inr ⟨rfl, hFull, hPositive, hRef, hAttached.wallet.1 ▸ hNewRef⟩
  | subscriptionUpserted =>
      rcases upserted_cases hRun with rfl | ⟨_, account, _, _, _, _, written, attached, -, -, -, -, -, -, hWritten, hAttached, rfl⟩
      · exact .inl hb
      · exact .inl (hWritten.wallet.1 ▸ hAttached.wallet.1 ▸ hb)
  | subscriptionDeleted =>
      rcases deleted_cases hRun with ⟨rfl, -⟩ | ⟨_, row, closed, -, -, hClosed, hDone⟩
      · exact .inl hb
      · rcases hDone with ⟨-, rfl⟩ | ⟨account, entries, -, -, rfl⟩
        · exact .inl (hClosed.wallet.1 ▸ hb)
        · have hExpired : b ∈ (expireBuckets (closed.enter entries) account.id .subscriberMonthly
              "expire_subscriber_monthly").buckets := hb
          have hKept : b ∈ (closed.enter entries).buckets := expire_purchased hExpired hSource
          exact .inl (hClosed.wallet.1 ▸ hKept)
  | invoicePaid =>
      rcases invoicePaid_cases hRun with rfl | ⟨_, _, _, account, revived, entries, -, -, -, -, -, -, hRevived, -, hDone⟩
      · exact .inl hb
      · rcases hDone with rfl | ⟨new, e, hGranted, -, -, -, hMonthly, -⟩
        · have hKept : b ∈ (revived.enter entries).buckets := expire_purchased hb hSource
          exact .inl (hRevived.wallet.1 ▸ hKept)
        · obtain ⟨rfl, -, -, -, -, -⟩ := hGranted
          rcases List.mem_append.mp hb with hOld | hNew
          · have hKept : b ∈ (revived.enter entries).buckets := expire_purchased hOld hSource
            exact .inl (hRevived.wallet.1 ▸ hKept)
          · obtain rfl := List.mem_singleton.mp hNew
            exact absurd (hSource.symm.trans hMonthly) (by decide)
  | invoicePaymentFailed =>
      rcases paymentFailed_cases hRun with rfl | ⟨_, _, row, failed, entries, -, -, -, -, hFailed, -, rfl⟩
      · exact .inl hb
      · rcases hFailed with rfl | ⟨-, hRestated⟩
        · exact .inl hb
        · exact .inl (hRestated.wallet.1 ▸ hb)
  | chargeRefunded => exact absurd rfl hOther

/-- A fair refund makes what was taken of a bucket the largest amount. -/
theorem fair_claw {granted : Int} (hBounded : 0 ≤ remaining ∧ remaining ≤ granted)
    (hLaw : granted - remaining = min granted most) (hCents : 0 ≤ cents)
    (hFair : remaining = 0 ∨ cents = 0 ∨ remaining = granted ∨ granted ≤ cents) :
    granted - (remaining - min cents remaining) = min granted (max most cents) := by
  omega

/-- A refund that takes nothing back says nothing new. -/
theorem fair_stop {granted : Int} (hBounded : 0 ≤ remaining ∧ remaining ≤ granted)
    (hLaw : granted - remaining = min granted most) (hFair : remaining = 0 ∨ cents = 0 ∨ cents ≤ granted - remaining) :
    granted - remaining = min granted (max most cents) := by
  omega

variable {w : World}

/-- An event that says no refund leaves the purchased buckets, and may add one. -/
theorem Lawful.other {d : Delivery} (h : Lawful c w) (hFits : Fair c w d) (hNone : refundOf c d.event = none)
    (hOld : ∀ b ∈ db'.buckets, b.source = .purchased → b ∈ w.db.buckets ∨ ∃ obj, eventHandler d.event = .ok (some .checkoutCompleted) ∧ eventObject d.event = .ok obj ∧ Bought c w.db obj b) :
    Lawful c ⟨db', w.applied ++ [d.event]⟩ := by
  intro b hb payment hSource hRef
  rw [show (World.mk db' (w.applied ++ [d.event])).applied = w.applied ++ [d.event] from rfl, refunds_append_none hNone]
  rcases hOld b hb hSource with hMem | ⟨obj, hHandler, hObj, hBought⟩
  · exact h b hMem payment hSource hRef
  · have hNothing : largest (refunds c w.applied payment) = 0 := by
      rcases hFits.checkout obj hHandler hObj payment (hRef ▸ hBought.reference) with hZero | ⟨other, hOther, hSame⟩
      · exact hZero
      · exact absurd (hSame.trans hRef.symm) (hBought.fresh other hOther (by simp [hRef]))
    rw [hNothing, hBought.full, sub_self]
    exact (min_eq_right hBought.positive.le).symm

/-- An event that takes nothing back of any bucket. -/
theorem Lawful.untouched (h : Lawful c w) (hBalanced : Balanced w.db)
    (hFair : ∀ payment cents, refundOf c event = some (payment, cents) → ∀ b ∈ w.db.buckets, b.stripeRef = some payment → b.source = .purchased → b.remaining = 0 ∨ cents = 0 ∨ cents ≤ b.granted - b.remaining) :
    Lawful c ⟨w.db, w.applied ++ [event]⟩ := by
  intro b hb payment hSource hRef
  have hLaw := h b hb payment hSource hRef
  change b.granted - b.remaining = min b.granted (largest (refunds c (w.applied ++ [event]) payment))
  cases hSaid : refundOf c event with
  | none => rw [refunds_append_none hSaid]; exact hLaw
  | some said =>
      obtain ⟨said, cents⟩ := said
      by_cases hSame : said = payment
      · subst hSame
        rw [refunds_append_same hSaid, largest_append]
        exact fair_stop (hBalanced.bounded b hb) hLaw (hFair said cents hSaid b hb hRef hSource)
      · rw [refunds_append_other hSaid hSame]
        exact hLaw

/-- A refund that a handler takes. -/
theorem Lawful.refunded (h : Lawful c w) (hBalanced : Balanced w.db) (hSaid : refundOf c event = some (payment, cents))
    (hBucket : bucket ∈ w.db.buckets) (hRef : bucket.stripeRef = some payment)
    (hOnly : ∀ b ∈ w.db.buckets, b.stripeRef = some payment → b = bucket) (hCents : 0 ≤ cents)
    (hFair : bucket.source = .purchased → bucket.remaining = 0 ∨ cents = 0 ∨ bucket.remaining = bucket.granted ∨ bucket.granted ≤ cents)
    (e : LedgerEntry) :
    Lawful c ⟨(w.db.claw bucket.id (min cents bucket.remaining)).append e, w.applied ++ [event]⟩ := by
  intro b hb ref hSource hSame
  change b.granted - b.remaining = min b.granted (largest (refunds c (w.applied ++ [event]) ref))
  obtain ⟨old, hOld, rfl⟩ := List.mem_map.mp hb
  by_cases hId : old.id = bucket.id
  · obtain rfl := List.inj_on_of_nodup_map hBalanced.ids hOld hBucket hId
    simp only [if_pos] at hSource hSame ⊢
    obtain rfl : payment = ref := Option.mem_unique hRef hSame
    rw [refunds_append_same hSaid, largest_append]
    exact fair_claw (hBalanced.bounded old hOld) (h old hOld payment hSource hRef) hCents (hFair hSource)
  · simp only [if_neg hId] at hSource hSame ⊢
    have hOther : payment ≠ ref := by
      rintro rfl
      exact hId (congrArg CreditBucket.id (hOnly old hOld hSame))
    rw [refunds_append_other hSaid hOther]
    exact h old hOld ref hSource hSame

/-- What a refund's handler does, where the refund is fair. -/
theorem refund_step {d : Delivery} {touched : List Account} (hBalanced : Balanced w.db) (h : Lawful c w)
    (hFits : Fair c w d) (hHandler : eventHandler d.event = .ok (some .chargeRefunded))
    (hObj : eventObject d.event = .ok obj) (hTouched : accountsTouched c w.db obj = .ok touched)
    (hAlive : ∀ a ∈ touched, a.deletedAt = none)
    (hRun : onChargeRefunded { c with now := d.now } w.db obj = .ok (db', disposition)) :
    Balanced db' ∧ Lawful c ⟨db', w.applied ++ [d.event]⟩ := by
  have hNotStopped : ¬ Stopped c w.db d.event := not_stopped hObj hTouched hAlive
  rcases refunded_cases hRun with ⟨rfl, hNone⟩ | ⟨bucket, cents, e, hFound, hInt, hNamed, -, hDelta, hDone⟩
  · refine ⟨hBalanced, h.untouched hBalanced fun payment cents hSaid b hb hRef _ => ?_⟩
    obtain ⟨-, obj', hObj', hText, -⟩ := refundOf_eq_some hSaid
    obtain rfl : obj = obj' := Fallible.same hObj hObj'
    exact absurd hRef (granted_none hNone hText b hb)
  · obtain ⟨hBucket, hRef, hSome⟩ := granted_some hFound
    obtain ⟨payment, hText⟩ := Option.ne_none_iff_exists'.mp hSome
    have hLookup : lookupText c (Dict.get obj "payment_intent") = some payment := hText
    have hSaid : refundOf c d.event = some (payment, cents) := by
      simp [refundOf, hHandler, hObj, hLookup, hInt]
    obtain ⟨hCents, hFair⟩ := hFits.refund payment cents hSaid bucket hBucket (hRef.trans hText)
    have hPositive : 0 ≤ cents := hCents.resolve_right hNotStopped
    obtain rfl := refund_rows (le_min hPositive (hBalanced.bounded bucket hBucket).1) hDone
    refine ⟨hBalanced.refund hBucket hPositive hNamed hDelta, h.refunded hBalanced hSaid hBucket (hRef.trans hText)
      (fun b hb hSame => granted_only hFound hb (hSame.trans hText.symm)) hPositive (fun hSource => ?_) e⟩
    rcases hFair hSource with hSpent | hNothing | ⟨hStopped, -⟩ | ⟨-, hRest⟩
    · exact .inl hSpent
    · exact .inr (Or.inl hNothing)
    · exact absurd hStopped hNotStopped
    · exact .inr (Or.inr hRest)

theorem Balanced.record (h : Balanced db) (key : Option String) : Balanced (db.record key) := by
  cases key with
  | none => exact h
  | some id => exact h.congr rfl rfl

theorem Lawful.record {applied : List Dict} (h : Lawful c ⟨db, applied⟩) (key : Option String) :
    Lawful c ⟨db.record key, applied⟩ := by
  cases key <;> exact h

/-- A wallet that balances and from which was taken what was refunded. -/
structure Sound (c : Calls) (w : World) : Prop where
  balanced : Balanced w.db
  lawful : Lawful c w

theorem Sound.deliver (hCredits : 0 ≤ settings.subscriberMonthlyCredits) {d : Delivery} (h : Sound c w)
    (hFits : Repeated c w d ∨ Fair c w d) : Sound c (w.deliver c settings d) := by
  obtain ⟨hBalanced, hLawful⟩ := h
  rcases World.deliver_cases c settings w d with hSame | ⟨key, db, disposition, hKey, hNew, hHandled, hDone⟩
  · rw [hSame]
    exact ⟨hBalanced, hLawful⟩
  · replace hFits : Fair c w d := hFits.resolve_left (not_repeated hKey hNew)
    suffices hRows : Balanced db ∧ Lawful c ⟨db, w.applied ++ [d.event]⟩ by
      rw [hDone]
      exact ⟨hRows.1.record key, hRows.2.record key⟩
    rcases handle_cases hHandled with ⟨hHandler, rfl⟩ | ⟨handler, obj, touched, hHandler, hObj, hTouched, hTaken⟩
    · refine ⟨hBalanced, hLawful.untouched hBalanced fun payment cents hSaid => ?_⟩
      exact absurd (hHandler.symm.trans (refundOf_eq_some hSaid).1) (by simp)
    · rcases hTaken with ⟨hErased, rfl⟩ | ⟨hAlive, hRun⟩
      · refine ⟨hBalanced, hLawful.untouched hBalanced fun payment cents hSaid b hb hRef hSource => ?_⟩
        have hStopped : Stopped c w.db d.event := ⟨obj, touched, hObj, hTouched, hErased⟩
        rcases (hFits.refund payment cents hSaid b hb hRef).2 hSource with hSpent | hNothing | ⟨-, hLess⟩ | ⟨hNot, -⟩
        · exact .inl hSpent
        · exact .inr (Or.inl hNothing)
        · exact .inr (Or.inr hLess)
        · exact absurd hStopped hNot
      · by_cases hRefund : handler = .chargeRefunded
        · subst hRefund
          exact refund_step hBalanced hLawful hFits hHandler hObj hTouched hAlive hRun
        · refine ⟨Handler.balanced hCredits hBalanced hRefund hRun, hLawful.other hFits ?_ fun b hb hSource => ?_⟩
          · refine Option.eq_none_iff_forall_ne_some.mpr fun said hSaid => hRefund ?_
            exact Option.some.inj (Except.ok.inj (hHandler.symm.trans (refundOf_eq_some hSaid).1))
          · rcases Handler.purchased hRefund hRun hb hSource with hOld | ⟨rfl, hBought⟩
            · exact .inl hOld
            · exact .inr ⟨obj, hHandler, hObj, hBought.at_any_moment⟩

/-- No bucket was granted and no event was applied. -/
def Opening (w : World) : Prop :=
  w.applied = [] ∧ w.db.buckets = [] ∧ ∀ e ∈ w.db.ledger, e.bucketId = none

theorem Opening.sound (h : Opening w) : Sound c w := by
  obtain ⟨-, hBuckets, hLedger⟩ := h
  refine ⟨⟨?_, ?_, ?_, ?_, ?_, ?_⟩, ?_⟩
  · simp [hBuckets]
  · simp [hBuckets]
  · simp [hBuckets]
  · simp [hBuckets]
  · simp [hBuckets]
  · exact fun e he id hId => absurd (hId.symm.trans (hLedger e he)) (by simp)
  · simp [Lawful, hBuckets]

/-- Over every sequence of events in which each new refund is fair, the wallet
balances and what was taken back of a payment's bucket is what was refunded of it. -/
theorem wallet_balances_where_refunds_are_fair (hCredits : 0 ≤ settings.subscriberMonthlyCredits) {w : World}
    (hOpening : Opening w) {deliveries : List Delivery}
    (hFits : Throughout c settings (fun w d => Repeated c w d ∨ Fair c w d) w deliveries) :
    Balanced (w.deliverAll c settings deliveries).db ∧ Lawful c (w.deliverAll c settings deliveries) := by
  have hSound : Sound c (w.deliverAll c settings deliveries) :=
    World.deliverAll_keeps (fun _ _ h hFair => Sound.deliver hCredits h hFair) hOpening.sound hFits
  exact ⟨hSound.balanced, hSound.lawful⟩

def topup : Dict :=
  eventOf "evt_1" "checkout.session.completed"
    [("id", .str "cs_1"), ("customer", .str "cus_1"), ("mode", .str "payment"), ("payment_intent", .str "pi_1"),
      ("metadata", .obj [("brnrd_purpose", .str "wallet_topup"), ("brnrd_credits", .str "500")])]

def refund (id : String) (cents : Int) : Dict :=
  eventOf id "charge.refunded" [("payment_intent", .str "pi_1"), ("amount_refunded", .int cents)]

theorem oneCustomer_opening : Opening oneCustomer :=
  ⟨rfl, rfl, by simp [oneCustomer]⟩

theorem fair_topup : Fair textsOnly oneCustomer (ofEvent topup) where
  refund := by
    intro payment cents _ b hb
    cases hb
  checkout := by
    intro obj _ _ payment _
    exact .inl rfl

/-- A refund is fair where it is for the one bucket there is. -/
theorem fair_refund {w : World} {id : String} {cents : Int} {b : CreditBucket} (hBuckets : w.db.buckets = [b])
    (hSaid : refundOf textsOnly (refund id cents) = some ("pi_1", cents)) (hCents : 0 ≤ cents)
    (hFair : FairRefund textsOnly w.db (refund id cents) cents b) : Fair textsOnly w (ofEvent (refund id cents)) where
  refund := by
    intro payment n hSaid' other hOther _
    obtain ⟨-, rfl⟩ := Prod.mk.inj (Option.mem_unique hSaid hSaid')
    obtain rfl := List.mem_singleton.mp (hBuckets ▸ hOther)
    exact ⟨.inl hCents, fun _ => hFair⟩
  checkout := by
    intro obj hHandler
    exact absurd ((refundOf_eq_some hSaid).1.symm.trans hHandler) (by simp)

/-- A refund of a part, again in a redelivery, and then of all. -/
theorem wallet_balances_part_then_all :
    (Balanced (oneCustomer.deliverAll textsOnly shippedSettings
        ([topup, refund "evt_2" 100, refund "evt_2" 100, refund "evt_3" 500].map ofEvent)).db ∧
      Lawful textsOnly (oneCustomer.deliverAll textsOnly shippedSettings
        ([topup, refund "evt_2" 100, refund "evt_2" 100, refund "evt_3" 500].map ofEvent))) := by
  have hAlive : ∀ {w : World} {id : String} {cents : Int}, w.db.accounts = oneCustomer.db.accounts →
      ¬ Stopped textsOnly w.db (refund id cents) := by
    intro w id cents hAccounts
    rintro ⟨obj, touched, -, hTouched, a, ha, hDeleted⟩
    obtain rfl := List.mem_singleton.mp (hAccounts ▸ touched_mem hTouched ha)
    exact hDeleted rfl
  refine wallet_balances_where_refunds_are_fair (by decide) oneCustomer_opening
    ⟨.inr fair_topup, .inr ?_, .inl ?_, .inr ?_, trivial⟩
  · refine fair_refund (b := ⟨"bkt-1", "acc-1", .purchased, 500, 500, none, some "pi_1"⟩) (by decide +kernel) (by decide +kernel) (by decide) ?_
    exact .inr (Or.inr (Or.inr ⟨hAlive (by decide +kernel), .inl rfl⟩))
  · exact ⟨some "evt_2", by decide +kernel, by decide +kernel⟩
  · refine fair_refund (b := ⟨"bkt-1", "acc-1", .purchased, 500, 400, none, some "pi_1"⟩) (by decide +kernel) (by decide +kernel) (by decide) ?_
    exact .inr (Or.inr (Or.inr ⟨hAlive (by decide +kernel), .inr le_rfl⟩))

/-- Of a payment of 500 first 100 and then 200 in all are refunded: 300 is taken back. -/
theorem second_refund_takes_too_much :
    let w := oneCustomer.deliverAll textsOnly shippedSettings ([topup, refund "evt_2" 100, refund "evt_3" 200].map ofEvent)
    Opening oneCustomer ∧ w.db.buckets = [⟨"bkt-1", "acc-1", .purchased, 500, 200, none, some "pi_1"⟩] ∧
      largest (refunds textsOnly w.applied "pi_1") = 200 ∧ ¬ Lawful textsOnly w := by
  have hBuckets : (oneCustomer.deliverAll textsOnly shippedSettings
      ([topup, refund "evt_2" 100, refund "evt_3" 200].map ofEvent)).db.buckets =
        [⟨"bkt-1", "acc-1", .purchased, 500, 200, none, some "pi_1"⟩] := by decide +kernel
  have hLargest : largest (refunds textsOnly (oneCustomer.deliverAll textsOnly shippedSettings
      ([topup, refund "evt_2" 100, refund "evt_3" 200].map ofEvent)).applied "pi_1") = 200 := by decide +kernel
  refine ⟨oneCustomer_opening, hBuckets, hLargest, fun hLawful => ?_⟩
  have hClawed := hLawful _ (hBuckets ▸ List.mem_singleton_self _) "pi_1" rfl rfl
  rw [hLargest] at hClawed
  exact absurd hClawed (by decide)

end Brnrd.Billing
