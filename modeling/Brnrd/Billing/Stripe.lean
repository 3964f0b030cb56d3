import Brnrd.Billing.Wallet

/-! The Stripe webhook: what each type of event does to the rows, the guard for
erased accounts in front of all of them, and the delivery that drops an event
it has recorded. -/
namespace Brnrd.Billing

open Python Project

/-- `Settings`, as far as the handlers read it. -/
structure Settings where
  pricePublicMonthly : String
  pricePublicAnnual : String
  subscriberMonthlyCredits : Int

abbrev Handled := Billed (Db × String)

/-- `_cohort_for_price`. -/
def cohortForPrice (settings : Settings) (priceId : Value) : Cohort :=
  if priceId = .str settings.pricePublicMonthly ∨ priceId = .str settings.pricePublicAnnual then .cohortPublic
  else .cohortSupporter

/-- `select(Account).where(Account.stripe_customer_id == customer_id)`. -/
def Db.customers (db : Db) (customerId : String) : List Account :=
  db.accounts.filter fun a => a.stripeCustomerId = some customerId

/-- The account of an id, where it is truthy. -/
def namedAccount (c : Calls) (db : Db) (accountId : Value) : Billed (Option Account) :=
  if accountId.truthy then (c.column accountId).map db.account else .ok none

/-- `_account_for_event`. -/
def accountForEvent (c : Calls) (db : Db) (metadata : Dict) (customerId : Value) : Billed (Option Account) := do
  match ← namedAccount c db (Dict.get metadata "brnrd_account_id") with
  | some account => .ok (some account)
  | none =>
      if customerId.truthy then do
        let customerId ← c.column customerId
        oneOrNone (db.customers customerId)
      else .ok none

/-- `items[0]`, of a value that is truthy. -/
def firstItem : Value → Billed Value
  | .arr (first :: _) => .ok first
  | .arr [] => .error (.raised .value)
  | .str text => .ok (.str (String.ofList (text.toList.take 1)))
  | .obj _ => .error (.raised (.key "0"))
  | _ => .error (.raised .type)

/-- What a subscription object says. -/
structure SubscriptionFields where
  priceId : Value
  annual : Bool
  periodEnd : Option String

/-- `fromtimestamp(value)`, where it is truthy. -/
def Calls.moment (c : Calls) (stamp : Value) : Billed (Option String) :=
  if stamp.truthy then (raising (c.fromTimestamp stamp)).map some else .ok none

/-- `_subscription_fields`. -/
def subscriptionFields (c : Calls) (obj : Dict) : Billed SubscriptionFields := do
  let items ← orDict (Dict.get obj "items")
  let first ← firstItem ((Dict.get items "data").orElse (.arr [.obj []]))
  let first ← raising (fields first)
  let price ← orDict (Dict.get first "price")
  let recurring ← orDict (Dict.get price "recurring")
  let periodEnd ← c.moment ((Dict.get obj "current_period_end").orElse (Dict.get first "current_period_end"))
  .ok ⟨(Dict.get price "id").orElse (.str ""), Dict.get recurring "interval" = .str "year", periodEnd⟩

/-- `_invoice_subscription_id`'s reading of one `subscription`. -/
def subscriptionRef : Value → Option Value
  | .str sub => if sub ≠ "" then some (.str sub) else none
  | .obj sub => some (Dict.get sub "id")
  | _ => none

/-- `_invoice_subscription_id`. -/
def invoiceSubscriptionId (obj : Dict) : Billed Value :=
  match subscriptionRef (Dict.get obj "subscription") with
  | some ref => .ok ref
  | none => do
      let parent ← orDict (Dict.get obj "parent")
      let details ← orDict (Dict.get parent "subscription_details")
      .ok ((subscriptionRef (Dict.get details "subscription")).getD .null)

/-- `int(metadata.get("brnrd_credits") or 0)`, and `0` after a `ValueError`. -/
def creditsOf (value : Value) : Billed Int :=
  match int (value.orElse (.int 0)) with
  | .ok n => .ok n
  | .error .value => if overflows value then .error (.raised .value) else .ok 0
  | .error e => .error (.raised e)

/-- The value where `isinstance(value, int)` holds. -/
def instanceInt : Value → Option Int
  | .int n => some n
  | .bool b => some (if b then 1 else 0)
  | _ => none

/-- The credits of a top-up: as many as were asked for, else one for each cent. -/
def topupCredits (metadata obj : Dict) : Billed Int := do
  let asked ← creditsOf (Dict.get metadata "brnrd_credits")
  .ok (if asked ≤ 0 then (instanceInt (Dict.get obj "amount_total")).getD asked else asked)

/-- The customer is set on the account, where it has none. -/
def attachCustomer (c : Calls) (db : Db) (accountId : String) (customer : Value) (isBare : Bool) : Billed Db :=
  if isBare && customer.truthy then
    (c.column customer).map fun id => db.setAccount accountId fun a => { a with stripeCustomerId := some id }
  else .ok db

/-- `_on_checkout_completed`. -/
def onCheckoutCompleted (c : Calls) (bucketId : String) (db : Db) (obj : Dict) : Handled := do
  let metadata ← orDict (Dict.get obj "metadata")
  let customer := Dict.get obj "customer"
  match ← accountForEvent c db metadata customer with
  | none => .ok (db, "no-account")
  | some account => do
      let attached ← attachCustomer c db account.id customer (account.stripeCustomerId.all (· = ""))
      if Dict.get metadata "brnrd_purpose" = .str "wallet_topup" ∧ Dict.get obj "mode" = .str "payment" then do
        let credits ← topupCredits metadata obj
        if credits ≤ 0 then .ok (attached, "topup-no-credits")
        else do
          let topped ← grantBucket c bucketId attached
            { accountId := account.id, source := .purchased, credits := credits, op := "topup", expiresAt := none
              stripeRef := (Dict.get obj "payment_intent").orElse (Dict.get obj "id")
              metadata := [("checkout_session", Dict.get obj "id")] }
          match topped with
          | some db => .ok (db, "topup-granted")
          | none => .ok (attached, "topup-duplicate")
      else .ok (attached, "customer-attached")

/-- `_STATUS_MAP.get(status or "", canceled)`. -/
def statusOf (status : Value) : Billed Status :=
  match status.orElse (.str "") with
  | .str "active" | .str "trialing" => .ok .active
  | .str "past_due" => .ok .pastDue
  | status => (raising (if status.hashable then .ok () else .error .type)).map fun _ => .canceled

/-- What a subscription object sets on the row there is. -/
def Subscription.restate (c : Calls) (said : SubscriptionFields) (price : String) (status : Status) (ending : Bool)
    (row : Subscription) : Subscription :=
  { row with
    stripePriceId := if said.priceId.truthy then price else row.stripePriceId
    annual := said.annual
    status := status
    cancelAtPeriodEnd := ending
    currentPeriodEnd := said.periodEnd.or row.currentPeriodEnd
    updatedAt := c.now }

/-- `_on_subscription_upserted`. -/
def onSubscriptionUpserted (c : Calls) (settings : Settings) (db : Db) (obj : Dict) : Handled := do
  let metadata ← orDict (Dict.get obj "metadata")
  let customer := Dict.get obj "customer"
  match ← accountForEvent c db metadata customer with
  | none => .ok (db, "no-account")
  | some account => do
      let said ← subscriptionFields c obj
      let status ← statusOf (Dict.get obj "status")
      let stripeId ← c.column ((Dict.get obj "id").orElse (.str ""))
      let price ← c.column said.priceId
      let found ← db.subscription stripeId
      let ending := (Dict.get obj "cancel_at_period_end").truthy
      let written := match found with
        | none =>
            let row : Subscription := ⟨account.id, stripeId, price, cohortForPrice settings said.priceId, said.annual,
              status, ending, said.periodEnd, c.now⟩
            { db with subscriptions := db.subscriptions ++ [row] }.append ⟨account.id, "subscription_started", 0, none,
              [("stripe_subscription_id", .str stripeId), ("price_id", said.priceId)]⟩
        | some row =>
            let db := db.setSubscription stripeId (Subscription.restate c said price status ending)
            if ending && !row.cancelAtPeriodEnd then
              db.append ⟨account.id, "subscription_canceled_at_period_end", 0, none,
                [("stripe_subscription_id", .str stripeId)]⟩
            else db
      let attached ← attachCustomer c written account.id customer account.stripeCustomerId.isNone
      .ok (refreshTier attached account.id, if found.isNone then "subscription-created" else "subscription-updated")

/-- `_on_subscription_deleted`. -/
def onSubscriptionDeleted (c : Calls) (db : Db) (obj : Dict) : Handled := do
  let stripeId ← c.column ((Dict.get obj "id").orElse (.str ""))
  match ← db.subscription stripeId with
  | none => .ok (db, "no-subscription")
  | some row =>
      let closed := db.setSubscription stripeId fun row => { row with status := .canceled, updatedAt := c.now }
      match closed.account row.accountId with
      | none => .ok (closed, "no-account")
      | some account =>
          let op := if row.cancelAtPeriodEnd then "subscription_ended" else "subscription_canceled_immediate"
          let entered := closed.append ⟨account.id, op, 0, none, [("stripe_subscription_id", .str stripeId)]⟩
          let expired := expireBuckets entered account.id .subscriberMonthly "expire_subscriber_monthly"
          .ok (refreshTier expired account.id, "subscription-canceled")

/-- The end of the period that an invoice's first line is for. -/
def linePeriodEnd (c : Calls) (obj : Dict) : Billed (Option String) := do
  let lines ← orDict (Dict.get obj "lines")
  let data := Dict.get lines "data"
  if data.truthy then do
    let first ← firstItem data
    let first ← raising (fields first)
    let period ← orDict (Dict.get first "period")
    c.moment (Dict.get period "end")
  else .ok none

/-- The account an invoice is for: that of its subscription's row, else the customer's. -/
def invoiceAccount (c : Calls) (db : Db) (obj : Dict) : Option Subscription → Billed (Option Account)
  | some row => .ok (db.account row.accountId)
  | none => accountForEvent c db [] (Dict.get obj "customer")

/-- `_on_invoice_paid`. -/
def onInvoicePaid (c : Calls) (bucketId : String) (settings : Settings) (db : Db) (obj : Dict) : Handled := do
  let subscriptionId ← invoiceSubscriptionId obj
  if !subscriptionId.truthy then .ok (db, "ignored")
  else do
    let stripeId ← c.column subscriptionId
    let row ← db.subscription stripeId
    match ← invoiceAccount c db obj row with
    | none => .ok (db, "no-account")
    | some account =>
        match ← granted c db (Dict.get obj "id") with
        | some _ => .ok (db, "grant-duplicate")
        | none => do
            let revived := if row.any fun row => row.status = .pastDue then
                refreshTier (db.setSubscription stripeId fun row => { row with status := .active }) account.id
              else db
            let renewed := if Dict.get obj "billing_reason" = .str "subscription_cycle" then
                revived.append ⟨account.id, "subscription_renewed", 0, none,
                  [("stripe_subscription_id", subscriptionId), ("invoice", Dict.get obj "id")]⟩
              else revived
            let expired := expireBuckets renewed account.id .subscriberMonthly "expire_subscriber_monthly"
            let lineEnd ← linePeriodEnd c obj
            let topped ← grantBucket c bucketId expired
              { accountId := account.id, source := .subscriberMonthly, credits := settings.subscriberMonthlyCredits
                op := "grant_subscriber_monthly", expiresAt := lineEnd.or (row.bind Subscription.currentPeriodEnd)
                stripeRef := Dict.get obj "id", metadata := [("stripe_subscription_id", subscriptionId)] }
            match topped with
            | some db => .ok (db, "grant-issued")
            | none => .ok (expired, "grant-duplicate")

/-- `_on_invoice_payment_failed`. -/
def onInvoicePaymentFailed (c : Calls) (db : Db) (obj : Dict) : Handled := do
  let subscriptionId ← invoiceSubscriptionId obj
  if !subscriptionId.truthy then .ok (db, "ignored")
  else do
    let stripeId ← c.column subscriptionId
    match ← db.subscription stripeId with
    | none => .ok (db, "no-subscription")
    | some row =>
        let failed := if row.status = .active then
            db.setSubscription stripeId fun row => { row with status := .pastDue, updatedAt := c.now }
          else db
        match failed.account row.accountId with
        | none => .ok (failed, "past-due")
        | some account => .ok (failed.append ⟨account.id, "subscription_payment_failed", 0, none,
            [("stripe_subscription_id", subscriptionId), ("invoice", Dict.get obj "id")]⟩, "past-due")

/-- `_on_charge_refunded`. -/
def onChargeRefunded (c : Calls) (db : Db) (obj : Dict) : Handled := do
  let paymentIntent := Dict.get obj "payment_intent"
  match ← granted c db paymentIntent with
  | none => .ok (db, if paymentIntent.truthy then "no-bucket" else "ignored")
  | some bucket => do
      let refunded := (Dict.get obj "amount_refunded").orElse (.int 0)
      let cents ← raising (int refunded)
      let clawback := min cents bucket.remaining
      let clawed := if 0 < clawback then
          { db with buckets := db.buckets.map fun b =>
              if b.id = bucket.id then { b with remaining := b.remaining - clawback } else b }
        else db
      .ok (clawed.append ⟨bucket.accountId, "refund_purchased", -clawback, some bucket.id,
        [("payment_intent", paymentIntent), ("amount_refunded_cents", refunded)]⟩, "refund-applied")

/-- `_EVENT_HANDLERS`. -/
inductive Handler where
  | checkoutCompleted
  | subscriptionUpserted
  | subscriptionDeleted
  | invoicePaid
  | invoicePaymentFailed
  | chargeRefunded
  deriving DecidableEq

def handlerOf : String → Option Handler
  | "checkout.session.completed" => some .checkoutCompleted
  | "customer.subscription.created" => some .subscriptionUpserted
  | "customer.subscription.updated" => some .subscriptionUpserted
  | "customer.subscription.deleted" => some .subscriptionDeleted
  | "invoice.paid" => some .invoicePaid
  | "invoice.payment_failed" => some .invoicePaymentFailed
  | "charge.refunded" => some .chargeRefunded
  | _ => none

def Handler.run (c : Calls) (bucketId : String) (settings : Settings) (db : Db) (obj : Dict) : Handler → Handled
  | .checkoutCompleted => onCheckoutCompleted c bucketId db obj
  | .subscriptionUpserted => onSubscriptionUpserted c settings db obj
  | .subscriptionDeleted => onSubscriptionDeleted c db obj
  | .invoicePaid => onInvoicePaid c bucketId settings db obj
  | .invoicePaymentFailed => onInvoicePaymentFailed c db obj
  | .chargeRefunded => onChargeRefunded c db obj

/-- `_strs`. -/
def strs (values : List Value) : List String :=
  values.filterMap fun
    | .str text => if text ≠ "" then some text else none
    | _ => none

/-- The account id a value names, where it is truthy. -/
def remember (c : Calls) (accountId : Value) : Billed (List String) :=
  if accountId.truthy then (c.column accountId).map fun id => [id] else .ok []

/-- `_accounts_touched`. -/
def accountsTouched (c : Calls) (db : Db) (obj : Dict) : Billed (List Account) := do
  let metadata ← orDict (Dict.get obj "metadata")
  let named ← remember c (Dict.get metadata "brnrd_account_id")
  let customers := strs [Dict.get obj "customer"]
  let invoiced ← invoiceSubscriptionId obj
  let subscriptions := strs [Dict.get obj "id", invoiced]
  let buckets := strs [Dict.get obj "payment_intent", Dict.get obj "id"]
  let ids := named ++
    (db.accounts.filter fun a => a.stripeCustomerId.any (· ∈ customers)).map Account.id ++
    (db.subscriptions.filter fun s => s.stripeSubscriptionId ∈ subscriptions).map Subscription.accountId ++
    (db.buckets.filter fun b => b.stripeRef.any (· ∈ buckets)).map CreditBucket.accountId
  .ok (ids.filterMap db.account)

/-- The object of an event. -/
def eventObject (event : Dict) : Billed Dict := do
  let data ← orDict (Dict.get event "data")
  orDict (Dict.get data "object")

/-- The handler of an event. -/
def eventHandler (event : Dict) : Billed (Option Handler) :=
  match (Dict.get event "type").orElse (.str "") with
  | .str type => .ok (handlerOf type)
  | type => if type.hashable then .ok none else .error (.raised .type)

/-- `handle_stripe_event`. -/
def handleStripeEvent (c : Calls) (bucketId : String) (settings : Settings) (db : Db) (event : Dict) : Handled := do
  match ← eventHandler event with
  | none => .ok (db, "ignored")
  | some handler => do
      let obj ← eventObject event
      let touched ← accountsTouched c db obj
      if touched.any fun account => account.deletedAt.isSome then .ok (db, "account-deleted")
      else handler.run c bucketId settings db obj

/-- The key an event is recorded under, where it has one. -/
def eventKey (c : Calls) (event : Dict) : Billed (Option String) :=
  let eventId := (Dict.get event "id").orElse (.str "")
  if eventId.truthy then (c.column eventId).map some else .ok none

/-- An event that was recorded before. -/
def isRecorded (db : Db) (key : Option String) : Bool :=
  key.any fun id => id ∈ db.events

/-- `db.add(StripeEvent(..))`. -/
def Db.record (db : Db) : Option String → Db
  | some id => { db with events := db.events ++ [id] }
  | none => db

/-- `stripe_webhook`, after the signature. -/
def stripeWebhook (c : Calls) (bucketId : String) (settings : Settings) (db : Db) (event : Dict) : Handled := do
  let key ← eventKey c event
  if isRecorded db key then .ok (db, "duplicate")
  else do
    let (db, disposition) ← handleStripeEvent c bucketId settings db event
    .ok (db.record key, disposition)

/-- One event at the door, with what is drawn for it: the id of a bucket and the
moment. -/
structure Delivery where
  event : Dict
  bucketId : String
  now : String

/-- The rows, and the events that were applied to them. -/
structure World where
  db : Db
  applied : List Dict

/-- An event is handled in one transaction: where it raises, nothing is kept. -/
def World.deliver (c : Calls) (settings : Settings) (w : World) (d : Delivery) : World :=
  match eventKey c d.event, stripeWebhook { c with now := d.now } d.bucketId settings w.db d.event with
  | .ok key, .ok (db, _) => ⟨db, if isRecorded w.db key then w.applied else w.applied ++ [d.event]⟩
  | _, _ => w

def World.deliverAll (c : Calls) (settings : Settings) (w : World) (deliveries : List Delivery) : World :=
  deliveries.foldl (World.deliver c settings) w

/-- Every delivery of a sequence meets a condition, in the world it comes to. -/
def Throughout (c : Calls) (settings : Settings) (fits : World → Delivery → Prop) (w : World) :
    List Delivery → Prop
  | [] => True
  | d :: rest => fits w d ∧ Throughout c settings fits (w.deliver c settings d) rest

/-- A delivery that changes anything is of an event that was not recorded and
that is handled. -/
theorem World.deliver_cases (c : Calls) (settings : Settings) (w : World) (d : Delivery) :
    w.deliver c settings d = w ∨ ∃ key db disposition, eventKey c d.event = .ok key ∧ isRecorded w.db key = false ∧
      handleStripeEvent { c with now := d.now } d.bucketId settings w.db d.event = .ok (db, disposition) ∧
      w.deliver c settings d = ⟨db.record key, w.applied ++ [d.event]⟩ := by
  have hKey : eventKey { c with now := d.now } d.event = eventKey c d.event := by
    unfold eventKey Calls.column
    rfl
  cases hEvent : eventKey c d.event with
  | error e => exact .inl (by simp [World.deliver, hEvent])
  | ok key =>
      cases hRecorded : isRecorded w.db key with
      | true =>
          have hSame : stripeWebhook { c with now := d.now } d.bucketId settings w.db d.event = .ok (w.db, "duplicate") := by
            simp [stripeWebhook, hKey, hEvent, hRecorded, Fallible.ok_bind]
          exact .inl (by simp [World.deliver, hEvent, hSame, hRecorded])
      | false =>
          cases hHandled : handleStripeEvent { c with now := d.now } d.bucketId settings w.db d.event with
          | error e =>
              have hRaised : stripeWebhook { c with now := d.now } d.bucketId settings w.db d.event = .error e := by
                simp [stripeWebhook, hKey, hEvent, hRecorded, hHandled, Fallible.ok_bind]
                rfl
              exact .inl (by simp [World.deliver, hEvent, hRaised])
          | ok result =>
              obtain ⟨db, disposition⟩ := result
              have hDone : stripeWebhook { c with now := d.now } d.bucketId settings w.db d.event =
                  .ok (db.record key, disposition) := by
                simp [stripeWebhook, hKey, hEvent, hRecorded, hHandled, Fallible.ok_bind]
              exact .inr ⟨key, db, disposition, rfl, hRecorded, rfl, by simp [World.deliver, hEvent, hDone, hRecorded]⟩

/-- What every fitting delivery keeps, a sequence of them keeps. -/
theorem World.deliverAll_keeps {c : Calls} {settings : Settings} {fits : World → Delivery → Prop} {keeps : World → Prop}
    (hStep : ∀ w d, keeps w → fits w d → keeps (w.deliver c settings d)) {w : World} {deliveries : List Delivery}
    (hStart : keeps w) (hFits : Throughout c settings fits w deliveries) : keeps (w.deliverAll c settings deliveries) := by
  induction deliveries generalizing w with
  | nil => exact hStart
  | cons d rest ih => exact ih (hStep w d hStart hFits.1) hFits.2

/-- A driver that takes texts only. -/
def textsOnly : Calls :=
  ⟨fun _ => .error .type, fun _ => .error .type, "2026-07-23"⟩

def shippedSettings : Settings :=
  ⟨"price_monthly", "price_annual", 300⟩

def eventOf (id type : String) (obj : Dict) : Dict :=
  [("id", .str id), ("type", .str type), ("data", .obj [("object", .obj obj)])]

def oneCustomer : World :=
  ⟨⟨[⟨"acc-1", .free, some "cus_1", none⟩], [], [], [], []⟩, []⟩

def ofEvent (event : Dict) : Delivery :=
  ⟨event, "bkt-1", "2026-07-23"⟩

end Brnrd.Billing
