import Brnrd.Billing.Balanced
import Brnrd.Tables.Sweep

/-! The guard in front of the handlers: the rows of an erased account stay as they
are, except for a subscription row without an id. -/
namespace Brnrd.Billing

open Python

/-- The rows of an account. -/
def Db.rowsOf (db : Db) (accountId : String) :
    List Account × List Subscription × List CreditBucket × List LedgerEntry :=
  (db.accounts.filter (·.id = accountId), db.subscriptions.filter (·.accountId = accountId),
    db.buckets.filter (·.accountId = accountId), db.ledger.filter (·.accountId = accountId))

/-- The primary keys are keys. -/
structure Keyed (db : Db) : Prop where
  accounts : (db.accounts.map Account.id).Nodup
  buckets : (db.buckets.map CreditBucket.id).Nodup

variable {c : Calls} {settings : Settings} {db db' : Db} {obj event : Dict} {bucketId disposition id accountId stripeId : String}

theorem rowsOf_setAccount {change : Account → Account} (hId : ∀ a, (change a).id = a.id) (hOther : id ≠ accountId) :
    (db.setAccount id change).rowsOf accountId = db.rowsOf accountId := by
  have hAccounts : (db.setAccount id change).accounts.filter (·.id = accountId) = db.accounts.filter (·.id = accountId) := by
    refine Tables.filter_map_fixed fun a _ => ?_
    by_cases hSame : a.id = id
    · simp [hSame, hId, hOther]
    · simp [hSame]
  rw [Db.rowsOf, hAccounts]
  rfl

variable {change : Subscription → Subscription}

theorem rowsOf_setSubscription (hAccount : ∀ s, (change s).accountId = s.accountId)
    (hOther : ∀ s ∈ db.subscriptions, s.stripeSubscriptionId = stripeId → s.accountId ≠ accountId) :
    (db.setSubscription stripeId change).rowsOf accountId = db.rowsOf accountId := by
  have hRows : (db.setSubscription stripeId change).subscriptions.filter (·.accountId = accountId) =
      db.subscriptions.filter (·.accountId = accountId) := by
    refine Tables.filter_map_fixed fun s hs => ?_
    by_cases hSame : s.stripeSubscriptionId = stripeId
    · simp [hSame, hAccount, hOther s hs hSame]
    · simp [hSame]
  rw [Db.rowsOf, hRows]
  rfl

theorem rowsOf_enter {entries : List LedgerEntry} (hOther : ∀ e ∈ entries, e.accountId ≠ accountId) :
    (db.enter entries).rowsOf accountId = db.rowsOf accountId := by
  have hNone : entries.filter (·.accountId = accountId) = [] := by simpa using hOther
  simp [Db.rowsOf, Db.enter, hNone]

theorem rowsOf_expire {source : Source} {op : String} (hOther : id ≠ accountId) :
    (expireBuckets db id source op).rowsOf accountId = db.rowsOf accountId := by
  have hBuckets : (expireBuckets db id source op).buckets.filter (·.accountId = accountId) =
      db.buckets.filter (·.accountId = accountId) := by
    refine Tables.filter_map_fixed fun b _ => ?_
    by_cases hLive : isLive id source b
    · have hAccount : b.accountId = id := by simp only [isLive, Bool.and_eq_true, decide_eq_true_eq] at hLive; exact hLive.1.1
      simp [hLive, hAccount, hOther]
    · simp [hLive]
  have hLedger : (expireBuckets db id source op).ledger.filter (·.accountId = accountId) =
      db.ledger.filter (·.accountId = accountId) := by
    have hNone : ((db.buckets.filter (isLive id source)).map fun b : CreditBucket =>
        (⟨id, op, -b.remaining, some b.id, []⟩ : LedgerEntry)).filter (·.accountId = accountId) = [] := by
      refine List.filter_eq_nil_iff.mpr fun e he => ?_
      obtain ⟨b, -, rfl⟩ := List.mem_map.mp he
      simpa using hOther
    rw [expireBuckets, List.filter_append, hNone, List.append_nil]
  rw [Db.rowsOf, hBuckets, hLedger]
  rfl

theorem Granted.rowsOf {b : CreditBucket} {e : LedgerEntry} (h : Granted db b e db') (hBucket : b.accountId ≠ accountId)
    (hEntry : e.accountId ≠ accountId) : db'.rowsOf accountId = db.rowsOf accountId := by
  obtain ⟨rfl, -⟩ := h
  simp [Db.rowsOf, hBucket, hEntry]

theorem Attached.rowsOf (h : Attached db id db') (hOther : id ≠ accountId) : db'.rowsOf accountId = db.rowsOf accountId := by
  rcases h with rfl | ⟨customer, rfl⟩
  · rfl
  · exact rowsOf_setAccount (fun _ => rfl) hOther

theorem rowsOf_refresh (hOther : id ≠ accountId) : (refreshTier db id).rowsOf accountId = db.rowsOf accountId :=
  rowsOf_setAccount (fun _ => rfl) hOther

theorem Restated.rowsOf {status : Status} (h : Restated db stripeId status db')
    (hOther : ∀ s ∈ db.subscriptions, s.stripeSubscriptionId = stripeId → s.accountId ≠ accountId) :
    db'.rowsOf accountId = db.rowsOf accountId := by
  obtain ⟨change, hChange, rfl⟩ := h
  exact rowsOf_setSubscription (fun s => (hChange s).2.1) hOther

theorem account_of_mem (hKeyed : Keyed db) {a : Account} (ha : a ∈ db.accounts) : db.account a.id = some a := by
  cases hFound : db.account a.id with
  | none => exact absurd rfl (account_none hFound a ha)
  | some other =>
      rw [List.inj_on_of_nodup_map hKeyed.accounts (List.mem_of_find?_eq_some hFound) ha (account_id hFound)]

def IsText : Value → Prop
  | .str _ => True
  | .null => True
  | _ => False

/-- The ids an object carries are strings, where it carries them. -/
structure TextIds (obj : Dict) : Prop where
  account : ∀ metadata, orDict (Dict.get obj "metadata") = .ok metadata → IsText (Dict.get metadata "brnrd_account_id")
  customer : IsText (Dict.get obj "customer")
  id : IsText (Dict.get obj "id")
  subscription : ∀ ref, invoiceSubscriptionId obj = .ok ref → IsText ref
  payment : IsText (Dict.get obj "payment_intent")

theorem IsText.column {value : Value} (h : IsText value) (hTruthy : value.truthy = true) :
    ∃ text, text ≠ "" ∧ value = .str text ∧ c.column value = .ok text := by
  cases value with
  | str text => exact ⟨text, by simpa [Value.truthy] using hTruthy, rfl, rfl⟩
  | null => cases hTruthy
  | _ => cases h

theorem mem_strs {values : List Value} {text : String} (hMem : Value.str text ∈ values) (hSome : text ≠ "") :
    text ∈ strs values :=
  List.mem_filterMap.mpr ⟨.str text, hMem, if_pos hSome⟩

section Reach

variable {touched : List Account} {a : Account}

/-- What the guard looks up. -/
theorem touched_eq (h : accountsTouched c db obj = .ok touched) :
    ∃ metadata named invoiced, orDict (Dict.get obj "metadata") = .ok metadata ∧
      remember c (Dict.get metadata "brnrd_account_id") = .ok named ∧ invoiceSubscriptionId obj = .ok invoiced ∧
      touched = (named ++
        (db.accounts.filter fun a => a.stripeCustomerId.any (· ∈ strs [Dict.get obj "customer"])).map Account.id ++
        (db.subscriptions.filter fun s => s.stripeSubscriptionId ∈ strs [Dict.get obj "id", invoiced]).map
          Subscription.accountId ++
        (db.buckets.filter fun b => b.stripeRef.any (· ∈ strs [Dict.get obj "payment_intent", Dict.get obj "id"])).map
          CreditBucket.accountId).filterMap db.account := by
  obtain ⟨metadata, hMetadata, h⟩ := Fallible.peel h
  obtain ⟨named, hNamed, h⟩ := Fallible.peel h
  obtain ⟨invoiced, hInvoiced, h⟩ := Fallible.peel h
  exact ⟨metadata, named, invoiced, hMetadata, hNamed, hInvoiced, (Except.ok.inj h).symm⟩

variable {text : String}

theorem touched_customer (hKeyed : Keyed db) (h : accountsTouched c db obj = .ok touched) (hSome : text ≠ "")
    (hCustomer : Dict.get obj "customer" = .str text) (ha : a ∈ db.accounts) (hHas : a.stripeCustomerId = some text) :
    a ∈ touched := by
  obtain ⟨metadata, named, invoiced, -, -, -, rfl⟩ := touched_eq h
  refine List.mem_filterMap.mpr ⟨a.id, ?_, account_of_mem hKeyed ha⟩
  have hMem : a.id ∈ (db.accounts.filter fun a => a.stripeCustomerId.any (· ∈ strs [Dict.get obj "customer"])).map Account.id :=
    List.mem_map_of_mem (List.mem_filter.mpr ⟨ha, by simpa [hHas] using mem_strs (by simp [hCustomer]) hSome⟩)
  simp only [List.mem_append]
  exact .inl (Or.inl (Or.inr hMem))

theorem touched_named (hKeyed : Keyed db) (h : accountsTouched c db obj = .ok touched) {metadata : Dict}
    (hMetadata : orDict (Dict.get obj "metadata") = .ok metadata)
    (hText : c.column (Dict.get metadata "brnrd_account_id") = .ok text)
    (hTruthy : (Dict.get metadata "brnrd_account_id").truthy = true) (ha : a ∈ db.accounts) (hId : a.id = text) : a ∈ touched := by
  obtain ⟨metadata', named, invoiced, hMetadata', hNamed, -, rfl⟩ := touched_eq h
  obtain rfl := Fallible.same hMetadata hMetadata'
  rw [remember, if_pos hTruthy, hText] at hNamed
  obtain rfl : [text] = named := Except.ok.inj hNamed
  refine List.mem_filterMap.mpr ⟨a.id, ?_, account_of_mem hKeyed ha⟩
  simp [hId]

theorem touched_row (hKeyed : Keyed db) (h : accountsTouched c db obj = .ok touched) (hSome : text ≠ "")
    (hRef : Dict.get obj "id" = .str text ∨ invoiceSubscriptionId obj = .ok (.str text)) {s : Subscription}
    (hs : s ∈ db.subscriptions) (hStripe : s.stripeSubscriptionId = text) (ha : a ∈ db.accounts) (hId : a.id = s.accountId) :
    a ∈ touched := by
  obtain ⟨metadata, named, invoiced, -, -, hInvoiced, rfl⟩ := touched_eq h
  refine List.mem_filterMap.mpr ⟨a.id, ?_, account_of_mem hKeyed ha⟩
  have hCarried : Value.str text ∈ [Dict.get obj "id", invoiced] := by
    rcases hRef with hRef | hRef
    · simp [hRef]
    · simp [Fallible.same hInvoiced hRef]
  have hMem : s.accountId ∈ (db.subscriptions.filter fun s =>
      s.stripeSubscriptionId ∈ strs [Dict.get obj "id", invoiced]).map Subscription.accountId :=
    List.mem_map_of_mem (List.mem_filter.mpr ⟨hs, by simpa [hStripe] using mem_strs hCarried hSome⟩)
  simp only [List.mem_append, hId]
  exact .inl (Or.inr hMem)

theorem touched_bucket (hKeyed : Keyed db) (h : accountsTouched c db obj = .ok touched) (hSome : text ≠ "")
    (hRef : Dict.get obj "payment_intent" = .str text ∨ Dict.get obj "id" = .str text) {b : CreditBucket}
    (hb : b ∈ db.buckets) (hStripe : b.stripeRef = some text) (ha : a ∈ db.accounts) (hId : a.id = b.accountId) :
    a ∈ touched := by
  obtain ⟨metadata, named, invoiced, -, -, -, rfl⟩ := touched_eq h
  refine List.mem_filterMap.mpr ⟨a.id, ?_, account_of_mem hKeyed ha⟩
  have hCarried : Value.str text ∈ [Dict.get obj "payment_intent", Dict.get obj "id"] := by
    rcases hRef with hRef | hRef <;> simp [hRef]
  have hMem : b.accountId ∈ (db.buckets.filter fun b =>
      b.stripeRef.any (· ∈ strs [Dict.get obj "payment_intent", Dict.get obj "id"])).map CreditBucket.accountId :=
    List.mem_map_of_mem (List.mem_filter.mpr ⟨hb, by simpa [hStripe] using mem_strs hCarried hSome⟩)
  simp only [List.mem_append, hId]
  exact .inr hMem

/-- The account an event resolves to is among the touched. -/
theorem touched_resolved (hKeyed : Keyed db) (h : accountsTouched c db obj = .ok touched) (hText : TextIds obj) {metadata : Dict}
    (hMetadata : orDict (Dict.get obj "metadata") = .ok metadata ∨ metadata = [])
    (hFound : accountForEvent c db metadata (Dict.get obj "customer") = .ok (some a)) : a ∈ touched := by
  have ha := accountForEvent_mem hFound
  obtain ⟨named, hNamed, hFound⟩ := Fallible.peel hFound
  cases named with
  | some account =>
      obtain rfl := Option.some.inj (Except.ok.inj hFound)
      unfold namedAccount at hNamed
      split at hNamed
      · next hTruthy =>
          obtain ⟨text, hColumn, hAccount⟩ := Fallible.map_eq_ok.mp hNamed
          have hId : account.id = text := account_id hAccount
          rcases hMetadata with hMetadata | rfl
          · exact touched_named hKeyed h hMetadata hColumn hTruthy ha hId
          · cases hTruthy
      · cases hNamed
  | none =>
      simp only at hFound
      split at hFound
      · next hTruthy =>
          obtain ⟨text, hSome, hCustomer, hColumn⟩ := hText.customer.column (c := c) hTruthy
          rw [hColumn, Fallible.ok_bind] at hFound
          have hMem : a ∈ db.customers text := oneOrNone_eq_ok hFound ▸ List.mem_singleton_self a
          exact touched_customer hKeyed h hSome hCustomer ha (by simpa using (List.mem_filter.mp hMem).2)
      · cases hFound

/-- The accounts that are touched are not the erased one. -/
theorem other_account (hKeyed : Keyed db) (h : accountsTouched c db obj = .ok touched) (hAlive : ∀ b ∈ touched, b.deletedAt = none)
    (ha : a ∈ db.accounts) (hErased : a.deletedAt ≠ none) {other : Account} (hOther : other ∈ touched) : other.id ≠ a.id := by
  intro hSame
  obtain rfl := List.inj_on_of_nodup_map hKeyed.accounts (touched_mem h hOther) ha hSame
  exact hErased (hAlive other hOther)

end Reach

/-- A subscription object without an id finds the row without an id of an erased
account. -/
structure Unguarded (c : Calls) (db : Db) (obj : Dict) (row : Subscription) : Prop where
  unnamed : c.column ((Dict.get obj "id").orElse (.str "")) = .ok ""
  found : db.subscription "" = .ok (some row)
  erased : ∃ a ∈ db.accounts, a.id = row.accountId ∧ a.deletedAt ≠ none

/-- A subscription object is of an account and says something of the row that it
does not hold. -/
def Rewrites (c : Calls) (db : Db) (obj : Dict) (row : Subscription) : Prop :=
  ∃ metadata account said status price, orDict (Dict.get obj "metadata") = .ok metadata ∧
    accountForEvent c db metadata (Dict.get obj "customer") = .ok (some account) ∧ subscriptionFields c obj = .ok said ∧
    statusOf (Dict.get obj "status") = .ok status ∧ c.column said.priceId = .ok price ∧
    row.restate c said price status (Dict.get obj "cancel_at_period_end").truthy ≠ row

def Handler.strays (c : Calls) (db : Db) (obj : Dict) (row : Subscription) : Handler → Prop
  | .subscriptionDeleted => Unguarded c db obj row
  | .subscriptionUpserted => Unguarded c db obj row ∧ Rewrites c db obj row
  | _ => False

theorem setSubscription_fixed (h : ∀ s ∈ db.subscriptions, s.stripeSubscriptionId = stripeId → change s = s) :
    db.setSubscription stripeId change = db := by
  have hRows : (db.subscriptions.map fun s => if s.stripeSubscriptionId = stripeId then change s else s) = db.subscriptions := by
    refine (List.map_congr_left fun s hs => ?_).trans (List.map_id _)
    split
    · next hId => exact h s hs hId
    · rfl
  rw [Db.setSubscription, hRows]

theorem rowsOf_claw (hKeyed : Keyed db) {bucket : CreditBucket} (hBucket : bucket ∈ db.buckets) {clawback : Int}
    (hOther : bucket.accountId ≠ accountId) : (db.claw bucket.id clawback).rowsOf accountId = db.rowsOf accountId := by
  have hBuckets : (db.claw bucket.id clawback).buckets.filter (·.accountId = accountId) =
      db.buckets.filter (·.accountId = accountId) := by
    refine Tables.filter_map_fixed fun b hb => ?_
    by_cases hId : b.id = bucket.id
    · obtain rfl := List.inj_on_of_nodup_map hKeyed.buckets hb hBucket hId
      simp [hOther]
    · simp [hId]
  rw [Db.rowsOf, hBuckets]
  rfl

theorem text_id {obj : Dict} (h : IsText (Dict.get obj "id"))
    (hColumn : c.column ((Dict.get obj "id").orElse (.str "")) = .ok stripeId) (hSome : stripeId ≠ "") :
    Dict.get obj "id" = .str stripeId := by
  cases hId : Dict.get obj "id" with
  | str text =>
      rw [hId, Value.orElse] at hColumn
      split at hColumn
      · exact congrArg Value.str (Except.ok.inj hColumn)
      · exact absurd (Except.ok.inj hColumn).symm hSome
  | null =>
      rw [hId] at hColumn
      exact absurd (Except.ok.inj hColumn).symm hSome
  | _ => simp [hId, IsText] at h

/-- An object passes the guard, and an account is erased. -/
structure Passed (c : Calls) (db : Db) (obj : Dict) (a : Account) : Prop where
  keyed : Keyed db
  text : TextIds obj
  alive : ∃ touched, accountsTouched c db obj = .ok touched ∧ ∀ b ∈ touched, b.deletedAt = none
  mem : a ∈ db.accounts
  erased : a.deletedAt ≠ none

variable {a : Account}

theorem Passed.not_touched (g : Passed c db obj a) : ∃ touched, accountsTouched c db obj = .ok touched ∧
    (∀ other ∈ touched, other.id ≠ a.id) ∧ a ∉ touched := by
  obtain ⟨touched, hTouched, hAlive⟩ := g.alive
  have hOthers : ∀ other ∈ touched, other.id ≠ a.id := fun other hOther =>
    other_account g.keyed hTouched hAlive g.mem g.erased hOther
  exact ⟨touched, hTouched, hOthers, fun hMem => hOthers a hMem rfl⟩

/-- A row that is found by an id the guard looks up is not the erased account's. -/
theorem Passed.row (g : Passed c db obj a) (hSome : stripeId ≠ "") (hRef : Dict.get obj "id" = .str stripeId ∨
    invoiceSubscriptionId obj = .ok (.str stripeId)) :
    ∀ s ∈ db.subscriptions, s.stripeSubscriptionId = stripeId → s.accountId ≠ a.id := by
  obtain ⟨touched, hTouched, -, hNot⟩ := g.not_touched
  exact fun s hs hId hSame => hNot (touched_row g.keyed hTouched hSome hRef hs hId g.mem hSame.symm)

theorem Passed.resolved (g : Passed c db obj a) {metadata : Dict}
    (hMetadata : orDict (Dict.get obj "metadata") = .ok metadata ∨ metadata = []) {account : Account}
    (hFound : accountForEvent c db metadata (Dict.get obj "customer") = .ok (some account)) : account.id ≠ a.id := by
  obtain ⟨touched, hTouched, hOthers, -⟩ := g.not_touched
  exact hOthers account (touched_resolved g.keyed hTouched g.text hMetadata hFound)

theorem Passed.bucket (g : Passed c db obj a) {b : CreditBucket}
    (hFound : granted c db (Dict.get obj "payment_intent") = .ok (some b)) : b ∈ db.buckets ∧ b.accountId ≠ a.id := by
  obtain ⟨touched, hTouched, -, hNot⟩ := g.not_touched
  obtain ⟨hMem, hRef, hSome⟩ := granted_some hFound
  refine ⟨hMem, fun hSame => hNot ?_⟩
  unfold lookupText at hRef hSome
  split at hRef
  · next hTruthy =>
      obtain ⟨text, hText, hPayment, hColumn⟩ := g.text.payment.column (c := c) hTruthy
      rw [hColumn] at hRef
      exact touched_bucket g.keyed hTouched hText (Or.inl hPayment) hMem hRef g.mem hSame.symm
  · next hFalsy => exact absurd (if_neg hFalsy) hSome

theorem Passed.checkout (g : Passed c db obj a) (hRun : onCheckoutCompleted c bucketId db obj = .ok (db', disposition)) :
    db'.rowsOf a.id = db.rowsOf a.id := by
  rcases checkout_cases hRun with rfl | ⟨metadata, account, attached, hMetadata, hFound, hAttached, hDone⟩
  · rfl
  · have hOther := g.resolved (Or.inl hMetadata) hFound
    rw [← hAttached.rowsOf hOther]
    rcases hDone with rfl | ⟨b, e, hGranted, -, hBucket, hEntry, -⟩
    · rfl
    · exact hGranted.rowsOf (hBucket ▸ hOther) (hEntry ▸ hOther)

theorem Passed.upserted (g : Passed c db obj a) (hStrays : ∀ row, ¬ Handler.subscriptionUpserted.strays c db obj row)
    (hRun : onSubscriptionUpserted c settings db obj = .ok (db', disposition)) : db'.rowsOf a.id = db.rowsOf a.id := by
  rcases upserted_cases hRun with rfl | ⟨metadata, account, said, status, stripeId, price, written, attached, hMetadata, hFound,
    hSaid, hStatus, hStripeId, hPrice, hWritten, hAttached, rfl⟩
  · rfl
  · have hOther := g.resolved (Or.inl hMetadata) hFound
    rw [rowsOf_refresh hOther, hAttached.rowsOf hOther]
    cases hWritten with
    | started hNone hRow hEntry =>
        rw [rowsOf_enter fun e he => (hEntry e he).2 ▸ hOther]
        simp [Db.rowsOf, hRow.2.1, hOther]
    | @updated row entries hRow hChange hEntries =>
        rw [rowsOf_enter fun e he => (hEntries e he).2 ▸ hOther]
        by_cases hSome : stripeId = ""
        · subst hSome
          by_cases hHis : row.accountId = a.id
          · have hFixed : row.restate c said price status (Dict.get obj "cancel_at_period_end").truthy = row := by
              by_contra hMoves
              exact hStrays row ⟨⟨hStripeId, hRow, a, g.mem, hHis.symm, g.erased⟩,
                metadata, account, said, status, price, hMetadata, hFound, hSaid, hStatus, hPrice, hMoves⟩
            rw [setSubscription_fixed fun s hs hId => (subscription_only hRow hs hId).symm ▸ hFixed]
          · exact rowsOf_setSubscription (fun s => (hChange s).2.1) fun s hs hId => subscription_only hRow hs hId ▸ hHis
        · exact rowsOf_setSubscription (fun s => (hChange s).2.1) (g.row hSome (Or.inl (text_id g.text.id hStripeId hSome)))

theorem Passed.deleted (g : Passed c db obj a) (hStrays : ∀ row, ¬ Handler.subscriptionDeleted.strays c db obj row)
    (hRun : onSubscriptionDeleted c db obj = .ok (db', disposition)) : db'.rowsOf a.id = db.rowsOf a.id := by
  rcases deleted_cases hRun with ⟨rfl, -⟩ | ⟨stripeId, row, closed, hStripeId, hRow, hClosed, hDone⟩
  · rfl
  · have hRows : ∀ s ∈ db.subscriptions, s.stripeSubscriptionId = stripeId → s.accountId ≠ a.id := by
      by_cases hSome : stripeId = ""
      · subst hSome
        intro s hs hId hHis
        obtain rfl := subscription_only hRow hs hId
        exact hStrays s ⟨hStripeId, hRow, a, g.mem, hHis.symm, g.erased⟩
      · exact g.row hSome (Or.inl (text_id g.text.id hStripeId hSome))
    have hOther : row.accountId ≠ a.id := hRows row (subscription_mem hRow).1 (subscription_mem hRow).2
    rw [← hClosed.rowsOf hRows]
    rcases hDone with ⟨-, rfl⟩ | ⟨account, entries, hAccount, hEntries, rfl⟩
    · rfl
    · have hAccountOther : account.id ≠ a.id := account_id hAccount ▸ hOther
      rw [rowsOf_refresh hAccountOther, rowsOf_expire hAccountOther, rowsOf_enter fun e he => (hEntries e he).2 ▸ hAccountOther]

theorem Passed.invoiceRow (g : Passed c db obj a) {subscriptionId : Value} (hId : invoiceSubscriptionId obj = .ok subscriptionId)
    (hTruthy : subscriptionId.truthy = true) (hStripeId : c.column subscriptionId = .ok stripeId) :
    ∀ s ∈ db.subscriptions, s.stripeSubscriptionId = stripeId → s.accountId ≠ a.id := by
  obtain ⟨text, hSome, rfl, hColumn⟩ := (g.text.subscription _ hId).column (c := c) hTruthy
  obtain rfl := Fallible.same hColumn hStripeId
  exact g.row hSome (Or.inr hId)

theorem Passed.invoicePaid (g : Passed c db obj a) (hRun : onInvoicePaid c bucketId settings db obj = .ok (db', disposition)) :
    db'.rowsOf a.id = db.rowsOf a.id := by
  rcases invoicePaid_cases hRun with rfl | ⟨subscriptionId, stripeId, row, account, revived, entries, hId, hTruthy, hStripeId,
    hRow, hAccount, -, hRevived, hEntries, hDone⟩
  · rfl
  · have hRows := g.invoiceRow hId hTruthy hStripeId
    have hOther : account.id ≠ a.id := by
      cases row with
      | some row =>
          have hFound : db.account row.accountId = some account := Except.ok.inj hAccount
          exact account_id hFound ▸ hRows row (subscription_mem hRow).1 (subscription_mem hRow).2
      | none => exact g.resolved (Or.inr rfl) hAccount
    have hRevivedRows : revived.rowsOf a.id = db.rowsOf a.id := by
      rcases hRevived with rfl | ⟨-, restated, hRestated, rfl⟩
      · rfl
      · rw [rowsOf_refresh hOther, hRestated.rowsOf hRows]
    have hExpired : (expireBuckets (revived.enter entries) account.id .subscriberMonthly "expire_subscriber_monthly").rowsOf a.id =
        db.rowsOf a.id := by
      rw [rowsOf_expire hOther, rowsOf_enter fun e he => (hEntries e he).2 ▸ hOther, hRevivedRows]
    rcases hDone with rfl | ⟨b, e, hGranted, -, hBucket, hEntry, -⟩
    · exact hExpired
    · rw [hGranted.rowsOf (hBucket ▸ hOther) (hEntry ▸ hOther), hExpired]

theorem Passed.paymentFailed (g : Passed c db obj a) (hRun : onInvoicePaymentFailed c db obj = .ok (db', disposition)) :
    db'.rowsOf a.id = db.rowsOf a.id := by
  rcases paymentFailed_cases hRun with rfl | ⟨subscriptionId, stripeId, row, failed, entries, hId, hTruthy, hStripeId, hRow,
    hFailed, hEntries, rfl⟩
  · rfl
  · have hRows := g.invoiceRow hId hTruthy hStripeId
    have hFailedRows : failed.rowsOf a.id = db.rowsOf a.id := by
      rcases hFailed with rfl | ⟨-, hRestated⟩
      · rfl
      · exact hRestated.rowsOf hRows
    rw [← hFailedRows]
    rcases hEntries with ⟨-, rfl⟩ | ⟨account, hAccount, hUnnamed⟩
    · rw [Db.enter_nil]
    · have hOther : account.id ≠ a.id := account_id hAccount ▸ hRows row (subscription_mem hRow).1 (subscription_mem hRow).2
      exact rowsOf_enter fun e he => (hUnnamed e he).2 ▸ hOther

theorem Passed.refunded (g : Passed c db obj a) (hRun : onChargeRefunded c db obj = .ok (db', disposition)) :
    db'.rowsOf a.id = db.rowsOf a.id := by
  rcases refunded_cases hRun with ⟨rfl, -⟩ | ⟨bucket, cents, e, hFound, -, -, hEntry, -, rfl⟩
  · rfl
  · obtain ⟨hBucket, hOther⟩ := g.bucket hFound
    have hEntries : ∀ entry ∈ [e], entry.accountId ≠ a.id := by simpa [hEntry] using hOther
    refine (rowsOf_enter hEntries).trans ?_
    split
    · exact rowsOf_claw g.keyed hBucket hOther
    · rfl

theorem Passed.spared (g : Passed c db obj a) {handler : Handler} (hStrays : ∀ row, ¬ handler.strays c db obj row)
    (hRun : handler.run c bucketId settings db obj = .ok (db', disposition)) : db'.rowsOf a.id = db.rowsOf a.id := by
  cases handler with
  | checkoutCompleted => exact g.checkout hRun
  | subscriptionUpserted => exact g.upserted hStrays hRun
  | subscriptionDeleted => exact g.deleted hStrays hRun
  | invoicePaid => exact g.invoicePaid hRun
  | invoicePaymentFailed => exact g.paymentFailed hRun
  | chargeRefunded => exact g.refunded hRun

/-- An id that the object carries leads to the account. -/
inductive Linked (db : Db) (obj : Dict) (a : Account) : Prop where
  | named {metadata : Dict} (hMetadata : orDict (Dict.get obj "metadata") = .ok metadata)
      (hId : Dict.get metadata "brnrd_account_id" = .str a.id) (hSome : a.id ≠ "")
  | customer {text : String} (hCustomer : Dict.get obj "customer" = .str text) (hSome : text ≠ "")
      (hHas : a.stripeCustomerId = some text)
  | subscription {text : String} {s : Subscription} (hRef : Dict.get obj "id" = .str text ∨
      invoiceSubscriptionId obj = .ok (.str text)) (hSome : text ≠ "") (hMem : s ∈ db.subscriptions)
      (hStripe : s.stripeSubscriptionId = text) (hAccount : a.id = s.accountId)
  | bucket {text : String} {b : CreditBucket} (hRef : Dict.get obj "payment_intent" = .str text ∨ Dict.get obj "id" = .str text)
      (hSome : text ≠ "") (hMem : b ∈ db.buckets) (hStripe : b.stripeRef = some text) (hAccount : a.id = b.accountId)

theorem Linked.touched (hKeyed : Keyed db) {touched : List Account} (hTouched : accountsTouched c db obj = .ok touched)
    (ha : a ∈ db.accounts) (h : Linked db obj a) : a ∈ touched := by
  cases h with
  | named hMetadata hId hSome =>
      have hColumn : c.column (.str a.id) = .ok a.id := rfl
      refine touched_named hKeyed hTouched hMetadata (hId ▸ hColumn) ?_ ha rfl
      simpa [hId, Value.truthy] using hSome
  | customer hCustomer hSome hHas => exact touched_customer hKeyed hTouched hSome hCustomer ha hHas
  | subscription hRef hSome hMem hStripe hAccount => exact touched_row hKeyed hTouched hSome hRef hMem hStripe ha hAccount
  | bucket hRef hSome hMem hStripe hAccount => exact touched_bucket hKeyed hTouched hSome hRef hMem hStripe ha hAccount

/-- Only rows of accounts that are not erased change, and none where the event is
linked to one that is. -/
def Spares (c : Calls) (bucketId : String) (settings : Settings) (db : Db) (event : Dict) : Prop :=
  ∀ db' disposition, handleStripeEvent c bucketId settings db event = .ok (db', disposition) →
    (∀ a ∈ db.accounts, db'.rowsOf a.id ≠ db.rowsOf a.id → a.deletedAt = none) ∧
      ∀ obj, eventObject event = .ok obj → (∃ a ∈ db.accounts, a.deletedAt ≠ none ∧ Linked db obj a) → db' = db

/-- The event passes the guard and strays to a row without an id. -/
def Strays (c : Calls) (db : Db) (event : Dict) : Prop :=
  ∃ handler obj touched row, eventHandler event = .ok (some handler) ∧ eventObject event = .ok obj ∧
    accountsTouched c db obj = .ok touched ∧ (∀ a ∈ touched, a.deletedAt = none) ∧ handler.strays c db obj row

/-- A deletion that strays enters the end of the subscription for the erased account. -/
theorem strayed_deletion {row : Subscription} (hKeyed : Keyed db) (h : Unguarded c db obj row) :
    ∃ db' disposition, onSubscriptionDeleted c db obj = .ok (db', disposition) ∧
      ∃ a ∈ db.accounts, a.deletedAt ≠ none ∧ db'.rowsOf a.id ≠ db.rowsOf a.id := by
  obtain ⟨hId, hRow, a, ha, hAccount, hErased⟩ := h
  have hFound : ∀ change, (db.setSubscription "" change).account row.accountId = some a := fun _ =>
    hAccount ▸ account_of_mem hKeyed ha
  refine ⟨_, _, by simp [onSubscriptionDeleted, hId, hRow, hFound, Fallible.ok_bind]; exact ⟨rfl, rfl⟩, a, ha, hErased, ?_⟩
  intro hSame
  have hLedger := congrArg (fun rows => rows.2.2.2.length) hSame
  simp [Db.rowsOf, refreshTier, Db.setAccount, expireBuckets, Db.append, Db.setSubscription, List.filter_append] at hLedger

theorem attachCustomer_text {accountId : String} {customer : Value} {isBare : Bool} (h : IsText customer) :
    ∃ attached, attachCustomer c db accountId customer isBare = .ok attached ∧ Attached db accountId attached := by
  unfold attachCustomer
  split
  · next hTruthy =>
      obtain ⟨text, -, -, hColumn⟩ := h.column (c := c) (Bool.and_eq_true_iff.mp hTruthy).2
      exact ⟨_, by rw [hColumn]; rfl, .inr ⟨text, rfl⟩⟩
  · exact ⟨db, rfl, .inl rfl⟩

/-- An update that strays changes the row of the erased account. -/
theorem strayed_update {row : Subscription} (hText : TextIds obj) (h : Unguarded c db obj row) (hRewrites : Rewrites c db obj row) :
    ∃ db' disposition, onSubscriptionUpserted c settings db obj = .ok (db', disposition) ∧
      ∃ a ∈ db.accounts, a.deletedAt ≠ none ∧ db'.rowsOf a.id ≠ db.rowsOf a.id := by
  obtain ⟨hId, hRow, a, ha, hAccount, hErased⟩ := h
  obtain ⟨metadata, account, said, status, price, hMetadata, hFound, hSaid, hStatus, hPrice, hMoves⟩ := hRewrites
  have hRuns : ∃ written attached, Attached written account.id attached ∧
      written.subscriptions = (db.setSubscription "" (Subscription.restate c said price status
        (Dict.get obj "cancel_at_period_end").truthy)).subscriptions ∧
      onSubscriptionUpserted c settings db obj = .ok (refreshTier attached account.id, "subscription-updated") := by
    have hAttach := fun written : Db =>
      @attachCustomer_text c written account.id (Dict.get obj "customer") account.stripeCustomerId.isNone hText.customer
    simp only [onSubscriptionUpserted, hMetadata, hFound, hSaid, hStatus, hId, hPrice, hRow, Fallible.ok_bind]
    split
    · obtain ⟨attached, hAttach, hAttached⟩ := hAttach ((db.setSubscription "" (Subscription.restate c said price status
          (Dict.get obj "cancel_at_period_end").truthy)).append ⟨account.id, "subscription_canceled_at_period_end", 0, none,
          [("stripe_subscription_id", .str "")]⟩)
      exact ⟨_, attached, hAttached, rfl, by rw [hAttach]; rfl⟩
    · obtain ⟨attached, hAttach, hAttached⟩ := hAttach _
      exact ⟨_, attached, hAttached, rfl, by rw [hAttach]; rfl⟩
  obtain ⟨written, attached, hAttached, hWritten, hRun⟩ := hRuns
  refine ⟨_, _, hRun, a, ha, hErased, fun hSame => hMoves ?_⟩
  have hRows : (refreshTier attached account.id).subscriptions = _ := hAttached.subscriptions.trans hWritten
  have hSubscriptions := congrArg (fun rows => rows.2.1) hSame
  simp only [Db.rowsOf, hRows] at hSubscriptions
  have hFixed := Tables.fixed_of_filter_map (fun s _ => by split <;> rfl) hSubscriptions (subscription_mem hRow).1
    (decide_eq_true hAccount.symm)
  simpa [(subscription_mem hRow).2] using hFixed

/-- What the webhook changes spares the erased accounts exactly where the event
does not stray. -/
theorem erased_accounts_are_spared_iff (hKeyed : Keyed db) (hText : ∀ obj, eventObject event = .ok obj → TextIds obj) :
    Spares c bucketId settings db event ↔ ¬ Strays c db event := by
  constructor
  · rintro hSpares ⟨handler, obj, touched, row, hHandler, hObj, hTouched, hAlive, hStrays⟩
    have hGoesOn : handleStripeEvent c bucketId settings db event = handler.run c bucketId settings db obj := by
      have hNone : touched.any (fun a => a.deletedAt.isSome) = false := by
        simpa [Option.isSome_iff_ne_none] using hAlive
      simp only [handleStripeEvent, hHandler, hObj, hTouched, Fallible.ok_bind, hNone]
      rfl
    obtain ⟨db', disposition, hRun, a, ha, hErased, hMoved⟩ : ∃ db' disposition,
        handler.run c bucketId settings db obj = .ok (db', disposition) ∧
          ∃ a ∈ db.accounts, a.deletedAt ≠ none ∧ db'.rowsOf a.id ≠ db.rowsOf a.id := by
      cases handler with
      | subscriptionDeleted => exact strayed_deletion hKeyed hStrays
      | subscriptionUpserted => exact strayed_update (hText obj hObj) hStrays.1 hStrays.2
      | _ => exact absurd hStrays id
    exact hErased ((hSpares db' disposition (hGoesOn.trans hRun)).1 a ha hMoved)
  · intro hStrays db' disposition hHandled
    rcases handle_cases hHandled with ⟨-, rfl⟩ | ⟨handler, obj, touched, hHandler, hObj, hTouched, hTaken⟩
    · exact ⟨fun a _ hMoved => absurd rfl hMoved, fun _ _ _ => rfl⟩
    · rcases hTaken with ⟨-, rfl⟩ | ⟨hAlive, hRun⟩
      · exact ⟨fun a _ hMoved => absurd rfl hMoved, fun _ _ _ => rfl⟩
      · refine ⟨fun a ha hMoved => ?_, fun obj' hObj' ⟨a, ha, hErased, hLinked⟩ => ?_⟩
        · by_contra hErased
          have hPassed : Passed c db obj a := ⟨hKeyed, hText obj hObj, ⟨touched, hTouched, hAlive⟩, ha, hErased⟩
          exact hMoved (hPassed.spared (fun row h => hStrays ⟨handler, obj, touched, row, hHandler, hObj, hTouched, hAlive, h⟩) hRun)
        · obtain rfl := Fallible.same hObj hObj'
          exact absurd (hAlive a (hLinked.touched hKeyed hTouched ha)) hErased

/-- An erased account with a subscription row, whose id is given. -/
def erasedWithRow (stripeId : String) : Db :=
  ⟨[⟨"acc-1", .free, none, some "2026-07-01"⟩],
    [⟨"acc-1", stripeId, "", .cohortSupporter, false, .active, false, none, "2026-06-01"⟩], [], [], []⟩

def deletion (stripeId : String) : Dict :=
  eventOf "evt_1" "customer.subscription.deleted" [("id", .str stripeId)]

theorem deletion_text (stripeId : String) : ∀ obj, eventObject (deletion stripeId) = .ok obj → TextIds obj := by
  intro obj hObj
  obtain rfl : [("id", Value.str stripeId)] = obj := Except.ok.inj hObj
  refine ⟨fun metadata hMetadata => ?_, trivial, trivial, fun ref hRef => ?_, trivial⟩
  · obtain rfl : [] = metadata := Except.ok.inj hMetadata
    trivial
  · obtain rfl : Value.null = ref := Except.ok.inj hRef
    trivial

theorem erasedWithRow_keyed (stripeId : String) : Keyed (erasedWithRow stripeId) :=
  ⟨List.nodup_singleton _, List.nodup_nil⟩

/-- A deletion of a row that has an id. -/
theorem erased_accounts_are_spared_named_row :
    Spares textsOnly "bkt-1" shippedSettings (erasedWithRow "sub_1") (deletion "sub_1") ↔
      ¬ Strays textsOnly (erasedWithRow "sub_1") (deletion "sub_1") :=
  erased_accounts_are_spared_iff (erasedWithRow_keyed "sub_1") (deletion_text "sub_1")

/-- A deletion without an id cancels the row without an id of an erased account. -/
theorem nameless_deletion_writes_to_tombstone :
    Keyed (erasedWithRow "") ∧ (∀ obj, eventObject (deletion "") = .ok obj → TextIds obj) ∧
      ¬ Spares textsOnly "bkt-1" shippedSettings (erasedWithRow "") (deletion "") := by
  refine ⟨erasedWithRow_keyed "", deletion_text "", fun hSpares => ?_⟩
  have hRun : handleStripeEvent textsOnly "bkt-1" shippedSettings (erasedWithRow "") (deletion "") =
      .ok (⟨[⟨"acc-1", .free, none, some "2026-07-01"⟩],
        [⟨"acc-1", "", "", .cohortSupporter, false, .canceled, false, none, "2026-07-23"⟩], [],
        [⟨"acc-1", "subscription_canceled_immediate", 0, none, [("stripe_subscription_id", .str "")]⟩], []⟩,
        "subscription-canceled") := by decide +kernel
  exact absurd ((hSpares _ _ hRun).1 _ (List.mem_singleton_self _) (by decide +kernel)) (by decide)

end Brnrd.Billing
