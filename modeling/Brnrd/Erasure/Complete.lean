import Brnrd.Erasure.Steps

/-! When an erasure is complete: what goes, what is refused for a row that stays,
and what is left of the account. -/
namespace Brnrd.Erasure

open Python Tables

variable {db db' kept : Db} {accountId now : String} {conditions : List (Row → Bool)} {store : Store} {r t : Row}

/-- The stores that are swept by their own `account_id`. -/
def ownStores : List Store :=
  [.configChangeRequest, .channelRoute, .tgPairCode, .pairRequest, .daemon, .token, .runnerWakeRequest, .runStopRequest,
    .gitHubInstallation, .creditBucket, .subscription, .termsAcceptance, .repo]

/-- The row holds the id of a row of the account. -/
def Holds (db : Db) (accountId : String) (k : Key) (store : Store) (r : Row) : Prop :=
  ∃ id ∈ db.ids store accountId, r.key k = some id

/-- The sweep takes the row. -/
def Goes (db : Db) (accountId : String) (r : Row) : Prop :=
  r.store ∈ ownStores ∧ r.key .account = some accountId ∨
    (r.store = .activityRecord ∨ r.store = .event) ∧ Holds db accountId .repo .repo r ∨
    r.store = .gitHubInstalledRepo ∧ Holds db accountId .installation .gitHubInstallation r

theorem ofAccount_iff : ofAccount accountId store r = true ↔ r.store = store ∧ r.key .account = some accountId := by
  simp [ofAccount]

theorem isIn_iff {k : Key} {target : Store} :
    isIn store k (db.ids target accountId) r = true ↔ r.store = store ∧ Holds db accountId k target r := by
  simp only [isIn, Holds, Bool.and_eq_true, decide_eq_true_eq]
  refine and_congr_right fun _ => ?_
  cases r.key k <;> simp

/-- A row that refers to one that goes is of a store that goes before it. -/
theorem ordered_of_stores {stores : List Store}
    (hStores : List.Forall₂ (fun s goes => ∀ r : Row, goes r = true → r.store = s) stores conditions)
    (hOrder : stores.Pairwise fun s later => s ∉ later.foreignKeys.map Prod.snd) : Ordered Refers db conditions := by
  induction hStores with
  | nil => trivial
  | @cons s goes stores rest hGoes hRest ih =>
      obtain ⟨hHead, hTail⟩ := List.pairwise_cons.mp hOrder
      refine ⟨fun r _ t _ hRefers hGone _ => ?_, ih hTail⟩
      by_contra hLater
      obtain ⟨q, hq, hTaken⟩ := List.any_eq_true.mp (eq_true_of_ne_false hLater)
      obtain ⟨i, hi, rfl⟩ := List.getElem_of_mem hq
      have hStore : r.store ∈ stores := by
        rw [List.forall₂_iff_get.mp hRest |>.2 i (by simpa [hRest.length_eq] using hi) hi r hTaken]
        exact List.get_mem stores _
      obtain ⟨reference, hReference, hTarget, -⟩ := hRefers
      exact hHead r.store hStore (List.mem_map.mpr ⟨reference, hReference, hTarget.symm.trans (hGoes t hGone)⟩)

theorem ordered_before : Ordered Refers kept (sweepBefore db accountId) := by
  have hStores : List.Forall₂ (fun s goes => ∀ r : Row, goes r = true → r.store = s)
      [.activityRecord, .event, .configChangeRequest, .channelRoute, .tgPairCode, .pairRequest, .daemon, .token,
        .runnerWakeRequest, .runStopRequest, .gitHubInstalledRepo, .gitHubInstallation] (sweepBefore db accountId) := by
    simp only [sweepBefore, sweepFirst, sweepInstallations, accountIdModelsBeforeToken, accountIdModelsAfterToken, List.map_cons,
      List.map_nil, List.cons_append, List.nil_append, List.forall₂_cons, List.forall₂_nil_right_iff, isIn_iff, ofAccount_iff, and_true]
    and_intros <;> exact fun _ h => h.1
  exact ordered_of_stores hStores (by decide)

theorem ordered_after : Ordered Refers kept (sweepAfter accountId) := by
  have hStores : List.Forall₂ (fun s goes => ∀ r : Row, goes r = true → r.store = s)
      [.creditBucket, .subscription, .termsAcceptance, .repo] (sweepAfter accountId) := by
    simp only [sweepAfter, List.map_cons, List.map_nil, List.forall₂_cons, List.forall₂_nil_right_iff, ofAccount_iff, and_true]
    and_intros <;> exact fun _ h => h.1
  exact ordered_of_stores hStores (by decide)

theorem before_iff : swept (sweepBefore db accountId) r = true ↔
    Goes db accountId r ∧ r.store ∉ [.creditBucket, .subscription, .termsAcceptance, .repo] := by
  simp only [swept, sweepBefore, sweepFirst, sweepInstallations, accountIdModelsBeforeToken, accountIdModelsAfterToken,
    List.map_cons, List.map_nil, List.cons_append, List.nil_append, List.any_cons, List.any_nil, Bool.or_eq_true, isIn_iff,
    ofAccount_iff, Goes, ownStores]
  cases r.store <;> simp

theorem after_iff : swept (sweepAfter accountId) r = true ↔
    r.store ∈ [.creditBucket, .subscription, .termsAcceptance, .repo] ∧ r.key .account = some accountId := by
  simp only [swept, sweepAfter, List.map_cons, List.map_nil, List.any_cons, List.any_nil, Bool.or_eq_true, ofAccount_iff]
  cases r.store <;> simp

theorem goes_iff : Goes db accountId r ↔ swept (sweepBefore db accountId) r = true ∨ swept (sweepAfter accountId) r = true := by
  rw [before_iff, after_iff]
  simp only [Goes, ownStores]
  cases r.store <;> simp

variable {bucketIds : List String}

theorem release_store : (r.release bucketIds).store = r.store := by
  unfold Row.release
  split <;> rfl

theorem release_id : (r.release bucketIds).id = r.id := by
  unfold Row.release
  split
  · simp [Row.id, Row.text, get_set]
  · rfl

/-- Only rows of the ledger are released. -/
theorem release_other (h : r.store ≠ .billingLedgerEntry) : r.release bucketIds = r := by
  simp [Row.release, isIn, h]

theorem anonymize_store : (r.anonymize accountId now).store = r.store := by
  unfold Row.anonymize
  split <;> rfl

theorem anonymize_id : (r.anonymize accountId now).id = r.id := by
  unfold Row.anonymize
  split
  · simp [Row.id, Row.text, get_set]
  · rfl

/-- The mirror of URL bases is not set. -/
theorem anonymize_bases : Dict.get (r.anonymize accountId now).columns "bases_json" = Dict.get r.columns "bases_json" := by
  unfold Row.anonymize
  split
  · simp [get_set]
  · rfl

theorem anonymize_other (h : ¬ (r.store = .account ∧ r.id = some accountId)) : r.anonymize accountId now = r := by
  refine if_neg ?_
  simpa using h

/-- A released row names none of the buckets. -/
theorem release_key {id : String} (h : (r.release bucketIds).key .bucket = some id) (hStore : r.store = .billingLedgerEntry) :
    id ∉ bucketIds := by
  unfold Row.release at h
  split at h
  · simp [Row.key, Row.text, get_set, Key.column] at h
  · next hNot =>
      intro hMem
      exact hNot (by simp [isIn, hStore, h, hMem])

theorem mem_ids_of (ht : t ∈ db) (hAccount : ofAccount accountId store t = true) {id : String} (hId : t.id = some id) :
    id ∈ db.ids store accountId :=
  mem_ids.mpr ⟨t, ht, hAccount, hId⟩

/-- No row that stays holds the id of a daemon, a token or a repo of the account,
where that is a foreign key. -/
def Free (db : Db) (accountId : String) : Prop :=
  ∀ r ∈ db, ¬ Goes db accountId r → ∀ t ∈ db, (t.store = .daemon ∨ t.store = .token ∨ t.store = .repo) →
    t.key .account = some accountId → ¬ Refers r t

/-- What the first sweep leaves, after the ledger let go of the buckets. -/
def released (db : Db) (accountId : String) : Db :=
  (db.filter fun r => !swept (sweepBefore db accountId) r).map (Row.release (db.ids .creditBucket accountId))

theorem foreignKeys_cases (s : Store) : ∀ reference ∈ s.foreignKeys, reference = (.account, .account) ∨
    s ∉ [.creditBucket, .subscription, .termsAcceptance, .repo] ∧
      (reference = (.repo, .repo) ∨ reference = (.daemon, .daemon) ∨ reference = (.token, .token) ∨
        s = .gitHubInstalledRepo ∧ reference = (.installation, .gitHubInstallation) ∨
        s = .billingLedgerEntry ∧ reference = (.bucket, .creditBucket)) := by
  cases s <;> decide

/-- What a row can refer to, besides accounts. -/
theorem Refers.cases (h : Refers r t) (hStore : t.store ≠ .account) :
    r.store ∉ [.creditBucket, .subscription, .termsAcceptance, .repo] ∧ ∃ id, t.id = some id ∧
      (t.store = .repo ∧ r.key .repo = some id ∨ t.store = .daemon ∧ r.key .daemon = some id ∨
        t.store = .token ∧ r.key .token = some id ∨
        t.store = .gitHubInstallation ∧ r.store = .gitHubInstalledRepo ∧ r.key .installation = some id ∨
        t.store = .creditBucket ∧ r.store = .billingLedgerEntry ∧ r.key .bucket = some id) := by
  obtain ⟨reference, hReference, hTarget, hSome, hSame⟩ := h
  obtain ⟨id, hId⟩ := Option.ne_none_iff_exists'.mp hSome
  have hTargetId : t.id = some id := hSame.symm.trans hId
  rcases foreignKeys_cases r.store reference hReference with rfl | ⟨hEarly, hCases⟩
  · exact absurd hTarget hStore
  · refine ⟨hEarly, id, hTargetId, ?_⟩
    rcases hCases with rfl | rfl | rfl | ⟨hRow, rfl⟩ | ⟨hRow, rfl⟩
    · exact .inl ⟨hTarget, hId⟩
    · exact .inr (Or.inl ⟨hTarget, hId⟩)
    · exact .inr (Or.inr (Or.inl ⟨hTarget, hId⟩))
    · exact .inr (Or.inr (Or.inr (Or.inl ⟨hTarget, hRow, hId⟩)))
    · exact .inr (Or.inr (Or.inr (Or.inr ⟨hTarget, hRow, hId⟩)))

theorem not_dangles_before (h : Free db accountId) : ¬ Dangles Refers (swept (sweepBefore db accountId)) db := by
  rintro ⟨r, hr, hStays, t, ht, hGone, hRefers⟩
  obtain ⟨hGoes, hLate⟩ := before_iff.mp hGone
  have hTarget : t.store ≠ .account := by
    rcases hGoes with ⟨hOwn, -⟩ | ⟨hStore | hStore, -⟩ | ⟨hStore, -⟩
    · exact fun hAccount => absurd (hAccount ▸ hOwn) (by decide)
    all_goals simp [hStore]
  obtain ⟨hEarly, id, hId, hCases⟩ := hRefers.cases hTarget
  have hNotGoes : ¬ Goes db accountId r := fun hGoesToo =>
    absurd (before_iff.mpr ⟨hGoesToo, hEarly⟩) (by simp [hStays])
  have hOwn : t.store ∈ ownStores → t.key .account = some accountId := by
    rcases hGoes with ⟨-, hAccount⟩ | ⟨hStore | hStore, -⟩ | ⟨hStore, -⟩
    · exact fun _ => hAccount
    all_goals exact fun hMem => absurd (hStore ▸ hMem) (by decide)
  rcases hCases with ⟨hStore, -⟩ | ⟨hStore, -⟩ | ⟨hStore, -⟩ | ⟨hStore, hRow, hKey⟩ | ⟨hStore, -⟩
  · exact absurd (hStore ▸ hLate) (by decide)
  · exact h r hr hNotGoes t ht (Or.inl hStore) (hOwn (hStore ▸ by decide)) hRefers
  · exact h r hr hNotGoes t ht (Or.inr (Or.inl hStore)) (hOwn (hStore ▸ by decide)) hRefers
  · have hMine := ofAccount_iff.mpr ⟨hStore, hOwn (hStore ▸ by decide)⟩
    exact hNotGoes (Or.inr (Or.inr ⟨hRow, id, mem_ids_of ht hMine hId, hKey⟩))
  · exact absurd (hStore ▸ hLate) (by decide)

theorem mem_released : t ∈ released db accountId ↔
    ∃ r ∈ db, swept (sweepBefore db accountId) r = false ∧ r.release (db.ids .creditBucket accountId) = t := by
  simp [released, and_assoc]

theorem not_dangles_after (h : Free db accountId) :
    ¬ Dangles Refers (swept (sweepAfter accountId)) (released db accountId) := by
  rintro ⟨r, hr, hStays, t, ht, hGone, hRefers⟩
  obtain ⟨r, hrDb, hBefore, rfl⟩ := mem_released.mp hr
  obtain ⟨t, htDb, -, rfl⟩ := mem_released.mp ht
  obtain ⟨hLate, hAccount⟩ := after_iff.mp hGone
  rw [release_store] at hLate
  have hNotLedger : t.store ≠ .billingLedgerEntry := fun hStore => absurd (hStore ▸ hLate) (by decide)
  rw [release_other hNotLedger] at hAccount hRefers
  have hNotAccount : t.store ≠ .account := fun hStore => absurd (hStore ▸ hLate) (by decide)
  obtain ⟨hEarly, id, hId, hCases⟩ := hRefers.cases hNotAccount
  rcases hCases with ⟨hStore, hKey⟩ | ⟨hStore, -⟩ | ⟨hStore, -⟩ | ⟨hStore, -⟩ | ⟨hStore, hRow, hKey⟩
  · have hSame : r.release (db.ids .creditBucket accountId) = r := by
      refine release_other fun hLedger => ?_
      have hNoRepo : (r.release (db.ids .creditBucket accountId)).key .repo = none := by
        simp [Row.key, release_store, hLedger, Store.keys, Store.foreignKeys]
      simp [hNoRepo] at hKey
    rw [hSame] at hStays hRefers
    have hNotGoes : ¬ Goes db accountId r := by
      rw [goes_iff]
      simp [hBefore, hStays]
    exact h r hrDb hNotGoes t htDb (Or.inr (Or.inr hStore)) hAccount hRefers
  · exact absurd (hStore ▸ hLate) (by decide)
  · exact absurd (hStore ▸ hLate) (by decide)
  · exact absurd (hStore ▸ hLate) (by decide)
  · have hMine := ofAccount_iff.mpr ⟨hStore, hAccount⟩
    exact release_key hKey (release_store.symm.trans hRow) (mem_ids_of htDb hMine hId)

theorem free_of_not_dangles (hBefore : ¬ Dangles Refers (swept (sweepBefore db accountId)) db)
    (hAfter : ¬ Dangles Refers (swept (sweepAfter accountId)) (released db accountId)) : Free db accountId := by
  intro r hr hNotGoes t ht hStore hAccount hRefers
  have hGoes : Goes db accountId t := by
    refine Or.inl ⟨?_, hAccount⟩
    rcases hStore with hStore | hStore | hStore <;> (rw [hStore]; decide)
  obtain ⟨hNotBefore, hNotAfter⟩ := not_or.mp (goes_iff.not.mp hNotGoes)
  by_cases hLate : t.store = .repo
  · have hNotLedger : r.store ≠ .billingLedgerEntry := by
      intro hLedger
      obtain ⟨-, id, -, hCases⟩ := hRefers.cases (by simp [hLate])
      simp [hLate, hLedger, Row.key, Store.keys, Store.foreignKeys] at hCases
    have hSame : ∀ {row : Row}, row.store ≠ .billingLedgerEntry →
        row.release (db.ids .creditBucket accountId) = row := release_other
    refine hAfter ⟨r, mem_released.mpr ⟨r, hr, by simpa using hNotBefore, hSame hNotLedger⟩, by simpa using hNotAfter, t,
      mem_released.mpr ⟨t, ht, ?_, hSame (by simp [hLate])⟩, ?_, hRefers⟩
    · exact Bool.eq_false_iff.mpr fun hEarly => (before_iff.mp hEarly).2 (by simp [hLate])
    · exact after_iff.mpr ⟨by simp [hLate], hAccount⟩
  · refine hBefore ⟨r, hr, by simpa using hNotBefore, t, ht, before_iff.mpr ⟨hGoes, ?_⟩, hRefers⟩
    rcases hStore with hStore | hStore | hStore
    · rw [hStore]; decide
    · rw [hStore]; decide
    · exact absurd hStore hLate

/-- Another account has the tombstone's name. -/
def Taken (db : Db) (accountId : String) : Prop :=
  ∃ r ∈ db, r.store = .account ∧ r.id ≠ some accountId ∧ r.text "github_id" = some (tombstone accountId)

/-- What is left of the rows. -/
def left (db : Db) (accountId now : String) : Db :=
  ((released db accountId).filter fun r => !swept (sweepAfter accountId) r).map (Row.anonymize accountId now)

variable {cancel : String → Erased Unit}

theorem cancel_ok (h : ∀ id, cancel id = .ok ()) :
    ∃ canceled, cancelLiveSubscriptions cancel db accountId = .ok canceled := by
  have hEach : ∀ rows : Db, (rows.forM fun r => cancel ((r.text "stripe_subscription_id").getD "")) = .ok () := by
    intro rows
    induction rows with
    | nil => rfl
    | cons r rest ih =>
        change (cancel _ >>= fun _ => rest.forM fun r => cancel ((r.text "stripe_subscription_id").getD "")) = _
        rw [h, Fallible.ok_bind]
        exact ih
  exact ⟨_, by simp only [cancelLiveSubscriptions, hEach, Fallible.ok_bind]; rfl⟩

theorem account_left (h : r ∈ db) (hStore : r.store = .account) :
    r ∈ (released db accountId).filter fun r => !swept (sweepAfter accountId) r := by
  refine List.mem_filter.mpr ⟨mem_released.mpr ⟨r, h, ?_, release_other (by simp [hStore])⟩, ?_⟩
  · refine Bool.eq_false_iff.mpr fun hGone => ?_
    have hGoes := (before_iff.mp hGone).1
    simp [Goes, ownStores, hStore] at hGoes
  · have hStays : swept (sweepAfter accountId) r = false :=
      Bool.eq_false_iff.mpr fun hGone => by simpa [hStore] using (after_iff.mp hGone).1
    simp [hStays]

/-- A row that is left by both sweeps. -/
theorem mem_left_cases (h : t ∈ (released db accountId).filter fun r => !swept (sweepAfter accountId) r) :
    ∃ r ∈ db, ¬ Goes db accountId r ∧ r.release (db.ids .creditBucket accountId) = t := by
  obtain ⟨hMem, hAfter⟩ := List.mem_filter.mp h
  obtain ⟨r, hr, hBefore, rfl⟩ := mem_released.mp hMem
  refine ⟨r, hr, fun hGoes => ?_, rfl⟩
  rcases goes_iff.mp hGoes with hGone | hGone
  · exact absurd hGone (by simp [hBefore])
  · have hLate := (after_iff.mp hGone).1
    have hSame : r.release (db.ids .creditBucket accountId) = r :=
      release_other fun hLedger => absurd (hLedger ▸ hLate) (by decide)
    rw [hSame, hGone] at hAfter
    cases hAfter

theorem taken_iff : (((released db accountId).filter fun r => !swept (sweepAfter accountId) r).any fun r =>
    r.store = .account && r.id ≠ some accountId && r.text "github_id" = some (tombstone accountId)) = true ↔
      Taken db accountId := by
  rw [List.any_eq_true]
  constructor
  · rintro ⟨t, ht, hIs⟩
    obtain ⟨r, hr, -, rfl⟩ := mem_left_cases ht
    simp only [Bool.and_eq_true, decide_eq_true_eq, release_store] at hIs
    have hSame : r.release (db.ids .creditBucket accountId) = r := release_other (by simp [hIs.1.1])
    rw [hSame] at hIs
    exact ⟨r, hr, hIs.1.1, hIs.1.2, hIs.2⟩
  · rintro ⟨r, hr, hStore, hId, hText⟩
    exact ⟨r, account_left hr hStore, by simp [hStore, hId, hText]⟩

/-- The deletion comes through where no row that stays refers to one that goes
and the tombstone's name is free. -/
theorem deleteAccount_ok_iff (hKeyed : Keyed db) (hCancel : ∀ id, cancel id = .ok ()) :
    (∃ receipt, deleteAccount cancel now db accountId = .ok (db', receipt)) ↔
      (Free db accountId ∧ ¬ Taken db accountId) ∧ db' = left db accountId now := by
  obtain ⟨canceled, hCanceled⟩ : ∃ canceled, cancelLiveSubscriptions cancel db accountId = .ok canceled := cancel_ok hCancel
  rw [deleteAccount_eq cancel hKeyed, hCanceled]
  constructor
  · rintro ⟨receipt, h⟩
    rw [Fallible.ok_bind] at h
    obtain ⟨one, hOne, h⟩ := Fallible.peel h
    obtain ⟨two, hTwo, h⟩ := Fallible.peel h
    obtain ⟨three, hThree, h⟩ := Fallible.peel h
    obtain ⟨rfl, -⟩ := Fallible.pair h
    obtain ⟨hBefore, rfl⟩ := (sweep_eq_some_iff ordered_before).mp (deleteEach_eq_ok_iff.mp hOne)
    obtain ⟨hAfter, rfl⟩ := (sweep_eq_some_iff ordered_after).mp (deleteEach_eq_ok_iff.mp hTwo)
    unfold Db.anonymize at hThree
    split at hThree
    · cases hThree
    · next hNotTaken =>
        exact ⟨⟨free_of_not_dangles hBefore hAfter, fun hTaken => hNotTaken (taken_iff.mpr hTaken)⟩,
          (Except.ok.inj hThree).symm⟩
  · rintro ⟨⟨hFree, hNotTaken⟩, rfl⟩
    have hOne := deleteEach_eq_ok_iff.mpr ((sweep_eq_some_iff ordered_before).mpr ⟨not_dangles_before hFree, rfl⟩)
    have hTwo := deleteEach_eq_ok_iff.mpr ((sweep_eq_some_iff ordered_after).mpr ⟨not_dangles_after hFree, rfl⟩)
    have hThree : Db.anonymize ((released db accountId).filter fun r => !swept (sweepAfter accountId) r) accountId now =
        .ok (left db accountId now) :=
      if_neg fun hTaken => hNotTaken (taken_iff.mp hTaken)
    rw [Fallible.ok_bind, hOne, Fallible.ok_bind]
    change ∃ receipt, (Db.deleteEach (released db accountId) _ >>= _) = _
    rw [hTwo, Fallible.ok_bind, hThree]
    exact ⟨_, rfl⟩

end Brnrd.Erasure
