import Brnrd.Erasure.Complete

/-! The rows an account has to be without for its erasure to be complete. -/
namespace Brnrd.Erasure

open Python Tables

variable {db db' : Db} {accountId now : String} {r t : Row}

/-- The row is keyed by the account, by one of its repos or by one of its daemons. -/
def KeyedBy (db : Db) (accountId : String) (r : Row) : Prop :=
  r.key .account = some accountId ∨ Holds db accountId .repo .repo r ∨ Holds db accountId .daemon .daemon r

/-- The account a row is of: the one its column names, else that of its repo, of
its daemon, or of its installation. -/
def ownedBy (db : Db) (accountId : String) (r : Row) : Bool :=
  match r.store, r.key .account, r.key .repo, r.key .daemon, r.key .installation with
  | .account, _, _, _, _ => r.id = some accountId
  | _, some owner, _, _, _ => owner = accountId
  | _, none, some repo, _, _ => repo ∈ db.ids .repo accountId
  | _, none, none, some daemon, _ => daemon ∈ db.ids .daemon accountId
  | _, none, none, none, some installation => installation ∈ db.ids .gitHubInstallation accountId
  | _, none, none, none, none => false

/-- The content columns of the account row are empty. -/
structure Emptied (r : Row) : Prop where
  login : Dict.get r.columns "github_login" = .str ""
  email : Dict.get r.columns "email" = .null
  surface : Dict.get r.columns "surface_json" = .str "[]"
  bases : Dict.get r.columns "bases_json" = .str "\x7b\x7d"
  customer : Dict.get r.columns "stripe_customer_id" = .null

/-- What an erasure leaves. -/
structure Complete (db db' : Db) (accountId : String) : Prop where
  gone : ∀ r ∈ db', KeyedBy db accountId r → r.store = .billingLedgerEntry
  emptied : ∀ r ∈ db', r.store = .account → r.id = some accountId → Emptied r
  others : ∀ other, other ≠ accountId → db'.filter (ownedBy db other) = db.filter (ownedBy db other)

/-- What the account has to be without. -/
structure Erasable (db : Db) (accountId : String) : Prop where
  /-- Rows of the stores that the sweep does not name. -/
  unnamed : ∀ r ∈ db, r.store ∈ [.loomPart, .daemonRepo, .boardConsent, .runReleaseRequest, .runRespawnRequest] →
    ¬ KeyedBy db accountId r
  /-- Rows of another account, or of none, that hold one of its repos or tokens. -/
  own : ∀ r ∈ db, r.store ∈ ownStores → Holds db accountId .repo .repo r ∨ Holds db accountId .token .token r →
    r.key .account = some accountId
  /-- Activity at a repo of another account that holds one of its daemons or tokens. -/
  activity : ∀ r ∈ db, r.store = .activityRecord →
    Holds db accountId .daemon .daemon r ∨ Holds db accountId .token .token r → Holds db accountId .repo .repo r
  /-- Ledger rows of another account that name one of its buckets. -/
  ledger : ∀ r ∈ db, r.store = .billingLedgerEntry → Holds db accountId .bucket .creditBucket r →
    ∀ other, r.key .account = some other → other = accountId
  /-- A mirror of URL bases. -/
  bases : ∀ r ∈ db, r.store = .account → r.id = some accountId → Dict.get r.columns "bases_json" = .str "\x7b\x7d"
  /-- Another account with the name of its tombstone. -/
  tombstone : ¬ Taken db accountId

/-- The rows the deletion leaves, with what became of them. -/
theorem mem_left : t ∈ left db accountId now ↔ ∃ r ∈ db, ¬ Goes db accountId r ∧
    (r.release (db.ids .creditBucket accountId)).anonymize accountId now = t := by
  constructor
  · intro h
    obtain ⟨middle, hMiddle, rfl⟩ := List.mem_map.mp h
    obtain ⟨r, hr, hStays, rfl⟩ := mem_left_cases hMiddle
    exact ⟨r, hr, hStays, rfl⟩
  · rintro ⟨r, hr, hStays, rfl⟩
    obtain ⟨hBefore, hAfter⟩ := not_or.mp (goes_iff.not.mp hStays)
    refine List.mem_map_of_mem (List.mem_filter.mpr ⟨mem_released.mpr ⟨r, hr, by simpa using hBefore, rfl⟩, ?_⟩)
    have hLate : swept (sweepAfter accountId) (r.release (db.ids .creditBucket accountId)) = false := by
      by_cases hLedger : r.store = .billingLedgerEntry
      · refine Bool.eq_false_iff.mpr fun hGone => ?_
        have hStore := (after_iff.mp hGone).1
        rw [release_store, hLedger] at hStore
        exact absurd hStore (by decide)
      · rw [release_other hLedger]
        simpa using hAfter
    simp [hLate]

/-- A row that stays and is neither a ledger row nor the account's is as it was. -/
theorem left_same (h : r ∈ db) (hStays : ¬ Goes db accountId r) (hLedger : r.store ≠ .billingLedgerEntry)
    (hAccount : r.store ≠ .account) : r ∈ left db accountId now := by
  refine mem_left.mpr ⟨r, h, hStays, ?_⟩
  rw [release_other hLedger, anonymize_other fun hIs => hAccount hIs.1]

/-- A key that a store does not have. -/
theorem key_none {k : Key} (h : k ∉ r.store.keys) : r.key k = none :=
  if_neg h

variable {id other : String}

theorem keys_of_key {k : Key} (h : r.key k = some id) : k ∈ r.store.keys := by
  by_contra hNot
  rw [key_none hNot] at h
  cases h

theorem refers_token (hKey : r.key .token = some id) (hStore : t.store = .token) (hId : t.id = some id) : Refers r t := by
  have hForeign : ∀ s : Store, Key.token ∈ s.keys → (Key.token, Store.token) ∈ s.foreignKeys := by
    intro s
    cases s <;> decide
  exact ⟨_, hForeign r.store (keys_of_key hKey), hStore, by simp [hKey], hKey.trans hId.symm⟩

/-- A row that holds one of the account's tokens is refused, if it stays. -/
theorem goes_of_token (hFree : Free db accountId) (hr : r ∈ db) (h : Holds db accountId .token .token r) :
    Goes db accountId r := by
  obtain ⟨id, hId, hKey⟩ := h
  obtain ⟨t, ht, hMine, hTarget⟩ := mem_ids.mp hId
  obtain ⟨hStore, hAccount⟩ := ofAccount_iff.mp hMine
  by_contra hStays
  exact hFree r hr hStays t ht (Or.inr (Or.inl hStore)) hAccount (refers_token hKey hStore hTarget)

theorem own_of_goes (hOwn : r.store ∈ ownStores) (h : Goes db accountId r) : r.key .account = some accountId := by
  rcases h with ⟨-, hAccount⟩ | ⟨hStore | hStore, -⟩ | ⟨hStore, -⟩
  · exact hAccount
  all_goals exact absurd (hStore ▸ hOwn) (by decide)

theorem repo_of_goes (hActivity : r.store = .activityRecord) (h : Goes db accountId r) : Holds db accountId .repo .repo r := by
  rcases h with ⟨hOwn, -⟩ | ⟨-, hRepo⟩ | ⟨hStore, -⟩
  · exact absurd (hActivity ▸ hOwn) (by decide)
  · exact hRepo
  · exact absurd (hActivity.symm.trans hStore) (by decide)

/-- What is keyed by the account goes, where the erasure is complete. -/
theorem Complete.goes (h : Complete db (left db accountId now) accountId) (hr : r ∈ db) (hLedger : r.store ≠ .billingLedgerEntry)
    (hKeyed : KeyedBy db accountId r) : Goes db accountId r := by
  by_contra hStays
  have hAccount : r.store ≠ .account := by
    intro hStore
    have hNone : ∀ k, r.key k = none := fun k => key_none (by simp [hStore, Store.keys, Store.foreignKeys])
    simp [KeyedBy, Holds, hNone] at hKeyed
  exact hLedger (h.gone r (left_same hr hStays hLedger hAccount) hKeyed)

theorem erasable_of_complete (hFree : Free db accountId) (hNotTaken : ¬ Taken db accountId)
    (h : Complete db (left db accountId now) accountId) : Erasable db accountId where
  unnamed := by
    intro r hr hStore hKeyed
    have hLedger : r.store ≠ .billingLedgerEntry := fun hIs => absurd (hIs ▸ hStore) (by decide)
    rcases h.goes hr hLedger hKeyed with ⟨hOwn, -⟩ | ⟨hIs | hIs, -⟩ | ⟨hIs, -⟩
    · revert hStore hOwn
      cases r.store <;> decide
    all_goals exact absurd (hIs ▸ hStore) (by decide)
  own := by
    intro r hr hOwn hHolds
    have hLedger : r.store ≠ .billingLedgerEntry := fun hIs => absurd (hIs ▸ hOwn) (by decide)
    rcases hHolds with hRepo | hToken
    · exact own_of_goes hOwn (h.goes hr hLedger (Or.inr (Or.inl hRepo)))
    · exact own_of_goes hOwn (goes_of_token hFree hr hToken)
  activity := by
    intro r hr hStore hHolds
    rcases hHolds with hDaemon | hToken
    · exact repo_of_goes hStore (h.goes hr (by simp [hStore]) (Or.inr (Or.inr hDaemon)))
    · exact repo_of_goes hStore (goes_of_token hFree hr hToken)
  ledger := by
    rintro r hr hStore ⟨id, hId, hKey⟩ other hOther
    by_contra hNot
    have hOwned : ownedBy db other r = true := by simp [ownedBy, hStore, hOther]
    have hMem : r ∈ (left db accountId now).filter (ownedBy db other) :=
      h.others other hNot ▸ List.mem_filter.mpr ⟨hr, hOwned⟩
    obtain ⟨old, -, -, hSame⟩ := mem_left.mp (List.mem_of_mem_filter hMem)
    have hOldStore : old.store = .billingLedgerEntry := by
      rw [← release_store, ← anonymize_store, hSame, hStore]
    rw [anonymize_other (by simp [release_store, hOldStore])] at hSame
    exact release_key (hSame ▸ hKey) hOldStore hId
  bases := by
    intro r hr hStore hId
    have hStays : ¬ Goes db accountId r := by simp [Goes, hStore, ownStores]
    have hMem : r.anonymize accountId now ∈ left db accountId now :=
      mem_left.mpr ⟨r, hr, hStays, by rw [release_other (by simp [hStore])]⟩
    exact anonymize_bases.symm.trans (h.emptied _ hMem (anonymize_store.trans hStore) (anonymize_id.trans hId)).bases
  tombstone := hNotTaken

theorem stores_cases (s : Store) : s ∈ ownStores ∨ s ∈ [.loomPart, .daemonRepo, .boardConsent, .runReleaseRequest,
    .runRespawnRequest] ∨ s = .activityRecord ∨ s = .event ∨
      s ∈ [.account, .gitHubInstalledRepo, .billingLedgerEntry] := by
  cases s <;> decide

/-- What is keyed by the account goes, where it has to be without nothing. -/
theorem Erasable.goes (h : Erasable db accountId) (hr : r ∈ db) (hLedger : r.store ≠ .billingLedgerEntry)
    (hKeyed : KeyedBy db accountId r ∨ Holds db accountId .token .token r) : Goes db accountId r := by
  rcases stores_cases r.store with hOwn | hUnnamed | hActivity | hEvent | hRest
  · have hNoDaemon : ¬ Holds db accountId .daemon .daemon r := by
      rintro ⟨id, -, hKey⟩
      have hHas := keys_of_key hKey
      revert hOwn hHas
      cases r.store <;> decide
    refine Or.inl ⟨hOwn, ?_⟩
    rcases hKeyed with (hAccount | hRepo | hDaemon) | hToken
    · exact hAccount
    · exact h.own r hr hOwn (Or.inl hRepo)
    · exact absurd hDaemon hNoDaemon
    · exact h.own r hr hOwn (Or.inr hToken)
  · rcases hKeyed with hKeyed | ⟨id, -, hKey⟩
    · exact absurd hKeyed (h.unnamed r hr hUnnamed)
    · have hNoToken : ∀ s ∈ [Store.loomPart, .daemonRepo, .boardConsent, .runReleaseRequest, .runRespawnRequest],
          Key.token ∉ s.keys := by decide
      exact absurd (keys_of_key hKey) (hNoToken r.store hUnnamed)
  · refine Or.inr (Or.inl ⟨.inl hActivity, ?_⟩)
    rcases hKeyed with (hAccount | hRepo | hDaemon) | hToken
    · have hHas := keys_of_key hAccount
      exact absurd (hActivity ▸ hHas) (by decide)
    · exact hRepo
    · exact h.activity r hr hActivity (Or.inl hDaemon)
    · exact h.activity r hr hActivity (Or.inr hToken)
  · refine Or.inr (Or.inl ⟨.inr hEvent, ?_⟩)
    have hOnly : ∀ {k : Key}, k ≠ .repo → r.key k = none := fun {k} hNot =>
      key_none (by simpa [hEvent, Store.keys, Store.foreignKeys] using hNot)
    rcases hKeyed with (hAccount | hRepo | ⟨id, -, hKey⟩) | ⟨id, -, hKey⟩
    · simp [hOnly] at hAccount
    · exact hRepo
    · simp [hOnly] at hKey
    · simp [hOnly] at hKey
  · have hNone : ∀ k ∈ [Key.account, .repo, .daemon, .token], r.key k = none := by
      have hKeys : ∀ s ∈ [Store.account, .gitHubInstalledRepo, .billingLedgerEntry], s ≠ .billingLedgerEntry →
          ∀ k ∈ [Key.account, .repo, .daemon, .token], k ∉ s.keys := by decide
      exact fun k hk => key_none (hKeys r.store hRest hLedger k hk)
    simp [KeyedBy, Holds, hNone] at hKeyed

theorem Erasable.free (h : Erasable db accountId) : Free db accountId := by
  intro r hr hStays t ht hStore hAccount hRefers
  have hNotAccount : t.store ≠ .account := by
    rcases hStore with hStore | hStore | hStore <;> simp [hStore]
  obtain ⟨-, id, hId, hCases⟩ := hRefers.cases hNotAccount
  have hMine : id ∈ db.ids t.store accountId := mem_ids_of ht (ofAccount_iff.mpr ⟨rfl, hAccount⟩) hId
  have hLedger : (∃ k, k ≠ .bucket ∧ k ≠ .account ∧ r.key k = some id) → r.store ≠ .billingLedgerEntry := by
    rintro ⟨k, hBucket, hAccountKey, hKey⟩ hIs
    have hHas := keys_of_key hKey
    simp [hIs, Store.keys, Store.foreignKeys, hBucket, hAccountKey] at hHas
  rcases hCases with ⟨hIs, hKey⟩ | ⟨hIs, hKey⟩ | ⟨hIs, hKey⟩ | ⟨hIs, -⟩ | ⟨hIs, -⟩
  · exact hStays (h.goes hr (hLedger ⟨.repo, by decide, by decide, hKey⟩) (Or.inl (Or.inr (Or.inl ⟨id, hIs ▸ hMine, hKey⟩))))
  · exact hStays (h.goes hr (hLedger ⟨.daemon, by decide, by decide, hKey⟩) (Or.inl (Or.inr (Or.inr ⟨id, hIs ▸ hMine, hKey⟩))))
  · exact hStays (h.goes hr (hLedger ⟨.token, by decide, by decide, hKey⟩) (Or.inr ⟨id, hIs ▸ hMine, hKey⟩))
  · simp [hIs] at hStore
  · simp [hIs] at hStore

/-- A row has one owner of an id. -/
theorem ids_disjoint (hKeyed : Keyed db) {store : Store} (h : id ∈ db.ids store accountId)
    (hOther : id ∈ db.ids store other) : accountId = other := by
  obtain ⟨r, hr, hMine, hId⟩ := mem_ids.mp h
  obtain ⟨t, ht, hTheirs, hSame⟩ := mem_ids.mp hOther
  obtain ⟨hStore, hAccount⟩ := ofAccount_iff.mp hMine
  obtain ⟨hTheirStore, hTheirAccount⟩ := ofAccount_iff.mp hTheirs
  obtain rfl := hKeyed.unique r hr t ht (hStore.trans hTheirStore.symm) (by simp [hId]) (hId.trans hSame.symm)
  exact Option.mem_unique hAccount hTheirAccount

/-- What the sweep takes is of no other account. -/
theorem goes_not_owned (hKeyed : Keyed db) (hOther : other ≠ accountId) (h : Goes db accountId r) :
    ownedBy db other r = false := by
  rcases h with ⟨hOwn, hAccount⟩ | ⟨hStore, id, hId, hKey⟩ | ⟨hStore, id, hId, hKey⟩
  · have hNotAccount : r.store ≠ .account := fun hIs => absurd (hIs ▸ hOwn) (by decide)
    simp [ownedBy, hAccount, Ne.symm hOther]
  · have hNone : r.key .account = none := by
      rcases hStore with hStore | hStore <;> exact key_none (by rw [hStore]; decide)
    have hNot : id ∉ db.ids .repo other := fun hTheirs => hOther (ids_disjoint hKeyed hId hTheirs).symm
    rcases hStore with hStore | hStore <;> simp [ownedBy, hStore, hNone, hKey, hNot]
  · have hNone : ∀ k ≠ Key.installation, r.key k = none := fun k hk => key_none (by
      simpa [hStore, Store.keys, Store.foreignKeys] using hk)
    have hNot : id ∉ db.ids .gitHubInstallation other := fun hTheirs => hOther (ids_disjoint hKeyed hId hTheirs).symm
    simp [ownedBy, hStore, hNone, hKey, hNot]

theorem release_other_key {bucketIds : List String} {k : Key} (h : k ≠ .bucket) : (r.release bucketIds).key k = r.key k := by
  unfold Row.release
  split
  · have hColumn : k.column ≠ "bucket_id" := by
      revert h
      cases k <;> decide
    simp only [Row.key, Row.text, get_set, if_neg hColumn]
    rfl
  · rfl

theorem release_owned {bucketIds : List String} : ownedBy db other (r.release bucketIds) = ownedBy db other r := by
  by_cases hLedger : r.store = .billingLedgerEntry
  · have hAccount : (r.release bucketIds).key .account = r.key .account := release_other_key (by decide)
    have hRepo : (r.release bucketIds).key .repo = r.key .repo := release_other_key (by decide)
    have hDaemon : (r.release bucketIds).key .daemon = r.key .daemon := release_other_key (by decide)
    have hInstallation : (r.release bucketIds).key .installation = r.key .installation := release_other_key (by decide)
    simp only [ownedBy, release_store, release_id, hLedger, hAccount, hRepo, hDaemon, hInstallation]
  · rw [release_other hLedger]

theorem filter_keeps {rows : List Row} {keep p : Row → Bool} (h : ∀ r ∈ rows, p r = true → keep r = true) :
    (rows.filter keep).filter p = rows.filter p := by
  rw [List.filter_filter]
  refine List.filter_congr fun r hr => ?_
  cases hp : p r with
  | false => rfl
  | true => simp [h r hr hp]

/-- The rows of the other accounts are as they were. -/
theorem Erasable.others (h : Erasable db accountId) (hKeyed : Keyed db) (hOther : other ≠ accountId) :
    (left db accountId now).filter (ownedBy db other) = db.filter (ownedBy db other) := by
  have hNotGoes : ∀ r, ownedBy db other r = true → ¬ Goes db accountId r := fun r hOwned hGoes => by
    simp [goes_not_owned hKeyed hOther hGoes] at hOwned
  have hBefore : ∀ r ∈ db, ownedBy db other r = true → (!swept (sweepBefore db accountId) r) = true := by
    intro r _ hOwned
    simpa using (not_or.mp (goes_iff.not.mp (hNotGoes r hOwned))).1
  have hAfter : ∀ r ∈ released db accountId, ownedBy db other r = true → (!swept (sweepAfter accountId) r) = true := by
    intro t ht hOwned
    obtain ⟨r, -, -, rfl⟩ := mem_released.mp ht
    rw [release_owned] at hOwned
    by_cases hLedger : r.store = .billingLedgerEntry
    · have hStays : swept (sweepAfter accountId) (r.release (db.ids .creditBucket accountId)) = false := by
        refine Bool.eq_false_iff.mpr fun hGone => ?_
        have hStore := (after_iff.mp hGone).1
        rw [release_store, hLedger] at hStore
        exact absurd hStore (by decide)
      simp [hStays]
    · rw [release_other hLedger]
      simpa using (not_or.mp (goes_iff.not.mp (hNotGoes r hOwned))).2
  have hReleased : (released db accountId).filter (ownedBy db other) = db.filter (ownedBy db other) := by
    rw [← filter_keeps hBefore]
    refine filter_map_fixed fun r hr => ⟨release_owned, fun hOwned => ?_⟩
    unfold Row.release
    split
    · next hIs =>
        obtain ⟨hStore, hHolds⟩ := isIn_iff.mp hIs
        have hAccount : r.key .account = some other := by
          cases hKey : r.key .account with
          | some owner => simpa [ownedBy, hStore, hKey] using hOwned
          | none =>
              have hNone : ∀ k, k ≠ .bucket → k ≠ .account → r.key k = none := fun k hBucket hNot =>
                key_none (by simp [hStore, Store.keys, Store.foreignKeys, hBucket, hNot])
              simp [ownedBy, hStore, hKey, hNone] at hOwned
        exact absurd (h.ledger r (List.mem_of_mem_filter hr) hStore hHolds other hAccount) hOther
    · rfl
  rw [left, filter_map_fixed, filter_keeps hAfter, hReleased]
  intro r _
  by_cases hIs : r.store = .account ∧ r.id = some accountId
  · have hMine : ∀ {row : Row}, row.store = .account → row.id = some accountId → ownedBy db other row = false := by
      intro row hStore hId
      simp [ownedBy, hStore, hId, Ne.symm hOther]
    rw [hMine (anonymize_store.trans hIs.1) (anonymize_id.trans hIs.2), hMine hIs.1 hIs.2]
    simp
  · rw [anonymize_other hIs]
    simp

theorem Erasable.complete (h : Erasable db accountId) (hKeyed : Keyed db) : Complete db (left db accountId now) accountId where
  gone := by
    intro t ht hKeyedBy
    by_contra hLedger
    obtain ⟨r, hr, hStays, rfl⟩ := mem_left.mp ht
    rw [anonymize_store, release_store] at hLedger
    have hNotAccount : r.store ≠ .account := by
      intro hIs
      have hNone : ∀ k, ((r.release (db.ids .creditBucket accountId)).anonymize accountId now).key k = none := fun k =>
        key_none (by simp [anonymize_store, release_store, hIs, Store.keys, Store.foreignKeys])
      simp [KeyedBy, Holds, hNone] at hKeyedBy
    rw [release_other hLedger, anonymize_other fun hIs => hNotAccount hIs.1] at hKeyedBy
    exact hStays (h.goes hr hLedger (Or.inl hKeyedBy))
  emptied := by
    intro t ht hStore hId
    obtain ⟨r, hr, -, rfl⟩ := mem_left.mp ht
    rw [anonymize_store, release_store] at hStore
    have hSame : r.release (db.ids .creditBucket accountId) = r := release_other (by simp [hStore])
    rw [hSame, anonymize_id] at hId
    rw [hSame]
    have hBases : Dict.get (r.anonymize accountId now).columns "bases_json" = .str "\x7b\x7d" :=
      anonymize_bases.trans (h.bases r hr hStore hId)
    refine ⟨?_, ?_, ?_, hBases, ?_⟩ <;> simp [Row.anonymize, hStore, hId, get_set]
  others := fun _ hOther => h.others hKeyed hOther

/-- The erasure comes through and is complete exactly where the account is
without the rows that the sweep does not reach. -/
theorem erasure_complete_iff {cancel : String → Erased Unit} (hKeyed : Keyed db) (hCancel : ∀ id, cancel id = .ok ()) :
    (∃ db' receipt, deleteAccount cancel now db accountId = .ok (db', receipt) ∧ Complete db db' accountId) ↔
      Erasable db accountId := by
  constructor
  · rintro ⟨db', receipt, hDone, hComplete⟩
    obtain ⟨⟨hFree, hNotTaken⟩, rfl⟩ := (deleteAccount_ok_iff hKeyed hCancel).mp ⟨receipt, hDone⟩
    exact erasable_of_complete hFree hNotTaken hComplete
  · intro h
    obtain ⟨receipt, hDone⟩ := (deleteAccount_ok_iff hKeyed hCancel).mpr ⟨⟨h.free, h.tombstone⟩, rfl⟩
    exact ⟨left db accountId now, receipt, hDone, h.complete hKeyed⟩

/-- An account row with a mirror of URL bases. -/
def accountRow (id bases : String) : Row :=
  ⟨.account, [("id", .str id), ("github_id", .str "1"), ("github_login", .str "octocat"), ("email", .null),
    ("surface_json", .str "[]"), ("bases_json", .str bases), ("stripe_customer_id", .null)]⟩

/-- A daemon of the account, with its token. -/
def pairedDaemon : Db :=
  [accountRow "acc_1" "{}", ⟨.token, [("id", .str "tok_1"), ("account_id", .str "acc_1"), ("repo_id", .null)]⟩,
    ⟨.daemon, [("id", .str "dmn_1"), ("account_id", .str "acc_1"), ("repo_id", .null), ("token_id", .str "tok_1")]⟩]

def boardPart : Row :=
  ⟨.loomPart, [("daemon_id", .str "dmn_1"), ("key", .str "index"), ("account_id", .str "acc_1"), ("repo_id", .null)]⟩

theorem pairedDaemon_keyed : Keyed pairedDaemon :=
  ⟨by decide, by decide⟩

theorem erasure_complete_paired_daemon :
    (∃ db' receipt, deleteAccount (fun _ => .ok ()) "2026-07-23" pairedDaemon "acc_1" = .ok (db', receipt) ∧
      Complete pairedDaemon db' "acc_1") ↔ Erasable pairedDaemon "acc_1" :=
  erasure_complete_iff pairedDaemon_keyed fun _ => rfl

/-- A board part that the account's daemon pushed aborts the erasure. -/
theorem board_part_aborts_erasure :
    Keyed (boardPart :: pairedDaemon) ∧ Resolved (boardPart :: pairedDaemon) ∧
      deleteAccount (fun _ => .ok ()) "2026-07-23" (boardPart :: pairedDaemon) "acc_1" = .error .integrity := by
  refine ⟨⟨by decide, by decide⟩, ?_, by decide +kernel⟩
  unfold Resolved
  decide

end Brnrd.Erasure
