import Brnrd.Ledger.View

/-! The indexes of a ledger view describe its list. Each fact that goes to the
tail keeps them so. -/
namespace Brnrd.Ledger

open Python Facts

/-- The key of `latest`. -/
def latestKey (fact : Fact) : String × Value × Value :=
  (fact.kind, Dict.get fact.data "strand", Dict.get fact.data "gen")

/-- The values of `data` that the view hashes are hashable and `at` is a time. -/
def Indexable (host : Host) (fact : Fact) : Prop :=
  (∀ key ∈ ["strand", "gen"] ++ (if fact.kind = "letter" then ["cites", "re"] else []) ++
      (if fact.kind = "letter.due" then ["letter"] else []) ++
      (if isRenewal fact then ["install"] else []), (Dict.get fact.data key).hashable) ∧
    (host.seconds fact.at_).isSome

instance (host : Host) (fact : Fact) : Decidable (Indexable host fact) :=
  inferInstanceAs (Decidable ((∀ key ∈ _, _) ∧ _))

/-- What `_add` does to the fields that decide where later facts go. -/
structure LedgerView.Added (host : Host) (v : LedgerView) (fact : Fact) (v' : LedgerView) : Prop where
  facts : v'.facts = v.facts ++ [fact]
  byId : v'.byId = (fact.id, fact) :: v.byId
  positions : v'.positions = (fact.id, v.facts.length) :: v.positions
  byKind : v'.byKind = appendAt v.byKind fact.kind fact
  latest : v'.latest = (latestKey fact, fact) :: v.latest
  missing : ∀ p, p ∈ v'.missing ↔
    p ≠ fact.id ∧ (p ∈ v.missing ∨ p ∈ fact.after ∧ v'.byId.lookup p = none)
  maximum : ∃ key, order host fact = .ok key ∧ v'.maximum = some (match v.maximum with
    | some top => max top key
    | none => key)
  duplicates : v'.duplicates = v.duplicates

theorem liftUnion_eq_ok {α : Type} {x : Except UnionError α} {a : α} : liftUnion x = .ok a ↔ x = .ok a := by
  cases x <;> simp [liftUnion]

theorem mem_foldl_insert {p : String} (l missing : List String) :
    p ∈ l.foldl (fun missing p => missing.insert p) missing ↔ p ∈ l ∨ p ∈ missing := by
  induction l generalizing missing with
  | nil => simp
  | cons q l ih =>
      rw [List.foldl_cons, ih, List.mem_insert_iff, List.mem_cons]
      tauto

/-- The view once a fact has entered the plain indexes and those of its kind. -/
def LedgerView.entered (host : Host) (v : LedgerView) (fact : Fact) (stamp : ℚ) : LedgerView :=
  LedgerView.addTimed (if fact.kind = "letter" then (v.enter fact stamp).addLetter host fact
    else if fact.kind = "source" then (v.enter fact stamp).addSource fact
    else v.enter fact stamp) fact

theorem LedgerView.addTimed_fields (v : LedgerView) (fact : Fact) :
    (v.addTimed fact).facts = v.facts ∧ (v.addTimed fact).byId = v.byId ∧
    (v.addTimed fact).positions = v.positions ∧ (v.addTimed fact).byKind = v.byKind ∧
    (v.addTimed fact).latest = v.latest ∧ (v.addTimed fact).missing = v.missing ∧
    (v.addTimed fact).maximum = v.maximum ∧ (v.addTimed fact).duplicates = v.duplicates := by
  unfold LedgerView.addTimed
  split
  · simp
  · split <;> simp

theorem LedgerView.entered_fields (host : Host) (v : LedgerView) (fact : Fact) (stamp : ℚ) :
    (v.entered host fact stamp).facts = v.facts ++ [fact] ∧
    (v.entered host fact stamp).byId = (fact.id, fact) :: v.byId ∧
    (v.entered host fact stamp).positions = (fact.id, v.facts.length) :: v.positions ∧
    (v.entered host fact stamp).byKind = appendAt v.byKind fact.kind fact ∧
    (v.entered host fact stamp).latest = (latestKey fact, fact) :: v.latest ∧
    (v.entered host fact stamp).missing = v.missing ∧
    (v.entered host fact stamp).maximum = v.maximum ∧
    (v.entered host fact stamp).duplicates = v.duplicates := by
  unfold LedgerView.entered
  split
  · exact LedgerView.addTimed_fields _ fact
  · split
    · exact LedgerView.addTimed_fields _ fact
    · exact LedgerView.addTimed_fields _ fact

variable {v v' : LedgerView} {host : Host}

theorem LedgerView.add_eq_ok {fact : Fact} (h : v.add host fact = .ok v') : LedgerView.Added host v fact v' := by
  unfold LedgerView.add at h
  split at h
  · cases h
  · split at h
    · cases h
    · next stamp _ =>
        obtain ⟨key, hKey, hEq⟩ := Fallible.peel h
        obtain rfl := Except.ok.inj hEq
        obtain ⟨hFacts, hById, hPositions, hByKind, hLatest, hMissing, hMaximum, hDuplicates⟩ :=
          v.entered_fields host fact stamp
        refine ⟨hFacts, hById, hPositions, hByKind, hLatest, fun p => ?_,
          ⟨key, liftUnion_eq_ok.mp hKey, ?_⟩, hDuplicates⟩
        · change p ∈ List.filter _ (List.foldl _ (v.entered host fact stamp).missing
            (List.filter _ _)) ↔ _ ∧ (_ ∨ _ ∧ (v.entered host fact stamp).byId.lookup p = none)
          rw [List.mem_filter, mem_foldl_insert, hMissing, List.mem_filter]
          change (_ ∨ _) ∧ _ ↔ _
          simp only [Option.isNone_iff_eq_none, decide_eq_true_eq]
          tauto
        · exact congrArg (fun maximum => some (match maximum with
            | some top => max top key
            | none => key)) hMaximum

theorem LedgerView.add_ok (v : LedgerView) {fact : Fact} (h : Indexable host fact)
    (hOrder : ∃ key, order host fact = .ok key) : ∃ v', v.add host fact = .ok v' := by
  obtain ⟨stamp, hStamp⟩ := Option.isSome_iff_exists.mp h.2
  obtain ⟨key, hKey⟩ := hOrder
  have hHashed : ((hashedKeys v fact).any fun key => !(Dict.get fact.data key).hashable) = false := by
    rw [List.any_eq_false]
    intro key hKey
    have hMem : key ∈ ["strand", "gen"] ++ (if fact.kind = "letter" then ["cites", "re"] else []) ++
        (if fact.kind = "letter.due" then ["letter"] else []) ++
        (if isRenewal fact then ["install"] else []) := by
      apply List.mem_append_left
      rcases List.mem_append.mp hKey with hKey | hKey
      · exact List.mem_append_left _ hKey
      · apply List.mem_append_right
        by_cases hDue : fact.kind = "letter.due"
        · split at hKey
          · rwa [if_pos hDue]
          · cases hKey
        · simp [hDue] at hKey
    simp [h.1 key hMem]
  unfold LedgerView.add
  rw [hHashed, hStamp, hKey]
  exact ⟨_, rfl⟩

/-- The indexes describe the list. -/
structure LedgerView.Indexed (host : Host) (v : LedgerView) : Prop where
  ids : (v.facts.map Fact.id).Nodup
  byId : ∀ ident f, v.byId.lookup ident = some f ↔ f ∈ v.facts ∧ f.id = ident
  positions : ∀ ident i, v.positions.lookup ident = some i ↔
    ∃ f, v.facts[i]? = some f ∧ f.id = ident
  byKind : ∀ kind, (v.byKind.lookup kind).getD [] = v.facts.filter fun f => f.kind = kind
  latest : ∀ key, v.latest.lookup key = (v.facts.filter fun f => latestKey f = key).getLast?
  missing : ∀ p, p ∈ v.missing ↔ (∃ f ∈ v.facts, p ∈ f.after) ∧ ∀ f ∈ v.facts, f.id ≠ p
  maximum : match v.maximum with
    | none => v.facts = []
    | some top => v.facts ≠ [] ∧ ∀ f ∈ v.facts, orderKey host f ≤ top

theorem LedgerView.Indexed.empty (host : Host) : LedgerView.empty.Indexed host where
  ids := by simp [LedgerView.empty]
  byId := by simp [LedgerView.empty]
  positions := by simp [LedgerView.empty]
  byKind := by simp [LedgerView.empty]
  latest := by simp [LedgerView.empty]
  missing := by simp [LedgerView.empty]
  maximum := by simp [LedgerView.empty]

theorem LedgerView.Indexed.lookup_none (h : v.Indexed host) {ident : String} :
    v.byId.lookup ident = none ↔ ∀ f ∈ v.facts, f.id ≠ ident := by
  rw [Option.eq_none_iff_forall_ne_some]
  exact ⟨fun hNone f hf hId => hNone f ((h.byId ident f).mpr ⟨hf, hId⟩),
    fun hNone f hf => hNone f ((h.byId ident f).mp hf).1 ((h.byId ident f).mp hf).2⟩

theorem LedgerView.Indexed.add {fact : Fact} (h : v.Indexed host) (hNew : ∀ f ∈ v.facts, f.id ≠ fact.id)
    (hAdded : LedgerView.Added host v fact v') : v'.Indexed host := by
  have hById : ∀ ident f, v'.byId.lookup ident = some f ↔ f ∈ v'.facts ∧ f.id = ident := by
    intro ident f
    rw [hAdded.byId, lookup_cons_if, hAdded.facts, List.mem_append, List.mem_singleton]
    by_cases hIdent : ident = fact.id
    · rw [if_pos hIdent]
      constructor
      · intro hEq
        obtain rfl := Option.some.inj hEq
        exact ⟨.inr rfl, hIdent.symm⟩
      · rintro ⟨hf | rfl, hId⟩
        · exact absurd (hId.trans hIdent) (hNew f hf)
        · rfl
    · rw [if_neg hIdent, h.byId]
      constructor
      · rintro ⟨hf, hId⟩
        exact ⟨.inl hf, hId⟩
      · rintro ⟨hf | rfl, hId⟩
        · exact ⟨hf, hId⟩
        · exact absurd hId.symm hIdent
  refine ⟨?_, hById, fun ident i => ?_, fun kind => ?_, fun key => ?_, fun p => ?_, ?_⟩
  · rw [hAdded.facts, List.map_append, List.nodup_append]
    refine ⟨h.ids, by simp, ?_⟩
    rintro a ha b hb rfl
    obtain ⟨f, hf, rfl⟩ := List.mem_map.mp ha
    exact hNew f hf (by simpa using hb)
  · rw [hAdded.positions, lookup_cons_if, hAdded.facts]
    by_cases hIdent : ident = fact.id
    · subst hIdent
      rw [if_pos rfl]
      constructor
      · intro hEq
        obtain rfl := Option.some.inj hEq
        exact ⟨fact, by simp, rfl⟩
      · rintro ⟨f, hf, hId⟩
        rcases List.mem_append.mp (List.mem_of_getElem? hf) with hMem | hMem
        · exact absurd hId (hNew f hMem)
        · rcases lt_trichotomy i v.facts.length with hlt | rfl | hgt
          · rw [List.getElem?_append_left hlt] at hf
            exact absurd hId (hNew f (List.mem_of_getElem? hf))
          · rfl
          · have hNone : (v.facts ++ [fact])[i]? = none := by simp; omega
            rw [hNone] at hf
            cases hf
    · rw [if_neg hIdent, h.positions]
      constructor
      · rintro ⟨f, hf, hId⟩
        exact ⟨f, by rw [List.getElem?_append_left (List.getElem?_eq_some_iff.mp hf).1, hf], hId⟩
      · rintro ⟨f, hf, hId⟩
        have hlt : i < v.facts.length := by
          by_contra hge
          rw [List.getElem?_append_right (not_lt.mp hge)] at hf
          have := List.mem_singleton.mp (List.mem_of_getElem? hf)
          exact hIdent (this ▸ hId.symm)
        rw [List.getElem?_append_left hlt] at hf
        exact ⟨f, hf, hId⟩
  · rw [hAdded.byKind, appendAt, lookup_cons_if, hAdded.facts, List.filter_append]
    by_cases hKind : kind = fact.kind
    · subst hKind
      simp [h.byKind]
    · simp [hKind, Ne.symm hKind, h.byKind]
  · rw [hAdded.latest, lookup_cons_if, hAdded.facts, List.filter_append]
    by_cases hKey : key = latestKey fact
    · simp [hKey]
    · rw [if_neg hKey, h.latest]
      simp [Ne.symm hKey]
  · rw [hAdded.missing p, h.missing p, Option.eq_none_iff_forall_ne_some]
    simp only [ne_eq, hById, hAdded.facts, List.mem_append, List.mem_singleton]
    constructor
    · rintro ⟨hp, ⟨⟨f, hf, hAfter⟩, hAll⟩ | ⟨hAfter, hAll⟩⟩
      · refine ⟨⟨f, .inl hf, hAfter⟩, ?_⟩
        rintro g (hg | rfl)
        · exact hAll g hg
        · exact fun hEq => hp hEq.symm
      · exact ⟨⟨fact, .inr rfl, hAfter⟩, fun g hg hEq => hAll g ⟨hg, hEq⟩⟩
    · rintro ⟨⟨f, hf, hAfter⟩, hAll⟩
      refine ⟨fun hEq => hAll fact (Or.inr rfl) hEq.symm, ?_⟩
      rcases hf with hf | rfl
      · exact .inl ⟨⟨f, hf, hAfter⟩, fun g hg => hAll g (Or.inl hg)⟩
      · exact .inr ⟨hAfter, fun g hg => hAll g hg.1 hg.2⟩
  · obtain ⟨key, hKey, hMaximum⟩ := hAdded.maximum
    have hPrior := h.maximum
    obtain rfl := order_eq hKey
    rw [hMaximum, hAdded.facts]
    refine ⟨by simp, fun f hf => ?_⟩
    rcases List.mem_append.mp hf with hf | hf
    · cases hTop : v.maximum with
      | none =>
          rw [hTop] at hPrior
          exact absurd (hPrior ▸ hf) List.not_mem_nil
      | some top =>
          rw [hTop] at hPrior
          exact le_max_of_le_left (hPrior.2 f hf)
    · rw [List.mem_singleton.mp hf]
      cases v.maximum with
      | none => exact le_rfl
      | some top => exact le_max_right _ _

end Brnrd.Ledger

/-! The cut to the newest renewals, on a ledger in priority order: each
(install, gen) keeps the renewal of the highest order key. -/
namespace Brnrd.Ledger

open Python Facts LinearExtension

/-- Renewals as the router writes them: with no predecessors, named by no fact,
and with one content for each id. -/
structure PlainRenewals (facts : List Fact) : Prop where
  after : ∀ r ∈ facts, isRenewal r → r.after = []
  unnamed : ∀ r ∈ facts, isRenewal r → ∀ f ∈ facts, r.id ∉ f.after
  single : ∀ r ∈ facts, isRenewal r → ∀ g ∈ facts, g.id = r.id → g = r

theorem PlainRenewals.mono {facts facts' : List Fact} (h : PlainRenewals facts)
    (hSub : facts' ⊆ facts) : PlainRenewals facts' where
  after := fun r hr => h.after r (hSub hr)
  unnamed := fun r hr hRenewal f hf => h.unnamed r (hSub hr) hRenewal f (hSub hf)
  single := fun r hr hRenewal g hg => h.single r (hSub hr) hRenewal g (hSub hg)

/-- No renewal of its (install, gen) has a higher key. -/
def Newest (host : Host) (l : List Fact) (f : Fact) : Prop :=
  isRenewal f → ∀ r ∈ l, isRenewal r → renewalKey r = renewalKey f →
    orderKey host r ≤ orderKey host f

instance (host : Host) (l : List Fact) : DecidablePred (Newest host l) :=
  fun f => inferInstanceAs (Decidable (_ → ∀ r ∈ l, _ → _ → _))

theorem newestOf_snoc (l : List Fact) (f : Fact) :
    newestOf (l ++ [f]) = if isRenewal f then (renewalKey f, f.id) :: newestOf l else newestOf l := by
  unfold newestOf
  rw [List.filter_append, List.foldl_append]
  cases hf : isRenewal f <;> simp [hf]

theorem lookup_newestOf (l : List Fact) (key : Value × Value) :
    (newestOf l).lookup key =
      ((l.filter fun f => isRenewal f && renewalKey f = key).getLast?).map Fact.id := by
  induction l using List.reverseRecOn with
  | nil => rfl
  | append_singleton l f ih =>
      rw [newestOf_snoc, List.filter_append]
      cases hf : isRenewal f with
      | false => simpa [hf] using ih
      | true =>
          rw [if_pos rfl, lookup_cons_if]
          by_cases hKey : key = renewalKey f
          · simp [hf, hKey]
          · simpa [hf, hKey, Ne.symm hKey] using ih

/-- Everything before a renewal without predecessors has a lower key. -/
theorem pairwise_renewal {host : Host} {l : List Fact}
    (h : PriorityOrder Before (orderKey host) l)
    (hAfter : ∀ r ∈ l, isRenewal r → r.after = []) :
    l.Pairwise fun x y => isRenewal y → orderKey host x < orderKey host y := by
  induction l with
  | nil => exact List.Pairwise.nil
  | cons x rest ih =>
      refine List.Pairwise.cons (fun y hy hRenewal => ?_)
        (ih h.tail (fun r hr => hAfter r (List.mem_cons_of_mem _ hr)))
      apply h.2.1 y hy
      intro z _ hzy
      rw [Before, hAfter y (List.mem_cons_of_mem _ hy) hRenewal] at hzy
      exact List.not_mem_nil hzy

theorem getLast?_eq_some_iff_le {α κ : Type*} [LinearOrder κ] {key : α → κ} {l : List α}
    (h : l.Pairwise fun x y => key x < key y) {x : α} (hx : x ∈ l) :
    l.getLast? = some x ↔ ∀ y ∈ l, key y ≤ key x := by
  rcases List.eq_nil_or_concat l with rfl | ⟨first, z, rfl⟩
  · cases hx
  · rw [List.concat_eq_append] at h hx ⊢
    rw [List.getLast?_concat, Option.some_inj]
    have hLast := (List.pairwise_append.mp h).2.2
    constructor
    · rintro rfl y hy
      rcases List.mem_append.mp hy with hy | hy
      · exact (hLast y hy z (List.mem_singleton_self z)).le
      · rw [List.mem_singleton.mp hy]
    · intro hAll
      rcases List.mem_append.mp hx with hx | hx
      · exact absurd (hLast x hx z (List.mem_singleton_self z)) (not_lt.mpr (hAll z (by simp)))
      · exact (List.mem_singleton.mp hx).symm

/-- On a ledger in priority order the cut keeps exactly the newest renewals. -/
theorem cutRenewals_eq_filter {host : Host} {l : List Fact} (hIds : (l.map Fact.id).Nodup)
    (hOrder : PriorityOrder Before (orderKey host) l)
    (hAfter : ∀ r ∈ l, isRenewal r → r.after = []) :
    cutRenewals l = l.filter fun f => decide (Newest host l f) := by
  have hPairwise := pairwise_renewal hOrder hAfter
  unfold cutRenewals
  split
  · next hLength =>
      have hKeys : ∀ m : List Fact, (newestOf m).map Prod.fst =
          ((m.filter isRenewal).map renewalKey).reverse := by
        intro m
        induction m using List.reverseRecOn with
        | nil => rfl
        | append_singleton m f ih =>
            rw [newestOf_snoc, List.filter_append]
            cases hf : isRenewal f <;> simp [hf, ih]
      rw [hKeys] at hLength
      have hSelf := (List.dedup_sublist ((l.filter isRenewal).map renewalKey).reverse).eq_of_length
        (by rw [hLength]; simp)
      have hNodup : ((l.filter isRenewal).map renewalKey).Nodup := by
        rw [← List.nodup_reverse, ← hSelf]
        exact List.nodup_dedup _
      symm
      rw [List.filter_eq_self]
      intro f hf
      rw [decide_eq_true_eq]
      intro hRenewal r hr hrRenewal hKey
      rw [List.inj_on_of_nodup_map hNodup (List.mem_filter.mpr ⟨hr, hrRenewal⟩)
        (List.mem_filter.mpr ⟨hf, hRenewal⟩) hKey]
  · apply List.filter_congr
    intro f hf
    cases hRenewal : isRenewal f with
    | false => simp [Newest, hRenewal]
    | true =>
        rw [lookup_newestOf]
        have hSorted : (l.filter fun r => isRenewal r && renewalKey r = renewalKey f).Pairwise
            fun x y => orderKey host x < orderKey host y := by
          refine (hPairwise.filter _).imp_of_mem ?_
          intro x y _ hy hxy
          exact hxy (by simpa using (List.mem_filter.mp hy).2 |> fun h => (Bool.and_eq_true _ _ ▸ h).1)
        have hfMem : f ∈ l.filter fun r => isRenewal r && renewalKey r = renewalKey f :=
          List.mem_filter.mpr ⟨hf, by simp [hRenewal]⟩
        have hIff := getLast?_eq_some_iff_le hSorted hfMem
        have hLast : ((l.filter fun r => isRenewal r && renewalKey r = renewalKey f).getLast?).map
            Fact.id = some f.id ↔
            (l.filter fun r => isRenewal r && renewalKey r = renewalKey f).getLast? = some f := by
          constructor
          · intro h
            obtain ⟨g, hg, hId⟩ := Option.map_eq_some_iff.mp h
            have hgMem := (List.mem_filter.mp (List.mem_of_getLast? hg)).1
            rw [hg, eq_of_id hIds hgMem hf hId]
          · intro h
            rw [h]
            rfl
        simp only [Bool.not_true, Bool.false_or, decide_eq_decide, hLast, hIff, Newest, hRenewal,
          true_implies, List.mem_filter, Bool.and_eq_true, decide_eq_true_eq, and_imp]

end Brnrd.Ledger
