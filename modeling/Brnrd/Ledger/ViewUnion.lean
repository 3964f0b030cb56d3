import Brnrd.Facts.Succeeds
import Brnrd.Ledger.ViewIndex

/-! The incremental view agrees with the plain union of everything fed to it,
up to superseded renewals. -/
namespace Brnrd.Ledger

open Python Facts LinearExtension

/-- No union of some of the facts, in any order, raises. -/
def Harmless (host : Host) (facts : List Fact) : Prop :=
  ∀ l : List Fact, l ⊆ facts → ∃ r, union host [l] = .ok r

variable {l fed batch delta facts : List Fact} {host : Host}

theorem Harmless.mono {facts' : List Fact} (h : Harmless host facts) (hSub : facts' ⊆ facts) : Harmless host facts' :=
  fun l hl => h l (List.Subset.trans hl hSub)

theorem Harmless.not_clash (h : Harmless host facts) {f g : Fact} (hf : f ∈ facts) (hg : g ∈ facts) : ¬ Clash f g := by
  intro hClash
  obtain ⟨r, hr⟩ := h [f, g] (by simp [hf, hg])
  obtain ⟨displaced, hUnion⟩ := union_eq_ok.mp hr
  obtain ⟨m, hMerge, -⟩ := Fallible.peel hUnion
  exact hClash.not_peaceful [] ((merge_ok_iff []).mp ⟨m, by simpa using hMerge⟩)

theorem Harmless.keyed (h : Harmless host facts) {f : Fact} (hf : f ∈ facts) : order host f = .ok (orderKey host f) := by
  obtain ⟨r, hr⟩ := h [f] (by simpa using hf)
  have hLedger := union_ledger hr
  obtain ⟨g, hg, -⟩ := hLedger.covers f (by simp)
  have hgf : g = f := by simpa using ((hLedger.mem g).mp hg).1
  exact hgf ▸ hLedger.keyed g hg

theorem Harmless.unionWith_ok (h : Harmless host facts) {streams : List (List Fact)} (hSub : streams.flatten ⊆ facts)
    (duplicates : List Fact) :
    ∃ out, unionWith host streams duplicates = .ok out ∧ Ledger host streams.flatten out.1 := by
  obtain ⟨r, hr⟩ := h streams.flatten hSub
  obtain ⟨displaced, hUnion⟩ := union_eq_ok.mp hr
  have hOut : unionWith host streams duplicates = .ok (r, duplicates ++ displaced) := by
    obtain ⟨m, hMerge, hRest⟩ := Fallible.peel hUnion
    have hMerge' : merge streams.flatten [] = .ok m := by simpa using hMerge
    refine Fallible.bind_eq_ok.mpr ⟨{ m with duplicates := duplicates ++ m.duplicates }, ?_, ?_⟩
    · rw [merge_duplicates, hMerge']
      rfl
    · obtain ⟨s, hStart, hRest⟩ := Fallible.peel hRest
      obtain ⟨l, hDrain, hRest⟩ := Fallible.peel hRest
      refine Fallible.bind_eq_ok.mpr ⟨s, hStart, Fallible.bind_eq_ok.mpr ⟨l, hDrain, ?_⟩⟩
      split at hRest
      · cases hRest
      next hLength =>
        obtain ⟨rfl, rfl⟩ := Fallible.pair hRest
        exact if_neg hLength
  exact ⟨_, hOut, unionWith_ledger hOut⟩

/-- `f` is a renewal, and `l` has a higher one of its (install, gen). -/
def Superseded (host : Host) (l : List Fact) (f : Fact) : Prop :=
  isRenewal f ∧ ∃ r ∈ l, isRenewal r ∧ renewalKey r = renewalKey f ∧ orderKey host f < orderKey host r

theorem not_newest_iff {f : Fact} : ¬ Newest host l f ↔ Superseded host l f := by
  simp only [Newest, Superseded]
  push Not
  rfl

/-- The view carries the union of `fed`: the kept copies, less superseded
renewals, in priority order. -/
structure LedgerView.Carries (host : Host) (fed : List Fact) (v : LedgerView) : Prop where
  indexed : v.Indexed host
  kept : ∀ f ∈ v.facts, Kept fed f
  rest : ∀ f, Kept fed f → f ∈ v.facts ∨ Superseded host v.facts f
  ordered : PriorityOrder Before (orderKey host) v.facts

theorem LedgerView.Carries.empty (host : Host) : LedgerView.empty.Carries host [] where
  indexed := LedgerView.Indexed.empty host
  kept := by simp [LedgerView.empty]
  rest := fun f hf => absurd hf.1 List.not_mem_nil
  ordered := trivial

/-- What `incoming` has gathered of the batch read so far. -/
structure Incoming.Holds (v : LedgerView) (batch : List Fact) (s : Incoming) : Prop where
  added : s.added ⊆ batch
  covered : ∀ f ∈ batch, f ∈ s.added ∨ ∃ old ∈ v.facts, old.id = f.id ∧ (old = f ∨ Below old f)
  fresh : s.displaced = false → ∀ f ∈ s.added, ∀ old ∈ v.facts, old.id ≠ f.id
  displaced : s.displaced = true → v.facts ≠ []

variable {v w : LedgerView}

theorem Incoming.Holds.snoc (hIndexed : v.Indexed host) {s : Incoming} {f : Fact} (h : s.Holds v batch)
    (hClash : ∀ old ∈ v.facts, ¬ Clash old f) :
    ∃ s', v.admitFact s f = .ok s' ∧ s'.Holds v (batch ++ [f]) := by
  have hGrow : ∀ displaced duplicates, (displaced = false → ∀ old ∈ v.facts, old.id ≠ f.id) →
      (displaced = false → s.displaced = false) → (displaced = true → v.facts ≠ []) →
      Incoming.Holds v (batch ++ [f]) ⟨s.added ++ [f], displaced, duplicates⟩ := by
    intro displaced duplicates hFresh hPrior hDisplaced
    refine ⟨?_, fun g hg => ?_, fun hd g hg => ?_, hDisplaced⟩
    · exact List.append_subset.mpr ⟨fun g hg => List.mem_append_left _ (h.added hg), by simp⟩
    · rcases List.mem_append.mp hg with hg | hg
      · exact (h.covered g hg).imp (fun hg => List.mem_append_left _ hg) id
      · exact .inl (List.mem_append_right _ hg)
    · rcases List.mem_append.mp hg with hg | hg
      · exact h.fresh (hPrior hd) g hg
      · exact List.mem_singleton.mp hg ▸ hFresh hd
  have hSkip : ∀ duplicates, (∃ old ∈ v.facts, old.id = f.id ∧ (old = f ∨ Below old f)) →
      Incoming.Holds v (batch ++ [f]) { s with duplicates := duplicates } := by
    intro duplicates hOld
    refine ⟨fun g hg => List.mem_append_left _ (h.added hg), fun g hg => ?_, h.fresh, h.displaced⟩
    rcases List.mem_append.mp hg with hg | hg
    · exact h.covered g hg
    · exact .inr (List.mem_singleton.mp hg ▸ hOld)
  unfold LedgerView.admitFact
  cases hLookup : v.byId.lookup f.id with
  | none =>
      exact ⟨_, rfl, hGrow s.displaced s.duplicates (fun _ => hIndexed.lookup_none.mp hLookup) id
        h.displaced⟩
  | some old =>
      obtain ⟨hOld, hId⟩ := (hIndexed.byId f.id old).mp hLookup
      by_cases hEq : old = f
      · simp only [hEq, if_true]
        exact ⟨s, rfl, hSkip s.duplicates ⟨old, hOld, hId, .inl hEq⟩⟩
      · simp only [hEq, if_false]
        obtain ⟨hBad, -⟩ | ⟨-, k, hk, hWhich, hBelowOld, hBelowNew⟩ := keep_cases hId
        · exact absurd hBad (hClash old hOld)
        · rw [hk]
          by_cases hKept : k = old
          · refine ⟨{ s with duplicates := s.duplicates ++ [f] }, by simp [liftUnion, bind,
              Except.bind, hKept], hSkip _ ⟨old, hOld, hId, .inr ?_⟩⟩
            exact hKept ▸ hBelowNew.resolve_left (fun hfk => hEq (hfk.trans hKept).symm)
          · refine ⟨{ s with added := s.added ++ [f], displaced := true }, by simp [liftUnion, bind,
              Except.bind, hKept], hGrow true s.duplicates (by simp) (by simp) (fun _ => ?_)⟩
            exact List.ne_nil_of_mem hOld

theorem Incoming.holds (hIndexed : v.Indexed host) (hClash : ∀ f ∈ batch, ∀ old ∈ v.facts, ¬ Clash old f) :
    ∃ s, batch.foldlM v.admitFact ⟨[], false, v.duplicates⟩ = .ok s ∧ s.Holds v batch := by
  induction batch using List.reverseRecOn with
  | nil => exact ⟨_, rfl, by simp, by simp, by simp, by simp⟩
  | append_singleton batch f ih =>
      obtain ⟨s, hs, hHolds⟩ := ih (fun g hg => hClash g (List.mem_append_left _ hg))
      obtain ⟨s', hs', hHolds'⟩ := hHolds.snoc hIndexed (hClash f (by simp))
      exact ⟨s', Fallible.foldlM_snoc.mpr ⟨s, hs, hs'⟩, hHolds'⟩

/-- What reaches the view of a batch decides, with the view, what is kept of
everything fed so far. -/
theorem LedgerView.Carries.kept_delta {s : Incoming} (h : v.Carries host fed) (hHolds : s.Holds v batch)
    (hFed : ∃ l, Ledger host fed l) (hRenewals : PlainRenewals (fed ++ batch)) (hDelta : Ledger host s.added delta)
    (f : Fact) :
    (Kept (v.facts ++ delta) f → Kept (fed ++ batch) f) ∧
    (Kept (fed ++ batch) f → Kept (v.facts ++ delta) f ∨ Superseded host v.facts f) := by
  have hView : ∀ g ∈ v.facts, g ∈ fed := fun g hg => (h.kept g hg).1
  have hAdded : ∀ g ∈ delta, g ∈ s.added := fun g hg => ((hDelta.mem g).mp hg).1
  have hMem : ∀ g ∈ v.facts ++ delta, g ∈ fed ++ batch := by
    intro g hg
    rcases List.mem_append.mp hg with hg | hg
    · exact List.mem_append_left _ (hView g hg)
    · exact List.mem_append_right _ (hHolds.added (hAdded g hg))
  have hLoses : ∀ {x y z : Fact}, (x = y ∨ Below y x) → (y = z ∨ Below z y) → (x = z ∨ Below z x) := by
    rintro x y z (rfl | hxy) hyz
    · exact hyz
    · rcases hyz with rfl | hyz
      · exact .inr hxy
      · exact .inr (hyz.trans hxy)
  constructor
  · rintro ⟨hf, hAll⟩
    refine ⟨hMem f hf, fun g hg hId => ?_⟩
    rcases List.mem_append.mp hg with hgFed | hgBatch
    · obtain ⟨l, hl⟩ := hFed
      obtain ⟨k, hk, hkId⟩ := hl.covers g hgFed
      have hKept := (hl.mem k).mp hk
      rcases h.rest k hKept with hkView | hkSuperseded
      · exact hLoses (hKept.2 g hgFed hkId.symm)
          (hAll k (List.mem_append_left _ hkView) (hkId.trans hId))
      · have hSingle := hRenewals.single k (List.mem_append_left _ hKept.1) hkSuperseded.1
        exact .inl ((hSingle g hg hkId.symm).trans (hSingle f (hMem f hf) (hkId.trans hId).symm).symm)
    · rcases hHolds.covered g hgBatch with hgAdded | ⟨old, hOld, hOldId, hOldBelow⟩
      · obtain ⟨d, hd, hdId⟩ := hDelta.covers g hgAdded
        exact hLoses (((hDelta.mem d).mp hd).2 g hgAdded hdId.symm)
          (hAll d (List.mem_append_right _ hd) (hdId.trans hId))
      · exact hLoses (hOldBelow.imp Eq.symm id)
          (hAll old (List.mem_append_left _ hOld) (hOldId.trans hId))
  · rintro ⟨hf, hAll⟩
    have hLift : f ∈ v.facts ++ delta → Kept (v.facts ++ delta) f :=
      fun hfMem => ⟨hfMem, fun g hg hId => hAll g (hMem g hg) hId⟩
    rcases List.mem_append.mp hf with hfFed | hfBatch
    · have hKept : Kept fed f := ⟨hfFed, fun g hg hId => hAll g (List.mem_append_left _ hg) hId⟩
      exact (h.rest f hKept).imp (fun hfView => hLift (List.mem_append_left _ hfView)) id
    · rcases hHolds.covered f hfBatch with hfAdded | ⟨old, hOld, hOldId, rfl | hBelow⟩
      · refine Or.inl (hLift (List.mem_append_right _ ((hDelta.mem f).mpr ⟨hfAdded, ?_⟩)))
        exact fun g hg hId => hAll g (List.mem_append_right _ (hHolds.added hg)) hId
      · exact .inl (hLift (List.mem_append_left _ hOld))
      · rcases hAll old (List.mem_append_left _ (hView old hOld)) hOldId with rfl | hBelow'
        · exact absurd hBelow hBelow.asymm
        · exact absurd hBelow' hBelow.asymm

theorem exists_newest (host : Host) {r : Fact} (hr : r ∈ l) (hRenewal : isRenewal r) :
    ∃ r' ∈ l, isRenewal r' ∧ renewalKey r' = renewalKey r ∧ orderKey host r ≤ orderKey host r' ∧
      Newest host l r' := by
  obtain ⟨r', hr', hGreatest⟩ := Finset.exists_max_image
    (l.toFinset.filter fun g => isRenewal g ∧ renewalKey g = renewalKey r) (orderKey host)
    ⟨r, by simp [hr, hRenewal]⟩
  simp only [Finset.mem_filter, List.mem_toFinset] at hr' hGreatest
  refine ⟨r', hr'.1, hr'.2.1, hr'.2.2, hGreatest r ⟨hr, hRenewal, rfl⟩, fun _ g hg hgRenewal hKey => ?_⟩
  exact hGreatest g ⟨hg, hgRenewal, hKey.trans hr'.2.2⟩

/-- A view that lists the ledger of the old view and the batch, less some
superseded renewals, carries everything fed so far. -/
theorem LedgerView.Carries.step {s : Incoming} (h : v.Carries host fed) (hHolds : s.Holds v batch)
    (hFed : ∃ l, Ledger host fed l) (hRenewals : PlainRenewals (fed ++ batch)) (hDelta : Ledger host s.added delta)
    (hl : Ledger host (v.facts ++ delta) l) (hIndexed : w.Indexed host) (p : Fact → Bool) (hFacts : w.facts = l.filter p)
    (hp : ∀ f ∈ l, Newest host l f → p f = true) : w.Carries host (fed ++ batch) := by
  have hKept := h.kept_delta hHolds hFed hRenewals hDelta
  have hSub : l ⊆ fed ++ batch := fun f hf => ((hKept f).1 ((hl.mem f).mp hf)).1
  have hCut : ∀ r ∈ l, isRenewal r → ∃ r' ∈ w.facts, isRenewal r' ∧ renewalKey r' = renewalKey r ∧
      orderKey host r ≤ orderKey host r' := by
    intro r hr hRenewal
    obtain ⟨r', hr', hRenewal', hKey, hLe, hNewest⟩ := exists_newest host hr hRenewal
    exact ⟨r', hFacts ▸ List.mem_filter.mpr ⟨hr', hp r' hr' hNewest⟩, hRenewal', hKey, hLe⟩
  refine ⟨hIndexed, fun f hf => ?_, fun f hf => ?_, ?_⟩
  · rw [hFacts] at hf
    exact (hKept f).1 ((hl.mem f).mp (List.mem_filter.mp hf).1)
  · rcases (hKept f).2 hf with hfDelta | ⟨hRenewal, r, hr, hrRenewal, hKey, hlt⟩
    · have hfl := (hl.mem f).mpr hfDelta
      by_cases hpf : p f = true
      · exact .inl (hFacts ▸ List.mem_filter.mpr ⟨hfl, hpf⟩)
      · obtain ⟨hRenewal, r, hr, hrRenewal, hKey, hlt⟩ :=
          not_newest_iff.mp (fun hNewest => hpf (hp f hfl hNewest))
        obtain ⟨r', hr', hRenewal', hKey', hLe⟩ := hCut r hr hrRenewal
        exact .inr ⟨hRenewal, r', hr', hRenewal', hKey'.trans hKey, lt_of_lt_of_le hlt hLe⟩
    · have hrl : r ∈ l := by
        refine (hl.mem r).mpr ⟨List.mem_append_left _ hr, fun g hg hId => Or.inl ?_⟩
        have hgMem : g ∈ fed ++ batch := by
          rcases List.mem_append.mp hg with hg | hg
          · exact List.mem_append_left _ (h.kept g hg).1
          · exact List.mem_append_right _ (hHolds.added ((hDelta.mem g).mp hg).1)
        exact hRenewals.single r (List.mem_append_left _ (h.kept r hr).1) hrRenewal g hgMem hId
      obtain ⟨r', hr', hRenewal', hKey', hLe⟩ := hCut r hrl hrRenewal
      exact .inr ⟨hRenewal, r', hr', hRenewal', hKey'.trans hKey, lt_of_lt_of_le hlt hLe⟩
  · rw [hFacts]
    refine hl.ordered.filter p (fun x hx hpx y hy => ?_)
    have hNot : ¬ Newest host l x := fun hNewest => by simp [hp x hx hNewest] at hpx
    obtain ⟨hRenewal, -⟩ := not_newest_iff.mp hNot
    exact hRenewals.unnamed x (hSub hx) hRenewal y (hSub hy)

theorem LedgerView.Indexed.of_fields (h : v.Indexed host) (hFacts : w.facts = v.facts) (hById : w.byId = v.byId)
    (hPositions : w.positions = v.positions) (hByKind : w.byKind = v.byKind) (hLatest : w.latest = v.latest)
    (hMissing : w.missing = v.missing) (hMaximum : w.maximum = v.maximum) : w.Indexed host := by
  obtain ⟨ids, byId, positions, byKind, latest, missing, maximum⟩ := h
  refine ⟨?_, ?_, ?_, ?_, ?_, ?_, ?_⟩
  · rwa [hFacts]
  · rwa [hFacts, hById]
  · rwa [hFacts, hPositions]
  · rwa [hFacts, hByKind]
  · rwa [hFacts, hLatest]
  · rwa [hFacts, hMissing]
  · rwa [hFacts, hMaximum]

/-- Facts with new ids go to the tail one by one. -/
theorem LedgerView.Indexed.adds (h : v.Indexed host) (hIds : ((v.facts ++ delta).map Fact.id).Nodup)
    (hDelta : ∀ f ∈ delta, Indexable host f ∧ order host f = .ok (orderKey host f)) :
    ∃ w, delta.foldlM (LedgerView.add host) v = .ok w ∧ w.Indexed host ∧
      w.facts = v.facts ++ delta := by
  induction delta generalizing v with
  | nil => exact ⟨v, rfl, h, by simp⟩
  | cons f delta ih =>
      obtain ⟨hIndexable, hKey⟩ := hDelta f List.mem_cons_self
      obtain ⟨m, hm⟩ := v.add_ok hIndexable ⟨_, hKey⟩
      have hAdded := LedgerView.add_eq_ok hm
      have hNew : ∀ g ∈ v.facts, g.id ≠ f.id := by
        intro g hg hId
        rw [List.map_append, List.nodup_append] at hIds
        exact hIds.2.2 g.id (List.mem_map_of_mem hg) f.id (by simp) hId
      obtain ⟨w, hw, hIndexed, hFacts⟩ := ih (h.add hNew hAdded)
        (by rw [hAdded.facts]; simpa using hIds) (fun g hg => hDelta g (List.mem_cons_of_mem _ hg))
      refine ⟨w, ?_, hIndexed, by rw [hFacts, hAdded.facts]; simp⟩
      rw [List.foldlM_cons]
      exact Fallible.bind_eq_ok.mpr ⟨m, hm, hw⟩

theorem cutRenewals_sublist (l : List Fact) : (cutRenewals l).Sublist l := by
  unfold cutRenewals
  split
  · exact List.Sublist.refl l
  · exact List.filter_sublist

theorem newestRenewals_ok (h : ∀ f ∈ l, Indexable host f) : newestRenewals l = .ok (cutRenewals l) := by
  unfold newestRenewals
  rw [List.find?_eq_none.mpr]
  intro f hf
  cases hRenewal : isRenewal f with
  | false => simp
  | true =>
      have hHashed := (h f hf).1
      simp only [hRenewal, if_true] at hHashed
      simp [renewalKey, hHashed "install" (by simp), hHashed "gen" (by simp)]

/-- A batch that goes to the tail. -/
theorem LedgerView.Indexed.grow (h : v.Indexed host) (hIds : ((v.facts ++ delta).map Fact.id).Nodup)
    (hDelta : ∀ f ∈ delta, Indexable host f ∧ order host f = .ok (orderKey host f)) :
    ∃ w, v.grow host delta = .ok w ∧ w.Indexed host ∧
      w.facts = if v.facts = [] then cutRenewals delta else v.facts ++ delta := by
  unfold LedgerView.grow
  by_cases hNil : delta = []
  · subst hNil
    refine ⟨{ v with delta := [] }, if_pos rfl, h.of_fields rfl rfl rfl rfl rfl rfl rfl, ?_⟩
    by_cases hEmpty : v.facts = []
    · simp [hEmpty, List.sublist_nil.mp (cutRenewals_sublist [])]
    · simp [hEmpty]
  · rw [if_neg hNil]
    by_cases hEmpty : v.facts = []
    · have hCut : firstCut v delta = .ok (cutRenewals delta) := by
        rw [firstCut, if_pos hEmpty, newestRenewals_ok (fun f hf => (hDelta f hf).1)]
      have hSub := cutRenewals_sublist delta
      rw [hEmpty, List.nil_append] at hIds
      obtain ⟨w, hw, hIndexed, hFacts⟩ := h.adds
        (by rw [hEmpty, List.nil_append]; exact (hSub.map Fact.id).nodup hIds)
        (fun f hf => hDelta f (hSub.subset hf))
      refine ⟨{ w with revision := w.revision + 1, delta := cutRenewals delta, reset := false }, ?_,
        hIndexed.of_fields rfl rfl rfl rfl rfl rfl rfl, ?_⟩
      · exact Fallible.bind_eq_ok.mpr ⟨_, hCut, Fallible.bind_eq_ok.mpr ⟨w, hw, rfl⟩⟩
      · simpa [hEmpty] using hFacts
    · have hCut : firstCut v delta = .ok delta := by rw [firstCut, if_neg hEmpty]
      obtain ⟨w, hw, hIndexed, hFacts⟩ := h.adds hIds hDelta
      refine ⟨{ w with revision := w.revision + 1, delta := delta, reset := false }, ?_,
        hIndexed.of_fields rfl rfl rfl rfl rfl rfl rfl, ?_⟩
      · exact Fallible.bind_eq_ok.mpr ⟨_, hCut, Fallible.bind_eq_ok.mpr ⟨w, hw, rfl⟩⟩
      · simpa [hEmpty] using hFacts

theorem notAbove_eq (maximum : Option Key) (hKeys : ∀ f ∈ delta, order host f = .ok (orderKey host f)) :
    notAbove host maximum delta = .ok (match maximum with
      | none => false
      | some top => delta.any fun f => orderKey host f ≤ top) := by
  have hMap : delta.mapM (order host) = .ok (delta.map (orderKey host)) := by
    induction delta with
    | nil => rfl
    | cons f delta ih =>
        rw [List.mapM_cons, hKeys f List.mem_cons_self,
          ih (fun g hg => hKeys g (List.mem_cons_of_mem _ hg))]
        rfl
  unfold notAbove
  cases maximum with
  | none => rfl
  | some top =>
      simp only [hMap]
      exact congrArg Except.ok (List.any_map ..)

/-- What `incoming` returns: the ledger of the new facts, and `false` only if
each of them belongs behind the whole view. -/
structure LedgerView.Arrives (host : Host) (v : LedgerView) (batch : List Fact) (s : Incoming)
    (v' : LedgerView) (delta : List Fact) (repair : Bool) : Prop where
  holds : s.Holds v batch
  ledger : Ledger host s.added delta
  facts : v'.facts = v.facts
  indexed : v'.Indexed host
  tail : repair = false → ∀ f ∈ delta, f.id ∉ v.missing ∧
    ∀ g ∈ v.facts, g.id ≠ f.id ∧ orderKey host g < orderKey host f
  empty : v.facts = [] → repair = false
  nonempty : repair = true → delta ≠ []

theorem LedgerView.Indexed.incoming (h : v.Indexed host) (hHarmless : Harmless host (v.facts ++ batch)) :
    ∃ s v' delta repair, v.incoming host batch = .ok (v', delta, repair) ∧
      LedgerView.Arrives host v batch s v' delta repair := by
  obtain ⟨s, hs, hHolds⟩ := Incoming.holds h (fun f hf old hOld =>
    hHarmless.not_clash (List.mem_append_left _ hOld) (List.mem_append_right _ hf))
  have hIndexed : ∀ duplicates, LedgerView.Indexed host { v with duplicates := duplicates } :=
    fun _ => h.of_fields rfl rfl rfl rfl rfl rfl rfl
  by_cases hNone : s.added = []
  · refine ⟨s, { v with duplicates := s.duplicates }, [], false, ?_, hHolds, ?_, rfl,
      hIndexed s.duplicates, by simp, fun _ => rfl, by simp⟩
    · exact Fallible.bind_eq_ok.mpr ⟨s, hs, if_pos hNone⟩
    · rw [hNone]
      exact Ledger.self (by simp) trivial (by simp)
  · have hSub : [s.added].flatten ⊆ v.facts ++ batch := by
      intro f hf
      exact List.mem_append_right _ (hHolds.added (by simpa using hf))
    obtain ⟨⟨delta, duplicates⟩, hUnion, hLedger⟩ := hHarmless.unionWith_ok hSub s.duplicates
    rw [show [s.added].flatten = s.added by simp] at hLedger
    obtain ⟨late, hLate, hSpec⟩ : ∃ late, notAbove host v.maximum delta = .ok late ∧
        late = match v.maximum with
          | none => false
          | some top => delta.any fun f => orderKey host f ≤ top :=
      ⟨_, notAbove_eq v.maximum hLedger.keyed, rfl⟩
    refine ⟨s, { v with duplicates := duplicates }, delta,
      s.displaced || delta.any (fun f => f.id ∈ v.missing) || late, ?_, hHolds, hLedger, rfl,
      hIndexed duplicates, fun hTail f hf => ?_, fun hEmpty => ?_, fun _ hNil => ?_⟩
    · refine Fallible.bind_eq_ok.mpr ⟨s, hs, (if_neg hNone).trans ?_⟩
      exact Fallible.bind_eq_ok.mpr ⟨_, liftUnion_eq_ok.mpr hUnion,
        Fallible.bind_eq_ok.mpr ⟨_, hLate, rfl⟩⟩
    · simp only [Bool.or_eq_false_iff] at hTail
      obtain ⟨⟨hDisplaced, hMissing⟩, hAbove⟩ := hTail
      have hAdded := ((hLedger.mem f).mp hf).1
      refine ⟨by simpa using List.any_eq_false.mp hMissing f hf, fun g hg => ?_⟩
      refine ⟨hHolds.fresh hDisplaced f hAdded g hg, ?_⟩
      have hTop := h.maximum
      cases hMaximum : v.maximum with
      | none =>
          rw [hMaximum] at hTop
          exact absurd (hTop ▸ hg) List.not_mem_nil
      | some top =>
          rw [hMaximum] at hTop hSpec
          rw [hSpec] at hAbove
          have hlt : top < orderKey host f := by simpa using List.any_eq_false.mp hAbove f hf
          exact lt_of_le_of_lt (hTop.2 g hg) hlt
    · have hDisplaced : s.displaced = false := by
        rw [← Bool.not_eq_true]
        exact fun hDisplaced => hHolds.displaced hDisplaced hEmpty
      have hTop := h.maximum
      cases hMaximum : v.maximum with
      | none =>
          rw [hMaximum] at hSpec
          simp only [hDisplaced, hSpec, Bool.false_or, Bool.or_false, List.any_eq_false,
            decide_eq_true_eq]
          intro f _ hMissing
          obtain ⟨⟨g, hg, -⟩, -⟩ := (h.missing f.id).mp hMissing
          exact absurd (hEmpty ▸ hg) List.not_mem_nil
      | some top =>
          rw [hMaximum] at hTop
          exact absurd hEmpty hTop.1
    · obtain ⟨f, hf⟩ := List.exists_mem_of_ne_nil s.added hNone
      obtain ⟨g, hg, -⟩ := hLedger.covers f hf
      exact List.not_mem_nil (hNil ▸ hg)

/-- `LedgerView(ordered)` on a list that is already in order. -/
theorem load_ok {ordered : List Fact} (h : Ledger host facts ordered) (hHarmless : Harmless host ordered)
    (hIndexable : ∀ f ∈ ordered, Indexable host f) :
    ∃ w, LedgerView.load host ordered = .ok w ∧ w.Indexed host ∧ w.facts = cutRenewals ordered := by
  have hEmpty : Harmless host (LedgerView.empty.facts ++ ordered) := by simpa [LedgerView.empty]
  obtain ⟨s, v', delta, repair, hIncoming, hArrives⟩ :=
    (LedgerView.Indexed.empty host).incoming hEmpty
  have hSame : ∀ f, f ∈ s.added ↔ f ∈ ordered := by
    intro f
    refine ⟨fun hf => hArrives.holds.added hf, fun hf => ?_⟩
    exact (hArrives.holds.covered f hf).resolve_right (by simp [LedgerView.empty])
  have hDelta : delta = ordered :=
    hArrives.ledger.unique (Ledger.self h.ids h.ordered h.keyed) hSame
  subst hDelta
  have hFacts : v'.facts = [] := hArrives.facts
  obtain ⟨w, hw, hIndexed, hCut⟩ := hArrives.indexed.grow (by simpa [hFacts] using h.ids)
    (fun f hf => ⟨hIndexable f hf, h.keyed f hf⟩)
  exact ⟨w, Fallible.bind_eq_ok.mpr ⟨_, hIncoming, hw⟩, hIndexed, by rw [hCut, if_pos hFacts]⟩

theorem LedgerView.Carries.of_fields (h : v.Carries host fed) (hFacts : w.facts = v.facts) (hIndexed : w.Indexed host) :
    w.Carries host fed where
  indexed := hIndexed
  kept := fun f hf => h.kept f (hFacts ▸ hf)
  rest := fun f hf => by
    rw [hFacts]
    exact h.rest f hf
  ordered := hFacts ▸ h.ordered

theorem LedgerView.Carries.congr {fed' : List Fact} (h : v.Carries host fed) (hSame : ∀ f, f ∈ fed ↔ f ∈ fed') :
    v.Carries host fed' where
  indexed := h.indexed
  kept := fun f hf => (Kept.congr hSame f).mp (h.kept f hf)
  rest := fun f hf => h.rest f ((Kept.congr hSame f).mpr hf)
  ordered := h.ordered

theorem LedgerView.apply_false (host : Host) (v : LedgerView) (delta : List Fact) :
    v.apply host delta false = v.grow host delta := by
  by_cases hNil : delta = []
  · simp [LedgerView.apply, LedgerView.grow, hNil]
  · simp [LedgerView.apply, hNil]

section Batch

variable {host : Host} {fed batch delta : List Fact} {v v' : LedgerView} {s : Incoming} {repair : Bool}

theorem LedgerView.Arrives.subset (h : v.Carries host fed)
    (hArrives : LedgerView.Arrives host v batch s v' delta repair) : v.facts ++ delta ⊆ fed ++ batch := by
  refine List.append_subset.mpr ⟨fun f hf => List.mem_append_left _ (h.kept f hf).1, fun f hf => ?_⟩
  exact List.mem_append_right _ (hArrives.holds.added ((hArrives.ledger.mem f).mp hf).1)

theorem Harmless.fed_ledger (hHarmless : Harmless host (fed ++ batch)) : ∃ l, Ledger host fed l := by
  obtain ⟨l, hl⟩ := hHarmless fed (List.subset_append_left fed batch)
  exact ⟨l, by simpa using union_ledger hl⟩

/-- A batch that reorders the view: the union of both is replayed. -/
theorem LedgerView.Carries.replayed (h : v.Carries host fed)
    (hArrives : LedgerView.Arrives host v batch s v' delta repair)
    (hHarmless : Harmless host (fed ++ batch)) (hIndexable : ∀ f ∈ fed ++ batch, Indexable host f)
    (hRenewals : PlainRenewals (fed ++ batch)) :
    ∃ ordered duplicates w, unionWith host [v'.facts, delta] v'.duplicates = .ok (ordered, duplicates) ∧
      LedgerView.load host ordered = .ok w ∧ w.Carries host (fed ++ batch) := by
  have hBoth := hArrives.subset h
  have hStreams : [v'.facts, delta].flatten = v.facts ++ delta := by simp [hArrives.facts]
  obtain ⟨⟨ordered, duplicates⟩, hUnion, hOrdered⟩ :=
    hHarmless.unionWith_ok (by rw [hStreams]; exact hBoth) v'.duplicates
  rw [hStreams] at hOrdered
  have hSub : ordered ⊆ fed ++ batch := fun f hf => hBoth ((hOrdered.mem f).mp hf).1
  obtain ⟨w, hw, hwIndexed, hwFacts⟩ := load_ok hOrdered (hHarmless.mono hSub)
    (fun f hf => hIndexable f (hSub hf))
  refine ⟨ordered, duplicates, w, hUnion, hw, ?_⟩
  refine h.step hArrives.holds hHarmless.fed_ledger hRenewals hArrives.ledger hOrdered hwIndexed
    (fun f => decide (Newest host ordered f)) ?_ (fun f _ hf => decide_eq_true hf)
  rw [hwFacts, cutRenewals_eq_filter hOrdered.ids hOrdered.ordered
    (fun r hr => hRenewals.after r (hSub hr))]

/-- A batch that belongs behind the whole view goes to its tail. -/
theorem LedgerView.Carries.appended (h : v.Carries host fed)
    (hArrives : LedgerView.Arrives host v batch s v' delta false)
    (hHarmless : Harmless host (fed ++ batch)) (hIndexable : ∀ f ∈ fed ++ batch, Indexable host f)
    (hRenewals : PlainRenewals (fed ++ batch)) :
    ∃ w, v'.grow host delta = .ok w ∧ w.Carries host (fed ++ batch) := by
  have hBoth := hArrives.subset h
  have hBehind := hArrives.tail rfl
  have hIds : ((v.facts ++ delta).map Fact.id).Nodup := by
    rw [List.map_append, List.nodup_append]
    refine ⟨h.indexed.ids, hArrives.ledger.ids, ?_⟩
    rintro a ha b hb rfl
    obtain ⟨g, hg, rfl⟩ := List.mem_map.mp ha
    obtain ⟨f, hf, hfg⟩ := List.mem_map.mp hb
    exact ((hBehind f hf).2 g hg).1 hfg.symm
  have hOrder : PriorityOrder Before (orderKey host) (v.facts ++ delta) := by
    refine h.ordered.append hArrives.ledger.ordered
      (fun x hx y hy => ((hBehind y hy).2 x hx).2) ?_
    intro x hx y hy hyx
    -- A view that names an absent id has it among the missing ones.
    exact (hBehind y hy).1 ((h.indexed.missing y.id).mpr
      ⟨⟨x, hx, hyx⟩, fun g hg => ((hBehind y hy).2 g hg).1⟩)
  have hLedger := Ledger.self hIds hOrder (fun f hf => hHarmless.keyed (hBoth hf))
  have hDelta : ∀ f ∈ delta, f ∈ fed ++ batch := fun f hf => hBoth (List.mem_append_right _ hf)
  obtain ⟨w, hw, hwIndexed, hwFacts⟩ := hArrives.indexed.grow (by rwa [hArrives.facts])
    (fun f hf => ⟨hIndexable f (hDelta f hf), hHarmless.keyed (hDelta f hf)⟩)
  refine ⟨w, hw, ?_⟩
  rw [hArrives.facts] at hwFacts
  by_cases hNone : v.facts = []
  · rw [if_pos hNone] at hwFacts
    rw [hNone, List.nil_append] at hOrder
    refine h.step hArrives.holds hHarmless.fed_ledger hRenewals hArrives.ledger hLedger hwIndexed
      (fun f => decide (Newest host (v.facts ++ delta) f)) ?_ (fun f _ hf => decide_eq_true hf)
    rw [hwFacts, cutRenewals_eq_filter hArrives.ledger.ids hOrder
      (fun r hr => hRenewals.after r (hDelta r hr)), hNone, List.nil_append]
  · rw [if_neg hNone] at hwFacts
    exact h.step hArrives.holds hHarmless.fed_ledger hRenewals hArrives.ledger hLedger hwIndexed
      (fun _ => true) (by simpa using hwFacts) (fun _ _ _ => rfl)

/-- One batch. -/
theorem LedgerView.Carries.extend (h : v.Carries host fed) (hHarmless : Harmless host (fed ++ batch))
    (hIndexable : ∀ f ∈ fed ++ batch, Indexable host f) (hRenewals : PlainRenewals (fed ++ batch)) :
    ∃ w, v.extend host batch = .ok w ∧ w.Carries host (fed ++ batch) := by
  have hHeld : v.facts ++ batch ⊆ fed ++ batch :=
    List.append_subset.mpr ⟨fun f hf => List.mem_append_left _ (h.kept f hf).1, by simp⟩
  obtain ⟨s, v', delta, repair, hIncoming, hArrives⟩ := h.indexed.incoming (hHarmless.mono hHeld)
  have hApply : ∀ {w}, v'.apply host delta repair = .ok w → v.extend host batch = .ok w :=
    fun hw => Fallible.bind_eq_ok.mpr ⟨_, hIncoming, hw⟩
  cases repair with
  | false =>
      obtain ⟨w, hw, hCarries⟩ := h.appended hArrives hHarmless hIndexable hRenewals
      exact ⟨w, hApply ((LedgerView.apply_false host v' delta).trans hw), hCarries⟩
  | true =>
      have hNil : delta ≠ [] := hArrives.nonempty rfl
      have hView : v'.facts ≠ [] := fun hNone => by
        have := hArrives.empty (hArrives.facts ▸ hNone)
        simp at this
      obtain ⟨ordered, duplicates, w, hUnion, hw, hCarries⟩ :=
        h.replayed hArrives hHarmless hIndexable hRenewals
      refine ⟨_, hApply ((if_neg hNil).trans ((if_pos rfl).trans
        (Fallible.bind_eq_ok.mpr ⟨delta, if_neg hView, Fallible.bind_eq_ok.mpr
          ⟨_, liftUnion_eq_ok.mpr hUnion, Fallible.bind_eq_ok.mpr ⟨w, hw, rfl⟩⟩⟩))), ?_⟩
      exact hCarries.of_fields rfl (hCarries.indexed.of_fields rfl rfl rfl rfl rfl rfl rfl)

end Batch

theorem extends_carries {batches : List (List Fact)} (hHarmless : Harmless host batches.flatten)
    (hIndexable : ∀ f ∈ batches.flatten, Indexable host f) (hRenewals : PlainRenewals batches.flatten) :
    ∃ v, batches.foldlM (fun v batch => v.extend host batch) LedgerView.empty = .ok v ∧
      v.Carries host batches.flatten := by
  induction batches using List.reverseRecOn with
  | nil => exact ⟨_, rfl, LedgerView.Carries.empty host⟩
  | append_singleton batches batch ih =>
      have hFlat : (batches ++ [batch]).flatten = batches.flatten ++ batch := by simp
      rw [hFlat] at hHarmless hIndexable hRenewals ⊢
      have hSub : batches.flatten ⊆ batches.flatten ++ batch := List.subset_append_left _ _
      obtain ⟨v, hv, hCarries⟩ := ih (hHarmless.mono hSub) (fun f hf => hIndexable f (hSub hf))
        (hRenewals.mono hSub)
      obtain ⟨w, hw, hCarries'⟩ := hCarries.extend hHarmless hIndexable hRenewals
      exact ⟨w, Fallible.foldlM_snoc.mpr ⟨v, hv, hw⟩, hCarries'⟩

/-- What a view that carries `fed` says about the ledger of `fed`. -/
theorem LedgerView.Carries.agrees (h : v.Carries host fed) (hl : Ledger host fed l) (hRenewals : PlainRenewals fed) :
    v.facts = l.filter (· ∈ v.facts) ∧ cutRenewals v.facts = cutRenewals l := by
  have hSub : v.facts ⊆ l := fun f hf => (hl.mem f).mpr (h.kept f hf)
  have hlFed : l ⊆ fed := fun f hf => ((hl.mem f).mp hf).1
  have hAfter : ∀ r ∈ l, isRenewal r → r.after = [] := fun r hr => hRenewals.after r (hlFed hr)
  have hFilter : PriorityOrder Before (orderKey host) (l.filter (· ∈ v.facts)) := by
    refine hl.ordered.filter _ (fun x hx hxv y hy => ?_)
    obtain ⟨hRenewal, -⟩ := (h.rest x ((hl.mem x).mp hx)).resolve_left (by simpa using hxv)
    exact hRenewals.unnamed x (hlFed hx) hRenewal y (hlFed hy)
  have hFacts : v.facts = l.filter (· ∈ v.facts) := by
    refine h.ordered.unique hFilter ?_
    rw [List.perm_ext_iff_of_nodup h.indexed.ids.of_map (hl.ids.of_map.filter _)]
    intro f
    simpa using fun hf => hSub hf
  refine ⟨hFacts, ?_⟩
  rw [cutRenewals_eq_filter h.indexed.ids h.ordered (fun r hr => hAfter r (hSub hr)),
    cutRenewals_eq_filter hl.ids hl.ordered hAfter]
  conv_lhs => rw [hFacts]
  rw [List.filter_filter]
  apply List.filter_congr
  intro f hf
  simp only [← Bool.decide_and, decide_eq_decide]
  -- A renewal that the ledger's newest keeps out is out of the view's newest as well.
  have hNewest : Newest host (l.filter (· ∈ v.facts)) f ↔ Newest host v.facts f := by rw [← hFacts]
  rw [hNewest]
  constructor
  · rintro ⟨hfNewest, hfView⟩ hRenewal r hr hrRenewal hKey
    rcases h.rest r ((hl.mem r).mp hr) with hrView | ⟨-, r', hr', hRenewal', hKey', hlt⟩
    · exact hfNewest hRenewal r hrView hrRenewal hKey
    · exact hlt.le.trans (hfNewest hRenewal r' hr' hRenewal' (hKey'.trans hKey))
  · intro hfNewest
    refine ⟨fun hRenewal r hr => hfNewest hRenewal r (hSub hr), ?_⟩
    rcases h.rest f ((hl.mem f).mp hf) with hfView | ⟨hRenewal, r, hr, hrRenewal, hKey, hlt⟩
    · exact hfView
    · exact absurd hlt (not_lt.mpr (hfNewest hRenewal r (hSub hr) hrRenewal hKey))

/-- For every sequence of batches of harmless, indexable facts with plain
renewals, the view lists the union of everything fed, less superseded
renewals, and its indexes describe exactly that list. -/
theorem view_agrees_with_union (host : Host) (batches : List (List Fact))
    (hHarmless : Harmless host batches.flatten) (hIndexable : ∀ f ∈ batches.flatten, Indexable host f)
    (hRenewals : PlainRenewals batches.flatten) :
    ∃ v l, batches.foldlM (fun v batch => v.extend host batch) LedgerView.empty = .ok v ∧
      union host batches = .ok l ∧ newestRenewals v.facts = newestRenewals l ∧
      v.facts.Sublist l ∧ (∀ f ∈ l, f ∉ v.facts → Superseded host v.facts f) ∧
      (∀ ident f, v.byId.lookup ident = some f ↔ f ∈ v.facts ∧ f.id = ident) ∧
      (∀ ident i, v.positions.lookup ident = some i ↔
        ∃ f, v.facts[i]? = some f ∧ f.id = ident) ∧
      (∀ kind, (v.byKind.lookup kind).getD [] = v.facts.filter fun f => f.kind = kind) ∧
      (∀ key, v.latest.lookup key = (v.facts.filter fun f => latestKey f = key).getLast?) := by
  obtain ⟨v, hv, hCarries⟩ := extends_carries hHarmless hIndexable hRenewals
  obtain ⟨⟨l, displaced⟩, hUnion, hl⟩ := hHarmless.unionWith_ok (List.Subset.refl _) []
  obtain ⟨hFacts, hCut⟩ := hCarries.agrees hl hRenewals
  have hlFed : ∀ f ∈ l, f ∈ batches.flatten := fun f hf => ((hl.mem f).mp hf).1
  have hIndexed := hCarries.indexed
  refine ⟨v, l, hv, union_eq_ok.mpr ⟨displaced, hUnion⟩, ?_, ?_, ?_, hIndexed.byId,
    hIndexed.positions, hIndexed.byKind, hIndexed.latest⟩
  · rw [newestRenewals_ok (fun f hf => hIndexable f (hCarries.kept f hf).1),
      newestRenewals_ok (fun f hf => hIndexable f (hlFed f hf)), hCut]
  · rw [hFacts]
    exact List.filter_sublist
  · intro f hf hfView
    exact (hCarries.rest f ((hl.mem f).mp hf)).resolve_left hfView

/-- Facts of different ids, with a clock each and edges that climb a rank. -/
theorem harmless_of_distinct (hIds : (facts.map Fact.id).Nodup) (hClock : ∀ f ∈ facts, f.hlc.isSome) (rank : Fact → Nat)
    (hRank : ∀ f ∈ facts, ∀ g ∈ facts, Before g f → rank g < rank f) : Harmless host facts := by
  intro l hl
  have hMem : ∀ f ∈ [l].flatten, f ∈ facts := fun f hf => hl (by simpa using hf)
  refine union_succeeds (fun f hf g hg hClash => ?_) (fun f hf => ?_) rank
    (fun f hf g hg => hRank f (hMem f hf) g (hMem g hg))
  · exact hClash.2.1 (eq_of_id hIds (hMem f hf) (hMem g hg) hClash.1)
  · obtain ⟨stamp, hStamp⟩ := Option.isSome_iff_exists.mp (hClock f (hMem f hf))
    simp [orderKey, order, hStamp]

def timedHost : Host where
  seconds := fun _ => some 0
  millis := fun _ => some 0
  repr := fun _ => ""
  loads := fun _ => none

def renewal (ident : String) (ms : Int) : Fact :=
  ⟨"router.renewed", "loom:aaaa", [("gen", .int 1), ("install", .str "aaaa")], "", ident, version,
    some ⟨ms, 0, "aaaa"⟩, []⟩

def plainNote (ident : String) (ms : Int) (after : List String) : Fact :=
  ⟨"note", "person:p-a", [], "", ident, version, some ⟨ms, 0, "aaaa"⟩, after⟩

theorem view_agrees_with_union_late_note :
    ∃ v, [[renewal "r1" 5, plainNote "n" 7 []], [renewal "r2" 9, plainNote "m" 3 ["n"]]].foldlM
        (fun v batch => LedgerView.extend timedHost v batch) LedgerView.empty = .ok v ∧
      newestRenewals v.facts = .ok [plainNote "n" 7 [], plainNote "m" 3 ["n"], renewal "r2" 9] := by
  obtain ⟨v, l, hv, hUnion, hCut, -⟩ := view_agrees_with_union timedHost
    [[renewal "r1" 5, plainNote "n" 7 []], [renewal "r2" 9, plainNote "m" 3 ["n"]]]
    (harmless_of_distinct (by decide) (by decide) (fun f => f.after.length) (by decide))
    (by decide) ⟨by decide, by decide, by decide⟩
  have hList : union timedHost
      [[renewal "r1" 5, plainNote "n" 7 []], [renewal "r2" 9, plainNote "m" 3 ["n"]]] =
      .ok [renewal "r1" 5, plainNote "n" 7 [], plainNote "m" 3 ["n"], renewal "r2" 9] := by decide
  obtain rfl := Fallible.same hList hUnion
  exact ⟨v, hv, hCut.trans (by decide)⟩

/-- A note that names a renewal keeps its place behind it in the union, but not
in a view that has dropped the renewal. -/
theorem view_disagrees_with_union :
    ¬ ∀ (host : Host) (batches : List (List Fact)), Harmless host batches.flatten →
      ∃ v l, batches.foldlM (fun v batch => v.extend host batch) LedgerView.empty = .ok v ∧
        union host batches = .ok l ∧ newestRenewals v.facts = newestRenewals l := by
  intro h
  obtain ⟨v, l, hv, hUnion, hCut⟩ := h timedHost
    [[renewal "r1" 5, renewal "r2" 6], [plainNote "n" 1 ["r1"], plainNote "m" 3 []]]
    (harmless_of_distinct (by decide) (by decide) (fun f => f.after.length) (by decide))
  have hView : ([[renewal "r1" 5, renewal "r2" 6], [plainNote "n" 1 ["r1"], plainNote "m" 3 []]].foldlM
      (fun v batch => LedgerView.extend timedHost v batch) LedgerView.empty).map LedgerView.facts =
      .ok [plainNote "n" 1 ["r1"], plainNote "m" 3 [], renewal "r2" 6] := by decide
  have hList : union timedHost
      [[renewal "r1" 5, renewal "r2" 6], [plainNote "n" 1 ["r1"], plainNote "m" 3 []]] =
      .ok [plainNote "m" 3 [], renewal "r1" 5, plainNote "n" 1 ["r1"], renewal "r2" 6] := by decide
  rw [hv] at hView
  have hFacts : v.facts = [plainNote "n" 1 ["r1"], plainNote "m" 3 [], renewal "r2" 6] :=
    Except.ok.inj hView
  obtain rfl := Fallible.same hList hUnion
  rw [hFacts] at hCut
  exact absurd hCut (by decide)

end Brnrd.Ledger
