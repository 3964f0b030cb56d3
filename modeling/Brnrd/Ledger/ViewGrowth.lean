import Brnrd.Ledger.ViewUnion

/-! What an extension that does not raise makes of a view: the indexes go on
describing the list, and where the view was not replayed, its list has only
grown at the tail. -/
namespace Brnrd.Ledger

open Python Facts LinearExtension

/-- No fact stands before one that it names. -/
def Forward (l : List Fact) : Prop :=
  l.Pairwise (fun x y => ¬Before y x) ∧ ∀ x ∈ l, ¬Before x x

variable {l l' delta facts : List Fact}

theorem Forward.sublist (h : Forward l) (hSub : l'.Sublist l) : Forward l' :=
  ⟨h.1.sublist hSub, fun x hx => h.2 x (hSub.subset hx)⟩

theorem Forward.append (h : Forward l) (h' : Forward l') (hNew : ∀ x ∈ l, ∀ y ∈ l', ¬Before y x) : Forward (l ++ l') := by
  refine ⟨List.pairwise_append.mpr ⟨h.1, h'.1, hNew⟩, fun x hx => ?_⟩
  rcases List.mem_append.mp hx with hx | hx
  · exact h.2 x hx
  · exact h'.2 x hx

theorem Forward.of_priority {key : Fact → Key} (h : PriorityOrder Before key l) : Forward l := by
  induction l with
  | nil => exact ⟨List.Pairwise.nil, fun x hx => absurd hx List.not_mem_nil⟩
  | cons x rest ih =>
      obtain ⟨hPairs, hSelf⟩ := ih h.tail
      refine ⟨List.Pairwise.cons (fun y hy => h.1 y (List.mem_cons_of_mem _ hy)) hPairs, fun y hy => ?_⟩
      rcases List.mem_cons.mp hy with rfl | hy
      · exact h.1 y List.mem_cons_self
      · exact hSelf y hy

variable {host : Host}

/-- The union of facts with one copy for each id has the same facts. -/
theorem mem_union_of_nodup {out : List Fact} (hIds : (l.map Fact.id).Nodup) (hUnion : union host [l] = .ok out) {f : Fact} :
    f ∈ out ↔ f ∈ l := by
  have hFlat : [l].flatten = l := by simp
  have hLedger := hFlat ▸ union_ledger hUnion
  rw [hLedger.mem f]
  exact ⟨fun hKept => hKept.1, fun hf => ⟨hf, fun g hg hId => .inl (eq_of_id hIds hg hf hId)⟩⟩

/-- A view that extensions have made. -/
structure LedgerView.Built (host : Host) (v : LedgerView) : Prop where
  indexed : v.Indexed host
  forward : Forward v.facts
  keyed : ∀ f ∈ v.facts, order host f = .ok (orderKey host f)

theorem LedgerView.Built.empty (host : Host) : LedgerView.empty.Built host :=
  ⟨.empty host, ⟨List.Pairwise.nil, fun _ h => absurd h List.not_mem_nil⟩, fun _ h => absurd h List.not_mem_nil⟩

/-- Facts in an order of which no edge runs back have a union. -/
theorem Forward.union_ok (h : Forward l) (hIds : (l.map Fact.id).Nodup)
    (hKeyed : ∀ f ∈ l, order host f = .ok (orderKey host f)) : ∃ out, union host [l] = .ok out := by
  have hFlat : [l].flatten = l := by simp
  refine union_succeeds (fun f hf g hg hClash => ?_) (fun f hf => ?_) (fun f => l.idxOf f)
    fun f hf g hg hBefore => ?_
  · rw [hFlat] at hf hg
    exact hClash.2.1 (eq_of_id hIds hf hg hClash.1)
  · exact hKeyed f (hFlat ▸ hf)
  · rw [hFlat] at hf hg
    have hf' := List.idxOf_lt_length_iff.mpr hf
    have hg' := List.idxOf_lt_length_iff.mpr hg
    rcases lt_trichotomy (l.idxOf g) (l.idxOf f) with hlt | heq | hgt
    · exact hlt
    · have hSame : g = f := (List.idxOf_inj hg).mp heq
      exact absurd hBefore (hSame ▸ h.2 g hg)
    · have hPair := List.pairwise_iff_getElem.mp h.1 _ _ hf' hg' hgt
      rw [List.getElem_idxOf hf', List.getElem_idxOf hg'] at hPair
      exact absurd hBefore hPair

variable {u v w : LedgerView}

/-- Facts with new ids went to the tail one by one. -/
theorem LedgerView.Indexed.adds_eq_ok (h : v.Indexed host) (hIds : ((v.facts ++ delta).map Fact.id).Nodup)
    (hAdds : delta.foldlM (LedgerView.add host) v = .ok w) : w.Indexed host ∧ w.facts = v.facts ++ delta := by
  induction delta generalizing v with
  | nil =>
      obtain rfl : v = w := by simpa [pure, Except.pure] using hAdds
      exact ⟨h, by simp⟩
  | cons f delta ih =>
      rw [List.foldlM_cons] at hAdds
      obtain ⟨m, hm, hRest⟩ := Fallible.peel hAdds
      have hAdded := LedgerView.add_eq_ok hm
      have hNew : ∀ g ∈ v.facts, g.id ≠ f.id := by
        intro g hg hId
        rw [List.map_append, List.nodup_append] at hIds
        exact hIds.2.2 g.id (List.mem_map_of_mem hg) f.id (by simp) hId
      obtain ⟨hIndexed, hFacts⟩ := ih (h.add hNew hAdded) (by rw [hAdded.facts]; simpa using hIds) hRest
      exact ⟨hIndexed, by rw [hFacts, hAdded.facts]; simp⟩

theorem firstCut_eq_ok {cut : List Fact} (h : firstCut v delta = .ok cut) :
    cut = if v.facts = [] then cutRenewals delta else delta := by
  unfold firstCut at h
  split at h
  · unfold newestRenewals at h
    split at h
    · cases h
    · rw [if_pos ‹_›, Except.ok.inj h]
  · rw [if_neg ‹_›, Except.ok.inj h]

/-- What `grow` puts at the tail. -/
def tailOf (v : LedgerView) (delta : List Fact) : List Fact :=
  if v.facts = [] then cutRenewals delta else delta

theorem tailOf_sublist (v : LedgerView) (delta : List Fact) : (tailOf v delta).Sublist delta := by
  unfold tailOf
  split
  · exact cutRenewals_sublist delta
  · exact List.Sublist.refl delta

theorem mem_cutRenewals {f : Fact} (hf : f ∈ l) (hRenewal : isRenewal f = false) : f ∈ cutRenewals l := by
  unfold cutRenewals
  split
  · exact hf
  · exact List.mem_filter.mpr ⟨hf, by simp [hRenewal]⟩

theorem mem_tailOf {f : Fact} (hf : f ∈ delta) (hRenewal : isRenewal f = false) : f ∈ tailOf v delta := by
  unfold tailOf
  split
  · exact mem_cutRenewals hf hRenewal
  · exact hf

theorem LedgerView.Indexed.grow_eq_ok (h : v.Indexed host) (hIds : ((v.facts ++ delta).map Fact.id).Nodup)
    (hGrow : v.grow host delta = .ok w) :
    w.Indexed host ∧ w.facts = v.facts ++ tailOf v delta := by
  unfold LedgerView.grow at hGrow
  by_cases hNil : delta = []
  · subst hNil
    rw [if_pos rfl] at hGrow
    obtain rfl := Except.ok.inj hGrow
    have hTail : tailOf v [] = [] := List.sublist_nil.mp (tailOf_sublist v [])
    exact ⟨h.of_fields rfl rfl rfl rfl rfl rfl rfl, by simp [hTail]⟩
  · rw [if_neg hNil] at hGrow
    obtain ⟨cut, hCut, hRest⟩ := Fallible.peel hGrow
    obtain ⟨m, hAdds, hEq⟩ := Fallible.peel hRest
    obtain rfl : cut = tailOf v delta := firstCut_eq_ok hCut
    have hSub : (v.facts ++ tailOf v delta).Sublist (v.facts ++ delta) :=
      (tailOf_sublist v delta).append_left v.facts
    obtain ⟨hIndexed, hFacts⟩ := h.adds_eq_ok ((hSub.map Fact.id).nodup hIds) hAdds
    obtain rfl := Except.ok.inj hEq
    exact ⟨hIndexed.of_fields rfl rfl rfl rfl rfl rfl rfl, hFacts⟩

/-- Of a batch that displaces nothing, the facts gathered have new ids. -/
theorem admitFact_fresh {s : Incoming} {duplicates : List Fact}
    (h : facts.foldlM v.admitFact ⟨[], false, duplicates⟩ = .ok s) :
    s.displaced = false → ∀ f ∈ s.added, v.byId.lookup f.id = none := by
  refine Fallible.foldlM_invariant
    (fun _ (s : Incoming) => s.displaced = false → ∀ f ∈ s.added, v.byId.lookup f.id = none)
    (fun _ f hf => absurd hf List.not_mem_nil) ?_ h
  intro l fact s s' hs hAdmit
  unfold LedgerView.admitFact at hAdmit
  cases hOld : v.byId.lookup fact.id with
  | none =>
      simp only [hOld] at hAdmit
      obtain rfl := Except.ok.inj hAdmit
      intro hDisplaced f hf
      rcases List.mem_append.mp hf with hf | hf
      · exact hs hDisplaced f hf
      · rw [List.mem_singleton.mp hf]
        exact hOld
  | some old =>
      simp only [hOld] at hAdmit
      split at hAdmit
      · obtain rfl := Except.ok.inj hAdmit
        exact hs
      · obtain ⟨kept, -, hKept⟩ := Fallible.peel hAdmit
        split at hKept
        · obtain rfl := Except.ok.inj hKept
          exact hs
        · obtain rfl := Except.ok.inj hKept
          intro hDisplaced
          cases hDisplaced

/-- What `incoming` returns: the new facts in canonical order, which go to the
tail only if their ids are new and no fact of the view names them. -/
structure LedgerView.Came (host : Host) (v u : LedgerView) (delta : List Fact) (repair : Bool) : Prop where
  view : u = { v with duplicates := u.duplicates }
  ids : (delta.map Fact.id).Nodup
  forward : Forward delta
  keyed : ∀ f ∈ delta, order host f = .ok (orderKey host f)
  fresh : repair = false → ∀ f ∈ delta, (∀ g ∈ v.facts, g.id ≠ f.id) ∧ f.id ∉ v.missing

theorem LedgerView.Indexed.came {repair : Bool} (h : v.Indexed host)
    (hIncoming : v.incoming host facts = .ok (u, delta, repair)) :
    LedgerView.Came host v u delta repair := by
  obtain ⟨s, hAdmit, hRest⟩ := Fallible.peel hIncoming
  split at hRest
  · obtain ⟨rfl, hPair⟩ := Fallible.pair hRest
    obtain ⟨rfl, rfl⟩ := Prod.mk.inj hPair
    exact ⟨rfl, List.nodup_nil, ⟨List.Pairwise.nil, fun x hx => absurd hx List.not_mem_nil⟩,
      fun f hf => absurd hf List.not_mem_nil, fun _ f hf => absurd hf List.not_mem_nil⟩
  · obtain ⟨⟨ordered, duplicates⟩, hUnion, hRest⟩ := Fallible.peel hRest
    obtain ⟨late, -, hEq⟩ := Fallible.peel hRest
    obtain ⟨rfl, hPair⟩ := Fallible.pair hEq
    obtain ⟨rfl, rfl⟩ := Prod.mk.inj hPair
    have hLedger := unionWith_ledger (liftUnion_eq_ok.mp hUnion)
    refine ⟨rfl, hLedger.ids, .of_priority hLedger.ordered, hLedger.keyed, fun hRepair f hf => ?_⟩
    rw [Bool.or_eq_false_iff, Bool.or_eq_false_iff] at hRepair
    obtain ⟨⟨hDisplaced, hMissing⟩, -⟩ := hRepair
    have hAdded : f ∈ s.added := by simpa using ((hLedger.mem f).mp hf).1
    refine ⟨h.lookup_none.mp (admitFact_fresh hAdmit hDisplaced f hAdded), ?_⟩
    simpa using List.any_eq_false.mp hMissing f hf

/-- A batch that goes to the tail. -/
theorem LedgerView.Built.grow (h : v.Built host) (hCame : LedgerView.Came host v v delta false)
    (hGrow : v.grow host delta = .ok w) :
    w.Built host ∧ w.facts = v.facts ++ tailOf v delta := by
  have hFresh := hCame.fresh rfl
  have hIds : ((v.facts ++ delta).map Fact.id).Nodup := by
    rw [List.map_append, List.nodup_append]
    refine ⟨h.indexed.ids, hCame.ids, fun a ha b hb => ?_⟩
    obtain ⟨g, hg, rfl⟩ := List.mem_map.mp ha
    obtain ⟨f, hf, rfl⟩ := List.mem_map.mp hb
    exact (hFresh f hf).1 g hg
  have hTail := tailOf_sublist v delta
  obtain ⟨hIndexed, hFacts⟩ := h.indexed.grow_eq_ok hIds hGrow
  refine ⟨⟨hIndexed, ?_, ?_⟩, hFacts⟩
  · rw [hFacts]
    refine h.forward.append (hCame.forward.sublist hTail) fun x hx y hy hBefore => ?_
    obtain ⟨hNew, hMissing⟩ := hFresh y (hTail.subset hy)
    exact hMissing ((h.indexed.missing y.id).mpr ⟨⟨x, hx, hBefore⟩, hNew⟩)
  · rw [hFacts]
    intro f hf
    rcases List.mem_append.mp hf with hf | hf
    · exact h.keyed f hf
    · exact hCame.keyed f (hTail.subset hf)

theorem LedgerView.Built.of_duplicates (h : v.Built host) (duplicates : List Fact) :
    LedgerView.Built host { v with duplicates := duplicates } :=
  ⟨h.indexed.of_fields rfl rfl rfl rfl rfl rfl rfl, h.forward, h.keyed⟩

theorem load_built (h : LedgerView.load host facts = .ok w) : w.Built host := by
  obtain ⟨⟨u, delta, repair⟩, hIncoming, hGrow⟩ := Fallible.peel h
  have hCame := (LedgerView.Indexed.empty host).came hIncoming
  have hEmpty : u.Built host := hCame.view ▸ (LedgerView.Built.empty host).of_duplicates _
  have hFacts : u.facts = [] := by rw [hCame.view]; rfl
  have hMissing : u.missing = [] := by rw [hCame.view]; rfl
  refine (hEmpty.grow ⟨rfl, hCame.ids, hCame.forward, hCame.keyed, fun _ f _ => ⟨?_, ?_⟩⟩ hGrow).1
  · rw [hFacts]
    exact fun g hg => absurd hg List.not_mem_nil
  · rw [hMissing]
    exact List.not_mem_nil

/-- An extension that does not raise. -/
theorem LedgerView.Built.apply {repair : Bool} (h : v.Built host)
    (hIncoming : v.incoming host facts = .ok (u, delta, repair)) (hApply : u.apply host delta repair = .ok w) :
    w.Built host ∧ (¬(repair = true ∧ delta ≠ []) → w.facts = v.facts ++ tailOf v delta) := by
  have hCame := h.indexed.came hIncoming
  have hu : u.Built host := hCame.view ▸ h.of_duplicates _
  have hFacts : u.facts = v.facts := by rw [hCame.view]
  unfold LedgerView.apply at hApply
  by_cases hNil : delta = []
  · subst hNil
    rw [if_pos rfl] at hApply
    obtain rfl := Except.ok.inj hApply
    refine ⟨⟨hu.indexed.of_fields rfl rfl rfl rfl rfl rfl rfl, hu.forward, hu.keyed⟩, fun _ => ?_⟩
    have hTail : tailOf v [] = [] := List.sublist_nil.mp (tailOf_sublist v [])
    simp [hTail, hFacts]
  · rw [if_neg hNil] at hApply
    cases repair with
    | true =>
        rw [if_pos rfl] at hApply
        obtain ⟨cut, -, hRest⟩ := Fallible.peel hApply
        obtain ⟨⟨ordered, duplicates⟩, -, hRest⟩ := Fallible.peel hRest
        obtain ⟨fresh, hLoad, hEq⟩ := Fallible.peel hRest
        obtain rfl := Except.ok.inj hEq
        have hFresh := load_built hLoad
        refine ⟨⟨hFresh.indexed.of_fields rfl rfl rfl rfl rfl rfl rfl, hFresh.forward, hFresh.keyed⟩, ?_⟩
        exact fun hNot => absurd ⟨rfl, hNil⟩ hNot
    | false =>
        rw [if_neg (by simp)] at hApply
        have hMissing : u.missing = v.missing := by rw [hCame.view]
        have hTail : tailOf u delta = tailOf v delta := by rw [tailOf, tailOf, hFacts]
        have hSelf : LedgerView.Came host u u delta false :=
          ⟨rfl, hCame.ids, hCame.forward, hCame.keyed, by rw [hFacts, hMissing]; exact hCame.fresh⟩
        obtain ⟨hBuilt, hGrown⟩ := hu.grow hSelf hApply
        exact ⟨hBuilt, fun _ => by rw [hGrown, hFacts, hTail]⟩

end Brnrd.Ledger

/-! A built view by the kinds of its facts: how many there are of each, and the
rows of some of them in the view's own order. -/
namespace Brnrd.Ledger

open Python Facts

/-- How many of the facts are of each kind. -/
def countsOf (facts : List Fact) (kinds : List String) : List Nat :=
  kinds.map fun kind => (facts.filter fun f => f.kind = kind).length

/-- `self.by_kind[kind]`. -/
def kindRows (v : LedgerView) (kind : String) : List Fact :=
  (v.byKind.lookup kind).getD []

/-- `tuple(len(facts.by_kind[kind]) for kind in kinds)`. -/
def counts (v : LedgerView) (kinds : List String) : List Nat :=
  kinds.map fun kind => (kindRows v kind).length

/-- `facts.positions[f.id]`. -/
def position (v : LedgerView) (fact : Fact) : Nat :=
  (v.positions.lookup fact.id).getD 0

variable {v : LedgerView} {host : Host}

theorem counts_eq (h : v.Indexed host) (kinds : List String) : counts v kinds = countsOf v.facts kinds := by
  unfold counts countsOf kindRows
  simp only [h.byKind]

/-- The counts tell whether facts of the kinds have come. -/
theorem countsOf_append {first rest : List Fact} {kinds : List String} :
    countsOf (first ++ rest) kinds = countsOf first kinds ↔ ∀ f ∈ rest, f.kind ∉ kinds := by
  unfold countsOf
  rw [List.map_inj_left]
  simp only [List.filter_append, List.length_append, Nat.add_eq_left, List.length_eq_zero_iff,
    List.filter_eq_nil_iff, decide_eq_true_eq]
  exact ⟨fun h f hf hKind => h f.kind hKind f hf rfl, fun h kind hKind f hf hEq => h f hf (hEq ▸ hKind)⟩

theorem position_of_getElem (h : v.Indexed host) {i : Nat} (hi : i < v.facts.length) : position v v.facts[i] = i := by
  have hLookup := (h.positions v.facts[i].id i).mpr ⟨v.facts[i], List.getElem?_eq_getElem hi, rfl⟩
  rw [position, hLookup, Option.getD_some]

theorem position_pairwise (h : v.Indexed host) : v.facts.Pairwise fun f g => position v f < position v g := by
  rw [List.pairwise_iff_getElem]
  intro i j hi hj hij
  rwa [position_of_getElem h hi, position_of_getElem h hj]

/-- Rows of the view, each once, sorted by their positions. -/
theorem sort_position (h : v.Indexed host) {l : List Fact} {p : Fact → Bool} (hNodup : l.Nodup)
    (hMem : ∀ f, f ∈ l ↔ f ∈ v.facts ∧ p f = true) :
    (l.insertionSort fun f g => position v f ≤ position v g) = v.facts.filter p := by
  have hPerm : l.Perm (v.facts.filter p) := by
    refine (List.perm_ext_iff_of_nodup hNodup (h.ids.of_map.filter _)).mpr fun f => ?_
    rw [hMem, List.mem_filter]
  have hSorted := (position_pairwise h).filter p
  have : Std.Total fun f g : Fact => position v f ≤ position v g := ⟨fun f g => le_total _ _⟩
  have : IsTrans Fact fun f g => position v f ≤ position v g := ⟨fun f g k => le_trans⟩
  refine List.Perm.eq_of_pairwise ?_ (List.pairwise_insertionSort _ _) (hSorted.imp le_of_lt)
    ((List.perm_insertionSort _ _).trans hPerm)
  intro f g hf hg hfg hgf
  rw [List.mem_insertionSort, hPerm.mem_iff] at hf
  by_contra hne
  -- Two rows of one position are one row.
  obtain ⟨i, hi, rfl⟩ := List.getElem_of_mem (List.mem_filter.mp hf).1
  obtain ⟨j, hj, rfl⟩ := List.getElem_of_mem (List.mem_filter.mp hg).1
  rw [position_of_getElem h hi, position_of_getElem h hj] at hfg hgf
  exact hne (by simp [le_antisymm hfg hgf])

theorem mem_kindRows (h : v.Indexed host) {kind : String} {f : Fact} : f ∈ kindRows v kind ↔ f ∈ v.facts ∧ f.kind = kind := by
  rw [kindRows, h.byKind]
  simp

/-- A batch of a run of two is the first, or the second after the first. -/
theorem split_pair {α : Type} {a b batch : α} {first rest : List α} (h : [a, b] = first ++ batch :: rest) :
    first = [] ∧ batch = a ∨ first = [a] ∧ batch = b := by
  match first, h with
  | [], h =>
      obtain ⟨hHead, -⟩ := List.cons.inj h
      exact .inl ⟨rfl, hHead.symm⟩
  | [c], h =>
      obtain ⟨hHead, hTail⟩ := List.cons.inj h
      obtain ⟨hSecond, -⟩ := List.cons.inj hTail
      exact .inr ⟨by rw [hHead], hSecond.symm⟩
  | _ :: _ :: _, h => simp at h

end Brnrd.Ledger
