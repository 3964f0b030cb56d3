import Brnrd.Facts.Fact
import Brnrd.Order.PriorityOrder

/-! The heap loop of `union` computes the priority order of the merged facts:
predecessors first, and the least key among the facts that are ready. -/
namespace Brnrd.Facts

open Python LinearExtension

/-- `f` names `g` as a causal predecessor. -/
def Before (g f : Fact) : Prop :=
  g.id ∈ f.after

instance (g f : Fact) : Decidable (Before g f) :=
  inferInstanceAs (Decidable (_ ∈ _))

/-- The key `order` gives; a fact without one never enters the heap. -/
def orderKey (host : Host) (fact : Fact) : Key :=
  match order host fact with
  | .ok key => key
  | .error _ => toLex (⟨0, 0, fact.by_⟩, fact.id)

variable {f g fact : Fact} {host : Host}

theorem order_eq {key : Key} (h : order host fact = .ok key) : key = orderKey host fact := by
  simp [orderKey, h]

theorem orderKey_id (host : Host) (fact : Fact) : (ofLex (orderKey host fact)).2 = fact.id := by
  unfold orderKey order
  cases fact.hlc with
  | some stamp => rfl
  | none => cases host.millis fact.at_ <;> rfl

theorem orderKey_injOn (h : orderKey host f = orderKey host g) : f.id = g.id := by
  rw [← orderKey_id host f, h, orderKey_id]

theorem Below.orderKey_lt (h : Below f g) (host : Host) : orderKey host f < orderKey host g := by
  obtain ⟨a, b, ha, hb, hab⟩ := h
  simp only [orderKey, order, ha, hb]
  exact Prod.Lex.toLex_lt_toLex.mpr (Or.inl hab)

variable {l byId owed waiting : List Fact}

theorem present_iff {ident : String} : present l ident = true ↔ ∃ f ∈ l, f.id = ident := by
  simp [present]

theorem incomingOf_eq_zero : incomingOf l f = 0 ↔ ∀ g ∈ l, ¬ Before g f := by
  simp only [incomingOf, List.length_eq_zero_iff, List.filter_eq_nil_iff, present_iff, Before]
  exact ⟨fun h g hg hgf => h g.id hgf ⟨g, hg, rfl⟩, fun h p hp ⟨g, hg, hgp⟩ => h g hg (hgp ▸ hp)⟩

theorem eq_of_id (hIds : (l.map Fact.id).Nodup) (hf : f ∈ l) (hg : g ∈ l) (hId : f.id = g.id) : f = g :=
  List.inj_on_of_nodup_map hIds hf hg hId

/-- One entry for each time the fact names the ident. -/
theorem count_outgoing (hIds : (byId.map Fact.id).Nodup) (hf : f ∈ byId) {ident : String}
    (hPresent : present byId ident = true) :
    (outgoing byId ident).count f = f.after.count ident := by
  have hFlat : ∀ l : List Fact, l.Nodup → (l.flatMap fun fact =>
      (fact.after.filter fun p => p = ident ∧ present byId p).map fun _ => fact).count f =
        if f ∈ l then f.after.count ident else 0 := by
    intro l hNodup
    induction l with
    | nil => simp
    | cons g l ih =>
        obtain ⟨hg, hl⟩ := List.nodup_cons.mp hNodup
        rw [List.flatMap_cons, List.count_append, ih hl, List.map_const', List.count_replicate]
        by_cases hfg : f = g
        · subst hfg
          have hCount : (f.after.filter fun p => p = ident ∧ present byId p).length =
              f.after.count ident := by
            rw [← List.countP_eq_length_filter, List.count]
            apply List.countP_congr
            intro p _
            by_cases hp : p = ident
            · simp [hp, hPresent]
            · simp [hp]
          rw [hCount]
          simp [hg]
        · simp [hfg, Ne.symm hfg]
  rw [outgoing, hFlat byId hIds.of_map, if_pos hf]

/-- Releasing `fact` takes from each waiting fact's count the times it is named. -/
theorem incomingOf_erase (hIds : (waiting.map Fact.id).Nodup) (hFact : fact ∈ waiting) :
    incomingOf waiting f = incomingOf (waiting.erase fact) f + f.after.count fact.id := by
  have hPresent : ∀ p, present waiting p = true ↔
      present (waiting.erase fact) p = true ∨ p = fact.id := by
    intro p
    simp only [present_iff]
    constructor
    · rintro ⟨g, hg, rfl⟩
      by_cases h : g = fact
      · exact .inr (h ▸ rfl)
      · exact .inl ⟨g, (List.mem_erase_of_ne h).mpr hg, rfl⟩
    · rintro (⟨g, hg, rfl⟩ | rfl)
      · exact ⟨g, List.mem_of_mem_erase hg, rfl⟩
      · exact ⟨fact, hFact, rfl⟩
  have hOut : present (waiting.erase fact) fact.id = false := by
    rw [← Bool.not_eq_true, present_iff]
    rintro ⟨g, hg, hId⟩
    have hEq := eq_of_id hIds (List.mem_of_mem_erase hg) hFact hId
    exact (hIds.of_map.not_mem_erase) (hEq ▸ hg)
  have hSplit : ∀ l : List String, (l.filter (present waiting)).length =
      (l.filter (present (waiting.erase fact))).length + l.count fact.id := by
    intro l
    induction l with
    | nil => rfl
    | cons p l ih =>
        by_cases hp : p = fact.id
        · subst hp
          have hIn : present waiting fact.id = true := (hPresent _).mpr (Or.inr rfl)
          simp [hIn, hOut, ih]
          omega
        · have hIff := hPresent p
          cases hw : present (waiting.erase fact) p <;> simp_all
          omega
  exact hSplit f.after

/-- The loop's variables while `waiting` is not yet released and the counts in
`owed` are still to be taken: the counters are what is left of each fact's
predecessors, and the heap holds the facts whose counter is zero. -/
structure Drain.Waits (host : Host) (waiting owed : List Fact) (s : Drain) : Prop where
  ids : (waiting.map Fact.id).Nodup
  count : ∀ f ∈ waiting, s.incoming f.id = incomingOf waiting f + owed.count f
  ready : ∀ e, e ∈ s.ready ↔
    e.2 ∈ waiting ∧ order host e.2 = .ok e.1 ∧ incomingOf waiting e.2 + owed.count e.2 = 0
  keyed : ∀ f ∈ waiting, incomingOf waiting f + owed.count f = 0 → ∃ key, order host f = .ok key
  nodup : s.ready.Nodup

variable {s s' : Drain}

theorem Drain.Waits.decrement (h : s.Waits host waiting (fact :: owed)) (hFact : fact ∈ waiting)
    (hStep : s.decrement host fact = .ok s') :
    s'.Waits host waiting owed ∧ s'.result = s.result := by
  have hCount : s.incoming fact.id - 1 = incomingOf waiting fact + owed.count fact := by
    rw [h.count fact hFact, List.count_cons_self]
    omega
  have hOther : ∀ f, f ≠ fact → (fact :: owed).count f = owed.count f := by
    intro f hf
    rw [List.count_cons_of_ne (Ne.symm hf)]
  have hIncoming : ∀ f ∈ waiting, Function.update s.incoming fact.id (s.incoming fact.id - 1) f.id =
      incomingOf waiting f + owed.count f := by
    intro f hf
    by_cases hff : f = fact
    · subst hff
      rw [Function.update_self, hCount]
    · have hId : f.id ≠ fact.id := fun hId => hff (eq_of_id h.ids hf hFact hId)
      rw [Function.update_of_ne hId, h.count f hf, hOther f hff]
  have hNow := hIncoming fact hFact
  unfold Drain.decrement at hStep
  simp only [hNow] at hStep
  split at hStep
  · next hZero =>
      obtain ⟨ready, hReady, hEq⟩ := Fallible.peel hStep
      obtain rfl := Except.ok.inj hEq
      obtain ⟨key, hKey, hPush⟩ := Fallible.peel hReady
      obtain rfl := Except.ok.inj hPush
      refine ⟨⟨h.ids, hIncoming, ?_, ?_, ?_⟩, rfl⟩
      · intro e
        rw [List.mem_append, List.mem_singleton, h.ready e]
        by_cases he : e.2 = fact
        · constructor
          · rintro (⟨-, -, hSum⟩ | rfl)
            · rw [he, List.count_cons_self] at hSum
              omega
            · exact ⟨hFact, hKey, hZero⟩
          · rintro ⟨-, hOrder, -⟩
            rw [he, hKey] at hOrder
            exact .inr (Prod.ext (Except.ok.inj hOrder).symm he)
        · rw [hOther _ he]
          exact or_iff_left (fun hEq => he (hEq ▸ rfl))
      · intro f hf hSum
        by_cases hff : f = fact
        · exact ⟨key, hff ▸ hKey⟩
        · exact h.keyed f hf (by rw [hOther f hff]; exact hSum)
      · have hNot : (key, fact) ∉ s.ready := by
          rw [h.ready]
          rintro ⟨-, -, hSum⟩
          rw [List.count_cons_self] at hSum
          omega
        refine List.nodup_append.mpr ⟨h.nodup, List.nodup_singleton _, ?_⟩
        rintro e he e' he' rfl
        exact hNot (List.mem_singleton.mp he' ▸ he)
  · next hPositive =>
      obtain rfl := Except.ok.inj hStep
      refine ⟨⟨h.ids, hIncoming, ?_, ?_, h.nodup⟩, rfl⟩
      · intro e
        rw [h.ready e]
        by_cases he : e.2 = fact
        · rw [he, List.count_cons_self]
          constructor
          · rintro ⟨-, -, hSum⟩
            omega
          · rintro ⟨-, -, hSum⟩
            exact absurd hSum hPositive
        · rw [hOther _ he]
      · intro f hf hSum
        by_cases hff : f = fact
        · exact absurd (hff ▸ hSum) hPositive
        · exact h.keyed f hf (by rw [hOther f hff]; exact hSum)

theorem Drain.Waits.decrements (h : s.Waits host waiting owed) (hOwed : owed ⊆ waiting)
    (hFold : owed.foldlM (Drain.decrement host) s = .ok s') :
    s'.Waits host waiting [] ∧ s'.result = s.result := by
  induction owed generalizing s with
  | nil =>
      obtain rfl : s = s' := by simpa [pure, Except.pure] using hFold
      exact ⟨h, rfl⟩
  | cons fact owed ih =>
      rw [List.foldlM_cons] at hFold
      obtain ⟨m, hStep, hRest⟩ := Fallible.peel hFold
      obtain ⟨hm, hResult⟩ := h.decrement (hOwed List.mem_cons_self) hStep
      obtain ⟨hs', hResult'⟩ := ih hm (fun f hf => hOwed (List.mem_cons_of_mem _ hf)) hRest
      exact ⟨hs', hResult'.trans hResult⟩

variable {rest ready : List (Key × Fact)}

theorem heappop_none (h : heappop ready = none) : ready = [] := by
  simpa [heappop, List.argmin_eq_none] using h

theorem heappop_some {entry : Key × Fact} (h : heappop ready = some (entry, rest)) :
    entry ∈ ready ∧ rest = ready.erase entry ∧ ∀ e ∈ ready, entry.1 ≤ e.1 := by
  simp only [heappop, Option.map_eq_some_iff, Prod.mk.injEq] at h
  obtain ⟨entry', hMin, rfl, rfl⟩ := h
  exact ⟨List.argmin_mem hMin, rfl, fun e he => List.le_of_mem_argmin he hMin⟩

/-- Taking a ready fact from the heap leaves its successors' counts owed. -/
theorem Drain.Waits.pop {key : Key} (h : s.Waits host waiting []) (hIds : (byId.map Fact.id).Nodup) (hSub : waiting ⊆ byId)
    (hPop : heappop s.ready = some ((key, fact), rest)) (result : List Fact) :
    fact ∈ waiting ∧ incomingOf waiting fact = 0 ∧
    Drain.Waits host (waiting.erase fact) ((outgoing byId fact.id).filter (· ∈ waiting.erase fact))
      { s with ready := rest, result := result } := by
  obtain ⟨hMem, rfl, -⟩ := heappop_some hPop
  obtain ⟨hFact, hKey, hZero⟩ := (h.ready _).mp hMem
  simp only [List.count_nil, Nat.add_zero] at hFact hKey hZero
  have hNodup : waiting.Nodup := h.ids.of_map
  have hPresent : present byId fact.id = true := present_iff.mpr ⟨fact, hSub hFact, rfl⟩
  have hCount : ∀ f ∈ waiting.erase fact, incomingOf waiting f = incomingOf (waiting.erase fact) f +
      ((outgoing byId fact.id).filter (· ∈ waiting.erase fact)).count f := by
    intro f hf
    rw [List.count_filter (by simpa using hf), incomingOf_erase h.ids hFact,
      count_outgoing hIds (hSub (List.mem_of_mem_erase hf)) hPresent]
  refine ⟨hFact, hZero, ⟨(List.erase_sublist.map Fact.id).nodup h.ids, ?_, ?_, ?_, h.nodup.erase _⟩⟩
  · intro f hf
    have := h.count f (List.mem_of_mem_erase hf)
    rw [List.count_nil, Nat.add_zero] at this
    exact this.trans (hCount f hf)
  · intro e
    rw [h.nodup.mem_erase_iff, h.ready e, hNodup.mem_erase_iff]
    simp only [List.count_nil, Nat.add_zero]
    constructor
    · rintro ⟨hne, hw, hOrder, hSum⟩
      have hFactNe : e.2 ≠ fact := by
        intro hEq
        rw [hEq, hKey] at hOrder
        exact hne (Prod.ext (Except.ok.inj hOrder).symm hEq)
      have he := (hNodup.mem_erase_iff).mpr ⟨hFactNe, hw⟩
      exact ⟨⟨hFactNe, hw⟩, hOrder, hCount e.2 he ▸ hSum⟩
    · rintro ⟨⟨hne, hw⟩, hOrder, hSum⟩
      have he := (hNodup.mem_erase_iff).mpr ⟨hne, hw⟩
      exact ⟨fun hEq => hne (hEq ▸ rfl), hw, hOrder, (hCount e.2 he).trans hSum⟩
  · intro f hf hSum
    exact h.keyed f (List.mem_of_mem_erase hf) (by
      rw [List.count_nil, Nat.add_zero, hCount f hf]
      exact hSum)

/-- A fact that names a waiting fact is itself still waiting. -/
theorem outgoing_subset (h : s.Waits host waiting []) (hFact : fact ∈ waiting) (hZero : incomingOf waiting fact = 0)
    (hClosed : ∀ f ∈ byId, ∀ g ∈ waiting, Before g f → f ∈ waiting) :
    outgoing byId fact.id ⊆ waiting.erase fact := by
  intro f hf
  simp only [outgoing, List.mem_flatMap, List.mem_map, List.mem_filter] at hf
  obtain ⟨g, hg, p, ⟨hp, hpId⟩, rfl⟩ := hf
  simp only [decide_eq_true_eq] at hpId
  have hBefore : Before fact g := by rwa [hpId.1] at hp
  refine (h.ids.of_map.mem_erase_iff).mpr ⟨?_, hClosed g hg fact hFact hBefore⟩
  rintro rfl
  exact incomingOf_eq_zero.mp hZero g hFact hBefore

/-- What is left waiting still holds every fact that names a waiting one. -/
theorem Drain.Waits.closed_erase (h : s.Waits host waiting []) (hZero : incomingOf waiting fact = 0)
    (hClosed : ∀ f ∈ byId, ∀ g ∈ waiting, Before g f → f ∈ waiting) :
    ∀ f ∈ byId, ∀ g ∈ waiting.erase fact, Before g f → f ∈ waiting.erase fact := by
  intro f hf g hg hgf
  refine (h.ids.of_map.mem_erase_iff).mpr ⟨?_, hClosed f hf g (List.mem_of_mem_erase hg) hgf⟩
  rintro rfl
  exact incomingOf_eq_zero.mp hZero g (List.mem_of_mem_erase hg) hgf

/-- What a run of the loop releases, in the order it releases it; `left` is
what a causal cycle keeps back. -/
theorem drain_order (hIds : (byId.map Fact.id).Nodup) (fuel : Nat) (h : s.Waits host waiting []) (hSub : waiting ⊆ byId)
    (hClosed : ∀ f ∈ byId, ∀ g ∈ waiting, Before g f → f ∈ waiting) (hDrain : drain host (outgoing byId) fuel s = .ok l) :
    ∃ released left, l = s.result ++ released ∧ waiting.Perm (released ++ left) ∧
      (left = [] → PriorityOrder Before (orderKey host) released) ∧
      ∀ f ∈ released, order host f = .ok (orderKey host f) := by
  induction fuel generalizing s waiting with
  | zero =>
      obtain rfl := Except.ok.inj hDrain
      exact ⟨[], waiting, by simp, by simp, fun _ => trivial, by simp⟩
  | succ fuel ih =>
      rw [drain] at hDrain
      split at hDrain
      · obtain rfl := Except.ok.inj hDrain
        exact ⟨[], waiting, by simp, by simp, fun _ => trivial, by simp⟩
      · next key fact rest hPop =>
          obtain ⟨s', hFold, hDrain⟩ := Fallible.peel hDrain
          obtain ⟨hFact, hZero, hWaits⟩ := h.pop hIds hSub hPop (s.result ++ [fact])
          have hOut := outgoing_subset h hFact hZero hClosed
          rw [List.filter_eq_self.mpr (by simpa using fun f hf => hOut hf)] at hWaits
          obtain ⟨hs', hResult⟩ := hWaits.decrements hOut hFold
          obtain ⟨released, left, rfl, hPerm, hOrder, hKeys⟩ := ih hs'
            (fun f hf => hSub (List.mem_of_mem_erase hf)) (h.closed_erase hZero hClosed) hDrain
          obtain ⟨hEntry, -, hLeast⟩ := heappop_some hPop
          have hKey := ((h.ready _).mp hEntry).2.1
          have hPerm' : waiting.Perm (fact :: released ++ left) :=
            (List.perm_cons_erase hFact).trans (hPerm.cons fact)
          refine ⟨fact :: released, left, by simp [hResult], hPerm', ?_, ?_⟩
          · rintro rfl
            rw [List.append_nil] at hPerm hPerm'
            refine ⟨fun y hy => incomingOf_eq_zero.mp hZero y (hPerm'.symm.subset hy), ?_, hOrder rfl⟩
            intro y hy hReady
            have hyMem : y ∈ waiting := hPerm'.symm.subset (List.mem_cons_of_mem _ hy)
            have hyZero : incomingOf waiting y = 0 :=
              incomingOf_eq_zero.mpr (fun g hg => hReady g (hPerm'.subset hg))
            obtain ⟨ykey, hyKey⟩ := h.keyed y hyMem (by simpa using hyZero)
            have hLe := hLeast _ ((h.ready (ykey, y)).mpr ⟨hyMem, hyKey, by simpa using hyZero⟩)
            rw [order_eq hKey, order_eq hyKey] at hLe
            refine lt_of_le_of_ne hLe (fun hEq => ?_)
            have hSame := eq_of_id h.ids hFact hyMem (orderKey_injOn hEq)
            exact (h.ids.of_map.not_mem_erase) (hSame ▸ hPerm.symm.subset hy)
          · intro f hf
            rcases List.mem_cons.mp hf with rfl | hf
            · rw [hKey, order_eq hKey]
            · exact hKeys f hf

end Brnrd.Facts
