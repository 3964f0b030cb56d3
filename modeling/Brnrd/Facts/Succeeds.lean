import Brnrd.Facts.Conflict

/-! When a union of facts does not raise, what it displaces, and what unions of unions
come to. -/
namespace Brnrd.Facts

open Python

variable {host : Host} {f g fact : Fact} {facts l held duplicates : List Fact}

theorem Drain.decrement_ok (s : Drain) {f : Fact} (hKey : order host f = .ok (orderKey host f)) :
    ∃ s', s.decrement host f = .ok s' := by
  unfold Drain.decrement heappush
  rw [hKey]
  simp only
  split
  · exact ⟨_, rfl⟩
  · exact ⟨_, rfl⟩

theorem Drain.decrements_ok (s : Drain) {l : List Fact} (hKeys : ∀ f ∈ l, order host f = .ok (orderKey host f)) :
    ∃ s', l.foldlM (Drain.decrement host) s = .ok s' := by
  induction l generalizing s with
  | nil => exact ⟨s, rfl⟩
  | cons f l ih =>
      obtain ⟨m, hm⟩ := s.decrement_ok (hKeys f List.mem_cons_self)
      obtain ⟨s', hs'⟩ := ih m (fun g hg => hKeys g (List.mem_cons_of_mem _ hg))
      exact ⟨s', by rw [List.foldlM_cons]; exact Fallible.bind_eq_ok.mpr ⟨m, hm, hs'⟩⟩

/-- With a key for each fact the loop runs to its end, and a fact it never
releases waits for another such fact. -/
theorem drain_ok {byId : List Fact} (hIds : (byId.map Fact.id).Nodup)
    (hKeys : ∀ f ∈ byId, order host f = .ok (orderKey host f)) (fuel : Nat) {s : Drain} {waiting : List Fact}
    (h : s.Waits host waiting []) (hSub : waiting ⊆ byId) (hClosed : ∀ f ∈ byId, ∀ g ∈ waiting, Before g f → f ∈ waiting)
    (hFuel : waiting.length ≤ fuel) :
    ∃ l left, drain host (outgoing byId) fuel s = .ok l ∧ left ⊆ waiting ∧
      l.length + left.length = s.result.length + waiting.length ∧
      ∀ f ∈ left, ∃ g ∈ left, Before g f := by
  induction fuel generalizing s waiting with
  | zero =>
      obtain rfl := List.length_eq_zero_iff.mp (Nat.le_zero.mp hFuel)
      exact ⟨s.result, [], rfl, by simp, by simp, by simp⟩
  | succ fuel ih =>
      rw [drain]
      cases hPop : heappop s.ready with
      | none =>
          refine ⟨s.result, waiting, rfl, List.Subset.refl _, rfl, fun f hf => ?_⟩
          by_contra hNone
          push Not at hNone
          have hReady := (h.ready (orderKey host f, f)).mpr
            ⟨hf, hKeys f (hSub hf), by simpa using incomingOf_eq_zero.mpr hNone⟩
          rw [heappop_none hPop] at hReady
          exact List.not_mem_nil hReady
      | some popped =>
          obtain ⟨⟨key, fact⟩, rest⟩ := popped
          obtain ⟨hFact, hZero, hWaits⟩ := h.pop hIds hSub hPop (s.result ++ [fact])
          have hOut := outgoing_subset h hFact hZero hClosed
          rw [List.filter_eq_self.mpr (by simpa using fun f hf => hOut hf)] at hWaits
          obtain ⟨s', hFold⟩ := Drain.decrements_ok
            { s with ready := rest, result := s.result ++ [fact] }
            (l := outgoing byId fact.id)
            (fun f hf => hKeys f (hSub (List.mem_of_mem_erase (hOut hf))))
          obtain ⟨hs', hResult⟩ := hWaits.decrements hOut hFold
          have hErase : (waiting.erase fact).length = waiting.length - 1 :=
            List.length_erase_of_mem hFact
          have hPositive : 0 < waiting.length := List.length_pos_of_mem hFact
          obtain ⟨l, left, hDrain, hLeft, hLength, hStuck⟩ := ih hs'
            (fun f hf => hSub (List.mem_of_mem_erase hf)) (h.closed_erase hZero hClosed)
            (by omega)
          refine ⟨l, left, ?_, fun f hf => List.mem_of_mem_erase (hLeft hf), ?_, hStuck⟩
          · simp only [hFold]
            exact hDrain
          · rw [hResult, List.length_append, List.length_singleton] at hLength
            omega

theorem heappush_ok {l : List Fact} (hKeys : ∀ f ∈ l, order host f = .ok (orderKey host f)) (ready : List (Key × Fact)) :
    ∃ ready', l.foldlM (heappush host) ready = .ok ready' := by
  induction l generalizing ready with
  | nil => exact ⟨ready, rfl⟩
  | cons f l ih =>
      obtain ⟨ready', h⟩ := ih (fun g hg => hKeys g (List.mem_cons_of_mem _ hg))
        (ready ++ [(orderKey host f, f)])
      refine ⟨ready', ?_⟩
      rw [List.foldlM_cons, heappush, hKeys f List.mem_cons_self]
      exact h

variable {streams : List (List Fact)}

/-- In a ledger a cause stands before what names it. -/
theorem Ledger.idxOf_lt (h : Ledger host facts l) (hf : f ∈ l) (hg : g ∈ l) (hBefore : Before g f) : l.idxOf g < l.idxOf f := by
  obtain ⟨first, second, hSplit⟩ := List.append_of_mem hf
  have hFirst := h.after hSplit hg hBefore
  have hNot : f ∉ first := by
    intro hMem
    have hIds := h.ids.of_map
    rw [hSplit, List.nodup_append] at hIds
    exact hIds.2.2 f hMem f List.mem_cons_self rfl
  rw [hSplit, List.idxOf_append_of_mem hFirst, List.idxOf_append_of_notMem hNot]
  exact Nat.lt_of_lt_of_le (List.idxOf_lt_length_of_mem hFirst) (Nat.le_add_right ..)

/-- Facts whose causes have lower ranks have no cycle. -/
theorem root_of_rank (rank : Fact → Nat) (hRank : ∀ f ∈ l, ∀ g ∈ l, Before g f → rank g < rank f) (hSome : l ≠ []) :
    ∃ f ∈ l, ∀ g ∈ l, ¬ Before g f := by
  classical
  obtain ⟨f, hf⟩ := List.exists_mem_of_ne_nil l hSome
  obtain ⟨f₀, hf₀, hLeast⟩ := Finset.exists_min_image l.toFinset rank ⟨f, by simpa using hf⟩
  rw [List.mem_toFinset] at hf₀
  exact ⟨f₀, hf₀, fun g hg hBefore => absurd (hLeast g (by simpa using hg)) (not_le.mpr (hRank f₀ hf₀ g hg hBefore))⟩

/-- Facts that meet no clash are united where the copies kept have order keys and no cycle. -/
theorem union_rooted (hPeaceful : Peaceful streams.flatten)
    (hKeys : ∀ f, Kept streams.flatten f → order host f = .ok (orderKey host f))
    (hRoot : ∀ loop, loop ≠ [] → (∀ f ∈ loop, Kept streams.flatten f) → ∃ f ∈ loop, ∀ g ∈ loop, ¬ Before g f) :
    ∃ l, union host streams = .ok l := by
  obtain ⟨m, hMerge⟩ := (merge_ok_iff []).mpr hPeaceful
  have hm := merge_holds hMerge
  have hKeysById : ∀ f ∈ m.byId, order host f = .ok (orderKey host f) :=
    fun f hf => hKeys f ((hm.mem f).mp hf)
  obtain ⟨ready, hReady⟩ := heappush_ok
    (fun f hf => hKeysById f (List.mem_filter.mp hf).1) ([] : List (Key × Fact))
  have hStart : Drain.start host m.byId = .ok _ := Fallible.bind_eq_ok.mpr ⟨ready, hReady, rfl⟩
  obtain ⟨hWaits, hResult⟩ := Drain.start_waits hm.nodup hStart
  obtain ⟨l, left, hDrain, hLeft, hLength, hStuck⟩ := drain_ok hm.nodup hKeysById m.byId.length
    hWaits (List.Subset.refl _) (fun f hf _ _ _ => hf) le_rfl
  have hNil : left = [] := by
    by_contra hne
    obtain ⟨f, hf, hNone⟩ := hRoot left hne fun f hf => (hm.mem f).mp (hLeft hf)
    obtain ⟨g, hg, hBefore⟩ := hStuck f hf
    exact hNone g hg hBefore
  subst hNil
  rw [hResult] at hLength
  simp only [List.length_nil, Nat.add_zero, Nat.zero_add] at hLength
  refine ⟨l, union_eq_ok.mpr ⟨m.duplicates, ?_⟩⟩
  refine Fallible.bind_eq_ok.mpr ⟨m, hMerge, Fallible.bind_eq_ok.mpr ⟨_, hStart,
    Fallible.bind_eq_ok.mpr ⟨l, hDrain, ?_⟩⟩⟩
  rw [if_neg (by simpa using hLength)]

/-- Facts that meet no clash are united where the copies kept have order keys and a rank
that their causes are below in. -/
theorem union_ranked (hPeaceful : Peaceful streams.flatten)
    (hKeys : ∀ f, Kept streams.flatten f → order host f = .ok (orderKey host f)) (rank : Fact → Nat)
    (hRank : ∀ f g, Kept streams.flatten f → Kept streams.flatten g → Before g f → rank g < rank f) :
    ∃ l, union host streams = .ok l :=
  union_rooted hPeaceful hKeys fun _ hSome hLoop =>
    root_of_rank rank (fun f hf g hg => hRank f g (hLoop f hf) (hLoop g hg)) hSome

/-- `union` raises only on a clash, on a fact without an order key, or on a cycle. -/
theorem union_succeeds (hClash : ∀ f ∈ streams.flatten, ∀ g ∈ streams.flatten, ¬ Clash f g)
    (hKeys : ∀ f ∈ streams.flatten, order host f = .ok (orderKey host f)) (rank : Fact → Nat)
    (hRank : ∀ f ∈ streams.flatten, ∀ g ∈ streams.flatten, Before g f → rank g < rank f) :
    ∃ l, union host streams = .ok l := by
  refine union_ranked ?_ (fun f hf => hKeys f hf.1) rank fun f g hf hg => hRank f hf.1 g hg.1
  intro first fact rest hSplit old hOld
  exact hClash old (by simp [hSplit, hOld.1]) fact (by simp [hSplit])

/-- Facts that keep the copies which others keep come to their ledger, where they meet no clash. -/
theorem union_kept {streams' : List (List Fact)} {l : List Fact} (hKept : ∀ f, Kept streams.flatten f ↔ Kept streams'.flatten f)
    (h : union host streams = .ok l) (hPeaceful : Peaceful streams'.flatten) : union host streams' = .ok l := by
  have hl := union_ledger h
  have hMem : ∀ f, Kept streams'.flatten f → f ∈ l := fun f hf => (hl.mem f).mpr ((hKept f).mpr hf)
  obtain ⟨l', hUnion⟩ := union_ranked hPeaceful (fun f hf => hl.keyed f (hMem f hf)) (l.idxOf ·)
    fun f g hf hg hBefore => hl.idxOf_lt (hMem f hf) (hMem g hg) hBefore
  rw [hUnion, hl.same (union_ledger hUnion) hKept]

theorem union_peaceful (h : union host streams = .ok l) : Peaceful streams.flatten := by
  obtain ⟨displaced, hUnion⟩ := union_eq_ok.mp h
  obtain ⟨m, hMerge, -⟩ := Fallible.peel hUnion
  exact (merge_ok_iff []).mp ⟨m, hMerge⟩

/-- `union` succeeds exactly where no fact meets a clashing copy that is kept, and the copies
kept have order keys and no cycle of causes. -/
theorem union_ok_iff : (∃ l, union host streams = .ok l) ↔ Peaceful streams.flatten ∧
    (∀ f, Kept streams.flatten f → order host f = .ok (orderKey host f)) ∧
    ∀ loop, loop ≠ [] → (∀ f ∈ loop, Kept streams.flatten f) → ∃ f ∈ loop, ∀ g ∈ loop, ¬ Before g f := by
  refine ⟨fun ⟨l, h⟩ => ?_, fun ⟨hPeaceful, hKeys, hRoot⟩ => union_rooted hPeaceful hKeys hRoot⟩
  have hl := union_ledger h
  have hMem : ∀ f, Kept streams.flatten f → f ∈ l := fun f hf => (hl.mem f).mpr hf
  refine ⟨union_peaceful h, fun f hf => hl.keyed f (hMem f hf), fun loop hSome hLoop => ?_⟩
  exact root_of_rank (l.idxOf ·)
    (fun f hf g hg hBefore => hl.idxOf_lt (hMem f (hLoop f hf)) (hMem g (hLoop g hg)) hBefore) hSome

/-- A merge has displaced, of the facts that it read, those that it does not keep. -/
def Merged.Accounts (duplicates facts : List Fact) (m : Merged) : Prop :=
  ∃ lost, m.duplicates = duplicates ++ lost ∧ ∀ f, f ∈ lost ↔ f ∈ facts ∧ ¬ Kept facts f

theorem Merged.Accounts.add {m m' : Merged} (h : m.Accounts duplicates facts) (hm : m.Holds facts)
    (hAdd : m.add fact = .ok m') : m'.Accounts duplicates (facts ++ [fact]) := by
  obtain ⟨lost, hLost, hMem⟩ := h
  have hm' := hm.add hAdd
  have hStill : ∀ f ∈ lost, f ∈ facts ++ [fact] ∧ ¬ Kept (facts ++ [fact]) f := fun f hf =>
    ⟨List.mem_append_left _ ((hMem f).mp hf).1, fun hKept => ((hMem f).mp hf).2
      ⟨((hMem f).mp hf).1, fun g hg => hKept.2 g (List.mem_append_left _ hg)⟩⟩
  unfold Merged.add at hAdd
  split at hAdd
  · obtain rfl := Except.ok.inj hAdd
    refine ⟨lost, hLost, fun f => ⟨hStill f, fun ⟨hf, hNot⟩ => (hMem f).mpr ?_⟩⟩
    rw [← hm'.mem, List.mem_append, hm.mem, not_or] at hNot
    exact ⟨(List.mem_append.mp hf).resolve_right hNot.2, hNot.1⟩
  rename_i old hFind
  obtain ⟨hOld, hId⟩ := hm.find_some hFind
  split at hAdd
  · rename_i hSame
    obtain rfl := Except.ok.inj hAdd
    refine ⟨lost, hLost, fun f => ⟨hStill f, fun ⟨hf, hNot⟩ => (hMem f).mpr ?_⟩⟩
    rw [← hm'.mem, hm.mem] at hNot
    exact ⟨(List.mem_append.mp hf).resolve_right fun hLast => hNot (List.mem_singleton.mp hLast ▸ hSame ▸ hOld), hNot⟩
  rename_i hOther
  obtain ⟨k, hk, hAdd⟩ := Fallible.peel hAdd
  obtain rfl := Except.ok.inj hAdd
  have hKept : Kept (facts ++ [fact]) k := (hm'.mem k).mp
    (List.mem_map.mpr ⟨old, List.mem_of_find?_eq_some hFind, if_pos hId⟩ :
      k ∈ m.byId.map fun f => if f.id = fact.id then k else f)
  have hWhich : k = old ∨ k = fact := by
    rcases keep_cases hId with ⟨-, hErr⟩ | ⟨-, k', hk', hWhich, -⟩
    · rw [hErr] at hk
      cases hk
    · exact Fallible.same hk' hk ▸ hWhich
  refine ⟨lost ++ [_], by rw [hLost, List.append_assoc], fun f => ⟨fun hf => ?_, fun ⟨hf, hNot⟩ => ?_⟩⟩
  · rcases List.mem_append.mp hf with hf | hf
    · exact hStill f hf
    obtain rfl := List.mem_singleton.mp hf
    split
    · rename_i hOldKept
      exact ⟨by simp, fun hNew => hOther (hOldKept ▸ hKept.unique hNew (hOldKept ▸ hId))⟩
    · rename_i hBeaten
      have hNew := hWhich.resolve_left hBeaten
      exact ⟨List.mem_append_left _ hOld.1, fun hStays => hBeaten (hKept.unique hStays (hNew ▸ hId.symm))⟩
  · by_cases hLate : f ∈ facts ∧ ¬ Kept facts f
    · exact List.mem_append_left _ ((hMem f).mpr hLate)
    refine List.mem_append_right _ (List.mem_singleton.mpr ?_)
    rcases List.mem_append.mp hf with hf | hf
    · have hBefore : Kept facts f := not_not.mp (not_and.mp hLate hf)
      have hIs := hBefore.unique hOld (by_contra fun hOff => hNot ((kept_snoc_of_ne (hId ▸ hOff)).mpr hBefore))
      have hBeaten : k ≠ old := fun hSame => hNot (hIs ▸ hSame ▸ hKept)
      rw [if_neg hBeaten, hIs]
    · obtain rfl := List.mem_singleton.mp hf
      have hWins : k = old := hWhich.resolve_right fun hSame => hNot (hSame ▸ hKept)
      rw [if_pos hWins]

/-- A union drops no fact that it read: what is not in the ledger is listed as displaced, behind
what was listed before, and a copy of it that the ledger has is below it. -/
theorem displaced_accounted {l displaced : List Fact} (h : unionWith host streams duplicates = .ok (l, displaced)) :
    ∃ lost, displaced = duplicates ++ lost ∧ (∀ f, f ∈ lost ↔ f ∈ streams.flatten ∧ f ∉ l) ∧
      ∀ f ∈ lost, ∃ k ∈ l, k.id = f.id ∧ Below k f := by
  have hl := unionWith_ledger h
  obtain ⟨m, hMerge, h⟩ := Fallible.peel h
  obtain ⟨s, -, h⟩ := Fallible.peel h
  obtain ⟨result, -, h⟩ := Fallible.peel h
  have hAccounts : m.Holds streams.flatten ∧ m.Accounts duplicates streams.flatten :=
    Fallible.foldlM_invariant (fun l m => m.Holds l ∧ m.Accounts duplicates l)
      ⟨.nil _, [], by simp, by simp⟩ (fun _ _ _ _ hm hAdd => ⟨hm.1.add hAdd, hm.2.add hm.1 hAdd⟩) hMerge
  obtain ⟨-, lost, hLost, hMem⟩ := hAccounts
  split at h
  · cases h
  obtain ⟨rfl, rfl⟩ := Prod.mk.inj (Except.ok.inj h)
  have hIn : ∀ f, f ∈ lost ↔ f ∈ streams.flatten ∧ f ∉ result := fun f => by rw [hMem, hl.mem]
  refine ⟨lost, hLost, hIn, fun f hf => ?_⟩
  obtain ⟨hRead, hNot⟩ := (hIn f).mp hf
  obtain ⟨k, hk, hId⟩ := hl.covers f hRead
  refine ⟨k, hk, hId, (((hl.mem k).mp hk).2 f hRead hId.symm).resolve_left fun hSame => hNot (hSame ▸ hk)⟩

theorem displaced_accounted_copy : unionWith bareHost [[sourceCopy "aaaa" 9], [sourceCopy "bbbb" 7]] [] =
      .ok ([sourceCopy "bbbb" 7], [sourceCopy "aaaa" 9]) ∧
    Below (sourceCopy "bbbb" 7) (sourceCopy "aaaa" 9) := by
  have h : unionWith bareHost [[sourceCopy "aaaa" 9], [sourceCopy "bbbb" 7]] [] =
      .ok ([sourceCopy "bbbb" 7], [sourceCopy "aaaa" 9]) := by decide
  obtain ⟨lost, hLost, -, hBelow⟩ := displaced_accounted h
  obtain ⟨k, hk, -, hLess⟩ := hBelow (sourceCopy "aaaa" 9) (by simp [← show _ = lost from hLost])
  exact ⟨h, List.mem_singleton.mp hk ▸ hLess⟩

/-- Facts that are held of others: each of these, or a copy that it loses to. -/
def Carried (facts held : List Fact) : Prop :=
  held ⊆ facts ∧ ∀ g ∈ facts, ∃ f ∈ held, f.id = g.id ∧ (g = f ∨ Below f g)

theorem Carried.kept (h : Carried facts held) (f : Fact) : Kept held f ↔ Kept facts f := by
  constructor
  · rintro ⟨hf, hLeast⟩
    refine ⟨h.1 hf, fun g hg hId => ?_⟩
    obtain ⟨k, hk, hSame, rfl | hBelow⟩ := h.2 g hg
    · exact hLeast g hk hId
    · rcases hLeast k hk (hSame.trans hId) with rfl | hLess
      · exact .inr hBelow
      · exact .inr (hLess.trans hBelow)
  · rintro ⟨hf, hLeast⟩
    refine ⟨?_, fun g hg => hLeast g (h.1 hg)⟩
    obtain ⟨k, hk, hSame, rfl | hBelow⟩ := h.2 f hf
    · exact hk
    · rcases hLeast k (h.1 hk) hSame with rfl | hLess
      · exact hk
      · exact absurd hLess hBelow.asymm

theorem Carried.append (h : Carried facts held) (more : List Fact) : Carried (facts ++ more) (held ++ more) := by
  refine ⟨List.append_subset.mpr ⟨List.subset_append_of_subset_left _ h.1, List.subset_append_right ..⟩, fun g hg => ?_⟩
  rcases List.mem_append.mp hg with hg | hg
  · obtain ⟨f, hf, hLess⟩ := h.2 g hg
    exact ⟨f, List.mem_append_left _ hf, hLess⟩
  · exact ⟨g, List.mem_append_right _ hg, rfl, .inl rfl⟩

theorem Carried.trans (h : Carried facts held) (h' : Carried held l) : Carried facts l := by
  refine ⟨List.Subset.trans h'.1 h.1, fun g hg => ?_⟩
  obtain ⟨k, hk, hSame, hLess⟩ := h.2 g hg
  obtain ⟨f, hf, hId, rfl | hBelow⟩ := h'.2 k hk
  · exact ⟨_, hf, hSame, hLess⟩
  · exact ⟨f, hf, hId.trans hSame, .inr (hLess.elim (fun hIs => hIs ▸ hBelow) hBelow.trans)⟩

/-- What meets no clash behind facts meets none behind what is held of them. -/
theorem Carried.peaceful (h : Carried facts held) (hIds : (held.map Fact.id).Nodup) {more : List Fact}
    (hPeaceful : Peaceful (facts ++ more)) : Peaceful (held ++ more) := by
  induction more using List.reverseRecOn with
  | nil =>
      rintro first fact rest hSplit old hOld ⟨hId, -⟩
      rw [List.append_nil] at hSplit
      rw [hSplit, List.map_append, List.nodup_append] at hIds
      exact hIds.2.2 _ (List.mem_map_of_mem hOld.1) _ List.mem_cons_self hId
  | append_singleton more fact ih =>
      rw [← List.append_assoc, peaceful_snoc] at hPeaceful ⊢
      exact ⟨ih hPeaceful.1, fun old hOld => hPeaceful.2 old (((h.append more).kept old).mp hOld)⟩

theorem Ledger.carried (h : Ledger host facts l) : Carried facts l := by
  refine ⟨fun f hf => ((h.mem f).mp hf).1, fun g hg => ?_⟩
  obtain ⟨f, hf, hId⟩ := h.covers g hg
  exact ⟨f, hf, hId, ((h.mem f).mp hf).2 g hg hId.symm⟩

/-- A union that starts from the ledger of some streams comes to what a union of all comes to,
where the copies that the ledger has displaced clash with nothing more. -/
theorem union_resumes {more : List (List Fact)} {l' : List Fact} (h : union host streams = .ok l) :
    union host (streams ++ more) = .ok l' ↔ union host (l :: more) = .ok l' ∧ Peaceful (streams ++ more).flatten := by
  have hl := union_ledger h
  have hKept : ∀ f, Kept (l :: more).flatten f ↔ Kept (streams ++ more).flatten f := fun f => by
    rw [List.flatten_append, List.flatten_cons, (hl.carried.append _).kept]
  refine ⟨fun hAll => ?_, fun ⟨hHeld, hPeaceful⟩ => union_kept hKept hHeld hPeaceful⟩
  have hPeaceful := union_peaceful hAll
  refine ⟨union_kept (fun f => (hKept f).symm) hAll (hl.carried.peaceful hl.ids ?_), hPeaceful⟩
  rwa [← List.flatten_append]

theorem union_resumes_three : union bareHost [[sourceCopy "bbbb" 7], [noteOn "n" 5]] =
    .ok [sourceCopy "bbbb" 7, noteOn "n" 5] :=
  ((@union_resumes _ _ [[sourceCopy "aaaa" 9], [sourceCopy "bbbb" 7]] _ _ (by decide)).mp (by decide)).1

/-- What is held of facts that were read: all of them, or a union of what is held of some. -/
inductive Nested (host : Host) : List Fact → List Fact → Prop where
  | stream (facts : List Fact) : Nested host facts facts
  | merge (heard : List (List Fact × List Fact)) {l : List Fact} (hHeard : ∀ h ∈ heard, Nested host h.1 h.2)
      (hUnion : union host (heard.map Prod.snd) = .ok l) : Nested host (heard.map Prod.fst).flatten l

theorem Nested.carried (h : Nested host facts held) : Carried facts held := by
  induction h with
  | stream facts => exact ⟨List.Subset.refl _, fun g hg => ⟨g, hg, rfl, .inl rfl⟩⟩
  | merge heard hHeard hUnion ih =>
      refine Carried.trans ⟨fun f hf => ?_, fun g hg => ?_⟩ (union_ledger hUnion).carried
      · obtain ⟨stream, hStream, hIn⟩ := List.mem_flatten.mp hf
        obtain ⟨h, hh, rfl⟩ := List.mem_map.mp hStream
        exact List.mem_flatten.mpr ⟨h.1, List.mem_map_of_mem hh, (ih h hh).1 hIn⟩
      · obtain ⟨read, hRead, hIn⟩ := List.mem_flatten.mp hg
        obtain ⟨h, hh, rfl⟩ := List.mem_map.mp hRead
        obtain ⟨k, hk, hSame⟩ := (ih h hh).2 g hIn
        exact ⟨k, List.mem_flatten.mpr ⟨h.2, List.mem_map_of_mem hh, hk⟩, hSame⟩

/-- Unions that are nested in any way come to one ledger where they have read the same facts. -/
theorem nested_unions_agree {facts' held' l' : List Fact} (h : Nested host facts held) (h' : Nested host facts' held')
    (hSame : ∀ f, f ∈ facts ↔ f ∈ facts') (hUnion : union host [held] = .ok l) (hUnion' : union host [held'] = .ok l') :
    l = l' := by
  refine (union_ledger hUnion).same (union_ledger hUnion') fun f => ?_
  rw [List.flatten_singleton, List.flatten_singleton, h.carried.kept, h'.carried.kept, Kept.congr hSame]

/-- Two copies of one source, merged before a note on it is read, or read with it at first hand. -/
theorem nested_unions_agree_three : union bareHost [[sourceCopy "bbbb" 7, noteOn "n" 5]] =
    union bareHost [[noteOn "n" 5, sourceCopy "aaaa" 9, sourceCopy "bbbb" 7]] := by
  have hFirst : Nested bareHost [sourceCopy "aaaa" 9, sourceCopy "bbbb" 7] [sourceCopy "bbbb" 7] :=
    .merge [([sourceCopy "aaaa" 9], [sourceCopy "aaaa" 9]), ([sourceCopy "bbbb" 7], [sourceCopy "bbbb" 7])]
      (by simp [Nested.stream]) (by decide)
  have hThen : Nested bareHost [sourceCopy "aaaa" 9, sourceCopy "bbbb" 7, noteOn "n" 5] [sourceCopy "bbbb" 7, noteOn "n" 5] :=
    .merge [([sourceCopy "aaaa" 9, sourceCopy "bbbb" 7], [sourceCopy "bbbb" 7]), ([noteOn "n" 5], [noteOn "n" 5])]
      (by simp [hFirst, Nested.stream]) (by decide)
  have h : union bareHost [[sourceCopy "bbbb" 7, noteOn "n" 5]] = .ok [sourceCopy "bbbb" 7, noteOn "n" 5] := by decide
  have h' : union bareHost [[noteOn "n" 5, sourceCopy "aaaa" 9, sourceCopy "bbbb" 7]] =
      .ok [sourceCopy "bbbb" 7, noteOn "n" 5] := by decide
  rw [h, h', nested_unions_agree hThen (.stream _) (by simp; tauto) h h']
end Brnrd.Facts
