import Brnrd.Facts.Union
import Mathlib.Data.List.Sort

/-! When a union raises an id conflict. The merge compares each copy with the
one it keeps at that moment, so whether two clashing copies meet depends on
what another install's copies put between them. -/
namespace Brnrd.Facts

open Python

/-- `union(*streams)` raises `conflicting fact id`. -/
def RaisesConflict (host : Host) (streams : List (List Fact)) : Prop :=
  ∃ ident, union host streams = .error (.conflict ident)

/-- No fact meets a clashing copy that the facts before it have kept. -/
def Peaceful (facts : List Fact) : Prop :=
  ∀ first fact rest, facts = first ++ fact :: rest → ∀ old, Kept first old → ¬ Clash old fact

/-- Copies of one id by two installs. -/
def Rival (f k : Fact) : Prop :=
  f.id = k.id ∧ ∃ a b, f.hlc = some a ∧ k.hlc = some b ∧ a.install ≠ b.install

/-- A clash that no copy of another install can hide. -/
def Exposed (facts : List Fact) (f g : Fact) : Prop :=
  Clash f g ∧ ∀ k ∈ facts, Rival f k → Below f k ∧ Below g k

variable {b f g k m : Fact}

theorem Rival.symm (h : Rival f k) : Rival k f := by
  obtain ⟨hId, a, b, ha, hb, hab⟩ := h
  exact ⟨hId.symm, b, a, hb, ha, hab.symm⟩

theorem clash_or_rival (hId : f.id = g.id) : f = g ∨ Clash f g ∨ Rival f g := by
  by_cases hEq : f = g
  · exact .inl hEq
  · by_cases hRival : ∃ a b, f.hlc = some a ∧ g.hlc = some b ∧ a.install ≠ b.install
    · exact .inr (Or.inr ⟨hId, hRival⟩)
    · exact .inr (Or.inl ⟨hId, hEq, hRival⟩)

theorem Rival.not_clash (h : Rival f g) : ¬ Clash f g :=
  fun hClash => hClash.2.2 h.2

/-- A copy that clashes with one install's copy is that install's own. -/
theorem Rival.of_clash (h : Rival f k) (hClash : Clash f g) (hg : g.hlc ≠ none) : Rival g k := by
  obtain ⟨hId, a, c, ha, hc, hac⟩ := h
  obtain ⟨b, hb⟩ := Option.ne_none_iff_exists'.mp hg
  have hSame : a.install = b.install := by
    by_contra hne
    exact hClash.2.2 ⟨a, b, ha, hb, hne⟩
  exact ⟨hClash.1.symm.trans hId, b, c, hb, hc, hSame ▸ hac⟩

theorem Rival.below_or (h : Rival f k) : Below f k ∨ Below k f := by
  obtain ⟨-, a, b, ha, hb, hab⟩ := h
  rcases lt_trichotomy a b with hlt | rfl | hlt
  · exact .inl ⟨a, b, ha, hb, hlt⟩
  · exact absurd rfl hab
  · exact .inr ⟨b, a, hb, ha, hlt⟩

theorem peaceful_nil : Peaceful [] := by
  intro first fact rest h
  simp at h

variable {l facts : List Fact}

theorem peaceful_snoc : Peaceful (l ++ [f]) ↔ Peaceful l ∧ ∀ old, Kept l old → ¬ Clash old f := by
  constructor
  · intro h
    refine ⟨fun first fact rest hSplit => ?_, h l f [] rfl⟩
    exact h first fact (rest ++ [f]) (by rw [hSplit]; simp)
  · rintro ⟨h, hLast⟩ first fact rest hSplit
    rcases List.eq_nil_or_concat rest with rfl | ⟨rest, g, rfl⟩
    · obtain ⟨rfl, hEq⟩ := List.append_inj' hSplit rfl
      obtain rfl := (List.cons.inj hEq).1
      exact hLast
    · rw [List.concat_eq_append, ← List.cons_append, ← List.append_assoc] at hSplit
      exact h first fact rest (List.append_inj' hSplit rfl).1

/-- One turn of the merge loop raises exactly on a clash with the kept copy. -/
theorem Merged.Holds.add_ok {m : Merged} (h : m.Holds facts) (fact : Fact) :
    (∃ m', m.add fact = .ok m') ↔ ∀ old, Kept facts old → ¬ Clash old fact := by
  unfold Merged.add
  cases hFind : m.byId.find? (fun f => f.id = fact.id) with
  | none =>
      refine ⟨fun _ old hOld hClash => ?_, fun _ => ⟨_, rfl⟩⟩
      exact h.find_none hFind old hOld.1 hClash.1
  | some old =>
      obtain ⟨hOld, hId⟩ := h.find_some hFind
      have hOnly : ∀ k, Kept facts k → Clash k fact → k = old :=
        fun k hk hClash => hk.unique hOld (hClash.1.trans hId.symm)
      by_cases hEq : old = fact
      · refine ⟨fun _ k hk hClash => hClash.2.1 ((hOnly k hk hClash).trans hEq), fun _ => ⟨m, ?_⟩⟩
        exact if_pos hEq
      · simp only [if_neg hEq]
        obtain ⟨hClash, hErr⟩ | ⟨hNot, k, hk, -⟩ := keep_cases hId
        · rw [hErr]
          refine ⟨?_, fun hAll => absurd hClash (hAll old hOld)⟩
          rintro ⟨m', hm'⟩
          cases hm'
        · rw [hk]
          exact ⟨fun _ k hk hClash => hNot (hOnly k hk hClash ▸ hClash), fun _ => ⟨_, rfl⟩⟩

theorem merge_ok_iff (duplicates : List Fact) : (∃ m, merge facts duplicates = .ok m) ↔ Peaceful facts := by
  induction facts using List.reverseRecOn with
  | nil => exact ⟨fun _ => peaceful_nil, fun _ => ⟨_, rfl⟩⟩
  | append_singleton l f ih =>
      rw [peaceful_snoc]
      constructor
      · rintro ⟨m', hm'⟩
        obtain ⟨m, hm, hAdd⟩ := Fallible.foldlM_snoc.mp hm'
        exact ⟨ih.mp ⟨m, hm⟩, ((merge_holds hm).add_ok f).mp ⟨m', hAdd⟩⟩
      · rintro ⟨hl, hf⟩
        obtain ⟨m, hm⟩ := ih.mpr hl
        obtain ⟨m', hAdd⟩ := ((merge_holds hm).add_ok f).mpr hf
        exact ⟨m', Fallible.foldlM_snoc.mpr ⟨m, hm, hAdd⟩⟩

variable {e : UnionError} {host : Host}

theorem heappush_error {ready : List (Key × Fact)} (h : heappush host ready f = .error e) (ident : String) :
    e ≠ .conflict ident := by
  unfold heappush order at h
  cases hHlc : f.hlc with
  | some stamp =>
      rw [hHlc] at h
      cases h
  | none =>
      rw [hHlc] at h
      cases hMillis : host.millis f.at_ with
      | some ms =>
          simp [hMillis, bind, Except.bind] at h
      | none =>
          simp only [hMillis, bind, Except.bind, Except.error.injEq] at h
          exact h ▸ UnionError.noConfusion

theorem Drain.decrement_error {s : Drain} (h : s.decrement host f = .error e) (ident : String) : e ≠ .conflict ident := by
  unfold Drain.decrement at h
  simp only at h
  split at h
  · cases hPush : heappush host s.ready f with
    | error e' =>
        rw [hPush] at h
        obtain rfl : e' = e := Except.error.inj h
        exact heappush_error hPush ident
    | ok ready =>
        rw [hPush] at h
        cases h
  · cases h

theorem Drain.start_error {byId : List Fact} (h : Drain.start host byId = .error e) (ident : String) : e ≠ .conflict ident := by
  unfold Drain.start at h
  cases hFold : (byId.filter fun f => incomingOf byId f = 0).foldlM (heappush host) [] with
  | ok ready =>
      rw [hFold] at h
      cases h
  | error e' =>
      rw [hFold] at h
      obtain rfl : e' = e := Except.error.inj h
      obtain ⟨first, f, rest, ready, -, -, hPush⟩ := Fallible.foldlM_error hFold
      exact heappush_error hPush ident

theorem drain_error {successors : String → List Fact} {fuel : Nat} {s : Drain} (h : drain host successors fuel s = .error e)
    (ident : String) :
    e ≠ .conflict ident := by
  induction fuel generalizing s with
  | zero => cases h
  | succ fuel ih =>
      rw [drain] at h
      split at h
      · cases h
      · next key fact rest hPop =>
          cases hFold : (successors fact.id).foldlM (Drain.decrement host)
              { s with ready := rest, result := s.result ++ [fact] } with
          | ok s' =>
              rw [hFold] at h
              exact ih h
          | error e' =>
              rw [hFold] at h
              obtain rfl : e' = e := Except.error.inj h
              obtain ⟨first, f, rest, s', -, -, hStep⟩ := Fallible.foldlM_error hFold
              exact Drain.decrement_error hStep ident

/-- A conflict comes out of the merge; the order loop raises for other reasons. -/
theorem raisesConflict_iff {streams : List (List Fact)} : RaisesConflict host streams ↔ ¬ Peaceful streams.flatten := by
  rw [← merge_ok_iff []]
  unfold RaisesConflict union unionWith
  cases hMerge : merge streams.flatten [] with
  | error e =>
      obtain ⟨_, f, _, _, _, _, _, rfl⟩ := merge_error hMerge
      exact ⟨fun _ => by simp, fun _ => ⟨f.id, rfl⟩⟩
  | ok m =>
      refine ⟨?_, fun h => absurd ⟨m, rfl⟩ h⟩
      rintro ⟨ident, h⟩
      change Except.map Prod.fst (Drain.start host m.byId >>= fun start =>
        drain host (outgoing m.byId) m.byId.length start >>= fun result =>
          if result.length ≠ m.byId.length then .error .cycle
          else .ok (result, m.duplicates)) = .error (.conflict ident) at h
      cases hStart : Drain.start host m.byId with
      | error e =>
          rw [hStart] at h
          exact absurd (Except.error.inj h) (Drain.start_error hStart ident)
      | ok start =>
          rw [hStart] at h
          cases hDrain : drain host (outgoing m.byId) m.byId.length start with
          | error e =>
              change Except.map Prod.fst (drain host _ _ start >>= _) = _ at h
              rw [hDrain] at h
              exact absurd (Except.error.inj h) (drain_error hDrain ident)
          | ok result =>
              change Except.map Prod.fst (drain host _ _ start >>= _) = _ at h
              rw [hDrain] at h
              by_cases hLength : result.length = m.byId.length
              · simp [bind, Except.bind, Except.map, hLength] at h
              · simp [bind, Except.bind, Except.map, hLength] at h

/-- With every rival above it, a copy is kept from its arrival on. -/
theorem Peaceful.kept (h : Peaceful l) (hLow : ∀ k ∈ l, Rival f k → Below f k) (hf : f ∈ l) : Kept l f := by
  induction l using List.reverseRecOn with
  | nil => exact absurd hf List.not_mem_nil
  | append_singleton l y ih =>
      obtain ⟨hl, hy⟩ := peaceful_snoc.mp h
      have hPrior : f ∈ l → Kept l f :=
        ih hl (fun k hk => hLow k (List.mem_append_left _ hk))
      by_cases hfl : f ∈ l
      · refine ⟨hf, fun g hg hId => ?_⟩
        rcases List.mem_append.mp hg with hg | hg
        · exact (hPrior hfl).2 g hg hId
        · obtain rfl := List.mem_singleton.mp hg
          rcases clash_or_rival hId.symm with hEq | hClash | hRival
          · exact .inl hEq.symm
          · exact absurd hClash (hy f (hPrior hfl))
          · exact .inr (hLow g (by simp) hRival)
      · have hfy : f = y := by
          rcases List.mem_append.mp hf with hf | hf
          · exact absurd hf hfl
          · exact List.mem_singleton.mp hf
        subst hfy
        refine ⟨hf, fun g hg hId => ?_⟩
        rcases List.mem_append.mp hg with hg | hg
        · obtain ⟨m, hm⟩ := (merge_ok_iff []).mpr hl
          obtain ⟨old, hOld, hOldId⟩ := (merge_holds hm).covers g hg
          have hKept := ((merge_holds hm).mem old).mp hOld
          have hBelow : Below f old := by
            rcases clash_or_rival (hOldId.trans hId) with hEq | hClash | hRival
            · exact absurd (hEq ▸ hKept.1) hfl
            · exact absurd hClash (hy old hKept)
            · exact hLow old (List.mem_append_left _ hKept.1) hRival.symm
          rcases hKept.2 g hg hOldId.symm with rfl | hgOld
          · exact .inr hBelow
          · exact .inr (hBelow.trans hgOld)
        · exact .inl (List.mem_singleton.mp hg)

/-- An exposed clash is found in every order. -/
theorem Exposed.not_peaceful (h : Exposed facts f g) (hSub : l ⊆ facts) (hf : f ∈ l) (hg : g ∈ l) : ¬ Peaceful l := by
  intro hPeaceful
  have hKeptF := hPeaceful.kept (fun k hk hRival => (h.2 k (hSub hk) hRival).1) hf
  obtain ⟨a, b, ha, hb, hab⟩ : Below f g :=
    (hKeptF.2 g hg h.1.1.symm).resolve_left (fun hEq => h.1.2.1 hEq.symm)
  have hRivals : ∀ k ∈ l, Rival g k → Below g k := fun k hk hRival =>
    (h.2 k (hSub hk) (hRival.of_clash h.1.symm (by simp [ha]))).2
  rcases (hPeaceful.kept hRivals hg).2 f hf h.1.1 with hEq | hBelow
  · exact h.1.2.1 hEq
  · exact hBelow.asymm ⟨a, b, ha, hb, hab⟩

/-- No clash among `facts` is exposed. -/
def Hidden (facts : List Fact) : Prop :=
  ∀ f ∈ facts, ∀ g ∈ facts, ¬ Exposed facts f g

theorem Hidden.masked (h : Hidden facts) (hf : f ∈ facts) (hg : g ∈ facts) (hClash : Clash f g) :
    ∃ k ∈ facts, Rival f k ∧ (Below f k → Below k g) := by
  have hSome := h f hf g hg
  simp only [Exposed, hClash, true_and, not_forall] at hSome
  obtain ⟨k, hk, hRival, hNot⟩ := hSome
  refine ⟨k, hk, hRival, fun hfk => ?_⟩
  have hg' : g.hlc ≠ none := by
    have hSome' := h g hg f hf
    simp only [Exposed, hClash.symm, true_and, not_forall] at hSome'
    obtain ⟨k', -, ⟨-, b, -, hb, -⟩, -⟩ := hSome'
    simp [hb]
  exact (hRival.of_clash hClash hg').below_or.resolve_left (fun hgk => hNot ⟨hfk, hgk⟩)

/-- Where every clash is hidden, each id has a lowest copy. -/
theorem Hidden.kept_exists (h : Hidden facts) (hf : f ∈ facts) : ∃ m, Kept facts m ∧ m.id = f.id := by
  by_cases hAlone : ∀ g ∈ facts, g.id = f.id → g = f
  · exact ⟨f, ⟨hf, fun g hg hId => Or.inl (hAlone g hg hId)⟩, rfl⟩
  · push Not at hAlone
    obtain ⟨g, hg, hgId, hgf⟩ := hAlone
    have hClock : ∀ c ∈ facts, c.id = f.id → ∃ a, c.hlc = some a := by
      intro c hc hcId
      obtain ⟨d, hd, hdId, hcd⟩ : ∃ d ∈ facts, c.id = d.id ∧ c ≠ d := by
        by_cases hcf : c = f
        · exact ⟨g, hg, hcId.trans hgId.symm, fun hEq => hgf (hEq.symm.trans hcf)⟩
        · exact ⟨f, hf, hcId, hcf⟩
      rcases clash_or_rival hdId with hEq | hClash | ⟨-, a, -, ha, -⟩
      · exact absurd hEq hcd
      · obtain ⟨-, -, ⟨-, a, -, ha, -⟩, -⟩ := h.masked hc hd hClash
        exact ⟨a, ha⟩
      · exact ⟨a, ha⟩
    obtain ⟨m, hm, hLeast⟩ := Finset.exists_min_image
      (facts.toFinset.filter (fun c => c.id = f.id)) (fun c => c.hlc.getD ⟨0, 0, ""⟩)
      ⟨f, by simp [hf]⟩
    simp only [Finset.mem_filter, List.mem_toFinset] at hm hLeast
    obtain ⟨a, ha⟩ := hClock m hm.1 hm.2
    refine ⟨m, ⟨hm.1, fun c hc hId => ?_⟩, hm.2⟩
    obtain ⟨b, hb⟩ := hClock c hc (hId.trans hm.2)
    have hLe : a ≤ b := by simpa [ha, hb] using hLeast c ⟨hc, hId.trans hm.2⟩
    rcases hLe.lt_or_eq with hlt | rfl
    · exact .inr ⟨a, b, ha, hb, hlt⟩
    · refine Or.inl (by_contra fun hne => ?_)
      have hClash : Clash m c := ⟨hId.symm, Ne.symm hne, by simp [ha, hb]⟩
      obtain ⟨k, hk, hRival, hBelow⟩ := h.masked hm.1 hc hClash
      obtain ⟨hkId, a', d, ha', hd, had⟩ := hRival
      obtain rfl : a = a' := Option.mem_unique ha ha'
      have hle : a ≤ d := by
        have := hLeast k ⟨hk, hkId.symm.trans hm.2⟩
        simpa [ha, hd] using this
      have hlt : a < d := lt_of_le_of_ne hle (fun hEq => had (congrArg Hlc.install hEq))
      obtain ⟨d', b', hd', hb', hdb⟩ := hBelow ⟨a, d, ha, hd, hlt⟩
      obtain rfl : d = d' := Option.mem_unique hd hd'
      obtain rfl : a = b' := Option.mem_unique hb hb'
      exact lt_asymm hlt hdb

/-- A lowest copy among another install's copies of the id. -/
def Shields (facts : List Fact) (m b : Fact) : Prop :=
  b ∈ facts ∧ Rival m b ∧ ∀ k ∈ facts, Rival m k → ¬ Below k b

theorem shields_exists (hk : k ∈ facts) (hRival : Rival m k) : ∃ b, Shields facts m b := by
  classical
  obtain ⟨b, hb, hLeast⟩ := Finset.exists_min_image
    (facts.toFinset.filter (Rival m)) (fun c => c.hlc.getD ⟨0, 0, ""⟩) ⟨k, by simp [hk, hRival]⟩
  simp only [Finset.mem_filter, List.mem_toFinset] at hb hLeast
  refine ⟨b, hb.1, hb.2, fun c hc hcm => ?_⟩
  rintro ⟨x, y, hx, hy, hxy⟩
  exact absurd hxy (not_lt.mpr (by simpa [hx, hy] using hLeast c ⟨hc, hcm⟩))

open Classical in
/-- One fixed choice of shield for each kept copy. -/
noncomputable def shield (facts : List Fact) (m : Fact) : Option Fact :=
  if h : ∃ b, Shields facts m b then some h.choose else none

theorem shield_spec (h : shield facts m = some b) : Shields facts m b := by
  unfold shield at h
  split at h
  · next hSome => exact Option.some.inj h ▸ hSome.choose_spec
  · cases h

open Classical in
/-- Where the quiet arrangement puts a copy: a shield of the kept copy, the
copies that clash with the kept one, the kept one, the rest. -/
noncomputable def phase (facts : List Fact) (f : Fact) : Nat :=
  if ∃ m, Kept facts m ∧ shield facts m = some f then 0
  else if ∃ m, Kept facts m ∧ Clash m f then 1
  else if Kept facts f then 2
  else 3

theorem phase_cases (facts : List Fact) (f : Fact) :
    (phase facts f = 0 ∧ ∃ m, Kept facts m ∧ shield facts m = some f) ∨
    (phase facts f = 1 ∧ ∃ m, Kept facts m ∧ Clash m f) ∨
    (phase facts f = 2 ∧ Kept facts f) ∨
    (phase facts f = 3 ∧ ¬ Kept facts f ∧ ∀ m, Kept facts m → ¬ Clash m f) := by
  unfold phase
  split_ifs with h₀ h₁ h₂
  · exact .inl ⟨rfl, h₀⟩
  · exact .inr (Or.inl ⟨rfl, h₁⟩)
  · exact .inr (Or.inr (Or.inl ⟨rfl, h₂⟩))
  · exact .inr (Or.inr (Or.inr ⟨rfl, h₂, fun m hm hClash => h₁ ⟨m, hm, hClash⟩⟩))

theorem phase_kept (hm : Kept facts m) : phase facts m ≤ 2 := by
  rcases phase_cases facts m with ⟨h, -⟩ | ⟨h, -⟩ | ⟨h, -⟩ | ⟨-, hNot, -⟩
  · omega
  · omega
  · omega
  · exact absurd hm hNot

theorem phase_shield (hm : Kept facts m) (hb : shield facts m = some b) : phase facts b = 0 :=
  if_pos ⟨m, hm, hb⟩

/-- The shield lies below every copy that clashes with the kept one. -/
theorem Hidden.shield_below (h : Hidden facts) {c : Fact} (hm : Kept facts m) (hc : c ∈ facts) (hClash : Clash m c) :
    ∃ b, shield facts m = some b ∧ Rival c b ∧ Below b c := by
  obtain ⟨k, hk, hRival, hBelow⟩ := h.masked hm.1 hc hClash
  have hkc : Below k c :=
    hBelow ((hm.2 k hk hRival.1.symm).resolve_left (fun hEq => by
      subst hEq
      obtain ⟨-, a, b, ha, hb, hab⟩ := hRival
      exact hab (congrArg Hlc.install (Option.mem_unique ha hb))))
  have hSome : ∃ b, shield facts m = some b := by
    unfold shield
    rw [dif_pos (shields_exists hk hRival)]
    exact ⟨_, rfl⟩
  obtain ⟨b, hb⟩ := hSome
  obtain ⟨hbMem, hbRival, hbLow⟩ := shield_spec hb
  obtain ⟨x, y, hx, hy, hxy⟩ := hkc
  have hcb : Rival c b := hbRival.of_clash hClash (by simp [hy])
  obtain ⟨y', z, hy', hz, -⟩ := hcb.2
  obtain rfl : y = y' := Option.mem_unique hy hy'
  have hzx : z ≤ x := not_lt.mp (fun hlt => hbLow k hk hRival ⟨x, z, hx, hz, hlt⟩)
  exact ⟨b, hb, hcb, ⟨z, y, hz, hy, lt_of_le_of_lt hzx hxy⟩⟩

/-- Read in the order of their phases, facts whose clashes are all hidden meet
no clash: the shield is kept until the kept copy arrives. -/
theorem Hidden.arrangement (h : Hidden facts) : ∃ l, l.Perm facts ∧ Peaceful l := by
  classical
  let rel : Fact → Fact → Prop := fun f g => phase facts f ≤ phase facts g
  have hTotal : Std.Total rel := ⟨fun f g => le_total _ _⟩
  have hTrans : IsTrans Fact rel := ⟨fun f g k hfg hgk => le_trans (b := phase facts g) hfg hgk⟩
  refine ⟨facts.insertionSort rel, List.perm_insertionSort rel facts, ?_⟩
  intro first fact rest hSplit old hOld hClash
  have hSorted := List.pairwise_insertionSort rel facts
  rw [hSplit, List.pairwise_append] at hSorted
  obtain ⟨-, hTail, hCross⟩ := hSorted
  have hEarlier : ∀ f ∈ first, phase facts f ≤ phase facts fact :=
    fun f hf => hCross f hf fact List.mem_cons_self
  have hMem : ∀ f, f ∈ facts ↔ f ∈ first ∨ f = fact ∨ f ∈ rest := by
    intro f
    rw [← (List.perm_insertionSort rel facts).mem_iff, hSplit]
    simp
  have hBefore : ∀ f ∈ facts, phase facts f < phase facts fact → f ∈ first := by
    intro f hf hlt
    rcases (hMem f).mp hf with hf | rfl | hf
    · exact hf
    · exact absurd hlt (lt_irrefl _)
    · exact absurd (List.rel_of_pairwise_cons hTail hf) (not_le.mpr hlt)
  have hFact : fact ∈ facts := (hMem fact).mpr (Or.inr (Or.inl rfl))
  have hOldMem : old ∈ facts := (hMem old).mpr (Or.inl hOld.1)
  obtain ⟨m, hm, hmId⟩ := h.kept_exists hFact
  have hmOld : m.id = old.id := hmId.trans hClash.1.symm
  have hOwn : ∀ m', Kept facts m' → m'.id = m.id → m' = m := fun m' hm' => hm'.unique hm
  -- The shield of `m`, once it has arrived, is what `first` keeps of this id.
  have hShield : ∀ b, shield facts m = some b → b ∈ first → old = b ∨ Below old b := by
    intro b hb hbFirst
    have hbId := (shield_spec hb).2.1.1
    exact (hOld.2 b hbFirst (hbId.symm.trans hmOld)).imp Eq.symm id
  have hNotClashing : Clash m old → ∀ b, shield facts m = some b → b ∉ first := by
    intro hmc b hb hbFirst
    obtain ⟨b', hb', hRival, hBelow⟩ := h.shield_below hm hOldMem hmc
    obtain rfl : b = b' := Option.mem_unique hb hb'
    rcases hShield b hb hbFirst with rfl | hOldBelow
    · exact hBelow.asymm hBelow
    · exact hBelow.asymm hOldBelow
  rcases phase_cases facts fact with ⟨hPhase, m', hm', hShield'⟩ | ⟨hPhase, m', hm', hmClash⟩ |
    ⟨hPhase, hKept⟩ | ⟨hPhase, hNot, hNoClash⟩
  · obtain rfl := hOwn m' hm' ((shield_spec hShield').2.1.1.trans hmId.symm)
    have hZero : phase facts old = 0 := by
      have := hEarlier old hOld.1
      omega
    rcases phase_cases facts old with ⟨-, m₂, hm₂, hShield₂⟩ | ⟨hp, -⟩ | ⟨hp, -⟩ | ⟨hp, -⟩
    · obtain rfl := hOwn m₂ hm₂ ((shield_spec hShield₂).2.1.1.trans hmOld.symm)
      exact hClash.2.1 (Option.mem_unique hShield₂ hShield')
    all_goals omega
  · obtain rfl := hOwn m' hm' (hmClash.1.trans hmId.symm)
    obtain ⟨b, hb, hRival, hBelow⟩ := h.shield_below hm hFact hmClash
    have hbFirst : b ∈ first :=
      hBefore b (shield_spec hb).1 (by rw [phase_shield hm hb]; omega)
    rcases phase_cases facts old with ⟨-, m₂, hm₂, hShield₂⟩ | ⟨-, m₂, hm₂, hmc⟩ | ⟨hp, -⟩ | ⟨hp, -⟩
    · obtain rfl := hOwn m₂ hm₂ ((shield_spec hShield₂).2.1.1.trans hmOld.symm)
      obtain rfl : old = b := Option.mem_unique hShield₂ hb
      exact hRival.symm.not_clash hClash
    · obtain rfl := hOwn m₂ hm₂ (hmc.1.trans hmOld.symm)
      exact hNotClashing hmc b hb hbFirst
    all_goals
      have := hEarlier old hOld.1
      omega
  · obtain rfl := hOwn fact hKept hmId.symm
    rcases phase_cases facts old with ⟨-, m₂, hm₂, hShield₂⟩ | ⟨-, m₂, hm₂, hmc⟩ | ⟨-, hOldKept⟩ |
      ⟨hp, -⟩
    · obtain rfl := hOwn m₂ hm₂ ((shield_spec hShield₂).2.1.1.trans hClash.1)
      exact (shield_spec hShield₂).2.1.symm.not_clash hClash
    · obtain rfl := hOwn m₂ hm₂ (hmc.1.trans hClash.1)
      obtain ⟨b, hb, -, -⟩ := h.shield_below hm hOldMem hmc
      exact hNotClashing hmc b hb
        (hBefore b (shield_spec hb).1 (by rw [phase_shield hm hb]; omega))
    · exact hClash.2.1 (hOwn old hOldKept hClash.1)
    · have := hEarlier old hOld.1
      omega
  · have hmFirst : m ∈ first := hBefore m hm.1 (by have := phase_kept hm; omega)
    rcases hOld.2 m hmFirst hmOld with rfl | hBelow
    · exact hNoClash m hm hClash
    · rcases hm.2 old hOldMem hmOld.symm with rfl | hBelow'
      · exact hNoClash old hm hClash
      · exact hBelow.asymm hBelow'

/-- Two clashing copies raise when the merge reads them first. -/
theorem Clash.not_peaceful (h : Clash f g) (rest : List Fact) : ¬ Peaceful (f :: g :: rest) := by
  intro hPeaceful
  have hKept : Kept [f] f := ⟨by simp, fun k hk _ => Or.inl (List.mem_singleton.mp hk)⟩
  exact hPeaceful [f] g rest rfl f hKept h

/-- Two facts whose clash no order need meet are met in one order and not in another. -/
theorem Hidden.orders (hHidden : Hidden facts) (hf : f ∈ facts) (hg : g ∈ facts) (hClash : Clash f g) :
    ∃ loud quiet : List Fact, loud.Perm facts ∧ quiet.Perm facts ∧ ¬ Peaceful loud ∧ Peaceful quiet := by
  obtain ⟨quiet, hQuietPerm, hQuiet⟩ := hHidden.arrangement
  have hg' : g ∈ facts.erase f := (List.mem_erase_of_ne hClash.2.1.symm).mpr hg
  have hPerm : (f :: g :: (facts.erase f).erase g).Perm facts :=
    (((List.perm_cons_erase hg').symm).cons f).trans (List.perm_cons_erase hf).symm
  exact ⟨_, quiet, hPerm, hQuietPerm, hClash.not_peaceful _, hQuiet⟩

/-- An order that meets a clash is of facts that clash. -/
theorem clash_of_not_peaceful (h : ¬ Peaceful facts) : ∃ f ∈ facts, ∃ g ∈ facts, Clash f g := by
  unfold Peaceful at h
  push Not at h
  obtain ⟨first, fact, rest, rfl, old, hOld, hClash⟩ := h
  exact ⟨old, List.mem_append_left _ hOld.1, fact, by simp, hClash⟩

/-- Which collections of facts raise a conflict in every order or in none: the
ones in which a clash, if there is any, is exposed somewhere. -/
theorem conflict_order_independent_iff (host : Host) (facts : List Fact) :
    (∀ streams streams' : List (List Fact), streams.flatten.Perm facts →
      streams'.flatten.Perm facts → RaisesConflict host streams → RaisesConflict host streams') ↔
    ((∃ f ∈ facts, ∃ g ∈ facts, Clash f g) → ∃ f ∈ facts, ∃ g ∈ facts, Exposed facts f g) := by
  constructor
  · rintro hSame ⟨f, hf, g, hg, hClash⟩
    by_contra hNone
    have hHidden : Hidden facts := fun f hf g hg hExposed => hNone ⟨f, hf, g, hg, hExposed⟩
    obtain ⟨loud, quiet, hLoud, hQuiet, hMeets, hPeaceful⟩ := hHidden.orders hf hg hClash
    have hRaises := hSame [loud] [quiet] (by simpa using hLoud) (by simpa using hQuiet)
      (raisesConflict_iff.mpr (by simpa using hMeets))
    exact raisesConflict_iff.mp hRaises (by simpa using hPeaceful)
  · intro hExposed streams streams' hs hs' hRaises
    rw [raisesConflict_iff] at hRaises ⊢
    obtain ⟨old, hOld, fact, hFact, hClash⟩ := clash_of_not_peaceful hRaises
    obtain ⟨f, hf, g, hg, hfg⟩ := hExposed ⟨old, hs.subset hOld, fact, hs.subset hFact, hClash⟩
    exact hfg.not_peaceful hs'.subset (hs'.symm.subset hf) (hs'.symm.subset hg)

/-- One install's two differing copies of a source go unnoticed where another
install's copy is read first and lies between them. -/
theorem conflict_order_dependent :
    ¬ ∀ (host : Host) (streams streams' : List (List Fact)),
      streams.flatten.Perm streams'.flatten → RaisesConflict host streams →
        RaisesConflict host streams' := by
  intro h
  have hRaises : RaisesConflict bareHost
      [[sourceCopy "aaaa" 1, sourceCopy "aaaa" 3, sourceCopy "bbbb" 2]] := ⟨"source:1", by decide⟩
  have hQuiet : union bareHost [[sourceCopy "bbbb" 2, sourceCopy "aaaa" 3, sourceCopy "aaaa" 1]] =
      .ok [sourceCopy "aaaa" 1] := by decide
  obtain ⟨ident, hError⟩ := h bareHost _
    [[sourceCopy "bbbb" 2, sourceCopy "aaaa" 3, sourceCopy "aaaa" 1]] (by decide) hRaises
  rw [hQuiet] at hError
  cases hError

end Brnrd.Facts
