import Brnrd.Facts.Drain

/-! What a union that does not raise returns, as a property of the facts alone:
the kept copy of each id, in priority order. Replicas that hold the same facts
therefore read the same ledger. -/
namespace Brnrd.Facts

open Python LinearExtension

variable {l byId facts : List Fact} {host : Host}

theorem heappush_fold {ready ready' : List (Key × Fact)} (h : l.foldlM (heappush host) ready = .ok ready') :
    ready' = ready ++ l.map (fun f => (orderKey host f, f)) ∧
      ∀ f ∈ l, order host f = .ok (orderKey host f) := by
  induction l generalizing ready with
  | nil =>
      obtain rfl : ready = ready' := by simpa [pure, Except.pure] using h
      simp
  | cons f l ih =>
      rw [List.foldlM_cons] at h
      obtain ⟨m, hPush, hRest⟩ := Fallible.peel h
      obtain ⟨key, hKey, hEq⟩ := Fallible.peel hPush
      obtain rfl := Except.ok.inj hEq
      obtain ⟨rfl, hAll⟩ := ih hRest
      obtain rfl := order_eq hKey
      refine ⟨by simp, fun g hg => ?_⟩
      rcases List.mem_cons.mp hg with rfl | hg
      · exact hKey
      · exact hAll g hg

theorem find_id (hIds : (byId.map Fact.id).Nodup) {f : Fact} (hf : f ∈ byId) :
    byId.find? (fun g => g.id = f.id) = some f := by
  cases hFind : byId.find? (fun g => g.id = f.id) with
  | none => exact absurd (List.find?_eq_none.mp hFind f hf) (by simp)
  | some g =>
      have hId : g.id = f.id := by simpa using List.find?_some hFind
      rw [eq_of_id hIds (List.mem_of_find?_eq_some hFind) hf hId]

theorem Drain.start_waits (hIds : (byId.map Fact.id).Nodup) {s : Drain} (h : Drain.start host byId = .ok s) :
    s.Waits host byId [] ∧ s.result = [] := by
  obtain ⟨ready, hReady, hEq⟩ := Fallible.peel h
  obtain rfl := Except.ok.inj hEq
  obtain ⟨rfl, hKeys⟩ := heappush_fold hReady
  refine ⟨⟨hIds, ?_, ?_, ?_, ?_⟩, rfl⟩
  · intro f hf
    simp [find_id hIds hf]
  · intro e
    simp only [List.nil_append, List.mem_map, List.mem_filter, List.count_nil, Nat.add_zero,
      decide_eq_true_eq]
    constructor
    · rintro ⟨f, ⟨hf, hZero⟩, rfl⟩
      exact ⟨hf, hKeys f (List.mem_filter.mpr ⟨hf, by simpa using hZero⟩), hZero⟩
    · rintro ⟨hf, hKey, hZero⟩
      exact ⟨e.2, ⟨hf, hZero⟩, Prod.ext (order_eq hKey).symm rfl⟩
  · intro f hf hZero
    exact ⟨_, hKeys f (List.mem_filter.mpr ⟨hf, by simpa using hZero⟩)⟩
  · rw [List.nil_append]
    exact ((hIds.of_map.filter _).map (fun f g hfg => (Prod.ext_iff.mp hfg).2))

/-- What `union` returns for `facts`. -/
structure Ledger (host : Host) (facts l : List Fact) : Prop where
  ids : (l.map Fact.id).Nodup
  mem : ∀ f, f ∈ l ↔ Kept facts f
  covers : ∀ g ∈ facts, ∃ f ∈ l, f.id = g.id
  ordered : PriorityOrder Before (orderKey host) l
  keyed : ∀ f ∈ l, order host f = .ok (orderKey host f)

variable {streams : List (List Fact)}

theorem unionWith_ledger {duplicates : List Fact} {out : List Fact × List Fact}
    (h : unionWith host streams duplicates = .ok out) :
    Ledger host streams.flatten out.1 := by
  obtain ⟨m, hMerge, h⟩ := Fallible.peel h
  obtain ⟨s, hStart, h⟩ := Fallible.peel h
  obtain ⟨l, hDrain, h⟩ := Fallible.peel h
  by_cases hLength : l.length = m.byId.length
  · rw [if_neg (by simpa using hLength)] at h
    obtain rfl := Except.ok.inj h
    have hm := merge_holds hMerge
    obtain ⟨hWaits, hResult⟩ := Drain.start_waits hm.nodup hStart
    obtain ⟨released, left, rfl, hPerm, hOrder, hKeys⟩ :=
      drain_order hm.nodup _ hWaits (List.Subset.refl _) (fun f hf _ _ _ => hf) hDrain
    rw [hResult, List.nil_append] at hLength ⊢
    have hLeft : left = [] := by
      have := hPerm.length_eq
      rw [List.length_append] at this
      exact List.length_eq_zero_iff.mp (by omega)
    subst hLeft
    rw [List.append_nil] at hPerm
    exact ⟨(hPerm.map Fact.id).nodup_iff.mp hm.nodup, fun f => hPerm.mem_iff.symm.trans (hm.mem f),
      fun g hg => (hm.covers g hg).imp fun f hf => ⟨hPerm.mem_iff.mp hf.1, hf.2⟩, hOrder rfl, hKeys⟩
  · rw [if_pos (by simpa using hLength)] at h
    cases h

theorem union_eq_ok : union host streams = .ok l ↔ ∃ displaced, unionWith host streams [] = .ok (l, displaced) := by
  unfold union
  cases h : unionWith host streams [] with
  | error e => simp [Except.map]
  | ok out =>
      simp only [Except.map, Except.ok.injEq]
      exact ⟨fun h => ⟨out.2, by rw [← h]⟩, fun ⟨_, h⟩ => by rw [h]⟩

theorem union_ledger (h : union host streams = .ok l) : Ledger host streams.flatten l := by
  obtain ⟨displaced, h⟩ := union_eq_ok.mp h
  exact unionWith_ledger h

theorem Ledger.same {facts' l' : List Fact} (h : Ledger host facts l) (h' : Ledger host facts' l')
    (hKept : ∀ f, Kept facts f ↔ Kept facts' f) : l = l' := by
  refine h.ordered.unique h'.ordered ?_
  rw [List.perm_ext_iff_of_nodup h.ids.of_map h'.ids.of_map]
  intro f
  rw [h.mem, h'.mem, hKept]

/-- The facts determine the ledger. -/
theorem Ledger.unique {facts' l' : List Fact} (h : Ledger host facts l) (h' : Ledger host facts' l')
    (hSame : ∀ f, f ∈ facts ↔ f ∈ facts') : l = l' :=
  h.same h' (Kept.congr hSame)

/-- A list that is already in priority order is its own ledger. -/
theorem Ledger.self (hIds : (l.map Fact.id).Nodup) (hOrder : PriorityOrder Before (orderKey host) l)
    (hKeys : ∀ f ∈ l, order host f = .ok (orderKey host f)) : Ledger host l l where
  ids := hIds
  mem := fun f => ⟨fun hf => ⟨hf, fun g hg hId => Or.inl (eq_of_id hIds hg hf hId)⟩, fun hf => hf.1⟩
  covers := fun g hg => ⟨g, hg, rfl⟩
  ordered := hOrder
  keyed := hKeys

/-- A fact stands after every present fact it names. -/
theorem Ledger.after {first second : List Fact} {f g : Fact} (h : Ledger host facts l) (hSplit : l = first ++ f :: second)
    (hg : g ∈ l) (hNamed : g.id ∈ f.after) : g ∈ first := by
  subst hSplit
  rcases List.mem_append.mp hg with hg | hg
  · exact hg
  · exact absurd hNamed (h.ordered.not_before hg)

/-- Two presentations of the same facts, neither of which raises, are one
list: each id once, as its lowest copy, after the predecessors that are
present, and by (clock or timestamp, writer, id) among the facts that were
ready together. -/
theorem union_replica_independent (host : Host) (streams streams' : List (List Fact))
    (l l' : List Fact) (hSame : ∀ f, (∃ s ∈ streams, f ∈ s) ↔ ∃ s ∈ streams', f ∈ s)
    (h : union host streams = .ok l) (h' : union host streams' = .ok l') :
    l = l' ∧ (l.map Fact.id).Nodup ∧
    (∀ s ∈ streams, ∀ g ∈ s, ∃ f ∈ l, f.id = g.id) ∧
    (∀ f ∈ l, (∃ s ∈ streams, f ∈ s) ∧
      ∀ s ∈ streams, ∀ g ∈ s, g.id = f.id → g ≠ f →
        ∃ a b, f.hlc = some a ∧ g.hlc = some b ∧ a < b) ∧
    (∀ first f second, l = first ++ f :: second →
      (∀ g ∈ l, g.id ∈ f.after → g ∈ first) ∧
      (∀ g ∈ second, (∀ k ∈ l, k.id ∈ g.after → k ∈ first) →
        ∃ a b, order host f = .ok a ∧ order host g = .ok b ∧ a < b)) := by
  have hl := union_ledger h
  have hl' := union_ledger h'
  refine ⟨hl.unique hl' (by simpa only [List.mem_flatten] using hSame), hl.ids, ?_, ?_, ?_⟩
  · intro s hs g hg
    exact hl.covers g (List.mem_flatten.mpr ⟨s, hs, hg⟩)
  · intro f hf
    obtain ⟨hMem, hLow⟩ := (hl.mem f).mp hf
    refine ⟨List.mem_flatten.mp hMem, fun s hs g hg hId hne => ?_⟩
    exact (hLow g (List.mem_flatten.mpr ⟨s, hs, hg⟩) hId).resolve_left hne
  · rintro first f second rfl
    refine ⟨fun g hg hNamed => hl.after rfl hg hNamed, fun g hg hReady => ?_⟩
    have hgMem : g ∈ first ++ f :: second := by simp [hg]
    have hfMem : f ∈ first ++ f :: second := by simp
    refine ⟨_, _, hl.keyed f hfMem, hl.keyed g hgMem, hl.ordered.key_lt hg ?_⟩
    intro k hk hkg
    have hFirst := hReady k (List.mem_append_right _ hk) hkg
    exact (List.nodup_append.mp hl.ids.of_map).2.2 k hFirst k hk rfl

/-- One source ingested by two installs, and a note that names it. -/
def sourceCopy (install : String) (ms : Int) : Fact :=
  ⟨"source", "loom:" ++ install, [], "", "source:1", version, some ⟨ms, 0, install⟩, []⟩

def noteOn (ident : String) (ms : Int) : Fact :=
  ⟨"note", "person:p-a", [], "", ident, version, some ⟨ms, 0, "aaaa"⟩, ["source:1"]⟩

def bareHost : Host where
  seconds := fun _ => none
  millis := fun _ => none
  repr := fun _ => ""
  loads := fun _ => none

theorem union_replica_independent_two_installs :
    union bareHost [[noteOn "n" 5], [sourceCopy "aaaa" 9, sourceCopy "bbbb" 7]] =
      union bareHost [[sourceCopy "bbbb" 7, sourceCopy "aaaa" 9, noteOn "n" 5], [noteOn "n" 5]] := by
  have h : union bareHost [[noteOn "n" 5], [sourceCopy "aaaa" 9, sourceCopy "bbbb" 7]] =
      .ok [sourceCopy "bbbb" 7, noteOn "n" 5] := by decide
  have h' : union bareHost [[sourceCopy "bbbb" 7, sourceCopy "aaaa" 9, noteOn "n" 5], [noteOn "n" 5]] =
      .ok [sourceCopy "bbbb" 7, noteOn "n" 5] := by decide
  have hSame := (union_replica_independent bareHost _ _ _ _ (by simp; tauto) h h').1
  rw [h, h', hSame]

end Brnrd.Facts
