import Brnrd.Ledger.ViewGrowth
import Brnrd.Wishes.Wish

/-! The wish table a process keeps over its view of the ledger, against the one
computed over the view: over every run of extensions and readings. -/
namespace Brnrd.Wishes

open Python Facts Ledger LinearExtension

/-- `dependencies["wishes"]`. -/
def dependencies : List String :=
  tableKinds ++ ["letter", "lease"]

/-- The rows of some kinds, merged in the order of the view. -/
def mergeKinds (v : LedgerView) (kinds : List String) : List Fact :=
  (kinds.flatMap (kindRows v)).insertionSort fun f g => position v f ≤ position v g

/-- A view with the two entries that `told` keeps on it: the merged rows of
`WISH_KINDS`, and the table, each under the counts it was made at. -/
structure Session where
  view : LedgerView
  merged : Option (List Nat × List Fact)
  table : Option (List Nat × List Wish)

/-- `kind_facts(view, *WISH_KINDS)`. -/
def Session.kindFacts (s : Session) : Session × List Fact :=
  let now := counts s.view wishKinds
  match s.merged.filter fun entry => entry.1 = now with
  | some (_, rows) => (s, rows)
  | none =>
      let rows := mergeKinds s.view wishKinds
      ({ s with merged := some (now, rows) }, rows)

/-- `told(view)`. -/
def Session.told (host : Host) (checkout : Checkout) (s : Session) : Session × Except WishError (List Wish) :=
  let revision := counts s.view dependencies
  match s.table.filter fun entry => entry.1 = revision with
  | some (_, table) => (s, .ok table)
  | none =>
      let (s, rows) := s.kindFacts
      match wishes host checkout rows with
      | .ok table => ({ s with table := some (revision, table) }, .ok table)
      | .error e => (s, .error e)

/-- `view.extend(facts)`: a replayed view keeps nothing. -/
def Session.extend (host : Host) (s : Session) (facts : List Fact) : Except ViewError Session := do
  let (u, delta, repair) ← s.view.incoming host facts
  let v ← u.apply host delta repair
  .ok (if repair ∧ delta ≠ [] then ⟨v, none, none⟩ else { s with view := v })

/-- `LedgerView()`. -/
def Session.start : Session :=
  ⟨LedgerView.empty, none, none⟩

/-- The sessions that runs reach whose extensions all meet `Meets`. -/
inductive Reach (host : Host) (checkout : Checkout) (Meets : Session → List Fact → Prop) : Session → Prop where
  | start : Reach host checkout Meets .start
  | extend {s s' : Session} {facts : List Fact} (prior : Reach host checkout Meets s) (hMeets : Meets s facts)
      (hExtend : s.extend host facts = .ok s') : Reach host checkout Meets s'
  | told {s : Session} (prior : Reach host checkout Meets s) : Reach host checkout Meets (s.told host checkout).1

/-- The rows of `WISH_KINDS`. -/
def wishRows (facts : List Fact) : List Fact :=
  facts.filter fun f => f.kind ∈ wishKinds

/-- A `loom.started` fact that goes to the view's tail brings a fact that the
table is known to depend on. -/
def Timely (host : Host) (s : Session) (facts : List Fact) : Prop :=
  ∀ u delta, s.view.incoming host facts = .ok (u, delta, false) →
    (∃ f ∈ delta, f.kind = "loom.started") → ∃ f ∈ delta, f.kind ∈ dependencies

/-- The view's order of the rows is the one that they have alone. -/
def OwnOrder (host : Host) (facts : List Fact) : Prop :=
  ∀ l, union host [facts] = .ok l → PriorityOrder Before (Facts.orderKey host) (wishRows l)

variable {host : Host}

/-- Merging the rows of the kinds gives the view's own order of them. -/
theorem mergeKinds_eq {v : LedgerView} (h : v.Indexed host) {kinds : List String} (hKinds : kinds.Nodup) :
    mergeKinds v kinds = v.facts.filter fun f => f.kind ∈ kinds := by
  unfold mergeKinds
  refine sort_position h ?_ fun f => ?_
  · rw [List.nodup_flatMap]
    refine ⟨fun kind _ => ?_, hKinds.imp ?_⟩
    · rw [kindRows, h.byKind]
      exact h.ids.of_map.filter _
    · intro a b hne f hfa hfb
      exact hne (((mem_kindRows h).mp hfa).2.symm.trans ((mem_kindRows h).mp hfb).2)
  · rw [List.mem_flatMap, decide_eq_true_eq]
    constructor
    · rintro ⟨kind, hKind, hf⟩
      obtain ⟨hMem, rfl⟩ := (mem_kindRows h).mp hf
      exact ⟨hMem, hKind⟩
    · rintro ⟨hMem, hKind⟩
      exact ⟨f.kind, hKind, (mem_kindRows h).mpr ⟨hMem, rfl⟩⟩

variable {facts : List Fact} {checkout : Checkout}

/-- The rows that stand in their own order need no other row to be ordered. -/
theorem wishes_wishRows (hIds : (facts.map Fact.id).Nodup) (hForward : Forward facts)
    (hKeyed : ∀ f ∈ facts, order host f = .ok (Facts.orderKey host f)) (hOrder : OwnOrder host facts) :
    wishes host checkout (wishRows facts) = wishes host checkout facts := by
  have hSub : (wishRows facts).Sublist facts := List.filter_sublist
  obtain ⟨l, hl⟩ := hForward.union_ok hIds hKeyed
  obtain ⟨rows, hRows⟩ := (hForward.sublist hSub).union_ok ((hSub.map Fact.id).nodup hIds)
    (fun f hf => hKeyed f (hSub.subset hf))
  have hLedger := union_ledger hl
  -- The rows of the union, in their own order, are the union of the rows.
  have hSelf : Ledger host (wishRows l) (wishRows l) := by
    have hRowsSub : (wishRows l).Sublist l := List.filter_sublist
    exact .self ((hRowsSub.map Fact.id).nodup hLedger.ids) (hOrder l hl)
      (fun f hf => hLedger.keyed f (hRowsSub.subset hf))
  have hFlat : [wishRows facts].flatten = wishRows facts := by simp
  have hRowsLedger := hFlat ▸ union_ledger hRows
  have hEq : rows = wishRows l := by
    refine hRowsLedger.unique hSelf fun f => ?_
    rw [wishRows, wishRows, List.mem_filter, List.mem_filter, mem_union_of_nodup hIds hl]
  unfold wishes
  rw [hRows, hl, hEq]
  exact wishTable_filter host checkout l

/-- Rows stand in their own order wherever every edge runs with the clocks. -/
theorem OwnOrder.of_clocks (hIds : (facts.map Fact.id).Nodup)
    (hClocks : ∀ f ∈ facts, ∀ g ∈ facts, Before f g → Facts.orderKey host f < Facts.orderKey host g) : OwnOrder host facts := by
  intro l hUnion
  have hMem : ∀ f, f ∈ l → f ∈ facts := fun f hf => (mem_union_of_nodup hIds hUnion).mp hf
  have hForward : ∀ f ∈ l, ∀ g ∈ l, Before f g → Facts.orderKey host f < Facts.orderKey host g :=
    fun f hf g hg => hClocks f (hMem f hf) g (hMem g hg)
  have hSub : (wishRows l).Sublist l := List.filter_sublist
  exact .of_sorted (((union_ledger hUnion).ordered.sorted hForward).sublist hSub)
    fun f hf g hg => hForward f (hSub.subset hf) g (hSub.subset hg)

/-- Each entry was made of the facts that the view listed then, and since then
no start has come without a fact that the table is known to depend on. -/
structure Session.Sound (host : Host) (checkout : Checkout) (s : Session) : Prop where
  built : s.view.Built host
  merged : ∀ prior rows, s.merged = some (prior, rows) → ∃ first rest, s.view.facts = first ++ rest ∧
    prior = countsOf first wishKinds ∧ rows = wishRows first
  table : ∀ prior table, s.table = some (prior, table) → ∃ first rest, s.view.facts = first ++ rest ∧
    prior = countsOf first dependencies ∧ wishes host checkout (wishRows first) = .ok table ∧
    ((∀ f ∈ rest, f.kind ∉ dependencies) → ∀ f ∈ rest, f.kind ≠ "loom.started")

theorem Session.Sound.start (host : Host) (checkout : Checkout) : Session.start.Sound host checkout where
  built := .empty host
  merged := nofun
  table := nofun

/-- Facts of other kinds add no rows. -/
theorem wishRows_append {first rest : List Fact} (hRest : ∀ f ∈ rest, f.kind ∉ wishKinds) :
    wishRows (first ++ rest) = wishRows first := by
  have hNone : wishRows rest = [] := by
    rw [wishRows, List.filter_eq_nil_iff]
    exact fun f hf => by simpa using hRest f hf
  rw [wishRows, List.filter_append]
  exact (congrArg _ hNone).trans (List.append_nil _)

variable {s : Session}

/-- The rows are the view's, however they come. -/
theorem Session.Sound.kindFacts (h : s.Sound host checkout) :
    s.kindFacts.2 = wishRows s.view.facts ∧ s.kindFacts.1.Sound host checkout ∧
      s.kindFacts.1.view = s.view ∧ s.kindFacts.1.table = s.table := by
  have hRows : mergeKinds s.view wishKinds = wishRows s.view.facts := mergeKinds_eq h.built.indexed (by decide)
  have hCounts := counts_eq h.built.indexed wishKinds
  simp only [Session.kindFacts]
  cases hEntry : s.merged.filter fun entry => entry.1 = counts s.view wishKinds with
  | some entry =>
      obtain ⟨hMerged, hNow⟩ := Option.filter_eq_some_iff.mp hEntry
      obtain ⟨first, rest, hFacts, hPrior, hFirst⟩ := h.merged entry.1 entry.2 hMerged
      refine ⟨?_, h, rfl, rfl⟩
      have hSame : countsOf (first ++ rest) wishKinds = countsOf first wishKinds := by
        rw [← hFacts, ← hCounts, ← of_decide_eq_true hNow, hPrior]
      show entry.2 = wishRows s.view.facts
      rw [hFacts, wishRows_append (countsOf_append.mp hSame), hFirst]
  | none =>
      refine ⟨hRows, ⟨h.built, ?_, h.table⟩, rfl, rfl⟩
      intro prior rows hSome
      obtain ⟨rfl, rfl⟩ := Prod.mk.inj (Option.some.inj hSome)
      exact ⟨s.view.facts, [], by simp, hCounts, hRows⟩

/-- What `told` answers is the table of the view's rows. -/
theorem Session.Sound.told (h : s.Sound host checkout) :
    (s.told host checkout).2 = wishes host checkout (wishRows s.view.facts) ∧
      (s.told host checkout).1.Sound host checkout := by
  have hCounts := counts_eq h.built.indexed dependencies
  simp only [Session.told]
  cases hEntry : s.table.filter fun entry => entry.1 = counts s.view dependencies with
  | some entry =>
      obtain ⟨hTable, hNow⟩ := Option.filter_eq_some_iff.mp hEntry
      obtain ⟨first, rest, hFacts, hPrior, hFirst, hStarts⟩ := h.table entry.1 entry.2 hTable
      refine ⟨?_, h⟩
      have hSame : countsOf (first ++ rest) dependencies = countsOf first dependencies := by
        rw [← hFacts, ← hCounts, ← of_decide_eq_true hNow, hPrior]
      have hNone := countsOf_append.mp hSame
      have hOther : ∀ f ∈ rest, f.kind ∉ wishKinds := by
        intro f hf hKind
        have hCases : f.kind ∈ dependencies ∨ f.kind = "loom.started" := by
          simp only [wishKinds, dependencies, List.mem_append, List.mem_cons, List.not_mem_nil] at hKind ⊢
          tauto
        rcases hCases with hDependency | hStart
        · exact hNone f hf hDependency
        · exact hStarts hNone f hf hStart
      show Except.ok entry.2 = _
      rw [hFacts, wishRows_append hOther, hFirst]
  | none =>
      obtain ⟨hRows, hSound, hView, hTable⟩ := h.kindFacts
      have hView' : s.kindFacts.1.view.facts = s.view.facts := by rw [hView]
      simp only
      rw [hRows]
      cases hWishes : wishes host checkout (wishRows s.view.facts) with
      | error e => exact ⟨rfl, hSound⟩
      | ok table =>
          refine ⟨rfl, hSound.built, hSound.merged, ?_⟩
          intro prior made hSome
          obtain ⟨rfl, rfl⟩ := Prod.mk.inj (Option.some.inj hSome)
          exact ⟨s.view.facts, [], by simp [hView'], hCounts, hWishes, fun _ f hf => absurd hf List.not_mem_nil⟩

theorem Session.Sound.extend {s' : Session} (h : s.Sound host checkout) (hTimely : Timely host s facts)
    (hExtend : s.extend host facts = .ok s') :
    s'.Sound host checkout := by
  obtain ⟨⟨u, delta, repair⟩, hIncoming, hRest⟩ := Fallible.peel hExtend
  obtain ⟨v, hApply, hEq⟩ := Fallible.peel hRest
  obtain rfl := Except.ok.inj hEq
  obtain ⟨hBuilt, hGrown⟩ := h.built.apply hIncoming hApply
  by_cases hReplay : repair = true ∧ delta ≠ []
  · rw [if_pos hReplay]
    exact ⟨hBuilt, nofun, nofun⟩
  · rw [if_neg hReplay]
    have hFacts : v.facts = s.view.facts ++ tailOf s.view delta := hGrown hReplay
    refine ⟨hBuilt, fun prior rows hSome => ?_, fun prior table hSome => ?_⟩
    · obtain ⟨first, rest, hFirst, hPrior, hRows⟩ := h.merged prior rows hSome
      exact ⟨first, rest ++ tailOf s.view delta, by simp [hFacts, hFirst], hPrior, hRows⟩
    · obtain ⟨first, rest, hFirst, hPrior, hTable, hStarts⟩ := h.table prior table hSome
      refine ⟨first, rest ++ tailOf s.view delta, by simp [hFacts, hFirst], hPrior, hTable, ?_⟩
      intro hNone f hf hStart
      rcases List.mem_append.mp hf with hf | hf
      · exact hStarts (fun g hg => hNone g (List.mem_append_left _ hg)) f hf hStart
      · have hDelta := (tailOf_sublist s.view delta).subset hf
        have hRepair : repair = false := by
          cases repair with
          | false => rfl
          | true => exact absurd ⟨rfl, List.ne_nil_of_mem hDelta⟩ hReplay
        obtain ⟨g, hg, hKind⟩ := hTimely u delta (hRepair ▸ hIncoming) ⟨f, hDelta, hStart⟩
        have hRenewal : isRenewal g = false := by
          have hNot : ∀ kind ∈ dependencies, kind ≠ "router.renewed" := by decide
          simpa [isRenewal] using hNot g.kind hKind
        exact hNone g (List.mem_append_right _ (mem_tailOf hg hRenewal)) hKind

theorem Reach.sound (h : Reach host checkout (Timely host) s) : s.Sound host checkout := by
  induction h with
  | start => exact .start host checkout
  | extend _ hMeets hExtend ih => exact ih.extend hMeets hExtend
  | told _ ih => exact ih.told.2

/-- In a run whose extensions bring no `loom.started` fact alone to the view's
tail, `told` answers what `wishes` computes over the view, wherever the rows of
the table's kinds stand in their own order. -/
theorem told_eq_wishes {host : Host} {checkout : Checkout} {s : Session} (h : Reach host checkout (Timely host) s)
    (hOrder : OwnOrder host s.view.facts) :
    (s.told host checkout).2 = wishes host checkout s.view.facts := by
  have hBuilt := h.sound.built
  rw [h.sound.told.1, wishes_wishRows hBuilt.indexed.ids hBuilt.forward hBuilt.keyed hOrder]

/-- A person's wish, the pull request that a strand brought for it, and the
start of a loom whose code holds the merge. -/
def personWish : Fact :=
  ⟨"wish", "person:p-a", [("from", .str "person"), ("line", .str "a"), ("thread", .str "t"), ("wish", .str "w-1")], "",
    "w-1", version, some ⟨1, 0, "aaaa"⟩, []⟩

def pullResult : Fact :=
  ⟨"wish.result", "strand:s-1", [("delivered", .bool false), ("kind", .str "pr"), ("ref", .str "7"),
    ("wish", .str "w-1")], "", "r-1", version, some ⟨2, 0, "aaaa"⟩, []⟩

def loomStart : Fact :=
  ⟨"loom.started", "loom:aaaa", [("commit", .str "c")], "", "l-1", version, some ⟨3, 0, "aaaa"⟩, []⟩

def mergedCheckout : Checkout where
  isRepo := true
  name := "brnrd"
  pull := fun _ => none
  isDigits := fun _ => true
  mergeLog := fun _ => [("m", 7)]

/-- The session after the batches, `told` after each. -/
def sessionAfter (batches : List (List Fact)) : Except ViewError Session :=
  batches.foldlM (fun s batch => (s.extend timedHost batch).map fun s => (s.told timedHost mergedCheckout).1) .start

theorem Reach.after {Meets : Session → List Fact → Prop} {batches : List (List Fact)}
    (hAfter : sessionAfter batches = .ok s)
    (hMeets : ∀ first batch rest, batches = first ++ batch :: rest → ∀ t, sessionAfter first = .ok t → Meets t batch) :
    Reach timedHost mergedCheckout Meets s := by
  induction batches using List.reverseRecOn generalizing s with
  | nil =>
      obtain rfl : Session.start = s := Except.ok.inj hAfter
      exact .start
  | append_singleton batches batch ih =>
      obtain ⟨t, hPrior, hLast⟩ := Fallible.foldlM_snoc.mp hAfter
      obtain ⟨t', hExtend, rfl⟩ := Fallible.map_eq_ok.mp hLast
      have hReach := ih hPrior fun first b rest hSplit => hMeets first b (rest ++ [batch]) (by simp [hSplit])
      exact .told (hReach.extend (hMeets batches batch [] rfl t hPrior) hExtend)

/-- What `incoming` takes of a batch after the others. -/
def deltaAfter (first : List (List Fact)) (batch : List Fact) : Except ViewError (List Fact) := do
  let s ← sessionAfter first
  let (_, delta, _) ← s.view.incoming timedHost batch
  .ok delta

theorem timely_of_delta {first : List (List Fact)} {batch delta : List Fact} {t : Session}
    (hDelta : deltaAfter first batch = .ok delta) (hTimely : ∃ f ∈ delta, f.kind ∈ dependencies)
    (hFirst : sessionAfter first = .ok t) : Timely timedHost t batch := by
  intro u taken hIncoming _
  obtain ⟨t', hFirst', hRest⟩ := Fallible.peel hDelta
  obtain rfl := Fallible.same hFirst hFirst'
  obtain ⟨came, hCame, hEq⟩ := Fallible.peel hRest
  obtain rfl := Fallible.same hIncoming hCame
  obtain rfl := Except.ok.inj hEq
  exact hTimely

theorem told_eq_wishes_started : ∃ s, sessionAfter [[personWish], [pullResult, loomStart]] = .ok s ∧
    (s.told timedHost mergedCheckout).2 = wishes timedHost mergedCheckout s.view.facts := by
  have hFacts : (sessionAfter [[personWish], [pullResult, loomStart]]).map (fun s => s.view.facts) =
      .ok [personWish, pullResult, loomStart] := by decide
  obtain ⟨s, hAfter, hView⟩ := Fallible.map_eq_ok.mp hFacts
  refine ⟨s, hAfter, told_eq_wishes (.after hAfter ?_) ?_⟩
  · intro first batch rest hSplit t hFirst
    obtain ⟨rfl, rfl⟩ | ⟨rfl, rfl⟩ := split_pair hSplit
    · exact timely_of_delta (by decide : deltaAfter [] [personWish] = .ok [personWish]) (by decide) hFirst
    · exact timely_of_delta (by decide : deltaAfter [[personWish]] [pullResult, loomStart] =
        .ok [pullResult, loomStart]) (by decide) hFirst
  · rw [hView]
    exact .of_clocks (by decide) (by simp [Before, personWish, pullResult, loomStart])

/-- A start that comes alone leaves the wish undelivered in the kept table. -/
theorem told_stale : ∃ s, Reach timedHost mergedCheckout (fun _ _ => True) s ∧
    (s.told timedHost mergedCheckout).2 ≠ wishes timedHost mergedCheckout s.view.facts := by
  have hStale : (sessionAfter [[personWish, pullResult], [loomStart]]).map (fun s =>
      decide ((s.told timedHost mergedCheckout).2 = wishes timedHost mergedCheckout s.view.facts)) = .ok false := by
    decide
  obtain ⟨s, hAfter, hNot⟩ := Fallible.map_eq_ok.mp hStale
  exact ⟨s, .after hAfter fun _ _ _ _ _ _ => trivial, of_decide_eq_false hNot⟩

end Brnrd.Wishes
