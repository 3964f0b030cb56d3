import Brnrd.Letters.Carry

/-! Which letters the facts behind a projection's cursors can change, that these
are the ones it selects, and that every other letter's carried entry is up to
date. -/
namespace Brnrd.Letters

open Python Facts Ledger Project

/-- A letter that one of some facts can change: the letter itself, one that
replies to it, one that cites it, or one whose source names it. -/
def Touched (facts rest : List Fact) (f : Fact) : Prop :=
  ∃ g ∈ rest, g.kind = "letter" ∧ (f.id = g.id ∨ Dict.get f.data "re" = .str g.id) ∨
    g.kind = "source" ∧ Dict.get f.data "cites" = .str g.id ∨
    g.kind = "blob" ∧ ∃ s ∈ facts, s.kind = "source" ∧ g.id ∈ s.after ∧ Dict.get f.data "cites" = .str s.id

variable {l more rest facts first : List Fact}

theorem Touched.mono {facts' rest' : List Fact} {f : Fact} (h : Touched facts rest f) (hFacts : facts ⊆ facts')
    (hRest : rest ⊆ rest') : Touched facts' rest' f := by
  obtain ⟨g, hg, hLetter | hSource | ⟨hBlob, s, hs, hNames⟩⟩ := h
  · exact ⟨g, hRest hg, .inl hLetter⟩
  · exact ⟨g, hRest hg, .inr (.inl hSource)⟩
  · exact ⟨g, hRest hg, .inr (.inr ⟨hBlob, s, hFacts hs, hNames⟩)⟩

/-- A letter of the facts themselves is touched by them. -/
theorem Touched.self {f : Fact} (hf : f ∈ rest) (hLetter : isLetter f) :
    Touched facts rest f :=
  ⟨f, hf, .inl ⟨of_decide_eq_true hLetter, .inl rfl⟩⟩

section Selection

variable {host : Host} {v : LedgerView}

theorem kindRows_drop (h : v.Indexed host) {first rest : List Fact} (hFacts : v.facts = first ++ rest) (kind : String) :
    (kindRows v kind).drop (first.filter fun f => f.kind = kind).length = rest.filter fun f => f.kind = kind := by
  rw [kindRows, h.byKind, hFacts, List.filter_append, List.drop_left]

variable {ident : String}

theorem mem_selects_letter (h : v.Lettered host) {g : Fact} (hg : g ∈ v.facts) (hKind : g.kind = "letter") :
    ident ∈ selects v "letter" g ↔
      ∃ f ∈ v.facts, isLetter f ∧ (f.id = g.id ∨ Dict.get f.data "re" = .str g.id) ∧ f.id = ident := by
  rw [selects, if_pos rfl, List.mem_cons, h.byReply]
  constructor
  · rintro (rfl | ⟨f, hf, hLetter, hRe, hId⟩)
    · exact ⟨g, hg, decide_eq_true hKind, .inl rfl, rfl⟩
    · exact ⟨f, hf, hLetter, .inr hRe, hId⟩
  · rintro ⟨f, hf, hLetter, hSelf | hRe, hId⟩
    · exact .inl (hId ▸ hSelf)
    · exact .inr ⟨f, hf, hLetter, hRe, hId⟩

theorem mem_selects_source (h : v.Lettered host) {g : Fact} : ident ∈ selects v "source" g ↔
    ∃ f ∈ v.facts, isLetter f ∧ Dict.get f.data "cites" = .str g.id ∧ f.id = ident := by
  rw [selects, if_neg (by decide), if_pos rfl, h.bySource]

theorem mem_selects_blob (h : v.Lettered host) {g : Fact} : ident ∈ selects v "blob" g ↔
    ∃ f ∈ v.facts, isLetter f ∧
      (∃ s ∈ v.facts, s.kind = "source" ∧ g.id ∈ s.after ∧ Dict.get f.data "cites" = .str s.id) ∧ f.id = ident := by
  rw [selects, if_neg (by decide), if_neg (by decide), List.mem_flatMap]
  constructor
  · rintro ⟨source, hSource, hIdent⟩
    obtain ⟨s, hs, hKind, hNames, rfl⟩ := (h.byBlob g.id source).mp hSource
    obtain ⟨f, hf, hLetter, hCites, hId⟩ := (h.bySource (.str s.id) ident).mp hIdent
    exact ⟨f, hf, hLetter, ⟨s, hs, hKind, hNames, hCites⟩, hId⟩
  · rintro ⟨f, hf, hLetter, ⟨s, hs, hKind, hNames, hCites⟩, hId⟩
    exact ⟨s.id, (h.byBlob g.id s.id).mpr ⟨s, hs, hKind, hNames, rfl⟩,
      (h.bySource (.str s.id) ident).mpr ⟨f, hf, hLetter, hCites, hId⟩⟩

/-- The letters selected are the ones that the facts behind the cursors touch. -/
theorem mem_selectedSince (h : v.Indexed host) (hLettered : v.Lettered host) {first rest : List Fact}
    (hFacts : v.facts = first ++ rest) :
    ident ∈ selectedSince v (countsOf first letterKinds) ↔
      ∃ f ∈ v.facts, isLetter f ∧ Touched v.facts rest f ∧ f.id = ident := by
  have hRest : ∀ g ∈ rest, g ∈ v.facts := fun g hg => hFacts ▸ List.mem_append_right _ hg
  have hZip : letterKinds.zip (countsOf first letterKinds) =
      [("letter", (first.filter fun f => f.kind = "letter").length),
        ("source", (first.filter fun f => f.kind = "source").length),
        ("blob", (first.filter fun f => f.kind = "blob").length)] := rfl
  rw [selectedSince, hZip]
  simp only [List.flatMap_cons, List.flatMap_nil, List.append_nil, kindRows_drop h hFacts, List.mem_append,
    List.mem_flatMap, List.mem_filter, decide_eq_true_eq]
  constructor
  · rintro (⟨g, ⟨hg, hKind⟩, hIdent⟩ | ⟨g, ⟨hg, hKind⟩, hIdent⟩ | ⟨g, ⟨hg, hKind⟩, hIdent⟩)
    · obtain ⟨f, hf, hLetter, hNames, hId⟩ := (mem_selects_letter hLettered (hRest g hg) hKind).mp hIdent
      exact ⟨f, hf, hLetter, ⟨g, hg, .inl ⟨hKind, hNames⟩⟩, hId⟩
    · obtain ⟨f, hf, hLetter, hCites, hId⟩ := (mem_selects_source hLettered).mp hIdent
      exact ⟨f, hf, hLetter, ⟨g, hg, .inr (.inl ⟨hKind, hCites⟩)⟩, hId⟩
    · obtain ⟨f, hf, hLetter, hNames, hId⟩ := (mem_selects_blob hLettered).mp hIdent
      exact ⟨f, hf, hLetter, ⟨g, hg, .inr (.inr ⟨hKind, hNames⟩)⟩, hId⟩
  · rintro ⟨f, hf, hLetter, ⟨g, hg, ⟨hKind, hNames⟩ | ⟨hKind, hCites⟩ | ⟨hKind, hNames⟩⟩, hId⟩
    · exact .inl ⟨g, ⟨hg, hKind⟩, (mem_selects_letter hLettered (hRest g hg) hKind).mpr ⟨f, hf, hLetter, hNames, hId⟩⟩
    · exact .inr (.inl ⟨g, ⟨hg, hKind⟩, (mem_selects_source hLettered).mpr ⟨f, hf, hLetter, hCites, hId⟩⟩)
    · exact .inr (.inr ⟨g, ⟨hg, hKind⟩, (mem_selects_blob hLettered).mpr ⟨f, hf, hLetter, hNames, hId⟩⟩)

theorem rawLetters_lookup (h : v.Indexed host) (hLettered : v.Lettered host) {f : Fact} :
    v.rawLetters.lookup ident = some f ↔ f ∈ v.facts ∧ isLetter f ∧ f.id = ident := by
  rw [hLettered.raw]
  constructor
  · intro hLast
    have hMem := List.mem_of_getLast? hLast
    simpa using hMem
  · rintro ⟨hf, hLetter, rfl⟩
    have hMem : f ∈ v.facts.filter fun g => isLetter g && g.id = f.id := by simp [hf, hLetter]
    obtain ⟨g, hg⟩ := Option.ne_none_iff_exists'.mp
      (mt List.getLast?_eq_none_iff.mp (List.ne_nil_of_mem hMem))
    have hG := List.mem_of_getLast? hg
    simp only [List.mem_filter, Bool.and_eq_true, decide_eq_true_eq] at hG
    rw [hg, eq_of_id h.ids hG.1 hf hG.2.2]

/-- The letters picked stand in the order of the view. -/
theorem pickLetters_eq (h : v.Indexed host) (hLettered : v.Lettered host) (selected : List String) :
    pickLetters v selected = v.facts.filter fun f => isLetter f && f.id ∈ selected := by
  refine sort_position h (List.Nodup.filterMap ?_ (List.nodup_dedup selected)) fun f => ?_
  · intro a b f ha hb
    exact ((rawLetters_lookup h hLettered).mp ha).2.2.symm.trans ((rawLetters_lookup h hLettered).mp hb).2.2
  · simp only [List.mem_filterMap, List.mem_dedup, rawLetters_lookup h hLettered, Bool.and_eq_true, decide_eq_true_eq]
    constructor
    · rintro ⟨ident, hIdent, hf, hLetter, rfl⟩
      exact ⟨hf, hLetter, hIdent⟩
    · rintro ⟨hf, hLetter, hIdent⟩
      exact ⟨f.id, hIdent, hf, hLetter, rfl⟩

theorem mem_rawLetters (h : v.Indexed host) (hLettered : v.Lettered host) :
    ident ∈ v.rawLetters.map Prod.fst ↔ ∃ f ∈ v.facts, isLetter f ∧ f.id = ident := by
  have hSome : ident ∈ v.rawLetters.map Prod.fst ↔ ∃ f, v.rawLetters.lookup ident = some f := by
    rw [← Option.isSome_iff_exists, List.lookup_isSome_iff]
    simp
  simp only [hSome, rawLetters_lookup h hLettered]

end Selection

variable {ι ν : Type} [DecidableEq ι]

/-- A projection's builder makes its entries letter by letter. -/
structure Projection.Entrywise (host : Host) (P : Projection ι ν)
    (entry : LedgerView → ι → Fact → Except Raised (Option ν)) (key : Fact → String) : Prop where
  whole : ∀ v i, v.Built host → P.build v i none = buildWith (entry v i) key (v.facts.filter isLetter)
  part : ∀ v i (p : Fact → Bool), v.Built host → P.build v i (some (v.facts.filter fun f => isLetter f && p f)) =
    buildWith (entry v i) key (v.facts.filter fun f => isLetter f && p f)
  letter : "letter" ∈ P.kinds

/-- New facts at the tail leave the entries of the letters they do not touch, or
of all letters where none of them is of a kind the projection depends on. -/
def Steady (P : Projection ι ν) (entry : LedgerView → ι → Fact → Except Raised (Option ν)) (v w : LedgerView)
    (more : List Fact) : Prop :=
  ∀ f ∈ v.facts, isLetter f →
    (w.noncanonicalLetters = false ∧ ¬Touched w.facts more f ∨ ∀ g ∈ more, g.kind ∉ P.kinds) →
    ∀ i, entry w i f = entry v i f

/-- The carried result is up to date for the letters that no fact behind the
cursors touches, and a cached one until a fact of the projection's kinds comes. -/
structure Carry.Sound (P : Projection ι ν) (entry : LedgerView → ι → Fact → Except Raised (Option ν))
    (v : LedgerView) (c : Carry ι ν) : Prop where
  prior : ∀ i cursors result, c.prior = some (i, cursors, result) → ∃ first rest, v.facts = first ++ rest ∧
    cursors = countsOf first letterKinds ∧ (v.noncanonicalLetters = false →
      (∀ f ∈ v.facts, isLetter f → ¬Touched v.facts rest f → entry v i f = .ok (result.lookup f.id)) ∧
      ∀ key, (∀ f ∈ v.facts, isLetter f → f.id ≠ key) → result.lookup key = none)
  cache : ∀ i revision result, c.cache.lookup i = some (revision, result) → ∃ first rest, v.facts = first ++ rest ∧
    revision = countsOf first P.kinds ∧ ((∀ f ∈ rest, f.kind ∉ P.kinds) → P.build v i none = .ok result)

variable {host : Host} {P : Projection ι ν} {entry : LedgerView → ι → Fact → Except Raised (Option ν)}
  {key : Fact → String} {v w : LedgerView} {c : Carry ι ν}

theorem Carry.Sound.start : (Carry.start : Carry ι ν).Sound P entry v where
  prior := nofun
  cache := nofun

/-- Entries that agree make the same dict. -/
theorem buildWith_congr {entry' entry'' : Fact → Except Raised (Option ν)} (h : ∀ f ∈ l, entry' f = entry'' f) :
    buildWith entry' key l = buildWith entry'' key l := by
  induction l using List.reverseRecOn with
  | nil => rfl
  | append_singleton l f ih =>
      have hPrior := ih fun g hg => h g (List.mem_append_left _ hg)
      unfold buildWith at hPrior ⊢
      rw [List.foldlM_append, List.foldlM_append, hPrior]
      simp only [List.foldlM_cons, List.foldlM_nil, enter, h f (by simp)]

/-- No fact of the projection's kinds has come, so the whole dict is the same. -/
theorem Projection.Entrywise.build_eq (hP : P.Entrywise host entry key) (hv : v.Built host) (hw : w.Built host)
    (hFacts : w.facts = v.facts ++ more) (hSteady : Steady P entry v w more) (hNone : ∀ g ∈ more, g.kind ∉ P.kinds) (i : ι) :
    P.build w i none = P.build v i none := by
  have hMore : more.filter isLetter = [] := by
    rw [List.filter_eq_nil_iff]
    intro g hg hLetter
    exact hNone g hg (of_decide_eq_true hLetter ▸ hP.letter)
  rw [hP.whole w i hw, hP.whole v i hv, hFacts, List.filter_append, hMore, List.append_nil]
  refine buildWith_congr fun f hf => ?_
  obtain ⟨hMem, hLetter⟩ := List.mem_filter.mp hf
  exact hSteady f hMem hLetter (.inr hNone) i

theorem Carry.Sound.extend (h : c.Sound P entry v) (hP : P.Entrywise host entry key) (hv : v.Built host) (hw : w.Built host)
    (hFacts : w.facts = v.facts ++ more) (hSteady : Steady P entry v w more)
    (hCanonical : w.noncanonicalLetters = false → v.noncanonicalLetters = false) : c.Sound P entry w where
  prior := by
    intro i cursors result hPrior
    obtain ⟨first, rest, hFirst, hCursors, hUpToDate⟩ := h.prior i cursors result hPrior
    refine ⟨first, rest ++ more, by rw [hFacts, hFirst, List.append_assoc], hCursors, fun hNamed => ?_⟩
    obtain ⟨hEntries, hOthers⟩ := hUpToDate (hCanonical hNamed)
    have hSub : v.facts ⊆ w.facts := hFacts ▸ List.subset_append_left _ _
    refine ⟨fun f hf hLetter hNot => ?_, fun key hKey => hOthers key fun f hf => hKey f (hSub hf)⟩
    have hMore : ¬Touched w.facts more f :=
      fun hTouched => hNot (hTouched.mono (List.Subset.refl _) (List.subset_append_right _ _))
    have hRest : ¬Touched v.facts rest f :=
      fun hTouched => hNot (hTouched.mono hSub (List.subset_append_left _ _))
    have hOld : f ∈ v.facts := by
      rcases List.mem_append.mp (hFacts ▸ hf) with hOld | hNew
      · exact hOld
      · exact absurd (Touched.self hNew hLetter) hMore
    rw [hSteady f hOld hLetter (.inl ⟨hNamed, hMore⟩) i]
    exact hEntries f hOld hLetter hRest
  cache := by
    intro i revision result hCache
    obtain ⟨first, rest, hFirst, hRevision, hResult⟩ := h.cache i revision result hCache
    refine ⟨first, rest ++ more, by rw [hFacts, hFirst, List.append_assoc], hRevision, fun hNone => ?_⟩
    rw [hP.build_eq hv hw hFacts hSteady (fun g hg => hNone g (List.mem_append_right _ hg))]
    exact hResult fun g hg => hNone g (List.mem_append_left _ hg)

theorem popAll_lookup (result : List (String × ν)) (selected : List String) (ident : String) :
    (popAll result selected).lookup ident = if ident ∈ selected then none else result.lookup ident := by
  induction result with
  | nil => simp [popAll]
  | cons item result ih =>
      obtain ⟨name, value⟩ := item
      unfold popAll at ih ⊢
      by_cases hName : name ∈ selected
      · rw [List.filter_cons_of_neg (by simp [hName]), ih, lookup_cons_if]
        by_cases hIdent : ident = name
        · simp [hIdent, hName]
        · simp [hIdent]
      · rw [List.filter_cons_of_pos (by simp [hName]), lookup_cons_if, ih, lookup_cons_if]
        by_cases hIdent : ident = name
        · simp [hIdent, hName]
        · simp [hIdent]

variable {entries : Fact → Except Raised (Option ν)}

/-- The entries of the letters built now, over the kept ones. -/
theorem same_of_parts {p : Fact → Bool} (hIds : (l.map Fact.id).Nodup) (hKeys : ∀ f ∈ l, key f = f.id)
    {kept : List (String × ν)} (hKept : ∀ f ∈ l, p f = false → entries f = .ok (kept.lookup f.id))
    (hPopped : ∀ k, (∀ f ∈ l, p f = false → f.id ≠ k) → kept.lookup k = none) :
    Same ((buildWith entries key (l.filter p)).map fun found => found ++ kept) (buildWith entries key l) := by
  have hSub : (l.filter p).Sublist l := List.filter_sublist
  have hPartIds := (hSub.map Fact.id).nodup hIds
  cases hFound : buildWith entries key (l.filter p) with
  | error e =>
      rw [buildWith_error (fun f hf hp => ⟨_, hKept f hf hp⟩) hFound]
      rfl
  | ok found =>
      obtain ⟨hPart, hNotPart⟩ := buildWith_lookup hPartIds (fun f hf => hKeys f (hSub.subset hf)) hFound
      have hEntries : ∀ f ∈ l, entries f = .ok ((found ++ kept).lookup f.id) := by
        intro f hf
        rw [List.lookup_append]
        cases hp : p f with
        | true =>
            have hGone : kept.lookup f.id = none :=
              hPopped f.id fun g hg hNot hId => by simp [eq_of_id hIds hg hf hId, hp] at hNot
            rw [hGone, Option.or_none]
            exact hPart f (List.mem_filter.mpr ⟨hf, hp⟩)
        | false =>
            have hMissing : found.lookup f.id = none := by
              refine hNotPart f.id fun g hg hId => ?_
              obtain ⟨hMem, hIn⟩ := List.mem_filter.mp hg
              rw [eq_of_id hIds hMem hf hId, hp] at hIn
              cases hIn
            rw [hMissing, Option.none_or]
            exact hKept f hf hp
      obtain ⟨all, hAll⟩ : ∃ r, buildWith entries key l = .ok r := buildWith_ok fun f hf => ⟨_, hEntries f hf⟩
      rw [hAll]
      obtain ⟨hWhole, hNotWhole⟩ := buildWith_lookup hIds hKeys hAll
      show ∀ k, (found ++ kept).lookup k = all.lookup k
      intro k
      by_cases hLetter : ∃ f ∈ l, f.id = k
      · obtain ⟨f, hf, rfl⟩ := hLetter
        exact Except.ok.inj ((hEntries f hf).symm.trans (hWhole f hf))
      · have hNot : ∀ f ∈ l, f.id ≠ k := fun f hf hId => hLetter ⟨f, hf, hId⟩
        rw [List.lookup_append, hNotPart k (fun f hf => hNot f (hSub.subset hf)),
          hPopped k (fun f hf _ => hNot f hf), hNotWhole k hNot]
        rfl

/-- A builder that returns makes an up-to-date result. -/
theorem upToDate_of_same (hIds : (l.map Fact.id).Nodup) (hKeys : ∀ f ∈ l, key f = f.id) {result : List (String × ν)}
    (h : Same (.ok result) (buildWith entries key l)) :
    (∀ f ∈ l, entries f = .ok (result.lookup f.id)) ∧ ∀ k, (∀ f ∈ l, f.id ≠ k) → result.lookup k = none := by
  cases hAll : buildWith entries key l with
  | error e =>
      rw [hAll] at h
      exact h.elim
  | ok all =>
      rw [hAll] at h
      have hEq : ∀ k, result.lookup k = all.lookup k := h
      obtain ⟨hWhole, hNotWhole⟩ := buildWith_lookup hIds hKeys hAll
      exact ⟨fun f hf => by rw [hEq]; exact hWhole f hf, fun k hk => by rw [hEq]; exact hNotWhole k hk⟩

/-- What the cursors say of a letter that is not selected. -/
theorem not_touched (hv : v.Built host) (hLettered : v.Lettered host) (hFacts : v.facts = first ++ rest) {f : Fact}
    (hf : f ∈ v.facts) (hLetter : isLetter f) (hNot : f.id ∉ selectedSince v (countsOf first letterKinds)) :
    ¬Touched v.facts rest f :=
  fun hTouched => hNot ((mem_selectedSince hv.indexed hLettered hFacts).mpr ⟨f, hf, hLetter, hTouched, rfl⟩)

/-- No letter is touched where none of the cursors has moved. -/
theorem not_touched_of_counts (hFacts : v.facts = first ++ rest)
    (hCounts : countsOf first letterKinds = countsOf v.facts letterKinds) (f : Fact) : ¬Touched v.facts rest f := by
  have hNone := countsOf_append.mp ((congrArg (countsOf · letterKinds) hFacts).symm.trans hCounts.symm)
  rintro ⟨g, hg, ⟨hKind, -⟩ | ⟨hKind, -⟩ | ⟨hKind, -⟩⟩
  all_goals exact hNone g hg (by simp [hKind, letterKinds])

/-- The sound carry of a result that equals the whole build. -/
theorem Carry.Sound.built (h : c.Sound P entry v) (hP : P.Entrywise host entry key) (hv : v.Built host)
    (hKeys : ∀ f ∈ v.facts, isLetter f → key f = f.id) {i : ι} {result : List (String × ν)}
    (hSame : Same (.ok result) (P.build v i none)) :
    Carry.Sound P entry v { c with prior := some (i, counts v letterKinds, result) } where
  cache := h.cache
  prior := by
    rintro _ _ _ ⟨⟩
    refine ⟨v.facts, [], (List.append_nil _).symm, counts_eq hv.indexed letterKinds, fun _ => ?_⟩
    rw [hP.whole v i hv] at hSame
    obtain ⟨hEntries, hOthers⟩ := upToDate_of_same ((List.filter_sublist.map Fact.id).nodup hv.indexed.ids)
      (fun f hf => hKeys f (List.mem_filter.mp hf).1 (List.mem_filter.mp hf).2) hSame
    refine ⟨fun f hf hLetter _ => hEntries f (List.mem_filter.mpr ⟨hf, hLetter⟩), fun k hk => hOthers k fun f hf => ?_⟩
    exact hk f (List.mem_filter.mp hf).1 (List.mem_filter.mp hf).2

/-- Building the picked letters over what is kept of the others is the whole build. -/
theorem build_part (hP : P.Entrywise host entry key) (hv : v.Built host) (hLettered : v.Lettered host)
    (hKeys : ∀ f ∈ v.facts, isLetter f → key f = f.id) (selected : List String) (i : ι) (kept : List (String × ν))
    (hKept : ∀ f ∈ v.facts, isLetter f → f.id ∉ selected → entry v i f = .ok (kept.lookup f.id))
    (hPopped : ∀ k, (∀ f ∈ v.facts, isLetter f → f.id ∉ selected → f.id ≠ k) → kept.lookup k = none) :
    Same ((P.build v i (some (pickLetters v selected))).map fun found => found ++ kept) (P.build v i none) := by
  have hFilter : (v.facts.filter isLetter).filter (fun f => decide (f.id ∈ selected)) =
      v.facts.filter fun f => isLetter f && decide (f.id ∈ selected) := by
    rw [List.filter_filter]
    simp only [Bool.and_comm]
  rw [pickLetters_eq hv.indexed hLettered, hP.part v i _ hv, hP.whole v i hv, ← hFilter]
  refine same_of_parts ((List.filter_sublist.map Fact.id).nodup hv.indexed.ids) ?_ ?_ fun k hk => ?_
  · exact fun f hf => hKeys f (List.mem_filter.mp hf).1 (List.mem_filter.mp hf).2
  · intro f hf hNot
    exact hKept f (List.mem_filter.mp hf).1 (List.mem_filter.mp hf).2 (of_decide_eq_false hNot)
  · refine hPopped k fun f hf hLetter hNot => ?_
    exact hk f (List.mem_filter.mpr ⟨hf, hLetter⟩) (decide_eq_false hNot)

/-- A projection kept for its name and its inputs is the one built now. -/
theorem Carry.Sound.readAll (h : c.Sound P entry v) (hv : v.Built host) (i : ι) :
    Same (projectAll P v i c).2 (P.build v i none) ∧ (projectAll P v i c).1.Sound P entry v := by
  have hCounts := counts_eq hv.indexed P.kinds
  simp only [projectAll]
  cases hEntry : (c.cache.lookup i).filter fun cached => cached.1 = counts v P.kinds with
  | some cached =>
      obtain ⟨hCache, hNow⟩ := Option.filter_eq_some_iff.mp hEntry
      obtain ⟨first, rest, hFacts, hRevision, hResult⟩ := h.cache i cached.1 cached.2 hCache
      refine ⟨?_, h⟩
      have hSame : countsOf (first ++ rest) P.kinds = countsOf first P.kinds := by
        rw [← hFacts, ← hCounts, ← of_decide_eq_true hNow, hRevision]
      rw [hResult (countsOf_append.mp hSame)]
      exact .refl _
  | none =>
      cases hBuild : P.build v i none with
      | error e => exact ⟨.refl _, h⟩
      | ok result =>
          refine ⟨.refl _, h.prior, fun i' revision made hLookup => ?_⟩
          rw [lookup_cons_if] at hLookup
          split at hLookup
          · next hInputs =>
              obtain ⟨rfl, rfl⟩ := Prod.mk.inj (Option.some.inj hLookup)
              exact ⟨v.facts, [], (List.append_nil _).symm, hCounts, fun _ => hInputs ▸ hBuild⟩
          · exact h.cache i' revision made hLookup

/-- What `project_letters` returns is the whole build, and what it leaves is sound. -/
theorem Carry.Sound.read (h : c.Sound P entry v) (hP : P.Entrywise host entry key) (hv : v.Built host)
    (hLettered : v.Lettered host)
    (hKeys : v.noncanonicalLetters = false → ∀ f ∈ v.facts, isLetter f → key f = f.id) (i : ι) :
    Same (projectLetters P v i c).2 (P.build v i none) ∧ (projectLetters P v i c).1.Sound P entry v := by
  have hCounts := counts_eq hv.indexed letterKinds
  simp only [projectLetters]
  cases hNamed : v.noncanonicalLetters with
  | true => exact h.readAll hv i
  | false =>
      have hKeys := hKeys hNamed
      simp only [Bool.false_eq_true, if_false]
      cases hEntry : c.prior.filter fun prior => prior.1 = i with
      | none =>
          have hSame := build_part hP hv hLettered hKeys (v.rawLetters.map Prod.fst) i [] ?_ (fun _ _ => rfl)
          · cases hBuild : P.build v i (some (pickLetters v (v.rawLetters.map Prod.fst))) with
            | error e => exact ⟨by simpa [hBuild, Except.map] using hSame, h⟩
            | ok found =>
                have hFound : Same (.ok found) (P.build v i none) := by simpa [hBuild, Except.map] using hSame
                exact ⟨hFound, h.built hP hv hKeys hFound⟩
          · intro f hf hLetter hNot
            exact absurd ((mem_rawLetters hv.indexed hLettered).mpr ⟨f, hf, hLetter, rfl⟩) hNot
      | some prior =>
          obtain ⟨hPrior, hInputs⟩ := Option.filter_eq_some_iff.mp hEntry
          obtain ⟨i', cursors, result⟩ := prior
          obtain rfl : i' = i := of_decide_eq_true hInputs
          obtain ⟨first, rest, hFacts, hCursors, hUpToDate⟩ := h.prior i' cursors result hPrior
          obtain ⟨hEntries, hOthers⟩ := hUpToDate hNamed
          by_cases hNow : cursors = counts v letterKinds
          · simp only [hNow, if_true]
            have hNone := not_touched_of_counts hFacts (hCursors.symm.trans (hNow.trans hCounts))
            refine ⟨?_, h⟩
            have hSame := build_part hP hv hLettered hKeys [] i' result
              (fun f hf hLetter _ => hEntries f hf hLetter (hNone f))
              (fun k hk => hOthers k fun f hf hLetter => hk f hf hLetter List.not_mem_nil)
            have hEmpty : P.build v i' (some (pickLetters v [])) = .ok [] := by
              have hNoLetters : (v.facts.filter fun f => isLetter f && decide (f.id ∈ ([] : List String))) = [] := by simp
              rw [pickLetters_eq hv.indexed hLettered, hP.part v i' _ hv, hNoLetters]
              rfl
            rw [hEmpty] at hSame
            exact hSame
          · simp only [hNow, if_false]
            have hKept : ∀ f ∈ v.facts, isLetter f → f.id ∉ selectedSince v cursors →
                entry v i' f = .ok ((popAll result (selectedSince v cursors)).lookup f.id) := by
              intro f hf hLetter hNot
              rw [popAll_lookup, if_neg hNot]
              exact hEntries f hf hLetter (not_touched hv hLettered hFacts hf hLetter (hCursors ▸ hNot))
            have hPopped : ∀ k, (∀ f ∈ v.facts, isLetter f → f.id ∉ selectedSince v cursors → f.id ≠ k) →
                (popAll result (selectedSince v cursors)).lookup k = none := by
              intro k hk
              rw [popAll_lookup]
              split
              · rfl
              · next hNot => exact hOthers k fun f hf hLetter hId => hk f hf hLetter (hId ▸ hNot) hId
            have hSame := build_part hP hv hLettered hKeys (selectedSince v cursors) i' _ hKept hPopped
            cases hBuild : P.build v i' (some (pickLetters v (selectedSince v cursors))) with
            | ok found =>
                have hFound : Same (.ok (found ++ popAll result (selectedSince v cursors))) (P.build v i' none) := by
                  simpa [hBuild, Except.map] using hSame
                exact ⟨hFound, h.built hP hv hKeys hFound⟩
            | error e =>
                -- The dict stays popped under the old cursors.
                refine ⟨by simpa [hBuild, Except.map] using hSame, ?_, h.cache⟩
                rintro _ _ _ ⟨⟩
                refine ⟨first, rest, hFacts, hCursors, fun _ => ⟨fun f hf hLetter hNot => ?_, fun k hk => ?_⟩⟩
                · refine hKept f hf hLetter fun hIn => hNot ?_
                  rw [hCursors, mem_selectedSince hv.indexed hLettered hFacts] at hIn
                  obtain ⟨g, hg, -, hTouched, hId⟩ := hIn
                  exact eq_of_id hv.indexed.ids hg hf hId ▸ hTouched
                · exact hPopped k fun f hf hLetter _ => hk f hf hLetter

end Brnrd.Letters
