import Brnrd.Wishes.Said

/-! What settles an owed wish: a left, a park, an ask or the question at a stop, no earlier than
its last move. -/
namespace Brnrd.Wishes

open Python Facts

variable {host : Host} {checkout : Checkout} {expired : String → Bool} {strand since thread : String} {ident : Value}
  {w w' v : Wish} {fact : Fact} {found found' : List Wish} {facts more : List Fact}

/-- Where a wish stands before anything is handed over or settled. -/
def quiet : List Value :=
  [.str "heard", .str "read", .str "scoped"]

theorem firstM_append {α : Type} {test : α → Except WishError Bool} {xs ys : List α} {found : Option α}
    (h : firstM test xs = .ok found) :
    firstM test (xs ++ ys) = found.elim (firstM test ys) fun x => .ok (some x) := by
  induction xs with
  | nil => exact Except.ok.inj h ▸ rfl
  | cons x xs ih =>
      rw [firstM] at h
      obtain ⟨passes, hPasses, h⟩ := Fallible.peel h
      rw [List.cons_append, firstM, hPasses, Fallible.ok_bind]
      split
      · rename_i hTrue
        rw [if_pos hTrue] at h
        exact Except.ok.inj h ▸ rfl
      · rename_i hFalse
        rw [if_neg hFalse] at h
        exact ih h

/-- The reads of a park say who wrote them. -/
theorem firstM_parks {parks : List Row} (h : ∀ read ∈ parks, Parks read) :
    ∃ found, firstM (fun row => do .ok ((← need row.data "by") = .str "person")) parks = .ok found := by
  induction parks with
  | nil => exact ⟨none, rfl⟩
  | cons read parks ih =>
      obtain ⟨⟨-, writer, hBy⟩, hRest⟩ := List.forall_mem_cons.mp h
      rw [firstM, need_eq_ok.mpr hBy, Fallible.ok_bind, Fallible.ok_bind]
      split
      · exact ⟨_, rfl⟩
      · exact ih hRest

/-- Where an akin wish stands. -/
theorem Akin.stateOf {state : Value} (h : Akin w w') (hState : stateOf expired w = .ok state) :
    ∃ state', stateOf expired w' = .ok state' ∧ (state' = state ∨ state ∈ quiet ∧ state' ∈ quiet) := by
  obtain ⟨lefts, parks, reading, at_, hParks, rfl⟩ := h
  unfold Wishes.stateOf at hState ⊢
  dsimp only
  split at hState
  · exact ⟨state, hState, .inl rfl⟩
  split at hState
  · rename_i hAnswer
    rw [if_pos hAnswer]
    exact ⟨state, hState, .inl rfl⟩
  rename_i hAnswer
  rw [if_neg hAnswer]
  obtain ⟨flags, hFlags, hState⟩ := Fallible.peel hState
  rw [hFlags, Fallible.ok_bind]
  dsimp only at hState ⊢
  by_cases hGiven : (((w.results.zip flags).filter Prod.snd).map fun item => item.1.at_).foldl max "" ≠ ""
  · rw [if_pos hGiven] at hState ⊢
    exact ⟨state, hState, .inl rfl⟩
  rw [if_neg hGiven] at hState ⊢
  by_cases hResults : w.results ≠ []
  · rw [if_pos hResults] at hState ⊢
    exact ⟨state, hState, .inl rfl⟩
  rw [if_neg hResults] at hState ⊢
  obtain ⟨first, hFirst, hState⟩ := Fallible.peel hState
  obtain ⟨last, hLast⟩ := firstM_parks hParks
  rw [firstM_append hFirst]
  cases first with
  | some row => exact ⟨state, hState, .inl rfl⟩
  | none =>
      have hOld : state ∈ quiet := by
        rw [← Except.ok.inj hState]
        split <;> simp [quiet]
      rw [Option.elim_none, hLast, Fallible.ok_bind]
      cases last with
      | some row => exact ⟨_, rfl, .inr ⟨hOld, by simp [quiet]⟩⟩
      | none => exact ⟨_, rfl, .inr ⟨hOld, by split <;> simp [quiet]⟩⟩

theorem quiet_open {state : Value} (h : state ∈ quiet) : state.hashable = true ∧ state ∉ shut ∧ state ≠ .str "delivered" := by
  simp only [quiet, List.mem_cons, List.not_mem_nil, or_false] at h
  rcases h with rfl | rfl | rfl <;> exact ⟨rfl, by decide, by decide⟩

theorem Akin.isOpen {verdict : Bool} (h : Akin w w') (hOpen : isOpen expired w = .ok verdict) :
    isOpen expired w' = .ok verdict := by
  obtain ⟨state, hState, hOpen⟩ := Fallible.peel hOpen
  obtain ⟨state', hState', hSame⟩ := h.stateOf hState
  unfold Wishes.isOpen
  rw [hState', Fallible.ok_bind]
  rcases hSame with rfl | ⟨hOld, hNew⟩
  · exact hOpen
  · rw [if_pos (quiet_open hOld).1] at hOpen
    rw [if_pos (quiet_open hNew).1, ← hOpen]
    simp [(quiet_open hOld).2.1, (quiet_open hNew).2.1]

variable (expired) in
theorem Asking.isOpen (h : Asking w) : ∃ verdict, isOpen expired w = .ok verdict := by
  have hState : ∃ state, stateOf expired w = .ok (.str state) := by
    unfold Wishes.stateOf
    rw [h.verdict, h.results]
    dsimp only
    split
    · exact ⟨_, rfl⟩
    obtain ⟨first, hFirst⟩ := firstM_parks h.reads
    simp only [List.mapM_nil, pure_bind, List.zip_nil_left, List.filter_nil, List.map_nil, List.foldl_nil, ne_eq,
      not_true_eq_false, if_false]
    rw [hFirst, Fallible.ok_bind]
    cases first with
    | some row => exact ⟨_, rfl⟩
    | none => exact ⟨_, rfl⟩
  obtain ⟨state, hState⟩ := hState
  exact ⟨_, by
    unfold Wishes.isOpen
    rw [hState, Fallible.ok_bind]
    rfl⟩

/-- The rows of a thread are those that were there. -/
theorem Grown.openRows {rows : List Wish} (h : Grown found found') (hRows : openRows expired found thread = .ok rows) :
    ∃ rows', openRows expired found' thread = .ok rows' ∧ List.Forall₂ Akin rows rows' := by
  obtain ⟨old, new, rfl, hOld, hNew⟩ := h
  obtain ⟨rows', hRows', hBoth⟩ := Fallible.keep_related (R := Akin) (fun w w' x hTwo hTest => by
    have hThread : w'.thread = w.thread := by
      obtain ⟨_, _, _, _, _, rfl⟩ := hTwo
      rfl
    rw [hThread]
    split at hTest
    · rename_i hOn
      obtain ⟨verdict, hVerdict, hIs⟩ := Fallible.map_eq_ok.mp hTest
      rw [if_pos hOn, hTwo.isOpen hVerdict, hTwo.sender]
      exact congrArg Except.ok hIs
    · rename_i hOff
      rw [if_neg hOff]
      exact hTest) hOld hRows
  refine ⟨rows' ++ [], Fallible.keep_append hRows' (Fallible.keep_none fun w hw => ?_), by simpa using hBoth⟩
  split
  · obtain ⟨verdict, hVerdict⟩ := (hNew w hw).isOpen expired
    rw [hVerdict, (hNew w hw).sender]
    cases verdict <;> rfl
  · rfl

theorem Parks.map_not {read : Row} (h : Parks read) : read.isPark.map not = .ok false := by
  rw [h.1]
  rfl

variable {moves : List (String × String)}

/-- A park is no move, and a left is none. -/
theorem Akin.counted {alone : Bool} (h : Akin w w') (hMoves : w.counted host expired strand since alone = .ok moves) :
    w'.counted host expired strand since alone = .ok moves := by
  obtain ⟨all, hAll, hMoves⟩ := Fallible.peel hMoves
  obtain ⟨state, hState, hMoves⟩ := Fallible.peel hMoves
  obtain ⟨state', hState', hSame⟩ := h.stateOf (Fallible.mapError_eq_ok.mp hState)
  obtain ⟨lefts, parks, reading, at_, hParks, rfl⟩ := h
  have hAll' : ({ w with lefts := w.lefts ++ lefts, reads := w.reads ++ parks, reading := reading, at_ := at_ } : Wish).moves
      host strand since alone = .ok all := by
    obtain ⟨waiting, hWaiting, hAll⟩ := Fallible.peel hAll
    obtain ⟨results, hResults, hAll⟩ := Fallible.peel hAll
    obtain ⟨named, hNamed, hAll⟩ := Fallible.peel hAll
    refine Fallible.bind_eq_ok.mpr ⟨waiting, hWaiting, Fallible.bind_eq_ok.mpr ⟨results, hResults,
      Fallible.bind_eq_ok.mpr ⟨named, ?_, hAll⟩⟩⟩
    dsimp only
    rw [List.filter_append, ← List.append_nil named]
    exact Fallible.keep_append hNamed (Fallible.keep_none fun read hRead =>
      (hParks read (List.mem_of_mem_filter hRead)).map_not)
  refine Fallible.bind_eq_ok.mpr ⟨all, hAll', Fallible.bind_eq_ok.mpr ⟨state', Fallible.mapError_eq_ok.mpr hState', ?_⟩⟩
  rcases hSame with rfl | ⟨hOld, hNew⟩
  · exact hMoves
  · rw [if_neg (quiet_open hOld).2.2] at hMoves
    rw [if_neg (quiet_open hNew).2.2]
    exact hMoves

variable {t : String}

/-- Where the parts of `answered` are read, it is the latest of them. -/
theorem answered_eq_ok : w.answered found = .ok t ↔ ∃ parks given,
    Fallible.keep Row.isPark w.reads = .ok parks ∧ Fallible.keep delivered w.results = .ok given ∧
      latestOf (w.lefts.map Left.at_ ++ parks.map Row.at_ ++ given.map (fun r => r.at_) ++
        (found.filter fun ask => ask.sender = .str "resident" && ask.parent = w.id).map Wish.born ++
        w.verdict.toList.map Row.at_) = t := by
  unfold Wish.answered
  rw [Fallible.bind_eq_ok]
  refine exists_congr fun parks => ?_
  rw [Fallible.bind_eq_ok]
  constructor
  · rintro ⟨hParks, given, hGiven, h⟩
    exact ⟨given, hParks, Fallible.mapError_eq_ok.mp hGiven, Except.ok.inj h⟩
  · rintro ⟨given, hParks, hGiven, rfl⟩
    exact ⟨hParks, given, Fallible.mapError_eq_ok.mpr hGiven, rfl⟩

/-- What was said of what is left stays said. -/
theorem Akin.answered (h : Akin w w') (hGrown : Grown found found') (ht : w.answered found = .ok t) :
    ∃ t', w'.answered found' = .ok t' ∧ t ≤ t' := by
  obtain ⟨parks₀, given, hParks₀, hGiven, rfl⟩ := answered_eq_ok.mp ht
  obtain ⟨lefts, parks, reading, at_, hParks, rfl⟩ := h
  obtain ⟨old, new, rfl, hOld, -⟩ := hGrown
  refine ⟨_, answered_eq_ok.mpr ⟨parks₀ ++ parks, given, Fallible.keep_append hParks₀
    (Fallible.keep_all fun read hRead => (hParks read hRead).1), hGiven, rfl⟩, ?_⟩
  refine latestOf_mono fun x hx => ?_
  have hAsk : x ∈ (found.filter fun ask => ask.sender = .str "resident" && ask.parent = w.id).map Wish.born →
      x ∈ ((old ++ new).filter fun ask => ask.sender = .str "resident" && ask.parent = w.id).map Wish.born := by
    intro hIn
    obtain ⟨ask, hAsk, rfl⟩ := List.mem_map.mp hIn
    obtain ⟨hFound, hOn⟩ := List.mem_filter.mp hAsk
    obtain ⟨ask', hAsk', hTwo⟩ := Related.forall₂_from hOld.flip hFound
    refine List.mem_map.mpr ⟨ask', List.mem_filter.mpr ⟨List.mem_append_left _ hAsk', ?_⟩, ?_⟩
    · obtain ⟨_, _, _, _, _, rfl⟩ := hTwo
      exact hOn
    · obtain ⟨_, _, _, _, _, rfl⟩ := hTwo
      rfl
  simp only [List.mem_append, List.map_append] at hx ⊢
  rcases hx with (((hx | hx) | hx) | hx) | hx
  · exact .inl (.inl (.inl (.inl (.inl hx))))
  · exact .inl (.inl (.inl (.inr (.inl hx))))
  · exact .inl (.inl (.inr hx))
  · have := hAsk hx
    rw [List.filter_append, List.map_append, List.mem_append] at this
    exact .inl (.inr (by simpa only [List.filter_append, List.map_append, List.mem_append] using this))
  · exact .inr hx

/-- What such a fact makes of a wish that is there. -/
theorem Says.wishStep {about : Value} {after : Option Wish} (hSays : Says strand since about fact)
    (hTable : fact.kind ∈ tableKinds) (hOld : fact.kind = "wish" → .str fact.id ≠ ident)
    (h : wishStep ident (some w) fact = .ok after) : ∃ w', after = some w' ∧ Akin w w' ∧ (About ident fact →
      (fact.kind = "wish.left" → ∃ left ∈ w'.lefts, left.at_ = fact.at_) ∧
        (fact.kind = "wish.read" → ∃ read ∈ w'.reads, Parks read ∧ read.at_ = fact.at_)) := by
  rcases wishStep_eq_ok h with ⟨hNot, rfl⟩ | ⟨hOn, hKind, -⟩ | ⟨-, -, hNone, -⟩ | ⟨-, hKind, _, w', hWas, hTouched, rfl⟩
  · exact ⟨w, rfl, .refl w, fun hOn => absurd hOn hNot⟩
  · -- An ask is a new wish, and this one is there.
    cases hSays with
    | left hIs | park hIs | asked hIs => rw [hIs] at hKind; simp at hKind
    | ask hIs hOwn => exact absurd (Option.mem_unique hOwn hOn) (hOld hKind)
  · cases hNone
  · obtain rfl := Option.some.inj hWas
    cases hSays with
    | left hIs =>
        obtain ⟨hTwo, hLeft⟩ := touched_left hIs hTouched
        exact ⟨w', rfl, hTwo, fun _ => ⟨fun _ => hLeft, fun hRead => by rw [hIs] at hRead; simp at hRead⟩⟩
    | park hIs _ _ _ hReading hWaiting hBy =>
        obtain ⟨hTwo, hPark⟩ := touched_park hIs hReading hWaiting hBy hTouched
        exact ⟨w', rfl, hTwo, fun _ => ⟨fun hLeft => by rw [hIs] at hLeft; simp at hLeft, fun _ => hPark⟩⟩
    | ask hIs => exact absurd hIs hKind
    | asked hIs => rw [hIs] at hTable; simp [tableKinds] at hTable

variable {known : List Value}

/-- The wish that a left or a park is about has it, whatever else is said afterwards. -/
theorem Brings.told (hBrings : Brings strand since known more) (hTable : ∀ f ∈ more, f.kind ∈ tableKinds)
    (hKnown : ident ∈ known) (h : more.foldlM (Wishes.wishStep ident) (some v) = .ok (some w)) (hIn : fact ∈ more)
    (hAbout : About ident fact) :
    (fact.kind = "wish.left" → ∃ left ∈ w.lefts, left.at_ = fact.at_) ∧
      (fact.kind = "wish.read" → ∃ read ∈ w.reads, Parks read ∧ read.at_ = fact.at_) := by
  have hRun := Fallible.foldlM_invariant (fun read st => read <+: more → ∃ u, st = some u ∧
      ∀ g ∈ read, About ident g → (g.kind = "wish.left" → ∃ left ∈ u.lefts, left.at_ = g.at_) ∧
        (g.kind = "wish.read" → ∃ row ∈ u.reads, Parks row ∧ row.at_ = g.at_))
    (fun _ => ⟨v, rfl, fun _ h => (List.not_mem_nil h).elim⟩) ?_ h
  · obtain ⟨u, hu, hAll⟩ := hRun List.prefix_rfl
    obtain rfl := Option.some.inj hu
    exact hAll fact hIn hAbout
  intro read g before after hBefore hStep hMore
  obtain ⟨u, rfl, hAll⟩ := hBefore ((List.prefix_append read [g]).trans hMore)
  have hg : g ∈ more := hMore.subset (by simp)
  obtain ⟨about, hSays⟩ := hBrings.tells g hg
  obtain ⟨u', rfl, hTwo, hNow⟩ := hSays.wishStep (hTable g hg)
    (fun hKind hIs => hBrings.fresh g hg hKind (hIs ▸ hKnown)) hStep
  refine ⟨u', rfl, fun f hf hOn => ?_⟩
  rcases List.mem_append.mp hf with hOld | hNew
  · obtain ⟨lefts, parks, reading, at_, hParks, rfl⟩ := hTwo
    obtain ⟨hLeft, hRead⟩ := hAll f hOld hOn
    exact ⟨fun hKind => (hLeft hKind).imp fun _ h => ⟨List.mem_append_left _ h.1, h.2⟩,
      fun hKind => (hRead hKind).imp fun _ h => ⟨List.mem_append_left _ h.1, h.2⟩⟩
  · obtain rfl := List.mem_singleton.mp hNew
    exact hNow hOn

/-- The wish that is an ask, whatever else is said before and afterwards. -/
theorem Brings.asks {st : Option Wish} (hBrings : Brings strand since known more) (hTable : ∀ f ∈ more, f.kind ∈ tableKinds)
    (h : more.foldlM (Wishes.wishStep (.str fact.id)) none = .ok st) (hIn : fact ∈ more) (hKind : fact.kind = "wish") :
    ∃ w, st = some w ∧ w.sender = .str "resident" ∧ w.born = fact.at_ ∧
      w.parent = (Dict.get fact.data "parent").orElse (.str "") := by
  have hOwn : ∀ g ∈ more, g.kind = "wish" → About (.str g.id) g ∧ g.data.lookup "from" = some (.str "resident") := by
    intro g hg hIs
    obtain ⟨about, hSays⟩ := hBrings.tells g hg
    cases hSays with
    | left hOther | park hOther | asked hOther => rw [hOther] at hIs; simp at hIs
    | ask _ hNew hFrom => exact ⟨hNew, hFrom⟩
  have hRun := Fallible.foldlM_invariant (fun read st => read <+: more → fact ∉ read ∧ st = none ∨ fact ∈ read ∧
      ∃ w, st = some w ∧ w.sender = .str "resident" ∧ w.born = fact.at_ ∧
        w.parent = (Dict.get fact.data "parent").orElse (.str ""))
    (fun _ => .inl ⟨List.not_mem_nil, rfl⟩) ?_ h
  · rcases hRun List.prefix_rfl with ⟨hNot, -⟩ | ⟨-, hThere⟩
    · exact absurd hIn hNot
    · exact hThere
  intro read g before after hBefore hStep hMore
  have hg : g ∈ more := hMore.subset (by simp)
  have hNodup : ((read ++ [g]).map Fact.id).Nodup := hBrings.distinct.sublist (hMore.sublist.map _)
  obtain ⟨about, hSays⟩ := hBrings.tells g hg
  rcases hBefore ((List.prefix_append read [g]).trans hMore) with ⟨hNot, rfl⟩ | ⟨hRead, u, rfl, hSender, hBorn, hParent⟩
  · rcases wishStep_eq_ok hStep with ⟨hOff, rfl⟩ | ⟨hOn, hIs, w', hTold, rfl⟩ | ⟨-, hIs, -, rfl⟩ | ⟨-, -, _, _, hSome, -⟩
    · refine .inl ⟨fun hHere => ?_, rfl⟩
      rcases List.mem_append.mp hHere with hOld | hNew
      · exact hNot hOld
      · exact hOff (List.mem_singleton.mp hNew ▸ (hOwn fact hIn hKind).1)
    · obtain ⟨hNew, hFrom⟩ := hOwn g hg hIs
      have hId : g.id = fact.id := Value.str.inj (Option.mem_unique hNew hOn)
      obtain rfl : g = fact := List.inj_on_of_nodup_map hBrings.distinct hg hIn hId
      obtain ⟨hAsking, hBorn, hParent⟩ := told_ask hFrom hTold
      exact .inr ⟨by simp, w', rfl, hAsking.sender, hBorn, hParent⟩
    · refine .inl ⟨fun hHere => ?_, rfl⟩
      rcases List.mem_append.mp hHere with hOld | hNew
      · exact hNot hOld
      · exact hIs (List.mem_singleton.mp hNew ▸ hKind)
    · cases hSome
  · have hOther : g.kind = "wish" → .str g.id ≠ Value.str fact.id := fun _ hSame => by
      rw [List.map_append] at hNodup
      exact (List.disjoint_of_nodup_append hNodup) (List.mem_map_of_mem hRead) (by simp [Value.str.inj hSame])
    obtain ⟨u', rfl, hTwo, -⟩ := hSays.wishStep (hTable g hg) hOther hStep
    obtain ⟨_, _, _, _, _, rfl⟩ := hTwo
    exact .inr ⟨List.mem_append_left _ hRead, _, rfl, hSender, hBorn, hParent⟩

variable {asked : List (Value × String)}

/-- What is said of a wish counts in the times at which it was last said. -/
theorem Says.counts (hSays : Says strand since ident fact) (h : wishTable host checkout facts = .ok found)
    (h' : wishTable host checkout (facts ++ more) = .ok found') (hBrings : Brings strand since (ids found) more)
    (hIn : fact ∈ more) (hKnown : ident ∈ ids found) (hw : w ∈ found') (hId : w.id = ident) (ht : w.answered found' = .ok t)
    (hAsked : askedAbout strand since (facts ++ more) = .ok asked) :
    fact.at_ ≤ max t (askedAt asked ident) := by
  obtain ⟨folded, folded', hFinished, hFinished', hMore⟩ := wishTable_more h h'
  have hFolded : ids folded = ids found := (ids_forall₂ (fun _ _ => Finished.id) hFinished).symm
  have hTable : ∀ f ∈ more.filter fun f => f.kind ∈ tableKinds, f.kind ∈ tableKinds :=
    fun f hf => of_decide_eq_true (List.mem_filter.mp hf).2
  obtain ⟨parks, given, hParks, -, rfl⟩ := answered_eq_ok.mp ht
  have hLatest : ∀ {times : List String}, fact.at_ ∈ times → fact.at_ ≤ latestOf times := fun hx => latestOf_le.mp le_rfl _ hx
  have hTold : fact.kind ∈ tableKinds → About ident fact → ∃ u, Finished u w ∧
      (fact.kind = "wish.left" → ∃ left ∈ u.lefts, left.at_ = fact.at_) ∧
      (fact.kind = "wish.read" → ∃ read ∈ u.reads, Parks read ∧ read.at_ = fact.at_) := by
    intro hKind hOn
    obtain ⟨u, hu, hDone⟩ := exists_unfinished hFinished' (wishTable_nodup h') hw
    obtain ⟨v, hv⟩ := Option.ne_none_iff_exists'.mp fun hNone => findWish_eq_none.mp hNone (hFolded ▸ hKnown)
    have hRun := foldlM_find ident hMore
    rw [hv, ← hId, hu] at hRun
    exact ⟨u, hDone, (hBrings.filter _).told hTable (hId ▸ hKnown) hRun
      (List.mem_filter.mpr ⟨hIn, decide_eq_true hKind⟩) (hId ▸ hOn)⟩
  cases hSays with
  | left hKind hAbout =>
      obtain ⟨u, hDone, hLeft, -⟩ := hTold (by simp [hKind, tableKinds]) hAbout
      obtain ⟨left, hThere, hAt⟩ := hLeft hKind
      have hLefts : w.lefts = u.lefts := by rw [hDone.same]
      refine le_max_of_le_left (hLatest ?_)
      rw [hLefts, ← hAt]
      simp [List.mem_map_of_mem hThere]
  | park hKind hAbout =>
      obtain ⟨u, hDone, -, hRead⟩ := hTold (by simp [hKind, tableKinds]) hAbout
      obtain ⟨read, hThere, hPark, hAt⟩ := hRead hKind
      have hReads : w.reads = u.reads := by rw [hDone.same]
      have hKept := (Fallible.mem_keep hParks).mpr ⟨hReads ▸ hThere, hPark.1⟩
      refine le_max_of_le_left (hLatest ?_)
      rw [← hAt]
      simp [List.mem_map_of_mem hKept]
  | ask hKind hNew hFrom hParent hTruthy =>
      have hHere : fact ∈ more.filter fun f => f.kind ∈ tableKinds :=
        List.mem_filter.mpr ⟨hIn, by simp [hKind, tableKinds]⟩
      have hRun := foldlM_find (.str fact.id) hMore
      rw [findWish_eq_none.mpr (hFolded ▸ hBrings.fresh fact hIn hKind)] at hRun
      obtain ⟨ask, hAsk, hSender, hBorn, hOn⟩ := (hBrings.filter _).asks hTable hRun hHere hKind
      obtain ⟨ask', hAsk', hDone⟩ : ∃ ask' ∈ found', Finished ask ask' := by
        rcases findWish_forall₂ (.str fact.id) (fun _ _ => Finished.id) hFinished' with
          ⟨hNone, -⟩ | ⟨v, ask', hv, hThere, hDone⟩
        · exact absurd (hAsk.symm.trans hNone) (by simp)
        · exact ⟨ask', List.mem_of_find?_eq_some hThere, Option.mem_unique hv hAsk ▸ hDone⟩
      have hParent' : ask'.parent = w.id := by
        rw [hDone.same]
        show ask.parent = w.id
        rw [hOn, hParent, hId, Value.orElse, if_pos hTruthy]
      have hSender' : ask'.sender = .str "resident" := by
        rw [hDone.same]
        exact hSender
      have hBorn' : ask'.born = fact.at_ := by
        rw [hDone.same]
        exact hBorn
      have hKept : ask' ∈ found'.filter fun ask => ask.sender = .str "resident" && ask.parent = w.id :=
        List.mem_filter.mpr ⟨hAsk', by simp [hSender', hParent']⟩
      refine le_max_of_le_left (hLatest ?_)
      rw [← hBorn']
      simp [List.mem_map_of_mem hKept]
  | asked hKind hStrand hSince idents hIdents _ hNamed =>
      have hThere : (ident, fact.at_) ∈ asked := (mem_askedAbout hAsked).mpr
        ⟨fact, List.mem_append_right _ hIn, hKind, hStrand, hSince, idents, hIdents, hNamed, rfl⟩
      exact le_max_of_le_right (hLatest (List.mem_map.mpr ⟨_, List.mem_filter.mpr ⟨hThere, by simp⟩, rfl⟩))

theorem Brings.bodyStart (h : Brings strand since known more) :
    bodyStart strand (facts ++ more) = bodyStart strand facts := by
  unfold Wishes.bodyStart
  rw [h.filter_append]
  rintro f (hKind | hKind | hKind | hKind) <;> simp [hKind]

/-- What had been asked about has been, and what the new facts ask about can be read. -/
theorem Brings.askedAbout (h : Brings strand since known more) (hAsked : askedAbout strand since facts = .ok asked) :
    ∃ asked', askedAbout strand since (facts ++ more) = .ok asked' ∧ ∀ item ∈ asked, item ∈ asked' := by
  have hExists : ∃ asked', Wishes.askedAbout strand since (facts ++ more) = .ok asked' := by
    unfold Wishes.askedAbout at hAsked ⊢
    obtain ⟨named, hNamed, -⟩ := Fallible.peel hAsked
    obtain ⟨named', hNamed'⟩ := Fallible.mapM_isOk.mpr fun f (hf : f ∈ (facts ++ more).filter fun f =>
        f.kind = "left.asked" && Dict.get f.data "strand" = .str strand && since ≤ f.at_) => by
      rw [List.filter_append] at hf
      rcases List.mem_append.mp hf with hOld | hNew
      · obtain ⟨row, -, hRow⟩ := Fallible.mapM_mem hNamed hOld
        exact ⟨row, hRow⟩
      · obtain ⟨hIn, hWanted⟩ := List.mem_filter.mp hNew
        have hKind : f.kind = "left.asked" := by
          simp only [Bool.and_eq_true, decide_eq_true_eq] at hWanted
          exact hWanted.1.1
        obtain ⟨ident, hSays⟩ := h.tells f hIn
        cases hSays with
        | left hIs | park hIs | ask hIs => rw [hKind] at hIs; simp at hIs
        | asked _ _ _ idents hIdents hHashable =>
            exact ⟨_, Fallible.bind_eq_ok.mpr ⟨idents, Fallible.mapError_eq_ok.mpr hIdents, if_pos hHashable⟩⟩
    exact ⟨named'.flatten, Fallible.bind_eq_ok.mpr ⟨named', hNamed', rfl⟩⟩
  obtain ⟨asked', hAsked'⟩ := hExists
  refine ⟨asked', hAsked', fun item hItem => (mem_askedAbout hAsked').mpr ?_⟩
  obtain ⟨f, hf, hRest⟩ := (mem_askedAbout hAsked).mp hItem
  exact ⟨f, List.mem_append_left _ hf, hRest⟩

theorem askedAt_mono {asked' : List (Value × String)} (h : ∀ item ∈ asked, item ∈ asked') (ident : Value) :
    askedAt asked ident ≤ askedAt asked' ident := by
  refine latestOf_mono fun x hx => ?_
  obtain ⟨item, hItem, rfl⟩ := List.mem_map.mp hx
  obtain ⟨hIn, hIs⟩ := List.mem_filter.mp hItem
  exact List.mem_map.mpr ⟨item, List.mem_filter.mpr ⟨h item hIn, hIs⟩, rfl⟩

/-- Nothing is owed exactly where no move that counts is after what was last said. -/
theorem owes_none {alone : Bool} (ht : w.answered found = .ok t)
    (hMoves : w.counted host expired strand since alone = .ok moves) :
    w.owes host expired strand since found asked alone = .ok none ↔ ∀ move ∈ moves, move.1 ≤ max t (askedAt asked w.id) := by
  rw [owes_eq_ok]
  constructor
  · rintro ⟨t', moves', ht', hMoves', hLine⟩ move hMove
    obtain rfl := Fallible.same ht ht'
    obtain rfl := Fallible.same hMoves hMoves'
    split at hLine
    · rename_i hLate
      exact not_lt.mp fun hLt => List.filter_eq_nil_iff.mp hLate move hMove (decide_eq_true hLt)
    · cases hLine
  · intro hAll
    refine ⟨t, moves, ht, hMoves, ?_⟩
    rw [List.filter_eq_nil_iff.mpr fun move hMove hLt =>
      not_lt.mpr (hAll move hMove) (of_decide_eq_true hLt)]

/-- The moves that count on a wish of a thread. -/
def movesOn (host : Host) (expired : String → Bool) (strand thread : String) (found : List Wish) (facts : List Fact)
    (w : Wish) : Except OwedError (List (String × String)) := do
  let rows ← (openRows expired found thread).mapError .wish
  w.counted host expired strand (bodyStart strand facts) (rows.length = 1)

/-- A wish that is listed has a move after each left, park, delivery and ask of it, and after
each time that this body was asked about it, and that move is a fact. Once each listed wish has
a left, a park, an ask or such a question no earlier than its last move, nothing is listed. -/
theorem owed_lefts_settled {out : List (Value × String)} (h : wishTable host checkout facts = .ok found)
    (hOwed : owedLefts host expired strand found facts thread = .ok out) :
    (∀ line ∈ out, ∃ w ∈ found, w.id = line.1 ∧ ∃ moves, movesOn host expired strand thread found facts w = .ok moves ∧
      ∃ move ∈ moves, SaidBefore found facts strand w move.1 ∧ ∃ f ∈ facts, MoveOn strand w.id f ∧ f.at_ = move.1) ∧
    ∀ more found', Brings strand (bodyStart strand facts) (ids found) more →
      wishTable host checkout (facts ++ more) = .ok found' →
      (∀ line ∈ out, ∃ f ∈ more, Says strand (bodyStart strand facts) line.1 f ∧ ∀ w ∈ found, w.id = line.1 →
        ∀ moves, movesOn host expired strand thread found facts w = .ok moves → ∀ move ∈ moves, move.1 ≤ f.at_) →
      owedLefts host expired strand found' (facts ++ more) thread = .ok [] := by
  obtain ⟨rows, hRows, hLines⟩ := owedLefts_eq_ok hOwed
  have hMovesOn : ∀ w, movesOn host expired strand thread found facts w =
      w.counted host expired strand (bodyStart strand facts) (rows.length = 1) := fun w => by
    unfold movesOn
    rw [Fallible.mapError_eq_ok.mpr hRows]
    rfl
  refine ⟨fun line hLine => ?_, fun more found' hBrings h' hSettled => ?_⟩
  · rcases hLines with ⟨-, rfl⟩ | ⟨asked, hAsked, -, hMem⟩
    · cases hLine
    obtain ⟨w, hw, hOwes⟩ := (hMem line).mp hLine
    have hIn := ((mem_openRows hRows).mp hw).1
    obtain ⟨hId, moves, hMoves, hMoved⟩ := owes_moved (wishTable_recounts h hIn) hAsked hOwes
    exact ⟨w, hIn, hId, moves, (hMovesOn w).trans hMoves, hMoved⟩
  · obtain ⟨rows', hRows', hBoth⟩ := (wishTable_grown h h' hBrings).openRows hRows
    unfold owedLefts
    rw [Fallible.mapError_eq_ok.mpr hRows', Fallible.ok_bind]
    split
    · rfl
    rename_i hSome
    rcases hLines with ⟨rfl, -⟩ | ⟨asked, hAsked, hAll, hMem⟩
    · cases hBoth
      exact absurd rfl hSome
    obtain ⟨asked', hAsked', hKept⟩ := hBrings.askedAbout hAsked
    have hNone : ∀ w' ∈ rows', w'.owes host expired strand (bodyStart strand facts) found' asked' (rows'.length = 1) =
        .ok none := by
      intro w' hw'
      obtain ⟨w, hw, hTwo⟩ := Related.forall₂_from hBoth hw'
      obtain ⟨line, hLine⟩ := hAll w hw
      obtain ⟨t, moves, ht, hMoves, -⟩ := owes_eq_ok.mp hLine
      obtain ⟨t', ht', hLater⟩ := hTwo.answered (wishTable_grown h h' hBrings) ht
      rw [← hBoth.length_eq]
      refine (owes_none ht' (hTwo.counted hMoves)).mpr fun move hMove => ?_
      rw [hTwo.id]
      cases line with
      | none =>
          exact ((owes_none ht hMoves).mp hLine move hMove).trans
            (max_le_max hLater (askedAt_mono hKept w.id))
      | some line =>
          have hId : w.id = line.1 := by
            obtain ⟨_, _, _, _, hIs⟩ := owes_eq_ok.mp hLine
            split at hIs
            · cases hIs
            · exact congrArg Prod.fst (Option.some.inj hIs)
          obtain ⟨f, hf, hSays, hAfter⟩ := hSettled line ((hMem line).mpr ⟨w, hw, hLine⟩)
          have hFound := ((mem_openRows hRows).mp hw).1
          refine (hAfter w hFound hId moves (hMovesOn w ▸ hMoves) move hMove).trans ?_
          rw [← hId] at hSays
          exact hSays.counts h h' hBrings hf (List.mem_map_of_mem hFound) ((mem_openRows hRows').mp hw').1 hTwo.id ht' hAsked'
    rw [hBrings.bodyStart]
    dsimp only
    rw [hAsked', Fallible.ok_bind]
    obtain ⟨lines, hLoop⟩ := Fallible.mapM_isOk.mpr fun w' (hw' : w' ∈ rows'.mergeSort fun a b => decide (a.born ≤ b.born)) =>
      ⟨none, hNone w' (List.mem_mergeSort.mp hw')⟩
    rw [hLoop, Fallible.ok_bind]
    refine congrArg Except.ok (List.filterMap_eq_nil_iff.mpr fun line hLine => ?_)
    obtain ⟨w', hw', hIs⟩ := Fallible.mapM_from hLoop hLine
    exact Except.ok.inj (hIs.symm.trans (hNone w' (List.mem_mergeSort.mp hw')))

def toldWish : Fact :=
  ⟨"wish", "loom:l", [("wish", .str "w-1"), ("from", .str "person"), ("line", .str "Log in"), ("thread", .str "login")],
    "2026-01-01T10:00:00", "w-1", 1, none, []⟩

def bodyLease : Fact :=
  ⟨"lease", "loom:l", [("strand", .str "s-1"), ("thread", .str "login")], "2026-01-01T11:00:00", "l-1", 1, none, []⟩

def toldLeft : Fact :=
  ⟨"wish.left", "strand:s-1", [("wish", .str "w-1"), ("steps", .arr [.str "the form"])], "2026-01-01T12:00:00", "f-1", 1,
    none, []⟩

theorem owed_lefts_settled_left :
    owedLefts Facts.bareHost (fun _ => false) "s-1" (tableOf [toldWish, bodyLease]) [toldWish, bodyLease] "login" =
      .ok [(.str "w-1", "no left yet")] ∧
    owedLefts Facts.bareHost (fun _ => false) "s-1" (tableOf [toldWish, bodyLease, toldLeft])
      [toldWish, bodyLease, toldLeft] "login" = .ok [] := by
  have hOwed : owedLefts Facts.bareHost (fun _ => false) "s-1" (tableOf [toldWish, bodyLease]) [toldWish, bodyLease] "login" =
      .ok [(.str "w-1", "no left yet")] := by decide +kernel
  have hMoves : ∀ w ∈ tableOf [toldWish, bodyLease], movesOn Facts.bareHost (fun _ => false) "s-1" "login"
      (tableOf [toldWish, bodyLease]) [toldWish, bodyLease] w =
        .ok [("2026-01-01T10:00:00", "new"), ("2026-01-01T11:00:00", "this body's work")] := by decide +kernel
  have hTable : wishTable Facts.bareHost noCheckout [toldWish, bodyLease] = .ok (tableOf [toldWish, bodyLease]) := by
    decide +kernel
  refine ⟨hOwed, (owed_lefts_settled hTable hOwed).2 [toldLeft] _ ⟨?_, ?_, ?_⟩
    (by decide +kernel) ?_⟩
  · exact fun f hf => ⟨.str "w-1", .left (List.mem_singleton.mp hf ▸ rfl) (List.mem_singleton.mp hf ▸ rfl)⟩
  · exact fun f hf hKind => by rw [List.mem_singleton.mp hf] at hKind; exact absurd hKind (by decide)
  · decide
  · intro line hLine
    obtain rfl := List.mem_singleton.mp hLine
    refine ⟨toldLeft, by simp, .left rfl rfl, fun w hw _ moves hIs move hMove => ?_⟩
    obtain rfl := Except.ok.inj ((hMoves w hw).symm.trans hIs)
    revert move
    decide +kernel

end Brnrd.Wishes
