import Brnrd.Wishes.Moved

/-! Facts that say what is left of a wish, and the table that they leave: more has been said, and
nothing else is changed. -/
namespace Brnrd.Wishes

open Python Facts

variable {host : Host} {checkout : Checkout} {strand since : String} {ident : Value}
  {w w' v v' : Wish} {fact : Fact} {found found' : List Wish} {facts more : List Fact}

/-- A fact that says what is left of a wish: a left, a park, an ask on it, or the question of
this body's stop. -/
inductive Says (strand since : String) (ident : Value) (fact : Fact) : Prop where
  | left (hKind : fact.kind = "wish.left") (hAbout : About ident fact)
  | park (hKind : fact.kind = "wish.read") (hAbout : About ident fact) (reading : String) (writer : Value)
      (hReading : fact.data.lookup "reading" = some (.str reading)) (hWaiting : startsWith reading "waiting:" = true)
      (hBy : fact.data.lookup "by" = some writer)
  | ask (hKind : fact.kind = "wish") (hNew : About (.str fact.id) fact)
      (hFrom : fact.data.lookup "from" = some (.str "resident")) (hParent : Dict.get fact.data "parent" = ident)
      (hTruthy : ident.truthy = true)
  | asked (hKind : fact.kind = "left.asked") (hStrand : Dict.get fact.data "strand" = .str strand)
      (hSince : since ≤ fact.at_) (idents : List Value) (hIdents : elements (Dict.get fact.data "wishes") = .ok idents)
      (hHashable : idents.all Value.hashable = true) (hNamed : ident ∈ idents)

/-- A read that parks. -/
def Parks (read : Row) : Prop :=
  read.isPark = .ok true ∧ ∃ writer, read.data.lookup "by" = some writer

/-- More has been said of what is left of a wish, and nothing else about it. -/
def Akin (w w' : Wish) : Prop :=
  ∃ lefts parks reading at_, (∀ read ∈ parks, Parks read) ∧
    w' = { w with lefts := w.lefts ++ lefts, reads := w.reads ++ parks, reading := reading, at_ := at_ }

theorem Akin.refl (w : Wish) : Akin w w :=
  ⟨[], [], w.reading, w.at_, fun _ h => (List.not_mem_nil h).elim, by simp⟩

theorem Akin.trans (h : Akin w w') (h' : Akin w' v) : Akin w v := by
  obtain ⟨lefts, parks, _, _, hParks, rfl⟩ := h
  obtain ⟨lefts', parks', reading, at_, hParks', rfl⟩ := h'
  exact ⟨lefts ++ lefts', parks ++ parks', reading, at_, List.forall_mem_append.mpr ⟨hParks, hParks'⟩, by simp⟩

theorem Akin.id (h : Akin w w') : w'.id = w.id := by
  obtain ⟨_, _, _, _, _, rfl⟩ := h
  rfl

theorem Akin.sender (h : Akin w w') : w'.sender = w.sender := by
  obtain ⟨_, _, _, _, _, rfl⟩ := h
  rfl

/-- A wish of a resident on which only parks are told. -/
structure Asking (w : Wish) : Prop where
  sender : w.sender = .str "resident"
  verdict : w.verdict = none
  results : w.results = []
  reads : ∀ read ∈ w.reads, Parks read

theorem Asking.akin (h : Asking w) (hAkin : Akin w w') : Asking w' := by
  obtain ⟨_, parks, _, _, hParks, rfl⟩ := hAkin
  exact ⟨h.sender, h.verdict, h.results, List.forall_mem_append.mpr ⟨h.reads, hParks⟩⟩

/-- A table in which more has been said of what is left, with new asks behind it. -/
def Grown (found found' : List Wish) : Prop :=
  ∃ old new, found' = old ++ new ∧ List.Forall₂ Akin found old ∧ ∀ w ∈ new, Asking w

theorem Grown.refl (found : List Wish) : Grown found found :=
  ⟨found, [], by simp, List.forall₂_same.mpr fun w _ => .refl w, fun _ h => (List.not_mem_nil h).elim⟩

theorem Grown.trans {found'' : List Wish} (h : Grown found found') (h' : Grown found' found'') : Grown found found'' := by
  obtain ⟨old, new, rfl, hOld, hNew⟩ := h
  obtain ⟨all, last, rfl, hAll, hLast⟩ := h'
  obtain ⟨old', new', hOld', hNew', rfl⟩ := Related.forall₂_append.mp hAll
  refine ⟨old', new' ++ last, by simp, Related.forall₂_trans hOld hOld' fun _ _ _ => Akin.trans, fun w hw => ?_⟩
  rcases List.mem_append.mp hw with hIn | hIn
  · obtain ⟨v, hv, hAkin⟩ := Related.forall₂_from hNew' hIn
    exact (hNew v hv).akin hAkin
  · exact hLast w hIn

/-- A park, told of a wish. -/
theorem touched_park {reading : String} {writer : Value} (hKind : fact.kind = "wish.read")
    (hReading : fact.data.lookup "reading" = some (.str reading)) (hWaiting : startsWith reading "waiting:" = true)
    (hBy : fact.data.lookup "by" = some writer) (h : w.touched fact = .ok w') :
    Akin w w' ∧ ∃ read ∈ w'.reads, Parks read ∧ read.at_ = fact.at_ := by
  unfold Wish.touched at h
  dsimp only at h
  rw [if_pos hKind] at h
  obtain ⟨value, -, h⟩ := Fallible.peel h
  have hParks : Parks ⟨fact.data, fact.at_, fact.by_⟩ := by
    refine ⟨?_, writer, hBy⟩
    unfold Row.isPark
    rw [need_eq_ok.mpr hReading]
    exact congrArg Except.ok hWaiting
  rw [← Except.ok.inj h]
  exact ⟨⟨[], [⟨fact.data, fact.at_, fact.by_⟩], value, fact.at_, by simpa using hParks, by simp⟩, _, by simp, hParks, rfl⟩

/-- A left, told of a wish. -/
theorem touched_left (hKind : fact.kind = "wish.left") (h : w.touched fact = .ok w') :
    Akin w w' ∧ ∃ left ∈ w'.lefts, left.at_ = fact.at_ := by
  have hAdds : ∀ left : Left, left.at_ = fact.at_ → w' = { w with lefts := w.lefts ++ [left] } → Akin w w' ∧
      ∃ left ∈ w'.lefts, left.at_ = fact.at_ := by
    rintro left hAt rfl
    exact ⟨⟨[left], [], w.reading, w.at_, fun _ h => (List.not_mem_nil h).elim, by simp⟩, left, by simp, hAt⟩
  unfold Wish.touched at h
  dsimp only at h
  rw [if_neg (by simp [hKind]), if_neg (by simp [hKind]), if_neg (by simp [hKind]), if_neg (by simp [hKind]),
    if_pos hKind] at h
  split at h
  · exact hAdds _ rfl (Except.ok.inj h).symm
  · obtain ⟨steps, -, h⟩ := Fallible.peel h
    exact hAdds _ rfl (Except.ok.inj h).symm

/-- An ask, told of a wish that is not there yet. -/
theorem told_ask {born : String} (hFrom : fact.data.lookup "from" = some (.str "resident"))
    (h : (Wish.new ident born).told fact = .ok w') :
    Asking w' ∧ w'.born = born ∧ w'.parent = (Dict.get fact.data "parent").orElse (.str "") := by
  obtain ⟨rows, -, hBorn, hResults, hReads, -, hVerdict, hSender, hParent⟩ := told_eq_ok h
  refine ⟨⟨(Option.mem_unique hFrom hSender).symm, hVerdict, hResults, ?_⟩, hBorn, hParent⟩
  rw [hReads]
  exact fun _ h => (List.not_mem_nil h).elim

theorem grown_touched (h : onWish ident (Wish.touched · fact) found = .ok found')
    (hStep : ∀ w w', w.touched fact = .ok w' → Akin w w') : Grown found found' := by
  refine ⟨found', [], by simp, (onWish_eq_ok h).imp fun w w' hAct => ?_, fun _ h => (List.not_mem_nil h).elim⟩
  split at hAct
  · exact hStep w w' hAct
  · exact Except.ok.inj hAct ▸ .refl w

/-- One such fact, that is no ask on a wish that is there. -/
theorem Says.grown (hSays : Says strand since ident fact) (hTable : fact.kind ∈ tableKinds)
    (hNew : fact.kind = "wish" → .str fact.id ∉ ids found) (h : foldFact found fact = .ok found') :
    Grown found found' ∧ ids found' = ids found ++ (if fact.kind = "wish" then [.str fact.id] else []) := by
  obtain ⟨about, hAbout, ⟨hKind, hOn⟩ | ⟨hKind, hOn⟩⟩ := foldFact_cases h
  · cases hSays with
    | left hIs | park hIs | asked hIs => rw [hIs] at hKind; simp at hKind
    | ask hIs hOwn hFrom hParent hTruthy =>
        obtain rfl : about = .str fact.id := Option.mem_unique hAbout hOwn
        have hFresh := hNew hKind
        rw [if_pos hKind]
        have hIds := ids_forall₂ (only_id fun _ _ => told_id) (onWish_eq_ok hOn)
        rw [ids_withWish, if_neg hFresh] at hIds
        refine ⟨?_, hIds⟩
        rw [withWish, if_neg fun hAny => hFresh (any_id.mp hAny)] at hOn
        obtain ⟨old, new, hOld, hLast, rfl⟩ := Related.forall₂_append.mp (onWish_eq_ok hOn)
        refine ⟨old, new, rfl, ?_, fun w hw => ?_⟩
        · refine List.Forall₂.mp (Q := fun w _ => w.id ≠ .str fact.id) (fun w w' hNot hAct => ?_) ?_ hOld
          · rw [if_neg hNot] at hAct
            exact Except.ok.inj hAct ▸ .refl w
          · exact List.forall₂_iff_zip.mpr ⟨hOld.length_eq, fun hIn => fun hIs =>
              hFresh (List.mem_map.mpr ⟨_, (List.of_mem_zip hIn).1, hIs⟩)⟩
        · obtain ⟨born, hBorn, hAct⟩ := Related.forall₂_from hLast hw
          obtain rfl := List.mem_singleton.mp hBorn
          rw [if_pos (show (Wish.new (.str fact.id) fact.at_).id = .str fact.id from rfl)] at hAct
          exact (told_ask hFrom hAct).1
  · rw [if_neg hKind, List.append_nil]
    refine ⟨?_, ids_forall₂ (only_id fun _ _ => touched_id) (onWish_eq_ok hOn)⟩
    cases hSays with
    | left hIs => exact grown_touched hOn fun w w' hTouched => (touched_left hIs hTouched).1
    | park hIs _ _ _ hReading hWaiting hBy =>
        exact grown_touched hOn fun w w' hTouched => (touched_park hIs hReading hWaiting hBy hTouched).1
    | ask hIs => exact absurd hIs hKind
    | asked hIs => rw [hIs] at hTable; simp [tableKinds] at hTable

/-- The facts that `more` brings: each says what is left of some wish, and an ask is a new wish. -/
structure Brings (strand since : String) (known : List Value) (more : List Fact) : Prop where
  tells : ∀ f ∈ more, ∃ ident, Says strand since ident f
  fresh : ∀ f ∈ more, f.kind = "wish" → .str f.id ∉ known
  distinct : (more.map Fact.id).Nodup

theorem Brings.tail (h : Brings strand since (ids found) (fact :: more)) :
    Brings strand since (ids found ++ (if fact.kind = "wish" then [.str fact.id] else [])) more where
  tells := fun f hf => h.tells f (List.mem_cons_of_mem _ hf)
  fresh := by
    intro f hf hKind hIn
    rcases List.mem_append.mp hIn with hKnown | hOther
    · exact h.fresh f (List.mem_cons_of_mem _ hf) hKind hKnown
    · split at hOther
      · obtain hSame := Value.str.inj (List.mem_singleton.mp hOther)
        exact (List.nodup_cons.mp h.distinct).1 (hSame ▸ List.mem_map_of_mem hf)
      · cases hOther
  distinct := (List.nodup_cons.mp h.distinct).2

/-- A whole batch of them. -/
theorem Brings.grown (h : Brings strand since (ids found) more) (hTable : ∀ f ∈ more, f.kind ∈ tableKinds)
    (hFold : more.foldlM foldFact found = .ok found') : Grown found found' := by
  induction more generalizing found with
  | nil => exact Except.ok.inj hFold ▸ .refl found
  | cons fact more ih =>
      rw [List.foldlM_cons] at hFold
      obtain ⟨m, hStep, hRest⟩ := Fallible.peel hFold
      obtain ⟨ident, hSays⟩ := h.tells fact List.mem_cons_self
      obtain ⟨hFirst, hIds⟩ := hSays.grown (hTable fact List.mem_cons_self) (h.fresh fact List.mem_cons_self) hStep
      exact hFirst.trans (ih (hIds ▸ h.tail) (fun f hf => hTable f (List.mem_cons_of_mem _ hf)) hRest)

variable {out out' : List Wish}

/-- A loop over the wishes that acts alike on akin ones. -/
theorem Grown.loop (act : Wish → Wish → Prop) (h : Grown found found')
    (hAkin : ∀ {w w' v v'}, Akin w w' → act w v → act w' v' → Akin v v') (hAsking : ∀ {w v}, Asking w → act w v → Asking v)
    (hOut : List.Forall₂ act found out) (hOut' : List.Forall₂ act found' out') : Grown out out' := by
  obtain ⟨old, new, rfl, hOld, hNew⟩ := h
  obtain ⟨out₁, out₂, hFirst, hSecond, rfl⟩ := Related.forall₂_append.mp hOut'
  refine ⟨out₁, out₂, rfl, ?_, fun v hv => ?_⟩
  · have hBack : List.Forall₂ (fun v w => act w v) out found := hOut.flip
    have hMiddle : List.Forall₂ (fun v w' => ∃ w, act w v ∧ Akin w w') out old :=
      Related.forall₂_trans hBack hOld fun _ w _ hAct hTwo => ⟨w, hAct, hTwo⟩
    exact Related.forall₂_trans hMiddle hFirst fun _ _ _ ⟨_, hAct, hTwo⟩ hAct' => hAkin hTwo hAct hAct'
  · obtain ⟨w, hw, hAct⟩ := Related.forall₂_from hSecond hv
    exact hAsking (hNew w hw) hAct

variable {letters : List (String × Fact)}

theorem Akin.answerOf {raised : List (String × List String)} {writers : List (String × String)} (h : Akin w w')
    (hv : answerOf host letters raised writers w = .ok v) (hv' : answerOf host letters raised writers w' = .ok v') :
    Akin v v' := by
  obtain ⟨lefts, parks, reading, at_, hParks, rfl⟩ := h
  refine ⟨lefts, parks, reading, at_, hParks, ?_⟩
  unfold Wishes.answerOf at hv hv'
  dsimp only at hv hv'
  split at hv
  · rename_i hStamped
    rw [hStamped] at hv'
    rw [← Except.ok.inj hv, ← Except.ok.inj hv']
  · rename_i hStamped
    rw [hStamped] at hv'
    obtain ⟨first, hFirst, hv⟩ := Fallible.peel hv
    obtain ⟨first', hFirst', hv'⟩ := Fallible.peel hv'
    obtain rfl : first = first' := Fallible.same hFirst hFirst'
    rw [← Except.ok.inj hv, ← Except.ok.inj hv']

theorem Grown.answerAsks {leases : List Fact} (h : Grown found found')
    (hOut : answerAsks host letters leases found = .ok out) (hOut' : answerAsks host letters leases found' = .ok out') :
    Grown out out' := by
  have hAct : ∀ (raised : List (String × List String)) (writers : List (String × String)) (out out' : List Wish),
      List.Forall₂ (fun w v => (if w.sender = .str "resident" then answerOf host letters raised writers w else .ok w) = .ok v)
        found out →
      List.Forall₂ (fun w v => (if w.sender = .str "resident" then answerOf host letters raised writers w else .ok w) = .ok v)
        found' out' → Grown out out' := by
    intro raised writers out out'
    refine h.loop _ ?_ ?_
    · intro w w' v v' hTwo hv hv'
      rw [hTwo.sender] at hv'
      split at hv
      · rename_i hSender
        rw [if_pos hSender] at hv'
        exact hTwo.answerOf hv hv'
      · rename_i hSender
        rw [if_neg hSender] at hv'
        exact Except.ok.inj hv ▸ Except.ok.inj hv' ▸ hTwo
    · intro w v hAsking hv
      rw [if_pos hAsking.sender] at hv
      rw [answerOf_eq_ok hv]
      exact ⟨hAsking.sender, hAsking.verdict, hAsking.results, hAsking.reads⟩
  have hOther : ∀ raised writers, found.any (·.sender = .str "resident") ≠ true → List.Forall₂ (fun w v =>
      (if w.sender = .str "resident" then answerOf host letters raised writers w else .ok w) = .ok v) found found :=
    fun raised writers hNone => List.forall₂_same.mpr fun w hw => if_neg fun hIs =>
      hNone (List.any_eq_true.mpr ⟨w, hw, by simp [hIs]⟩)
  unfold Wishes.answerAsks at hOut hOut'
  split at hOut'
  · obtain ⟨raised', hRaised', hOut'⟩ := Fallible.peel hOut'
    split at hOut
    · obtain ⟨raised, hRaised, hOut⟩ := Fallible.peel hOut
      obtain rfl : raised = raised' := Fallible.same hRaised hRaised'
      exact hAct _ _ _ _ (Fallible.mapM_eq_ok.mp hOut) (Fallible.mapM_eq_ok.mp hOut')
    · rename_i hNone
      rw [← Except.ok.inj hOut]
      exact hAct _ _ _ _ (hOther _ _ hNone) (Fallible.mapM_eq_ok.mp hOut')
  · rename_i hNone
    have hNone' : found.any (·.sender = .str "resident") ≠ true := by
      intro hAny
      obtain ⟨w, hw, hSender⟩ := List.any_eq_true.mp hAny
      obtain ⟨old, new, rfl, hOld, -⟩ := h
      obtain ⟨w', hw', hTwo⟩ := Related.forall₂_from hOld.flip hw
      exact hNone (List.any_eq_true.mpr ⟨w', List.mem_append_left _ hw', by rw [Akin.sender hTwo]; exact hSender⟩)
    rw [if_neg hNone'] at hOut
    exact Except.ok.inj hOut ▸ Except.ok.inj hOut' ▸ h

theorem Grown.settle {start : Option Dict} (h : Grown found found')
    (hOut : found.mapM (Wish.settle host checkout letters start) = .ok out)
    (hOut' : found'.mapM (Wish.settle host checkout letters start) = .ok out') : Grown out out' := by
  refine h.loop (fun w v => w.settle host checkout letters start = .ok v) ?_ ?_
    (Fallible.mapM_eq_ok.mp hOut) (Fallible.mapM_eq_ok.mp hOut')
  · rintro w _ v v' ⟨lefts, parks, reading, at_, hParks, rfl⟩ hv hv'
    obtain ⟨results, hResults, hv⟩ := Fallible.peel hv
    obtain ⟨results', hResults', hv'⟩ := Fallible.peel hv'
    obtain rfl : results = results' := Fallible.same hResults hResults'
    rw [← Except.ok.inj hv, ← Except.ok.inj hv']
    exact ⟨lefts, parks, reading, at_, hParks, rfl⟩
  · intro w v hAsking hv
    obtain ⟨hSame, hRows⟩ := settle_eq_ok hv
    have hNone : v.results = [] := by
      rw [hAsking.results] at hRows
      exact List.map_eq_nil_iff.mp hRows
    rw [hSame]
    exact ⟨hAsking.sender, hAsking.verdict, hNone, hAsking.reads⟩

/-- The kinds of the facts that say what is left. -/
theorem Says.kinds (h : Says strand since ident fact) :
    fact.kind = "wish.left" ∨ fact.kind = "wish.read" ∨ fact.kind = "wish" ∨ fact.kind = "left.asked" := by
  cases h with
  | left hKind => exact .inl hKind
  | park hKind => exact .inr (.inl hKind)
  | ask hKind => exact .inr (.inr (.inl hKind))
  | asked hKind => exact .inr (.inr (.inr hKind))

theorem Brings.filter {known : List Value} (h : Brings strand since known more) (p : Fact → Bool) :
    Brings strand since known (more.filter p) where
  tells := fun f hf => h.tells f (List.mem_of_mem_filter hf)
  fresh := fun f hf => h.fresh f (List.mem_of_mem_filter hf)
  distinct := h.distinct.sublist (List.filter_sublist.map _)

/-- They add no fact of another kind. -/
theorem Brings.filter_append {known : List Value} (h : Brings strand since known more) {p : Fact → Bool}
    (hOther : ∀ f, (f.kind = "wish.left" ∨ f.kind = "wish.read" ∨ f.kind = "wish" ∨ f.kind = "left.asked") → p f = false) :
    (facts ++ more).filter p = facts.filter p := by
  have hNone : more.filter p = [] := by
    refine List.filter_eq_nil_iff.mpr fun f hf => ?_
    obtain ⟨ident, hSays⟩ := h.tells f hf
    rw [hOther f hSays.kinds]
    exact Bool.false_ne_true
  rw [List.filter_append, hNone, List.append_nil]

/-- The table, once more has been said of what is left. -/
theorem wishTable_grown (h : wishTable host checkout facts = .ok found)
    (h' : wishTable host checkout (facts ++ more) = .ok found') (hBrings : Brings strand since (ids found) more) :
    Grown found found' := by
  have hIds : ∀ {folded : List Wish}, (facts.filter fun f => f.kind ∈ tableKinds).foldlM foldFact [] = .ok folded →
      ids folded = ids found := by
    intro folded hFold
    obtain ⟨again, hAgain, hFinished⟩ := wishTable_finished h
    obtain rfl := Fallible.same hFold hAgain
    exact (ids_forall₂ (fun _ _ => Finished.id) hFinished).symm
  unfold wishTable at h h'
  simp only [hBrings.filter_append (p := fun f => decide (f.kind = "letter")) (by rintro f (h | h | h | h) <;> simp [h]),
    hBrings.filter_append (p := fun f => decide (f.kind = "lease")) (by rintro f (h | h | h | h) <;> simp [h]),
    hBrings.filter_append (p := fun f => decide (f.kind = "loom.started")) (by rintro f (h | h | h | h) <;> simp [h])] at h'
  obtain ⟨folded, hFold, h⟩ := Fallible.peel h
  obtain ⟨answered, hAnswered, hSettled⟩ := Fallible.peel h
  obtain ⟨folded', hFold', h'⟩ := Fallible.peel h'
  obtain ⟨answered', hAnswered', hSettled'⟩ := Fallible.peel h'
  rw [List.filter_append] at hFold'
  obtain ⟨middle, hFirst, hMore⟩ := Fallible.foldlM_append_eq_ok.mp hFold'
  obtain rfl := Fallible.same hFold hFirst
  have hGrown := (hIds hFold ▸ hBrings.filter _).grown (fun f hf => of_decide_eq_true (List.mem_filter.mp hf).2) hMore
  exact (hGrown.answerAsks hAnswered hAnswered').settle hSettled hSettled'

end Brnrd.Wishes
