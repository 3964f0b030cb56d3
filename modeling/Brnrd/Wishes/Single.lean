import Brnrd.Lists.Related
import Brnrd.Wishes.Wish

/-! One wish of the table: what the facts about it make of it, and what the last loops of
`wishes` add. -/
namespace Brnrd.Wishes

open Python Facts

/-- `found.get(ident)`. -/
def findWish (ident : Value) (found : List Wish) : Option Wish :=
  found.find? fun w => w.id = ident

/-- What one fact makes of the wish of an id. -/
def wishStep (ident : Value) (w : Option Wish) (fact : Fact) : Except WishError (Option Wish) :=
  if fact.data.lookup "wish" ≠ some ident then .ok w
  else if fact.kind = "wish" then ((w.getD (Wish.new ident fact.at_)).told fact).map some
  else match w with
    | none => .ok none
    | some w => (w.touched fact).map some

variable {host : Host} {checkout : Checkout} {ident : Value} {w w' : Wish} {fact : Fact} {found found' : List Wish}

theorem told_id (h : w.told fact = .ok w') : w'.id = w.id := by
  obtain ⟨rows, -, h⟩ := Fallible.peel h
  obtain ⟨sender, -, h⟩ := Fallible.peel h
  obtain ⟨line, -, h⟩ := Fallible.peel h
  obtain ⟨thread, -, h⟩ := Fallible.peel h
  exact Except.ok.inj h ▸ rfl

theorem touched_id (h : w.touched fact = .ok w') : w'.id = w.id := by
  unfold Wish.touched at h
  dsimp only at h
  split at h
  · obtain ⟨reading, -, h⟩ := Fallible.peel h
    exact Except.ok.inj h ▸ rfl
  split at h
  · exact Except.ok.inj h ▸ rfl
  split at h
  · exact Except.ok.inj h ▸ rfl
  split at h
  · exact Except.ok.inj h ▸ rfl
  split at h
  · split at h
    · exact Except.ok.inj h ▸ rfl
    · obtain ⟨steps, -, h⟩ := Fallible.peel h
      exact Except.ok.inj h ▸ rfl
  · exact Except.ok.inj h ▸ rfl

variable (ident) in
/-- A relation of wishes that keeps their ids, over a table, relates the wishes of each id. -/
theorem findWish_forall₂ {R : Wish → Wish → Prop} (hId : ∀ w w', R w w' → w'.id = w.id)
    (h : List.Forall₂ R found found') :
    (findWish ident found = none ∧ findWish ident found' = none) ∨
      ∃ w w', findWish ident found = some w ∧ findWish ident found' = some w' ∧ R w w' := by
  induction h with
  | nil => exact .inl ⟨rfl, rfl⟩
  | @cons w w' rest rest' hFirst hRest ih =>
      unfold findWish
      rw [List.find?_cons, List.find?_cons, hId w w' hFirst]
      by_cases hHere : w.id = ident
      · simp only [hHere, decide_true]
        exact .inr ⟨w, w', rfl, rfl, hFirst⟩
      · simp only [hHere, decide_false]
        exact ih

/-- The ids of the wishes, in their order. -/
def ids (found : List Wish) : List Value :=
  found.map Wish.id

theorem ids_forall₂ {R : Wish → Wish → Prop} (hId : ∀ w w', R w w' → w'.id = w.id)
    (h : List.Forall₂ R found found') : ids found' = ids found := by
  induction h with
  | nil => rfl
  | cons hFirst _ ih => exact List.cons_eq_cons.mpr ⟨hId _ _ hFirst, ih⟩

variable {act : Wish → Except WishError Wish}

theorem onWish_eq_ok (h : onWish ident act found = .ok found') :
    List.Forall₂ (fun w w' => (if w.id = ident then act w else .ok w) = .ok w') found found' :=
  Fallible.mapM_eq_ok.mp h

theorem need_eq_ok {data : Dict} {key : String} {value : Value} :
    need data key = .ok value ↔ data.lookup key = some value := by
  unfold need
  split
  · rename_i hSome
    rw [hSome, Except.ok.injEq, Option.some.injEq]
  · rename_i hNone
    simp [hNone]

/-- An act on the wishes of one id that keeps the ids. -/
theorem only_id {about : Value} (hId : ∀ w w', act w = .ok w' → w'.id = w.id) :
    ∀ w w', (if w.id = about then act w else .ok w) = .ok w' → w'.id = w.id := by
  intro w w' hAct
  split at hAct
  · exact hId w w' hAct
  · exact Except.ok.inj hAct ▸ rfl

variable (ident) in
/-- The wish of an id after an act on the wishes of one id. -/
theorem findWish_onWish {about : Value} (hId : ∀ w w', act w = .ok w' → w'.id = w.id)
    (h : onWish about act found = .ok found') :
    (findWish ident found = none ∧ findWish ident found' = none) ∨
      ∃ w w', findWish ident found = some w ∧ findWish ident found' = some w' ∧
        (if ident = about then act w else .ok w) = .ok w' := by
  rcases findWish_forall₂ ident (only_id hId) (onWish_eq_ok h) with hNone | ⟨w, w', hw, hw', hAct⟩
  · exact .inl hNone
  · have hIs : w.id = ident := by simpa using List.find?_some hw
    exact .inr ⟨w, w', hw, hw', hIs ▸ hAct⟩

/-- The table with a wish of an id in it. -/
def withWish (about : Value) (born : String) (found : List Wish) : List Wish :=
  if found.any (·.id = about) then found else found ++ [Wish.new about born]

theorem findWish_eq_none : findWish ident found = none ↔ ident ∉ ids found := by
  unfold findWish ids
  rw [List.find?_eq_none, List.mem_map]
  simp

/-- Where no id is there twice, each wish is the wish of its id. -/
theorem findWish_of_mem (hIds : (ids found).Nodup) (hw : w ∈ found) : findWish w.id found = some w := by
  induction found with
  | nil => cases hw
  | cons first rest ih =>
      unfold findWish
      rw [List.find?_cons]
      obtain ⟨hFirst, hRest⟩ := List.nodup_cons.mp hIds
      rcases List.mem_cons.mp hw with rfl | hw
      · simp
      · have hNot : first.id ≠ w.id := fun h => hFirst (h ▸ List.mem_map_of_mem hw)
        simp only [hNot, decide_false]
        exact ih hRest hw

theorem any_id {about : Value} : found.any (·.id = about) = true ↔ about ∈ ids found := by
  simp [ids]

variable (ident found) in
/-- A wish that is not there yet is a new one. -/
theorem findWish_withWish (about : Value) (born : String) : findWish ident (withWish about born found) =
    if ident = about then some ((findWish about found).getD (Wish.new about born)) else findWish ident found := by
  unfold withWish
  by_cases hAny : found.any (·.id = about) = true
  · rw [if_pos hAny]
    split
    · rename_i hIs
      subst hIs
      cases hFind : findWish ident found with
      | none => exact absurd (any_id.mp hAny) (findWish_eq_none.mp hFind)
      | some w => rfl
    · rfl
  · have hNone : findWish about found = none := findWish_eq_none.mpr fun hIn => hAny (any_id.mpr hIn)
    rw [if_neg hAny]
    unfold findWish at hNone ⊢
    rw [List.find?_append]
    split
    · rename_i hIs
      subst hIs
      rw [hNone]
      simp [Wish.new]
    · rename_i hNot
      have : (Wish.new about born).id ≠ ident := fun h => hNot h.symm
      simp [this]

theorem ids_withWish (about : Value) (born : String) :
    ids (withWish about born found) = if about ∈ ids found then ids found else ids found ++ [about] := by
  unfold withWish
  by_cases hAny : about ∈ ids found
  · rw [if_pos (any_id.mpr hAny), if_pos hAny]
  · rw [if_neg fun h => hAny (any_id.mp h), if_neg hAny]
    simp [ids, Wish.new]

/-- A turn of the loop, by what its fact is about. -/
theorem foldFact_cases (h : foldFact found fact = .ok found') : ∃ about, fact.data.lookup "wish" = some about ∧
    (fact.kind = "wish" ∧ onWish about (Wish.told · fact) (withWish about fact.at_ found) = .ok found' ∨
      fact.kind ≠ "wish" ∧ onWish about (Wish.touched · fact) found = .ok found') := by
  obtain ⟨about, hNeed, h⟩ := Fallible.peel h
  refine ⟨about, need_eq_ok.mp hNeed, ?_⟩
  split at h
  · cases h
  split at h
  · rename_i hKind
    exact .inl ⟨hKind, h⟩
  · rename_i hKind
    exact .inr ⟨hKind, h⟩

/-- A turn of the loop does to the wish of an id what the fact does to it. -/
theorem foldFact_find (h : foldFact found fact = .ok found') :
    wishStep ident (findWish ident found) fact = .ok (findWish ident found') := by
  obtain ⟨about, hAbout, ⟨hKind, hOn⟩ | ⟨hKind, hOn⟩⟩ := foldFact_cases h
  · unfold wishStep
    rw [hAbout, if_pos hKind]
    have hFirst := findWish_withWish ident found about fact.at_
    rcases findWish_onWish ident (fun _ _ => told_id) hOn with ⟨hNone, hNone'⟩ | ⟨w, w', hw, hw', hAct⟩
    · rw [hNone] at hFirst
      split at hFirst
      · cases hFirst
      · rename_i hNot
        rw [if_pos fun h => hNot (Option.some.inj h).symm, ← hFirst, hNone']
    · rw [hw] at hFirst
      by_cases hIs : ident = about
      · rw [if_pos hIs] at hFirst hAct
        subst hIs
        rw [if_neg (by simp), hw', ← Option.some.inj hFirst, hAct]
        rfl
      · rw [if_neg hIs] at hFirst hAct
        rw [if_pos fun h => hIs (Option.some.inj h).symm, hw', ← hFirst, Except.ok.inj hAct]
  · unfold wishStep
    rw [hAbout, if_neg hKind]
    rcases findWish_onWish ident (fun _ _ => touched_id) hOn with ⟨hNone, hNone'⟩ | ⟨w, w', hw, hw', hAct⟩
    · rw [hNone, hNone']
      split <;> rfl
    · rw [hw, hw']
      by_cases hIs : ident = about
      · rw [if_pos hIs] at hAct
        subst hIs
        rw [if_neg (by simp)]
        dsimp only
        rw [hAct]
        rfl
      · rw [if_neg hIs] at hAct
        rw [if_pos fun h => hIs (Option.some.inj h).symm, Except.ok.inj hAct]

variable {facts ordered : List Fact}

variable (ident) in
/-- The loop makes of the wish of an id what the facts make of it. -/
theorem foldlM_find (h : facts.foldlM foldFact found = .ok found') :
    facts.foldlM (wishStep ident) (findWish ident found) = .ok (findWish ident found') := by
  induction facts generalizing found with
  | nil => exact congrArg (fun t => Except.ok (findWish ident t)) (Except.ok.inj h)
  | cons fact facts ih =>
      rw [List.foldlM_cons] at h ⊢
      obtain ⟨m, hStep, hRest⟩ := Fallible.peel h
      rw [foldFact_find hStep]
      exact ih hRest

/-- No id is in the table twice. -/
theorem foldFact_nodup (hIds : (ids found).Nodup) (h : foldFact found fact = .ok found') : (ids found').Nodup := by
  obtain ⟨about, -, ⟨-, hOn⟩ | ⟨-, hOn⟩⟩ := foldFact_cases h
  · rw [ids_forall₂ (only_id fun _ _ => told_id) (onWish_eq_ok hOn), ids_withWish]
    split
    · exact hIds
    · rename_i hNew
      exact List.nodup_append'.mpr ⟨hIds, List.nodup_singleton _, List.disjoint_singleton.mpr hNew⟩
  · rwa [ids_forall₂ (only_id fun _ _ => touched_id) (onWish_eq_ok hOn)]

theorem foldlM_nodup (h : facts.foldlM foldFact [] = .ok found) : (ids found).Nodup :=
  Fallible.foldlM_invariant (fun _ found => (ids found).Nodup) (by simp [ids])
    (fun _ _ _ _ hIds hStep => foldFact_nodup hIds hStep) h

/-- What the last loops of `wishes` leave of a wish: they set only whether its results are held
merges, when its letters were said and heard, and its origin, and of an ask its answer. -/
structure Finished (w w' : Wish) : Prop where
  same : w' = { w with results := w'.results, answer := w'.answer, heardAt := w'.heardAt, saidAt := w'.saidAt,
                       origin := w'.origin }
  rows : w'.results.map Result.toRow = w.results.map Result.toRow
  answer : w.sender ≠ .str "resident" → w'.answer = w.answer

theorem Finished.id (h : Finished w w') : w'.id = w.id := by
  rw [h.same]

variable {letters : List (String × Fact)}

theorem answerOf_eq_ok {raised : List (String × List String)} {writers : List (String × String)}
    (h : answerOf host letters raised writers w = .ok w') :
    w' = { w with answer := w'.answer } := by
  obtain hStamped | ⟨ident, hStamped⟩ := Option.eq_none_or_eq_some
      ((w.stamps.flatMap Stamp.letters).find? fun ident => (letters.lookup ident).any (isPerson host))
  · unfold answerOf at h
    simp only [hStamped] at h
    obtain ⟨first, -, h⟩ := Fallible.peel h
    exact Except.ok.inj h ▸ rfl
  · unfold answerOf at h
    simp only [hStamped] at h
    exact Except.ok.inj h ▸ rfl

/-- Only an ask is answered. -/
theorem answerAsks_eq_ok {leases : List Fact} (h : answerAsks host letters leases found = .ok found') :
    List.Forall₂ (fun w w' => w' = { w with answer := w'.answer } ∧
      (w.sender ≠ .str "resident" → w'.answer = w.answer)) found found' := by
  unfold answerAsks at h
  split at h
  · obtain ⟨raised, -, h⟩ := Fallible.peel h
    refine (Fallible.mapM_eq_ok.mp h).imp fun w w' hAct => ?_
    split at hAct
    · rename_i hSender
      exact ⟨answerOf_eq_ok hAct, fun hNot => absurd hSender hNot⟩
    · exact Except.ok.inj hAct ▸ ⟨rfl, fun _ => rfl⟩
  · rw [← Except.ok.inj h]
    exact List.forall₂_same.mpr fun w _ => ⟨rfl, fun _ => rfl⟩

variable {start : Option Dict}

theorem deliver_row {r r' : Result} (h : r.deliver host checkout start = .ok r') : r'.toRow = r.toRow := by
  obtain ⟨delivered, -, h⟩ := Fallible.peel h
  dsimp only at h
  split at h
  · exact Except.ok.inj h ▸ rfl
  · obtain ⟨merge, -, h⟩ := Fallible.peel h
    cases merge with
    | none => exact Except.ok.inj h ▸ rfl
    | some merge => exact Except.ok.inj h ▸ rfl

theorem deliver_rows {given results : List Result} (h : given.mapM (Result.deliver host checkout start) = .ok results) :
    results.map Result.toRow = given.map Result.toRow := by
  have hRows := Fallible.mapM_eq_ok.mp h
  clear h
  induction hRows with
  | nil => rfl
  | cons hFirst _ ih => exact List.cons_eq_cons.mpr ⟨deliver_row hFirst, ih⟩

/-- The last loop, for one wish. -/
theorem settle_eq_ok (h : w.settle host checkout letters start = .ok w') :
    w' = { w with results := w'.results, heardAt := w'.heardAt, saidAt := w'.saidAt, origin := w'.origin } ∧
      w'.results.map Result.toRow = w.results.map Result.toRow := by
  obtain ⟨results, hResults, h⟩ := Fallible.peel h
  rw [← Except.ok.inj h]
  exact ⟨rfl, deliver_rows hResults⟩

/-- The table is what the loop over the facts makes, finished. -/
theorem wishTable_finished (h : wishTable host checkout ordered = .ok found) :
    ∃ folded, (ordered.filter fun f => f.kind ∈ tableKinds).foldlM foldFact [] = .ok folded ∧
      List.Forall₂ Finished folded found := by
  obtain ⟨folded, hFold, h⟩ := Fallible.peel h
  obtain ⟨answered, hAnswered, h⟩ := Fallible.peel h
  refine ⟨folded, hFold, ?_⟩
  refine Related.forall₂_trans (answerAsks_eq_ok hAnswered) (Fallible.mapM_eq_ok.mp h) ?_
  rintro w w' w'' ⟨hAnswer, hOther⟩ hSettled
  obtain ⟨hSame, hRows⟩ := settle_eq_ok hSettled
  have hKept : w''.answer = w'.answer := by rw [hSame]
  have hGiven : w'.results = w.results := by rw [hAnswer]
  refine ⟨?_, by rw [hRows, hGiven], fun hSender => hKept.trans (hOther hSender)⟩
  rw [hAnswer] at hSame
  rw [hKept]
  exact hSame

theorem wishTable_nodup (h : wishTable host checkout ordered = .ok found) : (ids found).Nodup := by
  obtain ⟨folded, hFold, hFinished⟩ := wishTable_finished h
  rw [ids_forall₂ (fun _ _ => Finished.id) hFinished]
  exact foldlM_nodup hFold

/-- The two tables, before their last loops. -/
theorem wishTable_more {more : List Fact} (h : wishTable host checkout facts = .ok found)
    (h' : wishTable host checkout (facts ++ more) = .ok found') :
    ∃ folded folded', List.Forall₂ Finished folded found ∧ List.Forall₂ Finished folded' found' ∧
      (more.filter fun f => f.kind ∈ tableKinds).foldlM foldFact folded = .ok folded' := by
  obtain ⟨folded, hFold, hFinished⟩ := wishTable_finished h
  obtain ⟨folded', hFold', hFinished'⟩ := wishTable_finished h'
  rw [List.filter_append] at hFold'
  obtain ⟨middle, hFirst, hMore⟩ := Fallible.foldlM_append_eq_ok.mp hFold'
  obtain rfl := Fallible.same hFold hFirst
  exact ⟨folded, folded', hFinished, hFinished', hMore⟩

/-- A wish of a finished table before the last loops. -/
theorem exists_unfinished (hFinished : List.Forall₂ Finished found found') (hIds : (ids found').Nodup) (hw : w ∈ found') :
    ∃ v, findWish w.id found = some v ∧ Finished v w := by
  rcases findWish_forall₂ w.id (fun _ _ => Finished.id) hFinished with ⟨-, hNone⟩ | ⟨v, w', hv, hw', hDone⟩
  · exact absurd ((findWish_of_mem hIds hw).symm.trans hNone) (by simp)
  · exact ⟨v, hv, Option.some.inj (hw'.symm.trans (findWish_of_mem hIds hw)) ▸ hDone⟩

/-- A loom that runs from no checkout, and the table it makes of a history. -/
def noCheckout : Checkout where
  isRepo := false
  name := ""
  pull := fun _ => none
  isDigits := fun _ => false
  mergeLog := fun _ => []

def tableOf (facts : List Fact) : List Wish :=
  (wishTable Facts.bareHost noCheckout facts).toOption.getD []

end Brnrd.Wishes
