import Brnrd.Wishes.Moved
import Brnrd.Wishes.Queues
import Mathlib.Data.List.Find

/-! The person's order over a growing history: a fact changes the order of two wishes only by
putting one of them on top, as long as it lowers neither. -/
namespace Brnrd.Wishes

open Python Facts

variable {host : Host} {checkout : Checkout} {ident : Value} {w w' v v' : Wish} {fact : Fact} {found found' : List Wish}
  {facts before after : List Fact}

/-- When the letters of a person that a wish is said in were written. -/
def saidTimes (host : Host) (letters : List (String × Fact)) (said : List Say) : List String :=
  (said.filter fun say => (letters.lookup say.letter).any (isPerson host)).filterMap fun say =>
    (letters.lookup say.letter).map Fact.at_

def lettersIn (host : Host) (facts : List Fact) : List (String × Fact) :=
  lettersOf host (facts.filter fun f => f.kind = "letter")

variable {t key other : String}

theorem mem_saidTimes {letters : List (String × Fact)} {said : List Say} :
    t ∈ saidTimes host letters said ↔ ∃ say ∈ said, ∃ letter, letters.lookup say.letter = some letter ∧
      isPerson host letter = true ∧ letter.at_ = t := by
  unfold saidTimes
  rw [List.mem_filterMap]
  constructor
  · rintro ⟨say, hSay, hAt⟩
    obtain ⟨hSaid, hOurs⟩ := List.mem_filter.mp hSay
    obtain ⟨letter, hLetter, rfl⟩ := Option.map_eq_some_iff.mp hAt
    rw [hLetter] at hOurs
    exact ⟨say, hSaid, letter, hLetter, hOurs, rfl⟩
  · rintro ⟨say, hSaid, letter, hLetter, hPerson, rfl⟩
    exact ⟨say, List.mem_filter.mpr ⟨hSaid, by rw [hLetter]; exact hPerson⟩, by rw [hLetter]; rfl⟩

/-- A wish of the person was said when the first of its letters of a person was written. -/
theorem saidAt_eq (h : wishTable host checkout facts = .ok found) (hw : w ∈ found) (hSender : w.sender = .str "person") :
    w.saidAt = (saidTimes host (lettersIn host facts) w.said).min?.getD "" := by
  obtain ⟨folded, -, h⟩ := Fallible.peel h
  obtain ⟨asked, -, h⟩ := Fallible.peel h
  obtain ⟨u, -, hSettled⟩ := Fallible.mapM_from h hw
  obtain ⟨results, -, hSettled⟩ := Fallible.peel hSettled
  rw [← Except.ok.inj hSettled] at hSender ⊢
  exact if_pos hSender

variable {entries : List (String × Fact)}

theorem lookup_replace {value : Fact} :
    (entries.map fun item => if item.1 = key then (key, value) else item).lookup other =
      if other = key then (entries.lookup key).map fun _ => value else entries.lookup other := by
  induction entries with
  | nil => split <;> rfl
  | cons item rest ih =>
      obtain ⟨name, old⟩ := item
      rw [List.map_cons]
      by_cases hName : name = key
      · rw [if_pos hName, lookup_cons_if, ih]
        subst hName
        by_cases hOther : other = name
        · simp [hOther]
        · simp only [hOther, if_false, lookup_cons_if]
      · rw [if_neg hName, lookup_cons_if, lookup_cons_if, lookup_cons_if, ih]
        by_cases hOther : other = key
        · subst hOther
          simp [Ne.symm hName]
        · simp [hOther]

/-- `d[key] = value` is what is read back. -/
theorem lookup_putKey {value : Fact} :
    (putKey entries key value).lookup other = if other = key then some value else entries.lookup other := by
  unfold putKey
  split
  · rename_i hAny
    rw [lookup_replace]
    obtain ⟨item, hItem, hKey⟩ := List.any_eq_true.mp hAny
    have hSome : (entries.lookup key).isSome = true :=
      List.lookup_isSome_iff.mpr ⟨item, hItem, by simpa using (of_decide_eq_true hKey).symm⟩
    obtain ⟨old, hOld⟩ := Option.isSome_iff_exists.mp hSome
    rw [hOld]
    rfl
  · rename_i hNone
    rw [List.lookup_append, lookup_cons_if]
    by_cases hOther : other = key
    · rw [if_pos hOther, if_pos hOther, hOther]
      have hNot : entries.lookup key = none := List.lookup_eq_none_iff.mpr fun item hItem => by
        have : item.1 ≠ key := fun hIs => hNone (List.any_eq_true.mpr ⟨item, hItem, decide_eq_true hIs⟩)
        simpa using Ne.symm this
      rw [hNot]
      rfl
    · rw [if_neg hOther, if_neg hOther]
      simp

/-- A letter is read by its name. -/
theorem lookup_lettersIn (name : String) : (lettersIn host (facts ++ [fact])).lookup name =
    if fact.kind = "letter" ∧ name = letterName host fact then some fact else (lettersIn host facts).lookup name := by
  unfold lettersIn lettersOf
  by_cases hKind : fact.kind = "letter"
  · have hOne : [fact].filter (fun f => f.kind = "letter") = [fact] := by simp [hKind]
    rw [List.filter_append, hOne, List.foldl_append]
    simp [hKind, lookup_putKey]
  · have hNone : [fact].filter (fun f => f.kind = "letter") = [] := by simp [hKind]
    rw [List.filter_append, hNone, List.append_nil, if_neg fun h => hKind h.1]

variable (host before after fact) in
/-- A letter more, anywhere in the history, is read by its name or not at all. -/
theorem lookup_inserted (name : String) :
    (lettersIn host (before ++ fact :: after)).lookup name = (lettersIn host (before ++ after)).lookup name ∨
      fact.kind = "letter" ∧ name = letterName host fact ∧
        (lettersIn host (before ++ fact :: after)).lookup name = some fact := by
  induction after using List.reverseRecOn with
  | nil =>
      rw [List.append_nil, lookup_lettersIn]
      split
      · rename_i hIs
        exact .inr ⟨hIs.1, hIs.2, rfl⟩
      · exact .inl rfl
  | append_singleton after last ih =>
      rw [← List.cons_append, ← List.append_assoc, ← List.append_assoc, lookup_lettersIn, lookup_lettersIn]
      split
      · exact .inl rfl
      · exact ih

section Times

variable {times times' : List String} {t : String}

/-- `min(times, default="")`. -/
def firstOf (times : List String) : String :=
  times.min?.getD ""

theorem firstOf_le (h : t ∈ times) : firstOf times ≤ t := by
  unfold firstOf
  cases hMin : times.min? with
  | none =>
      rw [List.min?_eq_none_iff] at hMin
      rw [hMin] at h
      cases h
  | some first => exact (List.min?_eq_some_iff.mp hMin).2 t h

theorem le_firstOf (hAll : ∀ x ∈ times, t ≤ x) (hSome : times = [] → t = "") : t ≤ firstOf times := by
  unfold firstOf
  cases hMin : times.min? with
  | none => rw [hSome (List.min?_eq_none_iff.mp hMin)]; exact le_rfl
  | some first => exact hAll first (List.min?_eq_some_iff.mp hMin).1

theorem firstOf_congr (h : ∀ t, t ∈ times ↔ t ∈ times') : firstOf times = firstOf times' := by
  have hEmpty : times = [] ↔ times' = [] := by
    rw [List.eq_nil_iff_forall_not_mem, List.eq_nil_iff_forall_not_mem]
    exact forall_congr' fun t => not_congr (h t)
  refine le_antisymm (le_firstOf (fun x hx => firstOf_le ((h x).mpr hx)) fun hNone => ?_)
    (le_firstOf (fun x hx => firstOf_le ((h x).mp hx)) fun hNone => ?_)
  · rw [hEmpty.mpr hNone]
    rfl
  · rw [hEmpty.mp hNone]
    rfl

end Times

theorem rankedAt_le : w.rankedAt ≤ t ↔ w.saidAt ≤ t ∧ ∀ top ∈ w.tops, top.at_ ≤ t := by
  unfold Wish.rankedAt
  rw [foldl_max_le]
  simp

theorem mem_foldl_say {rows said : List Say} {say : Say} :
    say ∈ rows.foldl (fun found say => if say ∈ found then found else found ++ [say]) said ↔ say ∈ said ∨ say ∈ rows := by
  induction rows generalizing said with
  | nil => simp
  | cons first rest ih =>
      rw [List.foldl_cons, ih]
      split
      · rename_i hIn
        constructor
        · rintro (h | h)
          · exact .inl h
          · exact .inr (List.mem_cons_of_mem _ h)
        · rintro (h | h)
          · exact .inl h
          · rcases List.mem_cons.mp h with rfl | h
            · exact .inl hIn
            · exact .inr h
      · simp [or_assoc]

/-- What a stamp does to the place of a wish. -/
theorem told_place (h : v.told fact = .ok v') : v'.born = v.born ∧ v'.tops = v.tops ∧
    ∃ rows, readSays (Dict.get fact.data "says") = .ok rows ∧ ∀ say, say ∈ v'.said ↔ say ∈ v.said ∨ say ∈ rows := by
  obtain ⟨rows, hRows, h⟩ := Fallible.peel h
  obtain ⟨sender, -, h⟩ := Fallible.peel h
  obtain ⟨line, -, h⟩ := Fallible.peel h
  obtain ⟨thread, -, h⟩ := Fallible.peel h
  rw [← Except.ok.inj h]
  exact ⟨rfl, rfl, rows, hRows, fun say => mem_foldl_say⟩

def topsOf (fact : Fact) : List Top :=
  if fact.kind = "wish.top" then [⟨fact.at_, Dict.get fact.data "ref", fact.by_⟩] else []

/-- What another fact does to it. -/
theorem touched_place (h : v.touched fact = .ok v') :
    v'.born = v.born ∧ v'.said = v.said ∧ v'.tops = v.tops ++ topsOf fact := by
  have hOther : fact.kind ≠ "wish.top" → v.tops = v.tops ++ topsOf fact := fun hNot => by
    rw [topsOf, if_neg hNot, List.append_nil]
  unfold Wish.touched at h
  dsimp only at h
  split at h
  · rename_i hKind
    obtain ⟨reading, -, h⟩ := Fallible.peel h
    exact Except.ok.inj h ▸ ⟨rfl, rfl, hOther (by simp [hKind])⟩
  split at h
  · rename_i hKind
    exact Except.ok.inj h ▸ ⟨rfl, rfl, hOther (by simp [hKind])⟩
  split at h
  · rename_i hKind
    rw [topsOf, if_pos hKind]
    exact Except.ok.inj h ▸ ⟨rfl, rfl, rfl⟩
  rename_i hNot
  split at h
  · exact Except.ok.inj h ▸ ⟨rfl, rfl, hOther hNot⟩
  split at h
  · split at h
    · exact Except.ok.inj h ▸ ⟨rfl, rfl, hOther hNot⟩
    · obtain ⟨steps, -, h⟩ := Fallible.peel h
      exact Except.ok.inj h ▸ ⟨rfl, rfl, hOther hNot⟩
  · exact Except.ok.inj h ▸ ⟨rfl, rfl, hOther hNot⟩

/-- A stamp of a wish that stands before all its others. -/
def IsFirst (before : List Fact) (ident : Value) (fact : Fact) : Prop :=
  About ident fact ∧ fact.kind = "wish" ∧ ∀ g ∈ before, About ident g → g.kind ≠ "wish"

/-- What one fact more, behind `before`, changes in the place of a wish. -/
structure Places (before : List Fact) (fact : Fact) (ident : Value) (v v' : Wish) : Prop where
  born : v'.born = v.born ∨ IsFirst before ident fact
  kept : ∀ top ∈ v.tops, top ∈ v'.tops
  tops : (∀ top ∈ v'.tops, top ∈ v.tops) ∨ About ident fact ∧ (fact.kind = "wish.top" ∨ fact.kind = "wish")
  cited : ∀ say ∈ v.said, say ∈ v'.said
  said : ∀ say ∈ v'.said, say ∈ v.said ∨ About ident fact ∧ fact.kind = "wish" ∧
    ∃ rows, readSays (Dict.get fact.data "says") = .ok rows ∧ say ∈ rows

theorem Places.refl (before : List Fact) (fact : Fact) (ident : Value) (v : Wish) : Places before fact ident v v :=
  ⟨.inl rfl, fun _ h => h, .inl fun _ h => h, fun _ h => h, fun _ h => .inl h⟩

/-- The wish without the fact and with it: where it is there only with it, the fact is its first
stamp, and it is said in what that cites. -/
def Beside (before : List Fact) (fact : Fact) (ident : Value) : Option Wish → Option Wish → Prop
  | none, none => True
  | none, some v' => IsFirst before ident fact ∧ ∃ rows, readSays (Dict.get fact.data "says") = .ok rows ∧
      ∀ say ∈ v'.said, say ∈ rows
  | some v, some v' => Places before fact ident v v'
  | some _, none => False

theorem Beside.refl (st : Option Wish) : Beside before fact ident st st := by
  cases st with
  | none => trivial
  | some v => exact Places.refl before fact ident v

/-- A wish that is not there has no stamp yet. -/
theorem none_isFirst (h : before.foldlM (wishStep ident) none = .ok none) :
    ∀ g ∈ before, About ident g → g.kind ≠ "wish" := by
  refine Fallible.foldlM_invariant (fun read st => st = none → ∀ g ∈ read, About ident g → g.kind ≠ "wish")
    (fun _ _ h => by cases h) ?_ h rfl
  intro read g st st' hRead hStep hNone f hf hOn
  rcases wishStep_eq_ok hStep with ⟨hNot, hSame⟩ | ⟨-, -, _, -, hSome⟩ | ⟨-, hKind, hWas, -⟩ | ⟨-, -, _, _, -, -, hSome⟩
  · rcases List.mem_append.mp hf with hOld | hNew
    · exact hRead (hSame ▸ hNone) f hOld hOn
    · exact absurd (List.mem_singleton.mp hNew ▸ hOn) hNot
  · exact absurd (hSome.symm.trans hNone) (by simp)
  · rcases List.mem_append.mp hf with hOld | hNew
    · exact hRead hWas f hOld hOn
    · exact List.mem_singleton.mp hNew ▸ hKind
  · exact absurd (hSome.symm.trans hNone) (by simp)

variable {st st' next next' : Option Wish}

/-- The fact itself. -/
theorem Beside.start (hBefore : before.foldlM (wishStep ident) none = .ok st) (h : wishStep ident st fact = .ok st') :
    Beside before fact ident st st' := by
  rcases wishStep_eq_ok h with ⟨-, rfl⟩ | ⟨hOn, hKind, v', hTold, rfl⟩ | ⟨-, -, rfl, rfl⟩ | ⟨hOn, -, v, v', rfl, hTouched, rfl⟩
  · exact .refl _
  · obtain ⟨hBorn, hTops, rows, hRows, hSaid⟩ := told_place hTold
    cases st with
    | none =>
        refine ⟨⟨hOn, hKind, none_isFirst hBefore⟩, rows, hRows, fun say hSay => ?_⟩
        exact ((hSaid say).mp hSay).resolve_left List.not_mem_nil
    | some v =>
        exact ⟨.inl hBorn, fun top hTop => hTops.symm ▸ hTop, .inl fun top hTop => hTops ▸ hTop,
          fun say hSay => (hSaid say).mpr (.inl hSay),
          fun say hSay => ((hSaid say).mp hSay).imp_right fun hRow => ⟨hOn, hKind, rows, hRows, hRow⟩⟩
  · trivial
  · obtain ⟨hBorn, hSaid, hTops⟩ := touched_place hTouched
    refine ⟨.inl hBorn, fun top hTop => hTops ▸ List.mem_append_left _ hTop, ?_, fun say hSay => hSaid.symm ▸ hSay,
      fun say hSay => .inl (hSaid ▸ hSay)⟩
    by_cases hKind : fact.kind = "wish.top"
    · exact .inr ⟨hOn, .inl hKind⟩
    · rw [topsOf, if_neg hKind, List.append_nil] at hTops
      exact .inl fun top hTop => hTops ▸ hTop

/-- What comes after it does the same to both. -/
theorem Beside.step {g : Fact} (h : Beside before fact ident st st') (hStep : wishStep ident st g = .ok next)
    (hStep' : wishStep ident st' g = .ok next') :
    Beside before fact ident next next' := by
  rcases wishStep_eq_ok hStep with ⟨hOff, rfl⟩ | ⟨hOn, hKind, u, hTold, rfl⟩ | ⟨hOn, hKind, rfl, rfl⟩ |
      ⟨hOn, hKind, v, u, rfl, hTouched, rfl⟩ <;>
    rcases wishStep_eq_ok hStep' with ⟨hOff', rfl⟩ | ⟨hOn', hKind', u', hTold', rfl⟩ | ⟨hOn', hKind', rfl, rfl⟩ |
      ⟨hOn', hKind', v', u', rfl, hTouched', rfl⟩
  case inl.inl => exact h
  case inr.inl.inr.inl =>
    obtain ⟨hBorn, hTops, rows, hRows, hSaid⟩ := told_place hTold
    obtain ⟨hBorn', hTops', rows', hRows', hSaid'⟩ := told_place hTold'
    obtain rfl := Fallible.same hRows hRows'
    match st, st', h with
    | none, none, _ =>
        obtain rfl := Fallible.same hTold hTold'
        exact .refl _
    | none, some v', ⟨hFirst, cited, hCited, hAll⟩ =>
        refine ⟨.inr hFirst, fun top hTop => ?_, .inr ⟨hFirst.1, .inr hFirst.2.1⟩, fun say hSay => ?_, fun say hSay => ?_⟩
        · rw [hTops] at hTop
          cases hTop
        · exact (hSaid' say).mpr (.inr (((hSaid say).mp hSay).resolve_left List.not_mem_nil))
        · rcases (hSaid' say).mp hSay with hOld | hRow
          · exact .inr ⟨hFirst.1, hFirst.2.1, cited, hCited, hAll say hOld⟩
          · exact .inl ((hSaid say).mpr (.inr hRow))
    | some v, some v', hPlaces =>
        refine ⟨hPlaces.born.imp_left fun hSame => by rw [hBorn', hBorn]; exact hSame, ?_, ?_, fun say hSay => ?_,
          fun say hSay => ?_⟩
        · rw [hTops, hTops']
          exact hPlaces.kept
        · rw [hTops, hTops']
          exact hPlaces.tops
        · exact (hSaid' say).mpr (((hSaid say).mp hSay).imp_left (hPlaces.cited say))
        · rcases (hSaid' say).mp hSay with hOld | hRow
          · exact (hPlaces.said say hOld).imp_left fun hIn => (hSaid say).mpr (.inl hIn)
          · exact .inl ((hSaid say).mpr (.inr hRow))
  case inr.inr.inl.inr.inr.inl => trivial
  case inr.inr.inl.inr.inr.inr =>
    obtain ⟨-, hSaid', -⟩ := touched_place hTouched'
    obtain ⟨hFirst, rows, hRows, hAll⟩ := h
    exact ⟨hFirst, rows, hRows, hSaid' ▸ hAll⟩
  case inr.inr.inr.inr.inr.inr =>
    obtain ⟨hBorn, hSaid, hTops⟩ := touched_place hTouched
    obtain ⟨hBorn', hSaid', hTops'⟩ := touched_place hTouched'
    have hPlaces : Places before fact ident v v' := h
    refine ⟨hPlaces.born.imp_left fun hSame => by rw [hBorn', hBorn]; exact hSame, fun top hTop => ?_, ?_, ?_, ?_⟩
    · rw [hTops] at hTop
      rw [hTops']
      exact (List.mem_append.mp hTop).elim (fun hOld => List.mem_append_left _ (hPlaces.kept top hOld))
        (fun hNew => List.mem_append_right _ hNew)
    · refine hPlaces.tops.imp_left fun hAll top hTop => ?_
      rw [hTops'] at hTop
      rw [hTops]
      exact (List.mem_append.mp hTop).elim (fun hOld => List.mem_append_left _ (hAll top hOld))
        (fun hNew => List.mem_append_right _ hNew)
    · rw [hSaid, hSaid']
      exact hPlaces.cited
    · rw [hSaid, hSaid']
      exact hPlaces.said
  case inr.inr.inr.inr.inr.inl => exact h.elim
  all_goals first | exact absurd hOn' hOff | exact absurd hOn hOff' | exact absurd hKind hKind' | exact absurd hKind' hKind

theorem Beside.run (h : Beside before fact ident st st') (hRun : after.foldlM (wishStep ident) st = .ok next)
    (hRun' : after.foldlM (wishStep ident) st' = .ok next') :
    Beside before fact ident next next' := by
  induction after generalizing st st' with
  | nil => exact Except.ok.inj hRun ▸ Except.ok.inj hRun' ▸ h
  | cons g after ih =>
      rw [List.foldlM_cons] at hRun hRun'
      obtain ⟨m, hStep, hRun⟩ := Fallible.peel hRun
      obtain ⟨m', hStep', hRun'⟩ := Fallible.peel hRun'
      exact ih (h.step hStep hStep') hRun hRun'

/-- A wish in the tables of a history and of the same with one fact more. -/
theorem exists_places (h : wishTable host checkout (before ++ after) = .ok found)
    (h' : wishTable host checkout (before ++ fact :: after) = .ok found') (hw : w ∈ found) (hw' : w' ∈ found')
    (hId : w'.id = w.id) : Places before fact w.id w w' := by
  obtain ⟨folded, hFold, hFinished⟩ := wishTable_finished h
  obtain ⟨folded', hFold', hFinished'⟩ := wishTable_finished h'
  obtain ⟨v, hv, hDone⟩ := exists_unfinished hFinished (wishTable_nodup h) hw
  obtain ⟨v', hv', hDone'⟩ := exists_unfinished hFinished' (wishTable_nodup h') hw'
  have hRun := foldlM_find w.id hFold
  have hRun' := foldlM_find w.id hFold'
  rw [hv, List.filter_append] at hRun
  rw [← hId, hv', hId, ← List.singleton_append, List.filter_append, List.filter_append] at hRun'
  obtain ⟨st, hBefore, hAfter⟩ := Fallible.foldlM_append_eq_ok.mp hRun
  obtain ⟨st', hBefore', hRest⟩ := Fallible.foldlM_append_eq_ok.mp hRun'
  obtain ⟨next', hOne, hAfter'⟩ := Fallible.foldlM_append_eq_ok.mp hRest
  obtain rfl : st = st' := Fallible.same hBefore hBefore'
  have hStart : Beside (before.filter fun f => f.kind ∈ tableKinds) fact w.id st next' := by
    by_cases hKind : fact.kind ∈ tableKinds
    · have hSelf : [fact].filter (fun f => f.kind ∈ tableKinds) = [fact] := by simp [hKind]
      rw [hSelf, List.foldlM_cons] at hOne
      obtain ⟨m, hStep, hEnd⟩ := Fallible.peel hOne
      exact .start hBefore (Except.ok.inj hEnd ▸ hStep)
    · have hNone : [fact].filter (fun f => f.kind ∈ tableKinds) = [] := by simp [hKind]
      rw [hNone] at hOne
      exact Except.ok.inj hOne ▸ .refl st
  have hPlaces : Places (before.filter fun f => f.kind ∈ tableKinds) fact w.id v v' := hStart.run hAfter hAfter'
  have hBorn : w.born = v.born := by rw [hDone.same]
  have hBorn' : w'.born = v'.born := by rw [hDone'.same]
  have hTops : w.tops = v.tops := by rw [hDone.same]
  have hTops' : w'.tops = v'.tops := by rw [hDone'.same]
  have hSaid : w.said = v.said := by rw [hDone.same]
  have hSaid' : w'.said = v'.said := by rw [hDone'.same]
  refine ⟨?_, by rw [hTops, hTops']; exact hPlaces.kept, by rw [hTops, hTops']; exact hPlaces.tops,
    by rw [hSaid, hSaid']; exact hPlaces.cited, by rw [hSaid, hSaid']; exact hPlaces.said⟩
  rw [hBorn, hBorn']
  refine hPlaces.born.imp_right fun hFirst => ⟨hFirst.1, hFirst.2.1, fun g hg hOn hKind => ?_⟩
  exact hFirst.2.2 g (List.mem_filter.mpr ⟨hg, by simp [hKind, tableKinds]⟩) hOn hKind

/-- A fact that takes a wish of the person down, or moves an idle one: a stamp that cites an older
letter of a person than the one that ranks it, such a letter that comes late, a letter of no
person under the name of a person's letter that the wish is said in, and of an idle wish a stamp
before its first. -/
inductive Lowers (host : Host) (before after : List Fact) (w : Wish) (fact : Fact) : Prop where
  | stamp (hKind : fact.kind = "wish") (hAbout : About w.id fact) (rows : List Say)
      (hRows : readSays (Dict.get fact.data "says") = .ok rows) (say : Say) (hSay : say ∈ rows) (letter : Fact)
      (hLetter : (lettersIn host (before ++ after)).lookup say.letter = some letter) (hPerson : isPerson host letter = true)
      (hOlder : letter.at_ < w.saidAt) (hPlace : ∀ top ∈ w.tops, top.at_ < w.saidAt)
  | late (say : Say) (hSay : say ∈ w.said) (hRead : (lettersIn host (before ++ fact :: after)).lookup say.letter = some fact)
      (hPerson : isPerson host fact = true) (hOlder : fact.at_ < w.saidAt) (hPlace : ∀ top ∈ w.tops, top.at_ < w.saidAt)
  | unsaid (say : Say) (hSay : say ∈ w.said) (hRead : (lettersIn host (before ++ fact :: after)).lookup say.letter = some fact)
      (hOther : isPerson host fact = false) (letter : Fact)
      (hLetter : (lettersIn host (before ++ after)).lookup say.letter = some letter) (hPerson : isPerson host letter = true)
  | first (hFirst : IsFirst before w.id fact) (hIdle : w.rankedAt = "")

/-- What lets a fact put a wish on top: it is a top of it, a stamp of it, or a letter of a person
that it is said in. -/
def Said (host : Host) (before after : List Fact) (fact : Fact) (w : Wish) : Prop :=
  About w.id fact ∧ (fact.kind = "wish.top" ∨ fact.kind = "wish") ∨ isPerson host fact = true ∧
    ∃ say ∈ w.said, (lettersIn host (before ++ fact :: after)).lookup say.letter = some fact

/-- It puts it there: the wish ranks later than it did. -/
def PutsOnTop (host : Host) (before after : List Fact) (fact : Fact) (w w' : Wish) : Prop :=
  w.rankedAt < w'.rankedAt ∧ Said host before after fact w

/-- A rank falls only with the time the wish was said at, and where no top holds it. -/
theorem rankedAt_mono (hTops : ∀ top ∈ w.tops, top ∈ w'.tops)
    (hSaid : w.saidAt ≤ w'.saidAt ∨ ∃ top ∈ w.tops, w.saidAt ≤ top.at_) : w.rankedAt ≤ w'.rankedAt := by
  obtain ⟨hSelf, hAll⟩ := rankedAt_le.mp (le_refl w'.rankedAt)
  refine rankedAt_le.mpr ⟨?_, fun top hTop => hAll top (hTops top hTop)⟩
  rcases hSaid with hLe | ⟨top, hTop, hLe⟩
  · exact hLe.trans hSelf
  · exact hLe.trans (hAll top (hTops top hTop))

section Step

variable (hPlaces : Places before fact w.id w w') (hSteady : ¬ Lowers host before after w fact)
include hPlaces hSteady

/-- The wish is not said earlier, nor in no letter any more. -/
theorem saidAt_mono (hAt : w.saidAt = firstOf (saidTimes host (lettersIn host (before ++ after)) w.said))
    (hAt' : w'.saidAt = firstOf (saidTimes host (lettersIn host (before ++ fact :: after)) w'.said))
    (hTop : ∀ top ∈ w.tops, top.at_ < w.saidAt) : w.saidAt ≤ w'.saidAt := by
  rw [hAt']
  refine le_firstOf (fun t ht => ?_) fun hEmpty => ?_
  · obtain ⟨say, hSay, letter, hLetter, hPerson, rfl⟩ := mem_saidTimes.mp ht
    refine not_lt.mp fun hOlder => hSteady ?_
    rcases lookup_inserted host fact before after say.letter with
      hSame | ⟨hKind, -, hRead⟩
    · rw [hSame] at hLetter
      rcases hPlaces.said say hSay with hOld | ⟨hAbout, hKind, rows, hRows, hRow⟩
      · rw [hAt] at hOlder
        exact absurd (firstOf_le (mem_saidTimes.mpr ⟨say, hOld, letter, hLetter, hPerson, rfl⟩)) (not_le.mpr hOlder)
      · exact .stamp hKind hAbout rows hRows say hRow letter hLetter hPerson hOlder hTop
    · obtain rfl := Option.mem_unique hRead hLetter
      have hOld := (hPlaces.said say hSay).resolve_right fun hStamp => by simp [hKind] at hStamp
      exact .late say hOld hRead hPerson hOlder hTop
  · rw [hAt]
    have hNone : saidTimes host (lettersIn host (before ++ after)) w.said = [] := by
      refine List.eq_nil_iff_forall_not_mem.mpr fun t ht => ?_
      obtain ⟨say, hSay, letter, hLetter, hPerson, rfl⟩ := mem_saidTimes.mp ht
      have hNot : ∀ other, (lettersIn host (before ++ fact :: after)).lookup say.letter = some other →
          isPerson host other ≠ true := fun other hOther hOurs => by
        have hIn := mem_saidTimes.mpr ⟨say, hPlaces.cited say hSay, other, hOther, hOurs, rfl⟩
        rw [hEmpty] at hIn
        cases hIn
      rcases lookup_inserted host fact before after say.letter with
        hSame | ⟨-, -, hRead⟩
      · exact hNot letter (hSame.trans hLetter) hPerson
      · exact hSteady (.unsaid say hSay hRead (by simpa using hNot fact hRead) letter hLetter hPerson)
    rw [hNone]
    rfl

/-- Where the fact does not let the wish on top, it is said in the same letters. -/
theorem saidTimes_same (hOff : ¬ Said host before after fact w) (t : String) :
    t ∈ saidTimes host (lettersIn host (before ++ after)) w.said ↔
      t ∈ saidTimes host (lettersIn host (before ++ fact :: after)) w'.said := by
  have hNotOurs : ∀ say ∈ w.said, (lettersIn host (before ++ fact :: after)).lookup say.letter = some fact →
      isPerson host fact = false := fun say hSay hRead => by
    cases hPerson : isPerson host fact with
    | false => rfl
    | true => exact absurd (.inr ⟨hPerson, say, hSay, hRead⟩) hOff
  rw [mem_saidTimes, mem_saidTimes]
  constructor
  · rintro ⟨say, hSay, letter, hLetter, hPerson, hIs⟩
    rcases lookup_inserted host fact before after say.letter with
      hSame | ⟨-, -, hRead⟩
    · exact ⟨say, hPlaces.cited say hSay, letter, hSame.trans hLetter, hPerson, hIs⟩
    · exact absurd (.unsaid say hSay hRead (hNotOurs say hSay hRead) letter hLetter hPerson) hSteady
  · rintro ⟨say, hSay, letter, hLetter, hPerson, hIs⟩
    have hOld := (hPlaces.said say hSay).resolve_right fun hStamp => hOff (.inl ⟨hStamp.1, .inr hStamp.2.1⟩)
    rcases lookup_inserted host fact before after say.letter with
      hSame | ⟨-, -, hRead⟩
    · exact ⟨say, hOld, letter, hSame.symm.trans hLetter, hPerson, hIs⟩
    · obtain rfl := Option.mem_unique hRead hLetter
      exact absurd ((hNotOurs say hOld hRead).symm.trans hPerson) (by simp)

end Step

/-- The step of a place: the key of the wish stays, or the fact puts it on top. -/
theorem rank_moves (h : wishTable host checkout (before ++ after) = .ok found)
    (h' : wishTable host checkout (before ++ fact :: after) = .ok found') (hw : w ∈ found) (hw' : w' ∈ found')
    (hId : w'.id = w.id) (hSender : w.sender = .str "person") (hSender' : w'.sender = .str "person")
    (hSteady : ¬ Lowers host before after w fact) :
    w'.rankedAt = w.rankedAt ∧ (w.rankedAt = "" → w'.born = w.born) ∨ PutsOnTop host before after fact w w' := by
  have hPlaces := exists_places h h' hw hw' hId
  have hAt : w.saidAt = firstOf (saidTimes host (lettersIn host (before ++ after)) w.said) := saidAt_eq h hw hSender
  have hAt' : w'.saidAt = firstOf (saidTimes host (lettersIn host (before ++ fact :: after)) w'.said) :=
    saidAt_eq h' hw' hSender'
  have hLe : w.rankedAt ≤ w'.rankedAt := by
    refine rankedAt_mono hPlaces.kept ?_
    by_cases hTop : ∀ top ∈ w.tops, top.at_ < w.saidAt
    · exact .inl (saidAt_mono hPlaces hSteady hAt hAt' hTop)
    · push Not at hTop
      exact .inr hTop
  have hBorn : w.rankedAt = "" → w'.born = w.born := fun hIdle =>
    hPlaces.born.resolve_right fun hFirst => hSteady (.first hFirst hIdle)
  by_cases hOn : Said host before after fact w
  · rcases hLe.eq_or_lt with hSame | hLess
    · exact .inl ⟨hSame.symm, hBorn⟩
    · exact .inr ⟨hLess, hOn⟩
  · refine .inl ⟨le_antisymm (rankedAt_le.mpr ⟨?_, fun top hTop => ?_⟩) hLe, hBorn⟩
    · rw [hAt', ← firstOf_congr (saidTimes_same hPlaces hSteady hOn), ← hAt]
      exact (rankedAt_le.mp (le_refl w.rankedAt)).1
    · have hOld := hPlaces.tops.resolve_right fun hTops => hOn (.inl hTops)
      exact (rankedAt_le.mp (le_refl w.rankedAt)).2 top (hOld top hTop)

/-- The key of a wish in the whole order: the ranked ones first. -/
def orderKey (w : Wish) : Bool ×ₗ (String ×ₗ String) :=
  if w.rankedAt ≠ "" then toLex (true, rankedKey w) else toLex (false, bornKey w)

section Order

variable {expired : String → Bool} {epoch : String → Option ℚ} {heads : List (Value × String)} {q q' : Queues}
  {wanted asks delivered : List Wish}

/-- The whole order is downward in its key. -/
theorem Made.pairwise (h : Made expired found heads q wanted asks delivered) :
    (q.mine ++ q.idle).Pairwise fun a b => orderKey b ≤ orderKey a := by
  have hRanked : ∀ w ∈ Sorted.down rankedKey (wanted.filter fun w => w.rankedAt ≠ ""),
      orderKey w = toLex (true, rankedKey w) := fun w hw => if_pos (by
    simpa using (List.mem_filter.mp ((Sorted.down_perm _ _).mem_iff.mp hw)).2)
  have hUnranked : ∀ w ∈ Sorted.down bornKey (wanted.filter fun w => w.rankedAt = ""),
      orderKey w = toLex (false, bornKey w) := fun w hw => if_neg (by
    simpa using (List.mem_filter.mp ((Sorted.down_perm _ _).mem_iff.mp hw)).2)
  rw [h.order, List.pairwise_append]
  refine ⟨(Sorted.pairwise_down _ _).imp_of_mem fun {a b} ha hb hLe => ?_,
    (Sorted.pairwise_down _ _).imp_of_mem fun {a b} ha hb hLe => ?_, fun a ha b hb => ?_⟩
  · rw [hRanked a ha, hRanked b hb]
    exact Prod.Lex.toLex_le_toLex.mpr (.inr ⟨rfl, hLe⟩)
  · rw [hUnranked a ha, hUnranked b hb]
    exact Prod.Lex.toLex_le_toLex.mpr (.inr ⟨rfl, hLe⟩)
  · rw [hRanked a ha, hUnranked b hb]
    exact Prod.Lex.toLex_le_toLex.mpr (.inl (show false < true from by decide))

/-- Mine and idle hold the wanted wishes, each as often as the map does. -/
theorem Made.perm (h : Made expired found heads q wanted asks delivered) : (q.mine ++ q.idle).Perm wanted := by
  rw [h.order]
  refine ((Sorted.down_perm _ _).append (Sorted.down_perm _ _)).trans ?_
  have hSplit := List.filter_append_perm (fun w : Wish => decide (w.rankedAt ≠ "")) wanted
  simpa using hSplit

/-- An open wish of the person that is not delivered. -/
def Wanted (expired : String → Bool) (w : Wish) : Prop :=
  w.sender = .str "person" ∧ isOpen expired w = .ok true ∧ stateOf expired w ≠ .ok (.str "delivered")

instance : DecidablePred (Wanted expired) :=
  fun _ => inferInstanceAs (Decidable (_ ∧ _ ∧ _))

/-- An open ask to the person. -/
def Asks (expired : String → Bool) (heads : List (Value × String)) (w : Wish) : Prop :=
  w.sender = .str "resident" ∧ isOpen expired w = .ok true ∧ toPerson heads w.id = true

instance : DecidablePred (Asks expired heads) :=
  fun _ => inferInstanceAs (Decidable (_ ∧ _ ∧ _))

/-- A wish of the person that is delivered. -/
def Handed (expired : String → Bool) (w : Wish) : Prop :=
  w.sender = .str "person" ∧ stateOf expired w = .ok (.str "delivered")

instance : DecidablePred (Handed expired) :=
  fun _ => inferInstanceAs (Decidable (_ ∧ _))

/-- An open ask to the person hangs from the wish. -/
def Blocked (expired : String → Bool) (heads : List (Value × String)) (found : List Wish) (w : Wish) : Prop :=
  ∃ ask ∈ found, Asks expired heads ask ∧ ask.parent = w.id

instance : DecidablePred (Blocked expired heads found) :=
  fun _ => inferInstanceAs (Decidable (∃ _ ∈ found, _))

theorem isWanted_iff : isWanted expired w = .ok true ↔ Wanted expired w := by
  unfold isWanted Wanted
  by_cases hSender : w.sender = .str "person"
  · rw [if_pos hSender, Fallible.bind_eq_ok]
    constructor
    · rintro ⟨verdict, hOpen, h⟩
      cases verdict with
      | false => simp at h
      | true =>
          obtain ⟨state, hState, h⟩ := Fallible.peel h
          refine ⟨hSender, hOpen, fun hDelivered => ?_⟩
          obtain rfl := Fallible.same hState hDelivered
          simp at h
    · rintro ⟨-, hOpen, hNot⟩
      refine ⟨true, hOpen, ?_⟩
      obtain ⟨state, hState, -⟩ := Fallible.peel hOpen
      have hOther : state ≠ .str "delivered" := fun hIs => hNot (hIs ▸ hState)
      exact Fallible.bind_eq_ok.mpr ⟨state, hState, congrArg Except.ok (decide_eq_true hOther)⟩
  · simp [hSender]

theorem isAsk_iff : isAsk expired heads w = .ok true ↔ Asks expired heads w := by
  unfold isAsk Asks
  by_cases hSender : w.sender = .str "resident"
  · rw [if_pos hSender, Fallible.map_eq_ok]
    constructor
    · rintro ⟨verdict, hOpen, h⟩
      obtain ⟨rfl, hPerson⟩ := (Bool.and_eq_true _ _).mp h
      exact ⟨hSender, hOpen, hPerson⟩
    · rintro ⟨-, hOpen, hPerson⟩
      exact ⟨true, hOpen, hPerson⟩
  · simp [hSender]

theorem isDelivered_iff : isDelivered expired w = .ok true ↔ Handed expired w := by
  unfold isDelivered Handed
  by_cases hSender : w.sender = .str "person"
  · rw [if_pos hSender, Fallible.map_eq_ok]
    constructor
    · rintro ⟨state, hState, h⟩
      exact ⟨hSender, of_decide_eq_true h ▸ hState⟩
    · rintro ⟨-, hState⟩
      exact ⟨_, hState, decide_eq_true rfl⟩
  · simp [hSender]

/-- A kept list is the map's, by what the test says. -/
theorem keep_filter {test : Wish → Except WishError Bool} {P : Wish → Prop} [DecidablePred P] {out : List Wish}
    (hTest : ∀ w, test w = .ok true ↔ P w) (h : Fallible.keep test found = .ok out) : out = found.filter P := by
  obtain ⟨-, rfl⟩ := Fallible.keep_eq_ok.mp h
  refine List.filter_congr fun w _ => ?_
  rw [Bool.eq_iff_iff, Fallible.passed_iff, hTest w, decide_eq_true_eq]

theorem Made.blocked_iff (h : Made expired found heads q wanted asks delivered) (w : Wish) :
    (Entries.get w.id q.blocked).isSome = true ↔ Blocked expired heads found w := by
  rw [h.blocked, keep_filter (fun w => isAsk_iff) h.isAsk]
  simp [Blocked, and_assoc]

/-- Wishes with one key are one wish. -/
theorem orderKey_text (h : orderKey w = orderKey w') : textOf w = textOf w' := by
  unfold orderKey at h
  split at h <;> split at h
  · exact congrArg (fun key => (ofLex (ofLex key).2).2) h
  · exact absurd (congrArg (fun key => (ofLex key).1) h) (by simp)
  · exact absurd (congrArg (fun key => (ofLex key).1) h) (by simp)
  · exact congrArg (fun key => (ofLex (ofLex key).2).2) h

theorem orderKey_congr (hRank : w'.rankedAt = w.rankedAt) (hBorn : w.rankedAt = "" → w'.born = w.born)
    (hId : w'.id = w.id) : orderKey w' = orderKey w := by
  have hText : textOf w' = textOf w := by
    unfold textOf
    rw [hId]
  unfold orderKey rankedKey bornKey
  rw [hRank, hText]
  split
  · rfl
  · rename_i hIdle
    rw [hBorn (not_not.mp hIdle)]

/-- What is not behind a ranked wish is ranked. -/
theorem ranked_of_le (h : orderKey w' ≤ orderKey w) : w'.rankedAt ≠ "" → w.rankedAt ≠ "" := by
  intro hRanked hIdle
  unfold orderKey at h
  rw [if_pos hRanked, if_neg (not_not.mpr hIdle)] at h
  rcases Prod.Lex.toLex_le_toLex.mp h with hLess | ⟨hSame, -⟩
  · exact absurd hLess (show ¬ true < false by decide)
  · cases hSame

theorem Made.nodup (h : Made expired found heads q wanted asks delivered) (hIds : (ids found).Nodup) :
    (ids (q.mine ++ q.idle)).Nodup := by
  refine (h.perm.map Wish.id).nodup_iff.mpr ?_
  rw [keep_filter (fun w => isWanted_iff) h.isWanted]
  exact hIds.sublist (List.filter_sublist.map _)

theorem Made.isNone_iff (h : Made expired found heads q wanted asks delivered) (w : Wish) :
    (Entries.get w.id q.blocked).isNone = true ↔ ¬ Blocked expired heads found w := by
  rw [← h.blocked_iff w]
  cases Entries.get w.id q.blocked <;> simp

/-- The top of mine that nothing blocks. -/
theorem Made.find (h : Made expired found heads q wanted asks delivered) :
    (q.mine ++ q.idle).find? (fun w => w.rankedAt ≠ "" ∧ ¬ Blocked expired heads found w) =
      (Sorted.down rankedKey (wanted.filter fun w => w.rankedAt ≠ "")).find?
        fun w => (Entries.get w.id q.blocked).isNone := by
  have hIdle : (Sorted.down bornKey (wanted.filter fun w => w.rankedAt = "")).find?
      (fun w => decide (w.rankedAt ≠ "" ∧ ¬ Blocked expired heads found w)) = none := by
    refine List.find?_eq_none.mpr fun w hw hTop => ?_
    have hBorn := (List.mem_filter.mp ((Sorted.down_perm _ _).mem_iff.mp hw)).2
    exact (of_decide_eq_true hTop).1 (of_decide_eq_true hBorn)
  rw [h.order, List.find?_append, hIdle, Option.or_none]
  refine List.find?_congr fun w hw => ?_
  have hRanked := of_decide_eq_true (List.mem_filter.mp ((Sorted.down_perm _ _).mem_iff.mp hw)).2
  rw [Bool.eq_iff_iff, h.isNone_iff w]
  simp [hRanked]

/-- Two ids in one order and in the other: the two wishes are in both maps. -/
theorem Made.pair (h : Made expired found heads q wanted asks delivered) {a b : Value}
    (hPair : [a, b].Sublist (ids (q.mine ++ q.idle))) : ∃ w₁ ∈ found, ∃ w₂ ∈ found, w₁.id = a ∧ w₂.id = b ∧
      Wanted expired w₁ ∧ Wanted expired w₂ ∧ orderKey w₂ ≤ orderKey w₁ ∧ w₁.id = .str (textOf w₁) ∧
        w₂.id = .str (textOf w₂) := by
  obtain ⟨pair, hSub, hIds⟩ := List.sublist_map_iff.mp hPair
  match pair, hIds with
  | [w₁, w₂], hIds =>
      obtain ⟨rfl, rfl⟩ : a = w₁.id ∧ b = w₂.id := by simpa using hIds
      have hIn : ∀ w ∈ [w₁, w₂], w ∈ wanted := fun w hw => h.perm.mem_iff.mp (hSub.subset hw)
      have hFound : ∀ w ∈ wanted, w ∈ found ∧ Wanted expired w := fun w hw => by
        rw [keep_filter (fun w => isWanted_iff) h.isWanted] at hw
        simpa using List.mem_filter.mp hw
      obtain ⟨hFirst, hFirstWanted⟩ := hFound w₁ (hIn w₁ (by simp))
      obtain ⟨hSecond, hSecondWanted⟩ := hFound w₂ (hIn w₂ (by simp))
      have hLe := List.pairwise_pair.mp (h.pairwise.sublist hSub)
      exact ⟨w₁, hFirst, w₂, hSecond, rfl, rfl, hFirstWanted, hSecondWanted, hLe, h.texts w₁ (hIn w₁ (by simp)),
        h.texts w₂ (hIn w₂ (by simp))⟩

end Order

/-- Mine and idle hold each wanted wish once, the ranked ones first. The next one is never one
that an ask to the person blocks, and without a live pick it is the first ranked one that none
blocks. Yours holds the asks and the delivered wishes by the place of what they hang from. And a
fact more, anywhere in the history, that lowers neither of two wishes changes their order only by
putting one of them on top. -/
theorem queue_is_theirs {expired : String → Bool} {epoch : String → Option ℚ} {heads : List (Value × String)} {q : Queues}
    (h : queues expired epoch found heads = .ok q) :
    ((q.mine ++ q.idle).Perm (found.filter (Wanted expired)) ∧
      (q.mine ++ q.idle).Pairwise fun a b => b.rankedAt ≠ "" → a.rankedAt ≠ "") ∧
    ((∀ w, q.next = some w → ¬ Blocked expired heads found w) ∧
      ((∀ w ∈ found, Wanted expired w → w.pick.isSome = true → Blocked expired heads found w) →
        q.next = (q.mine ++ q.idle).find? fun w => w.rankedAt ≠ "" ∧ ¬ Blocked expired heads found w)) ∧
    (q.yours.Perm (found.filter (Asks expired heads) ++ found.filter (Handed expired)) ∧
      q.yours.Pairwise fun a b => placeIn (q.mine ++ q.idle) a ≤ placeIn (q.mine ++ q.idle) b) ∧
    ∀ host checkout before after fact found', wishTable host checkout (before ++ after) = .ok found →
      wishTable host checkout (before ++ fact :: after) = .ok found' →
      ∀ expired' epoch' heads' q', queues expired' epoch' found' heads' = .ok q' →
        ∀ a b, [a, b].Sublist (ids (q.mine ++ q.idle)) → [b, a].Sublist (ids (q'.mine ++ q'.idle)) →
          (∀ w ∈ found, w.id = a ∨ w.id = b → ¬ Lowers host before after w fact) →
          ∃ w ∈ found, ∃ w' ∈ found', (w.id = a ∨ w.id = b) ∧ w'.id = w.id ∧ PutsOnTop host before after fact w w' := by
  obtain ⟨wanted, asks, delivered, hMade⟩ := queues_made h
  have hWanted := keep_filter (fun w => isWanted_iff) hMade.isWanted
  refine ⟨⟨hWanted ▸ hMade.perm, hMade.pairwise.imp fun {a b} hLe => ranked_of_le hLe⟩,
    ⟨fun w hNext hBlocked => ?_, fun hPicks => ?_⟩, ⟨?_, hMade.places⟩, ?_⟩
  · exact (hMade.isNone_iff w).mp (hMade.free w hNext) hBlocked
  · rw [hMade.find]
    refine hMade.top fun w hw hPick => (hMade.blocked_iff w).mpr ?_
    rw [hWanted] at hw
    obtain ⟨hFound, hIs⟩ := List.mem_filter.mp hw
    exact hPicks w hFound (of_decide_eq_true hIs) hPick
  · rw [← keep_filter (fun w => isAsk_iff) hMade.isAsk, ← keep_filter (fun w => isDelivered_iff) hMade.isDelivered]
    exact hMade.yours
  · intro host checkout before after fact found' h h' expired' epoch' heads' q' hq' a b hPair hPair' hSteady
    obtain ⟨wanted', asks', delivered', hMade'⟩ := queues_made hq'
    obtain ⟨w₁, hw₁, w₂, hw₂, rfl, rfl, hWanted₁, hWanted₂, hLe, hText₁, hText₂⟩ := hMade.pair hPair
    obtain ⟨v₂, hv₂, v₁, hv₁, hId₂, hId₁, hWanted₂', hWanted₁', hLe', -, -⟩ := hMade'.pair hPair'
    by_contra hNone
    have hStays : ∀ w ∈ found, ∀ w' ∈ found', (w.id = w₁.id ∨ w.id = w₂.id) → w'.id = w.id → w.sender = .str "person" →
        w'.sender = .str "person" → orderKey w' = orderKey w := fun w hw w' hw' hWho hId hSender hSender' => by
      rcases rank_moves h h' hw hw' hId hSender hSender' (hSteady w hw hWho) with ⟨hRank, hBorn⟩ | hTop
      · exact orderKey_congr hRank hBorn hId
      · exact absurd ⟨w, hw, w', hw', hWho, hId, hTop⟩ hNone
    rw [hStays w₁ hw₁ v₁ hv₁ (.inl rfl) hId₁ hWanted₁.1 hWanted₁'.1,
      hStays w₂ hw₂ v₂ hv₂ (.inr rfl) hId₂ hWanted₂.1 hWanted₂'.1] at hLe'
    have hSame : w₁.id = w₂.id := by
      rw [hText₁, hText₂, orderKey_text (le_antisymm hLe' hLe)]
    have hNodup := (hMade.nodup (wishTable_nodup h)).sublist hPair
    simp [hSame] at hNodup

def ownerLetter (name at_ : String) : Fact :=
  ⟨"letter", "loom:l", [("id", .str name), ("from", .str "p-ana")], at_, name, 1, none, []⟩

def saidWish (ident letter at_ id : String) : Fact :=
  ⟨"wish", "strand:s-1", [("wish", .str ident), ("from", .str "person"), ("line", .str ident), ("thread", .str "t"),
    ("says", .arr [.obj [("letter", .str letter)]])], at_, id, 1, none, []⟩

/-- Two wishes of a person, the first said in a later letter. -/
def twoWishes : List Fact :=
  [ownerLetter "L1" "2026-01-01T10:00:00", ownerLetter "L2" "2026-01-01T11:00:00",
    ownerLetter "L3" "2026-01-01T12:00:00", saidWish "w-a" "L3" "2026-01-01T12:01:00" "w-a",
    saidWish "w-b" "L2" "2026-01-01T12:02:00" "w-b"]

/-- A stamp of the first that cites the oldest letter. -/
def olderStamp : Fact :=
  saidWish "w-a" "L1" "2026-01-01T13:00:00" "stamp"

def queuesOf (facts : List Fact) : Queues :=
  (queues (fun _ => false) (fun _ => some 0) (tableOf facts) []).toOption.getD default

theorem queue_is_theirs_lowered :
    wishTable Facts.bareHost noCheckout twoWishes = .ok (tableOf twoWishes) ∧
    wishTable Facts.bareHost noCheckout (twoWishes ++ [olderStamp]) = .ok (tableOf (twoWishes ++ [olderStamp])) ∧
    queues (fun _ => false) (fun _ => some 0) (tableOf twoWishes) [] = .ok (queuesOf twoWishes) ∧
    queues (fun _ => false) (fun _ => some 0) (tableOf (twoWishes ++ [olderStamp])) [] =
      .ok (queuesOf (twoWishes ++ [olderStamp])) ∧
    ids ((queuesOf twoWishes).mine ++ (queuesOf twoWishes).idle) = [.str "w-a", .str "w-b"] ∧
    ids ((queuesOf (twoWishes ++ [olderStamp])).mine ++ (queuesOf (twoWishes ++ [olderStamp])).idle) =
      [.str "w-b", .str "w-a"] ∧
    ∀ w ∈ tableOf twoWishes, ∀ w' ∈ tableOf (twoWishes ++ [olderStamp]), w'.id = w.id →
      ¬ PutsOnTop Facts.bareHost twoWishes [] olderStamp w w' := by
  refine ⟨by decide +kernel, by decide +kernel, by decide +kernel, by decide +kernel, by decide +kernel,
    by decide +kernel, fun w hw w' hw' hId hTop => ?_⟩
  have hRanks : ∀ w ∈ tableOf twoWishes, ∀ w' ∈ tableOf (twoWishes ++ [olderStamp]), w'.id = w.id →
      ¬ w.rankedAt < w'.rankedAt := by decide +kernel
  exact hRanks w hw w' hw' hId hTop.1

def topOf (ident : String) : Fact :=
  ⟨"wish.top", "strand:s-1", [("wish", .str ident), ("ref", .str "L2")], "2026-01-01T13:00:00", "top", 1, none, []⟩

theorem queue_is_theirs_topped :
    ((queuesOf twoWishes).mine ++ (queuesOf twoWishes).idle).Perm ((tableOf twoWishes).filter (Wanted fun _ => false)) ∧
    ∃ w ∈ tableOf twoWishes, ∃ w' ∈ tableOf (twoWishes ++ [topOf "w-b"]), (w.id = .str "w-a" ∨ w.id = .str "w-b") ∧
      w'.id = w.id ∧ PutsOnTop Facts.bareHost twoWishes [] (topOf "w-b") w w' := by
  have hQueues : queues (fun _ => false) (fun _ => some 0) (tableOf twoWishes) [] = .ok (queuesOf twoWishes) := by
    decide +kernel
  refine ⟨(queue_is_theirs hQueues).1.1,
    (queue_is_theirs hQueues).2.2.2 Facts.bareHost noCheckout twoWishes [] (topOf "w-b") _ (by decide +kernel)
      (by decide +kernel) (fun _ => false) (fun _ => some 0) [] (queuesOf (twoWishes ++ [topOf "w-b"])) (by decide +kernel)
      (.str "w-a") (.str "w-b") (by decide +kernel) (by decide +kernel) fun w hw _ hLowers => ?_⟩
  have hRead : ∀ w ∈ tableOf twoWishes, ∀ say ∈ w.said,
      (lettersIn Facts.bareHost (twoWishes ++ [topOf "w-b"])).lookup say.letter ≠ some (topOf "w-b") := by decide +kernel
  cases hLowers with
  | stamp hKind => exact absurd hKind (by decide)
  | late say hSay hIs => exact hRead w hw say hSay hIs
  | unsaid say hSay hIs => exact hRead w hw say hSay hIs
  | first hFirst => exact absurd hFirst.2.1 (by decide)

end Brnrd.Wishes
