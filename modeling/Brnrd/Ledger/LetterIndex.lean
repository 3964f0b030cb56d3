import Brnrd.Ledger.ViewGrowth

/-! The view's indexes over letters and sources: who is named what, who cites
which source, who replies to whom, and which sources name a blob. -/
namespace Brnrd.Ledger

open Python Facts

/-- A property of views that adding a fact keeps, and that does not depend on
what an extension notes about itself, holds of what extensions make. -/
structure Grows (host : Host) (P : LedgerView → Prop) : Prop where
  empty : P .empty
  add : ∀ v fact w, P v → v.add host fact = .ok w → P w
  noted : ∀ v revision delta reset duplicates, P v →
    P { v with revision := revision, delta := delta, reset := reset, duplicates := duplicates }

variable {delta : List Fact} {u v w : LedgerView} {P : LedgerView → Prop} {host : Host}

theorem Grows.adds (h : Grows host P) (hv : P v) (hAdds : delta.foldlM (LedgerView.add host) v = .ok w) : P w :=
  Fallible.foldlM_invariant (fun _ v => P v) hv (fun _ fact v w hv hAdd => h.add v fact w hv hAdd) hAdds

theorem Grows.grow (h : Grows host P) (hv : P v) (hGrow : v.grow host delta = .ok w) : P w := by
  unfold LedgerView.grow at hGrow
  split at hGrow
  · obtain rfl := Except.ok.inj hGrow
    exact h.noted v v.revision [] v.reset v.duplicates hv
  · obtain ⟨cut, -, hRest⟩ := Fallible.peel hGrow
    obtain ⟨m, hAdds, hEq⟩ := Fallible.peel hRest
    obtain rfl := Except.ok.inj hEq
    exact h.noted m _ _ _ m.duplicates (h.adds hv hAdds)

theorem Grows.incoming (h : Grows host P) {facts : List Fact} {repair : Bool} (hv : P v)
    (hIncoming : v.incoming host facts = .ok (u, delta, repair)) : P u := by
  obtain ⟨s, -, hRest⟩ := Fallible.peel hIncoming
  split at hRest
  · obtain ⟨rfl, -⟩ := Fallible.pair hRest
    exact h.noted v v.revision v.delta v.reset _ hv
  · obtain ⟨⟨ordered, duplicates⟩, -, hRest⟩ := Fallible.peel hRest
    obtain ⟨late, -, hEq⟩ := Fallible.peel hRest
    obtain ⟨rfl, -⟩ := Fallible.pair hEq
    exact h.noted v v.revision v.delta v.reset _ hv

/-- An extension keeps it, replayed or not. -/
theorem Grows.apply (h : Grows host P) {repair : Bool} (hu : P u) (hApply : u.apply host delta repair = .ok w) : P w := by
  unfold LedgerView.apply at hApply
  split at hApply
  · obtain rfl := Except.ok.inj hApply
    exact h.noted u u.revision [] u.reset u.duplicates hu
  · split at hApply
    · obtain ⟨cut, -, hRest⟩ := Fallible.peel hApply
      obtain ⟨⟨ordered, duplicates⟩, -, hRest⟩ := Fallible.peel hRest
      obtain ⟨fresh, hLoad, hEq⟩ := Fallible.peel hRest
      obtain rfl := Except.ok.inj hEq
      obtain ⟨⟨v, delta', repair'⟩, hIncoming, hGrow⟩ := Fallible.peel hLoad
      exact h.noted fresh _ _ _ _ (h.grow (h.incoming h.empty hIncoming) hGrow)
    · exact h.grow hu hApply

/-- `str(fact.data.get('id') or fact.id)`. -/
def nameOf (host : Host) (fact : Fact) : String :=
  ((Dict.get fact.data "id").orElse (.str fact.id)).toStr host

def isLetter (fact : Fact) : Bool :=
  fact.kind = "letter"

/-- What `_add` does to the indexes over letters and sources. -/
structure LedgerView.AddedLetter (host : Host) (v : LedgerView) (fact : Fact) (w : LedgerView) : Prop where
  facts : w.facts = v.facts ++ [fact]
  raw : w.rawLetters = if isLetter fact then (fact.id, fact) :: v.rawLetters else v.rawLetters
  named : w.namedLetters = if isLetter fact then (nameOf host fact, fact) :: v.namedLetters else v.namedLetters
  bySource : w.lettersBySource =
    if isLetter fact then addAt v.lettersBySource (Dict.get fact.data "cites") fact.id else v.lettersBySource
  byReply : w.lettersByReply =
    if isLetter fact then addAt v.lettersByReply (Dict.get fact.data "re") fact.id else v.lettersByReply
  byBlob : w.sourcesByBlob = if fact.kind = "source"
    then fact.after.foldl (fun index ref => addAt index ref fact.id) v.sourcesByBlob else v.sourcesByBlob
  noncanonical : w.noncanonicalLetters = (v.noncanonicalLetters || isLetter fact && nameOf host fact != fact.id)

theorem LedgerView.addTimed_letters (v : LedgerView) (fact : Fact) :
    (v.addTimed fact).rawLetters = v.rawLetters ∧ (v.addTimed fact).namedLetters = v.namedLetters ∧
    (v.addTimed fact).lettersBySource = v.lettersBySource ∧ (v.addTimed fact).lettersByReply = v.lettersByReply ∧
    (v.addTimed fact).sourcesByBlob = v.sourcesByBlob ∧
    (v.addTimed fact).noncanonicalLetters = v.noncanonicalLetters := by
  unfold LedgerView.addTimed
  split
  · simp
  · split <;> simp

theorem LedgerView.entered_letters (host : Host) (v : LedgerView) (fact : Fact) (stamp : ℚ) :
    LedgerView.AddedLetter host v fact (v.entered host fact stamp) := by
  have hFacts := (v.entered_fields host fact stamp).1
  by_cases hLetter : fact.kind = "letter"
  · have hIs : isLetter fact = true := decide_eq_true hLetter
    have hNot : fact.kind ≠ "source" := by rw [hLetter]; decide
    have hEntered : v.entered host fact stamp = ((v.enter fact stamp).addLetter host fact).addTimed fact := by
      rw [LedgerView.entered, if_pos hLetter]
    obtain ⟨hRaw, hNamed, hSource, hReply, hBlob, hNon⟩ :=
      ((v.enter fact stamp).addLetter host fact).addTimed_letters fact
    refine ⟨hFacts, ?_, ?_, ?_, ?_, ?_, ?_⟩
    · rw [if_pos hIs, hEntered, hRaw]
      rfl
    · rw [if_pos hIs, hEntered, hNamed]
      rfl
    · rw [if_pos hIs, hEntered, hSource]
      rfl
    · rw [if_pos hIs, hEntered, hReply]
      rfl
    · rw [if_neg hNot, hEntered, hBlob]
      rfl
    · rw [hIs, Bool.true_and, hEntered, hNon]
      rfl
  · have hIs : ¬isLetter fact = true := by simpa [isLetter] using hLetter
    have hEntered : v.entered host fact stamp =
        (if fact.kind = "source" then (v.enter fact stamp).addSource fact else v.enter fact stamp).addTimed fact := by
      rw [LedgerView.entered, if_neg hLetter]
    obtain ⟨hRaw, hNamed, hSource, hReply, hBlob, hNon⟩ :=
      (if fact.kind = "source" then (v.enter fact stamp).addSource fact else v.enter fact stamp).addTimed_letters fact
    refine ⟨hFacts, ?_, ?_, ?_, ?_, ?_, ?_⟩
    · rw [if_neg hIs, hEntered, hRaw]
      split <;> rfl
    · rw [if_neg hIs, hEntered, hNamed]
      split <;> rfl
    · rw [if_neg hIs, hEntered, hSource]
      split <;> rfl
    · rw [if_neg hIs, hEntered, hReply]
      split <;> rfl
    · rw [hEntered, hBlob]
      split <;> rfl
    · rw [Bool.eq_false_iff.mpr hIs, Bool.false_and, Bool.or_false, hEntered, hNon]
      split <;> rfl

theorem LedgerView.add_letters {fact : Fact} (h : v.add host fact = .ok w) : LedgerView.AddedLetter host v fact w := by
  unfold LedgerView.add at h
  split at h
  · cases h
  · split at h
    · cases h
    · next stamp _ =>
        obtain ⟨key, -, hEq⟩ := Fallible.peel h
        obtain rfl := Except.ok.inj hEq
        obtain ⟨hFacts, hRaw, hNamed, hSource, hReply, hBlob, hNon⟩ := v.entered_letters host fact stamp
        exact ⟨hFacts, hRaw, hNamed, hSource, hReply, hBlob, hNon⟩

/-- The indexes over letters and sources describe the list. -/
structure LedgerView.Lettered (host : Host) (v : LedgerView) : Prop where
  raw : ∀ ident, v.rawLetters.lookup ident = (v.facts.filter fun f => isLetter f && f.id = ident).getLast?
  named : ∀ name, v.namedLetters.lookup name = (v.facts.filter fun f => isLetter f && nameOf host f = name).getLast?
  bySource : ∀ key ident, ident ∈ (v.lettersBySource.lookup key).getD [] ↔
    ∃ f ∈ v.facts, isLetter f ∧ Dict.get f.data "cites" = key ∧ f.id = ident
  byReply : ∀ key ident, ident ∈ (v.lettersByReply.lookup key).getD [] ↔
    ∃ f ∈ v.facts, isLetter f ∧ Dict.get f.data "re" = key ∧ f.id = ident
  byBlob : ∀ ref ident, ident ∈ (v.sourcesByBlob.lookup ref).getD [] ↔
    ∃ f ∈ v.facts, f.kind = "source" ∧ ref ∈ f.after ∧ f.id = ident
  noncanonical : v.noncanonicalLetters = v.facts.any fun f => isLetter f && nameOf host f != f.id

section Dicts

variable {κ ν : Type} [DecidableEq κ] [DecidableEq ν]

theorem mem_addAt (index : List (κ × List ν)) (key other : κ) (value x : ν) :
    x ∈ ((addAt index key value).lookup other).getD [] ↔
      x ∈ (index.lookup other).getD [] ∨ other = key ∧ x = value := by
  rw [addAt, lookup_cons_if]
  by_cases h : other = key
  · subst h
    simp [List.mem_insert_iff, or_comm]
  · simp [h]

theorem mem_foldl_addAt (refs : List κ) (index : List (κ × List ν)) (value x : ν) (other : κ) :
    x ∈ ((refs.foldl (fun index ref => addAt index ref value) index).lookup other).getD [] ↔
      x ∈ (index.lookup other).getD [] ∨ other ∈ refs ∧ x = value := by
  induction refs generalizing index with
  | nil => simp
  | cons ref refs ih =>
      rw [List.foldl_cons, ih, mem_addAt]
      simp only [List.mem_cons]
      tauto

end Dicts

theorem Lettered.grows (host : Host) : Grows host (LedgerView.Lettered host) where
  empty := by constructor <;> simp [LedgerView.empty]
  noted := fun _ _ _ _ _ h => ⟨h.raw, h.named, h.bySource, h.byReply, h.byBlob, h.noncanonical⟩
  add := by
    intro v fact w h hAdd
    have hAdded := LedgerView.add_letters hAdd
    cases hLetter : isLetter fact with
    | true =>
        have hNot : fact.kind ≠ "source" := by
          rw [of_decide_eq_true hLetter]
          decide
        constructor
        · intro ident
          rw [hAdded.raw, hAdded.facts, if_pos hLetter, lookup_cons_if, List.filter_append]
          by_cases hIdent : ident = fact.id
          · simp [hIdent, hLetter]
          · simp [hIdent, Ne.symm hIdent, h.raw]
        · intro name
          rw [hAdded.named, hAdded.facts, if_pos hLetter, lookup_cons_if, List.filter_append]
          by_cases hName : name = nameOf host fact
          · simp [hName, hLetter]
          · simp [hName, Ne.symm hName, h.named]
        · intro key ident
          rw [hAdded.bySource, hAdded.facts, if_pos hLetter, mem_addAt, h.bySource]
          simp only [List.mem_append, List.mem_singleton]
          constructor
          · rintro (⟨f, hf, hRest⟩ | ⟨hKey, hId⟩)
            · exact ⟨f, .inl hf, hRest⟩
            · exact ⟨fact, .inr rfl, hLetter, hKey.symm, hId.symm⟩
          · rintro ⟨f, hf | rfl, hIs, hKey, hId⟩
            · exact .inl ⟨f, hf, hIs, hKey, hId⟩
            · exact .inr ⟨hKey.symm, hId.symm⟩
        · intro key ident
          rw [hAdded.byReply, hAdded.facts, if_pos hLetter, mem_addAt, h.byReply]
          simp only [List.mem_append, List.mem_singleton]
          constructor
          · rintro (⟨f, hf, hRest⟩ | ⟨hKey, hId⟩)
            · exact ⟨f, .inl hf, hRest⟩
            · exact ⟨fact, .inr rfl, hLetter, hKey.symm, hId.symm⟩
          · rintro ⟨f, hf | rfl, hIs, hKey, hId⟩
            · exact .inl ⟨f, hf, hIs, hKey, hId⟩
            · exact .inr ⟨hKey.symm, hId.symm⟩
        · intro ref ident
          rw [hAdded.byBlob, hAdded.facts, if_neg hNot, h.byBlob]
          constructor
          · rintro ⟨f, hf, hRest⟩
            exact ⟨f, List.mem_append_left _ hf, hRest⟩
          · rintro ⟨f, hf, hSource, hRest⟩
            rcases List.mem_append.mp hf with hf | hf
            · exact ⟨f, hf, hSource, hRest⟩
            · exact absurd hSource (List.mem_singleton.mp hf ▸ hNot)
        · rw [hAdded.noncanonical, hAdded.facts, h.noncanonical]
          simp
    | false =>
        have hNone (p : Fact → Bool) : [fact].filter (fun f => isLetter f && p f) = [] := by simp [hLetter]
        constructor
        · intro ident
          rw [hAdded.raw, hAdded.facts, if_neg (by simp [hLetter]), List.filter_append, hNone, List.append_nil, h.raw]
        · intro name
          rw [hAdded.named, hAdded.facts, if_neg (by simp [hLetter]), List.filter_append, hNone, List.append_nil,
            h.named]
        · intro key ident
          rw [hAdded.bySource, hAdded.facts, if_neg (by simp [hLetter]), h.bySource]
          simp [hLetter]
        · intro key ident
          rw [hAdded.byReply, hAdded.facts, if_neg (by simp [hLetter]), h.byReply]
          simp [hLetter]
        · intro ref ident
          rw [hAdded.byBlob, hAdded.facts]
          by_cases hSource : fact.kind = "source"
          · rw [if_pos hSource, mem_foldl_addAt, h.byBlob]
            simp only [List.mem_append, List.mem_singleton]
            constructor
            · rintro (⟨f, hf, hRest⟩ | ⟨hRef, hId⟩)
              · exact ⟨f, .inl hf, hRest⟩
              · exact ⟨fact, .inr rfl, hSource, hRef, hId.symm⟩
            · rintro ⟨f, hf | rfl, hIs, hRef, hId⟩
              · exact .inl ⟨f, hf, hIs, hRef, hId⟩
              · exact .inr ⟨hRef, hId.symm⟩
          · rw [if_neg hSource, h.byBlob]
            simp [hSource]
        · rw [hAdded.noncanonical, hAdded.facts, h.noncanonical]
          simp [hLetter]

end Brnrd.Ledger
