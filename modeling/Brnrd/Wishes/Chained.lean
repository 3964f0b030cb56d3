import Brnrd.Wishes.Beads

/-! Every chain of beads ends: at a root, or dangling. -/
namespace Brnrd.Wishes

open Python Facts

variable {host : Host} {b : Beads} {ident root : String}

/-- The letter answers one, or the first of its links can be read. -/
def Followable (f : Fact) : Prop :=
  (f.data.get "re").truthy = true ∨ (f.data.get "links").truthy = false ∨
    (∃ link rest, f.data.get "links" = .arr (link :: rest)) ∨ ∃ text, f.data.get "links" = .str text

/-- An id that names a letter by its shape names one that the ledger holds. -/
def Beads.Known (b : Beads) (ident : String) : Prop :=
  b.kind ident = .letter → ∃ f, Entries.get ident b.letters = some f

theorem firstLink_ok_iff (links : Value) : (∃ link, firstLink host links = .ok link) ↔
    links.truthy = false ∨ (∃ link rest, links = .arr (link :: rest)) ∨ ∃ text, links = .str text := by
  unfold firstLink
  cases links with
  | null => simp [Value.truthy]
  | bool b => cases b <;> simp [Value.truthy]
  | int n => by_cases hZero : n = 0 <;> simp [Value.truthy, hZero]
  | float repr trunc => cases hTruthy : (Value.float repr trunc).truthy <;> simp
  | str text => cases hTruthy : (Value.str text).truthy <;> simp
  | arr items => cases items <;> simp [Value.truthy]
  | obj fields => cases hTruthy : (Value.obj fields).truthy <;> simp

theorem letterParent_ok_iff (f : Fact) : (∃ r, b.letterParent host f = .ok r) ↔ Followable f := by
  unfold Beads.letterParent Followable
  dsimp only
  by_cases hRe : (f.data.get "re").truthy = true
  · simp [hRe]
  · rw [if_neg hRe, ← @firstLink_ok_iff host]
    rw [or_iff_right hRe]
    constructor
    · rintro ⟨r, h⟩
      obtain ⟨link, hLink, -⟩ := Fallible.peel h
      exact ⟨link, hLink⟩
    · rintro ⟨link, hLink⟩
      rw [hLink, Fallible.ok_bind]
      cases link with
      | some link => exact ⟨_, rfl⟩
      | none =>
          dsimp only
          split
          · exact ⟨_, rfl⟩
          · split
            · split <;> exact ⟨_, rfl⟩
            · split <;> exact ⟨_, rfl⟩

/-- A parent is read exactly where a letter is held that can be read. -/
theorem parent_ok_iff : (∃ r, b.parent host ident = .ok r) ↔
    (b.kind ident = .letter → ∃ f, Entries.get ident b.letters = some f ∧ Followable f) := by
  unfold Beads.parent
  cases hKind : b.kind ident with
  | letter =>
      cases hGet : Entries.get ident b.letters with
      | none => simp
      | some f =>
          refine (letterParent_ok_iff f).trans ⟨fun h _ => ⟨f, rfl, h⟩, fun h => ?_⟩
          obtain ⟨f', hSame, hFollow⟩ := h rfl
          exact Option.some.inj hSame ▸ hFollow
  | wish => simp
  | fact => simp
  | thread => simp
  | strand => simp

theorem kind_of_letter {f : Fact} (h : Entries.get ident b.letters = some f) : b.kind ident = .letter := by
  unfold Beads.kind
  rw [h]
  rfl

/-- A letter that is not held has no parent to read. -/
theorem parent_of_missing (h : b.missing ident = true) (r : Option String × String) : b.parent host ident ≠ .ok r := by
  simp only [Beads.missing, Bool.and_eq_true, Option.isNone_iff_eq_none, decide_eq_true_eq] at h
  intro hOk
  obtain ⟨f, hGet, -⟩ := parent_ok_iff.mp ⟨r, hOk⟩ h.2
  rw [h.1.1] at hGet
  cases hGet

theorem known_of_held (h : b.missing ident = false) : b.Known ident := by
  intro hKind
  cases hGet : Entries.get ident b.letters with
  | some f => exact ⟨f, rfl⟩
  | none =>
      have hFact : (Entries.get ident b.facts).isNone = false := by
        simpa [Beads.missing, hGet, hKind] using h
      unfold Beads.kind at hKind
      rw [hGet] at hKind
      split at hKind
      · rename_i hSome
        cases hSome
      · split at hKind
        · cases hKind
        · split at hKind
          · cases hKind
          · rename_i hNone
            simp_all

/-- The labels that no parent goes with. -/
theorem root_of_parent (h : b.parent host ident = .ok (none, root)) : root ∈ rootKinds ∨ root = "dangling" := by
  have hPerson : "person" ∈ rootKinds := by decide
  have hLoom : "loom" ∈ rootKinds := by decide
  have hUnconfirmed : "unconfirmed" ∈ rootKinds := by decide
  unfold Beads.parent at h
  split at h
  · split at h
    · unfold Beads.letterParent at h
      dsimp only at h
      split at h
      · cases h
      · obtain ⟨link, -, h⟩ := Fallible.peel h
        split at h
        · cases h
        · split at h
          · exact .inl ((Fallible.pair h).2 ▸ hPerson)
          · split at h
            · split at h
              · cases h
              · exact .inl ((Fallible.pair h).2 ▸ hLoom)
            · split at h
              · cases h
              · exact .inr (Fallible.pair h).2.symm
    · cases h
  · obtain ⟨-, rfl⟩ := Fallible.pair h
    split
    · exact .inl hLoom
    · exact .inr rfl
  · have hPair := Except.ok.inj h
    split at hPair
    · cases hPair
    · exact .inr (Prod.mk.inj hPair).2.symm
  · have hPair := Except.ok.inj h
    unfold Beads.threadParent at hPair
    dsimp only at hPair
    split at hPair
    · cases hPair
    · split at hPair
      · cases hPair
      · exact .inr (Prod.mk.inj hPair).2.symm
  · have hPair := Except.ok.inj h
    split at hPair
    · unfold Beads.wishParent at hPair
      dsimp only at hPair
      split at hPair
      · cases hPair
      · split at hPair
        · exact .inl ((Prod.mk.inj hPair).2 ▸ hUnconfirmed)
        · split at hPair
          · cases hPair
          · split at hPair
            · cases hPair
            · exact .inr (Prod.mk.inj hPair).2.symm
    · exact .inr (Prod.mk.inj hPair).2.symm

/-- A chain with no id twice, each step the parent of the one before it, whose root kind
is one of the roots exactly where the parent of the last is that root. -/
structure Beads.Rooted (host : Host) (b : Beads) (ident : String) (chain : List (String × String)) (root : String) :
    Prop where
  nodup : (ident :: chain.map Prod.fst).Nodup
  steps : Climbed.Steps (b.parent host) ident chain
  root : (root ∈ rootKinds ∨ root = "dangling") ∧
    ∀ kind ∈ rootKinds, root = kind ↔ b.parent host (Climbed.lastOf ident chain) = .ok (none, kind)

/-- Every chain comes to its end in one round more than there are parents, and it is a
chain to a root exactly where no letter stands for the id that is not held, and no letter
on the way up has links of which there is no first. -/
theorem chain_rooted (host : Host) (b : Beads) (ident : String) (rounds : ℕ)
    (hRounds : (b.parents host).length < rounds) :
    (∃ result, b.chain host rounds ident = some result) ∧
      ((∃ chain root, b.chain host rounds ident = some (.ok (chain, root)) ∧ b.Rooted host ident chain root) ↔
        b.Known ident ∧ ∀ other f, Relation.ReflTransGen (Climbed.Parent (b.parent host)) ident other →
          Entries.get other b.letters = some f → Followable f) := by
  have hParents : ∀ x y, Climbed.Parent (b.parent host) x y → y ∈ b.parents host := fun _ _ => Beads.mem_parents
  refine ⟨Climbed.climb_returns hParents .refl rfl (by simpa using hRounds), ?_⟩
  have hIff := @Climbed.climb_ok_iff _ _ _ _ b.missing "dangling" ident rounds _ _ hParents
    (fun _ hMissing => parent_of_missing hMissing) hRounds
  have hRooted : ∀ chain root, b.chain host rounds ident = some (.ok (chain, root)) → b.Rooted host ident chain root := by
    intro chain root h
    obtain ⟨hTrail, hEnding⟩ := Climbed.climb_ok .refl rfl h
    refine ⟨hTrail.nodup, hTrail.steps, ?_⟩
    have hStray : ∀ kind ∈ rootKinds, "dangling" ≠ kind := by decide
    cases hEnding with
    | root hLast =>
        refine ⟨root_of_parent hLast, fun kind _ => ?_⟩
        rw [hLast]
        simp
    | passed other hOther hPassed hLabel =>
        subst hLabel
        refine ⟨.inr rfl, fun kind hKind => iff_of_false (hStray kind hKind) ?_⟩
        obtain ⟨edge, hEdge⟩ := hOther
        simp [hEdge]
    | missing hNew hMissing hLabel =>
        subst hLabel
        exact ⟨.inr rfl, fun kind hKind => iff_of_false (hStray kind hKind) (parent_of_missing hMissing _)⟩
  constructor
  · rintro ⟨chain, root, h, -⟩
    have hAll := hIff.mp ⟨chain, root, h⟩
    refine ⟨fun hKind => ?_, fun other f hReach hGet => ?_⟩
    · obtain ⟨f, hGet, -⟩ := parent_ok_iff.mp (hAll ident .refl (.inl rfl)) hKind
      exact ⟨f, hGet⟩
    · have hHeld : b.missing other = false := by simp [Beads.missing, hGet]
      obtain ⟨f', hGet', hFollow⟩ := parent_ok_iff.mp (hAll other hReach (.inr hHeld)) (kind_of_letter hGet)
      exact Option.mem_unique hGet hGet' ▸ hFollow
  · rintro ⟨hKnown, hFollow⟩
    obtain ⟨chain, root, h⟩ := hIff.mpr fun other hReach hHeld => by
      refine parent_ok_iff.mpr fun hKind => ?_
      have hOther : b.Known other := hHeld.elim (fun hSame => hSame ▸ hKnown) known_of_held
      obtain ⟨f, hGet⟩ := hOther hKind
      exact ⟨f, hGet, hFollow other f hReach hGet⟩
    exact ⟨chain, root, h, hRooted chain root h⟩

def noteTo (ident re : String) : Fact :=
  ⟨"letter", "strand:s-1", [("id", .str ident), ("from", .str "strand:s-1"), ("re", .str re)], "", ident, version,
    some ⟨1, 0, "aaaa"⟩, []⟩

/-- Two letters that answer each other. -/
def answeringEachOther : Except BeadError Beads :=
  Beads.of Facts.bareHost mergedCheckout [noteTo "letter:a" "letter:b", noteTo "letter:b" "letter:a"] []

theorem chain_rooted_ring : ∃ b, answeringEachOther.toOption = some b ∧
    ((∃ result, b.chain Facts.bareHost 9 "letter:a" = some result) ∧
      ((∃ chain root, b.chain Facts.bareHost 9 "letter:a" = some (.ok (chain, root)) ∧
          b.Rooted Facts.bareHost "letter:a" chain root) ↔
        b.Known "letter:a" ∧ ∀ other f,
          Relation.ReflTransGen (Climbed.Parent (b.parent Facts.bareHost)) "letter:a" other →
            Entries.get other b.letters = some f → Followable f)) ∧
    b.chain Facts.bareHost 9 "letter:a" = some (.ok ([("letter:b", "re")], "dangling")) := by
  have hAll : answeringEachOther.toOption.any (fun b => (b.parents Facts.bareHost).length < 9 &&
      (b.chain Facts.bareHost 9 "letter:a").map Except.toOption = some (some ([("letter:b", "re")], "dangling"))) = true := by
    decide +kernel
  cases hBeads : answeringEachOther.toOption with
  | none =>
      rw [hBeads] at hAll
      cases hAll
  | some b =>
      rw [hBeads, Option.any_some, Bool.and_eq_true, decide_eq_true_eq, decide_eq_true_eq] at hAll
      refine ⟨b, rfl, chain_rooted Facts.bareHost b "letter:a" 9 hAll.1, ?_⟩
      obtain ⟨result, hResult, hOk⟩ := Option.map_eq_some_iff.mp hAll.2
      rw [hResult]
      cases result with
      | error e => cases hOk
      | ok found => exact congrArg (some ∘ Except.ok) (Option.some.inj hOk)

/-- In a ledger without facts, a number that no letter has raises. -/
theorem unknown_letter_raises : ¬ ∀ facts main b ident, Beads.of Facts.bareHost mergedCheckout facts main = .ok b →
    ∃ rounds chain root, b.chain Facts.bareHost rounds ident = some (.ok (chain, root)) ∧
      b.Rooted Facts.bareHost ident chain root := by
  intro hAll
  have hEmpty : (Beads.of Facts.bareHost mergedCheckout [] []).toOption.any
      (fun b => (b.parent Facts.bareHost "4529").toOption.isNone) = true := by
    decide +kernel
  cases hBeads : Beads.of Facts.bareHost mergedCheckout [] [] with
  | error e =>
      rw [hBeads] at hEmpty
      cases hEmpty
  | ok b =>
      rw [hBeads] at hEmpty
      obtain ⟨rounds, chain, root, hChain, -⟩ := hAll [] [] b "4529" hBeads
      have hParent : (b.parent Facts.bareHost "4529").toOption.isNone = true := hEmpty
      cases rounds with
      | zero => cases hChain
      | succ rounds =>
          rw [Beads.chain, Climbed.climb] at hChain
          cases hUp : b.parent Facts.bareHost "4529" with
          | error e =>
              rw [hUp] at hChain
              cases hChain
          | ok found =>
              rw [hUp] at hParent
              cases hParent

end Brnrd.Wishes
