import Brnrd.Ledger.LetterIndex
import Brnrd.Project.Replay

/-! The projections over letters that a view carries from one extension to the
next, building again only for the letters that new facts touch. -/
namespace Brnrd.Letters

open Python Facts Ledger Project

variable {ι ν : Type} [DecidableEq ι]

/-- `found[key] = x`, for a letter that has an entry. -/
def enter (entry : Fact → Except Raised (Option ν)) (key : Fact → String) (found : List (String × ν)) (letter : Fact) :
    Except Raised (List (String × ν)) :=
  match entry letter with
  | .ok (some x) => .ok ((key letter, x) :: found)
  | .ok none => .ok found
  | .error e => .error e

/-- A dict with an entry for each letter that has one, as a list in which a
later item shadows an earlier one. -/
def buildWith (entry : Fact → Except Raised (Option ν)) (key : Fact → String) (letters : List Fact) :
    Except Raised (List (String × ν)) :=
  letters.foldlM (enter entry key) []

/-- A projection's dependencies, and its builder: over some letters, or all. -/
structure Projection (ι ν : Type) where
  kinds : List String
  build : LedgerView → ι → Option (List Fact) → Except Raised (List (String × ν))

/-- What a view keeps for one name: `letter_projections[name]`, and the entries
of `cache` under the name. -/
structure Carry (ι ν : Type) where
  prior : Option (ι × List Nat × List (String × ν))
  cache : List (ι × List Nat × List (String × ν))

def Carry.start : Carry ι ν :=
  ⟨none, []⟩

/-- The kinds whose counts are the cursors. -/
def letterKinds : List String :=
  ["letter", "source", "blob"]

/-- The letters that a new fact of a kind selects. -/
def selects (v : LedgerView) (kind : String) (fact : Fact) : List String :=
  if kind = "letter" then fact.id :: (v.lettersByReply.lookup (.str fact.id)).getD []
  else if kind = "source" then (v.lettersBySource.lookup (.str fact.id)).getD []
  else ((v.sourcesByBlob.lookup fact.id).getD []).flatMap fun source =>
    (v.lettersBySource.lookup (.str source)).getD []

/-- `selected`: what the facts behind the cursors select. -/
def selectedSince (v : LedgerView) (cursors : List Nat) : List String :=
  (letterKinds.zip cursors).flatMap fun (kind, offset) => ((kindRows v kind).drop offset).flatMap (selects v kind)

/-- `[self.raw_letters[ident] for ident in sorted(selected, …)]`. -/
def pickLetters (v : LedgerView) (selected : List String) : List Fact :=
  (selected.dedup.filterMap fun ident => v.rawLetters.lookup ident).insertionSort fun f g => position v f ≤ position v g

/-- `result.pop(ident, None)` for the selected letters. -/
def popAll (result : List (String × ν)) (selected : List String) : List (String × ν) :=
  result.filter fun item => item.1 ∉ selected

/-- `project(name, inputs, …)`, where a letter goes by another name than its id. -/
def projectAll (P : Projection ι ν) (v : LedgerView) (inputs : ι) (c : Carry ι ν) :
    Carry ι ν × Except Raised (List (String × ν)) :=
  let revision := counts v P.kinds
  match (c.cache.lookup inputs).filter fun entry => entry.1 = revision with
  | some (_, result) => (c, .ok result)
  | none => match P.build v inputs none with
      | .ok result => ({ c with cache := (inputs, revision, result) :: c.cache }, .ok result)
      | .error e => (c, .error e)

/-- `project_letters(name, inputs, build)`. The dict is popped in place before the
builder runs, so a builder that raises leaves it popped. -/
def projectLetters (P : Projection ι ν) (v : LedgerView) (inputs : ι) (c : Carry ι ν) :
    Carry ι ν × Except Raised (List (String × ν)) :=
  if v.noncanonicalLetters then projectAll P v inputs c
  else
    let now := counts v letterKinds
    match c.prior.filter fun prior => prior.1 = inputs with
    | some (_, cursors, result) =>
        if cursors = now then (c, .ok result)
        else
          let selected := selectedSince v cursors
          let kept := popAll result selected
          match P.build v inputs (some (pickLetters v selected)) with
          | .ok found => ({ c with prior := some (inputs, now, found ++ kept) }, .ok (found ++ kept))
          | .error e => ({ c with prior := some (inputs, cursors, kept) }, .error e)
    | none => match P.build v inputs (some (pickLetters v (v.rawLetters.map Prod.fst))) with
        | .ok found => ({ c with prior := some (inputs, now, found) }, .ok found)
        | .error e => (c, .error e)

/-- Two dicts with the same items, or the same exception. -/
def Same : Except Raised (List (String × ν)) → Except Raised (List (String × ν)) → Prop
  | .ok a, .ok b => ∀ key, a.lookup key = b.lookup key
  | .error e, .error e' => e = e'
  | _, _ => False

theorem Same.refl (x : Except Raised (List (String × ν))) : Same x x := by
  cases x with
  | error e => rfl
  | ok a => exact fun key => rfl

section Build

variable {entry : Fact → Except Raised (Option ν)} {key : Fact → String}

theorem enter_eq_ok {m r : List (String × ν)} {f : Fact} : enter entry key m f = .ok r ↔
    ∃ x, entry f = .ok x ∧ r = match x with
      | some x => (key f, x) :: m
      | none => m := by
  unfold enter
  cases entry f with
  | error e => simp
  | ok x => cases x <;> simp [eq_comm]

variable {l : List Fact}

theorem buildWith_snoc {f : Fact} {r : List (String × ν)} :
    buildWith entry key (l ++ [f]) = .ok r ↔ ∃ m x, buildWith entry key l = .ok m ∧ entry f = .ok x ∧
      r = match x with
        | some x => (key f, x) :: m
        | none => m := by
  unfold buildWith
  rw [Fallible.foldlM_snoc]
  simp only [enter_eq_ok, exists_and_left]

/-- A dict built of letters that are keyed by their ids has their entries. -/
theorem buildWith_lookup {r : List (String × ν)} (hIds : (l.map Fact.id).Nodup) (hKeys : ∀ f ∈ l, key f = f.id)
    (h : buildWith entry key l = .ok r) :
    (∀ f ∈ l, entry f = .ok (r.lookup f.id)) ∧ ∀ k, (∀ f ∈ l, f.id ≠ k) → r.lookup k = none := by
  induction l using List.reverseRecOn generalizing r with
  | nil =>
      obtain rfl : [] = r := Except.ok.inj h
      exact ⟨fun f hf => absurd hf List.not_mem_nil, fun k _ => rfl⟩
  | append_singleton l g ih =>
      obtain ⟨m, x, hm, hx, rfl⟩ := buildWith_snoc.mp h
      rw [List.map_append, List.nodup_append] at hIds
      obtain ⟨hPrior, -, hNew⟩ := hIds
      obtain ⟨hEntries, hOthers⟩ := ih hPrior (fun f hf => hKeys f (List.mem_append_left _ hf)) hm
      have hFresh : ∀ f ∈ l, f.id ≠ g.id := fun f hf => hNew f.id (List.mem_map_of_mem hf) g.id (by simp)
      have hKey : key g = g.id := hKeys g (by simp)
      cases x with
      | none =>
          refine ⟨fun f hf => ?_, fun k hk => hOthers k fun f hf => hk f (List.mem_append_left _ hf)⟩
          rcases List.mem_append.mp hf with hf | hf
          · exact hEntries f hf
          · rw [List.mem_singleton.mp hf, hx, hOthers g.id hFresh]
      | some x =>
          simp only [hKey, lookup_cons_if]
          refine ⟨fun f hf => ?_, fun k hk => ?_⟩
          · rcases List.mem_append.mp hf with hf | hf
            · rw [if_neg (hFresh f hf)]
              exact hEntries f hf
            · rw [List.mem_singleton.mp hf, if_pos rfl]
              exact hx
          · rw [if_neg (Ne.symm (hk g (by simp)))]
            exact hOthers k fun f hf => hk f (List.mem_append_left _ hf)

theorem buildWith_ok (h : ∀ f ∈ l, ∃ x, entry f = .ok x) : ∃ r, buildWith entry key l = .ok r := by
  induction l using List.reverseRecOn with
  | nil => exact ⟨[], rfl⟩
  | append_singleton l g ih =>
      obtain ⟨m, hm⟩ := ih fun f hf => h f (List.mem_append_left _ hf)
      obtain ⟨x, hx⟩ := h g (by simp)
      exact ⟨_, buildWith_snoc.mpr ⟨m, x, hm, hx, rfl⟩⟩

/-- Letters whose entries do not raise can be left out of what raises first. -/
theorem buildWith_error {p : Fact → Bool} (h : ∀ f ∈ l, p f = false → ∃ x, entry f = .ok x) {e : Raised}
    (hError : buildWith entry key (l.filter p) = .error e) : buildWith entry key l = .error e := by
  have hAll : ∀ found found' : List (String × ν), (l.filter p).foldlM (enter entry key) found = .error e →
      l.foldlM (enter entry key) found' = .error e := by
    clear hError
    induction l with
    | nil => exact nofun
    | cons f l ih =>
        intro found found' hError
        have hRest := ih fun g hg => h g (List.mem_cons_of_mem _ hg)
        rw [List.foldlM_cons]
        cases hp : p f with
        | false =>
            rw [List.filter_cons_of_neg (by simp [hp])] at hError
            obtain ⟨x, hx⟩ := h f List.mem_cons_self hp
            rw [enter, hx]
            cases x with
            | none => exact hRest found found' hError
            | some x => exact hRest found _ hError
        | true =>
            rw [List.filter_cons_of_pos hp, List.foldlM_cons] at hError
            unfold enter at hError ⊢
            cases hx : entry f with
            | error e' =>
                rw [hx] at hError
                exact hError
            | ok x =>
                rw [hx] at hError
                cases x with
                | none => exact hRest found found' hError
                | some x => exact hRest _ _ hError
  exact hAll [] [] hError

end Build

end Brnrd.Letters
