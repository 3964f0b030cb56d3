import Brnrd.Ledger.Registry

/-! The ledger's one write path, with the id and clock indexes a process keeps
of its install's folder. A stamp follows only the writer's own stamps. -/
namespace Brnrd.Ledger

open Python Facts

/-- `_content`. -/
def content (fact : Fact) : String × String × Dict :=
  (fact.kind, fact.by_, fact.data)

/-- The ways `append` raises. -/
inductive AppendError where
  | undeclared (text : String)
  /-- `conflicting fact id: {id}`. -/
  | conflict (id : String)
  /-- `no strand file for {kind} {id}`. -/
  | noFile (kind id : String)
  deriving DecidableEq

/-- The id and clock indexes of one install's folder, whose first `read` facts
they have taken in. A later entry shadows an earlier one of its key. -/
structure WriterIndex where
  read : Nat
  existing : List (String × Fact)
  clocks : List (String × Int × Int)
  deriving DecidableEq

/-- `clocks.get(install, (-1, -1))`. -/
def WriterIndex.clock (index : WriterIndex) (install : String) : Int × Int :=
  (index.clocks.lookup install).getD (-1, -1)

/-- The later of two stamps' `(ms, counter)`. -/
def later (a b : Int × Int) : Int × Int :=
  if toLex a < toLex b then b else a

def WriterIndex.put (index : WriterIndex) (fact : Fact) : WriterIndex where
  read := index.read + 1
  existing := (fact.id, fact) :: index.existing
  clocks := match fact.hlc with
    | some stamp => (stamp.install, later (index.clock stamp.install) (stamp.ms, stamp.counter)) ::
        index.clocks
    | none => index.clocks

/-- One fact read from the folder, checked against the content known so far. -/
def WriterIndex.add (index : WriterIndex) (fact : Fact) : Except AppendError WriterIndex :=
  match index.existing.lookup fact.id with
  | some old => if content old = content fact then .ok (index.put fact)
      else .error (.conflict fact.id)
  | none => .ok (index.put fact)

/-- `refresh(directory)`: the facts past the cursor. -/
def WriterIndex.refresh (index : WriterIndex) (directory : List Fact) :
    Except AppendError WriterIndex :=
  (directory.drop index.read).foldlM WriterIndex.add index

/-- `next_hlc(install)` at `now` milliseconds of the wall clock. -/
def WriterIndex.nextHlc (index : WriterIndex) (now : Int) (install : String) : Hlc :=
  let best := index.clock install
  if best.1 < now then ⟨now, 0, install⟩ else ⟨best.1, best.2 + 1, install⟩

/-- One install's folder of the ledger and the index its process keeps. -/
structure Folder where
  own : List Fact
  index : WriterIndex
  deriving DecidableEq

def Folder.empty : Folder :=
  ⟨[], ⟨0, [], []⟩⟩

/-- The rest of `append`, once the index is up to date with the folder. -/
def Folder.write (now : Int) (install : String) (s : Folder) (fact : Fact) :
    Except AppendError (Folder × Fact) :=
  match s.index.existing.lookup fact.id with
  | some old => if content old = content fact then .ok (s, old) else .error (.conflict fact.id)
  | none =>
      let stored := { fact with hlc := some (fact.hlc.getD (s.index.nextHlc now install)) }
      match factFilename stored with
      | none => .error (.noFile stored.kind stored.id)
      | some _ => .ok ({ s with own := s.own ++ [stored] }, stored)

/-- `append(home, fact)`: the folder after it and the fact it returns. -/
def append (now : Int) (install : String) (s : Folder) (fact : Fact) :
    Except AppendError (Folder × Fact) :=
  match admitFact fact with
  | some text => .error (.undeclared text)
  | none => do
      let index ← s.index.refresh s.own
      { s with index := index }.write now install fact

/-- The newest `(ms, counter)` that `facts` hold under an install's name. -/
def lastStamp (install : String) (facts : List Fact) : Int × Int :=
  facts.foldl (fun best fact => match fact.hlc with
    | some stamp => if stamp.install = install then later best (stamp.ms, stamp.counter) else best
    | none => best) (-1, -1)

/-- The index describes the part of the folder it has read. -/
structure WriterIndex.Describes (index : WriterIndex) (facts : List Fact) : Prop where
  read : index.read = facts.length
  clock : ∀ install, index.clock install = lastStamp install facts
  existing : ∀ ident old, index.existing.lookup ident = some old → old ∈ facts ∧ old.id = ident
  known : ∀ f ∈ facts, ∃ old, index.existing.lookup f.id = some old

variable {index index' : WriterIndex}

theorem WriterIndex.Describes.put {facts : List Fact} (h : index.Describes facts) (fact : Fact) :
    (index.put fact).Describes (facts ++ [fact]) := by
  refine ⟨by simp [WriterIndex.put, h.read], fun install => ?_, fun ident old hOld => ?_,
    fun f hf => ?_⟩
  · rw [lastStamp, List.foldl_append, ← lastStamp]
    cases hHlc : fact.hlc with
    | none => simpa [WriterIndex.put, WriterIndex.clock, hHlc] using h.clock install
    | some stamp =>
        by_cases hInstall : stamp.install = install
        · subst hInstall
          simp [WriterIndex.put, WriterIndex.clock, hHlc, ← h.clock]
        · have hPrior := h.clock install
          rw [WriterIndex.clock] at hPrior
          simp [WriterIndex.put, WriterIndex.clock, hHlc, hInstall, lookup_cons_if,
            Ne.symm hInstall, hPrior]
  · rw [WriterIndex.put, lookup_cons_if] at hOld
    by_cases hId : ident = fact.id
    · rw [if_pos hId] at hOld
      obtain rfl := Option.some.inj hOld
      exact ⟨by simp, hId.symm⟩
    · rw [if_neg hId] at hOld
      obtain ⟨hMem, hOldId⟩ := h.existing ident old hOld
      exact ⟨List.mem_append_left _ hMem, hOldId⟩
  · rw [WriterIndex.put, lookup_cons_if]
    by_cases hId : f.id = fact.id
    · exact ⟨fact, if_pos hId⟩
    · rw [if_neg hId]
      rcases List.mem_append.mp hf with hf | hf
      · exact h.known f hf
      · exact absurd (by rw [List.mem_singleton.mp hf]) hId

variable {fact stored : Fact}

theorem WriterIndex.add_eq_ok (h : index.add fact = .ok index') : index' = index.put fact := by
  unfold WriterIndex.add at h
  split at h
  · split at h
    · exact (Except.ok.inj h).symm
    · cases h
  · exact (Except.ok.inj h).symm

/-- The index keeps up with its folder. -/
def Folder.InStep (s : Folder) : Prop :=
  ∃ first rest, s.own = first ++ rest ∧ s.index.Describes first

theorem WriterIndex.Describes.refresh {first rest : List Fact} (h : index.Describes first)
    (hRefresh : index.refresh (first ++ rest) = .ok index') :
    index'.Describes (first ++ rest) := by
  rw [WriterIndex.refresh, h.read, List.drop_left] at hRefresh
  refine Fallible.foldlM_invariant (fun l i => i.Describes (first ++ l)) (by simpa using h) ?_ hRefresh
  intro l fact i i' hi hAdd
  rw [WriterIndex.add_eq_ok hAdd, ← List.append_assoc]
  exact hi.put fact

variable {s folder : Folder}

theorem Folder.InStep.refresh (h : s.InStep) (hRefresh : s.index.refresh s.own = .ok index) : index.Describes s.own := by
  obtain ⟨first, rest, hOwn, hFirst⟩ := h
  rw [hOwn] at hRefresh ⊢
  exact hFirst.refresh hRefresh

variable {install : String}

/-- What `append` does: nothing, for a fact the folder has, and otherwise one
more fact at the end, with the stamp it brings or the next one. -/
theorem append_cases {now : Int} (hInStep : s.InStep) (h : append now install s fact = .ok (folder, stored)) :
    folder.InStep ∧
    ((folder.own = s.own ∧ stored ∈ s.own ∧ stored.id = fact.id) ∨
     (folder.own = s.own ++ [stored] ∧ (∀ g ∈ s.own, g.id ≠ fact.id) ∧
      ∃ index : WriterIndex, index.Describes s.own ∧
        stored = { fact with hlc := some (fact.hlc.getD (index.nextHlc now install)) })) := by
  unfold append at h
  cases hAdmit : admitFact fact with
  | some text =>
      rw [hAdmit] at h
      cases h
  | none =>
      rw [hAdmit] at h
      obtain ⟨index, hRefresh, hWrite⟩ := Fallible.peel h
      have hIndex := hInStep.refresh hRefresh
      unfold Folder.write at hWrite
      cases hOld : index.existing.lookup fact.id with
      | some old =>
          simp only [hOld] at hWrite
          split at hWrite
          · obtain ⟨rfl, rfl⟩ := Fallible.pair hWrite
            obtain ⟨hMem, hId⟩ := hIndex.existing fact.id old hOld
            exact ⟨⟨s.own, [], by simp, hIndex⟩, .inl ⟨rfl, hMem, hId⟩⟩
          · cases hWrite
      | none =>
          simp only [hOld] at hWrite
          split at hWrite
          · cases hWrite
          · obtain ⟨rfl, rfl⟩ := Fallible.pair hWrite
            refine ⟨⟨s.own, _, rfl, hIndex⟩, .inr ⟨rfl, fun g hg hId => ?_, index, hIndex, rfl⟩⟩
            obtain ⟨old, hKnown⟩ := hIndex.known g hg
            rw [hId, hOld] at hKnown
            cases hKnown

/-- The fact that `append` returns has the content of the one it was given. -/
theorem append_content {now : Int} (h : append now install s fact = .ok (folder, stored)) : content stored = content fact := by
  unfold append at h
  split at h
  · cases h
  · obtain ⟨index, -, hWrite⟩ := Fallible.peel h
    unfold Folder.write at hWrite
    split at hWrite
    · split at hWrite
      · next hContent =>
          obtain ⟨-, rfl⟩ := Fallible.pair hWrite
          exact hContent
      · cases hWrite
    · simp only at hWrite
      split at hWrite
      · cases hWrite
      · obtain ⟨-, rfl⟩ := Fallible.pair hWrite
        rfl

theorem WriterIndex.Describes.refresh_eq_ok {first rest : List Fact} (h : index.Describes first)
    (hIds : ((first ++ rest).map Fact.id).Nodup) :
    ∃ index', rest.foldlM WriterIndex.add index = .ok index' := by
  induction rest generalizing index first with
  | nil => exact ⟨index, rfl⟩
  | cons fact rest ih =>
      have hFresh : index.existing.lookup fact.id = none := by
        cases hOld : index.existing.lookup fact.id with
        | none => rfl
        | some old =>
            obtain ⟨hMem, hId⟩ := h.existing fact.id old hOld
            rw [List.map_append, List.nodup_append] at hIds
            exact absurd hId (hIds.2.2 old.id (List.mem_map_of_mem hMem) fact.id (by simp))
      have hAdd : index.add fact = .ok (index.put fact) := by
        rw [WriterIndex.add, hFresh]
      rw [List.foldlM_cons, hAdd, Fallible.ok_bind]
      exact ih (h.put fact) (by simpa using hIds)

/-- In a folder without two facts of one id, appending a fact whose content is
the recorded one succeeds, and changes nothing if it is recorded. -/
theorem append_again {now : Int} (hInStep : folder.InStep) (hIds : (folder.own.map Fact.id).Nodup)
    (hAdmit : admitFact fact = none) (hFile : ∀ hlc, (factFilename { fact with hlc := hlc }).isSome)
    (hContent : ∀ g ∈ folder.own, g.id = fact.id → content g = content fact) :
    ∃ after stored, append now install folder fact = .ok (after, stored) ∧
      ((∃ g ∈ folder.own, g.id = fact.id) → after.own = folder.own) := by
  obtain ⟨index, hRefresh⟩ : ∃ index, folder.index.refresh folder.own = .ok index := by
    obtain ⟨first, rest, hOwn, hFirst⟩ := hInStep
    rw [WriterIndex.refresh, hOwn, hFirst.read, List.drop_left]
    rw [hOwn] at hIds
    exact hFirst.refresh_eq_ok hIds
  have hIndex := hInStep.refresh hRefresh
  have hAppend : append now install folder fact = ({ folder with index := index } : Folder).write now install fact := by
    rw [append, hAdmit, hRefresh]
    rfl
  cases hOld : index.existing.lookup fact.id with
  | some old =>
      obtain ⟨hMem, hId⟩ := hIndex.existing fact.id old hOld
      refine ⟨{ folder with index := index }, old, ?_, fun _ => rfl⟩
      simp only [hAppend, Folder.write, hOld]
      exact if_pos (hContent old hMem hId)
  | none =>
      let stored : Fact := { fact with hlc := some (fact.hlc.getD (index.nextHlc now install)) }
      obtain ⟨file, hName⟩ := Option.isSome_iff_exists.mp (hFile stored.hlc)
      refine ⟨⟨folder.own ++ [stored], index⟩, stored, ?_, ?_⟩
      · simp only [hAppend, Folder.write, hOld]
        rw [hName]
      · rintro ⟨g, hg, hId⟩
        obtain ⟨old, hKnown⟩ := hIndex.known g hg
        rw [hId, hOld] at hKnown
        cases hKnown

end Brnrd.Ledger
