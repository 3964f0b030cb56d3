import Brnrd.Ledger.ReaderFiles

/-! Histories of scans. After each one that does not raise, the reader holds
the union of what reading every present file afresh gives. -/
namespace Brnrd.Ledger

open Python Facts

/-- Facts whose unions do not raise, that can be indexed, with plain renewals. -/
structure Sound (host : Host) (facts : List Fact) : Prop where
  harmless : Harmless host facts
  indexable : ∀ f ∈ facts, Indexable host f
  renewals : PlainRenewals facts

variable {host : Host}

theorem Sound.congr {facts facts' : List Fact} (h : Sound host facts) (hSame : ∀ f, f ∈ facts ↔ f ∈ facts') :
    Sound host facts' where
  harmless := h.harmless.mono fun f hf => (hSame f).mpr hf
  indexable := fun f hf => h.indexable f ((hSame f).mpr hf)
  renewals := h.renewals.mono fun f hf => (hSame f).mpr hf

variable {last files : Files}

theorem readFiles_ok (h : ∀ e ∈ files.streams, readFile host e.2.bytes = some (fileFacts host e.2)) :
    readFiles host files = .ok (files.streams.map fun e => fileFacts host e.2) := by
  unfold readFiles
  generalize files.streams = entries at h
  induction entries with
  | nil => rfl
  | cons e entries ih =>
      rw [List.mapM_cons, h e List.mem_cons_self,
        ih (fun e he => h e (List.mem_cons_of_mem _ he))]
      rfl

theorem flatten_fileFacts (host : Host) (files : Files) :
    (files.streams.map fun e => fileFacts host e.2).flatten = factsOf host files :=
  List.flatMap_def.symm

section Views

variable {host : Host} {files : Files} {fed additions : List Fact} {v : LedgerView}

/-- A repair reads every file afresh. -/
theorem rebuild_carries
    (hReadable : ∀ e ∈ files.streams, readFile host e.2.bytes = some (fileFacts host e.2))
    (hSound : Sound host (factsOf host files)) :
    ∃ w, rebuild host files = .ok w ∧ w.Carries host (factsOf host files) := by
  have hFlat : (files.streams.map fun e => fileFacts host e.2).flatten ⊆ factsOf host files :=
    fun f hf => flatten_fileFacts host files ▸ hf
  obtain ⟨⟨l, duplicates⟩, hUnion, hl⟩ := hSound.harmless.unionWith_ok hFlat []
  rw [flatten_fileFacts] at hl
  have hSub : l ⊆ factsOf host files := fun f hf => ((hl.mem f).mp hf).1
  obtain ⟨w, hw, hIndexed, hFacts⟩ := load_ok hl (hSound.harmless.mono hSub)
    (fun f hf => hSound.indexable f (hSub hf))
  have hHolds : Incoming.Holds LedgerView.empty (factsOf host files) ⟨factsOf host files, false, []⟩ :=
    ⟨List.Subset.refl _, fun f hf => Or.inl hf, by simp [LedgerView.empty], by simp⟩
  have hCarries : w.Carries host ([] ++ factsOf host files) := by
    refine (LedgerView.Carries.empty host).step hHolds ⟨[], Ledger.self (by simp) trivial (by simp)⟩
      hSound.renewals hl (Ledger.self hl.ids hl.ordered hl.keyed) hIndexed
      (fun f => decide (Newest host l f)) ?_ (fun f _ hf => decide_eq_true hf)
    rw [hFacts, cutRenewals_eq_filter hl.ids hl.ordered
      (fun r hr => hSound.renewals.after r (hSub hr))]
    rfl
  refine ⟨{ w with duplicates := duplicates }, ?_, hCarries.of_fields rfl
    (hIndexed.of_fields rfl rfl rfl rfl rfl rfl rfl)⟩
  unfold rebuild
  simp only [readFiles_ok hReadable, liftUnion_eq_ok.mpr hUnion, hw, bind, Except.bind, liftView]

/-- Additions alone join what the view carries. -/
theorem absorb_carries (h : v.Carries host fed) (hSound : Sound host (fed ++ additions)) :
    ∃ w, absorb host v additions = .ok w ∧ w.Carries host (fed ++ additions) := by
  have hHeld : v.facts ++ additions ⊆ fed ++ additions :=
    List.append_subset.mpr ⟨fun f hf => List.mem_append_left _ (h.kept f hf).1, by simp⟩
  obtain ⟨s, v', delta, repair, hIncoming, hArrives⟩ :=
    h.indexed.incoming (hSound.harmless.mono hHeld)
  unfold absorb
  simp only [hIncoming, liftView, bind, Except.bind]
  cases repair with
  | false =>
      obtain ⟨w, hw, hCarries⟩ :=
        h.appended hArrives hSound.harmless hSound.indexable hSound.renewals
      exact ⟨w, by simp [LedgerView.apply_false, hw], hCarries⟩
  | true =>
      obtain ⟨l, duplicates, w, hUnion, hw, hCarries⟩ :=
        h.replayed hArrives hSound.harmless hSound.indexable hSound.renewals
      refine ⟨{ w with duplicates := duplicates }, ?_, hCarries.of_fields rfl
        (hCarries.indexed.of_fields rfl rfl rfl rfl rfl rfl rfl)⟩
      simp only [replay, liftUnion_eq_ok.mpr hUnion, hw, bind, Except.bind, liftView, if_true]

end Views

/-- The reader knows the files of its last scan as they were, and its view
carries their facts. -/
structure LedgerReader.Describes (host : Host) (last : Files) (r : LedgerReader) : Prop where
  streams : r.streams = last.streams.map fun e => (e.1, streamOf e.2)
  readable : ∀ e ∈ last.streams, readFile host e.2.bytes = some (fileFacts host e.2)
  carries : r.ordered.Carries host (factsOf host last)

def noFiles : Files :=
  ⟨[], List.Pairwise.nil⟩

theorem LedgerReader.Describes.empty (host : Host) :
    LedgerReader.empty.Describes host noFiles where
  streams := rfl
  readable := by simp [noFiles, Files.streams]
  carries := LedgerView.Carries.empty host

/-- Where no stream is gone or rewritten, the files' facts are those of the
last scan and the additions. -/
theorem Gathered.Holds.same_facts {start g : Gathered} (h : g.Holds host last start files.streams)
    (hKept : ∀ e ∈ last.streams, e.1 ∈ files.streams.map Prod.fst) (hRepair : g.repair = false) (f : Fact) :
    f ∈ factsOf host last ++ g.additions ↔ f ∈ factsOf host files := by
  have hLast : f ∈ factsOf host last ↔
      ∃ e ∈ files.streams, ∃ old, (e.1, old) ∈ last.streams ∧ f ∈ fileFacts host old := by
    simp only [factsOf, entriesFacts, List.mem_flatMap]
    constructor
    · rintro ⟨e, he, hf⟩
      obtain ⟨e', he', hPath⟩ := List.mem_map.mp (hKept e he)
      exact ⟨e', he', e.2, hPath ▸ he, hf⟩
    · rintro ⟨e, _, old, hOld, hf⟩
      exact ⟨(e.1, old), hOld, hf⟩
  rw [List.mem_append, hLast, or_comm]
  exact ((h.facts hRepair).2 f).symm

/-- One scan. -/
theorem LedgerReader.Describes.scan {r r' : LedgerReader} (h : r.Describes host last) (hTelltale : Telltale last files)
    (hSound : Sound host (factsOf host files)) (hScan : r.scan host files = .ok r') :
    r'.Describes host files := by
  obtain ⟨g, hLoop, hScan⟩ := Fallible.peel hScan
  rw [h.streams] at hLoop
  have hHolds := Gathered.holds hTelltale h.readable rfl rfl hLoop
  have hKept : g.repair = false → ∀ e ∈ last.streams, e.1 ∈ files.streams.map Prod.fst := by
    intro hRepair e he
    have hNone := List.any_eq_false.mp (hHolds.facts hRepair).1 (e.1, streamOf e.2)
      (List.mem_map.mpr ⟨e, he, rfl⟩)
    simpa using hNone
  split at hScan
  · obtain ⟨ordered, hView, hEq⟩ := Fallible.peel hScan
    obtain rfl := Except.ok.inj hEq
    refine ⟨hHolds.streams, hHolds.readable, ?_⟩
    unfold Gathered.view at hView
    cases hRepair : g.repair with
    | true =>
        rw [hRepair, if_pos rfl] at hView
        obtain ⟨w, hw, hCarries⟩ := rebuild_carries hHolds.readable hSound
        obtain rfl := Fallible.same hw hView
        exact hCarries
    | false =>
        rw [hRepair, if_neg Bool.false_ne_true] at hView
        have hSame := hHolds.same_facts (hKept hRepair) hRepair
        obtain ⟨w, hw, hCarries⟩ := absorb_carries h.carries (hSound.congr fun f => (hSame f).symm)
        obtain rfl := Fallible.same hw hView
        exact hCarries.congr hSame
  · next hUnchanged =>
      obtain rfl := Except.ok.inj hScan
      obtain ⟨hStart, hNone, hSame⟩ := hHolds.unchanged (Bool.eq_false_of_not_eq_true hUnchanged)
      have hRepair : g.repair = false := hSame.trans (Bool.or_eq_false_iff.mp hStart).1
      refine ⟨hHolds.streams, hHolds.readable, h.carries.congr fun f => ?_⟩
      rw [← hHolds.same_facts (hKept hRepair) hRepair, hNone, List.append_nil]

/-- The scan raised before it touched the view: a line could not be read, or a
union raised. -/
def ScanError.Early : ScanError → Prop
  | .unreadable _ => True
  | .view (.union _) => True
  | .view _ => False

/-- The histories of a reader, with the files of its last scan that did not
raise. A scan that raises may have recorded displaced copies. -/
inductive Scans (host : Host) : Files → LedgerReader → Prop where
  | start : Scans host noFiles LedgerReader.empty
  | scanned {last files : Files} {r r' : LedgerReader} : Scans host last r → Telltale last files →
      Sound host (factsOf host files) → r.scan host files = .ok r' → Scans host files r'
  | failed {last files : Files} {r : LedgerReader} {e : ScanError} (duplicates : List Fact) :
      Scans host last r → r.scan host files = .error e → e.Early →
      Scans host last { r with ordered := { r.ordered with duplicates := duplicates } }

theorem Scans.describes {r : LedgerReader} (h : Scans host last r) :
    r.Describes host last ∧ Sound host (factsOf host last) := by
  induction h with
  | start =>
      refine ⟨LedgerReader.Describes.empty host, ?_, by simp [factsOf, entriesFacts, noFiles,
        Files.streams], ?_⟩
      · exact harmless_of_distinct (by simp [factsOf, entriesFacts, noFiles, Files.streams])
          (by simp [factsOf, entriesFacts, noFiles, Files.streams]) (fun _ => 0)
          (by simp [factsOf, entriesFacts, noFiles, Files.streams])
      · constructor <;> simp [factsOf, entriesFacts, noFiles, Files.streams]
  | scanned _ hTelltale hSound hScan ih => exact ⟨ih.1.scan hTelltale hSound hScan, hSound⟩
  | failed duplicates _ _ _ ih =>
      obtain ⟨hDescribes, hSound⟩ := ih
      exact ⟨⟨hDescribes.streams, hDescribes.readable, hDescribes.carries.of_fields rfl
        (hDescribes.carries.indexed.of_fields rfl rfl rfl rfl rfl rfl rfl)⟩, hSound⟩

/-- In every history, after each scan that did not raise, the view lists the
union of what `read_file` gives for every present path, less superseded renewals. -/
theorem scan_equals_reread {host : Host} {files : Files} {r : LedgerReader}
    (h : Scans host files r) :
    ∃ contents l, readFiles host files = .ok contents ∧ union host contents = .ok l ∧
      newestRenewals r.ordered.facts = newestRenewals l ∧ r.ordered.facts.Sublist l ∧
      ∀ f ∈ l, f ∉ r.ordered.facts → Superseded host r.ordered.facts f := by
  obtain ⟨⟨-, hReadable, hCarries⟩, hSound⟩ := h.describes
  have hFlat : (files.streams.map fun e => fileFacts host e.2).flatten ⊆ factsOf host files :=
    fun f hf => flatten_fileFacts host files ▸ hf
  obtain ⟨⟨l, displaced⟩, hUnion, hl⟩ := hSound.harmless.unionWith_ok hFlat []
  rw [flatten_fileFacts] at hl
  obtain ⟨hFacts, hCut⟩ := hCarries.agrees hl hSound.renewals
  have hlFacts : ∀ f ∈ l, f ∈ factsOf host files := fun f hf => ((hl.mem f).mp hf).1
  refine ⟨_, l, readFiles_ok hReadable, union_eq_ok.mpr ⟨displaced, hUnion⟩, ?_, ?_, ?_⟩
  · rw [newestRenewals_ok (fun f hf => hSound.indexable f (hCarries.kept f hf).1),
      newestRenewals_ok (fun f hf => hSound.indexable f (hlFacts f hf)), hCut]
  · rw [hFacts]
    exact List.filter_sublist
  · intro f hf hfView
    exact (hCarries.rest f ((hl.mem f).mp hf)).resolve_left hfView

/-- A host whose every one-letter line is a note with that letter for an id. -/
def letterHost : Host where
  seconds := fun _ => some 0
  millis := fun _ => some 0
  repr := fun _ => ""
  loads := fun
    | [c] => some (.obj [("at", .str ""), ("by", .str "person:p-a"), ("data", .obj []),
        ("hlc", .arr [.int c.toNat, .int 0, .str "aaaa"]), ("id", .str (String.singleton c)),
        ("kind", .str "note"), ("v", .int version)])
    | _ => none

def letterNote (c : Char) : Fact :=
  ⟨"note", "person:p-a", [], "", String.singleton c, version, some ⟨c.toNat, 0, "aaaa"⟩, []⟩

/-- One stream, written at a time. -/
def oneFile (time : Nat) (bytes : List UInt8) : Files where
  entries := [(("p-a", "notes.jsonl"), ⟨1, 1, time, time, bytes⟩)]
  sorted := List.pairwise_singleton _ _

theorem oneFile_streams (time : Nat) (bytes : List UInt8) :
    (oneFile time bytes).streams = [(("p-a", "notes.jsonl"), ⟨1, 1, time, time, bytes⟩)] := by
  have hStream : isStream ("p-a", "notes.jsonl") = true := by decide
  simp [Files.streams, oneFile, hStream]

theorem oneFile_telltale (bytes rest : List UInt8) : Telltale (oneFile 1 bytes) (oneFile 2 (complete bytes ++ rest)) := by
  intro path f f' hf hf'
  rw [oneFile_streams, List.mem_singleton] at hf hf'
  obtain ⟨-, rfl⟩ := Prod.mk.inj hf
  obtain ⟨-, rfl⟩ := Prod.mk.inj hf'
  exact ⟨by simp [File.stamp], fun _ _ _ _ => List.prefix_append _ _⟩

theorem sound_letters {facts : List Fact} (hIds : (facts.map Fact.id).Nodup) (hClock : ∀ f ∈ facts, f.hlc.isSome)
    (hAfter : ∀ f ∈ facts, f.after = []) (hKind : ∀ f ∈ facts, isRenewal f = false)
    (hIndexable : ∀ f ∈ facts, Indexable host f) :
    Sound host facts where
  harmless := harmless_of_distinct hIds hClock (fun _ => 0) (fun f hf g _ hgf => by
    rw [Before, hAfter f hf] at hgf
    exact absurd hgf List.not_mem_nil)
  indexable := hIndexable
  renewals := by
    constructor <;> intro r hr hRenewal <;> simp [hKind r hr] at hRenewal

/-- A stream with a half line that is completed and followed by another. -/
theorem scan_equals_reread_half_line :
    ∃ r r', LedgerReader.empty.scan letterHost (oneFile 1 [97, 10, 98]) = .ok r ∧
      r.scan letterHost (oneFile 2 [97, 10, 98, 10, 99]) = .ok r' ∧
      newestRenewals r'.ordered.facts = .ok [letterNote 'a', letterNote 'b'] := by
  have hRun : ((do
      let r ← LedgerReader.empty.scan letterHost (oneFile 1 [97, 10, 98])
      let r' ← r.scan letterHost (oneFile 2 [97, 10, 98, 10, 99])
      .ok r'.ordered.facts) : Except ScanError (List Fact)) = .ok [letterNote 'a', letterNote 'b'] := by
    decide
  obtain ⟨r, hr, hRun⟩ := Fallible.peel hRun
  obtain ⟨r', hr', -⟩ := Fallible.peel hRun
  have hFirst : factsOf letterHost (oneFile 1 [97, 10, 98]) = [letterNote 'a'] := by decide
  have hSecond : factsOf letterHost (oneFile 2 [97, 10, 98, 10, 99]) =
      [letterNote 'a', letterNote 'b'] := by decide
  have hScans : Scans letterHost (oneFile 1 [97, 10, 98]) r := by
    refine Scans.start.scanned (by simp [Telltale, noFiles, Files.streams]) ?_ hr
    rw [hFirst]
    apply sound_letters <;> decide
  obtain ⟨contents, l, hContents, hUnion, hCut, -⟩ := scan_equals_reread (hScans.scanned
    (oneFile_telltale [97, 10, 98] [98, 10, 99]) (by
      rw [show complete [97, 10, 98] ++ [98, 10, 99] = [97, 10, 98, 10, 99] by decide, hSecond]
      apply sound_letters <;> decide) hr')
  refine ⟨r, r', hr, hr', hCut.trans ?_⟩
  have hRead : readFiles letterHost (oneFile 2 [97, 10, 98, 10, 99]) =
      .ok [[letterNote 'a', letterNote 'b']] := by decide
  obtain rfl := Fallible.same hRead hContents
  have hList : union letterHost [[letterNote 'a', letterNote 'b']] =
      .ok [letterNote 'a', letterNote 'b'] := by decide
  obtain rfl := Fallible.same hList hUnion
  decide

/-- A rewrite longer in place that keeps the last 256 bytes before the cursor
passes for an append. -/
theorem scan_misses_rewrite :
    ¬ ∀ (host : Host) (files files' : Files) (r r' : LedgerReader),
      LedgerReader.empty.scan host files = .ok r → r.scan host files' = .ok r' →
      ∃ contents l, readFiles host files' = .ok contents ∧ union host contents = .ok l ∧
        newestRenewals r'.ordered.facts = newestRenewals l := by
  intro h
  let before := oneFile 1 ([97, 10] ++ List.replicate 256 10)
  let rewritten := oneFile 2 ([98, 10] ++ List.replicate 256 10 ++ [99, 10])
  have hRun : ((do
      let r ← LedgerReader.empty.scan letterHost before
      let r' ← r.scan letterHost rewritten
      .ok r'.ordered.facts) : Except ScanError (List Fact)) =
      .ok [letterNote 'a', letterNote 'c'] := by decide +kernel
  have hRead : readFiles letterHost rewritten = .ok [[letterNote 'b', letterNote 'c']] := by
    decide +kernel
  have hList : union letterHost [[letterNote 'b', letterNote 'c']] =
      .ok [letterNote 'b', letterNote 'c'] := by decide
  obtain ⟨r, hr, hRun⟩ := Fallible.peel hRun
  obtain ⟨r', hr', hFacts⟩ := Fallible.peel hRun
  obtain ⟨contents, l, hContents, hUnion, hCut⟩ := h letterHost before rewritten r r' hr hr'
  obtain rfl := Fallible.same hRead hContents
  obtain rfl := Fallible.same hList hUnion
  rw [Except.ok.inj hFacts] at hCut
  exact absurd hCut (by decide)

end Brnrd.Ledger
