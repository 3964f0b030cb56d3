import Brnrd.Ledger.Reader
import Brnrd.Ledger.ViewUnion

/-! After every scan that does not raise, the reader holds what one scan of the
present files alone would give it, up to superseded renewals. -/
namespace Brnrd.Ledger

open Python Facts

theorem lastBytes_append_left {a b : List UInt8} (h : tailBytes ≤ b.length) : lastBytes (a ++ b) = lastBytes b := by
  unfold lastBytes
  rw [List.length_append, Nat.add_sub_assoc h, List.drop_append, List.drop_eq_nil_of_le (by omega)]
  simp

/-- The tail of a tail and more bytes is the tail of everything. -/
theorem lastBytes_lastBytes (a b : List UInt8) : lastBytes (lastBytes a ++ b) = lastBytes (a ++ b) := by
  by_cases hShort : a.length ≤ tailBytes
  · have hSelf : lastBytes a = a := by
      rw [lastBytes, Nat.sub_eq_zero_of_le hShort, List.drop_zero]
    rw [hSelf]
  · have hLength : (lastBytes a).length = tailBytes := by
      rw [lastBytes, List.length_drop]
      omega
    have hSplit : a.take (a.length - tailBytes) ++ lastBytes a = a := List.take_append_drop _ a
    conv_rhs => rw [← hSplit, List.append_assoc]
    exact (lastBytes_append_left (by rw [List.length_append]; omega)).symm

/-- What the reader keeps of a file it has read. -/
def streamOf (file : File) : Stream :=
  ⟨file.stamp, (complete file.bytes).length, lastBytes (complete file.bytes)⟩

/-- What the two observations of a scan tell: an unchanged stamp that the bytes
are unchanged, and an unchanged tail before the cursor of a file that grew in
place that nothing before the cursor was rewritten. -/
def Telltale (last files : Files) : Prop :=
  ∀ path f f', (path, f) ∈ last.streams → (path, f') ∈ files.streams →
    (f.stamp = f'.stamp → f.bytes = f'.bytes) ∧
    (f.dev = f'.dev → f.ino = f'.ino → f.bytes.length < f'.bytes.length →
      lastBytes (complete f.bytes) <+: f'.bytes.drop ((complete f.bytes).length - tailBytes) →
      complete f.bytes <+: f'.bytes)

theorem streamOf_cursor (file : File) :
    (streamOf file).offset - (streamOf file).tail.length =
      (complete file.bytes).length - tailBytes := by
  simp only [streamOf, lastBytes, List.length_drop]
  omega

variable {f file : File}

theorem Stream.appended_eq_some {s : Stream} {rest : List UInt8} (h : s.appended file = some rest) :
    s.stamp.dev = file.dev ∧ s.stamp.ino = file.ino ∧
      s.stamp.size < file.bytes.length ∧
      s.tail ++ rest = file.bytes.drop (s.offset - s.tail.length) := by
  unfold Stream.appended at h
  split at h
  · next hIn =>
      simp only at h
      split at h
      · next hPrefix =>
          obtain ⟨z, hz⟩ := List.isPrefixOf_iff_prefix.mp hPrefix
          rw [← hz, List.drop_left] at h
          rw [← Option.some.inj h]
          exact ⟨hIn.1, hIn.2.1, hIn.2.2, hz⟩
      · cases h
  · cases h

/-- A file recognised as grown is the lines already read and what follows. -/
theorem appended_spec {f' : File} {rest : List UInt8}
    (hGrown : f.dev = f'.dev → f.ino = f'.ino → f.bytes.length < f'.bytes.length → lastBytes (complete f.bytes) <+: f'.bytes.drop ((complete f.bytes).length - tailBytes) → complete f.bytes <+: f'.bytes)
    (h : (streamOf f).appended f' = some rest) : f'.bytes = complete f.bytes ++ rest := by
  obtain ⟨hDev, hIno, hSize, hRaw⟩ := Stream.appended_eq_some h
  rw [streamOf_cursor] at hRaw
  simp only [streamOf] at hRaw
  have hTail : lastBytes (complete f.bytes) <+: f'.bytes.drop ((complete f.bytes).length - tailBytes) := by
    rw [← hRaw]
    exact List.prefix_append _ _
  obtain ⟨z, hz⟩ := hGrown hDev hIno hSize hTail
  have hDrop : f'.bytes.drop ((complete f.bytes).length - tailBytes) =
      lastBytes (complete f.bytes) ++ z := by
    rw [← hz]
    exact List.drop_append_of_le_length (Nat.sub_le _ _)
  have hRest : rest = z := List.append_cancel_left (hRaw.trans hDrop)
  rw [hRest, hz]

/-- The facts `read_file` finds in a file that can be read. -/
def fileFacts (host : Host) (file : File) : List Fact :=
  (readFile host file.bytes).getD []

def entriesFacts (host : Host) (entries : List (Path × File)) : List Fact :=
  entries.flatMap fun entry => fileFacts host entry.2

/-- `read_file` over all present streams. -/
def factsOf (host : Host) (files : Files) : List Fact :=
  entriesFacts host files.streams

theorem Files.keys_nodup (files : Files) : (files.streams.map Prod.fst).Nodup := by
  have hSorted : files.streams.Pairwise fun a b => toLex a.1 < toLex b.1 :=
    files.sorted.filter _
  rw [List.Nodup, List.pairwise_map]
  exact hSorted.imp fun hlt hEq => absurd hlt (by rw [hEq]; exact lt_irrefl _)

theorem lookup_streamOf (entries : List (Path × File)) (path : Path) :
    (entries.map fun e => (e.1, streamOf e.2)).lookup path = (entries.lookup path).map streamOf := by
  induction entries with
  | nil => rfl
  | cons e entries ih =>
      rw [List.map_cons, lookup_cons_if, lookup_cons_if, ih]
      split <;> rfl

theorem lookup_eq_some_iff_mem {entries : List (Path × File)} (h : (entries.map Prod.fst).Nodup) {path : Path} :
    entries.lookup path = some f ↔ (path, f) ∈ entries := by
  induction entries with
  | nil => simp
  | cons e entries ih =>
      obtain ⟨hNew, hRest⟩ := List.nodup_cons.mp h
      rw [lookup_cons_if, List.mem_cons]
      by_cases hPath : path = e.1
      · have hAbsent : (path, f) ∉ entries :=
          fun hf => hNew (List.mem_map.mpr ⟨_, hf, hPath⟩)
        simp [hPath, hPath ▸ hAbsent, Prod.ext_iff, eq_comm]
      · rw [if_neg hPath, ih hRest]
        simp [Prod.ext_iff, hPath]

theorem Files.lookup_eq_some {files : Files} {path : Path} :
    files.streams.lookup path = some f ↔ (path, f) ∈ files.streams :=
  lookup_eq_some_iff_mem files.keys_nodup

/-- The facts a reader has of a stream it knows. -/
def priorFacts (host : Host) (prior : Option File) : List Fact :=
  (prior.map (fileFacts host)).getD []

theorem readFile_eq_some {host : Host} {facts : List Fact} (h : readFile host file.bytes = some facts) :
    facts = fileFacts host file := by
  rw [fileFacts, h]
  rfl

/-- A whole file, or the lines behind the cursor of one that grew in place:
with what was read before, the file's facts. -/
theorem Gathered.read_spec {host : Host} {g g' : Gathered} {prior : Option File} {path : Path}
    (hPrior : ∀ f, prior = some f → readFile host f.bytes = some (fileFacts host f))
    (hGrown : ∀ f rest, prior = some f → (streamOf f).appended file = some rest → file.bytes = complete f.bytes ++ rest)
    (h : g.read host (prior.map streamOf) path file = .ok g') :
    ∃ added, g'.streams = g.streams ++ [(path, streamOf file)] ∧ g'.changed = true ∧
      g'.additions = g.additions ++ added ∧ readFile host file.bytes = some (fileFacts host file) ∧
      (g'.repair = false → g.repair = false ∧
        fileFacts host file = priorFacts host prior ++ added) := by
  unfold Gathered.read at h
  cases hAppended : (prior.map streamOf).bind (fun s => s.appended file) with
  | none =>
      rw [hAppended] at h
      cases hParse : parseLines host (complete file.bytes) with
      | none => simp [hParse] at h
      | some added =>
          have hRead : readFile host file.bytes = some added := (readFile_eq host _).trans hParse
          have hFacts := readFile_eq_some hRead
          refine ⟨added, ?_⟩
          cases prior with
          | none =>
              simp only [Option.map_none, Option.getD_none, hParse] at h
              obtain rfl := Except.ok.inj h
              refine ⟨by simp [streamOf], rfl, rfl, hFacts ▸ hRead, fun hRepair => ?_⟩
              exact ⟨by simpa using hRepair, by simp [priorFacts, hFacts]⟩
          | some f =>
              simp only [Option.map_some, Option.getD_none, hParse] at h
              obtain rfl := Except.ok.inj h
              exact ⟨by simp [streamOf], rfl, rfl, hFacts ▸ hRead, by simp⟩
  | some rest =>
      obtain ⟨s, hs, hRest⟩ := Option.bind_eq_some_iff.mp hAppended
      obtain ⟨f, rfl, rfl⟩ := Option.map_eq_some_iff.mp hs
      rw [hAppended] at h
      have hBytes := hGrown f rest rfl hRest
      have hComplete : complete file.bytes = complete f.bytes ++ complete rest := by
        rw [hBytes, complete_append (complete_lines f.bytes)]
      cases hParse : parseLines host (complete rest) with
      | none => simp [hParse] at h
      | some added =>
          have hRead : readFile host file.bytes = some (fileFacts host f ++ added) := by
            rw [readFile_eq, hComplete, parseLines_append host (complete_lines f.bytes),
              ← readFile_eq, hPrior f rfl, hParse]
            rfl
          have hFacts := readFile_eq_some hRead
          simp only [Option.map_some, Option.getD_some, hParse] at h
          obtain rfl := Except.ok.inj h
          refine ⟨added, ?_, rfl, rfl, hFacts ▸ hRead, fun hRepair => ?_⟩
          · have hTail : (if (streamOf f).offset = 0 then [] else (streamOf f).tail) =
                lastBytes (complete f.bytes) := by
              split
              · next hZero =>
                  have hNil : complete f.bytes = [] := List.length_eq_zero_iff.mp hZero
                  simp only [hNil, lastBytes, List.drop_nil]
              · simp only [streamOf]
            simp only [hTail, lastBytes_lastBytes]
            simp only [streamOf, hComplete, List.length_append]
          · exact ⟨by simpa using hRepair, hFacts.symm⟩

/-- The loop variables once the streams in `seen` are visited. -/
structure Gathered.Holds (host : Host) (last : Files) (g start : Gathered)
    (seen : List (Path × File)) : Prop where
  streams : g.streams = seen.map fun e => (e.1, streamOf e.2)
  readable : ∀ e ∈ seen, readFile host e.2.bytes = some (fileFacts host e.2)
  facts : g.repair = false → start.repair = false ∧ ∀ x, x ∈ entriesFacts host seen ↔
    x ∈ g.additions ∨ ∃ e ∈ seen, ∃ f, (e.1, f) ∈ last.streams ∧ x ∈ fileFacts host f
  unchanged : g.changed = false → start.changed = false ∧ g.additions = [] ∧ g.repair = start.repair

section Scan

variable {host : Host} {last files : Files} {start g g' : Gathered} {seen : List (Path × File)}
  {entry : Path × File}

theorem Gathered.Holds.snoc (h : g.Holds host last start seen) {added : List Fact}
    (hStreams : g'.streams = g.streams ++ [(entry.1, streamOf entry.2)])
    (hReadable : readFile host entry.2.bytes = some (fileFacts host entry.2))
    (hAdditions : g'.additions = g.additions ++ added)
    (hFacts : g'.repair = false → g.repair = false ∧
      fileFacts host entry.2 = priorFacts host (last.streams.lookup entry.1) ++ added)
    (hUnchanged : g'.changed = false → g.changed = false ∧ added = [] ∧ g'.repair = g.repair) :
    g'.Holds host last start (seen ++ [entry]) where
  streams := by rw [hStreams, h.streams]; simp
  readable := by
    intro e he
    rcases List.mem_append.mp he with he | he
    · exact h.readable e he
    · exact List.mem_singleton.mp he ▸ hReadable
  facts := by
    intro hRepair
    obtain ⟨hPrior, hEq⟩ := hFacts hRepair
    obtain ⟨hStart, hMem⟩ := h.facts hPrior
    refine ⟨hStart, fun x => ?_⟩
    have hOld : x ∈ priorFacts host (last.streams.lookup entry.1) ↔
        ∃ f, (entry.1, f) ∈ last.streams ∧ x ∈ fileFacts host f := by
      simp only [← Files.lookup_eq_some, priorFacts]
      cases last.streams.lookup entry.1 <;> simp
    have hAll : x ∈ entriesFacts host (seen ++ [entry]) ↔
        x ∈ entriesFacts host seen ∨ x ∈ fileFacts host entry.2 := by
      simp [entriesFacts]
    rw [hAll, hEq, List.mem_append, hMem, hOld, hAdditions, List.mem_append]
    simp only [List.mem_append, List.mem_singleton, or_and_right, exists_or, exists_eq_left]
    exact (or_congr Iff.rfl or_comm).trans or_or_or_comm
  unchanged := by
    intro hChanged
    obtain ⟨hPrior, rfl, hRepair⟩ := hUnchanged hChanged
    obtain ⟨hStart, hNone, hSame⟩ := h.unchanged hPrior
    exact ⟨hStart, by rw [hAdditions, hNone]; rfl, hRepair.trans hSame⟩

theorem Gathered.Holds.visit (hTelltale : Telltale last files)
    (hLast : ∀ e ∈ last.streams, readFile host e.2.bytes = some (fileFacts host e.2))
    (hEntry : entry ∈ files.streams) (h : g.Holds host last start seen)
    (hVisit : g.visit host (last.streams.map fun e => (e.1, streamOf e.2)) entry = .ok g') :
    g'.Holds host last start (seen ++ [entry]) := by
  have hPrior : ∀ f, last.streams.lookup entry.1 = some f → (entry.1, f) ∈ last.streams :=
    fun f hf => Files.lookup_eq_some.mp hf
  have hRead : g.read host ((last.streams.lookup entry.1).map streamOf) entry.1 entry.2 = .ok g' →
      g'.Holds host last start (seen ++ [entry]) := by
    intro hRead
    obtain ⟨added, hStreams, hChanged, hAdditions, hReadable, hFacts⟩ := Gathered.read_spec
      (fun f hf => hLast _ (hPrior f hf))
      (fun f rest hf => appended_spec (hTelltale _ f entry.2 (hPrior f hf) hEntry).2) hRead
    exact h.snoc hStreams hReadable hAdditions hFacts (by simp [hChanged])
  unfold Gathered.visit at hVisit
  rw [lookup_streamOf] at hVisit
  cases hLookup : last.streams.lookup entry.1 with
  | none =>
      rw [hLookup] at hVisit hRead
      exact hRead hVisit
  | some f =>
      rw [hLookup] at hVisit hRead
      simp only [Option.map_some] at hVisit hRead
      split at hVisit
      · next hStamp =>
          obtain rfl := Except.ok.inj hVisit
          have hBytes : f.bytes = entry.2.bytes := (hTelltale _ f entry.2 (hPrior f hLookup) hEntry).1 hStamp
          have hStream : streamOf f = streamOf entry.2 := by
            simp only [streamOf, hBytes, Stream.mk.injEq, and_true]
            exact hStamp
          have hSame : fileFacts host entry.2 = fileFacts host f := by rw [fileFacts, fileFacts, hBytes]
          have hReadable := hLast _ (hPrior f hLookup)
          refine h.snoc (by rw [hStream]) ?_ (List.append_nil _).symm (fun hRepair => ⟨hRepair, ?_⟩)
            (fun hChanged => ⟨hChanged, rfl, rfl⟩)
          · rw [hSame, ← hBytes]
            exact hReadable
          · rw [hLookup, hSame, List.append_nil]
            rfl
      · exact hRead hVisit

/-- The loop over all present streams. -/
theorem Gathered.holds (hTelltale : Telltale last files)
    (hLast : ∀ e ∈ last.streams, readFile host e.2.bytes = some (fileFacts host e.2))
    (hStart : start.streams = []) (hNone : start.additions = [])
    (h : files.streams.foldlM (Gathered.visit host (last.streams.map fun e => (e.1, streamOf e.2)))
      start = .ok g) : g.Holds host last start files.streams := by
  have hPrefix : ∀ seen rest, files.streams = seen ++ rest → ∀ g,
      seen.foldlM (Gathered.visit host (last.streams.map fun e => (e.1, streamOf e.2))) start = .ok g →
      g.Holds host last start seen := by
    intro seen
    induction seen using List.reverseRecOn with
    | nil =>
        intro _ _ g hg
        obtain rfl := Except.ok.inj hg
        exact ⟨by simp [hStart], by simp, fun hRepair => ⟨hRepair, by simp [hNone, entriesFacts]⟩,
          fun hChanged => ⟨hChanged, hNone, rfl⟩⟩
    | append_singleton seen entry ih =>
        intro rest hRest g' hg'
        obtain ⟨g, hg, hVisit⟩ := Fallible.foldlM_snoc.mp hg'
        have hSeen : files.streams = seen ++ (entry :: rest) := by rw [hRest]; simp
        exact (ih _ hSeen g hg).visit hTelltale hLast (hSeen ▸ by simp) hVisit
  exact hPrefix files.streams [] (List.append_nil _).symm g h

end Scan

end Brnrd.Ledger
