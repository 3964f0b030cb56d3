import Brnrd.Shuttle.Sync

/-! Runs of an install's writes and packs and of a peer's syncs and crashes: a
completed sync leaves the facts the install had at the commit. -/
namespace Brnrd.Shuttle

open Python Facts Ledger

/-- Two readings of one ledger: the same facts and the same union. Where one copy
of each id is read, as `append` keeps it, neither reading's union fails alone. -/
structure SameLedger (host : Host) (a b : Option (List Fact)) : Prop where
  facts : SameFacts a b
  union : ∀ x y l l', a = some x → b = some y → union host [x] = .ok l → union host [y] = .ok l' → l = l'
  defined : ∀ x y l, a = some x → b = some y → (x.map Fact.id).Nodup → Facts.union host [x] = .ok l →
    Facts.union host [y] = .ok l

theorem union_perm {host : Host} {x y l : List Fact} (hPerm : x.Perm y) (hIds : (x.map Fact.id).Nodup)
    (h : union host [x] = .ok l) : ∃ l', union host [y] = .ok l' := by
  have hLedger := union_ledger h
  simp only [List.flatten_cons, List.flatten_nil, List.append_nil] at hLedger
  have hSame : ∀ f ∈ x, f ∈ l := by
    intro f hf
    obtain ⟨g, hg, hId⟩ := hLedger.covers f hf
    obtain rfl := List.inj_on_of_nodup_map hIds ((hLedger.mem g).mp hg).1 hf hId
    exact hg
  have hMem : ∀ f ∈ [y].flatten, f ∈ x := by
    intro f hf
    simpa using hPerm.mem_iff.mpr (by simpa using hf)
  refine union_succeeds ?_ ?_ (fun f => l.idxOf f) ?_
  · intro f hf g hg hClash
    exact hClash.2.1 (List.inj_on_of_nodup_map hIds (hMem f hf) (hMem g hg) hClash.1)
  · intro f hf
    exact hLedger.keyed f (hSame f (hMem f hf))
  · intro f hf g hg hBefore
    obtain ⟨first, second, hSplit⟩ := List.append_of_mem (hSame f (hMem f hf))
    have hFirst := hLedger.after hSplit (hSame g (hMem g hg)) hBefore
    have hFresh : f ∉ first := by
      have hNodup := hLedger.ids.of_map
      rw [hSplit] at hNodup
      exact fun hIn => (List.nodup_append.mp hNodup).2.2 f hIn f List.mem_cons_self rfl
    rw [hSplit, List.idxOf_append_of_mem hFirst, List.idxOf_append_of_notMem hFresh, List.idxOf_cons_self]
    simpa using List.idxOf_lt_length_of_mem hFirst

theorem SameFacts.ledger {host : Host} {a b : Option (List Fact)} (h : SameFacts a b) : SameLedger host a b := by
  rcases h with ⟨rfl, rfl⟩ | ⟨x, y, rfl, rfl, hPerm⟩
  · constructor
    · exact .inl ⟨rfl, rfl⟩
    · rintro x y l l' ⟨⟩
    · rintro x y l ⟨⟩
  have hUnion : ∀ l l', union host [x] = .ok l → union host [y] = .ok l' → l = l' := by
    intro l l' hl hl'
    exact (union_replica_independent host [x] [y] l l' (by simpa using fun f => hPerm.mem_iff) hl hl').1
  constructor
  · exact .inr ⟨x, y, rfl, rfl, hPerm⟩
  · rintro _ _ l l' ⟨⟩ ⟨⟩ hl hl'
    exact hUnion l l' hl hl'
  · rintro _ _ l ⟨⟩ ⟨⟩ hIds hl
    obtain ⟨l', hl'⟩ := union_perm hPerm hIds hl
    rw [hUnion l l' hl hl', hl']

/-- What every run keeps. -/
structure World.Holds (size : ℕ+) (w : World) : Prop where
  cache : w.origin.cache.Current size w.origin.loom.bytes w.origin.strands
  packed : ∀ c ∈ w.origin.commits, c.tree = treeOf size c.files ∧ (c.files.strands.map Prod.fst).Nodup
  grown : w.origin.commits.Pairwise fun a b => a.files.Grown b.files
  last : ∀ c ∈ w.origin.commits, c.files.Grown w.origin.files
  remote : ∀ sha, w.remote = some sha → sha < w.origin.commits.length
  folder : ∀ name raw, w.folder.lookup name = some raw → ∃ sha c whole, w.remote = some sha ∧
    w.origin.commits[sha]? = some c ∧ (name, whole) ∈ c.tree ∧ raw <+: whole

theorem Origin.files_nodup (o : Origin) : (o.files.strands.map Prod.fst).Nodup := by
  have hKeys := o.strands.nodupKeys
  simpa [Origin.files, List.NodupKeys, List.keys, Function.comp_def] using hKeys

theorem mem_files {o : Origin} {strand : Strand} {bytes : Bytes} :
    (strand, bytes) ∈ o.files.strands ↔ ∃ file, o.strands.lookup strand = some file ∧ file.bytes = bytes := by
  simp only [Origin.files, List.mem_map]
  constructor
  · rintro ⟨⟨s, file⟩, he, hSame⟩
    obtain ⟨rfl, rfl⟩ := Prod.mk.inj hSame
    exact ⟨file, AList.mem_lookup_iff.mpr he, rfl⟩
  · rintro ⟨file, hFile, rfl⟩
    exact ⟨⟨strand, file⟩, AList.mem_lookup_iff.mp hFile, rfl⟩

/-- A write keeps the complete lines. -/
theorem StreamFile.write_grown (file : StreamFile) (text : Bytes) (mtime : Nat) :
    complete file.bytes <+: complete (file.write text mtime).bytes := by
  rw [StreamFile.write, complete_append (complete_lines _)]
  exact List.prefix_append _ _

section Steps

variable {size : ℕ+} {w : World}

/-- A step of the origin that keeps its commits and grows its files. -/
theorem World.Holds.origin (h : w.Holds size) {o : Origin} (hCommits : o.commits = w.origin.commits)
    (hCache : o.cache.Current size o.loom.bytes o.strands) (hGrown : w.origin.files.Grown o.files) :
    World.Holds size { w with origin := o } where
  cache := hCache
  packed := by simpa only [hCommits] using h.packed
  grown := by simpa only [hCommits] using h.grown
  last := by
    intro c hc
    rw [hCommits] at hc
    exact (h.last c hc).trans hGrown
  remote := by simpa only [hCommits] using h.remote
  folder := by simpa only [hCommits] using h.folder

theorem World.Holds.write (h : w.Holds size) (text : Bytes) (mtime : Nat) :
    World.Holds size { w with origin := { w.origin with loom := w.origin.loom.write text mtime } } := by
  have hLines := w.origin.loom.write_grown text mtime
  refine h.origin rfl ⟨h.cache.isSealed, h.cache.length, h.cache.begins.trans hLines,
    fun hSome => (h.cache.openLeft hSome).trans_le hLines.length_le, h.cache.blobs⟩ ?_
  exact ⟨hLines, fun strand bytes hBytes => ⟨bytes, hBytes, List.prefix_refl _⟩⟩

theorem World.Holds.writeStrand (h : w.Holds size) (strand : Strand) (text : Bytes) {mtime : Nat}
    (hClock : ((w.origin.strands.lookup strand).getD ⟨[], 0⟩).mtime < mtime) :
    World.Holds size { w with origin := w.origin.writeStrand strand text mtime } := by
  have hLookup : ∀ other, (w.origin.writeStrand strand text mtime).strands.lookup other =
      if other = strand then some (((w.origin.strands.lookup strand).getD ⟨[], 0⟩).write text mtime)
      else w.origin.strands.lookup other := by
    intro other
    by_cases hSame : other = strand
    · subst hSame
      rw [if_pos rfl]
      exact AList.lookup_insert _
    · rw [if_neg hSame]
      exact AList.lookup_insert_ne hSame
  refine h.origin rfl ⟨h.cache.isSealed, h.cache.length, h.cache.begins, h.cache.openLeft, ?_⟩ ⟨List.prefix_refl _, ?_⟩
  · intro other stamp raw hBlob
    obtain ⟨file, hFile, hTime, hRaw⟩ := h.cache.blobs other stamp raw hBlob
    rw [hLookup]
    split
    · rename_i hSame
      subst hSame
      rw [hFile] at hClock ⊢
      refine ⟨_, rfl, hTime.trans hClock.le, fun hStamp => ?_⟩
      -- The write moved the file's time on, past that of the blob.
      have hSameTime := congrArg Stamp.mtime hStamp
      simp only [StreamFile.stamp, StreamFile.write, Option.getD_some] at hSameTime hClock
      omega
    · exact ⟨file, hFile, hTime, hRaw⟩
  · intro other bytes hBytes
    obtain ⟨file, hFile, rfl⟩ := mem_files.mp hBytes
    by_cases hSame : other = strand
    · subst hSame
      refine ⟨(file.write text mtime).bytes, mem_files.mpr ⟨file.write text mtime, ?_, rfl⟩, file.write_grown text mtime⟩
      rw [hLookup, if_pos rfl, hFile, Option.getD_some]
    · refine ⟨file.bytes, mem_files.mpr ⟨file, ?_, rfl⟩, List.prefix_refl _⟩
      rw [hLookup, if_neg hSame, hFile]

theorem World.Holds.restart (h : w.Holds size) :
    World.Holds size { w with origin := { w.origin with cache := .empty } } :=
  h.origin rfl (Cache.Current.empty size _ _) (Snapshot.Grown.refl _)

/-- A pack adds at most the commit of the files as they are. -/
theorem Origin.pack_commits (h : w.origin.cache.Current size w.origin.loom.bytes w.origin.strands) :
    ((w.origin.pack size).commits = w.origin.commits ∨
      (w.origin.pack size).commits = w.origin.commits ++ [⟨treeOf size w.origin.files, w.origin.files⟩]) ∧
      (w.origin.pack size).cache.Current size w.origin.loom.bytes w.origin.strands := by
  obtain ⟨hTree, hCache⟩ := Origin.entries_eq h
  refine ⟨?_, hCache⟩
  rw [← hTree]
  simp only [Origin.pack]
  split
  · exact .inl rfl
  · exact .inr rfl

theorem World.Holds.pack (h : w.Holds size) : World.Holds size { w with origin := w.origin.pack size } := by
  obtain ⟨hCommits, hCache⟩ := Origin.pack_commits h.cache
  have hFiles : (w.origin.pack size).files = w.origin.files := rfl
  rcases hCommits with hSame | hNew
  · exact h.origin hSame hCache (Snapshot.Grown.refl _)
  constructor
  · exact hCache
  · intro c hc
    rw [hNew] at hc
    rcases List.mem_append.mp hc with hc | hc
    · exact h.packed c hc
    · obtain rfl := List.mem_singleton.mp hc
      exact ⟨rfl, w.origin.files_nodup⟩
  · rw [hNew]
    refine List.pairwise_append.mpr ⟨h.grown, List.pairwise_singleton _ _, fun a ha b hb => ?_⟩
    obtain rfl := List.mem_singleton.mp hb
    exact h.last a ha
  · intro c hc
    rw [hNew] at hc
    rw [hFiles]
    rcases List.mem_append.mp hc with hc | hc
    · exact h.last c hc
    · obtain rfl := List.mem_singleton.mp hc
      exact Snapshot.Grown.refl _
  · intro sha hSha
    rw [hNew, List.length_append]
    exact Nat.lt_add_right _ (h.remote sha hSha)
  · intro name raw hRaw
    obtain ⟨sha, c, whole, hSha, hCommit, hWhole⟩ := h.folder name raw hRaw
    refine ⟨sha, c, whole, hSha, ?_, hWhole⟩
    rw [hNew, List.getElem?_append_left (h.remote sha hSha), hCommit]

/-- Of two commits the later one has the files grown. -/
theorem World.Holds.commits_grown (h : w.Holds size) {n m : Nat} {c d : Commit} (hc : w.origin.commits[n]? = some c)
    (hd : w.origin.commits[m]? = some d) (hLe : n ≤ m) : c.files.Grown d.files := by
  obtain ⟨hn, rfl⟩ := List.getElem?_eq_some_iff.mp hc
  obtain ⟨hm, rfl⟩ := List.getElem?_eq_some_iff.mp hd
  rcases hLe.lt_or_eq with hLt | rfl
  · exact List.pairwise_iff_getElem.mp h.grown n m hn hm hLt
  · exact Snapshot.Grown.refl _

theorem World.Holds.push (h : w.Holds size) (hCommits : w.origin.commits ≠ []) :
    World.Holds size { w with remote := some (w.origin.commits.length - 1) } := by
  have hLength := List.length_pos_iff.mpr hCommits
  have hLast : w.origin.commits.length - 1 < w.origin.commits.length := by omega
  refine ⟨h.cache, h.packed, h.grown, h.last, fun sha hSha => ?_, fun name raw hRaw => ?_⟩
  · obtain rfl := Option.some.inj hSha
    exact hLast
  · obtain ⟨sha, c, whole, hSha, hCommit, hWhole, hBegins⟩ := h.folder name raw hRaw
    have hTip := List.getElem?_eq_getElem hLast
    have hGrown := h.commits_grown hCommit hTip (by have := h.remote sha hSha; omega)
    have hc := h.packed c (List.mem_of_getElem? hCommit)
    have hd := h.packed _ (List.mem_of_getElem? hTip)
    rw [hc.1] at hWhole
    obtain ⟨grown, hEntry, hBegins'⟩ := treeOf_grown hGrown hWhole
    exact ⟨_, _, grown, rfl, hTip, hd.1 ▸ hEntry, hBegins.trans hBegins'⟩

variable {commit : Commit}

/-- What a sync that completes finds, and leaves. -/
theorem World.sync_eq_some {w' : World} {sha : Nat} (h : w.sync = some (w', sha, commit)) :
    w.remote = some sha ∧ w.origin.commits[sha]? = some commit ∧
      w' = { w with folder := w.folder.write commit.tree, materialized := some sha } := by
  obtain ⟨found, hFound, h⟩ := Option.bind_eq_some_iff.mp h
  split at h
  · cases h
  · obtain ⟨c, hc, h⟩ := Option.bind_eq_some_iff.mp h
    cases h
    exact ⟨hFound, hc, rfl⟩

/-- The peer's files begin those of the commit a sync finds. -/
theorem World.Holds.begins (h : w.Holds size) {sha : Nat} (hSha : w.remote = some sha)
    (hCommit : w.origin.commits[sha]? = some commit) : w.folder.Begins commit.tree ∧ commit.tree.Named := by
  constructor
  · intro name raw hRaw
    obtain ⟨sha', c, whole, hSha', hc, hWhole, hBegins⟩ := h.folder name raw hRaw
    obtain rfl := Option.mem_unique hSha hSha'
    obtain rfl := Option.mem_unique hCommit hc
    exact ⟨whole, hWhole, hBegins⟩
  · obtain ⟨hTree, hDistinct⟩ := h.packed commit (List.mem_of_getElem? hCommit)
    exact hTree ▸ treeOf_named hDistinct

theorem World.Holds.synced (h : w.Holds size) {sha : Nat} (hSha : w.remote = some sha)
    (hCommit : w.origin.commits[sha]? = some commit) {folder : Folder} (hFolder : folder.Begins commit.tree)
    (materialized : Option Nat) :
    World.Holds size { w with folder := folder, materialized := materialized } := by
  refine ⟨h.cache, h.packed, h.grown, h.last, h.remote, fun name raw hRaw => ?_⟩
  obtain ⟨whole, hWhole, hBegins⟩ := hFolder name raw hRaw
  exact ⟨sha, commit, whole, hSha, hCommit, hWhole, hBegins⟩

theorem World.Reach.holds (h : w.Reach size) : w.Holds size := by
  induction h with
  | start =>
      refine ⟨Cache.Current.empty size _ _, ?_, List.Pairwise.nil, ?_, ?_, ?_⟩ <;> simp [World.start]
  | write prior text hClock ih => exact ih.write text _
  | writeStrand prior strand text hClock ih => exact ih.writeStrand strand text hClock
  | restart prior ih => exact ih.restart
  | pack prior ih => exact ih.pack
  | push prior hCommits ih => exact ih.push hCommits
  | sync prior hSync ih =>
      obtain ⟨hSha, hCommit, rfl⟩ := World.sync_eq_some hSync
      obtain ⟨hBegins, hNamed⟩ := ih.begins hSha hCommit
      refine ih.synced hSha hCommit (fun name raw hRaw => ⟨raw, ?_, List.prefix_refl _⟩) _
      exact (hBegins.write hNamed name raw).mp hRaw
  | crash prior hSync hTree count ih =>
      obtain ⟨hSha, hCommit, -⟩ := World.sync_eq_some hSync
      obtain ⟨hBegins, hNamed⟩ := ih.begins hSha hCommit
      have hTorn := Folder.Begins.crash (hTree ▸ hBegins) (hTree ▸ hNamed) count
      exact ih.synced hSha hCommit (hTree ▸ hTorn) _

end Steps

/-- The install wrote two lines of its own, then packed. -/
def twoLines : World :=
  let written := { World.start.origin with loom := World.start.origin.loom.write [65, 10, 66, 10] 1 }
  { World.start with origin := written.pack 2 }

end Brnrd.Shuttle
