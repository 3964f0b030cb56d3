import Brnrd.Ledger.Rows
import Brnrd.Lists.Segments
import Mathlib.Data.List.AList

/-! An install's ledger folder on its way to a peer: packed as a tree of sealed
segments and strand files, pushed to the lease remote, and written into the
peer's copy of the folder, append by append. -/
namespace Brnrd.Shuttle

open Python Facts Ledger

abbrev Bytes := List UInt8

/-- `segments(raw, size)`. -/
def segments (raw : Bytes) (size : ℕ+) : List Bytes :=
  Segments.segments (· = 10) size raw

/-- The id the router mints for a strand, `s-<install>-<mint>`. -/
structure Strand where
  id : String
  hMinted : "s-".toList <+: id.toList
  hFlat : '/' ∉ id.toList
deriving DecidableEq

/-- The strand's own file in the folder. -/
def Strand.file (strand : Strand) : String :=
  strand.id ++ ".jsonl"

/-- `f"loom.{n:04d}.jsonl"`. -/
def segmentFile (n : Nat) : String :=
  "loom." ++ String.ofList ((Nat.toDigits 10 n).leftpad 4 '0') ++ ".jsonl"

/-- A stream file of the folder. The inode never changes, for the file is only
written in place. -/
structure StreamFile where
  bytes : Bytes
  mtime : Nat

structure Stamp where
  size : Nat
  mtime : Nat
deriving DecidableEq

def StreamFile.stamp (file : StreamFile) : Stamp :=
  ⟨file.bytes.length, file.mtime⟩

/-- The files of a folder by their bytes: the loom's own, and those of its strands. -/
structure Snapshot where
  loom : Bytes
  strands : List (Strand × Bytes)

/-- A tree: the names of its entries and the bytes of their blobs. -/
abbrev Tree := List (String × Bytes)

/-- A commit of the install's ref, and the files it was packed from. -/
structure Commit where
  tree : Tree
  files : Snapshot

/-- What a shuttle keeps in its process: `blobs`, `sealed` and `sealed_bytes`. -/
structure Cache where
  blobs : Strand → Option (Stamp × Bytes)
  sealed : List Bytes
  sealedBytes : Nat

def Cache.empty : Cache :=
  ⟨fun _ => none, [], 0⟩

/-- The install that packs. An absent `loom.jsonl` is an empty one. -/
structure Origin where
  loom : StreamFile
  strands : AList fun _ : Strand => StreamFile
  cache : Cache
  commits : List Commit

def Origin.files (o : Origin) : Snapshot :=
  ⟨o.loom.bytes, o.strands.entries.map fun e => (e.1, e.2.bytes)⟩

/-- One strand file in `_entries`, through the cache. -/
def Cache.entry (cache : Cache) (strand : Strand) (file : StreamFile) : Cache × (String × Bytes) :=
  let fresh : Cache × (String × Bytes) :=
    let raw := complete file.bytes
    ({ cache with blobs := Function.update cache.blobs strand (some (file.stamp, raw)) }, (strand.file, raw))
  match cache.blobs strand with
  | some (stamp, raw) => if stamp = file.stamp then (cache, (strand.file, raw)) else fresh
  | none => fresh

/-- The loop of `_entries` over the strand files. -/
def Cache.entries (cache : Cache) : List (Σ _ : Strand, StreamFile) → Cache × Tree
  | [] => (cache, [])
  | ⟨strand, file⟩ :: rest =>
      let (cache, entry) := cache.entry strand file
      let (cache, tree) := cache.entries rest
      (cache, entry :: tree)

/-- `_loom`: the blobs of the segments. -/
def Cache.loom (size : ℕ+) (cache : Cache) (raw : Bytes) : Cache × List Bytes :=
  let cache := if raw.length < cache.sealedBytes then { cache with sealed := [], sealedBytes := 0 } else cache
  let tail := complete (raw.drop cache.sealedBytes)
  let pieces := segments tail size
  -- Every piece but the last is sealed: its cut no longer moves.
  let cache := { cache with
    sealed := cache.sealed ++ pieces.dropLast
    sealedBytes := cache.sealedBytes + (pieces.dropLast.map List.length).sum }
  (cache, cache.sealed ++ pieces.getLast?.toList)

def named (pieces : List Bytes) : Tree :=
  pieces.zipIdx.map fun e => (segmentFile e.2, e.1)

/-- `_entries`. `mktree` sorts what it is given, so the order is no part of a tree. -/
def Origin.entries (size : ℕ+) (o : Origin) : Cache × Tree :=
  let (cache, pieces) := o.cache.loom size o.loom.bytes
  let (cache, tree) := cache.entries o.strands.entries
  (cache, named pieces ++ tree)

/-- `pack`: a commit when there is something and the tree changed. -/
def Origin.pack (size : ℕ+) (o : Origin) : Origin :=
  let (cache, tree) := o.entries size
  let commits :=
    if tree = [] ∨ o.commits.getLast?.any (fun parent => decide (parent.tree.Perm tree)) then o.commits
    else o.commits ++ [⟨tree, o.files⟩]
  { o with cache := cache, commits := commits }

/-- A write to a file: its unfinished last line is cut off, and some bytes are
added, all of a row or what a crash left of it. -/
def StreamFile.write (file : StreamFile) (text : Bytes) (mtime : Nat) : StreamFile :=
  ⟨complete file.bytes ++ text, mtime⟩

/-- A write to a strand's file, which may be its first. -/
def Origin.writeStrand (o : Origin) (strand : Strand) (text : Bytes) (mtime : Nat) : Origin :=
  let file := (o.strands.lookup strand).getD ⟨[], 0⟩
  { o with strands := o.strands.insert strand (file.write text mtime) }

/-- A peer's copy of the folder. -/
abbrev Folder := AList fun _ : String => Bytes

/-- A name `_write` takes. -/
def isStreamName (name : String) : Bool :=
  !name.toList.contains '/' && ".jsonl".toList.isSuffixOf name.toList

/-- One entry in `_write`: appended to, or replaced whole. -/
def Folder.writeEntry (folder : Folder) (entry : String × Bytes) : Folder :=
  if !isStreamName entry.1 then folder
  else match folder.lookup entry.1 with
    | none => folder.insert entry.1 entry.2
    | some found =>
        if found = entry.2 then folder
        else if found.isPrefixOf entry.2 then folder.insert entry.1 (found ++ entry.2.drop found.length)
        else folder.insert entry.1 entry.2

/-- What a crash leaves of one entry: the first bytes of an append, or nothing of
a replacement, which takes its place at once. -/
def Folder.tornEntry (folder : Folder) (entry : String × Bytes) (count : Nat) : Folder :=
  if !isStreamName entry.1 then folder
  else match folder.lookup entry.1 with
    | none => folder
    | some found =>
        if found.isPrefixOf entry.2 then folder.insert entry.1 (found ++ (entry.2.drop found.length).take count)
        else folder

/-- What a crash leaves of the entries it cut off. -/
def Folder.torn (folder : Folder) (count : Nat) : Tree → Folder
  | [] => folder
  | entry :: _ => folder.tornEntry entry count

/-- `_write`. -/
def Folder.write (folder : Folder) (tree : Tree) : Folder :=
  tree.foldl Folder.writeEntry folder

/-- The origin, the ref at the lease remote as its commit's place in the origin's
history, and a peer: its copy of the folder and what it has `materialized`. -/
structure World where
  origin : Origin
  remote : Option Nat
  folder : Folder
  materialized : Option Nat

def World.start : World where
  origin := ⟨⟨[], 0⟩, ∅, .empty, []⟩
  remote := none
  folder := ∅
  materialized := none

/-- A `sync` of the peer that finds the remote moved, and completes. -/
def World.sync (w : World) : Option (World × Nat × Commit) := do
  let sha ← w.remote
  if w.materialized = some sha then none
  else do
    let commit ← w.origin.commits[sha]?
    return ({ w with folder := w.folder.write commit.tree, materialized := some sha }, sha, commit)

/-- The worlds some run reaches. Each write finds the clock moved on, and each
process may be restarted with its cache lost. -/
inductive World.Reach (size : ℕ+) : World → Prop where
  | start : Reach size .start
  | write {w : World} (prior : Reach size w) (text : Bytes) {mtime : Nat} (hClock : w.origin.loom.mtime < mtime) :
      Reach size { w with origin := { w.origin with loom := w.origin.loom.write text mtime } }
  | writeStrand {w : World} (prior : Reach size w) (strand : Strand) (text : Bytes) {mtime : Nat}
      (hClock : ((w.origin.strands.lookup strand).getD ⟨[], 0⟩).mtime < mtime) :
      Reach size { w with origin := w.origin.writeStrand strand text mtime }
  | restart {w : World} (prior : Reach size w) :
      Reach size { w with origin := { w.origin with cache := .empty } }
  | pack {w : World} (prior : Reach size w) : Reach size { w with origin := w.origin.pack size }
  | push {w : World} (prior : Reach size w) (hCommits : w.origin.commits ≠ []) :
      Reach size { w with remote := some (w.origin.commits.length - 1) }
  | sync {w w' : World} (prior : Reach size w) {sha : Nat} {commit : Commit} (hSync : w.sync = some (w', sha, commit)) :
      Reach size w'
  | crash {w w' : World} (prior : Reach size w) {sha : Nat} {commit : Commit} {written rest : Tree}
      (hSync : w.sync = some (w', sha, commit)) (hTree : commit.tree = written ++ rest) (count : Nat) :
      Reach size { w with folder := (w.folder.write written).torn count rest }

/-- The facts of a folder's files. -/
def filesFacts (host : Host) (files : List Bytes) : Option (List Fact) :=
  (files.mapM (readFile host)).map List.flatten

/-- The facts of a folder's complete lines. -/
def Snapshot.facts (host : Host) (files : Snapshot) : Option (List Fact) :=
  filesFacts host (files.loom :: files.strands.map Prod.snd)

def Folder.facts (host : Host) (folder : Folder) : Option (List Fact) :=
  filesFacts host (folder.entries.map fun e => e.2)

end Brnrd.Shuttle

/-! What a pack makes of an install's files: the cached segments are those of the
whole stream, and a later tree holds every file of an earlier one, grown. -/
namespace Brnrd.Shuttle

open Ledger

/-- The tree of some files, packed from scratch. -/
def treeOf (size : ℕ+) (files : Snapshot) : Tree :=
  named (segments (complete files.loom) size) ++ files.strands.map fun e => (e.1.file, complete e.2)

/-- What the cache says of the files: the sealed segments begin the stream's
complete lines, and a blob is current as long as its file's stamp is. -/
structure Cache.Current (size : ℕ+) (cache : Cache) (loom : Bytes) (strands : AList fun _ : Strand => StreamFile) :
    Prop where
  isSealed : ∀ piece ∈ cache.sealed, Segments.Sealed (· = (10 : UInt8)) size piece
  length : cache.sealedBytes = cache.sealed.flatten.length
  begins : cache.sealed.flatten <+: complete loom
  openLeft : cache.sealed ≠ [] → cache.sealed.flatten.length < (complete loom).length
  blobs : ∀ strand stamp raw, cache.blobs strand = some (stamp, raw) → ∃ file, strands.lookup strand = some file ∧
    stamp.mtime ≤ file.mtime ∧ (stamp = file.stamp → raw = complete file.bytes)

theorem Cache.Current.empty (size : ℕ+) (loom : Bytes) (strands : AList fun _ : Strand => StreamFile) :
    Cache.empty.Current size loom strands := by
  constructor
  · simp [Cache.empty]
  · rfl
  · exact List.nil_prefix
  · exact fun hSealed => absurd rfl hSealed
  · intro strand stamp raw hBlob
    cases hBlob

variable {size : ℕ+}

/-- Sealed pieces are whole lines. -/
theorem sealed_lines {pieces : List Bytes} (h : ∀ piece ∈ pieces, Segments.Sealed (· = (10 : UInt8)) size piece) :
    Lines pieces.flatten := by
  induction pieces with
  | nil => exact .inl rfl
  | cons piece pieces ih =>
      obtain ⟨first, last, rfl, hLast⟩ := (h piece List.mem_cons_self).ends
      obtain rfl : last = 10 := by simpa using hLast
      exact Lines.append (Or.inr ⟨first, rfl⟩) (ih fun other hOther => h other (List.mem_cons_of_mem _ hOther))

/-- The segments of `_loom` are those of the stream's complete lines, of which it
keeps the sealed ones, and the cache it leaves is as current. -/
theorem Cache.Current.loom {cache : Cache} {raw : Bytes} {strands : AList fun _ : Strand => StreamFile}
    (h : cache.Current size raw strands) :
    (cache.loom size raw).2 = segments (complete raw) size ∧
      (cache.loom size raw).1.sealed = (segments (complete raw) size).dropLast ∧
      (cache.loom size raw).1.Current size raw strands := by
  have hWhole := complete_prefix raw
  have hSize : ¬raw.length < cache.sealedBytes := by
    have hBegins := (h.begins.trans hWhole).length_le
    rw [h.length]
    omega
  obtain ⟨rest, hRest⟩ := h.begins.trans hWhole
  have hDrop : raw.drop cache.sealedBytes = rest := by
    rw [h.length, ← hRest, List.drop_left]
  have hComplete : complete raw = cache.sealed.flatten ++ complete rest := by
    rw [← hRest, complete_append (sealed_lines h.isSealed)]
  have hSegments : segments (complete raw) size = cache.sealed ++ segments (complete rest) size := by
    rw [hComplete]
    exact Segments.segments_sealed h.isSealed _
  have hPieces : (segments (complete rest) size).dropLast ++ (segments (complete rest) size).getLast?.toList =
      segments (complete rest) size := by
    cases hLast : (segments (complete rest) size).getLast? with
    | none => simp [List.getLast?_eq_none_iff.mp hLast]
    | some last => exact List.dropLast_append_getLast? last hLast
  have hNew : ∀ piece ∈ (segments (complete rest) size).dropLast, Segments.Sealed (· = (10 : UInt8)) size piece :=
    fun piece hPiece => Segments.sealed_of_mem_dropLast hPiece
  have hSealed : cache.sealed ++ (segments (complete rest) size).dropLast = (segments (complete raw) size).dropLast := by
    rw [hSegments]
    by_cases hNone : segments (complete rest) size = []
    · have hRestNil : complete rest = [] := Segments.segments_eq_nil.mp hNone
      have hNothing : cache.sealed = [] := by
        by_contra hSome
        have hLeft := h.openLeft hSome
        rw [hComplete, hRestNil, List.append_nil] at hLeft
        exact lt_irrefl _ hLeft
      simp [hNone, hNothing]
    · rw [List.dropLast_append_of_ne_nil hNone]
  simp only [Cache.loom, if_neg hSize, hDrop]
  refine ⟨by rw [hSegments, List.append_assoc, hPieces], hSealed, ?_, ?_, ?_, ?_, h.blobs⟩
  · intro piece hPiece
    exact (List.mem_append.mp hPiece).elim (h.isSealed piece) (hNew piece)
  · simp [h.length, List.length_flatten]
  · rw [hSealed]
    cases hLast : (segments (complete raw) size).getLast? with
    | none => simp [List.getLast?_eq_none_iff.mp hLast]
    | some last => exact ⟨last, (Segments.sealed_flatten hLast).1⟩
  · intro hSome
    rw [hSealed] at hSome ⊢
    cases hLast : (segments (complete raw) size).getLast? with
    | none =>
        rw [List.getLast?_eq_none_iff.mp hLast] at hSome
        exact absurd rfl hSome
    | some last =>
        obtain ⟨hSplit, hOpen⟩ := Segments.sealed_flatten hLast
        have hLength := congrArg List.length hSplit
        have hPositive := List.length_pos_iff.mpr hOpen
        rw [List.length_append] at hLength
        show (segments (complete raw) size).dropLast.flatten.length < _
        unfold segments
        omega

section Strands

variable {size : ℕ+} {cache : Cache} {raw : Bytes} {strands : AList fun _ : Strand => StreamFile}

/-- An entry holds the file's complete lines, cached or not. -/
theorem Cache.Current.entry (h : cache.Current size raw strands) {strand : Strand} {file : StreamFile}
    (hFile : strands.lookup strand = some file) :
    (cache.entry strand file).2 = (strand.file, complete file.bytes) ∧
      (cache.entry strand file).1.Current size raw strands := by
  have hFresh : Cache.Current size
      { cache with blobs := Function.update cache.blobs strand (some (file.stamp, complete file.bytes)) } raw strands := by
    refine ⟨h.isSealed, h.length, h.begins, h.openLeft, fun other stamp blob hBlob => ?_⟩
    by_cases hSame : other = strand
    · subst hSame
      simp only [Function.update_self, Option.some.injEq, Prod.mk.injEq] at hBlob
      obtain ⟨rfl, rfl⟩ := hBlob
      exact ⟨file, hFile, le_rfl, fun _ => rfl⟩
    · simp only [Function.update_of_ne hSame] at hBlob
      exact h.blobs other stamp blob hBlob
  unfold Cache.entry
  split
  · rename_i stamp blob hBlob
    split
    · rename_i hStamp
      obtain ⟨found, hFound, -, hRaw⟩ := h.blobs strand stamp blob hBlob
      obtain rfl := Option.mem_unique hFile hFound
      exact ⟨by rw [hRaw hStamp], h⟩
    · exact ⟨rfl, hFresh⟩
  · exact ⟨rfl, hFresh⟩

theorem Cache.Current.entries (h : cache.Current size raw strands) {files : List (Σ _ : Strand, StreamFile)}
    (hFiles : ∀ e ∈ files, strands.lookup e.1 = some e.2) :
    (cache.entries files).2 = files.map (fun e => (e.1.file, complete e.2.bytes)) ∧
      (cache.entries files).1.Current size raw strands := by
  induction files generalizing cache with
  | nil => exact ⟨rfl, h⟩
  | cons e files ih =>
      obtain ⟨hEntry, hCache⟩ := h.entry (hFiles e List.mem_cons_self)
      obtain ⟨hRest, hCurrent⟩ := ih hCache fun e he => hFiles e (List.mem_cons_of_mem _ he)
      refine ⟨?_, hCurrent⟩
      show (cache.entry e.1 e.2).2 :: ((cache.entry e.1 e.2).1.entries files).2 = _
      rw [hEntry, hRest, List.map_cons]

end Strands

/-- The entries of a pack are the tree of the files as they are. -/
theorem Origin.entries_eq {o : Origin} (h : o.cache.Current size o.loom.bytes o.strands) :
    (o.entries size).2 = treeOf size o.files ∧ (o.entries size).1.Current size o.loom.bytes o.strands := by
  obtain ⟨hPieces, -, hLoom⟩ := h.loom
  have hFiles : ∀ e ∈ o.strands.entries, o.strands.lookup e.1 = some e.2 :=
    fun e he => AList.mem_lookup_iff.mpr he
  obtain ⟨hStrands, hCurrent⟩ := hLoom.entries hFiles
  refine ⟨?_, hCurrent⟩
  simp only [Origin.entries, treeOf, Origin.files, List.map_map]
  rw [hPieces, hStrands]
  rfl

/-- Files that only grew by lines. -/
structure Snapshot.Grown (a b : Snapshot) : Prop where
  loom : complete a.loom <+: complete b.loom
  strands : ∀ strand bytes, (strand, bytes) ∈ a.strands → ∃ grown, (strand, grown) ∈ b.strands ∧ complete bytes <+: complete grown

theorem Snapshot.Grown.refl (a : Snapshot) : a.Grown a :=
  ⟨List.prefix_refl _, fun _ bytes h => ⟨bytes, h, List.prefix_refl _⟩⟩

theorem Snapshot.Grown.trans {a b c : Snapshot} (h : a.Grown b) (h' : b.Grown c) : a.Grown c := by
  refine ⟨h.loom.trans h'.loom, fun strand bytes hBytes => ?_⟩
  obtain ⟨grown, hGrown, hBegins⟩ := h.strands strand bytes hBytes
  obtain ⟨last, hLast, hBegins'⟩ := h'.strands strand grown hGrown
  exact ⟨last, hLast, hBegins.trans hBegins'⟩

/-- Each entry of the earlier tree begins one of the later. -/
theorem treeOf_grown {a b : Snapshot} (h : a.Grown b) {name : String} {raw : Bytes} (hEntry : (name, raw) ∈ treeOf size a) :
    ∃ grown, (name, grown) ∈ treeOf size b ∧ raw <+: grown := by
  rcases List.mem_append.mp hEntry with hPiece | hStrand
  · obtain ⟨⟨piece, n⟩, hIndexed, hSame⟩ := List.mem_map.mp hPiece
    obtain ⟨rfl, rfl⟩ := Prod.mk.inj hSame
    obtain ⟨more, hMore⟩ := h.loom
    have hAt : (Segments.segments (· = (10 : UInt8)) size (complete a.loom))[n]? = some piece :=
      List.mem_zipIdx_iff_getElem?.mp hIndexed
    obtain ⟨grown, hGrown, hBegins⟩ := Segments.segments_piece_grown hAt more
    rw [hMore] at hGrown
    exact ⟨grown, List.mem_append_left _ (List.mem_map.mpr ⟨(grown, n), List.mem_zipIdx_iff_getElem?.mpr hGrown, rfl⟩),
      hBegins⟩
  · obtain ⟨⟨strand, bytes⟩, hHeld, hSame⟩ := List.mem_map.mp hStrand
    obtain ⟨rfl, rfl⟩ := Prod.mk.inj hSame
    obtain ⟨grown, hGrown, hBegins⟩ := h.strands strand bytes hHeld
    exact ⟨complete grown, List.mem_append_right _ (List.mem_map.mpr ⟨(strand, grown), hGrown, rfl⟩), hBegins⟩

end Brnrd.Shuttle
