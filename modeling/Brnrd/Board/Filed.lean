import Brnrd.Board.Deltas
import Brnrd.Board.Windows

/-! Parts in hand and the hashes they are filed under: when a part under a hash that the
server has is the server's, and what the steps of a sync that file parts keep of that. -/
namespace Brnrd.Board

open Patches

variable {ι J δ : Type} [DecidableEq ι]

/-- These read as the server's beads. -/
def Server.Reads (server : Server ι J δ) (rows : List (ι × J)) : Prop :=
  ∀ id, Entries.get id rows = Entries.get id server.parts.beads

/-- A version of a thread filed under a hash: if the server's has that hash, it is this. -/
def Server.Names (digest : Part ι J → δ) (server : Server ι J δ) (name : ι) (hash : δ) (origin : Thread ι J) : Prop :=
  ∀ thread ∈ Entries.get name server.parts.threads, digest (.thread thread) = hash → origin = thread

section Store

variable (digest : Part ι J → δ) (server : Server ι J δ) (origins : List (ι × Thread ι J)) (store : Store ι J δ)

/-- What is held under a hash that the server has is the server's. -/
structure Store.Filed : Prop where
  threads : ∀ name, ∀ origin ∈ Entries.get name origins, ∀ hash ∈ Entries.get name store.held.threads,
    server.Names digest name hash origin
  beads : ∀ rows ∈ store.beads, ∀ hash ∈ store.held.beads, server.beadsHash digest = hash → server.Reads rows
  topics : ∀ hash ∈ store.held.topics, server.topicsHash digest = some hash → store.topics = server.parts.topics
  unthreaded : ∀ hash ∈ store.held.unthreaded, server.unthreadedHash digest = some hash →
    store.unthreaded = server.parts.unthreaded

/-- Each thread part held is a stretch of the newest letters of the version it was cut
from, and has a hash. -/
def Store.Cut : Prop :=
  ∀ name, ∀ part ∈ Entries.get name store.threads, (Entries.get name store.held.threads).isSome ∧
    ∃ origin, Entries.get name origins = some origin ∧ part.Of origin

/-- The beads held and the hash they are filed under are of beads in question. -/
structure Store.Within (maps : Set (ι → Option J)) : Prop where
  rows : ∀ rows ∈ store.beads, (fun id => Entries.get id rows) ∈ maps
  hash : ∀ hash ∈ store.held.beads, ∃ was ∈ maps, digest (.beads was) = hash
  index : ∀ index ∈ store.index, ∃ was ∈ maps, digest (.beads was) = index.beads
  filed : store.beads.isSome → store.held.beads.isSome

/-- What holds of a store at any time. -/
structure Store.Held (maps : Set (ι → Option J)) : Prop where
  filed : store.Filed digest server origins
  cut : store.Cut origins
  within : store.Within digest maps

/-- The thread parts held are of the server's versions. -/
def Store.ThreadsDone : Prop :=
  ∀ name, ∀ _part ∈ Entries.get name store.threads,
    ∃ thread, Entries.get name server.parts.threads = some thread ∧ Entries.get name origins = some thread

def Store.BeadsDone : Prop :=
  ∀ rows ∈ store.beads, server.Reads rows

def Store.TopicsDone : Prop :=
  store.topics = server.parts.topics

def Store.UnthreadedDone : Prop :=
  store.unthreaded = server.parts.unthreaded

/-- Each thread part held is filed under the index's hash, or is asked for or dropped. -/
def Store.Pending (index : Index ι J δ) (names drop : List ι) : Prop :=
  ∀ name, ∀ _part ∈ Entries.get name store.threads,
    name ∈ names ∨ name ∈ drop ∨ Entries.get name store.held.threads = Entries.get name index.threads ∧
      (Entries.get name index.threads).isSome

/-- How far a sync has brought the store when it waits at a stage. -/
def Store.Upto (index : Index ι J δ) : Stage ι J δ → Prop
  | .index => True
  | .threads drop got => store.Pending index (got.map Prod.fst) drop
  | .beads .. => store.ThreadsDone server origins
  | .patched => store.ThreadsDone server origins ∧ store.BeadsDone server
  | .topics _ => store.ThreadsDone server origins ∧ store.BeadsDone server
  | .unthreaded _ => store.ThreadsDone server origins ∧ store.BeadsDone server ∧ store.TopicsDone server

/-- All that a sync brings. -/
structure Store.Done : Prop where
  threads : store.ThreadsDone server origins
  beads : store.BeadsDone server
  topics : store.TopicsDone server
  unthreaded : store.UnthreadedDone server

/-- The beads held are of the hash that a patch starts from, or of the one it ends at. -/
def Store.Takes (delta : BeadsDelta ι J δ) : Prop :=
  ∀ rows ∈ store.beads, digest (.beads fun id => Entries.get id rows) = delta.since ∨
    digest (.beads fun id => Entries.get id rows) = delta.hash

section Joined

variable [LT ι] [DecidableLT ι]

/-- Answers of thread requests filed one after the other: under a hash that the server has
is the server's version, and the letters that are kept join each answer. -/
def Joined (index : Index ι J δ) : Store ι J δ → List (ι × ThreadPart ι J × Thread ι J) → Prop
  | _, [] => True
  | store, item :: rest =>
      (∀ hash ∈ Entries.get item.1 index.threads,
        server.Names digest item.1 hash item.2.2 ∧ Joins (Entries.get item.1 store.threads) item.2.1 item.2.2) ∧
      Joined index (store.fileThread index item) rest

/-- What a sync is about to file is the server's where it is filed under a hash that the
server has, and a patch is put on beads that it takes. -/
def Store.Files (index : Index ι J δ) : Stage ι J δ → Prop
  | .index => True
  | .threads _ got =>
      (∀ rows ∈ answers got, Joined digest server index store rows) ∧
        ∀ delta ∈ index.beadsDelta, store.held.beads = some delta.1.since → store.Takes digest delta.1
  | .beads _ got => ∀ answer ∈ got, match answer with
      | .delta delta => store.Takes digest delta ∧ (server.beadsHash digest = index.beads → delta.hash = index.beads)
      | .whole rows => server.beadsHash digest = index.beads → server.Reads rows
  | .patched => True
  | .topics got => ∀ rows ∈ got, server.topicsHash digest = index.topics → rows = server.parts.topics
  | .unthreaded got => ∀ rows ∈ got, server.unthreadedHash digest = index.unthreaded → rows = server.parts.unthreaded

end Joined

end Store

section Index

variable {digest : Part ι J → δ} {server : Server ι J δ}

theorem get_index_threads (name : ι) :
    Entries.get name (server.index digest).threads = server.threadHash digest name :=
  Entries.get_map (fun _ thread => digest (.thread thread)) name server.parts.threads

theorem threadHash_eq_some {name : ι} {hash : δ} (h : server.threadHash digest name = some hash) :
    ∃ thread, Entries.get name server.parts.threads = some thread ∧ digest (.thread thread) = hash :=
  Option.map_eq_some_iff.mp h

end Index

section Drop

variable {digest : Part ι J → δ} {maps : Set (ι → Option J)} {server : Server ι J δ} {origins : List (ι × Thread ι J)}
  {store : Store ι J δ} {index : Index ι J δ} {names drop : List ι}

theorem get_dropped {α : Type} (name other : ι) (entries : List (ι × α)) :
    Entries.get other (entries.filter fun item => item.1 ≠ name) = if other = name then none else Entries.get other entries := by
  rw [show (entries.filter fun item => item.1 ≠ name) = entries.filter fun item => (decide (item.1 ≠ name)) from rfl,
    Entries.get_filter (fun key => decide (key ≠ name))]
  by_cases hIs : other = name <;> simp [hIs]

theorem dropThread_held (h : store.Held digest server origins maps) (name : ι) :
    (store.dropThread name).Held digest server origins maps := by
  refine ⟨⟨fun other origin hOrigin hash hHash => ?_, h.filed.beads, h.filed.topics, h.filed.unthreaded⟩,
    fun other part hPart => ?_, ⟨h.within.rows, h.within.hash, h.within.index, h.within.filed⟩⟩
  · have hHash : Entries.get other (store.held.threads.filter fun item => item.1 ≠ name) = some hash := hHash
    rw [get_dropped] at hHash
    split at hHash
    · cases hHash
    · exact h.filed.threads other origin hOrigin hash hHash
  · have hPart : Entries.get other (store.threads.filter fun item => item.1 ≠ name) = some part := hPart
    change (Entries.get other (store.held.threads.filter fun item => item.1 ≠ name)).isSome ∧ _
    rw [get_dropped] at hPart ⊢
    split at hPart
    · cases hPart
    · rename_i hNot
      rw [if_neg hNot]
      exact h.cut other part hPart

theorem dropThread_done (h : store.ThreadsDone server origins) (name : ι) :
    (store.dropThread name).ThreadsDone server origins := by
  intro other part hPart
  have hPart : Entries.get other (store.threads.filter fun item => item.1 ≠ name) = some part := hPart
  rw [get_dropped] at hPart
  split at hPart
  · cases hPart
  · exact h other part hPart

theorem dropThread_pending {name : ι} (h : store.Pending index names (name :: drop)) :
    (store.dropThread name).Pending index names drop := by
  intro other part hPart
  have hPart : Entries.get other (store.threads.filter fun item => item.1 ≠ name) = some part := hPart
  change _ ∨ _ ∨ Entries.get other (store.held.threads.filter fun item => item.1 ≠ name) = _ ∧ _
  rw [get_dropped] at hPart ⊢
  split at hPart
  · cases hPart
  · rename_i hNot
    rw [if_neg hNot]
    exact (h other part hPart).imp_right (Or.imp_left fun hIn => (List.mem_cons.mp hIn).resolve_left hNot)

theorem foldl_dropThread_held (h : store.Held digest server origins maps) (drop : List ι) :
    (drop.foldl Store.dropThread store).Held digest server origins maps := by
  induction drop generalizing store with
  | nil => exact h
  | cons name drop ih => exact ih (dropThread_held h name)

theorem foldl_dropThread_done (h : store.ThreadsDone server origins) (drop : List ι) :
    (drop.foldl Store.dropThread store).ThreadsDone server origins := by
  induction drop generalizing store with
  | nil => exact h
  | cons name drop ih => exact ih (dropThread_done h name)

theorem foldl_dropThread_pending (more : List ι) (h : store.Pending index names (drop ++ more)) :
    (drop.foldl Store.dropThread store).Pending index names more := by
  induction drop generalizing store with
  | nil => exact h
  | cons name drop ih => exact ih (dropThread_pending h)

/-- A store whose thread parts are all filed under the server's hashes has the server's
versions. -/
theorem Store.Pending.done (h : store.Pending (server.index digest) [] []) (hHeld : store.Held digest server origins maps) :
    store.ThreadsDone server origins := by
  intro name part hPart
  obtain ⟨hSame, hSome⟩ := ((h name part hPart).resolve_left (by simp)).resolve_left (by simp)
  obtain ⟨-, origin, hOrigin, -⟩ := hHeld.cut name part hPart
  obtain ⟨hash, hHash⟩ := Option.isSome_iff_exists.mp hSome
  rw [hHash] at hSame
  rw [get_index_threads] at hHash
  obtain ⟨thread, hThread, hDigest⟩ := threadHash_eq_some hHash
  have hIs := hHeld.filed.threads name origin hOrigin hash hSame thread hThread hDigest
  exact ⟨thread, hThread, by rw [hOrigin, hIs]⟩

end Drop

section Threads

variable [LT ι] [DecidableLT ι] {digest : Part ι J → δ} {maps : Set (ι → Option J)} {server : Server ι J δ}
  {origins : List (ι × Thread ι J)} {store : Store ι J δ} {index : Index ι J δ}
  {item : ι × ThreadPart ι J × Thread ι J} {hash : δ} {names drop : List ι}

/-- What a thread's answer makes of the store. -/
theorem fileThread_eq (hHash : Entries.get item.1 index.threads = some hash) : store.fileThread index item =
    { store with
      threads := Entries.set item.1 (keep (Entries.get item.1 store.threads) item.2.1) store.threads
      held := { store.held with threads := Entries.set item.1 hash store.held.threads } } := by
  unfold Store.fileThread
  rw [hHash]

theorem fileThread_held (h : store.Held digest server origins maps) (hHash : Entries.get item.1 index.threads = some hash)
    (hOf : item.2.1.Of item.2.2) (hNames : server.Names digest item.1 hash item.2.2)
    (hJoins : Joins (Entries.get item.1 store.threads) item.2.1 item.2.2) :
    (store.fileThread index item).Held digest server (Entries.set item.1 item.2.2 origins) maps := by
  rw [fileThread_eq hHash]
  refine ⟨⟨fun name origin hOrigin hash' hHash' => ?_, h.filed.beads, h.filed.topics, h.filed.unthreaded⟩,
    fun name part hPart => ?_, ⟨h.within.rows, h.within.hash, h.within.index, h.within.filed⟩⟩
  · rw [Entries.get_set] at hOrigin hHash'
    split at hOrigin
    · rename_i hIs
      subst hIs
      rw [if_pos rfl] at hHash'
      obtain rfl := Option.some.inj hOrigin
      obtain rfl := Option.some.inj hHash'
      exact hNames
    · rename_i hNot
      rw [if_neg hNot] at hHash'
      exact h.filed.threads name origin hOrigin hash' hHash'
  · rw [Entries.get_set] at hPart
    dsimp only
    rw [Entries.get_set, Entries.get_set]
    split at hPart
    · rename_i hIs
      subst hIs
      obtain rfl := Option.some.inj hPart
      exact ⟨by simp, item.2.2, by simp, keep_of hOf hJoins⟩
    · rename_i hNot
      rw [if_neg hNot, if_neg hNot]
      exact h.cut name part hPart

theorem fileThread_done (h : store.ThreadsDone server origins)
    (hHash : Entries.get item.1 (server.index digest).threads = some hash)
    (hNames : server.Names digest item.1 hash item.2.2) :
    (store.fileThread (server.index digest) item).ThreadsDone server (Entries.set item.1 item.2.2 origins) := by
  rw [fileThread_eq hHash]
  intro name part hPart
  dsimp only at hPart
  rw [Entries.get_set] at hPart ⊢
  split at hPart
  · rename_i hIs
    subst hIs
    rw [get_index_threads] at hHash
    obtain ⟨thread, hThread, hDigest⟩ := threadHash_eq_some hHash
    exact ⟨thread, hThread, by rw [if_pos rfl, hNames thread hThread hDigest]⟩
  · rename_i hNot
    rw [if_neg hNot]
    exact h name part hPart

theorem fileThread_pending (h : store.Pending index (item.1 :: names) drop)
    (hHash : Entries.get item.1 index.threads = some hash) : (store.fileThread index item).Pending index names drop := by
  rw [fileThread_eq hHash]
  intro name part hPart
  dsimp only at hPart ⊢
  rw [Entries.get_set] at hPart ⊢
  split at hPart
  · rename_i hIs
    subst hIs
    refine .inr (.inr ?_)
    rw [if_pos rfl, hHash]
    exact ⟨rfl, rfl⟩
  · rename_i hNot
    rw [if_neg hNot]
    refine (h name part hPart).imp_left fun hIn => ?_
    exact (List.mem_cons.mp hIn).resolve_left (Ne.symm hNot)

/-- The answers of a sync, each of a thread that the index has. -/
def Answered (index : Index ι J δ) (got : List (ι × ThreadPart ι J × Thread ι J)) : Prop :=
  ∀ item ∈ got, (Entries.get item.1 index.threads).isSome ∧ item.2.1.Of item.2.2

variable {got : List (ι × ThreadPart ι J × Thread ι J)}

/-- All the answers filed. -/
theorem foldl_fileThread_held (h : store.Held digest server origins maps) (hAnswered : Answered index got)
    (hJoined : Joined digest server index store got) :
    (got.foldl (fun store item => store.fileThread index item) store).Held digest server (cutFrom origins got) maps := by
  induction got generalizing store origins with
  | nil => exact h
  | cons item got ih =>
      obtain ⟨hSome, hOf⟩ := hAnswered item List.mem_cons_self
      obtain ⟨hash, hHash⟩ := Option.isSome_iff_exists.mp hSome
      obtain ⟨hNames, hJoins⟩ := hJoined.1 hash hHash
      exact ih (fileThread_held h hHash hOf hNames hJoins) (fun other hOther => hAnswered other (List.mem_cons_of_mem _ hOther))
        hJoined.2

theorem foldl_fileThread_done (h : store.ThreadsDone server origins) (hAnswered : Answered (server.index digest) got)
    (hJoined : Joined digest server (server.index digest) store got) :
    (got.foldl (fun store item => store.fileThread (server.index digest) item) store).ThreadsDone server
      (cutFrom origins got) := by
  induction got generalizing store origins with
  | nil => exact h
  | cons item got ih =>
      obtain ⟨hSome, -⟩ := hAnswered item List.mem_cons_self
      obtain ⟨hash, hHash⟩ := Option.isSome_iff_exists.mp hSome
      exact ih (fileThread_done h hHash (hJoined.1 hash hHash).1)
        (fun other hOther => hAnswered other (List.mem_cons_of_mem _ hOther)) hJoined.2

theorem foldl_fileThread_pending (h : store.Pending index (got.map Prod.fst ++ names) drop) (hAnswered : Answered index got) :
    (got.foldl (fun store item => store.fileThread index item) store).Pending index names drop := by
  induction got generalizing store with
  | nil => exact h
  | cons item got ih =>
      obtain ⟨hSome, -⟩ := hAnswered item List.mem_cons_self
      obtain ⟨hash, hHash⟩ := Option.isSome_iff_exists.mp hSome
      exact ih (fileThread_pending h hHash) fun other hOther => hAnswered other (List.mem_cons_of_mem _ hOther)

theorem foldl_fileThread_pending_same (h : store.Pending index names drop) (hAnswered : Answered index got) :
    (got.foldl (fun store item => store.fileThread index item) store).Pending index names drop :=
  foldl_fileThread_pending (fun name part hPart => (h name part hPart).imp_left (List.mem_append_right _)) hAnswered

/-- All that a sync files of its threads. -/
theorem fileThreads_held (h : store.Held digest server origins maps) (hAnswered : Answered index got)
    (hJoined : Joined digest server index store got) :
    (store.fileThreads index drop got).Held digest server (cutFrom origins got) maps :=
  foldl_dropThread_held (foldl_fileThread_held h hAnswered hJoined) drop

theorem fileThreads_done (h : store.Held digest server origins maps) (hAnswered : Answered (server.index digest) got)
    (hJoined : Joined digest server (server.index digest) store got)
    (hPending : store.Pending (server.index digest) (got.map Prod.fst) drop) :
    (store.fileThreads (server.index digest) drop got).ThreadsDone server (cutFrom origins got) := by
  refine Store.Pending.done ?_ (fileThreads_held h hAnswered hJoined)
  refine foldl_dropThread_pending [] ?_
  rw [List.append_nil]
  exact foldl_fileThread_pending (by rwa [List.append_nil]) hAnswered

end Threads

section Beads

variable {digest : Part ι J → δ} {maps : Set (ι → Option J)} {server : Server ι J δ}
  {origins : List (ι × Thread ι J)} {store : Store ι J δ} {index : Index ι J δ} {delta : BeadsDelta ι J δ}

/-- A patch that the beads take makes them the beads of its hash. -/
theorem patch_rows (hDigest : Set.InjOn (fun rows => digest (.beads rows)) maps) (h : store.Within digest maps)
    (hSound : delta.Sound digest maps) (hTakes : store.Takes digest delta) : ∀ rows ∈ (store.patch delta).beads,
      (fun id => Entries.get id rows) ∈ maps ∧ digest (.beads fun id => Entries.get id rows) = delta.hash := by
  intro rows hRows
  obtain ⟨old, hOld, rfl⟩ := Option.map_eq_some_iff.mp hRows
  obtain ⟨was, hWas, hSince, hThere, hHash⟩ := hSound
  have hRead : (fun id => Entries.get id (delta.patch.apply old)) = delta.patch.read fun id => Entries.get id old :=
    funext fun id => Patch.get_apply ..
  have hTo : (fun id => Entries.get id (delta.patch.apply old)) = delta.patch.read was := by
    rw [hRead]
    rcases hTakes old hOld with hIs | hIs
    · rw [hDigest (h.rows old hOld) hWas (hIs.trans hSince.symm)]
    · rw [hDigest (h.rows old hOld) hThere (hIs.trans hHash.symm), Patch.read_read]
  rw [hTo]
  exact ⟨hThere, hHash⟩

/-- Beads of the server's hash are the server's. -/
theorem reads_of_digest (hDigest : Set.InjOn (fun rows => digest (.beads rows)) maps) (hServer : server.rows ∈ maps)
    {rows : List (ι × J)} (hRows : (fun id => Entries.get id rows) ∈ maps)
    (hSame : digest (.beads fun id => Entries.get id rows) = server.beadsHash digest) : server.Reads rows :=
  fun id => congrFun (hDigest hRows hServer hSame) id

theorem patch_held (hDigest : Set.InjOn (fun rows => digest (.beads rows)) maps) (hServer : server.rows ∈ maps)
    (h : store.Held digest server origins maps) (hSound : delta.Sound digest maps) (hTakes : store.Takes digest delta) :
    (store.patch delta).Held digest server origins maps := by
  have hRows := patch_rows hDigest h.within hSound hTakes
  refine ⟨⟨h.filed.threads, fun rows hIn hash hHash hSame => ?_, h.filed.topics, h.filed.unthreaded⟩, h.cut,
    ⟨fun rows hIn => (hRows rows hIn).1, fun hash hHash => ?_, h.within.index, fun _ => rfl⟩⟩
  · obtain rfl := Option.some.inj hHash
    exact reads_of_digest hDigest hServer (hRows rows hIn).1 ((hRows rows hIn).2.trans hSame.symm)
  · obtain rfl := Option.some.inj hHash
    obtain ⟨was, -, -, hThere, hHash⟩ := hSound
    exact ⟨_, hThere, hHash⟩

theorem patch_done (hDigest : Set.InjOn (fun rows => digest (.beads rows)) maps) (hServer : server.rows ∈ maps)
    (h : store.Within digest maps) (hSound : delta.Sound digest maps) (hTakes : store.Takes digest delta)
    (hHash : delta.hash = server.beadsHash digest) : (store.patch delta).BeadsDone server := fun rows hIn =>
  have hRows := patch_rows hDigest h hSound hTakes rows hIn
  reads_of_digest hDigest hServer hRows.1 (hRows.2.trans hHash)

/-- The whole beads filed under a hash. -/
theorem whole_held (h : store.Held digest server origins maps) {rows : List (ι × J)} {hash : δ}
    (hRows : (fun id => Entries.get id rows) ∈ maps) (hHash : ∃ was ∈ maps, digest (.beads was) = hash)
    (hReads : server.beadsHash digest = hash → server.Reads rows) :
    Store.Held digest server origins
      { store with beads := some rows, held := { store.held with beads := some hash } } maps := by
  refine ⟨⟨h.filed.threads, fun rows' hIn hash' hHash' hSame => ?_, h.filed.topics, h.filed.unthreaded⟩, h.cut,
    ⟨fun rows' hIn => ?_, fun hash' hHash' => ?_, h.within.index, fun _ => rfl⟩⟩
  · obtain rfl := Option.some.inj hIn
    obtain rfl := Option.some.inj hHash'
    exact hReads hSame
  · obtain rfl := Option.some.inj hIn
    exact hRows
  · obtain rfl := Option.some.inj hHash'
    exact hHash

theorem topics_held (h : store.Held digest server origins maps) {rows : List J} {hash : Option δ}
    (hRows : server.topicsHash digest = hash → rows = server.parts.topics) :
    Store.Held digest server origins { store with topics := rows, held := { store.held with topics := hash } } maps :=
  ⟨⟨h.filed.threads, h.filed.beads, fun _ hOther hSame => hRows (hSame.trans hOther.symm), h.filed.unthreaded⟩, h.cut,
    ⟨h.within.rows, h.within.hash, h.within.index, h.within.filed⟩⟩

theorem unthreaded_held (h : store.Held digest server origins maps) {rows : List J} {hash : Option δ}
    (hRows : server.unthreadedHash digest = hash → rows = server.parts.unthreaded) :
    Store.Held digest server origins { store with unthreaded := rows, held := { store.held with unthreaded := hash } } maps :=
  ⟨⟨h.filed.threads, h.filed.beads, h.filed.topics, fun _ hOther hSame => hRows (hSame.trans hOther.symm)⟩, h.cut,
    ⟨h.within.rows, h.within.hash, h.within.index, h.within.filed⟩⟩

theorem finish_held (h : store.Held digest server origins maps) (hIndex : ∃ was ∈ maps, digest (.beads was) = index.beads) :
    (store.finish index).1.Held digest server origins maps :=
  ⟨⟨h.filed.threads, h.filed.beads, h.filed.topics, h.filed.unthreaded⟩, h.cut,
    ⟨h.within.rows, h.within.hash, fun _ hOther => Option.some.inj hOther ▸ hIndex, h.within.filed⟩⟩

end Beads

end Brnrd.Board
