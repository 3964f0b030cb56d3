import Brnrd.Events.Event
import Brnrd.Lists.Sorted
import Brnrd.Machine.Reach

/-! The pending events of an inbox: the scan of its directory, what two caches keep of it, and
the reads of every file that it stands for. -/
namespace Brnrd.Pending

open Events
open Python (strip)

/-- What the clock library and `str` make of values. -/
structure Library where
  /-- `datetime.fromisoformat(text).timestamp()`, in UTC where it names no zone. -/
  isoTimestamp : Text → Option ℚ
  repr : Fields → Text
  /-- `st_mtime`, of its nanoseconds. -/
  seconds : ℤ → ℚ

/-- A file: what `stat` says of it, and its text where it can be read as one. -/
structure File where
  mtime : ℤ
  size : ℕ
  text : Option Text
deriving DecidableEq

/-- The signature of a file. -/
def File.sig (file : File) : ℤ × ℕ :=
  (file.mtime, file.size)

/-- `_read_event`. -/
def File.event (file : File) : Option Event :=
  file.text.bind readEvent

/-- An inbox: the mtime of the directory, and its files by name. -/
structure Inbox where
  mtime : ℤ
  files : List (Text × File)
deriving DecidableEq

/-- A scan for the names that end in `.md`. -/
def mdFiles (listing : List (Text × File)) : List (Text × File) :=
  listing.filter fun item => decide (".md".toList <:+ item.1)

/-- `tuple(sorted(current.items()))`. -/
def fingerprint (listing : List (Text × File)) : List (Text × (ℤ × ℕ)) :=
  Sorted.up Prod.fst (listing.map fun item => (item.1, item.2.sig))

/-- Every file read. -/
def readAll (listing : List (Text × File)) : List (Text × Option Event) :=
  listing.map fun item => (item.1, item.2.event)

/-- `ev.get("status") in ("pending", "processing")`. -/
def isPending (event : Event) : Bool :=
  ((Entries.get statusKey event.fields).getD .none).eqText "pending".toList ||
    ((Entries.get statusKey event.fields).getD .none).eqText "processing".toList

/-- The events to return, each with the name of its file. -/
def pendingOf (parsed : List (Text × Option Event)) : List (Text × Event) :=
  parsed.filterMap fun item => (item.2.filter isPending).map fun event => (item.1, event)

variable (lib : Library)

/-- `parse_iso_epoch`. -/
def parseIsoEpoch (value : Option Entry) : Option ℚ :=
  match value with
  | none => none
  | some .none => none
  | some value =>
      let candidate := strip (value.str lib.repr)
      if candidate = [] then none
      else if candidate.getLast? = some 'Z' ∨ candidate.getLast? = some 'z' then
        lib.isoTimestamp (candidate.dropLast ++ "+00:00".toList)
      else lib.isoTimestamp candidate

/-- `_event_mtime`. -/
def eventMtime (inbox : Inbox) (name : Text) : ℚ :=
  match Entries.get name inbox.files with
  | some file => lib.seconds file.mtime
  | none => 0

/-- `_event_queue_sort_key`. -/
def queueSortKey (inbox : Inbox) (item : Text × Event) : ℚ ×ₗ ℚ ×ₗ Text :=
  let mtime := eventMtime lib inbox item.1
  let created := parseIsoEpoch lib (Entries.get createdKey item.2.fields)
  toLex (created.getD mtime, toLex (mtime, item.1))

/-- The events to return, oldest first. -/
def oldestFirst (inbox : Inbox) (parsed : List (Text × Option Event)) : List (Text × Event) :=
  Sorted.up (queueSortKey lib inbox) (pendingOf parsed)

/-- What reading every file would return. -/
def uncached (inbox : Inbox) : List (Text × Event) :=
  oldestFirst lib inbox (readAll (mdFiles inbox.files))

/-- What the cache keeps of one scan. -/
structure Cached where
  stamps : List (Text × (ℤ × ℕ))
  parsed : List (Text × Option Event)

/-- A file whose signature is the cached one is not read again. -/
def reparse (cached : Option Cached) (item : Text × File) : Option Event :=
  match cached with
  | none => item.2.event
  | some old =>
      if Entries.get item.1 old.stamps = some item.2.sig then (Entries.get item.1 old.parsed).getD item.2.event
      else item.2.event

/-- The cached scan that a listing leads to. -/
def rescan (cached : Option Cached) (listing : List (Text × File)) : Cached :=
  match cached.filter fun old => old.stamps = fingerprint listing with
  | some old => old
  | none => ⟨fingerprint listing, listing.map fun item => (item.1, reparse cached item)⟩

/-- `_PENDING_CACHE_MAX`. -/
def pendingCacheMax : ℕ :=
  32

variable {κ : Type} [DecidableEq κ]

/-- The cache with an inbox moved to its end, and the oldest inboxes evicted. -/
def keep (cache : List (κ × Cached)) (key : κ) (cached : Cached) : List (κ × Cached) :=
  let moved := cache.filter (fun item => decide (item.1 ≠ key)) ++ [(key, cached)]
  moved.drop (moved.length - pendingCacheMax)

/-- What has been on a disk: the mtimes that a directory had, its files, and the names that were
edited in place, and not renamed over, since the directory was last scanned. It is no part of
the program. -/
structure Past where
  mtimes : List ℤ
  files : List (Text × File)
  edited : List Text

/-- The inboxes by their resolved paths, with their past; `_pending_cache`, oldest first; and
`_pending_dir_seen`. -/
structure World (κ : Type) where
  disk : κ → Option Inbox
  past : κ → Past
  cache : List (κ × Cached)
  seen : List (κ × (ℤ × ℚ))

/-- No inbox yet. -/
def World.fresh : World κ :=
  ⟨fun _ => none, fun _ => ⟨[], [], []⟩, [], []⟩

/-- The cached events, where a caller allows them: the directory has not moved since its last
full scan, and that is not long ago. -/
def fastPath (world : World κ) (key : κ) (inbox : Inbox) (rescanAfter : Option ℚ) (now : ℚ) :
    Option (List (Text × Option Event)) :=
  match rescanAfter, Entries.get key world.seen, Entries.get key world.cache with
  | some limit, some (dirMtime, scanned), some cached =>
      if dirMtime = inbox.mtime ∧ now - scanned < limit then some cached.parsed else none
  | _, _, _ => none

/-- `list_pending`, with the entries in the order in which `os.scandir` yields them. -/
def listPending (world : World κ) (key : κ) (rescanAfter : Option ℚ) (now : ℚ) (listing : List (Text × File)) :
    List (Text × Event) × World κ :=
  match world.disk key with
  | none => ([], world)
  | some inbox =>
      match fastPath world key inbox rescanAfter now with
      | some parsed => (oldestFirst lib inbox parsed, world)
      | none =>
          let cached := rescan (Entries.get key world.cache) (mdFiles listing)
          let past := { world.past key with edited := [] }
          let seen := if rescanAfter.isSome then Entries.set key (inbox.mtime, now) world.seen else world.seen
          (oldestFirst lib inbox cached.parsed,
            { world with past := Function.update world.past key past, cache := keep world.cache key cached, seen })

/-- What can happen: a file is put in place by a rename, whatever stood under its name; a file
is removed; one is edited in place; and a caller asks. -/
inductive Action (κ : Type) where
  | replace (key : κ) (name : Text) (file : File) (dirMtime : ℤ)
  | remove (key : κ) (name : Text) (dirMtime : ℤ)
  | edit (key : κ) (name : Text) (file : File)
  | call (key : κ) (rescanAfter : Option ℚ) (now : ℚ) (listing : List (Text × File))

/-- An inbox as it is after a change. -/
def World.put (world : World κ) (key : κ) (inbox : Inbox) (past : Past) : World κ :=
  { world with disk := Function.update world.disk key (some inbox), past := Function.update world.past key past }

/-- One step. -/
def step (world : World κ) : Action κ → Option (World κ)
  | .replace key name file dirMtime =>
      let past := world.past key
      let files := ((world.disk key).map Inbox.files).getD []
      some (world.put key ⟨dirMtime, Entries.set name file files⟩
        ⟨dirMtime :: past.mtimes, (name, file) :: past.files, past.edited.filter (· ≠ name)⟩)
  | .remove key name dirMtime =>
      (world.disk key).map fun inbox =>
        let past := world.past key
        world.put key ⟨dirMtime, inbox.files.filter fun item => decide (item.1 ≠ name)⟩
          ⟨dirMtime :: past.mtimes, past.files, past.edited.filter (· ≠ name)⟩
  | .edit key name file =>
      (world.disk key).bind fun inbox =>
        let past := world.past key
        if (Entries.get name inbox.files).isSome then
          some (world.put key { inbox with files := Entries.set name file inbox.files }
            ⟨past.mtimes, (name, file) :: past.files, name :: past.edited⟩)
        else none
  | .call key rescanAfter now listing =>
      if ∀ inbox ∈ world.disk key, listing.Perm inbox.files then some (listPending lib world key rescanAfter now listing).2
      else none

/-- A stamp that names a text of a file for good. -/
def Own (files : List (Text × File)) (name : Text) (file : File) : Prop :=
  ∀ old ∈ files, old.1 = name → old.2.sig = file.sig → old.2.text = file.text

/-- A condition on the stamps that changes leave: on the mtimes of directories, and on files. -/
def Stamps (dirs : κ → ℤ → Prop) (files : κ → Text → File → Prop) : Action κ → Prop
  | .replace key name file dirMtime => dirs key dirMtime ∧ files key name file
  | .remove key _ dirMtime => dirs key dirMtime
  | .edit key name file => files key name file
  | .call .. => True

/-- Every change of a text moves the mtime or the size of its file, and every rename or removal
the mtime of the directory. -/
def Moves (world : World κ) : Action κ → Prop :=
  Stamps (fun key dirMtime => ∀ inbox ∈ world.disk key, dirMtime ≠ inbox.mtime) fun key name file =>
    ∀ inbox ∈ world.disk key, ∀ old ∈ Entries.get name inbox.files, old.sig = file.sig → old.text = file.text

/-- No file comes back to a signature that it had with another text, and no directory to an
mtime that it had. -/
def Apart (world : World κ) : Action κ → Prop :=
  Stamps (fun key dirMtime => dirMtime ∉ (world.past key).mtimes) fun key name file => Own (world.past key).files name file

variable {lib} {l m : List (Text × Option Event)} {files listing : List (Text × File)}

theorem pendingOf_names (l : List (Text × Option Event)) : ((pendingOf l).map Prod.fst).Sublist (l.map Prod.fst) := by
  induction l with
  | nil => exact .slnil
  | cons item l ih =>
      rw [pendingOf, List.filterMap_cons]
      cases hEvent : item.2.filter isPending with
      | none => exact ih.cons _
      | some event => exact ih.cons_cons _

/-- No two events of an inbox have one place in the order. -/
theorem key_inj (inbox : Inbox) (hNames : (l.map Prod.fst).Nodup) {a b : Text × Event} (ha : a ∈ pendingOf l)
    (hb : b ∈ pendingOf l) (hKey : queueSortKey lib inbox a = queueSortKey lib inbox b) : a = b :=
  List.inj_on_of_nodup_map (hNames.sublist (pendingOf_names l)) ha hb
    (congrArg (fun key : ℚ ×ₗ ℚ ×ₗ Text => (ofLex (ofLex key).2).2) hKey)

/-- The order in which a scan yields the names is no matter. -/
theorem oldestFirst_perm (inbox : Inbox) (h : l.Perm m) (hNames : (l.map Prod.fst).Nodup) :
    oldestFirst lib inbox l = oldestFirst lib inbox m := by
  have hPending : (pendingOf l).Perm (pendingOf m) := h.filterMap _
  refine List.Perm.eq_of_pairwise (fun a b ha hb hab hba => ?_) (Sorted.pairwise_up _ _) (Sorted.pairwise_up _ _)
    ((Sorted.up_perm _ _).trans (hPending.trans (Sorted.up_perm _ _).symm))
  have hb' : b ∈ pendingOf l := hPending.mem_iff.mpr ((Sorted.up_perm _ _).mem_iff.mp hb)
  exact key_inj inbox hNames ((Sorted.up_perm _ _).mem_iff.mp ha) hb' (le_antisymm hab hba)

theorem pendingOf_filter (p : Text → Bool) (l : List (Text × Option Event)) :
    (pendingOf l).filter (fun item => p item.1) = pendingOf (l.filter fun item => p item.1) := by
  rw [pendingOf, pendingOf, List.filter_filterMap, List.filterMap_filter]
  congr 1
  funext item
  cases item.2.filter isPending with
  | none => simp
  | some event => rfl

/-- Leaving names out leaves the order of the others. -/
theorem oldestFirst_filter (inbox : Inbox) (p : Text → Bool) (hNames : (l.map Prod.fst).Nodup) :
    (oldestFirst lib inbox l).filter (fun item => p item.1) = oldestFirst lib inbox (l.filter fun item => p item.1) := by
  refine List.Perm.eq_of_pairwise (fun a b ha hb hab hba => ?_) ((Sorted.pairwise_up _ _).filter _) (Sorted.pairwise_up _ _) ?_
  · have hb' := (Sorted.up_perm _ _).mem_iff.mp hb
    rw [← pendingOf_filter] at hb'
    exact key_inj inbox hNames ((Sorted.up_perm _ _).mem_iff.mp (List.mem_of_mem_filter ha)) (List.mem_of_mem_filter hb')
      (le_antisymm hab hba)
  · rw [oldestFirst, oldestFirst, ← pendingOf_filter]
    exact ((Sorted.up_perm _ _).filter _).trans (Sorted.up_perm _ _).symm

/-- No two texts of one file had one stamp. -/
def Consistent (files : List (Text × File)) : Prop :=
  ∀ item ∈ files, Own files item.1 item.2

/-- The event that a stamp stands for. -/
def eventOf (files : List (Text × File)) (stamp : Text × (ℤ × ℕ)) : Option Event :=
  (files.find? fun item => (item.1, item.2.sig) = stamp).bind fun item => item.2.event

theorem eventOf_eq (hFiles : Consistent files) {item : Text × File} (hItem : item ∈ files) :
    eventOf files (item.1, item.2.sig) = item.2.event := by
  have hFound : (files.find? fun old => (old.1, old.2.sig) = (item.1, item.2.sig)).isSome :=
    List.find?_isSome.mpr ⟨item, hItem, by simp⟩
  obtain ⟨old, hOld⟩ := Option.isSome_iff_exists.mp hFound
  have hSame : (old.1, old.2.sig) = (item.1, item.2.sig) := by simpa using List.find?_some hOld
  have hText := hFiles item hItem old (List.mem_of_find?_eq_some hOld) (Prod.mk.inj hSame).1 (Prod.mk.inj hSame).2
  rw [eventOf, hOld, Option.bind_some, File.event, hText]
  rfl

theorem readAll_eq (hFiles : Consistent files) (hIn : ∀ item ∈ listing, item ∈ files) :
    readAll listing = (listing.map fun item => (item.1, item.2.sig)).map fun stamp => (stamp.1, eventOf files stamp) := by
  rw [List.map_map]
  exact List.map_congr_left fun item hItem => Prod.ext rfl (eventOf_eq hFiles (hIn item hItem)).symm

/-- The cached scan was one of files that have been there. -/
def Cached.From (cached : Cached) (files : List (Text × File)) : Prop :=
  ∃ old, (∀ item ∈ old, item ∈ files) ∧ (old.map Prod.fst).Nodup ∧ cached.stamps = fingerprint old ∧ cached.parsed = readAll old

theorem names_readAll (listing : List (Text × File)) : (readAll listing).map Prod.fst = listing.map Prod.fst := by
  rw [readAll, List.map_map]
  rfl

/-- What is not read again is what would be read. -/
theorem reparse_eq {cached : Option Cached} (hFiles : Consistent files) (hOld : ∀ old ∈ cached, old.From files)
    {item : Text × File} (hItem : item ∈ files) : reparse cached item = item.2.event := by
  unfold reparse
  split
  · rfl
  · rename_i old
    obtain ⟨scan, hIn, hNames, hStamps, hParsed⟩ := hOld old rfl
    split
    · rename_i hSig
      rw [hStamps] at hSig
      obtain ⟨file, hFile, hSame⟩ := List.mem_map.mp ((Sorted.up_perm _ _).mem_iff.mp (Entries.mem_of_get hSig))
      have hEvent : Entries.get item.1 old.parsed = some file.2.event := by
        rw [hParsed, Entries.get_eq_some (by rwa [names_readAll])]
        exact List.mem_map.mpr ⟨file, hFile, Prod.ext (Prod.mk.inj hSame).1 rfl⟩
      rw [hEvent, Option.getD_some, ← eventOf_eq hFiles (hIn file hFile), hSame, eventOf_eq hFiles hItem]
    · rfl

/-- A rescan is a scan, and finds what reading every file would. -/
theorem rescan_spec {cached : Option Cached} (hFiles : Consistent files) (hOld : ∀ old ∈ cached, old.From files)
    (hIn : ∀ item ∈ listing, item ∈ files) (hNames : (listing.map Prod.fst).Nodup) :
    (rescan cached listing).From files ∧ (rescan cached listing).parsed.Perm (readAll listing) := by
  unfold rescan
  split
  · -- One fingerprint is one set of stamps, each with its own event.
    rename_i old hSame
    obtain ⟨hCached, hSame⟩ := Option.filter_eq_some_iff.mp hSame
    refine ⟨hOld old hCached, ?_⟩
    obtain ⟨scan, hScan, -, hStamps, hParsed⟩ := hOld old hCached
    have hPerm : (scan.map fun item => (item.1, item.2.sig)).Perm (listing.map fun item => (item.1, item.2.sig)) := by
      refine (Sorted.up_perm Prod.fst _).symm.trans (.trans (.of_eq ?_) (Sorted.up_perm Prod.fst _))
      exact hStamps.symm.trans (of_decide_eq_true hSame)
    rw [hParsed, readAll_eq hFiles hScan, readAll_eq hFiles hIn]
    exact hPerm.map _
  · have hParsed : (listing.map fun item => (item.1, reparse cached item)) = readAll listing :=
      List.map_congr_left fun item hItem => Prod.ext rfl (reparse_eq hFiles hOld (hIn item hItem))
    exact ⟨⟨listing, hIn, hNames, rfl, hParsed⟩, .of_eq hParsed⟩

/-- An inbox is of its past: so are its mtime and its files, each under its own name. -/
structure Past.Has (past : Past) (inbox : Inbox) : Prop where
  mtime : inbox.mtime ∈ past.mtimes
  files : ∀ item ∈ inbox.files, item ∈ past.files
  names : (inbox.files.map Prod.fst).Nodup

/-- An inbox and the stamp of its last full scan, against their past. -/
structure Placed (disk : Option Inbox) (past : Past) (seen : Option (ℤ × ℚ)) : Prop where
  consistent : Consistent past.files
  inbox : ∀ inbox ∈ disk, past.Has inbox
  seen : ∀ stamp ∈ seen, stamp.1 ∈ past.mtimes

/-- The names that were not edited in place. -/
def Past.kept (past : Past) (name : Text) : Bool :=
  decide (name ∉ past.edited)

/-- A cached scan of an inbox: where the directory has not moved since the last full scan, it
has every file that was not edited in place. -/
structure Fits (disk : Option Inbox) (past : Past) (seen : Option (ℤ × ℚ)) (cached : Cached) : Prop where
  scanned : cached.From past.files
  fresh : ∀ inbox ∈ disk, ∀ stamp ∈ seen, stamp.1 = inbox.mtime →
    (cached.parsed.filter fun item => past.kept item.1).Perm ((readAll (mdFiles inbox.files)).filter fun item => past.kept item.1)

/-- Each inbox is placed in its past, and every cached scan fits it. -/
structure World.Sound (world : World κ) : Prop where
  placed : ∀ key, Placed (world.disk key) (world.past key) (Entries.get key world.seen)
  fits : ∀ item ∈ world.cache, Fits (world.disk item.1) (world.past item.1) (Entries.get item.1 world.seen) item.2

theorem World.Sound.fresh : (World.fresh : World κ).Sound :=
  ⟨fun _ => ⟨nofun, nofun, nofun⟩, nofun⟩

variable {world next : World κ} {key : κ} {inbox : Inbox} {past : Past} {name : Text} {file : File} {dirMtime : ℤ}
  {disk : Option Inbox} {seen : Option (ℤ × ℚ)}

/-- A change of one inbox is sound where that inbox stays placed, and its cached scan fits. -/
theorem World.Sound.put (h : world.Sound) (hPlaced : Placed (some inbox) past (Entries.get key world.seen))
    (hFits : ∀ cached, Fits (world.disk key) (world.past key) (Entries.get key world.seen) cached →
      Fits (some inbox) past (Entries.get key world.seen) cached) : (world.put key inbox past).Sound := by
  refine ⟨fun other => ?_, fun item hItem => ?_⟩
  · by_cases hKey : other = key
    · subst hKey
      simpa [World.put] using hPlaced
    · simpa [World.put, hKey] using h.placed other
  · by_cases hKey : item.1 = key
    · subst hKey
      simpa [World.put] using hFits item.2 (h.fits item hItem)
    · simpa [World.put, hKey] using h.fits item hItem

theorem Cached.From.more {cached : Cached} (h : cached.From files) (item : Text × File) : cached.From (item :: files) := by
  obtain ⟨old, hIn, hRest⟩ := h
  exact ⟨old, fun other hOther => List.mem_cons_of_mem _ (hIn other hOther), hRest⟩

theorem Consistent.more (h : Consistent files) (hOwn : Own files name file) : Consistent ((name, file) :: files) := by
  rintro item (_ | ⟨_, hItem⟩) old (_ | ⟨_, hOld⟩) hName hSig
  · rfl
  · exact hOwn old hOld hName hSig
  · exact (hOwn item hItem hName.symm hSig.symm).symm
  · exact h item hItem old hOld hName hSig

/-- What a directory that has moved was scanned as is not taken for what it holds now. -/
theorem Fits.moved {cached : Cached} (hSeen : ∀ stamp ∈ seen, stamp.1 ∈ past.mtimes)
    (hNew : inbox.mtime ∉ past.mtimes) {after : Past} (hFiles : cached.From after.files) : Fits (some inbox) after seen cached := by
  refine ⟨hFiles, fun _ hInbox stamp hStamp hSame => ?_⟩
  obtain rfl := Option.some.inj hInbox
  exact absurd (hSame ▸ hSeen stamp hStamp) hNew

theorem filter_set (p : Text → Bool) (hName : p name = false) (files : List (Text × File)) :
    (Entries.set name file files).filter (fun item => p item.1) = files.filter fun item => p item.1 := by
  induction files with
  | nil => simp [Entries.set, hName]
  | cons item files ih =>
      rw [Entries.set]
      split
      · rename_i hSame
        simp [hName, hSame]
      · rw [List.filter_cons, List.filter_cons, ih]

/-- An edit in place leaves the files of other names. -/
theorem readAll_set (p : Text → Bool) (hName : p name = false) (files : List (Text × File)) :
    (readAll (mdFiles (Entries.set name file files))).filter (fun item => p item.1) =
      (readAll (mdFiles files)).filter fun item => p item.1 := by
  have hRead : ∀ files, (readAll (mdFiles files)).filter (fun item => p item.1) =
      readAll (mdFiles (files.filter fun item => p item.1)) := fun files => by
    rw [readAll, readAll, mdFiles, mdFiles, List.filter_map, List.filter_filter, List.filter_filter]
    simp only [Function.comp_def, Bool.and_comm]
  rw [hRead, hRead, filter_set p hName]

theorem Fits.edit {cached : Cached} (h : Fits (some inbox) past seen cached) :
    Fits (some { inbox with files := Entries.set name file inbox.files })
      ⟨past.mtimes, (name, file) :: past.files, name :: past.edited⟩ seen cached := by
  refine ⟨h.scanned.more _, fun _ hInbox stamp hStamp hSame => ?_⟩
  obtain rfl := Option.some.inj hInbox
  have hKept : ∀ other, Past.kept ⟨past.mtimes, (name, file) :: past.files, name :: past.edited⟩ other =
      (decide (other ≠ name) && past.kept other) := fun other => by
    simp [Past.kept, not_or]
  have hOld := (h.fresh inbox rfl stamp hStamp hSame).filter fun item => decide (item.1 ≠ name)
  rw [readAll_set _ (by simp [Past.kept])]
  simpa only [hKept, List.filter_filter] using hOld

theorem Placed.files_getD (h : Placed disk past seen) : (∀ item ∈ (disk.map Inbox.files).getD [], item ∈ past.files) ∧
    (((disk.map Inbox.files).getD []).map Prod.fst).Nodup := by
  cases disk with
  | none => exact ⟨nofun, List.nodup_nil⟩
  | some inbox => exact ⟨(h.inbox inbox rfl).files, (h.inbox inbox rfl).names⟩

theorem mem_keep {cache : List (κ × Cached)} {cached : Cached} {item : κ × Cached} (h : item ∈ keep cache key cached) :
    item = (key, cached) ∨ item ∈ cache ∧ item.1 ≠ key := by
  rcases List.mem_append.mp (List.mem_of_mem_drop h) with hOld | hNew
  · exact .inr (by simpa using List.mem_filter.mp hOld)
  · exact .inl (List.mem_singleton.mp hNew)

theorem mdFiles_perm {other : List (Text × File)} (h : listing.Perm other) : (mdFiles listing).Perm (mdFiles other) :=
  h.filter _

/-- What a full scan of an inbox caches. -/
theorem World.Sound.rescan_spec (h : world.Sound) (hDisk : world.disk key = some inbox) (hListing : listing.Perm inbox.files) :
    (rescan (Entries.get key world.cache) (mdFiles listing)).From (world.past key).files ∧
      (rescan (Entries.get key world.cache) (mdFiles listing)).parsed.Perm (readAll (mdFiles inbox.files)) := by
  have hPlaced := h.placed key
  have hIn : ∀ item ∈ mdFiles listing, item ∈ (world.past key).files := fun item hItem =>
    (hPlaced.inbox inbox hDisk).files item (hListing.mem_iff.mp (List.mem_of_mem_filter hItem))
  have hNames : ((mdFiles listing).map Prod.fst).Nodup :=
    ((hListing.map Prod.fst).nodup_iff.mpr (hPlaced.inbox inbox hDisk).names).sublist (List.filter_sublist.map _)
  obtain ⟨hFrom, hRead⟩ := Pending.rescan_spec hPlaced.consistent
    (fun old hOld => (h.fits (key, old) (Entries.mem_of_get hOld)).scanned) hIn hNames
  exact ⟨hFrom, hRead.trans ((mdFiles_perm hListing).map _)⟩

/-- A call keeps the caches sound. -/
theorem World.Sound.call (h : world.Sound) (hListing : ∀ inbox ∈ world.disk key, listing.Perm inbox.files)
    (rescanAfter : Option ℚ) (now : ℚ) : (listPending lib world key rescanAfter now listing).2.Sound := by
  unfold listPending
  cases hDisk : world.disk key with
  | none => exact h
  | some inbox =>
      dsimp only
      cases fastPath world key inbox rescanAfter now with
      | some parsed => exact h
      | none =>
          obtain ⟨hFrom, hRead⟩ := h.rescan_spec hDisk (hListing inbox hDisk)
          have hSeen : ∀ other, Entries.get other
              (if rescanAfter.isSome then Entries.set key (inbox.mtime, now) world.seen else world.seen) =
              if rescanAfter.isSome ∧ key = other then some (inbox.mtime, now) else Entries.get other world.seen := fun other => by
            cases rescanAfter <;> simp
          refine ⟨fun other => ?_, fun item hItem => ?_⟩
          · dsimp only
            rw [hSeen]
            by_cases hKey : other = key
            · subst hKey
              have hPlaced := h.placed other
              rw [Function.update_self]
              refine ⟨hPlaced.consistent, fun inbox hInbox => ⟨(hPlaced.inbox inbox hInbox).mtime, (hPlaced.inbox inbox hInbox).files,
                (hPlaced.inbox inbox hInbox).names⟩, fun stamp hStamp => ?_⟩
              split at hStamp
              · obtain rfl := Option.some.inj hStamp
                exact (hPlaced.inbox inbox hDisk).mtime
              · exact hPlaced.seen stamp hStamp
            · rw [Function.update_of_ne hKey, if_neg fun hSame => hKey hSame.2.symm]
              exact h.placed other
          · dsimp only
            rw [hSeen]
            rcases mem_keep hItem with rfl | ⟨hOld, hKey⟩
            · rw [Function.update_self]
              refine ⟨hFrom, fun other hOther _ _ _ => ?_⟩
              obtain rfl := Option.mem_unique hDisk hOther
              exact hRead.filter _
            · rw [Function.update_of_ne hKey, if_neg fun hSame => hKey hSame.2.symm]
              exact h.fits item hOld

/-- A step keeps the caches sound where no stamp comes back. -/
theorem World.Sound.step {action : Action κ} (h : world.Sound) (hApart : Apart world action) (hStep : step lib world action = some next) :
    next.Sound := by
  cases action with
  | replace key name file dirMtime =>
      obtain rfl := Option.some.inj hStep
      have hPlaced := h.placed key
      obtain ⟨hFiles, hNames⟩ := hPlaced.files_getD
      refine h.put ⟨hPlaced.consistent.more hApart.2, fun _ hInbox => Option.some.inj hInbox ▸
          ⟨List.mem_cons_self, fun item hItem => ?_, Entries.nodup_set hNames⟩,
        fun stamp hStamp => List.mem_cons_of_mem _ (hPlaced.seen stamp hStamp)⟩
        fun cached hFits => Fits.moved hPlaced.seen hApart.1 (hFits.scanned.more _)
      rcases Entries.mem_set hItem with rfl | hOld
      · exact List.mem_cons_self
      · exact List.mem_cons_of_mem _ (hFiles item hOld)
  | remove key name dirMtime =>
      obtain ⟨inbox, hDisk, rfl⟩ := Option.map_eq_some_iff.mp hStep
      have hPlaced := h.placed key
      have hHas := hPlaced.inbox inbox hDisk
      exact h.put ⟨hPlaced.consistent, fun _ hInbox => Option.some.inj hInbox ▸ ⟨List.mem_cons_self,
          fun item hItem => hHas.files item (List.mem_of_mem_filter hItem), hHas.names.sublist (List.filter_sublist.map _)⟩,
        fun stamp hStamp => List.mem_cons_of_mem _ (hPlaced.seen stamp hStamp)⟩
        fun cached hFits => Fits.moved hPlaced.seen (by exact hApart) hFits.scanned
  | edit key name file =>
      obtain ⟨inbox, hDisk, hRest⟩ := Option.bind_eq_some_iff.mp hStep
      dsimp only at hRest
      split at hRest
      · obtain rfl := Option.some.inj hRest
        have hPlaced := h.placed key
        have hHas := hPlaced.inbox inbox hDisk
        refine h.put ⟨hPlaced.consistent.more hApart, fun _ hInbox => Option.some.inj hInbox ▸
          ⟨hHas.mtime, fun item hItem => ?_, Entries.nodup_set hHas.names⟩, hPlaced.seen⟩ fun cached hFits => (hDisk ▸ hFits).edit
        rcases Entries.mem_set hItem with rfl | hOld
        · exact List.mem_cons_self
        · exact List.mem_cons_of_mem _ (hHas.files item hOld)
      · cases hRest
  | call key rescanAfter now listing =>
      rw [Pending.step] at hStep
      split at hStep
      · rename_i hListing
        obtain rfl := Option.some.inj hStep
        exact h.call hListing rescanAfter now
      · cases hStep

theorem World.Sound.reach (h : Machine.Reach (Pending.step lib) Apart World.fresh world) : world.Sound :=
  h.invariant World.Sound .fresh fun _ _ _ hSound hApart hStep => hSound.step hApart hStep

theorem fastPath_some {rescanAfter : Option ℚ} {now : ℚ} {parsed : List (Text × Option Event)}
    (h : fastPath world key inbox rescanAfter now = some parsed) :
    ∃ stamp cached, Entries.get key world.seen = some stamp ∧ Entries.get key world.cache = some cached ∧
      stamp.1 = inbox.mtime ∧ cached.parsed = parsed := by
  unfold fastPath at h
  split at h
  · rename_i limit dirMtime scanned cached hSeen hCached
    split at h
    · rename_i hSame
      exact ⟨_, cached, hSeen, hCached, hSame.1, Option.some.inj h⟩
    · cases h
  · cases h

/-- Where no stamp comes back, a full scan returns what reading every file would, in the same
order; and so does the fast path but for the files that were edited in place since. -/
theorem listPending_fresh (hReach : Machine.Reach (Pending.step lib) Apart World.fresh world) (hDisk : world.disk key = some inbox)
    (hListing : listing.Perm inbox.files) (rescanAfter : Option ℚ) (now : ℚ) :
    let events := (listPending lib world key rescanAfter now listing).1
    (fastPath world key inbox rescanAfter now = none → events = uncached lib inbox) ∧
      events.filter (fun item => (world.past key).kept item.1) =
        (uncached lib inbox).filter fun item => (world.past key).kept item.1 := by
  have hSound : world.Sound := .reach hReach
  have hNames : ((readAll (mdFiles inbox.files)).map Prod.fst).Nodup := by
    rw [names_readAll]
    exact ((hSound.placed key).inbox inbox hDisk).names.sublist (List.filter_sublist.map _)
  have hEvents : (listPending lib world key rescanAfter now listing).1 = oldestFirst lib inbox
      ((fastPath world key inbox rescanAfter now).getD (rescan (Entries.get key world.cache) (mdFiles listing)).parsed) := by
    unfold listPending
    rw [hDisk]
    dsimp only
    cases fastPath world key inbox rescanAfter now <;> rfl
  intro events
  cases hFast : fastPath world key inbox rescanAfter now with
  | none =>
      have hRead := (hSound.rescan_spec hDisk hListing).2
      have hSame : events = uncached lib inbox := by
        rw [show events = _ from hEvents, hFast]
        exact oldestFirst_perm inbox hRead ((hRead.map Prod.fst).nodup_iff.mpr hNames)
      exact ⟨fun _ => hSame, by rw [hSame]⟩
  | some parsed =>
      obtain ⟨stamp, cached, hSeen, hCached, hStamp, rfl⟩ := fastPath_some hFast
      have hFits := hSound.fits (key, cached) (Entries.mem_of_get hCached)
      have hFresh := hFits.fresh inbox hDisk stamp hSeen hStamp
      obtain ⟨old, -, hOld, -, hParsed⟩ := hFits.scanned
      have hCachedNames : (cached.parsed.map Prod.fst).Nodup := by rwa [show cached.parsed = _ from hParsed, names_readAll]
      refine ⟨nofun, ?_⟩
      rw [show events = _ from hEvents, hFast, Option.getD_some, oldestFirst_filter inbox _ hCachedNames, uncached,
        oldestFirst_filter inbox _ hNames]
      exact oldestFirst_perm inbox hFresh (hCachedNames.sublist (List.filter_sublist.map _))

instance {dirs : κ → ℤ → Prop} {files : κ → Text → File → Prop} [∀ key dirMtime, Decidable (dirs key dirMtime)]
    [∀ key name file, Decidable (files key name file)] (action : Action κ) : Decidable (Stamps dirs files action) :=
  match action with
  | .replace key name file dirMtime => inferInstanceAs (Decidable (dirs key dirMtime ∧ files key name file))
  | .remove key _ dirMtime => inferInstanceAs (Decidable (dirs key dirMtime))
  | .edit key name file => inferInstanceAs (Decidable (files key name file))
  | .call .. => .isTrue trivial

instance (world : World κ) (action : Action κ) : Decidable (Moves world action) :=
  inferInstanceAs (Decidable (Stamps _ _ action))

instance (files : List (Text × File)) (name : Text) (file : File) : Decidable (Own files name file) :=
  inferInstanceAs (Decidable (∀ old ∈ files, old.1 = name → old.2.sig = file.sig → old.2.text = file.text))

instance (world : World κ) (action : Action κ) : Decidable (Apart world action) :=
  inferInstanceAs (Decidable (Stamps _ _ action))

/-- A library in which no stamp is read. -/
def plainLibrary : Library :=
  ⟨fun _ => none, fun _ => [], fun nanos => nanos⟩

/-- A file with an event of some status. -/
def letter (mtime : ℤ) (status body : String) : File :=
  let text := ("---\nid: a\nstatus: " ++ status ++ "\n---\n" ++ body).toList
  ⟨mtime, text.length, some text⟩

/-- A file that is renamed into an inbox, and a call of a caller that takes the fast path next. -/
def firstCalls : List (Action Unit) :=
  [.replace () "a.md".toList (letter 1 "pending" "hi") 1, .call () (some 60) 0 [("a.md".toList, letter 1 "pending" "hi")]]

theorem firstCalls_run : (Machine.follow (step plainLibrary) Apart World.fresh firstCalls).isSome := by
  decide +kernel

theorem listPending_fresh_again : let world := (Machine.follow (step plainLibrary) Apart World.fresh firstCalls).get firstCalls_run
    let inbox : Inbox := ⟨1, [("a.md".toList, letter 1 "pending" "hi")]⟩
    ((listPending plainLibrary world () (some 60) 1 inbox.files).1.filter fun item => (world.past ()).kept item.1) =
      (uncached plainLibrary inbox).filter fun item => (world.past ()).kept item.1 :=
  (listPending_fresh (Machine.Reach.refl.follow (Option.some_get firstCalls_run).symm) (by decide +kernel) (.refl _) (some 60) 1).2

/-- A file that is edited twice in one tick of the clock, and is as long again as it was. -/
def twoEdits : List (Action Unit) :=
  [.replace () "a.md".toList (letter 1 "pending" "hi") 1, .call () none 0 [("a.md".toList, letter 1 "pending" "hi")],
    .edit () "a.md".toList (letter 1 "pending" "hi!"), .edit () "a.md".toList (letter 1 "settled" "hi")]

/-- Two files renamed into an inbox while the clock is set back. -/
def clockBack : List (Action Unit) :=
  firstCalls ++ [.replace () "b.md".toList (letter 2 "pending" "hi") 2, .replace () "c.md".toList (letter 1 "pending" "hi") 1]

theorem twoEdits_run : (Machine.follow (step plainLibrary) Moves World.fresh twoEdits).isSome := by
  decide +kernel

theorem clockBack_run : (Machine.follow (step plainLibrary) Moves World.fresh clockBack).isSome := by
  decide +kernel

/-- A stamp that moves can come back: a full scan then returns an event that is settled, and the
fast path misses two files that were renamed into the inbox. -/
theorem listPending_stale :
    (∃ (world : World Unit) (inbox : Inbox), Machine.Reach (step plainLibrary) Moves World.fresh world ∧
      world.disk () = some inbox ∧ (listPending plainLibrary world () none 1 inbox.files).1 ≠ uncached plainLibrary inbox) ∧
    ∃ (world : World Unit) (inbox : Inbox), Machine.Reach (step plainLibrary) Moves World.fresh world ∧
      world.disk () = some inbox ∧ (world.past ()).edited = [] ∧
        (listPending plainLibrary world () (some 60) 1 inbox.files).1 ≠ uncached plainLibrary inbox := by
  refine ⟨⟨_, ⟨1, [("a.md".toList, letter 1 "settled" "hi")]⟩, Machine.Reach.refl.follow (Option.some_get twoEdits_run).symm,
      by decide +kernel, fun hSame => ?_⟩,
    ⟨_, ⟨1, [("a.md".toList, letter 1 "pending" "hi"), ("b.md".toList, letter 2 "pending" "hi"), ("c.md".toList, letter 1 "pending" "hi")]⟩,
      Machine.Reach.refl.follow (Option.some_get clockBack_run).symm, by decide +kernel, by decide +kernel, fun hSame => ?_⟩⟩
  · have hNames := congrArg (List.map Prod.fst) hSame
    revert hNames
    decide +kernel
  · have hNames := congrArg (List.map Prod.fst) hSame
    revert hNames
    decide +kernel

end Brnrd.Pending
