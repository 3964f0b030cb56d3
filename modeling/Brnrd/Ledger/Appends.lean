import Brnrd.Ledger.Refresh
import Brnrd.Machine.Reach

/-! Runs of appends by the processes of one install, with torn lines, restarts and a clock
that goes back: what each leaves on disk, and what the indexes then say. -/
namespace Brnrd.Ledger

open Python Facts
open Stores (factRow)

variable {host : Host} {format : Format host}

/-- No old name stands in the fact. -/
def Modern (fact : Fact) : Prop :=
  fact.kind ≠ "molt" ∧ Dict.has fact.data "molt" = false ∧
    ¬(fact.kind = "attempt.ended" ∧ Dict.get fact.data "cause" = .str "molted") ∧
    ¬(fact.kind = "letter" ∧ Dict.get fact.data "body" = .str fresh.1)

instance (fact : Fact) : Decidable (Modern fact) :=
  inferInstanceAs (Decidable (_ ∧ _))

theorem renamed_factRow {fact : Fact} (h : Modern fact) : renamed (factRow fact) = factRow fact := by
  obtain ⟨hKind, hData, hCause, hBody⟩ := h
  have hGetKind : Dict.get (factRow fact) "kind" = .str fact.kind := by
    simp [Dict.get, factRow, List.lookup_cons]
  have hGetData : Dict.get (factRow fact) "data" = .obj fact.data := by
    simp [Dict.get, factRow, List.lookup_cons]
  have hNamed : (Value.str fact.kind = .str "molt") ↔ False := by simpa using hKind
  have hSame : replaceAt (factRow fact) "data" (.obj fact.data) = factRow fact := by
    simp [replaceAt, factRow]
  have hOld : renameMolt fact.data = fact.data := by simp [renameMolt, hData]
  have hEnded : ¬(Value.str fact.kind = .str "attempt.ended" ∧ Dict.get fact.data "cause" = .str "molted") := by
    simpa using hCause
  have hFresh : ¬(Value.str fact.kind = .str "letter" ∧ Dict.get fact.data "body" = .str fresh.1) := by
    simpa using hBody
  simp only [renamed, hGetKind, hGetData, hNamed, if_false, hOld, if_neg hEnded, if_neg hFresh, hSame]

/-- The stamps that files have had, and have. -/
def Appending.stamps (w : Appending) : List (String × Stamp) :=
  w.past ++ w.dir.map fun entry => (entry.1, entry.2.stamp)

/-- The times that a write gives a file are its own still, and it has no unfinished line; or
they are none that it has had. -/
def Appending.Moves (w : Appending) (name : String) (disk : Disk) : Prop :=
  (∃ entry ∈ w.dir, entry.1 = name ∧ (entry.2.mtime, entry.2.ctime) = (disk.mtime, disk.ctime) ∧
      wholeLines entry.2.text = entry.2.text) ∨
    ∀ known ∈ w.stamps, known.1 = name → (known.2.mtime, known.2.ctime) ≠ (disk.mtime, disk.ctime)

instance (w : Appending) (name : String) (disk : Disk) : Decidable (w.Moves name disk) :=
  inferInstanceAs (Decidable (_ ∨ _))

/-- What an append rests on: a fact of today's version without old names, and file times that
tell a file's states apart. -/
def Appending.Fits (w : Appending) : AppendAction → Prop
  | .append _ _ fact _ disk => fact.v = version ∧ Modern fact ∧ ∀ name ∈ factFilename fact, w.Moves name disk
  | .restart _ => True

instance (w : Appending) : DecidablePred w.Fits
  | .append .. => inferInstanceAs (Decidable (_ ∧ _ ∧ _))
  | .restart _ => isTrue trivial

/-- What the index of a process has read, and what it says. -/
structure Appending.Indexed (format : Format host) (w : Appending) (held : String → List Fact) (index : DirIndex)
    (count : String → ℕ) (taken : List Fact) : Prop where
  knows : format.Knows index.stamps held count w.dir
  describes : index.facts.Describes taken
  taken : taken.Perm (w.dir.flatMap fun entry => (held entry.1).take (count entry.1))
  seen : ∀ known ∈ index.stamps, (known.1, known.2.1) ∈ w.stamps

/-- What every step keeps: the files hold the facts of the log and unfinished lines, each
index has read a part of them, and the facts that were stamped have rising clocks. -/
structure Appending.Inv (format : Format host) (install : String) (w : Appending) (held : String → List Fact) : Prop where
  names : (w.dir.map Prod.fst).Nodup
  holds : format.Holds held w.dir
  absent : ∀ name ∉ w.dir.map Prod.fst, held name = []
  log : w.log.Perm (w.dir.facts held)
  ids : (w.log.map Fact.id).Nodup
  admitted : ∀ f ∈ w.log, admitFact f = none
  indexed : ∀ p, ∃ count taken, w.Indexed format held (w.index p) count taken
  sizes : ∀ entry ∈ w.dir, ∀ known ∈ w.past, known.1 = entry.1 →
    (known.2.mtime, known.2.ctime) = (entry.2.mtime, entry.2.ctime) → known.2.size ≤ entry.2.text.length
  stamped : ∀ f ∈ w.stamped, f ∈ w.log ∧ ∃ stamp, f.hlc = some stamp ∧ stamp.install = install
  rising : w.stamped.Pairwise Below

theorem Appending.Inv.empty (install : String) : Appending.Inv format install {} fun _ => [] where
  names := List.nodup_nil
  holds := nofun
  absent := fun _ _ => rfl
  log := List.Perm.refl _
  ids := List.nodup_nil
  admitted := nofun
  indexed := fun _ => ⟨fun _ => 0, [], knows_empty format _ _, describes_empty, List.Perm.refl _, nofun⟩
  sizes := nofun
  stamped := nofun
  rising := List.Pairwise.nil

section
variable {install : String} {w : Appending} {held : String → List Fact}

theorem Appending.Inv.facts_ids (h : w.Inv format install held) : ((w.dir.facts held).map Fact.id).Nodup :=
  (h.log.map Fact.id).nodup_iff.mp h.ids

/-- A refresh by any process. -/
theorem Appending.Inv.refresh (h : w.Inv format install held) (p : ℕ) :
    ∃ facts known, (w.index p).refresh host w.dir = .ok ⟨w.dir.map (format.cursor held), facts⟩ ∧ facts.Describes known ∧
      known.Perm (w.dir.facts held) := by
  obtain ⟨count, taken, hIndexed⟩ := h.indexed p
  exact DirIndex.refresh_eq h.holds h.facts_ids hIndexed.knows hIndexed.describes hIndexed.taken

/-- The index is what one made from the files alone would be. -/
theorem Appending.Inv.rebuilt (h : w.Inv format install held) (p : ℕ) :
    ∃ kept made, (w.index p).refresh host w.dir = .ok kept ∧ DirIndex.empty.refresh host w.dir = .ok made ∧
      kept.stamps = made.stamps ∧ kept.facts.Same made.facts := by
  obtain ⟨facts, known, hKept, hFacts, hKnown⟩ := h.refresh p
  obtain ⟨fresh, all, hMade, hFresh, hAll⟩ := refresh_empty h.holds h.facts_ids
  exact ⟨_, _, hKept, hMade, rfl, hFacts.same hFresh (hKnown.trans hAll.symm) ((hKnown.map Fact.id).nodup_iff.mpr h.facts_ids)⟩

variable {dir : Directory}

theorem lookup_cursor (hNames : (dir.map Prod.fst).Nodup) (held : String → List Fact) {entry : String × Shard}
    (hEntry : entry ∈ dir) :
    (dir.map (format.cursor held)).lookup entry.1 = some (format.cursor held entry).2 := by
  induction dir with
  | nil => cases hEntry
  | cons first dir ih =>
      rw [List.map_cons, List.nodup_cons] at hNames
      rw [List.map_cons, Format.cursor, lookup_cons_if]
      rcases List.mem_cons.mp hEntry with rfl | hEntry
      · rw [if_pos rfl]
        rfl
      · have hOther : entry.1 ≠ first.1 := fun hSame => hNames.1 (hSame ▸ List.mem_map_of_mem hEntry)
        rw [if_neg hOther, ih hNames.2 hEntry]

theorem lookup_cursor_absent (held : String → List Fact) {name : String} (h : name ∉ dir.map Prod.fst) :
    (dir.map (format.cursor held)).lookup name = none := by
  induction dir with
  | nil => rfl
  | cons first dir ih =>
      rw [List.map_cons, List.mem_cons, not_or] at h
      rw [List.map_cons, Format.cursor, lookup_cons_if, if_neg h.1, ih h.2]

variable {known taken : List Fact}

/-- The refreshed index has read everything. -/
theorem Appending.Inv.refreshed (h : w.Inv format install held) {facts : WriterIndex} (hFacts : facts.Describes known)
    (hKnown : known.Perm (w.dir.facts held)) :
    w.Indexed format held ⟨w.dir.map (format.cursor held), facts⟩ (fun name => (held name).length) known where
  knows := {
    absent := by
      intro name hNone
      by_cases hName : name ∈ w.dir.map Prod.fst
      · obtain ⟨entry, hEntry, rfl⟩ := List.mem_map.mp hName
        rw [lookup_cursor h.names held hEntry] at hNone
        cases hNone
      · rw [h.absent name hName, List.length_nil]
    short := fun _ => le_rfl
    offset := by
      intro name cursor hLookup
      by_cases hName : name ∈ w.dir.map Prod.fst
      · obtain ⟨entry, hEntry, rfl⟩ := List.mem_map.mp hName
        rw [lookup_cursor h.names held hEntry] at hLookup
        obtain rfl := Option.some.inj hLookup
        rw [List.take_length, Format.cursor]
      · rw [lookup_cursor_absent held hName] at hLookup
        cases hLookup
    stamp := fun _ _ _ _ _ => rfl
    names := by
      intro cursor hCursor
      obtain ⟨entry, hEntry, rfl⟩ := List.mem_map.mp hCursor
      exact List.mem_map_of_mem hEntry }
  describes := hFacts
  taken := by
    simp only [List.take_length]
    exact hKnown
  seen := by
    intro cursor hCursor
    obtain ⟨entry, hEntry, rfl⟩ := List.mem_map.mp hCursor
    exact List.mem_append_right _ (List.mem_map.mpr ⟨entry, hEntry, rfl⟩)

/-- A process whose index changes changes nothing else. -/
theorem Appending.Inv.reindex (h : w.Inv format install held) (p : ℕ) {index : DirIndex} {count : String → ℕ}
    (hIndexed : w.Indexed format held index count taken) :
    Appending.Inv format install { w with index := Function.update w.index p index } held where
  names := h.names
  holds := h.holds
  absent := h.absent
  log := h.log
  ids := h.ids
  admitted := h.admitted
  indexed := by
    intro q
    by_cases hSame : q = p
    · subst hSame
      dsimp only
      rw [Function.update_self]
      exact ⟨count, taken, hIndexed.knows, hIndexed.describes, hIndexed.taken, hIndexed.seen⟩
    · dsimp only
      rw [Function.update_of_ne hSame]
      obtain ⟨count, taken, hOther⟩ := h.indexed q
      exact ⟨count, taken, hOther.knows, hOther.describes, hOther.taken, hOther.seen⟩
  sizes := h.sizes
  stamped := h.stamped
  rising := h.rising

theorem facts_names (dir : Directory) (held : String → List Fact) : dir.facts held = (dir.map Prod.fst).flatMap held := by
  rw [Directory.facts, List.flatMap_map]

/-- The names after a write. -/
theorem write_names (dir : Directory) (name : String) (disk : Disk) (sent : List Char) :
    ((dir.write name disk sent).map Prod.fst).Perm
      (if name ∈ dir.map Prod.fst then dir.map Prod.fst else name :: dir.map Prod.fst) := by
  unfold Directory.write
  split
  · rw [List.map_map]
    have hSame : dir.map (Prod.fst ∘ fun entry => if entry.1 = name then (name, entry.2.extend disk sent) else entry) =
        dir.map Prod.fst := by
      refine List.map_congr_left fun entry _ => ?_
      by_cases hName : entry.1 = name <;> simp [hName]
    rw [hSame]
  · exact (List.perm_orderedInsert _ _ _).map Prod.fst

variable {sent : List Char}

theorem mem_write_names {name other : String} {disk : Disk} :
    other ∈ (dir.write name disk sent).map Prod.fst ↔ other = name ∨ other ∈ dir.map Prod.fst := by
  rw [(write_names dir name disk sent).mem_iff]
  by_cases hName : name ∈ dir.map Prod.fst
  · rw [if_pos hName]
    exact ⟨.inr, fun h => h.elim (fun hSame => hSame ▸ hName) id⟩
  · rw [if_neg hName, List.mem_cons]

/-- A file of the folder after a write: another one, or the one that was extended, or a new
one. -/
theorem mem_write {name : String} {disk : Disk} {entry : String × Shard} (h : entry ∈ dir.write name disk sent) :
    entry.1 ≠ name ∧ entry ∈ dir ∨
      (∃ file, (name, file) ∈ dir ∧ entry = (name, file.extend disk sent)) ∨
      name ∉ dir.map Prod.fst ∧ entry = (name, ⟨disk.dev, disk.ino, disk.mtime, disk.ctime, sent⟩) := by
  unfold Directory.write at h
  split at h
  · obtain ⟨old, hOld, rfl⟩ := List.mem_map.mp h
    by_cases hName : old.1 = name
    · rw [if_pos hName]
      exact .inr (.inl ⟨old.2, hName ▸ hOld, rfl⟩)
    · rw [if_neg hName]
      exact .inl ⟨hName, hOld⟩
  · rename_i hNew
    rcases List.mem_cons.mp ((List.perm_orderedInsert _ _ _).mem_iff.mp h) with rfl | hOld
    · exact .inr (.inr ⟨hNew, rfl⟩)
    · exact .inl ⟨fun hSame => hNew (hSame ▸ List.mem_map_of_mem hOld), hOld⟩

theorem flatMap_update_perm {names : List String} (hNames : names.Nodup) {name : String} (hMem : name ∈ names)
    (held : String → List Fact) (f : Fact) :
    (names.flatMap (Function.update held name (held name ++ [f]))).Perm (names.flatMap held ++ [f]) := by
  induction names with
  | nil => cases hMem
  | cons first names ih =>
      rw [List.nodup_cons] at hNames
      rw [List.flatMap_cons, List.flatMap_cons]
      by_cases hFirst : first = name
      · subst hFirst
        have hRest : names.flatMap (Function.update held first (held first ++ [f])) = names.flatMap held := by
          refine List.flatMap_congr fun other hOther => ?_
          rw [Function.update_of_ne]
          rintro rfl
          exact hNames.1 hOther
        rw [hRest, Function.update_self, List.append_assoc, List.append_assoc]
        exact List.perm_append_comm.append_left _
      · rw [Function.update_of_ne hFirst, List.append_assoc]
        exact (ih hNames.2 ((List.mem_cons.mp hMem).resolve_left (Ne.symm hFirst))).append_left _

/-- The facts of the files after a write. -/
def after (held : String → List Fact) (name : String) (stored : Fact) (whole : Prop) [Decidable whole] :
    String → List Fact :=
  if whole then Function.update held name (held name ++ [stored]) else held

theorem after_other {name other : String} (h : other ≠ name) (stored : Fact) (whole : Prop) [Decidable whole] :
    after held name stored whole other = held other := by
  unfold after
  split
  · rw [Function.update_of_ne h]
  · rfl

theorem take_after {name other : String} {count : ℕ} (h : count ≤ (held other).length) (stored : Fact) (whole : Prop)
    [Decidable whole] : (after held name stored whole other).take count = (held other).take count := by
  by_cases hSame : other = name
  · subst hSame
    unfold after
    split
    · rw [Function.update_self, List.take_append_of_le_length h]
    · rfl
  · rw [after_other hSame]

theorem length_after (name other : String) (stored : Fact) (whole : Prop) [Decidable whole] :
    (held other).length ≤ (after held name stored whole other).length := by
  by_cases hSame : other = name
  · subst hSame
    unfold after
    split
    · rw [Function.update_self, List.length_append]
      exact Nat.le_add_right ..
    · exact le_rfl
  · rw [after_other hSame]

/-- What is sent of a line is all of it, or has no end. -/
theorem sent_torn {stored : Fact} (h : format.Keeps stored) {reach : Option ℕ}
    (hTorn : format.sent stored reach ≠ format.line stored) : '\n' ∉ format.sent stored reach := by
  cases reach with
  | none => exact absurd rfl hTorn
  | some reach =>
      have hShort : reach ≤ (format.text stored).length := by
        by_contra hLong
        refine hTorn (List.take_of_length_le ?_)
        rw [Format.line, List.length_append, List.length_singleton]
        omega
      have hText : format.sent stored (some reach) = (format.text stored).take reach := by
        rw [Format.sent, Format.line, List.take_append_of_le_length hShort]
      rw [hText]
      exact fun hMem => h.oneLine.newline (List.mem_of_mem_take hMem)

variable {name : String} {stored : Fact} {fresh : Bool} {reach : Option ℕ} {disk : Disk}

/-- The file that is written to holds what it held, and the fact where its line is whole. -/
theorem Format.Holds.write (h : format.Holds held w.dir) (hAbsent : ∀ name ∉ w.dir.map Prod.fst, held name = [])
    (hKeeps : format.Keeps stored) :
    format.Holds (after held name stored (format.sent stored reach = format.line stored))
      (w.dir.write name disk (format.sent stored reach)) := by
  have hLine : ∀ facts : List Fact, ∃ torn,
      format.encode facts ++ format.sent stored reach =
        format.encode (if format.sent stored reach = format.line stored then facts ++ [stored] else facts) ++ torn ∧
          '\n' ∉ torn := by
    intro facts
    by_cases hWhole : format.sent stored reach = format.line stored
    · refine ⟨[], ?_, List.not_mem_nil⟩
      rw [if_pos hWhole, hWhole, Format.encode_append]
      simp [Format.encode]
    · exact ⟨format.sent stored reach, by rw [if_neg hWhole], sent_torn hKeeps hWhole⟩
  have hHeld : after held name stored (format.sent stored reach = format.line stored) name =
      if format.sent stored reach = format.line stored then held name ++ [stored] else held name := by
    unfold after
    split <;> simp
  have hAll : (∀ f ∈ held name, format.Keeps f) → ∀ f ∈ after held name stored (format.sent stored reach = format.line stored) name,
      format.Keeps f := by
    intro hOld f hf
    rw [hHeld] at hf
    split at hf
    · rcases List.mem_append.mp hf with hf | hf
      · exact hOld f hf
      · rwa [List.mem_singleton.mp hf]
    · exact hOld f hf
  intro entry hEntry
  rcases mem_write hEntry with ⟨hOther, hOld⟩ | ⟨file, hFile, rfl⟩ | ⟨hNew, rfl⟩
  · rw [after_other hOther]
    exact h entry hOld
  · refine ⟨?_, hAll (h _ hFile).2⟩
    obtain ⟨torn, hText, hTorn⟩ := hLine (held name)
    refine ⟨torn, ?_, hTorn⟩
    have hWhole := h.wholeLines hFile
    simp only at hWhole
    simp only [Shard.extend, hWhole, hText, hHeld]
  · obtain ⟨torn, hText, hTorn⟩ := hLine []
    refine ⟨⟨torn, ?_, hTorn⟩, hAll fun f hf => ?_⟩
    · rw [hHeld, hAbsent name hNew]
      exact hText
    · rw [hAbsent name hNew] at hf
      cases hf

theorem Appending.Inv.write_log (h : w.Inv format install held) :
    (w.write format name stored fresh reach disk).log.Perm ((w.dir.write name disk (format.sent stored reach)).facts
      (after held name stored (format.sent stored reach = format.line stored))) := by
  have hNames : ∀ held : String → List Fact, held name = [] ∨ name ∈ w.dir.map Prod.fst →
      ((w.dir.write name disk (format.sent stored reach)).facts held).Perm (w.dir.facts held) := by
    intro held hName
    rw [facts_names, facts_names]
    refine ((write_names w.dir name disk _).flatMap_right held).trans ?_
    split
    · exact List.Perm.refl _
    · rename_i hNew
      rw [List.flatMap_cons, hName.resolve_right hNew, List.nil_append]
  have hOld : held name = [] ∨ name ∈ w.dir.map Prod.fst := by
    by_cases hName : name ∈ w.dir.map Prod.fst
    · exact .inr hName
    · exact .inl (h.absent name hName)
  simp only [Appending.write]
  by_cases hWhole : format.sent stored reach = format.line stored
  · rw [if_pos hWhole, after, if_pos hWhole]
    refine (h.log.append_right _).trans (List.Perm.symm ?_)
    have hWritten : ((w.dir.write name disk (format.sent stored reach)).map Prod.fst).Nodup := by
      rw [(write_names w.dir name disk _).nodup_iff]
      split
      · exact h.names
      · rename_i hNew
        exact List.nodup_cons.mpr ⟨hNew, h.names⟩
    rw [facts_names]
    refine (flatMap_update_perm hWritten (mem_write_names.mpr (.inl rfl)) held stored).trans ?_
    rw [← facts_names]
    exact (hNames held hOld).append_right _
  · rw [if_neg hWhole, after, if_neg hWhole]
    exact h.log.trans (hNames held hOld).symm

/-- The states that a file had at these times were no longer than it is. -/
theorem Appending.Inv.size_le (h : w.Inv format install held) {file : Shard} (hFile : (name, file) ∈ w.dir)
    {known : String × Stamp} (hKnown : known ∈ w.stamps) (hName : known.1 = name)
    (hTimes : (known.2.mtime, known.2.ctime) = (file.mtime, file.ctime)) : known.2.size ≤ file.text.length := by
  rcases List.mem_append.mp hKnown with hPast | hNow
  · exact h.sizes _ hFile known hPast hName hTimes
  · obtain ⟨entry, hEntry, rfl⟩ := List.mem_map.mp hNow
    obtain rfl : entry = (name, file) := List.inj_on_of_nodup_map h.names hEntry hFile hName
    exact le_rfl

/-- A file whose stamp is one it has had has what it had. -/
theorem Appending.Inv.told (h : w.Inv format install held) (hMoves : w.Moves name disk) {file : Shard}
    (hFile : (name, file) ∈ w.dir) {known : String × Stamp} (hKnown : known ∈ w.stamps) (hName : known.1 = name)
    (hStamp : known.2 = (file.extend disk sent).stamp) : sent = [] ∧ known.2 = file.stamp := by
  have hTimes : (known.2.mtime, known.2.ctime) = (disk.mtime, disk.ctime) := by rw [hStamp]; rfl
  rcases hMoves with ⟨entry, hEntry, hSame, hOwn, hWhole⟩ | hNew
  · obtain rfl : entry = (name, file) := List.inj_on_of_nodup_map h.names hEntry hFile hSame
    simp only at hOwn hWhole
    have hSize := h.size_le hFile hKnown hName (hTimes.trans hOwn.symm)
    have hGrown : known.2.size = file.text.length + sent.length := by
      rw [hStamp]
      simp only [Shard.stamp, Shard.extend, hWhole, List.length_append]
    have hNil : sent = [] := List.length_eq_zero_iff.mp (by omega)
    obtain ⟨hM, hC⟩ := Prod.mk.inj hOwn
    refine ⟨hNil, hStamp.trans ?_⟩
    rw [hNil]
    simp only [Shard.stamp, Shard.extend, hWhole, List.append_nil, hM, hC]
  · exact absurd hTimes (hNew known hKnown hName)

/-- What an index has read it has read after a write. -/
theorem Appending.Inv.indexed_write (h : w.Inv format install held) (hMoves : w.Moves name disk) {index : DirIndex}
    {count : String → ℕ} (hIndexed : w.Indexed format held index count taken) :
    (w.write format name stored fresh reach disk).Indexed format
      (after held name stored (format.sent stored reach = format.line stored)) index count taken where
  knows := {
    absent := hIndexed.knows.absent
    short := fun other => (hIndexed.knows.short other).trans (length_after ..)
    offset := by
      intro other known hLookup
      rw [take_after (hIndexed.knows.short other)]
      exact hIndexed.knows.offset other known hLookup
    stamp := by
      intro entry hEntry known hLookup hStamp
      rcases mem_write hEntry with ⟨hOther, hOld⟩ | ⟨file, hFile, rfl⟩ | ⟨hNew, rfl⟩
      · rw [after_other hOther]
        exact hIndexed.knows.stamp entry hOld known hLookup hStamp
      · obtain ⟨before, after, hSplit, -⟩ := List.lookup_eq_some_iff.mp hLookup
        have hMem : (name, known) ∈ index.stamps := by rw [hSplit]; simp
        obtain ⟨hNil, hSame⟩ := h.told hMoves hFile (hIndexed.seen _ hMem) rfl hStamp
        have hCut : format.sent stored reach ≠ format.line stored := by
          rw [hNil, Format.line]
          simp
        rw [Ledger.after, if_neg hCut]
        exact hIndexed.knows.stamp (name, file) hFile known hLookup hSame
      · obtain ⟨before, after, hSplit, -⟩ := List.lookup_eq_some_iff.mp hLookup
        have hMem : (name, known) ∈ index.stamps := by rw [hSplit]; simp
        exact absurd (hIndexed.knows.names _ hMem) hNew
    names := fun known hKnown => mem_write_names.mpr (.inr (hIndexed.knows.names known hKnown)) }
  describes := hIndexed.describes
  taken := by
    have hTake : ∀ other, (after held name stored (format.sent stored reach = format.line stored) other).take (count other) =
        (held other).take (count other) := fun other => take_after (hIndexed.knows.short other) ..
    have hFacts : ∀ dir : Directory, (dir.flatMap fun entry => (held entry.1).take (count entry.1)) =
        (dir.map Prod.fst).flatMap fun other => (held other).take (count other) := fun dir => by rw [List.flatMap_map]
    simp only [hTake]
    rw [hFacts]
    refine (hIndexed.taken.trans ?_).trans ((write_names w.dir name disk _).flatMap_right _).symm
    rw [hFacts]
    split
    · exact List.Perm.refl _
    · rename_i hNew
      have hShort := hIndexed.knows.short name
      rw [h.absent name hNew, List.length_nil, Nat.le_zero] at hShort
      rw [List.flatMap_cons, hShort, List.take_zero, List.nil_append]
  seen := fun known hKnown => List.mem_append_left _ (hIndexed.seen known hKnown)

theorem Appending.Inv.sizes_write (h : w.Inv format install held) (hMoves : w.Moves name disk) :
    ∀ entry ∈ (w.write format name stored fresh reach disk).dir, ∀ known ∈ (w.write format name stored fresh reach disk).past,
      known.1 = entry.1 → (known.2.mtime, known.2.ctime) = (entry.2.mtime, entry.2.ctime) →
        known.2.size ≤ entry.2.text.length := by
  intro entry hEntry known hKnown hName hTimes
  have hSeen : known ∈ w.stamps := hKnown
  rcases mem_write hEntry with ⟨-, hOld⟩ | ⟨file, hFile, rfl⟩ | ⟨hNew, rfl⟩
  · exact h.size_le (show (entry.1, entry.2) ∈ w.dir from hOld) hSeen hName hTimes
  · rcases hMoves with ⟨entry, hOther, hSame, hOwn, hWhole⟩ | hFresh
    · obtain rfl : entry = (name, file) := List.inj_on_of_nodup_map h.names hOther hFile hSame
      have hSize := h.size_le hFile hSeen hName (hTimes.trans hOwn.symm)
      simp only at hWhole
      simp only [Shard.extend, hWhole, List.length_append]
      exact hSize.trans (Nat.le_add_right ..)
    · exact absurd hTimes (hFresh known hSeen hName)
  · rcases hMoves with ⟨other, hOther, hSame, -⟩ | hFresh
    · exact absurd (hSame ▸ List.mem_map_of_mem hOther) hNew
    · exact absurd hTimes (hFresh known hSeen hName)

/-- A new fact is written. -/
theorem Appending.Inv.write (h : w.Inv format install held) (hMoves : w.Moves name disk) (hKeeps : format.Keeps stored)
    (hNew : ∀ f ∈ w.log, f.id ≠ stored.id) (hAdmit : admitFact stored = none)
    (hFresh : fresh = true → ∃ stamp, stored.hlc = some stamp ∧ stamp.install = install ∧
      ∀ f ∈ w.log, ∀ old, f.hlc = some old → old.install = install → old < stamp) :
    (w.write format name stored fresh reach disk).Inv format install
      (after held name stored (format.sent stored reach = format.line stored)) := by
  have hLogs : ∀ f ∈ (w.write format name stored fresh reach disk).log, f ∈ w.log ∨ f = stored := by
    intro f hf
    simp only [Appending.write] at hf
    split at hf
    · exact (List.mem_append.mp hf).imp_right List.mem_singleton.mp
    · exact .inl hf
  have hKept : ∀ f ∈ w.log, f ∈ (w.write format name stored fresh reach disk).log := by
    intro f hf
    simp only [Appending.write]
    split
    · exact List.mem_append_left _ hf
    · exact hf
  exact {
    names := by
      rw [Appending.write, (write_names w.dir name disk _).nodup_iff]
      split
      · exact h.names
      · rename_i hAbsent
        exact List.nodup_cons.mpr ⟨hAbsent, h.names⟩
    holds := h.holds.write h.absent hKeeps
    absent := by
      intro other hOther
      rw [Appending.write, mem_write_names, not_or] at hOther
      rw [after_other hOther.1]
      exact h.absent other hOther.2
    log := h.write_log
    ids := by
      simp only [Appending.write]
      split
      · rw [List.map_append, List.nodup_append]
        refine ⟨h.ids, List.nodup_singleton _, ?_⟩
        rintro id hId other hOther rfl
        obtain ⟨f, hf, rfl⟩ := List.mem_map.mp hId
        exact hNew f hf (List.mem_singleton.mp hOther)
      · exact h.ids
    admitted := by
      intro f hf
      rcases hLogs f hf with hOld | rfl
      · exact h.admitted f hOld
      · exact hAdmit
    indexed := by
      intro p
      obtain ⟨count, taken, hIndexed⟩ := h.indexed p
      exact ⟨count, taken, h.indexed_write hMoves hIndexed⟩
    sizes := h.sizes_write hMoves
    stamped := by
      intro f hf
      have hOld : f ∈ w.stamped ∨ f = stored ∧ fresh = true ∧ format.sent stored reach = format.line stored := by
        simp only [Appending.write] at hf
        split at hf
        · rename_i hBoth
          exact (List.mem_append.mp hf).imp_right fun hMem => ⟨List.mem_singleton.mp hMem, hBoth.2, hBoth.1⟩
        · exact .inl hf
      rcases hOld with hOld | ⟨rfl, hStamp, hWhole⟩
      · exact ⟨hKept f (h.stamped f hOld).1, (h.stamped f hOld).2⟩
      · obtain ⟨stamp, hHlc, hInstall, -⟩ := hFresh hStamp
        refine ⟨?_, stamp, hHlc, hInstall⟩
        simp only [Appending.write, if_pos hWhole]
        simp
    rising := by
      simp only [Appending.write]
      split
      · rename_i hBoth
        obtain ⟨stamp, hHlc, hInstall, hAbove⟩ := hFresh hBoth.2
        refine List.pairwise_append.mpr ⟨h.rising, List.pairwise_singleton .., fun f hf g hg => ?_⟩
        obtain rfl := List.mem_singleton.mp hg
        obtain ⟨hMem, old, hOld, hOwn⟩ := h.stamped f hf
        exact ⟨old, stamp, hOld, hHlc, hAbove f hMem old hOld hOwn⟩
      · exact h.rising }

theorem le_later_left (a b : Int × Int) : toLex a ≤ toLex (later a b) := by
  rw [later_eq_max]
  exact le_max_left ..

/-- No fact of the install is stamped later than the newest stamp. -/
theorem le_lastStamp {facts : List Fact} {f : Fact} (hf : f ∈ facts) {stamp : Hlc} (hStamp : f.hlc = some stamp) :
    toLex (stamp.ms, stamp.counter) ≤ toLex (lastStamp stamp.install facts) := by
  induction facts using List.reverseRecOn with
  | nil => cases hf
  | append_singleton facts last ih =>
      rw [lastStamp, List.foldl_append, ← lastStamp, List.foldl_cons, List.foldl_nil]
      rcases List.mem_append.mp hf with hf | hf
      · refine (ih hf).trans ?_
        cases last.hlc with
        | none => exact le_rfl
        | some other =>
            dsimp only
            split
            · exact le_later_left ..
            · exact le_rfl
      · obtain rfl := List.mem_singleton.mp hf
        simp only [hStamp, if_true]
        rw [later_eq_max]
        exact le_max_right ..

/-- The next stamp is behind every fact's that the index describes. -/
theorem lt_nextHlc {index : WriterIndex} (h : index.Describes known) (now : Int) {f : Fact} (hf : f ∈ known) {old : Hlc}
    (hOld : f.hlc = some old) : old < index.nextHlc now old.install := by
  have hLe := le_lastStamp hf hOld
  rw [← h.clock, Prod.Lex.toLex_le_toLex] at hLe
  rw [Hlc.lt_iff]
  simp only at hLe
  unfold WriterIndex.nextHlc
  dsimp only
  split <;> dsimp only <;> omega

/-- The folder after an append, which may be refused, find its fact, or write it. -/
theorem Appending.append_cases (h : w.Inv format install held) (p : ℕ) (now : Int) (fact : Fact) (reach : Option ℕ)
    (disk : Disk) : ∃ index count taken, w.Indexed format held index count taken ∧
      ((w.append format install p now fact reach disk).1 = w ∨
        (w.append format install p now fact reach disk).1 = { w with index := Function.update w.index p index } ∨
        ∃ name stored, admitFact fact = none ∧ factFilename fact = some name ∧ (∀ f ∈ w.log, f.id ≠ fact.id) ∧
          (format.dumps (factRow stored)).isSome ∧
          (∃ stamp, stored = { fact with hlc := some (fact.hlc.getD stamp) } ∧ stamp.install = install ∧
            ∀ f ∈ w.log, ∀ old, f.hlc = some old → old.install = install → old < stamp) ∧
          (w.append format install p now fact reach disk).1 =
            ({ w with index := Function.update w.index p index } : Appending).write format name stored fact.hlc.isNone reach
              disk) := by
  obtain ⟨facts, known, hRefresh, hFacts, hKnown⟩ := h.refresh p
  refine ⟨⟨w.dir.map (format.cursor held), facts⟩, _, _, h.refreshed hFacts hKnown, ?_⟩
  unfold Appending.append
  cases hAdmit : admitFact fact with
  | some text => exact .inl rfl
  | none =>
      simp only [hRefresh]
      cases hOutcome : DirIndex.outcome format ⟨w.dir.map (format.cursor held), facts⟩ now install fact with
      | error e => exact .inr (.inl rfl)
      | ok outcome =>
          cases outcome with
          | present old => exact .inr (.inl rfl)
          | write name stored =>
              refine .inr (.inr ⟨name, stored, trivial, ?_⟩)
              unfold DirIndex.outcome at hOutcome
              cases hOld : facts.existing.lookup fact.id with
              | some old =>
                  simp only [hOld] at hOutcome
                  split at hOutcome <;> cases hOutcome
              | none =>
                  simp only [hOld] at hOutcome
                  split at hOutcome
                  · cases hOutcome
                  · rename_i hDumps
                    split at hOutcome
                    · cases hOutcome
                    · rename_i file hFile
                      obtain ⟨rfl, rfl⟩ := Outcome.write.inj (Except.ok.inj hOutcome)
                      have hMem : ∀ f, f ∈ w.log ↔ f ∈ known := fun f => h.log.mem_iff.trans hKnown.mem_iff.symm
                      refine ⟨hFile, fun f hf hId => ?_, by simpa [Option.isSome_iff_ne_none] using hDumps,
                        ⟨_, rfl, ?_, fun f hf old hStamp hInstall => ?_⟩, rfl⟩
                      · obtain ⟨old, hLookup⟩ := hFacts.known f ((hMem f).mp hf)
                        rw [hId, hOld] at hLookup
                        cases hLookup
                      · unfold WriterIndex.nextHlc
                        dsimp only
                        split <;> rfl
                      · exact hInstall ▸ lt_nextHlc hFacts now ((hMem f).mp hf) hStamp

/-- What one step keeps. -/
theorem Appending.Inv.step {a : AppendAction} {later : Appending} (h : w.Inv format install held) (hFits : w.Fits a)
    (hStep : w.step format install a = some later) : ∃ held, later.Inv format install held := by
  cases a with
  | restart p =>
      obtain rfl := Option.some.inj hStep
      have hIndexed : w.Indexed format held DirIndex.empty (fun _ => 0) [] :=
        ⟨knows_empty format held w.dir, describes_empty, by simp, nofun⟩
      exact ⟨held, h.reindex p hIndexed⟩
  | append p now fact reach disk =>
      obtain rfl := Option.some.inj hStep
      obtain ⟨hVersion, hModern, hMoves⟩ := hFits
      obtain ⟨index, count, taken, hIndexed, hSame | hFound | ⟨name, stored, hAdmit, hFile, hNew, hDumps, hStored, hWrite⟩⟩ :=
        append_cases h p now fact reach disk
      · rw [hSame]
        exact ⟨held, h⟩
      · rw [hFound]
        exact ⟨held, h.reindex p hIndexed⟩
      · obtain ⟨stamp, rfl, hInstall, hAbove⟩ := hStored
        rw [hWrite]
        have hKeeps : format.Keeps { fact with hlc := some (fact.hlc.getD stamp) } :=
          ⟨hDumps, hVersion, renamed_factRow hModern⟩
        refine ⟨_, (h.reindex p hIndexed).write (hMoves name hFile) hKeeps hNew hAdmit fun hFresh => ?_⟩
        have hNone : fact.hlc = none := Option.isNone_iff_eq_none.mp hFresh
        exact ⟨stamp, by rw [hNone]; rfl, hInstall, hAbove⟩

end

end Brnrd.Ledger
