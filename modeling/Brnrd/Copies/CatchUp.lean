import Brnrd.Copies.Letter
import Brnrd.Events.Faithful
import Mathlib.Data.Finset.Card

/-! When a copy has all that the server has: what the polls of an event keep true of the
one letter that was made of it. -/
namespace Entries

variable {κ α : Type} [DecidableEq κ]

theorem map_get_zip {keys : List κ} {values : List α} (hDistinct : keys.Nodup) (hLength : keys.length = values.length) :
    keys.map (fun key => get key (keys.zip values)) = values.map some := by
  have hKeys : ((keys.zip values).map Prod.fst).Nodup := by
    rwa [List.map_fst_zip hLength.le]
  have hItems : (keys.zip values).map (fun item => get item.1 (keys.zip values)) =
      (keys.zip values).map fun item => some item.2 :=
    List.map_congr_left fun item hItem => (get_eq_some hKeys).mpr hItem
  have hFirst := List.map_fst_zip hLength.le
  have hSecond := List.map_snd_zip hLength.ge
  conv_lhs => rw [← hFirst, List.map_map]
  conv_rhs => rw [← hSecond, List.map_map]
  rw [hFirst]
  exact hItems

end Entries

namespace Brnrd.Copies

open Python
open Events (Text padded attachmentNames)

@[simp] theorem Served.length_names (event : Served) : event.names.length = event.pointers.length := by
  simp [Served.names]

/-- A letter has the event's body, and each of its attachments once, or the note that it
is missing. -/
def Letter.Carries (letter : Letter) (event : Served) : Prop :=
  event.body <+: letter.text ∧ ∀ i < event.names.length, letter.indices.count i = 1 ∨
    ∃ name ∈ event.names[i]?, (name, i) ∈ letter.failed ∧ failureNote name <:+: letter.text

instance (letter : Letter) (event : Served) : Decidable (letter.Carries event) :=
  inferInstanceAs (Decidable (_ ∧ _))

theorem prefix_annotateFailures (body : Text) (failed : List Text) : body <+: annotateFailures body failed := by
  unfold annotateFailures
  split
  · exact List.prefix_rfl
  · by_cases hBody : body = []
    · rw [hBody]
      exact List.nil_prefix
    · simp only [if_neg hBody]
      exact List.prefix_append ..

theorem infix_joinLines {line : Text} {lines : List Text} (h : line ∈ lines) : line <:+: joinLines lines := by
  obtain ⟨before, after, rfl⟩ := List.append_of_mem h
  induction before with
  | nil =>
      cases after with
      | nil => exact ⟨[], [], by simp⟩
      | cons next after => exact ⟨[], '\n' :: joinLines (next :: after), by simp [joinLines_cons_cons]⟩
  | cons first before ih =>
      have hRest := ih (by simp)
      obtain ⟨next, more, hNext⟩ := List.exists_cons_of_ne_nil (l := before ++ line :: after) (by simp)
      rw [List.cons_append, hNext, joinLines_cons_cons, ← hNext]
      exact hRest.trans ⟨first ++ ['\n'], [], by simp⟩

theorem note_annotateFailures (body : Text) {failed : List Text} {name : Text} (h : name ∈ failed) :
    failureNote name <:+: annotateFailures body failed := by
  have hNote := infix_joinLines (List.mem_map_of_mem (f := failureNote) h)
  rw [annotateFailures, if_neg (List.ne_nil_of_mem h)]
  by_cases hBody : body = []
  · simpa only [if_pos hBody] using hNote
  · simp only [if_neg hBody]
    exact hNote.trans ⟨body ++ ['\n', '\n'], [], by simp⟩

/-- The number in front of a name. -/
def prefixIndex (name : Text) : ℕ :=
  Nat.ofDigitChars 10 (name.takeWhile (· ≠ '-')) 0

theorem prefixIndex_padded (n : ℕ) (rest : Text) : prefixIndex (padded 2 n ++ '-' :: rest) = n := by
  have hDigits : ∀ c ∈ padded 2 n, (decide (c ≠ '-')) = true := by
    intro c hc
    simp only [padded, List.leftpad, List.mem_append, List.mem_replicate] at hc
    rcases hc with ⟨-, rfl⟩ | hc
    · decide
    · have hDigit := Nat.isDigit_of_mem_toDigits (by decide) (by decide) hc
      rw [decide_eq_true_iff]
      rintro rfl
      exact absurd hDigit (by decide)
  rw [prefixIndex, List.takeWhile_append_of_pos hDigits, List.takeWhile_cons_of_neg (by simp), List.append_nil,
    padded, List.leftpad, Nat.ofDigitChars_append, Nat.ofDigitChars_replicate_zero, Nat.mul_zero,
    Nat.ofDigitChars_ten_toDigits]

/-- Names with rising numbers in front are distinct. -/
theorem nodup_prefixed {β : Type} (items : List β) (start : ℕ) (rest : β → Text) :
    (items.zipIdx.map fun item => padded 2 (start + item.2) ++ '-' :: rest item.1).Nodup := by
  refine List.Nodup.of_map prefixIndex ?_
  have hIndices : (items.zipIdx.map fun item => padded 2 (start + item.2) ++ '-' :: rest item.1).map prefixIndex =
      (List.range items.length).map (start + ·) := by
    rw [List.map_map, List.range_eq_range', ← List.zipIdx_map_snd, List.map_map]
    exact List.map_congr_left fun item _ => prefixIndex_padded _ _
  rw [hIndices]
  exact (List.nodup_range).map fun _ _ h => Nat.add_left_cancel h

theorem nodup_attachmentNames (files : List Text) : (attachmentNames files).Nodup := by
  unfold attachmentNames
  split
  · simpa using nodup_prefixed files 0 id
  · rename_i hFew
    match files, hFew with
    | [], _ => exact List.nodup_nil
    | [file], _ => exact List.nodup_singleton file
    | _ :: _ :: _, hFew => exact absurd (by simp) hFew

theorem length_attachmentNames (files : List Text) : (attachmentNames files).length = files.length := by
  unfold attachmentNames
  split <;> simp

/-- The files under the letter's names are these attachments. -/
def Letter.Has (letter : Letter) (held : List ℕ) : Prop :=
  letter.names.map (fun name => Entries.get name letter.files) = held.map some

theorem Letter.Has.indices {letter : Letter} {held : List ℕ} (h : letter.Has held)
    (hRead : readNames letter.names = letter.names) : letter.indices = held := by
  have hSame : letter.indices = (letter.names.map fun name => Entries.get name letter.files).filterMap id := by
    rw [Letter.indices, hRead, List.filterMap_map]
    rfl
  rw [hSame, h, List.filterMap_map]
  simp

theorem Letter.Has.length {letter : Letter} {held : List ℕ} (h : letter.Has held) : letter.names.length = held.length := by
  have hLength := congrArg List.length h
  simpa using hLength

namespace Daemon

/-- Once the event was taken in as the server has it now, there is one letter of it, and
that has it all. -/
def CaughtUp (w : Daemon) : Prop :=
  w.seen = some w.server → ∃ letter, w.letters = [letter] ∧ letter.Carries w.server

/-- The files that a letter gets when it is made. -/
def firstNames (event : Served) (fetched : List ℕ) : List Text :=
  attachmentNames ((ingestEventAttachments event.names fetched).1.map Prod.fst)

/-- The names of the new files are none of the letter's. -/
def Fresh (event : Served) (letter : Letter) (fetched : List ℕ) : Prop :=
  ∀ file ∈ tail event letter fetched, file.1 ∉ letter.names

/-- Each attachment that the letter names no file for comes, or is noted. -/
def Comes (event : Served) (letter : Letter) (fetched : List ℕ) : Prop :=
  ∀ i < event.names.length, (readNames letter.names).length ≤ i →
    i ∈ fetched ∨ ∃ name ∈ event.names[i]?, (name, i) ∈ letter.failed

/-- The letter's field, with the new names, is read as it is written. -/
def Reads (event : Served) (letter : Letter) (fetched : List ℕ) : Prop :=
  let names := letter.names ++ (tail event letter fetched).map Prod.fst
  readNames names = names

/-- What a served event may add to a letter: it has the letter's body; and where it has
more attachments than the letter names files, these are the first of them, each of the
others comes or is noted, and the names can be kept and read. -/
def Grows (event : Served) (letter : Letter) (fetched : List ℕ) : Prop :=
  letter.body = event.body ∧
    ((readNames letter.names).length < event.names.length →
      letter.indices = List.range (readNames letter.names).length ∧ Comes event letter fetched ∧
        Fresh event letter fetched ∧ Reads event letter fetched)

/-- What the daemon's ingestion rests on. -/
def Fits (w : Daemon) : Action → Prop
  | .merge .. => True
  | .poll fetched =>
      match w.letters.getLast? with
      | none => readNames (firstNames w.server fetched) = firstNames w.server fetched
      | some letter => Grows w.server letter fetched
  | .crash fetched _ => ∀ letter ∈ w.letters.getLast?, Fresh w.server letter fetched

instance (event : Served) (letter : Letter) (fetched : List ℕ) : Decidable (Fresh event letter fetched) :=
  inferInstanceAs (Decidable (∀ file ∈ _, _))

instance (event : Served) (letter : Letter) (fetched : List ℕ) : Decidable (Comes event letter fetched) :=
  inferInstanceAs (Decidable (∀ i < event.names.length, _))

instance (event : Served) (letter : Letter) (fetched : List ℕ) : Decidable (Reads event letter fetched) :=
  inferInstanceAs (Decidable (_ = _))

instance (event : Served) (letter : Letter) (fetched : List ℕ) : Decidable (Grows event letter fetched) :=
  inferInstanceAs (Decidable (_ ∧ (_ → _)))

instance (w : Daemon) : DecidablePred w.Fits
  | .merge .. => isTrue trivial
  | .poll fetched => by
      unfold Fits
      dsimp only
      split <;> infer_instance
  | .crash _ _ => inferInstanceAs (Decidable (∀ letter ∈ _, _))

/-- What is true of the one letter there is: it was made of the event as it was `seen`, its
field is read as it was written, and each attachment of that event is in the directory or
noted. -/
structure Sound (w : Daemon) (letter : Letter) (held : List ℕ) : Prop where
  read : readNames letter.names = letter.names
  has : letter.Has held
  nodup : held.Nodup
  bound : ∀ i ∈ held, i < w.server.names.length
  seen : ∃ event, w.seen = some event ∧ letter.body = event.body ∧
    ∀ i < event.names.length, i ∈ held ∨ ∃ name ∈ event.names[i]?, (name, i) ∈ letter.failed

def Inv (w : Daemon) : Prop :=
  w.letters = [] ∧ w.seen = none ∨ ∃ letter held, w.letters = [letter] ∧ w.Sound letter held

theorem Inv.caughtUp {w : Daemon} (h : w.Inv) : w.CaughtUp := by
  intro hSeen
  rcases h with ⟨-, hNone⟩ | ⟨letter, held, hLetters, hSound⟩
  · rw [hNone] at hSeen
    cases hSeen
  · obtain ⟨event, hEvent, hBody, hAll⟩ := hSound.seen
    obtain rfl : w.server = event := Option.mem_unique hSeen hEvent
    refine ⟨letter, hLetters, hBody ▸ prefix_annotateFailures _ _, fun i hi => ?_⟩
    rcases hAll i hi with hHeld | ⟨name, hName, hFailed⟩
    · rw [hSound.has.indices hSound.read]
      exact .inl (List.count_eq_one_of_mem hSound.nodup hHeld)
    · exact .inr ⟨name, hName, hFailed, note_annotateFailures _ (List.mem_map.mpr ⟨_, hFailed, rfl⟩)⟩

/-- The attachments that are looked for are the event's. -/
theorem mem_zipIdx_names {event : Served} {i : ℕ} (h : i < event.names.length) : (event.names[i], i) ∈ event.names.zipIdx :=
  List.mem_zipIdx_iff_getElem?.mpr (List.getElem?_eq_getElem h)

theorem indices_zipIdx (event : Served) : event.names.zipIdx.map Prod.snd = List.range event.names.length := by
  rw [List.zipIdx_map_snd, List.range_eq_range']

theorem came_sublist (event : Served) (k : ℕ) (p : Text × ℕ → Bool) :
    (((event.names.zipIdx.drop k).filter p).map Prod.snd).Sublist ((List.range event.names.length).drop k) := by
  rw [← indices_zipIdx, ← List.map_drop]
  exact List.filter_sublist.map _

/-- A new letter has what came, and notes the rest. -/
theorem createLetter_has (event : Served) (fetched : List ℕ) :
    ∃ held, (createLetter event fetched).Has held ∧ held.Nodup ∧ (∀ i ∈ held, i < event.names.length) ∧
      ∀ i < event.names.length, i ∈ held ∨ ∃ name ∈ event.names[i]?, (name, i) ∈ (createLetter event fetched).failed := by
  let came := event.names.zipIdx.filter fun item => decide (item.2 ∈ fetched)
  have hSublist : (came.map Prod.snd).Sublist (List.range event.names.length) := came_sublist event 0 _
  have hIndices : (ingestEventAttachments event.names fetched).1.map Prod.snd = came.map Prod.snd := by
    simp only [ingestEventAttachments, List.map_map]
    rfl
  refine ⟨came.map Prod.snd, ?_, hSublist.nodup List.nodup_range, fun i hi => ?_, fun i hi => ?_⟩
  · have hLength : (attachmentNames ((ingestEventAttachments event.names fetched).1.map Prod.fst)).length =
        ((ingestEventAttachments event.names fetched).1.map Prod.snd).length := by
      simp [length_attachmentNames]
    have hFiles := Entries.map_get_zip (nodup_attachmentNames _) hLength
    rw [← hIndices]
    exact hFiles
  · exact List.mem_range.mp (hSublist.subset hi)
  · have hItem := mem_zipIdx_names hi
    by_cases hCame : i ∈ fetched
    · exact .inl (List.mem_map.mpr ⟨_, List.mem_filter.mpr ⟨hItem, by simpa using hCame⟩, rfl⟩)
    · refine .inr ⟨event.names[i], List.getElem?_eq_getElem hi, ?_⟩
      exact List.mem_filter.mpr ⟨hItem, by simpa using hCame⟩

theorem nodup_tail (event : Served) (letter : Letter) (fetched : List ℕ) :
    ((tail event letter fetched).map Prod.fst).Nodup := by
  rw [tail, grown, List.map_map]
  exact nodup_prefixed _ _ fun item : Text × ℕ => padded 2 item.2 ++ '-' :: item.1

theorem indices_tail (event : Served) (letter : Letter) (fetched : List ℕ) :
    (tail event letter fetched).map Prod.snd =
      (((event.names.zipIdx.drop (readNames letter.names).length).filter fun item => decide (item.2 ∈ fetched)).map
        Prod.snd) := by
  rw [tail, grown, List.map_map]
  conv_rhs => rw [← List.zipIdx_map_fst 0 (List.filter _ _), List.map_map]
  rfl

variable {held fetched : List ℕ} {letter : Letter}

/-- Files under other names take nothing from a letter. -/
theorem move_has {files : List (Text × ℕ)} (h : letter.Has held) (hFresh : ∀ file ∈ files, file.1 ∉ letter.names) :
    (Letter.move letter files).Has held := by
  have hSame : letter.names.map (fun name => Entries.get name (Letter.move letter files).files) =
      letter.names.map fun name => Entries.get name letter.files := by
    refine List.map_congr_left fun name hName => Entries.get_foldl_set_of_not_mem fun hMem => ?_
    obtain ⟨file, hFile, rfl⟩ := List.mem_map.mp hMem
    exact hFresh file hFile hName
  exact hSame.trans h

/-- A letter that the new files are added to has them too. -/
theorem reconcile_has {event : Served} (h : letter.Has held) (hRead : readNames letter.names = letter.names)
    (hFresh : Fresh event letter fetched) :
    (reconcile event letter fetched).names = letter.names ++ (tail event letter fetched).map Prod.fst ∧
      (reconcile event letter fetched).Has (held ++ (tail event letter fetched).map Prod.snd) := by
  unfold reconcile
  by_cases hNone : tail event letter fetched = []
  · simpa only [hNone, if_true, List.map_nil, List.append_nil, true_and] using h
  · simp only [if_neg hNone, hRead, true_and]
    have hOld := move_has h hFresh
    have hNew : ((tail event letter fetched).map Prod.fst).map
        (fun name => Entries.get name (Letter.move letter (tail event letter fetched)).files) =
          ((tail event letter fetched).map Prod.snd).map some := by
      rw [List.map_map, List.map_map]
      exact List.map_congr_left fun file hFile => Entries.get_foldl_set_of_mem (nodup_tail ..) hFile
    unfold Letter.Has
    rw [List.map_append, List.map_append, hNew]
    exact congrArg (· ++ _) hOld

theorem reconcile_body (event : Served) (letter : Letter) (fetched : List ℕ) :
    (reconcile event letter fetched).body = letter.body ∧ (reconcile event letter fetched).failed = letter.failed := by
  simp only [reconcile]
  split <;> exact ⟨rfl, rfl⟩

/-- Distinct attachments, as many as there are, are all there are. -/
theorem mem_of_full {n : ℕ} (hNodup : held.Nodup) (hBound : ∀ i ∈ held, i < n) (hFull : n ≤ held.length) :
    ∀ i < n, i ∈ held := by
  have hAll : held.toFinset = Finset.range n := by
    refine Finset.eq_of_subset_of_card_le (fun i hi => ?_) ?_
    · exact Finset.mem_range.mpr (hBound i (List.mem_toFinset.mp hi))
    · rwa [Finset.card_range, List.toFinset_card_of_nodup hNodup]
  intro i hi
  exact List.mem_toFinset.mp (hAll ▸ Finset.mem_range.mpr hi)

/-- The event is served again to a daemon that has it. -/
theorem Sound.grows {w : Daemon} (h : w.Sound letter held) (hGrows : Grows w.server letter fetched) :
    ∃ held, Sound { w with letters := [reconcile w.server letter fetched], seen := some w.server }
      (reconcile w.server letter fetched) held := by
  obtain ⟨hSameBody, hSameFailed⟩ := reconcile_body w.server letter fetched
  have hCount : (readNames letter.names).length = held.length := by rw [h.read, h.has.length]
  by_cases hMore : (readNames letter.names).length < w.server.names.length
  · obtain ⟨hFirst, hComes, hFresh, hReads⟩ := hGrows.2 hMore
    obtain ⟨hNames, hHas⟩ := reconcile_has h.has h.read hFresh
    have hHeld : held = List.range held.length := by rwa [h.has.indices h.read, hCount] at hFirst
    have hSublist : (held ++ (tail w.server letter fetched).map Prod.snd).Sublist (List.range w.server.names.length) := by
      rw [indices_tail, hCount]
      have hTake : held = (List.range w.server.names.length).take held.length := by
        rw [List.take_range, Nat.min_eq_left (hCount ▸ hMore.le)]
        exact hHeld
      have hRest := came_sublist w.server held.length fun item => decide (item.2 ∈ fetched)
      have hWhole := List.Sublist.append (List.Sublist.refl held) hRest
      conv_rhs at hWhole => rw [hTake]
      rwa [List.length_take, List.length_range, Nat.min_eq_left (hCount ▸ hMore.le), List.take_append_drop] at hWhole
    refine ⟨_, ?_, hHas, hSublist.nodup List.nodup_range, fun i hi => List.mem_range.mp (hSublist.subset hi), _, rfl, ?_, ?_⟩
    · rw [hNames]
      exact hReads
    · rw [hSameBody, hGrows.1]
    · intro i hi
      by_cases hOld : i < held.length
      · exact .inl (List.mem_append_left _ (hHeld ▸ List.mem_range.mpr hOld))
      · rcases hComes i hi (by omega) with hCame | hNoted
        · refine .inl (List.mem_append_right _ ?_)
          have hItem : (w.server.names[i], i) ∈ w.server.names.zipIdx.drop held.length := by
            refine List.mem_drop_iff_getElem.mpr ⟨i - held.length, by rw [List.length_zipIdx]; omega, ?_⟩
            simp only [List.getElem_zipIdx, Nat.zero_add]
            congr 1 <;> congr 1 <;> omega
          rw [indices_tail, hCount]
          exact List.mem_map.mpr ⟨_, List.mem_filter.mpr ⟨hItem, by simpa using hCame⟩, rfl⟩
        · exact .inr (hSameFailed ▸ hNoted)
  · have hNone : tail w.server letter fetched = [] := by
      rw [tail, grown, List.drop_eq_nil_of_le (by simpa using (by simpa using hMore))]
      rfl
    have hSame : reconcile w.server letter fetched = letter := by rw [reconcile, if_pos hNone]
    rw [hSame]
    refine ⟨held, h.read, h.has, h.nodup, h.bound, _, rfl, hGrows.1, fun i hi => .inl ?_⟩
    exact mem_of_full h.nodup h.bound (by omega) i hi

/-- What one step keeps. -/
theorem Inv.step {w later : Daemon} {a : Action} (h : w.Inv) (hFits : w.Fits a) (hStep : w.step a = some later) :
    later.Inv := by
  cases a with
  | merge caption more =>
      obtain rfl := Option.some.inj hStep
      rcases h with hNone | ⟨letter, held, hLetters, hSound⟩
      · exact .inl hNone
      · refine .inr ⟨letter, held, hLetters, hSound.read, hSound.has, hSound.nodup, fun i hi => ?_, hSound.seen⟩
        have hBound := hSound.bound i hi
        simp only [Served.length_names, Served.merge, List.length_append] at hBound ⊢
        omega
  | poll fetched =>
      obtain rfl := Option.some.inj hStep
      rcases h with ⟨hNone, -⟩ | ⟨letter, held, hLetters, hSound⟩
      · simp only [Fits, hNone, List.getLast?_nil] at hFits
        obtain ⟨held, hHas, hNodup, hBound, hAll⟩ := createLetter_has w.server fetched
        refine .inr ⟨createLetter w.server fetched, held, by simp [ingest, hNone], hFits, hHas, hNodup, hBound, _, rfl, rfl, hAll⟩
      · simp only [Fits, hLetters, List.getLast?_singleton] at hFits
        obtain ⟨more, hMore⟩ := hSound.grows hFits
        exact .inr ⟨_, more, by simp [ingest, hLetters], hMore.read, hMore.has, hMore.nodup, hMore.bound, hMore.seen⟩
  | crash fetched moved =>
      rcases h with ⟨hNone, hSeen⟩ | ⟨letter, held, hLetters, hSound⟩
      · simp only [Daemon.step, hNone, List.getLast?_nil] at hStep
        obtain rfl := Option.some.inj hStep
        exact .inl ⟨hNone, hSeen⟩
      · simp only [Fits, hLetters, List.getLast?_singleton, Option.mem_some_iff, forall_eq'] at hFits
        simp only [Daemon.step, hLetters, List.getLast?_singleton, List.dropLast_singleton, List.nil_append] at hStep
        obtain rfl := Option.some.inj hStep
        have hFresh : ∀ file ∈ (tail w.server letter fetched).take moved, file.1 ∉ letter.names :=
          fun file hFile => hFits file (List.mem_of_mem_take hFile)
        have hHas := move_has hSound.has hFresh
        exact .inr ⟨_, held, rfl, hSound.read, hHas, hSound.nodup, hSound.bound, hSound.seen⟩

end Daemon

namespace Loom

/-- Once the event was taken in as the server has it now, there is one letter of it, and
that has it all. -/
def CaughtUp (w : Loom) : Prop :=
  w.seen = some w.server → w.quarantined = false ∧ ∃ note ∈ w.letter, note.body = w.server.body ∧
    ∀ i < w.server.names.length, w.files.count i = 1 ∨ i ∈ note.missing

/-- What the relay's ingestion rests on: an event that it has is served as it was taken in,
and no version of one fails three times. -/
def Fits (w : Loom) : Action → Prop
  | .poll _ => w.known → w.seen = some w.server
  | .fault _ => w.known = false → w.failures w.server < 2
  | _ => True

instance (w : Loom) : DecidablePred w.Fits
  | .merge .. => isTrue trivial
  | .poll _ => inferInstanceAs (Decidable (_ → _))
  | .fault _ => inferInstanceAs (Decidable (_ → _))
  | .crash .. => isTrue trivial

structure Inv (w : Loom) : Prop where
  nodup : w.files.Nodup
  bound : ∀ i ∈ w.files, i < w.server.names.length
  sound : w.quarantined = false
  unseen : w.known = false → w.seen = none
  seen : w.known → ∃ event, w.seen = some event ∧ ∃ note ∈ w.letter, note.body = event.body ∧
    ∀ i < event.names.length, i ∈ w.files ∨ i ∈ note.missing

theorem Inv.caughtUp {w : Loom} (h : w.Inv) : w.CaughtUp := by
  intro hSeen
  have hKnown : w.known = true := by
    by_contra hNot
    rw [h.unseen (by simpa using hNot)] at hSeen
    cases hSeen
  obtain ⟨event, hEvent, note, hNote, hBody, hAll⟩ := h.seen hKnown
  obtain rfl : w.server = event := Option.mem_unique hSeen hEvent
  exact ⟨h.sound, note, hNote, hBody, fun i hi => (hAll i hi).imp_left (List.count_eq_one_of_mem h.nodup)⟩

variable {w later : Loom}

theorem Inv.download (h : w.Inv) (fetched : List ℕ) :
    (w.download fetched).Nodup ∧ ∀ i ∈ w.download fetched, i < w.server.names.length := by
  constructor
  · refine List.nodup_append.mpr ⟨h.nodup, List.nodup_range.filter _, ?_⟩
    rintro i hOld j hNew rfl
    exact (of_decide_eq_true (List.mem_filter.mp hNew).2).1 hOld
  · intro i hi
    rcases List.mem_append.mp hi with hOld | hNew
    · exact h.bound i hOld
    · exact List.mem_range.mp (List.mem_filter.mp hNew).1

/-- What came is there, and the rest is said to be missing. -/
theorem download_or_missing (w : Loom) (fetched : List ℕ) {i : ℕ} (hi : i < w.server.names.length) :
    i ∈ w.download fetched ∨ i ∈ w.missing fetched := by
  by_cases hCame : i ∈ w.download fetched
  · exact .inl hCame
  · exact .inr (List.mem_filter.mpr ⟨List.mem_range.mpr hi, by simpa using hCame⟩)

/-- An attempt that is not the third to fail leaves what came, and no letter. -/
theorem Inv.fail (h : w.Inv) (hKnown : w.known = false) (hFew : w.failures w.server < 2) (fetched : List ℕ) :
    (w.fail (w.download fetched)).Inv := by
  obtain ⟨hNodup, hBound⟩ := h.download fetched
  rw [Loom.fail, if_pos (by omega)]
  exact ⟨hNodup, hBound, h.sound, h.unseen, fun hNow => absurd hNow (by simp [hKnown])⟩

theorem Inv.pull (h : w.Inv) (fetched : List ℕ) (hServed : w.known → w.seen = some w.server) : (w.pull fetched).Inv := by
  unfold Loom.pull
  split
  · rename_i hKnown
    have hSame : { w with seen := some w.server } = w := by rw [← hServed hKnown]
    rwa [hSame]
  · rename_i hNot
    have hUnknown : w.known = false := by simpa using hNot
    split
    · rename_i hRefuses
      exact h.fail hUnknown (of_decide_eq_true hRefuses).2 fetched
    · obtain ⟨hNodup, hBound⟩ := h.download fetched
      exact ⟨hNodup, hBound, h.sound, fun hNow => absurd hNow (by simp),
        fun _ => ⟨_, rfl, _, rfl, rfl, fun i hi => download_or_missing w fetched hi⟩⟩

/-- What one step keeps. -/
theorem Inv.step {a : Action} (h : w.Inv) (hFits : w.Fits a) (hStep : w.step a = some later) : later.Inv := by
  cases a with
  | merge caption more =>
      obtain rfl := Option.some.inj hStep
      refine ⟨h.nodup, fun i hi => ?_, h.sound, h.unseen, h.seen⟩
      have hBound := h.bound i hi
      simp only [Served.length_names, Served.merge, List.length_append] at hBound ⊢
      omega
  | poll fetched =>
      obtain rfl := Option.some.inj hStep
      exact h.pull fetched hFits
  | fault fetched =>
      obtain rfl := Option.some.inj hStep
      by_cases hKnown : w.known = true
      · rwa [if_pos hKnown]
      · rw [if_neg hKnown]
        have hUnknown : w.known = false := by simpa using hKnown
        exact h.fail hUnknown (hFits hUnknown) fetched
  | crash fetched written =>
      by_cases hKnown : w.known = true
      · rw [Loom.step, if_pos hKnown] at hStep
        obtain rfl := Option.some.inj hStep
        exact ⟨h.nodup, h.bound, h.sound, h.unseen, h.seen⟩
      · rw [Loom.step, if_neg hKnown] at hStep
        obtain rfl := Option.some.inj hStep
        obtain ⟨hNodup, hBound⟩ := h.download fetched
        exact ⟨hNodup, hBound, h.sound, h.unseen, fun hNow => absurd hNow hKnown⟩

end Loom

/-- A copy of an event catches up with the server's, in every run of the daemon's gate and
of the loom's relay in which what is served again fits what was made of it. -/
theorem copy_catches_up (start : Served) :
    (∀ w, Machine.Reach Daemon.step Daemon.Fits { server := start } w → w.CaughtUp) ∧
      ∀ w, Machine.Reach Loom.step Loom.Fits { server := start } w → w.CaughtUp := by
  constructor
  · intro w hReach
    have hInv : w.Inv := hReach.invariant Daemon.Inv (.inl ⟨rfl, rfl⟩) fun _ _ _ h hFits hStep => h.step hFits hStep
    exact hInv.caughtUp
  · intro w hReach
    have hStart : Loom.Inv { server := start } :=
      ⟨List.nodup_nil, by simp, rfl, fun _ => rfl, fun h => by cases h⟩
    have hInv : w.Inv := hReach.invariant Loom.Inv hStart fun _ _ _ h hFits hStep => h.step hFits hStep
    exact hInv.caughtUp

/-- Two more photos of an album come, and a restart in between leaves a file behind; the
loom's first attempt fails. -/
theorem album_is_copied :
    (∃ w : Daemon, w.seen = some w.server ∧ w.letters.map Letter.indices = [[0, 1, 2]] ∧ w.CaughtUp) ∧
      ∃ w : Loom, w.seen = some w.server ∧ w.files = [0] ∧ w.CaughtUp := by
  have hDaemon : (Machine.follow Daemon.step Daemon.Fits { server := ⟨"Boats".toList, ["a.jpg".toList]⟩ }
      [.poll [0], .merge [] ["b.jpg".toList, "c.jpg".toList], .crash [1, 2] 1, .poll [1, 2]]).any
        (fun w => w.seen = some w.server ∧ w.letters.map Letter.indices = [[0, 1, 2]]) = true := by decide +kernel
  have hLoom : (Machine.follow Loom.step Loom.Fits { server := ⟨"Boats".toList, ["a.jpg".toList]⟩ }
      [.poll [], .poll [0]]).any (fun w => w.seen = some w.server ∧ w.files = [0]) = true := by decide +kernel
  obtain ⟨daemon, hReached, hEnd⟩ := (Option.any_eq_true ..).mp hDaemon
  obtain ⟨hSeen, hAll⟩ := of_decide_eq_true hEnd
  obtain ⟨loom, hLoomReached, hLoomEnd⟩ := (Option.any_eq_true ..).mp hLoom
  obtain ⟨hLoomSeen, hFiles⟩ := of_decide_eq_true hLoomEnd
  exact ⟨⟨daemon, hSeen, hAll, (copy_catches_up _).1 _ (.follow .refl hReached)⟩,
    loom, hLoomSeen, hFiles, (copy_catches_up _).2 _ (.follow .refl hLoomReached)⟩

/-- The second photo brings the caption, and both have taken the first one in. -/
theorem caption_is_lost :
    (∃ w, Machine.Reach Daemon.step (fun _ _ => True) { server := ⟨[], ["a.jpg".toList]⟩ } w ∧ ¬w.CaughtUp) ∧
      ∃ w, Machine.Reach Loom.step (fun _ _ => True) { server := ⟨[], ["a.jpg".toList]⟩ } w ∧ ¬w.CaughtUp := by
  have hDaemon : (Machine.follow Daemon.step (fun _ _ => True) { server := ⟨[], ["a.jpg".toList]⟩ }
      [.poll [0], .merge "Boats".toList ["b.jpg".toList], .poll [1]]).any
        (fun w => w.seen = some w.server ∧ ∀ letter ∈ w.letters, ¬w.server.body <+: letter.text) = true := by
    decide +kernel
  have hLoom : (Machine.follow Loom.step (fun _ _ => True) { server := ⟨[], ["a.jpg".toList]⟩ }
      [.poll [0], .merge "Boats".toList ["b.jpg".toList], .poll [1]]).any
        (fun w => w.seen = some w.server ∧ ∀ note ∈ w.letter, note.body ≠ w.server.body) = true := by decide +kernel
  obtain ⟨daemon, hReached, hEnd⟩ := (Option.any_eq_true ..).mp hDaemon
  obtain ⟨hSeen, hNot⟩ := of_decide_eq_true hEnd
  obtain ⟨loom, hLoomReached, hLoomEnd⟩ := (Option.any_eq_true ..).mp hLoom
  obtain ⟨hLoomSeen, hLoomNot⟩ := of_decide_eq_true hLoomEnd
  refine ⟨⟨daemon, .follow .refl hReached, fun hCaught => ?_⟩, loom, .follow .refl hLoomReached, fun hCaught => ?_⟩
  · obtain ⟨letter, hLetters, hBody, -⟩ := hCaught hSeen
    exact hNot letter (by simp [hLetters]) hBody
  · obtain ⟨-, note, hNote, hBody, -⟩ := hCaught hLoomSeen
    exact hLoomNot note hNote hBody

end Brnrd.Copies
