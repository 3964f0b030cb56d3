import Brnrd.Config.Lines
import Mathlib.Data.List.Nodup

/-! Loading the file: each value a line sets is coerced by its key, and an edit of one
line changes the value of one key. -/
namespace Brnrd.Config

open Python

/-- An edit puts the setting in the place of the line that sets the key, of a line
of the template, or behind the last line. -/
theorem setLines_split (name : String) (setting : Text) {lines : List Text} (h : (lines.filterMap setKey).Nodup) :
    ∃ front old back, lines = front ++ old ++ back ∧ setLines name setting lines = front ++ setting :: back ∧
      old.length ≤ 1 ∧ (∀ line ∈ old, setKey line = some name ∨ isTemplate name line = true) ∧
      name ∉ (front ++ back).filterMap setKey := by
  by_cases hLive : ∃ line ∈ lines, setKey line = some name
  · obtain ⟨line, hLine, hKey⟩ := hLive
    obtain ⟨front, back, rfl⟩ := List.append_of_mem hLine
    rw [List.filterMap_append, List.filterMap_cons_some hKey, List.nodup_append, List.nodup_cons] at h
    have hFront : name ∉ front.filterMap setKey := fun hMem => h.2.2 name hMem name List.mem_cons_self rfl
    have hSilent : ∀ lines : List Text, name ∉ lines.filterMap setKey →
        ∀ line ∈ lines, decide (setKey line = some name) = false := by
      intro lines hNot line hLine
      rw [decide_eq_false_iff_not]
      exact fun hSet => hNot (List.mem_filterMap.mpr ⟨line, hLine, hSet⟩)
    have hLines : (front ++ line :: back).findIdxs (fun line => decide (setKey line = some name)) = [front.length] := by
      rw [List.findIdxs_append, List.findIdxs_eq_nil_iff.mpr (hSilent front hFront), List.findIdxs_cons,
        if_pos (by simpa using hKey), List.findIdxs_eq_nil_iff.mpr (hSilent back h.2.1.1)]
      simp
    refine ⟨front, [line], back, by simp, ?_, le_rfl, ?_, ?_⟩
    · unfold setLines
      rw [hLines]
      simp
    · intro other hOther
      exact .inl (List.mem_singleton.mp hOther ▸ hKey)
    · rw [List.filterMap_append, List.mem_append, not_or]
      exact ⟨hFront, h.2.1.1⟩
  · have hNone : lines.findIdxs (fun line => decide (setKey line = some name)) = [] := by
      refine List.findIdxs_eq_nil_iff.mpr fun line hLine => decide_eq_false fun hKey => hLive ⟨line, hLine, hKey⟩
    have hAbsent : ∀ {front old back : List Text}, lines = front ++ old ++ back →
        name ∉ (front ++ back).filterMap setKey := by
      intro front old back hLines hMem
      obtain ⟨line, hLine, hKey⟩ := List.mem_filterMap.mp hMem
      refine hLive ⟨line, ?_, hKey⟩
      rw [hLines]
      rcases List.mem_append.mp hLine with hLine | hLine
      · exact List.mem_append_left _ (List.mem_append_left _ hLine)
      · exact List.mem_append_right _ hLine
    unfold setLines
    rw [hNone]
    cases hLast : (lines.findIdxs (isTemplate name)).getLast? with
    | none =>
        have hLines : lines = lines ++ [] ++ [] := by simp
        exact ⟨lines, [], [], hLines, by simp [hLast], by simp, nofun, hAbsent hLines⟩
    | some i =>
        obtain ⟨hBound, hTemplate⟩ := List.mem_findIdxs_iff_exists_getElem_pos.mp (List.mem_of_getLast? hLast)
        have hLines : lines = lines.take i ++ [lines[i]] ++ lines.drop (i + 1) := by
          rw [List.append_assoc, List.singleton_append, List.getElem_cons_drop, List.take_append_drop]
        refine ⟨lines.take i, [lines[i]], lines.drop (i + 1), hLines, ?_, le_rfl, ?_, hAbsent hLines⟩
        · simp [hLast, List.set_eq_take_append_cons_drop, hBound]
        · intro line hLine
          exact .inr (List.mem_singleton.mp hLine ▸ hTemplate)

section Loading

variable (host : Interpreter) (path : String)

/-- What an item of the file makes of the config, `none` where it is refused. -/
def coercedOf (item : String × Value) : Option (Option (String × Value)) :=
  match byName item.1 with
  | none => if item.1 ∈ RETIRED then some none else none
  | some key =>
      match coerce host path key item.2 with
      | .ok value => some (some (item.1, value))
      | .error _ => none

def loaded (found : Found) : Found :=
  found.filterMap fun item => (coercedOf host path item).join

theorem loaded_cons (item : String × Value) (found : Found) :
    loaded host path (item :: found) = (coercedOf host path item).join.toList ++ loaded host path found := by
  unfold loaded
  rw [List.filterMap_cons]
  cases (coercedOf host path item).join <;> rfl

variable {next found values : Found}

theorem loadItem_eq_ok {item : String × Value} (hNew : Entries.get item.1 values = none) :
    loadItem host path values item = .ok next ↔
      ∃ entry, coercedOf host path item = some entry ∧ next = values ++ entry.toList := by
  unfold loadItem coercedOf
  cases byName item.1 with
  | none =>
      by_cases hRetired : item.1 ∈ RETIRED
      · simp only [hRetired, if_true]
        constructor
        · intro h
          exact ⟨none, rfl, by simpa using (Except.ok.inj h).symm⟩
        · rintro ⟨entry, hEntry, rfl⟩
          simp [← Option.some.inj hEntry]
      · simp only [hRetired, if_false]
        cases host.near item.1 <;> simp
  | some key =>
      dsimp only
      cases hValue : coerce host path key item.2 with
      | error raised => simp [bind, Except.bind]
      | ok value =>
          simp only [Fallible.ok_bind, Entries.set_new hNew]
          constructor
          · intro h
            exact ⟨some (item.1, value), rfl, (Except.ok.inj h).symm⟩
          · rintro ⟨entry, hEntry, rfl⟩
            simp [← Option.some.inj hEntry, pure, Except.pure]

theorem foldlM_loadItem (hDistinct : ((values ++ found).map Prod.fst).Nodup) :
    found.foldlM (loadItem host path) values = .ok next ↔
      (∀ item ∈ found, (coercedOf host path item).isSome) ∧ next = values ++ loaded host path found := by
  induction found generalizing values with
  | nil =>
      constructor
      · intro h
        exact ⟨nofun, by simpa [loaded] using (Except.ok.inj h).symm⟩
      · rintro ⟨-, rfl⟩
        simp [loaded, pure, Except.pure]
  | cons item found ih =>
      have hNew : Entries.get item.1 values = none := by
        rw [Entries.get_eq_none]
        intro hOld
        rw [List.map_append, List.nodup_append] at hDistinct
        exact hDistinct.2.2 _ hOld _ (by simp) rfl
      have hNext : ∀ entry, coercedOf host path item = some entry →
          (((values ++ entry.toList) ++ found).map Prod.fst).Nodup := by
        intro entry hEntry
        cases entry with
        | none =>
            refine hDistinct.sublist (List.Sublist.map _ ?_)
            simp
        | some other =>
            have hSame : other.1 = item.1 := by
              unfold coercedOf at hEntry
              split at hEntry
              · split at hEntry
                · cases hEntry
                · cases hEntry
              · split at hEntry
                · rw [← Option.some.inj (Option.some.inj hEntry)]
                · cases hEntry
            simpa [hSame] using hDistinct
      rw [List.foldlM_cons, Fallible.bind_eq_ok, loaded_cons]
      constructor
      · rintro ⟨between, hFirst, hRest⟩
        obtain ⟨entry, hEntry, rfl⟩ := (loadItem_eq_ok host path hNew).mp hFirst
        obtain ⟨hAll, rfl⟩ := (ih (hNext entry hEntry)).mp hRest
        refine ⟨fun other hOther => ?_, by simp [hEntry]⟩
        rcases List.mem_cons.mp hOther with rfl | hOther
        · simp [hEntry]
        · exact hAll other hOther
      · rintro ⟨hAll, rfl⟩
        obtain ⟨entry, hEntry⟩ := Option.isSome_iff_exists.mp (hAll item List.mem_cons_self)
        refine ⟨_, (loadItem_eq_ok host path hNew).mpr ⟨entry, hEntry, rfl⟩, (ih (hNext entry hEntry)).mpr ⟨?_, ?_⟩⟩
        · exact fun other hOther => hAll other (List.mem_cons_of_mem _ hOther)
        · simp [hEntry]

theorem loadConfig_eq_ok {contents : Option Text} {config : LoomConfig} :
    loadConfig host path contents = .ok config ↔
      ∃ found, readValues host path contents = .ok found ∧ (∀ item ∈ found, (coercedOf host path item).isSome) ∧
        config = effective (loaded host path found) := by
  have hDistinct : ∀ found, readValues host path contents = .ok found → (found.map Prod.fst).Nodup := by
    intro found hFound
    cases contents with
    | none => simp [← Except.ok.inj hFound]
    | some text => exact ((readValues_eq_ok host).mp hFound).2.2
  unfold loadConfig
  rw [Fallible.bind_eq_ok]
  refine exists_congr fun found => and_congr_right fun hFound => ?_
  rw [Fallible.bind_eq_ok]
  constructor
  · rintro ⟨values, hLoop, hConfig⟩
    obtain ⟨hAll, rfl⟩ := (foldlM_loadItem host path (by simpa using hDistinct found hFound)).mp hLoop
    exact ⟨hAll, (Except.ok.inj hConfig).symm⟩
  · rintro ⟨hAll, rfl⟩
    exact ⟨_, (foldlM_loadItem host path (by simpa using hDistinct found hFound)).mpr ⟨hAll, rfl⟩, rfl⟩

variable {key : Key}

/-- A key of the config reads what its line in the file holds. -/
theorem get_loaded (hKey : key ∈ KEYS) (hAll : ∀ item ∈ found, (coercedOf host path item).isSome) :
    Entries.get key.name (loaded host path found) =
      (Entries.get key.name found).bind fun value => (coerce host path key value).toOption := by
  induction found with
  | nil => rfl
  | cons item found ih =>
      have hRest := ih fun other h => hAll other (List.mem_cons_of_mem _ h)
      have hItem := hAll item List.mem_cons_self
      rw [loaded_cons, Entries.get_append, hRest]
      by_cases hSame : item.1 = key.name
      · unfold coercedOf at hItem ⊢
        rw [hSame, byName_eq hKey] at hItem ⊢
        cases hValue : coerce host path key item.2 with
        | error raised => simp [hValue] at hItem
        | ok value => simp [hValue, Entries.get, hSame, Except.toOption]
      · have hOther : Entries.get key.name (coercedOf host path item).join.toList = none := by
          unfold coercedOf
          split
          · split <;> rfl
          · split
            · simp [Entries.get, hSame]
            · rfl
        simp [hOther, Entries.get, hSame]

/-- The config with another value for one key. -/
def LoomConfig.put (name : String) (value : Value) (config : LoomConfig) : LoomConfig :=
  config.map fun item => if item.1 = name then (name, value) else item

/-- Two configs that differ in one key. -/
theorem effective_put (hKey : key ∈ KEYS) {values' : Found} {want : Value}
    (hOther : ∀ other ∈ KEYS, other.name ≠ key.name → Entries.get other.name values' = Entries.get other.name values) :
    effective values' = (effective values).put key.name want ↔
      (Entries.get key.name values').getD key.default = want := by
  unfold effective LoomConfig.put
  rw [List.map_map, List.map_inj_left]
  constructor
  · intro h
    have hHere := h key hKey
    rw [Function.comp_apply, if_pos rfl] at hHere
    exact congrArg Prod.snd hHere
  · intro h other hMem
    rw [Function.comp_apply]
    by_cases hSame : other.name = key.name
    · have hEq : other = key := by
        have hFound := byName_eq hMem
        rw [hSame, byName_eq hKey] at hFound
        exact (Option.some.inj hFound).symm
      rw [if_pos hSame, hEq, h]
    · rw [if_neg hSame, hOther other hMem hSame]

/-- One line in the place of at most one, which is the line of the same key or sets
nothing. -/
structure Edit (front old back : List Text) (setting : Text) (name : String) (value : Value) : Prop where
  reads : Reads host (front ++ old ++ back)
  distinct : ((entries host (front ++ old ++ back)).map Prod.fst).Nodup
  entry : entryOf host setting = some (some (name, value))
  held : ∀ line ∈ old, setKey line = some name ∨ setKey line = none
  absent : name ∉ (front ++ back).filterMap setKey

namespace Edit

variable {host} {front old back : List Text} {setting : Text} {name : String} {value : Value}

theorem entries_eq (h : Edit host front old back setting name value) :
    entries host (front ++ setting :: back) = entries host front ++ (name, value) :: entries host back := by
  rw [entries_append, entries_cons, h.entry]
  rfl

theorem reads_edited (h : Edit host front old back setting name value) : Reads host (front ++ setting :: back) := by
  intro line hLine
  rcases List.mem_append.mp hLine with hLine | hLine
  · exact h.reads line (by simp [hLine])
  · rcases List.mem_cons.mp hLine with rfl | hLine
    · rw [h.entry]
      rfl
    · exact h.reads line (by simp [hLine])

theorem not_mem_kept (h : Edit host front old back setting name value) :
    name ∉ (entries host front ++ entries host back).map Prod.fst := by
  have hReads : Reads host (front ++ back) := by
    intro line hLine
    refine h.reads line ?_
    rcases List.mem_append.mp hLine with hLine | hLine <;> simp [hLine]
  rw [← entries_append, keys_entries host hReads]
  exact h.absent

theorem get_name (h : Edit host front old back setting name value) :
    Entries.get name (entries host (front ++ setting :: back)) = some value := by
  have hFront : name ∉ (entries host front).map Prod.fst := by
    have hNot := h.not_mem_kept
    rw [List.map_append, List.mem_append, not_or] at hNot
    exact hNot.1
  rw [h.entries_eq, Entries.get_append, Entries.get_eq_none.mpr hFront]
  simp [Entries.get]

theorem get_other (h : Edit host front old back setting name value) {other : String} (hOther : other ≠ name) :
    Entries.get other (entries host (front ++ setting :: back)) =
      Entries.get other (entries host (front ++ old ++ back)) := by
  have hNone : Entries.get other (entries host old) = none := by
    rw [Entries.get_eq_none, keys_entries host fun line hLine => h.reads line (by simp [hLine])]
    intro hMem
    obtain ⟨line, hLine, hSet⟩ := List.mem_filterMap.mp hMem
    rcases h.held line hLine with hHeld | hHeld
    · exact hOther (Option.mem_unique hSet hHeld)
    · rw [hHeld] at hSet
      cases hSet
  rw [h.entries_eq, entries_append, entries_append, Entries.get_append, Entries.get_append, Entries.get_append, hNone]
  simp [Entries.get, Ne.symm hOther]

theorem nodup_edited (h : Edit host front old back setting name value) :
    ((entries host (front ++ setting :: back)).map Prod.fst).Nodup := by
  have hKept : ((entries host front ++ entries host back).map Prod.fst).Nodup := by
    refine h.distinct.sublist (List.Sublist.map _ ?_)
    rw [entries_append, entries_append]
    exact List.Sublist.append_right (List.sublist_append_left _ _) _
  rw [h.entries_eq, List.map_append, List.map_cons, List.nodup_middle, List.nodup_cons, ← List.map_append]
  exact ⟨h.not_mem_kept, hKept⟩

theorem readValues (h : Edit host front old back setting name value) {text : Text}
    (hText : splitlines text = front ++ setting :: back) :
    readValues host path (some text) = .ok (entries host (front ++ setting :: back)) := by
  rw [readValues_eq_ok, hText]
  exact ⟨h.reads_edited, rfl, h.nodup_edited⟩

end Edit

theorem coercedOf_key (hKey : key ∈ KEYS) {value : Value} :
    (coercedOf host path (key.name, value)).isSome ↔ ∃ want, coerce host path key value = .ok want := by
  unfold coercedOf
  rw [byName_eq hKey]
  dsimp only
  cases coerce host path key value <;> simp

/-- An edit of one line gives its key the value that line reads as, and leaves the
others theirs. -/
theorem load_edited {front old back : List Text} {setting text : Text} {value : Value} (hKey : key ∈ KEYS)
    (hEdit : Edit host front old back setting key.name value)
    (hAll : ∀ item ∈ entries host (front ++ old ++ back), (coercedOf host path item).isSome)
    (hText : splitlines text = front ++ setting :: back) (want : Value) :
    loadConfig host path (some text) =
        .ok ((effective (loaded host path (entries host (front ++ old ++ back)))).put key.name want) ↔
      coerce host path key value = .ok want := by
  have hItem : (key.name, value) ∈ entries host (front ++ setting :: back) := Entries.mem_of_get hEdit.get_name
  have hAllNew : (∃ got, coerce host path key value = .ok got) →
      ∀ item ∈ entries host (front ++ setting :: back), (coercedOf host path item).isSome := by
    intro hOk item hMem
    have hGet := (Entries.get_eq_some hEdit.nodup_edited).mpr (show (item.1, item.2) ∈ _ from hMem)
    by_cases hName : item.1 = key.name
    · rw [hName, hEdit.get_name] at hGet
      have hSame : item = (key.name, value) := Prod.ext hName (Option.some.inj hGet).symm
      rw [hSame]
      exact (coercedOf_key host path hKey).mpr hOk
    · rw [hEdit.get_other hName] at hGet
      exact hAll item (Entries.mem_of_get hGet)
  have hConfig : (∃ got, coerce host path key value = .ok got) →
      (effective (loaded host path (entries host (front ++ setting :: back))) =
          (effective (loaded host path (entries host (front ++ old ++ back)))).put key.name want ↔
        coerce host path key value = .ok want) := by
    intro hOk
    rw [effective_put hKey, get_loaded host path hKey (hAllNew hOk), hEdit.get_name]
    · obtain ⟨got, hGot⟩ := hOk
      simp [hGot, Except.toOption]
    · intro other hMem hName
      rw [get_loaded host path hMem (hAllNew hOk), get_loaded host path hMem hAll, hEdit.get_other hName]
  rw [loadConfig_eq_ok, hEdit.readValues path hText]
  constructor
  · rintro ⟨found, hFound, hFoundAll, hEq⟩
    obtain rfl := Except.ok.inj hFound
    exact (hConfig ((coercedOf_key host path hKey).mp (hFoundAll _ hItem))).mp hEq.symm
  · intro hOk
    exact ⟨_, rfl, hAllNew ⟨want, hOk⟩, ((hConfig ⟨want, hOk⟩).mpr hOk).symm⟩

end Loading

end Brnrd.Config
