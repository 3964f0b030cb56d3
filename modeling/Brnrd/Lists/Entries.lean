import Brnrd.Monad.Fallible

/-! A dictionary as the list of its items, and a loop that fills one and refuses
a key it already has. -/
namespace Entries

universe u v w

variable {κ α ε : Type u} {ι : Type v} [DecidableEq κ]

/-- `entries.get(key)`. -/
def get (key : κ) : List (κ × α) → Option α
  | [] => none
  | item :: rest => if item.1 = key then some item.2 else get key rest

/-- `entries[key] = value`. -/
def set (key : κ) (value : α) : List (κ × α) → List (κ × α)
  | [] => [(key, value)]
  | item :: rest => if item.1 = key then (key, value) :: rest else item :: set key value rest

/-- `entries.setdefault(key, value)`. -/
def setDefault (key : κ) (value : α) (entries : List (κ × α)) : List (κ × α) :=
  if (get key entries).isSome then entries else set key value entries

@[simp] theorem get_set (key other : κ) (value : α) (entries : List (κ × α)) :
    get other (set key value entries) = if key = other then some value else get other entries := by
  induction entries with
  | nil => simp [get, set]
  | cons item rest ih =>
      by_cases hKey : item.1 = key
      · by_cases hOther : key = other <;> simp [get, set, hKey, hOther]
      · by_cases hItem : item.1 = other
        · have hOther : key ≠ other := fun h => hKey (hItem.trans h.symm)
          simp [get, set, hItem, hOther, Ne.symm hOther]
        · simp [get, set, hKey, hItem, ih]

variable {key : κ}

theorem get_eq_none {entries : List (κ × α)} : get key entries = none ↔ key ∉ entries.map Prod.fst := by
  induction entries with
  | nil => simp [get]
  | cons item rest ih =>
      by_cases hKey : item.1 = key
      · simp [get, hKey]
      · simp [get, hKey, ih, Ne.symm hKey]

variable {value : α}

/-- A new key goes to the end. -/
theorem set_new {entries : List (κ × α)} (h : get key entries = none) :
    set key value entries = entries ++ [(key, value)] := by
  induction entries with
  | nil => rfl
  | cons item rest ih =>
      by_cases hKey : item.1 = key
      · simp [get, hKey] at h
      · simp only [get, if_neg hKey] at h
        simp [set, hKey, ih h]

theorem mem_of_get {entries : List (κ × α)} (h : get key entries = some value) : (key, value) ∈ entries := by
  induction entries with
  | nil => cases h
  | cons item rest ih =>
      by_cases hKey : item.1 = key
      · simp only [get, if_pos hKey, Option.some.injEq] at h
        exact List.mem_cons.mpr (.inl (Prod.ext hKey.symm h.symm))
      · simp only [get, if_neg hKey] at h
        exact List.mem_cons_of_mem _ (ih h)

/-- Where no key stands twice, a dictionary has exactly its items. -/
theorem get_eq_some {entries : List (κ × α)} (hDistinct : (entries.map Prod.fst).Nodup) :
    get key entries = some value ↔ (key, value) ∈ entries := by
  refine ⟨mem_of_get, fun h => ?_⟩
  induction entries with
  | nil => cases h
  | cons item rest ih =>
      rw [List.map_cons, List.nodup_cons] at hDistinct
      rcases List.mem_cons.mp h with rfl | h
      · simp [get]
      · have hKey : item.1 ≠ key := fun hSame => hDistinct.1 (hSame ▸ List.mem_map.mpr ⟨_, h, rfl⟩)
        simp only [get, if_neg hKey]
        exact ih hDistinct.2 h

theorem get_append (key : κ) (a b : List (κ × α)) : get key (a ++ b) = (get key a).or (get key b) := by
  induction a with
  | nil => rfl
  | cons item a ih =>
      by_cases hKey : item.1 = key
      · simp [get, hKey]
      · simp [get, hKey, ih]

theorem get_map {β : Type u} (f : κ → α → β) (key : κ) (entries : List (κ × α)) :
    get key (entries.map fun item => (item.1, f item.1 item.2)) = (get key entries).map (f key) := by
  induction entries with
  | nil => rfl
  | cons item rest ih =>
      by_cases hKey : item.1 = key
      · simp [get, hKey]
      · simp [get, hKey, ih]

theorem get_filter_of_pos {p : κ × α → Bool} {entries : List (κ × α)} (h : ∀ item : κ × α, item.1 = key → p item = true) :
    get key (entries.filter p) = get key entries := by
  induction entries with
  | nil => rfl
  | cons item rest ih =>
      by_cases hKey : item.1 = key
      · rw [List.filter_cons, if_pos (h item hKey), get, get, if_pos hKey, if_pos hKey]
      · by_cases hp : p item = true
        · rw [List.filter_cons, if_pos hp, get, get, if_neg hKey, if_neg hKey, ih]
        · rw [List.filter_cons, if_neg hp, get, if_neg hKey, ih]

theorem get_filter_of_neg {p : κ × α → Bool} {entries : List (κ × α)} (h : ∀ item : κ × α, item.1 = key → p item = false) :
    get key (entries.filter p) = none := by
  rw [get_eq_none]
  intro hMem
  obtain ⟨item, hItem, hKey⟩ := List.mem_map.mp hMem
  have hPos := (List.mem_filter.mp hItem).2
  rw [h item hKey] at hPos
  cases hPos

/-- A dictionary that keeps some of the keys. -/
theorem get_filter (p : κ → Bool) (key : κ) (entries : List (κ × α)) :
    get key (entries.filter fun item => p item.1) = if p key then get key entries else none := by
  by_cases hKey : p key = true
  · rw [if_pos hKey]
    exact get_filter_of_pos fun item h => by rw [h, hKey]
  · rw [if_neg hKey]
    exact get_filter_of_neg fun item h => by simpa [h] using hKey

/-- What a loop has set is an item it was given, or was there before. -/
theorem mem_set {item : κ × α} {entries : List (κ × α)} (h : item ∈ set key value entries) :
    item = (key, value) ∨ item ∈ entries := by
  induction entries with
  | nil => exact .inl (List.mem_singleton.mp h)
  | cons first rest ih =>
      rw [set] at h
      split at h
      · exact (List.mem_cons.mp h).imp_right (List.mem_cons_of_mem _)
      · rcases List.mem_cons.mp h with rfl | h
        · exact .inr (by simp)
        · exact (ih h).imp_right (List.mem_cons_of_mem _)

/-- What is set takes the place of the first value of its key alone. -/
theorem mem_set_of_mem (key : κ) (value : α) {item : κ × α} {entries : List (κ × α)} (h : item ∈ entries) :
    item ∈ set key value entries ∨ item.1 = key ∧ get key entries = some item.2 := by
  induction entries with
  | nil => cases h
  | cons first rest ih =>
      rw [set, get]
      by_cases hSame : first.1 = key
      · rw [if_pos hSame, if_pos hSame]
        rcases List.mem_cons.mp h with rfl | hRest
        · exact .inr ⟨hSame, rfl⟩
        · exact .inl (List.mem_cons_of_mem _ hRest)
      · rw [if_neg hSame, if_neg hSame]
        rcases List.mem_cons.mp h with rfl | hRest
        · exact .inl List.mem_cons_self
        · exact (ih hRest).imp_left (List.mem_cons_of_mem _)

theorem mem_foldl_set {items : List ι} {name : ι → κ} {value : ι → α} {entries : List (κ × α)} {item : κ × α}
    (h : item ∈ items.foldl (fun entries i => set (name i) (value i) entries) entries) :
    item ∈ entries ∨ ∃ i ∈ items, item = (name i, value i) := by
  induction items generalizing entries with
  | nil => exact .inl h
  | cons i items ih =>
      rcases ih h with h | ⟨j, hj, rfl⟩
      · rcases mem_set h with rfl | h
        · exact .inr ⟨i, List.mem_cons_self .., rfl⟩
        · exact .inl h
      · exact .inr ⟨j, List.mem_cons_of_mem _ hj, rfl⟩

theorem nodup_set {entries : List (κ × α)} (hDistinct : (entries.map Prod.fst).Nodup) :
    ((set key value entries).map Prod.fst).Nodup := by
  induction entries with
  | nil => simp [set]
  | cons item rest ih =>
      rw [List.map_cons, List.nodup_cons] at hDistinct
      rw [set]
      split
      · rename_i hKey
        rw [List.map_cons, List.nodup_cons]
        exact ⟨hKey ▸ hDistinct.1, hDistinct.2⟩
      · rename_i hKey
        rw [List.map_cons, List.nodup_cons]
        refine ⟨fun hMem => ?_, ih hDistinct.2⟩
        obtain ⟨other, hOther, hSame⟩ := List.mem_map.mp hMem
        rcases mem_set hOther with rfl | hOther
        · exact hKey hSame.symm
        · exact hDistinct.1 (hSame ▸ List.mem_map.mpr ⟨other, hOther, rfl⟩)

/-- Keys that a loop does not set stay as they were. -/
theorem get_foldl_set_of_not_mem {items entries : List (κ × α)} (h : key ∉ items.map Prod.fst) :
    get key (items.foldl (fun entries item => set item.1 item.2 entries) entries) = get key entries := by
  induction items generalizing entries with
  | nil => rfl
  | cons item items ih =>
      rw [List.map_cons, List.mem_cons, not_or] at h
      rw [List.foldl_cons, ih h.2, get_set, if_neg (Ne.symm h.1)]

/-- What a loop sets under distinct keys is found there, whatever was there before. -/
theorem get_foldl_set_of_mem {item : κ × α} {items entries : List (κ × α)} (hDistinct : (items.map Prod.fst).Nodup)
    (h : item ∈ items) :
    get item.1 (items.foldl (fun entries item => set item.1 item.2 entries) entries) = some item.2 := by
  induction items generalizing entries with
  | nil => cases h
  | cons first items ih =>
      rw [List.map_cons, List.nodup_cons] at hDistinct
      rw [List.foldl_cons]
      rcases List.mem_cons.mp h with rfl | h
      · rw [get_foldl_set_of_not_mem hDistinct.1, get_set, if_pos rfl]
      · exact ih hDistinct.2 h

/-- A loop that fills a dictionary leaves the last value of each key. -/
theorem get_foldl_set {items : List ι} {name : ι → κ} {value : ι → α} {entries : List (κ × α)} (key : κ) :
    get key (items.foldl (fun entries i => set (name i) (value i) entries) entries) =
      (((items.filter fun i => name i = key).getLast?).map value).or (get key entries) := by
  induction items generalizing entries with
  | nil => rfl
  | cons i items ih =>
      rw [List.foldl_cons, ih, get_set]
      by_cases hKey : name i = key
      · rw [if_pos hKey, List.filter_cons_of_pos (by simpa using hKey), List.getLast?_cons]
        cases (items.filter fun i => name i = key).getLast? <;> rfl
      · rw [if_neg hKey, List.filter_cons_of_neg (by simpa using hKey)]

/-- Of the items of one key the first is kept. -/
theorem get_foldl_setDefault {items : List ι} {name : ι → κ} {value : ι → α} {entries : List (κ × α)} (key : κ) :
    get key (items.foldl (fun entries i => setDefault (name i) (value i) entries) entries) =
      (get key entries).or ((items.find? fun i => name i = key).map value) := by
  induction items generalizing entries with
  | nil => simp
  | cons i items ih =>
      rw [List.foldl_cons, ih, List.find?_cons, setDefault]
      by_cases hKey : name i = key
      · subst hKey
        cases hOld : get (name i) entries <;> simp [hOld]
      · split <;> simp [hKey]

/-- Each value stands under its own name, once. -/
structure Keyed (name : α → κ) (entries : List (κ × α)) : Prop where
  names : ∀ item ∈ entries, item.1 = name item.2
  nodup : (entries.map Prod.fst).Nodup

section Keyed

variable {name : α → κ} {entries : List (κ × α)}

omit [DecidableEq κ] in
theorem Keyed.nil : Keyed name ([] : List (κ × α)) :=
  ⟨nofun, List.nodup_nil⟩

theorem Keyed.set (h : Keyed name entries) (value : α) : Keyed name (set (name value) value entries) := by
  refine ⟨fun item hItem => ?_, nodup_set h.nodup⟩
  rcases mem_set hItem with rfl | hItem
  · rfl
  · exact h.names item hItem

theorem Keyed.setDefault (h : Keyed name entries) (value : α) : Keyed name (setDefault (name value) value entries) := by
  unfold Entries.setDefault
  split
  · exact h
  · exact h.set value

theorem Keyed.foldl_set (h : Keyed name entries) (values : List α) :
    Keyed name (values.foldl (fun entries value => Entries.set (name value) value entries) entries) :=
  List.foldlRecOn values _ h fun _ hEntries value _ => hEntries.set value

theorem Keyed.foldl_setDefault (h : Keyed name entries) (values : List α) :
    Keyed name (values.foldl (fun entries value => Entries.setDefault (name value) value entries) entries) :=
  List.foldlRecOn values _ h fun _ hEntries value _ => hEntries.setDefault value

/-- The values are those found under their own names. -/
theorem Keyed.mem_values (h : Keyed name entries) {value : α} :
    value ∈ entries.map Prod.snd ↔ get (name value) entries = some value := by
  rw [get_eq_some h.nodup, List.mem_map]
  constructor
  · rintro ⟨item, hItem, rfl⟩
    exact h.names item hItem ▸ hItem
  · exact fun hMem => ⟨_, hMem, rfl⟩

variable (name entries) in
/-- Of the values of one name the last one that is set stays. -/
theorem get_foldl_set_name (values : List α) (key : κ) :
    get key (values.foldl (fun entries value => set (name value) value entries) entries) =
      (values.filter fun value => name value = key).getLast?.or (get key entries) := by
  have hLoop := @get_foldl_set κ α α _ values name id entries key
  rwa [Option.map_id] at hLoop

variable (name entries) in
/-- Of the values of one name the first one stays, unless the name was there. -/
theorem get_foldl_setDefault_name (values : List α) (key : κ) :
    get key (values.foldl (fun entries value => setDefault (name value) value entries) entries) =
      (get key entries).or (values.find? fun value => name value = key) := by
  have hLoop := @get_foldl_setDefault κ α α _ values name id entries key
  rwa [Option.map_id] at hLoop

end Keyed

/-- Items under distinct keys, set one after the other, stand in their order. -/
theorem foldl_set {entries items : List (κ × α)} (hDistinct : ((entries ++ items).map Prod.fst).Nodup) :
    items.foldl (fun entries item => set item.1 item.2 entries) entries = entries ++ items := by
  induction items generalizing entries with
  | nil => simp
  | cons item items ih =>
      have hSplit : entries ++ item :: items = (entries ++ [item]) ++ items := by simp
      rw [hSplit] at hDistinct ⊢
      have hNew : get item.1 entries = none := by
        rw [get_eq_none]
        intro hOld
        rw [List.map_append, List.map_append, List.nodup_append] at hDistinct
        exact (List.nodup_append.mp hDistinct.1).2.2 _ hOld _ (by simp) rfl
      rw [List.foldl_cons, set_new hNew]
      exact ih hDistinct

/-- What one turn of such a loop does: it reads an element, which may fail, and
puts what it has read under a new key. -/
def Fills (step : List (κ × α) → ι → Except ε (List (κ × α))) (read : ι → Option (Option (κ × α))) : Prop :=
  ∀ entries i next, step entries i = .ok next ↔
    read i = some none ∧ next = entries ∨
      ∃ key value, read i = some (some (key, value)) ∧ get key entries = none ∧ next = set key value entries

/-- The loop ends well where each element is read and no key comes twice. Its
result is what was read, in order. -/
theorem foldlM_eq_ok {step : List (κ × α) → ι → Except ε (List (κ × α))} {read : ι → Option (Option (κ × α))}
    (hStep : Fills step read) (l : List ι) {entries next : List (κ × α)} (hDistinct : (entries.map Prod.fst).Nodup) :
    l.foldlM step entries = .ok next ↔
      (∀ i ∈ l, (read i).isSome) ∧ next = entries ++ l.filterMap (fun i => (read i).join) ∧
        (next.map Prod.fst).Nodup := by
  induction l generalizing entries with
  | nil =>
      constructor
      · intro h
        obtain rfl : entries = next := Except.ok.inj h
        simp [hDistinct]
      · rintro ⟨-, rfl, -⟩
        simp [pure, Except.pure]
  | cons i l ih =>
      rw [List.foldlM_cons, Fallible.bind_eq_ok]
      constructor
      · rintro ⟨between, hFirst, hRest⟩
        rcases (hStep _ _ _).mp hFirst with ⟨hRead, rfl⟩ | ⟨key, value, hRead, hNew, rfl⟩
        · obtain ⟨hAll, hNext, hKeys⟩ := (ih hDistinct).mp hRest
          exact ⟨by simpa [hRead] using hAll, by simpa [hRead] using hNext, hKeys⟩
        · rw [set_new hNew] at hRest
          have hMore : ((entries ++ [(key, value)]).map Prod.fst).Nodup := by
            rw [List.map_append, List.nodup_append]
            refine ⟨hDistinct, by simp, fun a ha b hb hSame => get_eq_none.mp hNew ?_⟩
            obtain rfl : b = key := by simpa using hb
            exact hSame ▸ ha
          obtain ⟨hAll, hNext, hKeys⟩ := (ih hMore).mp hRest
          exact ⟨by simpa [hRead] using hAll, by simpa [hRead] using hNext, hKeys⟩
      · rintro ⟨hAll, hNext, hKeys⟩
        obtain ⟨entry, hRead⟩ := Option.isSome_iff_exists.mp (hAll i List.mem_cons_self)
        have hLater : ∀ j ∈ l, (read j).isSome := fun j hj => hAll j (List.mem_cons_of_mem _ hj)
        cases entry with
        | none =>
            refine ⟨entries, (hStep _ _ _).mpr (.inl ⟨hRead, rfl⟩), (ih hDistinct).mpr ⟨hLater, ?_, hKeys⟩⟩
            simpa [hRead] using hNext
        | some item =>
            have hSplit : next = (entries ++ [item]) ++ l.filterMap (fun i => (read i).join) := by
              simpa [hRead] using hNext
            have hMore : ((entries ++ [item]).map Prod.fst).Nodup := by
              rw [hSplit, List.map_append] at hKeys
              exact hKeys.sublist (List.sublist_append_left _ _)
            have hNew : get item.1 entries = none := by
              rw [get_eq_none]
              intro hOld
              rw [List.map_append, List.nodup_append] at hMore
              exact hMore.2.2 _ hOld _ (by simp) rfl
            refine ⟨entries ++ [item], (hStep _ _ _).mpr (.inr ⟨item.1, item.2, hRead, hNew, ?_⟩),
              (ih hMore).mpr ⟨hLater, hSplit, hKeys⟩⟩
            exact (set_new hNew).symm

end Entries
