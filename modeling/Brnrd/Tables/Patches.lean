import Brnrd.Lists.Entries
import Mathlib.Data.Option.Basic

/-! Patches of dictionaries: entries to set and keys to drop. The one between two
dictionaries turns the first into the second, and two of them merge into one. -/
namespace Patches

open Entries

universe u

variable {κ α : Type u} [DecidableEq κ]

/-- The entries that a patch sets stand under distinct keys. -/
structure Patch (κ α : Type u) where
  set : List (κ × α)
  drop : List κ
  distinct : (set.map Prod.fst).Nodup
deriving DecidableEq

/-- What a key reads after the patch. -/
def Patch.read (patch : Patch κ α) (rows : κ → Option α) (key : κ) : Option α :=
  if key ∈ patch.drop then none else (get key patch.set).or (rows key)

/-- The patch made to a dictionary: it sets, then drops. -/
def Patch.apply (patch : Patch κ α) (held : List (κ × α)) : List (κ × α) :=
  patch.drop.foldl (fun held key => held.filter fun item => item.1 ≠ key)
    (patch.set.foldl (fun held item => Entries.set item.1 item.2 held) held)

theorem get_foldl_set {items held : List (κ × α)} (hDistinct : (items.map Prod.fst).Nodup) (key : κ) :
    get key (items.foldl (fun held item => Entries.set item.1 item.2 held) held) = (get key items).or (get key held) := by
  cases hKey : get key items with
  | none => rw [get_foldl_set_of_not_mem (get_eq_none.mp hKey), Option.none_or]
  | some value => exact get_foldl_set_of_mem hDistinct (mem_of_get hKey)

theorem get_foldl_drop (keys : List κ) (held : List (κ × α)) (key : κ) :
    get key (keys.foldl (fun held key => held.filter fun item => item.1 ≠ key) held) =
      if key ∈ keys then none else get key held := by
  induction keys generalizing held with
  | nil => simp
  | cons first keys ih =>
      have hFirst := get_filter (fun other => decide (other ≠ first)) key held
      rw [List.foldl_cons, ih, hFirst]
      by_cases hKey : key = first <;> simp [hKey]

theorem Patch.get_apply (patch : Patch κ α) (held : List (κ × α)) (key : κ) :
    get key (patch.apply held) = patch.read (fun key => get key held) key := by
  rw [Patch.apply, get_foldl_drop, get_foldl_set patch.distinct, Patch.read]

/-- A patch made twice is made once. -/
theorem Patch.read_read (patch : Patch κ α) (rows : κ → Option α) : patch.read (patch.read rows) = patch.read rows := by
  funext key
  by_cases hDrop : key ∈ patch.drop
  · simp [Patch.read, hDrop]
  · cases hSet : get key patch.set <;> simp [Patch.read, hDrop, hSet]

/-- The patch that sets and drops nothing. -/
def Patch.empty : Patch κ α := ⟨[], [], List.nodup_nil⟩

@[simp] theorem Patch.read_empty (rows : κ → Option α) : Patch.empty.read rows = rows := by
  funext key
  simp [Patch.read, Patch.empty, Entries.get]

/-- One more entry to set, which undoes a drop. -/
def Patch.put (patch : Patch κ α) (item : κ × α) : Patch κ α :=
  ⟨Entries.set item.1 item.2 patch.set, patch.drop.filter (· ≠ item.1), nodup_set patch.distinct⟩

/-- One more key to drop, which undoes a set. -/
def Patch.remove (patch : Patch κ α) (key : κ) : Patch κ α :=
  ⟨patch.set.filter fun item => item.1 ≠ key, if key ∈ patch.drop then patch.drop else patch.drop ++ [key],
    patch.distinct.sublist (List.filter_sublist.map Prod.fst)⟩

/-- A patch and the next as one. -/
def Patch.merge (first next : Patch κ α) : Patch κ α :=
  next.drop.foldl Patch.remove (next.set.foldl Patch.put first)

theorem Patch.read_put (patch : Patch κ α) (item : κ × α) (rows : κ → Option α) (key : κ) :
    (patch.put item).read rows key = if item.1 = key then some item.2 else patch.read rows key := by
  by_cases hKey : item.1 = key
  · simp [Patch.read, Patch.put, hKey]
  · simp [Patch.read, Patch.put, hKey, Ne.symm hKey]

theorem Patch.read_remove (patch : Patch κ α) (gone : κ) (rows : κ → Option α) (key : κ) :
    (patch.remove gone).read rows key = if key = gone then none else patch.read rows key := by
  have hDrop : key ∈ (patch.remove gone).drop ↔ key = gone ∨ key ∈ patch.drop := by
    rw [Patch.remove]
    split
    · rename_i hGone
      exact ⟨.inr, fun h => h.elim (fun hSame => hSame ▸ hGone) id⟩
    · simp [or_comm]
  have hSet := get_filter (fun other => decide (other ≠ gone)) key patch.set
  by_cases hKey : key = gone
  · rw [Patch.read, if_pos (hDrop.mpr (.inl hKey)), if_pos hKey]
  · rw [if_pos (decide_eq_true hKey)] at hSet
    have hSame : key ∈ (patch.remove gone).drop ↔ key ∈ patch.drop := hDrop.trans (or_iff_right hKey)
    rw [Patch.read, Patch.read, if_neg hKey, show get key (patch.remove gone).set = _ from hSet]
    exact if_congr hSame rfl rfl

theorem Patch.read_foldl_put {items : List (κ × α)} (hDistinct : (items.map Prod.fst).Nodup) (patch : Patch κ α)
    (rows : κ → Option α) (key : κ) :
    (items.foldl Patch.put patch).read rows key = (get key items).or (patch.read rows key) := by
  induction items generalizing patch with
  | nil => rfl
  | cons item items ih =>
      rw [List.map_cons, List.nodup_cons] at hDistinct
      rw [List.foldl_cons, ih hDistinct.2, Patch.read_put, Entries.get]
      by_cases hKey : item.1 = key
      · have hNone : get key items = none := get_eq_none.mpr (hKey ▸ hDistinct.1)
        rw [if_pos hKey, if_pos hKey, hNone, Option.none_or, Option.some_or]
      · rw [if_neg hKey, if_neg hKey]

theorem Patch.read_foldl_remove (keys : List κ) (patch : Patch κ α) (rows : κ → Option α) (key : κ) :
    (keys.foldl Patch.remove patch).read rows key = if key ∈ keys then none else patch.read rows key := by
  induction keys generalizing patch with
  | nil => simp
  | cons gone keys ih =>
      rw [List.foldl_cons, ih, Patch.read_remove]
      by_cases hKey : key = gone <;> simp [hKey]

/-- A merge does what the two patches do one after the other. -/
theorem Patch.read_merge (first next : Patch κ α) (rows : κ → Option α) :
    (first.merge next).read rows = next.read (first.read rows) := by
  funext key
  rw [Patch.merge, Patch.read_foldl_remove, Patch.read_foldl_put next.distinct]
  rfl

section Between

variable [DecidableEq α]

/-- The patch from one dictionary to another: the entries that moved and the keys that
left. -/
def between (was now : List (κ × α)) (hDistinct : (now.map Prod.fst).Nodup) : Patch κ α :=
  ⟨now.filter fun item => get item.1 was ≠ some item.2, (was.map Prod.fst).filter fun key => (get key now).isNone,
    hDistinct.sublist (List.filter_sublist.map Prod.fst)⟩

theorem read_between {was now : List (κ × α)} (hDistinct : (now.map Prod.fst).Nodup) :
    (between was now hDistinct).read (fun key => get key was) = fun key => get key now := by
  funext key
  rw [Patch.read]
  cases hNow : get key now with
  | none =>
      split
      · rfl
      · rename_i hKept
        have hSet : get key (between was now hDistinct).set = none := by
          rw [get_eq_none] at hNow ⊢
          exact fun hMem => hNow ((List.filter_sublist.map Prod.fst).subset hMem)
        have hWas : get key was = none := by
          rw [get_eq_none]
          exact fun hMem => hKept (List.mem_filter.mpr ⟨hMem, by rw [hNow]; rfl⟩)
        rw [hSet, Option.none_or]
        exact hWas
  | some value =>
      rw [if_neg fun hMem => by simp [between, hNow] at hMem]
      by_cases hWas : get key was = some value
      · rw [hWas]
        cases hSet : get key (between was now hDistinct).set with
        | none => rfl
        | some other =>
            have hMem := List.mem_filter.mp (mem_of_get hSet)
            have hSame := (get_eq_some hDistinct).mpr hMem.1
            rw [hNow] at hSame
            exact hSame.symm
      · have hMem : (key, value) ∈ (between was now hDistinct).set :=
          List.mem_filter.mpr ⟨mem_of_get hNow, by simpa using hWas⟩
        rw [(get_eq_some (between was now hDistinct).distinct).mpr hMem, Option.some_or]

end Between

end Patches

/-! The three-way merge of a value that may be missing: a side that leaves it as it was
gives way to the other. -/
namespace ThreeWay

universe u

variable {α : Type u} [DecidableEq α]

/-- What the two sides make of a value, `none` where both changed it and differ. -/
def merged (before left right : α) : Option α :=
  if left = right then some left
  else if left = before then some right
  else if right = before then some left
  else none

theorem merged_eq_none {before left right : α} :
    merged before left right = none ↔ left ≠ before ∧ right ≠ before ∧ left ≠ right := by
  unfold merged
  by_cases hSame : left = right
  · simp [hSame]
  · by_cases hLeft : left = before
    · rw [if_neg hSame, if_pos hLeft]
      simp [hLeft]
    · by_cases hRight : right = before <;> simp [hSame, hLeft, hRight]

/-- The right side is taken where it alone has changed the value. -/
theorem merged_of_some {before left right : α} (h : merged before left right ≠ none) :
    merged before left right = some (if left = before ∧ right ≠ before then right else left) := by
  unfold merged at h ⊢
  by_cases hSame : left = right
  · simp [hSame]
  · by_cases hLeft : left = before
    · have hRight : right ≠ before := fun hRight => hSame (hLeft.trans hRight.symm)
      rw [if_neg hSame, if_pos hLeft, if_pos ⟨hLeft, hRight⟩]
    · by_cases hRight : right = before
      · rw [if_neg hSame, if_neg hLeft, if_pos hRight, if_neg fun hBoth => hLeft hBoth.1]
      · exact absurd (merged_eq_none.mpr ⟨hLeft, hRight, hSame⟩) h

end ThreeWay
