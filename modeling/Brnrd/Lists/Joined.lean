import Mathlib.Data.List.Infix

/-! Lists joined with a separator between them. -/
namespace Joined

universe u

/-- What a join holds is in the separator or in a part. -/
theorem mem_intercalate {α : Type u} {sep : List α} {parts : List (List α)} {c : α} (h : c ∈ sep.intercalate parts) :
    c ∈ sep ∨ ∃ part ∈ parts, c ∈ part := by
  induction parts with
  | nil => simp [List.intercalate] at h
  | cons part parts ih =>
      cases parts with
      | nil => exact .inr ⟨part, by simp, by simpa [List.intercalate] using h⟩
      | cons next parts =>
          rw [List.intercalate_cons_cons, List.mem_append, List.mem_append] at h
          rcases h with (h | h) | h
          · exact .inr ⟨part, by simp, h⟩
          · exact .inl h
          · exact (ih h).imp_right fun ⟨other, hOther, hc⟩ => ⟨other, List.mem_cons_of_mem _ hOther, hc⟩

theorem intercalate_append {α : Type u} {sep : List α} {front back : List (List α)} (hFront : front ≠ []) (hBack : back ≠ []) :
    sep.intercalate (front ++ back) = sep.intercalate front ++ sep ++ sep.intercalate back := by
  induction front with
  | nil => exact absurd rfl hFront
  | cons first front ih =>
      cases front with
      | nil => rw [List.singleton_append, List.intercalate_cons_of_ne_nil hBack, List.intercalate_singleton]
      | cons second rest =>
          rw [List.cons_append, List.intercalate_cons_of_ne_nil (by simp), ih (by simp),
            List.intercalate_cons_cons]
          simp only [List.append_assoc]

theorem infix_intercalate {α : Type u} {sep : List α} {parts : List (List α)} {part : List α} (h : part ∈ parts) :
    part <:+: sep.intercalate parts := by
  obtain ⟨front, back, rfl⟩ := List.append_of_mem h
  have hBack : part <:+: sep.intercalate (part :: back) := by
    cases back with
    | nil => exact ⟨[], [], by simp⟩
    | cons next back => exact ⟨[], _, by rw [List.intercalate_cons_cons, List.nil_append, List.append_assoc]⟩
  cases front with
  | nil => exact hBack
  | cons first front =>
      rw [intercalate_append (List.cons_ne_nil first front) (List.cons_ne_nil part back)]
      exact hBack.trans ⟨_, [], List.append_nil _⟩

/-- The parts of a text that is split do not hold what it is split at. -/
theorem mem_splitOn {α : Type u} [DecidableEq α] {sep : α} {text : List α} :
    ∀ part ∈ text.splitOn sep, sep ∉ part ∧ part ⊆ text := by
  induction text with
  | nil =>
      intro part hPart
      rw [List.splitOn_nil, List.mem_singleton] at hPart
      rw [hPart]
      exact ⟨List.not_mem_nil, List.nil_subset _⟩
  | cons c text ih =>
      intro part hPart
      rw [List.splitOn_cons_eq_if_modifyHead] at hPart
      split_ifs at hPart with hBreak
      · rcases List.mem_cons.mp hPart with rfl | hPart
        · exact ⟨List.not_mem_nil, List.nil_subset _⟩
        · exact ⟨(ih part hPart).1, fun _ hc => List.mem_cons_of_mem c ((ih part hPart).2 hc)⟩
      · cases hSplit : text.splitOn sep with
        | nil => exact absurd hSplit (List.splitOn_ne_nil sep text)
        | cons first others =>
            rw [hSplit, List.modifyHead_cons] at hPart
            rcases List.mem_cons.mp hPart with rfl | hPart
            · obtain ⟨hNot, hSubset⟩ := ih first (by simp [hSplit])
              have hOther : sep ≠ c := by
                rintro rfl
                simp at hBreak
              exact ⟨by simp [hOther, hNot], List.cons_subset_cons c hSubset⟩
            · obtain ⟨hNot, hSubset⟩ := ih part (by simp [hSplit, hPart])
              exact ⟨hNot, fun _ hc => List.mem_cons_of_mem c (hSubset hc)⟩

end Joined

/-! A list in which each element is written out as several: where the writing of the first
ones ends, and which element a place in it belongs to. -/
namespace Expanded

universe u v

variable {α : Type u} {β : Type v} {f : α → List β} {xs : List α}

/-- How long the first elements are when written out. -/
def offset (f : α → List β) (xs : List α) (k : ℕ) : ℕ :=
  ((xs.take k).flatMap f).length

@[simp] theorem offset_zero : offset f xs 0 = 0 := rfl

theorem offset_cons (x : α) (k : ℕ) : offset f (x :: xs) (k + 1) = (f x).length + offset f xs k := by
  simp [offset]

variable (f xs) in
theorem offset_mono {a b : ℕ} (h : a ≤ b) : offset f xs a ≤ offset f xs b := by
  have hPrefix := (List.take_prefix_take_left h : xs.take a <+: xs.take b)
  obtain ⟨rest, hRest⟩ := hPrefix
  rw [offset, offset, ← hRest, List.flatMap_append, List.length_append]
  exact Nat.le_add_right ..

/-- The elements from one to another, written out. -/
theorem flatMap_slice (a b : ℕ) :
    ((xs.drop a).take (b - a)).flatMap f = ((xs.flatMap f).drop (offset f xs a)).take (offset f xs b - offset f xs a) := by
  rcases Nat.le_total b a with hBack | hOrder
  · rw [Nat.sub_eq_zero_of_le hBack, Nat.sub_eq_zero_of_le (offset_mono f xs hBack)]
    simp
  · have hSplit : xs.take b = xs.take a ++ (xs.drop a).take (b - a) := by
      rw [← List.take_add, Nat.add_sub_cancel' hOrder]
    have hWhole : xs.flatMap f = (xs.take a).flatMap f ++ ((xs.drop a).take (b - a)).flatMap f ++ (xs.drop b).flatMap f := by
      rw [← List.flatMap_append, ← hSplit, ← List.flatMap_append, List.take_append_drop]
    have hLength : offset f xs b - offset f xs a = (((xs.drop a).take (b - a)).flatMap f).length := by
      rw [offset, offset, hSplit, List.flatMap_append, List.length_append, Nat.add_sub_cancel_left]
    rw [hLength, hWhole, List.append_assoc, offset, List.drop_left, List.take_left]

/-- For each place of the writing, the index of the element it belongs to. -/
def owners (f : α → List β) : List α → ℕ → List ℕ
  | [], _ => []
  | x :: xs, i => List.replicate (f x).length i ++ owners f xs (i + 1)

variable (f xs) in
theorem length_owners (i : ℕ) : (owners f xs i).length = (xs.flatMap f).length := by
  induction xs generalizing i with
  | nil => rfl
  | cons x xs ih => simp [owners, ih]

/-- A place belongs to the element whose writing it is inside of. -/
theorem owner_bounds {i p k : ℕ} (h : (owners f xs i)[p]? = some k) :
    ∃ j, k = i + j ∧ j < xs.length ∧ offset f xs j ≤ p ∧ p < offset f xs (j + 1) := by
  induction xs generalizing i p with
  | nil => simp [owners] at h
  | cons x xs ih =>
      rw [owners] at h
      by_cases hHere : p < (f x).length
      · rw [List.getElem?_append_left (by simpa using hHere)] at h
        obtain ⟨_, hSame⟩ := List.getElem?_eq_some_iff.mp h
        rw [List.getElem_replicate] at hSame
        refine ⟨0, hSame.symm, by simp, by simp, ?_⟩
        rw [offset_cons]
        exact Nat.lt_add_right _ hHere
      · rw [List.getElem?_append_right (by simpa using Nat.le_of_not_lt hHere), List.length_replicate] at h
        obtain ⟨j, rfl, hj, hLow, hHigh⟩ := ih h
        refine ⟨j + 1, by omega, by simpa using hj, ?_, ?_⟩ <;> rw [offset_cons] <;> omega

/-- Where the writing of the elements before some one ends is the start of an element
that is written at all. -/
theorem offset_eq_iff {i p : ℕ} (hLow : offset f xs i ≤ p) (hHigh : p < offset f xs (i + 1)) :
    (∃ k, offset f xs k = p) ↔ offset f xs i = p := by
  refine ⟨?_, fun h => ⟨i, h⟩⟩
  rintro ⟨k, rfl⟩
  by_contra hNot
  have hPast : i < k := by
    by_contra hLess
    exact hNot (Nat.le_antisymm hLow (offset_mono f xs (Nat.le_of_not_lt hLess)))
  exact absurd (offset_mono f xs hPast) (Nat.not_le.mpr hHigh)

end Expanded
