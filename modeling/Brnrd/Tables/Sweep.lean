import Mathlib.Data.List.Basic

/-! Rows that refer to one another, and deletions that are refused where a row
that stays refers to one that goes. A sweep that takes the referring rows first
is refused only where a row outside it refers into it. -/
namespace Tables

variable {R : Type*} (refers : R → R → Prop)

/-- A row that stays refers to one that goes. -/
def Dangles (goes : R → Bool) (rows : List R) : Prop :=
  ∃ r ∈ rows, goes r = false ∧ ∃ t ∈ rows, goes t = true ∧ refers r t

/-- A row goes in one of the deletions. -/
def swept (conditions : List (R → Bool)) (r : R) : Bool :=
  conditions.any fun goes => goes r

/-- Who refers to a row that goes does not go later than it. -/
def Ordered (rows : List R) : List (R → Bool) → Prop
  | [] => True
  | goes :: rest => (∀ r ∈ rows, ∀ t ∈ rows, refers r t → goes t = true → goes r = false → swept rest r = false) ∧
      Ordered rows rest

variable {rows kept : List R} {conditions : List (R → Bool)}

theorem Ordered.of_subset {refers : R → R → Prop} {others : List R} (h : Ordered refers rows conditions) (hSub : ∀ r ∈ others, r ∈ rows) :
    Ordered refers others conditions := by
  induction conditions with
  | nil => trivial
  | cons goes rest ih => exact ⟨fun r hr t ht => h.1 r (hSub r hr) t (hSub t ht), ih h.2⟩

variable [∀ r t, Decidable (refers r t)]

instance (goes : R → Bool) (rows : List R) : Decidable (Dangles refers goes rows) :=
  inferInstanceAs (Decidable (∃ r ∈ rows, goes r = false ∧ ∃ t ∈ rows, goes t = true ∧ refers r t))

/-- One deletion, of all the rows that meet a condition. -/
def delete (goes : R → Bool) (rows : List R) : Option (List R) :=
  if Dangles refers goes rows then none else some (rows.filter fun r => !goes r)

def sweep (conditions : List (R → Bool)) (rows : List R) : Option (List R) :=
  conditions.foldlM (fun rows goes => delete refers goes rows) rows

variable {refers}

theorem delete_eq_some_iff {goes : R → Bool} : delete refers goes rows = some kept ↔
    ¬ Dangles refers goes rows ∧ kept = rows.filter fun r => !goes r := by
  unfold delete
  split
  · next h => simp [h]
  · next h => simp [h, eq_comm]

/-- An ordered sweep takes what it is to take, or is refused for a reference
from a row that stays. -/
theorem sweep_eq_some_iff (hOrder : Ordered refers rows conditions) : sweep refers conditions rows = some kept ↔
    ¬ Dangles refers (swept conditions) rows ∧ kept = rows.filter fun r => !swept conditions r := by
  induction conditions generalizing rows with
  | nil => simp [sweep, swept, Dangles, eq_comm]
  | cons goes rest ih =>
      have hStep : sweep refers (goes :: rest) rows = some kept ↔ ¬ Dangles refers goes rows ∧
          ¬ Dangles refers (swept rest) (rows.filter fun r => !goes r) ∧
          kept = (rows.filter fun r => !goes r).filter fun r => !swept rest r := by
        have hRest := @ih (rows.filter fun r => !goes r) (hOrder.2.of_subset fun r hr => List.mem_of_mem_filter hr)
        rw [← hRest]
        simp only [sweep, List.foldlM_cons, Option.bind_eq_bind, Option.bind_eq_some_iff, delete_eq_some_iff]
        constructor
        · rintro ⟨middle, ⟨hFree, rfl⟩, hLater⟩
          exact ⟨hFree, hLater⟩
        · rintro ⟨hFree, hLater⟩
          exact ⟨_, ⟨hFree, rfl⟩, hLater⟩
      have hFilter : ((rows.filter fun r => !goes r).filter fun r => !swept rest r) =
          rows.filter fun r => !swept (goes :: rest) r := by
        simp [List.filter_filter, swept, Bool.and_comm]
      rw [hStep, hFilter, ← and_assoc]
      refine and_congr_left' ⟨?_, ?_⟩
      · rintro ⟨hFirst, hRest⟩ ⟨r, hr, hStays, t, ht, hGoes, hRefers⟩
        obtain ⟨hNotFirst, hNotRest⟩ : goes r = false ∧ swept rest r = false := by simpa [swept] using hStays
        by_cases hNow : goes t = true
        · exact hFirst ⟨r, hr, hNotFirst, t, ht, hNow, hRefers⟩
        · have hLater : swept rest t = true := by simpa [swept, hNow] using hGoes
          exact hRest ⟨r, List.mem_filter.mpr ⟨hr, by simp [hNotFirst]⟩, hNotRest, t,
            List.mem_filter.mpr ⟨ht, by simp [hNow]⟩, hLater, hRefers⟩
      · intro hFree
        refine ⟨?_, ?_⟩
        · rintro ⟨r, hr, hStays, t, ht, hGoes, hRefers⟩
          have hNotLater := hOrder.1 r hr t ht hRefers hGoes hStays
          refine hFree ⟨r, hr, ?_, t, ht, by simp [swept, hGoes], hRefers⟩
          simpa [swept, hStays] using hNotLater
        · rintro ⟨r, hr, hStays, t, ht, hGoes, hRefers⟩
          obtain ⟨hr, hNot⟩ := List.mem_filter.mp hr
          refine hFree ⟨r, hr, ?_, t, List.mem_of_mem_filter ht, ?_, hRefers⟩
          · have hKept : goes r = false := by simpa using hNot
            simpa [swept, hKept] using hStays
          · simpa [swept] using Or.inr hGoes

/-- A filter does not see a change of what it drops. -/
theorem filter_map_fixed {α : Type*} {p : α → Bool} {f : α → α} {l : List α}
    (h : ∀ x ∈ l, p (f x) = p x ∧ (p x = true → f x = x)) : (l.map f).filter p = l.filter p := by
  induction l with
  | nil => rfl
  | cons x rest ih =>
      have hRest := ih fun y hy => h y (List.mem_cons_of_mem _ hy)
      obtain ⟨hSame, hFixed⟩ := h x List.mem_cons_self
      rw [List.map_cons, List.filter_cons, List.filter_cons, hSame, hRest]
      split
      · next hKept => rw [hFixed hKept]
      · rfl

theorem fixed_of_filter_map {α : Type*} {p : α → Bool} {f : α → α} {l : List α} (hSame : ∀ x ∈ l, p (f x) = p x)
    (h : (l.map f).filter p = l.filter p) {x : α} (hx : x ∈ l) (hKept : p x = true) : f x = x := by
  induction l with
  | nil => cases hx
  | cons y rest ih =>
      have hRest := fun z hz => hSame z (List.mem_cons_of_mem y hz)
      rw [List.map_cons, List.filter_cons, List.filter_cons, hSame y List.mem_cons_self] at h
      by_cases hy : p y = true
      · rw [if_pos hy, if_pos hy] at h
        obtain ⟨hHead, hTail⟩ := List.cons.inj h
        rcases List.mem_cons.mp hx with rfl | hx
        · exact hHead
        · exact ih hRest hTail hx
      · rw [if_neg hy, if_neg hy] at h
        rcases List.mem_cons.mp hx with rfl | hx
        · exact absurd hKept hy
        · exact ih hRest h hx

end Tables
