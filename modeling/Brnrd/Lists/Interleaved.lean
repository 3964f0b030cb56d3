import Mathlib.Data.List.Basic

/-! Two lists that are walked beside each other, in an order given by whose turn it is. -/
namespace Interleaved

universe u v

variable {α : Type u} {β : Type v}

/-- The items of two lists, each list in its order: the first one's turn where the order
says so, and what is left at its end. -/
def interleave : List Bool → List α → List α → List α
  | _, [], b => b
  | _, a, [] => a
  | [], a, b => a ++ b
  | true :: order, x :: a, b => x :: interleave order a b
  | false :: order, a, y :: b => y :: interleave order a b

theorem filterMap_left {f : α → Option β} {order : List Bool} {a b : List α} (h : ∀ y ∈ b, f y = none) :
    (interleave order a b).filterMap f = a.filterMap f := by
  have hNone : b.filterMap f = [] := List.filterMap_eq_nil_iff.mpr h
  fun_induction interleave order a b with
  | case1 order b => exact hNone
  | case2 order a hSome => rfl
  | case3 a b hFirst hSecond => rw [List.filterMap_append, hNone, List.append_nil]
  | case4 order x a b hSecond ih => rw [List.filterMap_cons, List.filterMap_cons, ih h hNone]
  | case5 order a y b hFirst ih =>
      rw [List.filterMap_cons, h y List.mem_cons_self] at *
      exact ih (fun z hz => h z (List.mem_cons_of_mem _ hz)) hNone

theorem filterMap_right {f : α → Option β} {order : List Bool} {a b : List α} (h : ∀ x ∈ a, f x = none) :
    (interleave order a b).filterMap f = b.filterMap f := by
  have hNone : a.filterMap f = [] := List.filterMap_eq_nil_iff.mpr h
  fun_induction interleave order a b with
  | case1 order b => rfl
  | case2 order a hSome => exact hNone
  | case3 a b hFirst hSecond => rw [List.filterMap_append, hNone, List.nil_append]
  | case4 order x a b hSecond ih =>
      rw [List.filterMap_cons, h x List.mem_cons_self] at *
      exact ih (fun z hz => h z (List.mem_cons_of_mem _ hz)) hNone
  | case5 order a y b hFirst ih => rw [List.filterMap_cons, List.filterMap_cons, ih h hNone]

end Interleaved
