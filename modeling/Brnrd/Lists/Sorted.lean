import Mathlib.Data.List.Sort
import Mathlib.Data.Prod.Lex

/-! Sorting by a key in a linear order, upward and downward: equal keys keep their order. -/
namespace Sorted

variable {α κ : Type*} [LinearOrder κ] (key : α → κ) (l : List α)

/-- `sorted(l, key=key)`. -/
def up : List α :=
  l.insertionSort fun a b => key a ≤ key b

/-- `sorted(l, key=key, reverse=True)`, which keeps the order of equal keys too. -/
def down : List α :=
  l.insertionSort fun a b => key b ≤ key a

theorem up_perm : (up key l).Perm l :=
  List.perm_insertionSort _ l

theorem down_perm : (down key l).Perm l :=
  List.perm_insertionSort _ l

theorem pairwise_up : (up key l).Pairwise fun a b => key a ≤ key b := by
  have : Std.Total fun a b : α => key a ≤ key b := ⟨fun a b => le_total (key a) (key b)⟩
  have : IsTrans α fun a b => key a ≤ key b := ⟨fun _ _ _ => le_trans⟩
  exact List.pairwise_insertionSort _ l

theorem pairwise_down : (down key l).Pairwise fun a b => key b ≤ key a := by
  have : Std.Total fun a b : α => key b ≤ key a := ⟨fun a b => le_total (key b) (key a)⟩
  have : IsTrans α fun a b => key b ≤ key a := ⟨fun _ _ _ h h' => h'.trans h⟩
  exact List.pairwise_insertionSort _ l

end Sorted
