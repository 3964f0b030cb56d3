import Mathlib.Data.List.Basic
import Mathlib.Data.PNat.Defs

/-! A list cut behind the first stop at or past each size. The cut depends only on
what stands before it, so a list that grows keeps every piece but its last. -/
namespace Segments

universe u

variable {α : Type u} (stop : α → Bool) (size : ℕ+)

/-- The index of the first stop at or past an index. -/
def find (rest : List α) (start : Nat) : Option Nat :=
  ((rest.drop start).findIdx? stop).map (start + ·)

/-- Where the first piece ends. -/
def pieceEnd (rest : List α) : Nat :=
  match find stop rest (size - 1) with
  | none => rest.length
  | some i => i + 1

variable {stop size} {rest more piece : List α}

variable {i start : Nat}

theorem find_append (h : find stop rest start = some i) : find stop (rest ++ more) start = some i := by
  obtain ⟨j, hj, rfl⟩ := Option.map_eq_some_iff.mp h
  have hStart : start ≤ rest.length := by
    by_contra hPast
    rw [List.drop_of_length_le (by omega)] at hj
    cases hj
  rw [find, List.drop_append_of_le_length hStart, List.findIdx?_append, hj]
  rfl

theorem find_lt (h : find stop rest start = some i) : start ≤ i ∧ i < rest.length := by
  obtain ⟨j, hj, rfl⟩ := Option.map_eq_some_iff.mp h
  have hLt := (List.findIdx?_eq_some_iff_findIdx_eq.mp hj).1
  rw [List.length_drop] at hLt
  omega

theorem find_stop (h : find stop rest start = some i) : ∃ hi : i < rest.length, stop rest[i] = true := by
  obtain ⟨j, hj, rfl⟩ := Option.map_eq_some_iff.mp h
  obtain ⟨hLt, hStop, -⟩ := List.findIdx?_eq_some_iff_getElem.mp hj
  rw [List.length_drop] at hLt
  refine ⟨by omega, ?_⟩
  simpa using hStop

theorem find_take (h : find stop rest start = some i) : find stop (rest.take (i + 1)) start = some i := by
  have hLt := find_lt h
  obtain ⟨j, hj, rfl⟩ := Option.map_eq_some_iff.mp h
  obtain ⟨hj', hStop, hFirst⟩ := List.findIdx?_eq_some_iff_getElem.mp hj
  rw [find, List.drop_take]
  refine Option.map_eq_some_iff.mpr ⟨j, List.findIdx?_eq_some_iff_getElem.mpr ⟨?_, ?_, ?_⟩, rfl⟩
  · simp only [List.length_take, List.length_drop] at hj' ⊢
    omega
  · simpa using hStop
  · intro k hk
    simpa using hFirst k hk

theorem pieceEnd_le : pieceEnd stop size rest ≤ rest.length := by
  unfold pieceEnd
  split
  · exact le_rfl
  · rename_i i hi
    exact (find_lt hi).2

theorem pieceEnd_pos (h : rest ≠ []) : 0 < pieceEnd stop size rest := by
  unfold pieceEnd
  split
  · exact List.length_pos_iff.mpr h
  · exact Nat.succ_pos _

variable (stop size) in
/-- The pieces of a list, the last of them open. -/
def segments (rest : List α) : List (List α) :=
  if h : rest = [] then []
  else rest.take (pieceEnd stop size rest) :: segments (rest.drop (pieceEnd stop size rest))
termination_by rest.length
decreasing_by
  have := @pieceEnd_pos α stop size rest h
  have := List.length_pos_iff.mpr h
  rw [List.length_drop]
  omega

@[simp] theorem segments_nil : segments stop size ([] : List α) = [] := by
  rw [segments, dif_pos rfl]

theorem segments_of_ne_nil (h : rest ≠ []) :
    segments stop size rest =
      rest.take (pieceEnd stop size rest) :: segments stop size (rest.drop (pieceEnd stop size rest)) := by
  rw [segments, dif_neg h]

theorem segments_eq_nil : segments stop size rest = [] ↔ rest = [] := by
  constructor
  · intro h
    by_contra hne
    rw [segments_of_ne_nil hne] at h
    cases h
  · rintro rfl
    exact segments_nil

variable (stop size) in
/-- The pieces together are the list. -/
theorem segments_flatten (rest : List α) : (segments stop size rest).flatten = rest := by
  induction rest using segments.induct stop size with
  | case1 => simp
  | case2 rest h ih =>
      rw [segments_of_ne_nil h, List.flatten_cons, ih]
      exact List.take_append_drop _ _

/-- No piece is empty. -/
theorem segments_ne_nil (rest : List α) : ∀ piece ∈ segments stop size rest, piece ≠ [] := by
  induction rest using segments.induct stop size with
  | case1 => simp
  | case2 rest h ih =>
      intro piece hPiece
      rw [segments_of_ne_nil h] at hPiece
      rcases List.mem_cons.mp hPiece with rfl | hPiece
      · have hPositive := @pieceEnd_pos α stop size rest h
        simp [h]
        omega
      · exact ih piece hPiece

variable (stop size) in
/-- A piece that ends at its stop, whatever follows it. -/
def Sealed (piece : List α) : Prop :=
  ∃ i, find stop piece (size - 1) = some i ∧ piece.length = i + 1

theorem Sealed.pieceEnd (h : Sealed stop size piece) (more : List α) : pieceEnd stop size (piece ++ more) = piece.length := by
  obtain ⟨i, hi, hLength⟩ := h
  rw [Segments.pieceEnd, find_append hi]
  exact hLength.symm

theorem Sealed.ne_nil (h : Sealed stop size piece) : piece ≠ [] := by
  rintro rfl
  obtain ⟨i, -, hLength⟩ := h
  cases hLength

/-- A sealed piece ends in a stop. -/
theorem Sealed.ends (h : Sealed stop size piece) : ∃ first last, piece = first ++ [last] ∧ stop last = true := by
  obtain ⟨i, hi, hLength⟩ := h
  obtain ⟨hLt, hStop⟩ := find_stop hi
  refine ⟨piece.take i, piece[i], ?_, hStop⟩
  have hSplit := List.take_append_drop i piece
  rw [List.drop_eq_getElem_cons hLt, List.drop_of_length_le (by omega)] at hSplit
  exact hSplit.symm

/-- Sealed pieces stay the first pieces whatever follows them. -/
theorem segments_sealed {pieces : List (List α)} (h : ∀ piece ∈ pieces, Sealed stop size piece) (rest : List α) :
    segments stop size (pieces.flatten ++ rest) = pieces ++ segments stop size rest := by
  induction pieces with
  | nil => simp
  | cons piece pieces ih =>
      have hPiece := h piece List.mem_cons_self
      have hRest := ih fun other hOther => h other (List.mem_cons_of_mem _ hOther)
      rw [List.flatten_cons, List.append_assoc, segments_of_ne_nil (by simp [hPiece.ne_nil]), hPiece.pieceEnd,
        List.take_left, List.drop_left, hRest, List.cons_append]

/-- Every piece but the last is sealed. -/
theorem sealed_of_mem_dropLast (h : piece ∈ (segments stop size rest).dropLast) : Sealed stop size piece := by
  induction rest using segments.induct stop size with
  | case1 => simp at h
  | case2 rest hne ih =>
      rw [segments_of_ne_nil hne] at h
      by_cases hLast : rest.drop (pieceEnd stop size rest) = []
      · rw [hLast] at h
        simp at h
      · have hMore : segments stop size (rest.drop (pieceEnd stop size rest)) ≠ [] :=
          fun hNil => hLast (segments_eq_nil.mp hNil)
        rw [List.dropLast_cons_of_ne_nil hMore] at h
        rcases List.mem_cons.mp h with rfl | h
        · have hShort : pieceEnd stop size rest < rest.length := by
            by_contra hFull
            exact hLast (List.drop_of_length_le (by omega))
          unfold pieceEnd at hShort ⊢
          split at hShort
          · omega
          · rename_i i hi
            exact ⟨i, find_take hi, by simp; omega⟩
        · exact ih h

/-- The last piece stands behind the sealed ones, and is not empty. -/
theorem sealed_flatten {last : List α} (h : (segments stop size rest).getLast? = some last) :
    (segments stop size rest).dropLast.flatten ++ last = rest ∧ last ≠ [] := by
  have hSplit := List.dropLast_append_getLast? last h
  constructor
  · conv_rhs => rw [← segments_flatten stop size rest, ← hSplit]
    simp
  · rintro rfl
    exact segments_ne_nil rest [] (List.mem_of_getLast? h) rfl

/-- Growth happens in the last piece. -/
theorem segments_append {last : List α} (h : (segments stop size rest).getLast? = some last) (more : List α) :
    segments stop size (rest ++ more) = (segments stop size rest).dropLast ++ segments stop size (last ++ more) := by
  conv_lhs => rw [← (sealed_flatten h).1, List.append_assoc]
  exact segments_sealed (fun piece hPiece => sealed_of_mem_dropLast hPiece) _

/-- A piece that filled its list is no shorter when the list grows. -/
theorem pieceEnd_grown (h : pieceEnd stop size rest = rest.length) (more : List α) :
    rest.length ≤ pieceEnd stop size (rest ++ more) := by
  cases hFind : find stop rest (size - 1) with
  | some i =>
      rw [pieceEnd, hFind] at h
      rw [pieceEnd, find_append hFind]
      exact h.ge
  | none =>
      unfold pieceEnd
      split
      · simp
      · rename_i i hi
        by_cases hLong : rest.length ≤ (size : Nat) - 1
        · exact Nat.le_succ_of_le (hLong.trans (find_lt hi).1)
        · have hNone : (rest.drop ((size : Nat) - 1)).findIdx? stop = none := Option.map_eq_none_iff.mp hFind
          rw [find, List.drop_append_of_le_length (by omega), List.findIdx?_append, hNone, Option.none_or] at hi
          obtain ⟨j, hj, rfl⟩ := Option.map_eq_some_iff.mp hi
          obtain ⟨k, -, rfl⟩ := Option.map_eq_some_iff.mp hj
          rw [List.length_drop]
          omega

/-- Each piece of a list is the beginning of the same piece once the list grew. -/
theorem segments_piece_grown {n : Nat} (h : (segments stop size rest)[n]? = some piece) (more : List α) :
    ∃ grown, (segments stop size (rest ++ more))[n]? = some grown ∧ piece <+: grown := by
  obtain ⟨last, hLast⟩ : ∃ last, (segments stop size rest).getLast? = some last := by
    refine Option.ne_none_iff_exists'.mp fun hNone => ?_
    rw [List.getLast?_eq_none_iff.mp hNone] at h
    cases h
  have hSplit := List.dropLast_append_getLast? last hLast
  have hOpen : segments stop size last = [last] := by
    have hSame := segments_append hLast []
    rw [List.append_nil, List.append_nil] at hSame
    exact (List.append_cancel_left (hSplit.trans hSame)).symm
  rw [segments_append hLast]
  by_cases hn : n < (segments stop size rest).dropLast.length
  · rw [← hSplit, List.getElem?_append_left hn] at h
    exact ⟨piece, by rw [List.getElem?_append_left hn, h], List.prefix_refl _⟩
  · rw [← hSplit, List.getElem?_append_right (by omega)] at h
    obtain ⟨hIndex, rfl⟩ : n = (segments stop size rest).dropLast.length ∧ last = piece := by
      obtain ⟨hLt, hPiece⟩ := List.getElem?_eq_some_iff.mp h
      rw [List.length_singleton] at hLt
      exact ⟨by omega, by simpa using hPiece⟩
    have hNonempty := (sealed_flatten hLast).2
    have hEnd : pieceEnd stop size last = last.length := by
      rw [segments_of_ne_nil hNonempty] at hOpen
      have hTake := congrArg List.length (List.cons.inj hOpen).1
      rw [List.length_take] at hTake
      have := @pieceEnd_le α stop size last
      omega
    rw [List.getElem?_append_right (by omega), hIndex, Nat.sub_self,
      segments_of_ne_nil (by simp [hNonempty]), List.getElem?_cons_zero]
    exact ⟨_, rfl, List.prefix_take_iff.mpr ⟨List.prefix_append _ _, pieceEnd_grown hEnd more⟩⟩

end Segments
