import Brnrd.Readme.Readme

/-! The lines the two readers see. The gate drops every carriage return and splits
at newlines; the runtime splits at every boundary of `splitlines`. -/
namespace Brnrd.Readme

open Python

/-- A line without the carriage return that ends it. -/
def dropReturn (line : Text) : Text :=
  if line.getLast? = some '\r' then line.dropLast else line

/-- The lines of the front matter, as the gate sees them. -/
def frontLines (content : Text) : List Text :=
  ((untilFence (Gate.linesOf content)).map Prod.fst).getD []

/-- How many lines the gate reads: the front matter, its two fences and what
follows up to the heading. -/
def linesRead (content : Text) : Nat :=
  match untilFence (Gate.linesOf content) with
  | none => 0
  | some (front, rest) => front.length + (rest.takeWhile (· = [])).length + 3

/-- Up to the heading, only a newline ends a line, with or without a carriage
return. -/
def PlainLines (content : Text) : Prop :=
  ∀ line ∈ (content.splitOn '\n').take (linesRead content), OneLine (dropReturn line)

instance (content : Text) : Decidable (PlainLines content) :=
  inferInstanceAs (Decidable (∀ line ∈ (content.splitOn '\n').take (linesRead content), OneLine (dropReturn line)))

variable {line : Text}

theorem return_not_mem (h : OneLine line) : '\r' ∉ line := by
  intro hMem
  have hNot := h '\r' hMem
  revert hNot
  decide

theorem filter_return (h : OneLine line) : line.filter (· ≠ '\r') = line := by
  rw [List.filter_eq_self]
  rintro c hc
  have hNot : c ≠ '\r' := fun hSame => return_not_mem h (hSame ▸ hc)
  simpa using hNot

theorem filter_dropReturn (h : OneLine (dropReturn line)) : line.filter (· ≠ '\r') = dropReturn line := by
  unfold dropReturn at h ⊢
  split at h
  · rename_i hLast
    obtain ⟨first, rfl⟩ := List.getLast?_eq_some_iff.mp hLast
    rw [List.dropLast_concat] at h
    rw [if_pos hLast, List.dropLast_concat, List.filter_append, filter_return h]
    simp
  · rename_i hLast
    rw [if_neg hLast, filter_return h]

/-- Without their carriage returns the gate's lines are those between the newlines. -/
theorem splitOn_filter (content : Text) :
    (content.filter (· ≠ '\r')).splitOn '\n' = (content.splitOn '\n').map fun line => line.filter (· ≠ '\r') := by
  induction content with
  | nil => rfl
  | cons c content ih =>
      have hModify : ∀ lines : List Text, ((lines.modifyHead (c :: ·)).map fun line => line.filter (· ≠ '\r')) =
          if c = '\r' then lines.map fun line => line.filter (· ≠ '\r')
          else (lines.map fun line => line.filter (· ≠ '\r')).modifyHead (c :: ·) := by
        intro lines
        cases lines with
        | nil => simp
        | cons line lines => by_cases hc : c = '\r' <;> simp [hc]
      by_cases hReturn : c = '\r'
      · have hNot : (c == '\n') = false := by rw [hReturn]; rfl
        rw [List.splitOn_cons_eq_if_modifyHead c content, hNot, if_neg (by simp), hModify, if_pos hReturn, ← ih,
          List.filter_cons_of_neg (by simpa using hReturn)]
      · rw [List.filter_cons_of_pos (by simpa using hReturn), List.splitOn_cons_eq_if_modifyHead,
          List.splitOn_cons_eq_if_modifyHead c content, ih]
        split
        · simp
        · rw [hModify, if_neg hReturn]

/-- A newline ends the first line, behind a carriage return or not. -/
theorem splitlines_newline_first (h : OneLine (dropReturn line)) (rest : Text) :
    splitlines (line ++ '\n' :: rest) = dropReturn line :: splitlines rest := by
  unfold dropReturn at h ⊢
  split at h
  · rename_i hLast
    obtain ⟨first, rfl⟩ := List.getLast?_eq_some_iff.mp hLast
    rw [List.dropLast_concat] at h
    rw [if_pos hLast, List.dropLast_concat, List.append_assoc, List.singleton_append,
      splitlines_break h (by decide)]
    simp [splitFrom, splitlines]
  · rename_i hLast
    rw [if_neg hLast, splitlines_break h (by decide)]
    rfl

theorem splitlines_last (h : OneLine (dropReturn line)) (hSome : dropReturn line ≠ []) :
    splitlines line = [dropReturn line] := by
  unfold dropReturn at h hSome ⊢
  split at h
  · rename_i hLast
    obtain ⟨first, rfl⟩ := List.getLast?_eq_some_iff.mp hLast
    rw [List.dropLast_concat] at h
    rw [if_pos hLast, List.dropLast_concat, splitlines_break h (by decide)]
    rfl
  · rename_i hLast
    rw [if_neg hLast] at hSome ⊢
    exact splitlines_oneLine h hSome

/-- Where the first lines are plain they are the first of `splitlines`. -/
theorem take_splitlines {lines : List Text} {n : Nat} (hPlain : ∀ line ∈ lines.take n, OneLine (dropReturn line))
    (hLength : n ≤ lines.length) (hLast : n = lines.length → ∀ line, lines.getLast? = some line → dropReturn line ≠ []) :
    (splitlines (joinLines lines)).take n = (lines.take n).map dropReturn := by
  induction lines generalizing n with
  | nil =>
      obtain rfl : n = 0 := by simpa using hLength
      simp
  | cons line lines ih =>
      cases n with
      | zero => simp
      | succ n =>
          have hFirst : OneLine (dropReturn line) := hPlain line (by simp)
          cases lines with
          | nil =>
              obtain rfl : n = 0 := by simpa using hLength
              rw [joinLines_singleton, splitlines_last hFirst (hLast rfl line rfl)]
              rfl
          | cons next lines =>
              rw [joinLines_cons_cons, splitlines_newline_first hFirst, List.take_succ_cons, List.take_succ_cons,
                List.map_cons]
              refine congrArg (dropReturn line :: ·) (ih (fun l hl => hPlain l ?_) ?_ fun hn l hl => ?_)
              · exact List.mem_cons_of_mem _ hl
              · simpa using hLength
              · exact hLast (by simp [hn]) l (by simpa using hl)

theorem popEmpty_length (lines : List Text) : (Gate.popEmpty lines).length ≤ lines.length := by
  unfold Gate.popEmpty
  split
  · simp
  · exact le_rfl

theorem take_popEmpty {lines : List Text} {n : Nat} (h : n ≤ (Gate.popEmpty lines).length) :
    (Gate.popEmpty lines).take n = lines.take n := by
  unfold Gate.popEmpty at h ⊢
  split
  · rename_i hEnd
    rw [if_pos hEnd, List.length_dropLast] at h
    rw [List.dropLast_eq_take, List.take_take, Nat.min_eq_left h]
  · rfl

/-- Where the lines the gate reads are plain, the runtime reads the same ones. -/
theorem same_lines {content : Text} {n : Nat} (hPlain : ∀ line ∈ (content.splitOn '\n').take n, OneLine (dropReturn line))
    (hLength : n ≤ (Gate.linesOf content).length) :
    (splitlines content).take n = (Gate.linesOf content).take n := by
  have hJoin : joinLines (content.splitOn '\n') = content := List.intercalate_splitOn '\n'
  have hMap : ((content.splitOn '\n').take n).map dropReturn =
      ((content.splitOn '\n').map fun line => line.filter (· ≠ '\r')).take n := by
    rw [← List.map_take]
    exact List.map_congr_left fun line hLine => (filter_dropReturn (hPlain line hLine)).symm
  rw [Gate.linesOf, splitOn_filter] at hLength ⊢
  rw [take_popEmpty hLength, ← hMap]
  conv_lhs => rw [← hJoin]
  refine take_splitlines hPlain (by simpa using hLength.trans (popEmpty_length _)) ?_
  rintro hAll line hLine hNil
  have hPlainLine := hPlain line (by rw [hAll, List.take_length]; exact List.mem_of_getLast? hLine)
  have hEnd : ((content.splitOn '\n').map fun line => line.filter (· ≠ '\r')).getLast? = some [] := by
    rw [List.getLast?_map, hLine, Option.map_some, filter_dropReturn hPlainLine, hNil]
  have hPos := List.length_pos_of_ne_nil (List.splitOn_ne_nil '\n' content)
  rw [Gate.popEmpty, if_pos hEnd, List.length_dropLast, List.length_map] at hLength
  omega

/-- The boundaries of a text are those of the text a subprocess printed. -/
theorem splitFrom_universal (text line : Text) : splitFrom line false (universal text) = splitFrom line false text := by
  have hAfter : ∀ rest : Text, rest.head? ≠ some '\n' → ∀ line, splitFrom line true rest = splitFrom line false rest := by
    intro rest hHead line
    cases rest with
    | nil => rfl
    | cons c rest =>
        have hc : c ≠ '\n' := fun hSame => hHead (by rw [hSame]; rfl)
        simp [splitFrom, hc]
  have hNewline : isLineBreak '\n' = true := by decide
  have hReturn : isLineBreak '\r' = true := by decide
  induction text using universal.induct generalizing line with
  | case1 => rfl
  | case2 rest ih => simp [universal, splitFrom, hNewline, hReturn, ih]
  | case3 rest hNot ih =>
      have hHead : rest.head? ≠ some '\n' := by
        intro hHead
        obtain ⟨rest', rfl⟩ : ∃ rest', rest = '\n' :: rest' := by
          cases rest with
          | nil => cases hHead
          | cons c rest' => exact ⟨rest', by rw [Option.some.inj hHead]⟩
        exact hNot rest' rfl
      rw [universal.eq_3 _ hNot]
      simp [splitFrom, hNewline, hReturn, hAfter rest hHead, ih]
  | case4 c rest hNot hNotReturn ih =>
      rw [universal.eq_4 _ _ hNot hNotReturn]
      by_cases hBreak : isLineBreak c = true
      · have hNot' : (decide (c = '\r')) = false := by simpa using hNotReturn
        by_cases hc : c = '\n' <;> simp [splitFrom, hBreak, ih, hc, hNot']
      · simp [splitFrom, hBreak, ih]

theorem splitlines_universal (text : Text) : splitlines (universal text) = splitlines text :=
  splitFrom_universal text []

end Brnrd.Readme
