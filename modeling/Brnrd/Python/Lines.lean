import Brnrd.Python.Text
import Brnrd.Python.Value
import Mathlib.Data.List.DropRight

/-! Lines of a text: when `splitlines` undoes a join by newlines, what `strip`
leaves alone, and a search for a separator. -/
namespace Brnrd.Python

/-- `sep.join(lines)` for a newline. -/
def joinLines (lines : List (List Char)) : List Char :=
  ['\n'].intercalate lines

@[simp] theorem joinLines_nil : joinLines [] = [] := rfl

@[simp] theorem joinLines_singleton (line : List Char) : joinLines [line] = line := by
  simp [joinLines, List.intercalate]

@[simp] theorem joinLines_cons_cons (line next : List Char) (lines : List (List Char)) :
    joinLines (line :: next :: lines) = line ++ '\n' :: joinLines (next :: lines) := by
  simp [joinLines, List.intercalate]

theorem joinLines_append {a b : List (List Char)} (ha : a ≠ []) (hb : b ≠ []) :
    joinLines (a ++ b) = joinLines a ++ '\n' :: joinLines b := by
  induction a with
  | nil => exact absurd rfl ha
  | cons line a ih =>
      cases a with
      | nil =>
          obtain ⟨next, rest, rfl⟩ := List.exists_cons_of_ne_nil hb
          rw [joinLines_singleton, List.cons_append, List.nil_append, joinLines_cons_cons]
      | cons next a =>
          have hRest := ih (by simp)
          rw [List.cons_append] at hRest
          rw [List.cons_append, List.cons_append, joinLines_cons_cons, hRest, joinLines_cons_cons, List.append_assoc,
            List.cons_append]

/-- A text of lines begins with its first line. -/
theorem joinLines_first (line : List Char) (lines : List (List Char)) (rest : List Char) :
    ∃ tail, joinLines (line :: lines) ++ '\n' :: rest = line ++ '\n' :: tail := by
  cases lines with
  | nil => exact ⟨rest, by rw [joinLines_singleton]⟩
  | cons next lines =>
      refine ⟨joinLines (next :: lines) ++ '\n' :: rest, ?_⟩
      rw [joinLines_cons_cons, List.append_assoc, List.cons_append]

variable {a b line text first : List Char}

/-- A text that begins with a line has it as its first line. -/
theorem first_line_unique {tail : List Char} (ha : '\n' ∉ a) (hb : '\n' ∉ b) (h : a ++ ['\n'] <+: b ++ '\n' :: tail) :
    a = b := by
  induction a generalizing b with
  | nil =>
      cases b with
      | nil => rfl
      | cons c b =>
          obtain ⟨hSame, -⟩ := List.cons_prefix_cons.mp h
          exact absurd (List.mem_cons.mpr (.inl hSame)) hb
  | cons d a ih =>
      cases b with
      | nil =>
          obtain ⟨hSame, -⟩ := List.cons_prefix_cons.mp h
          exact absurd (List.mem_cons.mpr (.inl hSame.symm)) ha
      | cons c b =>
          obtain ⟨rfl, hRest⟩ := List.cons_prefix_cons.mp h
          rw [ih (fun h => ha (List.mem_cons_of_mem _ h)) (fun h => hb (List.mem_cons_of_mem _ h)) hRest]

/-- A text without a line boundary. -/
def OneLine (text : List Char) : Prop :=
  ∀ c ∈ text, isLineBreak c = false

instance (text : List Char) : Decidable (OneLine text) :=
  inferInstanceAs (Decidable (∀ c ∈ text, isLineBreak c = false))

theorem OneLine.append (ha : OneLine a) (hb : OneLine b) : OneLine (a ++ b) := by
  intro c hc
  rcases List.mem_append.mp hc with h | h
  · exact ha c h
  · exact hb c h

theorem OneLine.newline (h : OneLine text) : '\n' ∉ text := by
  intro hMem
  have hNot := h '\n' hMem
  revert hNot
  decide

/-- The first boundary of a text. -/
theorem first_break (h : ¬OneLine text) :
    ∃ first c rest, text = first ++ c :: rest ∧ OneLine first ∧ isLineBreak c = true := by
  induction text with
  | nil => exact absurd nofun h
  | cons d text ih =>
      cases hBreak : isLineBreak d with
      | true => exact ⟨[], d, text, rfl, nofun, hBreak⟩
      | false =>
          have hRest : ¬OneLine text := by
            intro hOne
            refine h fun c hc => ?_
            rcases List.mem_cons.mp hc with rfl | hc
            · exact hBreak
            · exact hOne c hc
          obtain ⟨first, c, rest, rfl, hFirst, hc⟩ := ih hRest
          refine ⟨d :: first, c, rest, rfl, fun e he => ?_, hc⟩
          rcases List.mem_cons.mp he with rfl | he
          · exact hBreak
          · exact hFirst e he

variable {c : Char}

theorem isSpace_of_isLineBreak (h : isLineBreak c = true) : isSpace c = true := by
  have hAll : ∀ n ∈ [0xa, 0xb, 0xc, 0xd, 0x1c, 0x1d, 0x1e, 0x85, 0x2028, 0x2029], spaces.contains n = true := by
    decide
  exact hAll c.toNat (List.contains_iff_mem.mp h)

/-- The characters before the first boundary join the line read so far. -/
theorem splitFrom_oneLine (hFirst : OneLine first) (hNew : first ≠ []) (line : List Char) (returned : Bool)
    (rest : List Char) :
    splitFrom line returned (first ++ rest) = splitFrom (line ++ first) false rest := by
  induction first generalizing line returned with
  | nil => exact absurd rfl hNew
  | cons c first ih =>
      have hHead : isLineBreak c = false := hFirst c (by simp)
      have hNewline : c ≠ '\n' := by
        rintro rfl
        revert hHead
        decide
      have hStep : splitFrom line returned (c :: (first ++ rest)) = splitFrom (line ++ [c]) false (first ++ rest) := by
        simp [splitFrom, hNewline, hHead]
      rw [List.cons_append, hStep]
      cases first with
      | nil => simp
      | cons d first =>
          rw [ih (fun e he => hFirst e (List.mem_cons_of_mem _ he)) (by simp)]
          simp

/-- The first boundary ends the first line. -/
theorem splitlines_break {rest : List Char} (hFirst : OneLine first) (hBreak : isLineBreak c = true) :
    splitlines (first ++ c :: rest) = first :: splitFrom [] (c = '\r') rest := by
  by_cases hNil : first = []
  · subst hNil
    simp [splitlines, splitFrom, hBreak]
  · rw [splitlines, splitFrom_oneLine hFirst hNil]
    simp [splitFrom, hBreak]

theorem splitlines_oneLine (h : OneLine line) (hNil : line ≠ []) : splitlines line = [line] := by
  have hSplit := splitFrom_oneLine h hNil [] false []
  rw [List.append_nil] at hSplit
  rw [splitlines, hSplit]
  simp [splitFrom, hNil]

/-- `splitlines` undoes a join of lines by newlines. -/
theorem splitlines_joinLines {lines : List (List Char)} (h : ∀ line ∈ lines, OneLine line ∧ line ≠ []) :
    splitlines (joinLines lines) = lines := by
  induction lines with
  | nil => rfl
  | cons line lines ih =>
      obtain ⟨hOne, hNil⟩ := h line (by simp)
      cases lines with
      | nil => rw [joinLines_singleton, splitlines_oneLine hOne hNil]
      | cons next lines =>
          have hRest := ih fun l hl => h l (List.mem_cons_of_mem _ hl)
          rw [joinLines_cons_cons, splitlines_break hOne (by decide)]
          exact congrArg (line :: ·) hRest

/-- `splitlines` undoes a join of lines that a newline ends. -/
theorem splitlines_joined {lines : List (List Char)} (hNew : lines ≠ []) (h : ∀ line ∈ lines, OneLine line) :
    splitlines (joinLines lines ++ ['\n']) = lines := by
  induction lines with
  | nil => exact absurd rfl hNew
  | cons line lines ih =>
      have hLine : OneLine line := h line (by simp)
      cases lines with
      | nil =>
          rw [joinLines_singleton, splitlines_break hLine (by decide)]
          rfl
      | cons next lines =>
          have hRest := ih (by simp) fun l hl => h l (List.mem_cons_of_mem _ hl)
          rw [joinLines_cons_cons, List.append_assoc, List.cons_append, splitlines_break hLine (by decide)]
          exact congrArg (line :: ·) hRest

/-- A line holds no line boundary. -/
theorem splitFrom_pieces {returned : Bool} (hLine : OneLine line) :
    ∀ piece ∈ splitFrom line returned text, OneLine piece := by
  induction text generalizing line returned with
  | nil =>
      intro piece hPiece
      by_cases hNil : line = []
      · simp [splitFrom, hNil] at hPiece
      · simp only [splitFrom, hNil, if_false, List.mem_singleton] at hPiece
        exact hPiece ▸ hLine
  | cons c text ih =>
      have hEmpty : OneLine [] := List.forall_mem_nil _
      intro piece hPiece
      simp only [splitFrom] at hPiece
      split at hPiece
      · exact ih hEmpty piece hPiece
      · split at hPiece
        · rcases List.mem_cons.mp hPiece with rfl | hPiece
          · exact hLine
          · exact ih hEmpty piece hPiece
        · rename_i hc
          have hOne : OneLine [c] := by
            intro d hd
            obtain rfl := List.mem_singleton.mp hd
            simpa using hc
          exact ih (hLine.append hOne) piece hPiece

theorem splitlines_pieces (text : List Char) : ∀ piece ∈ splitlines text, OneLine piece :=
  splitFrom_pieces nofun

/-- A line is a stretch of the text it comes from. -/
theorem mem_splitFrom {returned : Bool} {piece : List Char} (h : piece ∈ splitFrom line returned text) :
    piece <:+: line ++ text := by
  induction text generalizing line returned with
  | nil =>
      by_cases hNil : line = []
      · simp [splitFrom, hNil] at h
      · simp only [splitFrom, hNil, if_false, List.mem_singleton] at h
        simp [h]
  | cons c rest ih =>
      have hLater : ∀ {returned}, piece ∈ splitFrom [] returned rest → piece <:+: line ++ c :: rest := fun h =>
        (ih h).trans ⟨line ++ [c], [], by simp⟩
      rw [splitFrom] at h
      split at h
      · exact hLater h
      · split at h
        · rcases List.mem_cons.mp h with rfl | h
          · exact (List.prefix_append _ _).isInfix
          · exact hLater h
        · simpa using ih h

theorem splitFrom_length {returned : Bool} {piece : List Char} (h : piece ∈ splitFrom line returned text) :
    piece.length ≤ line.length + text.length := by
  simpa using (mem_splitFrom h).length_le

theorem strip_length (text : List Char) : (strip text).length ≤ text.length := by
  have hFirst := (List.dropWhile_sublist isSpace (l := text)).length_le
  have hLast := (List.dropWhile_sublist isSpace (l := (text.dropWhile isSpace).reverse)).length_le
  simp only [strip, List.length_reverse] at hLast ⊢
  omega

/-- What neither begins nor ends with white space is its own `strip`. -/
theorem strip_eq_self (hHead : ∀ c, text.head? = some c → isSpace c = false)
    (hLast : ∀ c, text.getLast? = some c → isSpace c = false) : strip text = text := by
  have hDrop : ∀ l : List Char, (∀ c, l.head? = some c → isSpace c = false) → l.dropWhile isSpace = l := by
    intro l h
    cases l with
    | nil => rfl
    | cons c l => simp [h c rfl]
  rw [strip, hDrop text hHead, hDrop _ (by simpa using hLast), List.reverse_reverse]

theorem last_of_strip (h : (strip text).getLast? = some c) : isSpace c = false := by
  rw [strip, List.getLast?_reverse] at h
  have hNot := List.head?_dropWhile_not isSpace (text.dropWhile isSpace).reverse
  rw [h] at hNot
  simpa using hNot

theorem head_of_strip (h : (strip text).head? = some c) : isSpace c = false := by
  have hPrefix : strip text <+: text.dropWhile isSpace := List.rdropWhile_prefix isSpace _
  obtain ⟨rest, hRest⟩ := hPrefix
  have hNot := List.head?_dropWhile_not isSpace text
  rw [← hRest, List.head?_append, h] at hNot
  simpa using hNot

theorem strip_strip (text : List Char) : strip (strip text) = strip text :=
  strip_eq_self (fun _ hc => head_of_strip hc) fun _ hc => last_of_strip hc

/-- White space in front of a stripped text is taken off. -/
theorem strip_cons (hSpace : isSpace c = true) : strip (c :: text) = strip text := by
  simp [strip, hSpace]

theorem strip_ne_nil (hHead : text.head? = some c) (hSolid : isSpace c = false) : strip text ≠ [] := by
  intro hNil
  obtain ⟨rest, rfl⟩ : ∃ rest, text = c :: rest := by
    cases text with
    | nil => cases hHead
    | cons d rest => exact ⟨rest, by simpa using hHead⟩
  have hAll := List.rdropWhile_eq_nil_iff.mp hNil
  have hSpace := hAll c (by simp [hSolid])
  rw [hSolid] at hSpace
  cases hSpace

end Brnrd.Python

/-! Lines that are kept with what ends them, beside the lines of `splitlines`. -/
namespace Brnrd.Python

theorem flatten_keptFrom (line text : List Char) : (keptFrom line text).flatten = line ++ text := by
  fun_induction keptFrom line text with
  | case1 => rfl
  | case2 line h => simp
  | case3 line rest ih => simp [ih]
  | case4 line c rest h hc ih => simp [ih]
  | case5 line c rest h hc ih => simp [ih]

/-- A line that is kept whole is the line with what ends it. -/
def Kept (piece line : List Char) : Prop :=
  ∃ ends, line = piece ++ ends ∧ ∀ c ∈ ends, isLineBreak c = true

theorem splitFrom_returned {c : Char} {rest : List Char} (h : ∀ later, c = '\r' → rest = '\n' :: later → False) :
    splitFrom [] (c = '\r') rest = splitlines rest := by
  cases rest with
  | nil => rfl
  | cons d rest =>
      have hNot : (d = '\n' && decide (c = '\r')) = false := by
        by_contra hBoth
        simp only [Bool.not_eq_false, Bool.and_eq_true, decide_eq_true_eq] at hBoth
        exact h rest hBoth.2 (by rw [hBoth.1])
      simp only [splitlines, splitFrom, hNot, Bool.and_false]

/-- The lines of a text and the lines it is kept as. -/
theorem keptFrom_pieces (line text : List Char) : List.Forall₂ Kept (splitFrom line false text) (keptFrom line text) := by
  fun_induction keptFrom line text with
  | case1 => exact .nil
  | case2 line h =>
      rw [splitFrom, if_neg h]
      exact .cons ⟨[], (List.append_nil _).symm, List.forall_mem_nil _⟩ .nil
  | case3 line rest ih =>
      have hSplit : splitFrom line false ('\r' :: '\n' :: rest) = line :: splitFrom [] false rest := rfl
      rw [hSplit]
      exact .cons ⟨_, rfl, by decide⟩ ih
  | case4 line c rest h hc ih =>
      rw [splitFrom, if_neg (by simp), if_pos hc, splitFrom_returned h]
      exact .cons ⟨[c], rfl, fun d hd => by rwa [List.mem_singleton.mp hd]⟩ ih
  | case5 line c rest h hc ih =>
      rw [splitFrom, if_neg (by simp), if_neg hc]
      exact ih

theorem lines_tail (line text : List Char) :
    ∃ tail, (keptFrom line text).drop 1 = keptFrom [] tail ∧ (splitFrom line false text).drop 1 = splitlines tail := by
  fun_induction keptFrom line text with
  | case1 => exact ⟨[], rfl, rfl⟩
  | case2 line h => exact ⟨[], rfl, by rw [splitFrom, if_neg h]; rfl⟩
  | case3 line rest ih => exact ⟨rest, rfl, rfl⟩
  | case4 line c rest h hc ih =>
      rw [splitFrom, if_neg (by simp), if_pos hc, splitFrom_returned h]
      exact ⟨rest, rfl, rfl⟩
  | case5 line c rest h hc ih =>
      rw [splitFrom, if_neg (by simp), if_neg hc]
      exact ih

/-- Behind a number of lines a text goes on with the same lines, kept whole or not. -/
theorem lines_drop (n : Nat) (text : List Char) :
    ∃ tail, (keptFrom [] text).drop n = keptFrom [] tail ∧ (splitlines text).drop n = splitlines tail := by
  induction n generalizing text with
  | zero => exact ⟨text, rfl, rfl⟩
  | succ n ih =>
      obtain ⟨first, hKept, hLines⟩ := lines_tail [] text
      obtain ⟨tail, hKeptRest, hLinesRest⟩ := ih first
      refine ⟨tail, ?_, ?_⟩
      · rw [Nat.add_comm, ← List.drop_drop, hKept, hKeptRest]
      · rw [Nat.add_comm, ← List.drop_drop]
        exact (congrArg (List.drop n) hLines).trans hLinesRest

/-- Boundaries behind a line make lines that are empty. -/
theorem splitFrom_ends {ends : List Char} (h : ∀ c ∈ ends, isLineBreak c = true) (returned : Bool) (rest : List Char) :
    ∃ blanks, splitFrom [] returned (ends ++ '\n' :: rest) = blanks ++ splitlines rest ∧ ∀ line ∈ blanks, line = [] := by
  induction ends generalizing returned with
  | nil =>
      cases returned with
      | false => exact ⟨[[]], rfl, by simp⟩
      | true => exact ⟨[], rfl, by simp⟩
  | cons c ends ih =>
      rw [List.cons_append, splitFrom]
      split
      · exact ih (fun d hd => h d (List.mem_cons_of_mem _ hd)) false
      · obtain ⟨blanks, hSplit, hBlank⟩ := ih (fun d hd => h d (List.mem_cons_of_mem _ hd)) (c = '\r')
        rw [if_pos (h c List.mem_cons_self), hSplit]
        exact ⟨[] :: blanks, rfl, by simpa using hBlank⟩

theorem splitlines_ends {piece ends : List Char} (hPiece : OneLine piece) (hEnds : ∀ c ∈ ends, isLineBreak c = true)
    (rest : List Char) :
    ∃ blanks, splitlines (piece ++ ends ++ '\n' :: rest) = piece :: (blanks ++ splitlines rest) ∧ ∀ line ∈ blanks, line = [] := by
  cases ends with
  | nil =>
      rw [List.append_nil, splitlines_break hPiece (by decide)]
      exact ⟨[], rfl, by simp⟩
  | cons c ends =>
      obtain ⟨blanks, hSplit, hBlank⟩ :=
        splitFrom_ends (fun d hd => hEnds d (List.mem_cons_of_mem _ hd)) (c = '\r') rest
      rw [List.append_assoc, List.cons_append, splitlines_break hPiece (hEnds c List.mem_cons_self), hSplit]
      exact ⟨blanks, rfl, hBlank⟩

end Brnrd.Python
