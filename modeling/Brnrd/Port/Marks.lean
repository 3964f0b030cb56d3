import Brnrd.Port.Boundary

/-! How the boundary page is read: its lines may fall into several pieces, and
each piece says one thing whatever letter is open. -/
namespace Brnrd.Port

open Python

/-- What a line of the page is read as. -/
def pieces (line : List Char) : List (List Char) :=
  splitlines (line ++ ['\n'])

/-- The pieces behind the first, which no prefix of the line shields. -/
def strays (line : List Char) : List (List Char) :=
  (pieces line).tail

/-- A prefix on one line goes to the first piece. -/
theorem pieces_append {shield : List Char} (hOne : OneLine shield) (line : List Char) :
    ∃ first, OneLine first ∧ pieces (shield ++ line) = (shield ++ first) :: strays line := by
  have hBreak : ¬OneLine (line ++ ['\n']) := fun h => h.newline (by simp)
  obtain ⟨first, c, rest, hSplit, hFirst, hc⟩ := first_break hBreak
  refine ⟨first, hFirst, ?_⟩
  have hText : shield ++ line ++ ['\n'] = (shield ++ first) ++ c :: rest := by
    rw [List.append_assoc, hSplit, List.append_assoc]
  rw [strays, pieces, pieces, hText, hSplit, splitlines_break (hOne.append hFirst) hc, splitlines_break hFirst hc,
    List.tail_cons]

variable {line mark : List Char}

theorem pieces_oneLine (h : OneLine line) : pieces line = [line] := by
  rw [pieces, splitlines_break h (by decide)]
  rfl

theorem strays_oneLine (h : OneLine line) : strays line = [] := by
  rw [strays, pieces_oneLine h, List.tail_cons]

/-- The lines of a page that ends in a newline. -/
theorem splitlines_page (lines : List (List Char)) : splitlines (joinLines (lines ++ [[]])) = lines.flatMap pieces := by
  induction lines with
  | nil => rfl
  | cons line lines ih =>
      cases lines with
      | nil =>
          rw [List.singleton_append, joinLines_cons_cons, joinLines_singleton, splitlines_newline]
          simp [pieces, splitlines, splitFrom]
      | cons next lines =>
          rw [List.cons_append] at ih
          rw [List.cons_append, List.cons_append, joinLines_cons_cons, splitlines_newline, ih]
          rfl

/-- What a line of the page says, whatever letter is open. -/
inductive Mark where
  | silent
  | word (ident at_ : List Char)
  | settled (text : List Char)
  | item (letter : LetterView)
  | bad (error : BoundaryError)

def markOf (line : List Char) : Mark :=
  if firstMark.isPrefixOf line then
    match splitThree line with
    | some (_, ident, at_) => .word ident at_
    | none => .bad .unpack
  else if settledMark.isPrefixOf line then .settled (settledIn line)
  else if itemMark.isPrefixOf line then
    match matchItem line with
    | some letter => .item letter
    | none => .bad (.notALetter line)
  else .silent

/-- What the page says so far, without the letters' bodies. -/
structure Sketch where
  ids : List (List Char)
  settled : Option (List Char)
  firstWords : List (List Char × List Char)

def Sketch.read (k : Sketch) : Mark → Except BoundaryError Sketch
  | .silent => .ok k
  | .word ident at_ => .ok { k with firstWords := putWord ident at_ k.firstWords }
  | .settled text => .ok { k with settled := some text }
  | .item letter => .ok { k with ids := k.ids ++ [letter.id] }
  | .bad error => .error error

def Reading.sketch (s : Reading) : Sketch :=
  ⟨s.letters.map (·.id), s.settled, s.firstWords⟩

theorem continueLast_ids (line : List Char) (letters : List LetterView) :
    (continueLast line letters).map (·.id) = letters.map (·.id) := by
  induction letters with
  | nil => rfl
  | cons letter letters ih =>
      cases letters with
      | nil => rfl
      | cons next letters => simpa [continueLast] using ih

theorem not_head_start {c : Char} (hMark : mark.head? = some c) (hLine : line.head? ≠ some c) :
    mark.isPrefixOf line = false := by
  apply Bool.eq_false_iff.mpr
  intro hPrefix
  obtain ⟨rest, rfl⟩ := List.isPrefixOf_iff_prefix.mp hPrefix
  rw [List.head?_append, hMark] at hLine
  exact hLine rfl

theorem firstMark_head : firstMark.head? = some 'f' := by decide

theorem settledMark_head : settledMark.head? = some 's' := by decide

theorem itemMark_head : itemMark.head? = some '-' := by decide

/-- A continuation line says nothing. -/
theorem markOf_indent (line : List Char) : markOf (indent line) = .silent := by
  have hBlank : (indent line).head? = some ' ' := rfl
  rw [markOf, not_head_start firstMark_head (by rw [hBlank]; decide),
    not_head_start settledMark_head (by rw [hBlank]; decide),
    not_head_start itemMark_head (by rw [hBlank]; decide)]
  rfl

theorem readBoundaryLine_sketch (s : Reading) (line : List Char) :
    (readBoundaryLine s line).map Reading.sketch = s.sketch.read (markOf line) := by
  by_cases hIndent : ([' ', ' '].isPrefixOf line && s.current) = true
  · rw [readBoundaryLine, if_pos hIndent]
    obtain ⟨hSpaces, -⟩ := Bool.and_eq_true_iff.mp hIndent
    obtain ⟨rest, hRest⟩ := List.isPrefixOf_iff_prefix.mp hSpaces
    have hSilent : markOf line = .silent := by
      rw [← hRest]
      exact markOf_indent rest
    rw [hSilent]
    exact congrArg Except.ok (congrArg (Sketch.mk · s.settled s.firstWords) (continueLast_ids _ _))
  · rw [readBoundaryLine, if_neg hIndent, markOf]
    generalize firstMark.isPrefixOf line = isFirst
    generalize settledMark.isPrefixOf line = isSettled
    generalize itemMark.isPrefixOf line = isItem
    generalize splitThree line = parts
    generalize matchItem line = found
    cases isFirst with
    | true => cases parts <;> rfl
    | false =>
        cases isSettled with
        | true => rfl
        | false =>
            cases isItem with
            | false => rfl
            | true =>
                cases found with
                | none => rfl
                | some letter => simp [Except.map, Reading.sketch, Sketch.read]

theorem start_head {c : Char} (hMark : mark.head? = some c) (h : mark.isPrefixOf line = true) : line.head? = some c := by
  by_contra hHead
  rw [not_head_start hMark hHead] at h
  cases h

theorem markOf_first (h : firstMark.isPrefixOf line = true) :
    markOf line = match splitThree line with
      | some (_, ident, at_) => .word ident at_
      | none => .bad .unpack := by
  rw [markOf, if_pos h]

theorem markOf_settled (h : settledMark.isPrefixOf line = true) : markOf line = .settled (settledIn line) := by
  have hHead := start_head settledMark_head h
  rw [markOf, not_head_start firstMark_head (by rw [hHead]; decide), if_neg (by simp), if_pos h]

theorem markOf_item (h : itemMark.isPrefixOf line = true) :
    markOf line = match matchItem line with
      | some letter => .item letter
      | none => .bad (.notALetter line) := by
  have hHead := start_head itemMark_head h
  rw [markOf, not_head_start firstMark_head (by rw [hHead]; decide),
    not_head_start settledMark_head (by rw [hHead]; decide), if_neg (by simp), if_neg (by simp), if_pos h]

/-- How a line comes by its mark. -/
inductive Means (line : List Char) : Mark → Prop where
  | word {mark ident at_ : List Char} (h : firstMark.isPrefixOf line = true)
      (hSplit : splitThree line = some (mark, ident, at_)) : Means line (.word ident at_)
  | unpack (h : firstMark.isPrefixOf line = true) (hSplit : splitThree line = none) : Means line (.bad .unpack)
  | settled (h : settledMark.isPrefixOf line = true) : Means line (.settled (settledIn line))
  | item {letter : LetterView} (h : itemMark.isPrefixOf line = true) (hItem : matchItem line = some letter) :
      Means line (.item letter)
  | notALetter (h : itemMark.isPrefixOf line = true) (hItem : matchItem line = none) :
      Means line (.bad (.notALetter line))
  | silent (hFirst : firstMark.isPrefixOf line = false) (hSettled : settledMark.isPrefixOf line = false)
      (hItem : itemMark.isPrefixOf line = false) : Means line .silent

theorem means (line : List Char) : Means line (markOf line) := by
  cases hFirst : firstMark.isPrefixOf line with
  | true =>
      rw [markOf_first hFirst]
      cases hSplit : splitThree line with
      | none => exact .unpack hFirst hSplit
      | some parts => exact .word hFirst hSplit
  | false =>
      cases hSettled : settledMark.isPrefixOf line with
      | true =>
          rw [markOf_settled hSettled]
          exact .settled hSettled
      | false =>
          cases hItem : itemMark.isPrefixOf line with
          | true =>
              rw [markOf_item hItem]
              cases hMatch : matchItem line with
              | none => exact .notALetter hItem hMatch
              | some letter => exact .item hItem hMatch
          | false =>
              rw [markOf, hFirst, hSettled, hItem]
              exact .silent hFirst hSettled hItem

def Mark.speaks : Mark → Bool
  | .silent => false
  | _ => true

def Mark.itemId : Mark → Option (List Char)
  | .item letter => some letter.id
  | _ => none

def Mark.settledText : Mark → Option (List Char)
  | .settled text => some text
  | _ => none

def Mark.ident : Mark → Option (List Char)
  | .word ident _ => some ident
  | _ => none

/-- What the lines of a page say, the silent ones left out. -/
def loud (lines : List (List Char)) : List Mark :=
  (lines.map markOf).filter Mark.speaks

theorem loud_append (a b : List (List Char)) : loud (a ++ b) = loud a ++ loud b := by
  rw [loud, List.map_append, List.filter_append]
  rfl

theorem loud_cons (line : List Char) (lines : List (List Char)) : loud (line :: lines) = loud [line] ++ loud lines :=
  loud_append [line] lines

theorem loud_silent {lines : List (List Char)} (h : ∀ line ∈ lines, markOf line = .silent) : loud lines = [] := by
  induction lines with
  | nil => rfl
  | cons line lines ih =>
      rw [loud_cons, ih fun l hl => h l (List.mem_cons_of_mem _ hl), loud, List.map_singleton, h line (by simp)]
      rfl

theorem loud_flatMap {α : Type} (l : List α) (f : α → List (List Char)) :
    loud (l.flatMap f) = l.flatMap fun a => loud (f a) := by
  induction l with
  | nil => rfl
  | cons a l ih => rw [List.flatMap_cons, loud_append, ih, List.flatMap_cons]

/-- Reading the lines sketches their marks. -/
theorem readLines_loud (lines : List (List Char)) (s : Reading) :
    (lines.foldlM readBoundaryLine s).map Reading.sketch = (loud lines).foldlM Sketch.read s.sketch := by
  have hMap : (lines.foldlM readBoundaryLine s).map Reading.sketch =
      lines.foldlM (fun k line => k.read (markOf line)) s.sketch :=
    Fallible.foldlM_map readBoundaryLine_sketch lines s
  rw [hMap]
  generalize s.sketch = k
  clear hMap s
  induction lines generalizing k with
  | nil => rfl
  | cons line lines ih =>
      rw [List.foldlM_cons, loud, List.map_cons]
      cases hMark : markOf line with
      | silent => exact ih k
      | bad error => rfl
      | word ident at_ => exact ih _
      | settled text => exact ih _
      | item letter => exact ih _

theorem mem_putWord {key value ident : List Char} (items : List (List Char × List Char)) :
    ident ∈ (putWord key value items).map Prod.fst ↔ ident ∈ items.map Prod.fst ∨ ident = key := by
  induction items with
  | nil => simp [putWord]
  | cons item items ih =>
      rw [putWord]
      split
      · rename_i hSame
        rw [List.map_cons, List.map_cons, hSame]
        simp only [List.mem_cons]
        tauto
      · rw [List.map_cons, List.map_cons, List.mem_cons, ih, List.mem_cons, or_assoc]

/-- What a run over marks that does not raise leaves. -/
theorem run_spec {marks : List Mark} {k k' : Sketch} (h : marks.foldlM Sketch.read k = .ok k') :
    (∀ error, .bad error ∉ marks) ∧ k'.ids = k.ids ++ marks.filterMap Mark.itemId ∧
      k'.settled = (marks.filterMap Mark.settledText).getLast?.or k.settled ∧
      ∀ ident, ident ∈ k'.firstWords.map Prod.fst ↔
        ident ∈ k.firstWords.map Prod.fst ∨ ident ∈ marks.filterMap Mark.ident := by
  induction marks generalizing k with
  | nil =>
      cases h
      simp
  | cons mark marks ih =>
      rw [List.foldlM_cons] at h
      obtain ⟨middle, hRead, hRest⟩ := Fallible.peel h
      obtain ⟨hBad, hIds, hSettled, hWords⟩ := ih hRest
      cases mark with
      | silent =>
          cases hRead
          exact ⟨by simpa using hBad, hIds, hSettled, hWords⟩
      | bad error => cases hRead
      | word ident at_ =>
          cases hRead
          refine ⟨by simpa using hBad, hIds, hSettled, ?_⟩
          intro other
          rw [hWords other, mem_putWord]
          simp only [Mark.ident, List.filterMap_cons, List.mem_cons]
          tauto
      | settled text =>
          cases hRead
          refine ⟨by simpa using hBad, hIds, ?_, hWords⟩
          rw [hSettled]
          simp only [Mark.settledText, List.filterMap_cons, List.getLast?_cons]
          cases (marks.filterMap Mark.settledText).getLast? <;> rfl
      | item letter =>
          cases hRead
          refine ⟨by simpa using hBad, ?_, hSettled, hWords⟩
          rw [hIds]
          simp [Mark.itemId]

theorem run_ok {marks : List Mark} (h : ∀ error, .bad error ∉ marks) (k : Sketch) :
    ∃ k', marks.foldlM Sketch.read k = .ok k' := by
  induction marks generalizing k with
  | nil => exact ⟨k, rfl⟩
  | cons mark marks ih =>
      have hRest := fun k => ih (fun error hMem => h error (List.mem_cons_of_mem _ hMem)) k
      rw [List.foldlM_cons]
      cases mark with
      | bad error => exact absurd List.mem_cons_self (h error)
      | silent => exact hRest _
      | word => exact hRest _
      | settled => exact hRest _
      | item => exact hRest _

end Brnrd.Port
