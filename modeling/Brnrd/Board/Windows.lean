import Brnrd.Board.Room

/-! When a part in hand is a stretch of the newest letters of a thread: a window is one, and
so is what the client makes of it, where the letters it keeps stand in front of the window. -/
namespace Brnrd.Board

variable {ι J : Type}

/-- A stretch of a thread's newest letters, which says that there is no more only when it
has them all. -/
structure ThreadPart.Of (part : ThreadPart ι J) (thread : Thread ι J) : Prop where
  suffix : part.letters <:+ thread.letters
  all : part.more = false → part.letters = thread.letters

variable {thread : Thread ι J}

theorem ThreadPart.Of.drop {part : ThreadPart ι J} {start : ℕ} (hLetters : part.letters = thread.letters.drop start)
    (hMore : part.more = decide (0 < start)) : part.Of thread := by
  refine ⟨hLetters ▸ List.drop_suffix .., fun hAll => ?_⟩
  rw [hAll] at hMore
  have hZero : start = 0 := Nat.eq_zero_of_not_pos (of_decide_eq_false hMore.symm)
  rw [hLetters, hZero, List.drop_zero]

variable [DecidableEq ι]

theorem window_letters (thread : Thread ι J) (before target : Option ι) :
    (window thread before target).letters =
      (thread.letters.take (cutEnd (thread.letters.map Letter.id) before)).drop
        (cutStart (thread.letters.map Letter.id) before target) :=
  rfl

theorem window_more (thread : Thread ι J) (before target : Option ι) :
    (window thread before target).more = decide (0 < cutStart (thread.letters.map Letter.id) before target) :=
  rfl

theorem window_of (thread : Thread ι J) : (window thread none none).Of thread := by
  refine .drop ?_ (window_more thread none none)
  rw [window_letters, cutEnd, List.length_map, List.take_length]

section Keep

variable [DecidableEq J] [LT ι] [DecidableLT ι]

/-- The letters kept stand directly in front of the window, and reach back to the first
letter if the part had them all. -/
def Joins (was : Option (ThreadPart ι J)) (got : ThreadPart ι J) (thread : Thread ι J) : Prop :=
  ∀ old ∈ was, ∀ first ∈ got.letters.head?, got.more = true → prior old got first ≠ [] →
    prior old got first ++ got.letters <:+ thread.letters ∧
      (old.more = false → prior old got first ++ got.letters = thread.letters)

instance (was : Option (ThreadPart ι J)) (got : ThreadPart ι J) (thread : Thread ι J) : Decidable (Joins was got thread) := by
  unfold Joins
  infer_instance

omit [DecidableEq J] in
theorem keep_of {was : Option (ThreadPart ι J)} {got : ThreadPart ι J} {thread : Thread ι J} (hGot : got.Of thread)
    (h : Joins was got thread) : (keep was got).Of thread := by
  unfold keep
  split
  · rename_i was first hFirst
    split
    · exact hGot
    · rename_i hKept
      rw [not_or, Bool.not_eq_false] at hKept
      obtain ⟨hSuffix, hAll⟩ := h was rfl first hFirst hKept.1 hKept.2
      exact ⟨hSuffix, hAll⟩
  · exact hGot

end Keep

/-- The letters of a thread in front of those of a part. -/
def front (part : ThreadPart ι J) (thread : Thread ι J) : List (Letter ι J) :=
  thread.letters.take (thread.letters.length - part.letters.length)

omit [DecidableEq ι] in
theorem front_append {part : ThreadPart ι J} (h : part.Of thread) : front part thread ++ part.letters = thread.letters := by
  obtain ⟨before, hThread⟩ := h.suffix
  rw [front, ← hThread, List.length_append, Nat.add_sub_cancel, List.take_left]

/-- Where the server answers `older`: in the place of the letters in front of the part it
has as many, from the start of the cut on the very same and none of them held, and what
else it answers is held. -/
structure Older.Reads (older : Older ι J) (thread : Thread ι J) : Prop where
  length : (front older.part older.origin).length ≤ thread.letters.length
  reach : (front older.part older.origin).length ≤ cutEnd (thread.letters.map Letter.id) older.before
  same : (thread.letters.take (front older.part older.origin).length).drop
      (cutStart (thread.letters.map Letter.id) older.before older.target) =
    (front older.part older.origin).drop (cutStart (thread.letters.map Letter.id) older.before older.target)
  fresh : ∀ l ∈ front older.part older.origin, l.id ∉ older.part.letters.map Letter.id
  held : ∀ l ∈ (thread.letters.take (cutEnd (thread.letters.map Letter.id) older.before)).drop
    (front older.part older.origin).length, l.id ∈ older.part.letters.map Letter.id

theorem lengthen_of {older : Older ι J} (hPart : older.part.Of older.origin) (h : older.Reads thread) :
    (lengthen older.part (window thread older.before older.target)).Of older.origin := by
  let size := (front older.part older.origin).length
  let start := cutStart (thread.letters.map Letter.id) older.before older.target
  let rows := thread.letters.take (cutEnd (thread.letters.map Letter.id) older.before)
  -- the cut is what it has in front of the part, then letters of the part
  have hRows : rows = thread.letters.take size ++ rows.drop size := by
    conv_lhs => rw [← List.take_append_drop size rows]
    rw [List.take_take, Nat.min_eq_left h.reach]
  have hLength : (thread.letters.take size).length = size := List.length_take_of_le h.length
  have hHeld : ((rows.drop size).drop (start - size)).filter (fun l => l.id ∉ older.part.letters.map Letter.id) = [] := by
    rw [List.filter_eq_nil_iff]
    intro l hl
    have hId := h.held l (List.mem_of_mem_drop hl)
    simpa using hId
  have hFresh : ((front older.part older.origin).drop start).filter
      (fun l => l.id ∉ older.part.letters.map Letter.id) = (front older.part older.origin).drop start := by
    rw [List.filter_eq_self]
    intro l hl
    have hId := h.fresh l (List.mem_of_mem_drop hl)
    simpa using hId
  have hCut : (rows.drop start).filter (fun l => l.id ∉ older.part.letters.map Letter.id) =
      (front older.part older.origin).drop start := by
    rw [hRows, List.drop_append, hLength, List.filter_append, hHeld, List.append_nil]
    rw [show (thread.letters.take size).drop start = _ from h.same]
    exact hFresh
  have hLetters : (lengthen older.part (window thread older.before older.target)).letters =
      (front older.part older.origin).drop start ++ older.part.letters := by
    rw [lengthen, window_letters]
    exact congrArg (· ++ _) hCut
  have hWhole := front_append hPart
  refine ⟨?_, fun hAll => ?_⟩
  · rw [hLetters, ← hWhole]
    obtain ⟨before, hBefore⟩ := List.drop_suffix start (front older.part older.origin)
    exact ⟨before, by rw [← List.append_assoc, hBefore]⟩
  · have hMore : decide (0 < start) = false := hAll
    have hZero : start = 0 := Nat.eq_zero_of_not_pos (of_decide_eq_false hMore)
    rw [hLetters, hZero, List.drop_zero, hWhole]

end Brnrd.Board
