import Brnrd.Guards.Glob

/-! Where the expression of a glob matches other paths than the glob stands for: a crossing
stops at a line feed, and a `**/` inside of a segment may be left out with its slash. -/
namespace Brnrd.Guards

open Globs

variable {pattern : List (List (Sign Char))}

theorem mem_signs {text : Text} {c : Char} (h : .exact c ∈ signs text) : c ∈ text := by
  induction text using signs.induct with
  | case1 rest ih =>
      rw [signs, List.mem_cons] at h
      exact List.mem_cons_of_mem _ (List.mem_cons_of_mem _ (ih (h.resolve_left (by simp))))
  | case2 rest hStar ih =>
      rw [signs.eq_2 rest hStar, List.mem_cons] at h
      exact List.mem_cons_of_mem _ (ih (h.resolve_left (by simp)))
  | case3 rest ih =>
      rw [signs, List.mem_cons] at h
      exact List.mem_cons_of_mem _ (ih (h.resolve_left (by simp)))
  | case4 first rest hCross hRun hOne ih =>
      rw [signs.eq_4 first rest hCross hRun hOne, List.mem_cons] at h
      rcases h with h | h
      · obtain rfl := Sign.exact.inj h
        exact List.mem_cons_self ..
      · exact List.mem_cons_of_mem _ (ih h)
  | case5 => cases h

/-- No segment has a slash among its letters. -/
theorem slash_not_mem_segments {glob : Text} {signs : List (Sign Char)} (h : signs ∈ segments glob) : .exact '/' ∉ signs := by
  rw [segments_eq] at h
  obtain ⟨part, hPart, rfl⟩ := List.mem_map.mp h
  exact fun hc => (Joined.mem_splitOn part hPart).1 (mem_signs hc)

/-- Some letter of a pattern is a line feed. -/
def Feeds (pattern : List (List (Sign Char))) : Prop :=
  ∃ signs ∈ pattern, .exact '\n' ∈ signs

instance (pattern : List (List (Sign Char))) : Decidable (Feeds pattern) :=
  inferInstanceAs (Decidable (∃ signs ∈ pattern, .exact '\n' ∈ signs))

theorem exact_mem_tokens {c : Char} (hOther : c ≠ '/') : .exact c ∈ tokens pattern ↔ ∃ signs ∈ pattern, .exact c ∈ signs := by
  have hSigns : ∀ signs : List (Sign Char), .exact c ∈ signs.map Piece.ofSign ↔ .exact c ∈ signs := by
    intro signs
    rw [List.mem_map]
    constructor
    · rintro ⟨sign, hSign, hSame⟩
      cases sign <;> cases hSame
      exact hSign
    · exact fun h => ⟨_, h, rfl⟩
  have hClosed : ∀ signs : List (Sign Char), .exact c ∈ closed signs ↔ .exact c ∈ signs := by
    intro signs
    unfold closed
    split
    · rename_i hLast
      obtain ⟨front, rfl⟩ := List.getLast?_eq_some_iff.mp hLast
      rw [List.dropLast_concat, List.mem_append, hSigns, List.mem_append]
      simp
    · rw [List.mem_append, hSigns]
      simp [hOther]
  induction pattern with
  | nil => simp [tokens]
  | cons first rest ih =>
      cases rest with
      | nil => simp [tokens, hSigns]
      | cons next rest =>
          rw [tokens, List.mem_append, hClosed]
          simp only [List.mem_cons, exists_eq_or_imp]
          exact or_congr_right (by simpa using ih)

/-- A path without a line feed is neither matched nor meant by a glob that has one. -/
theorem not_matched_of_feeds (hFeeds : Feeds pattern) {path : Text} (hLine : '\n' ∉ path) :
    ¬ spells Piece.takes (tokens pattern) path ∧ ¬ Reads '/' pattern path := by
  constructor
  · intro h
    obtain ⟨part, hPart, hTakes⟩ := spells_mem h ((exact_mem_tokens (by decide)).mpr hFeeds)
    have hSame : part = ['\n'] := by simpa [Piece.takes] using hTakes
    exact hLine (hPart.subset (hSame ▸ List.mem_singleton_self _))
  · intro h
    obtain ⟨signs, hSigns, hc⟩ := hFeeds
    exact hLine (mem_of_reads h hSigns hc)

/-- What each token takes at the least. -/
def Piece.least : Piece → Text
  | .one => ['a']
  | .exact c => [c]
  | _ => []

theorem takes_least (piece : Piece) : piece.takes piece.least := by
  cases piece <;> simp [Piece.takes, Piece.least]

/-- The least path that is matched has a slash for each segment that ends in no crossing. -/
theorem count_least (h : ∀ signs ∈ pattern, .exact '/' ∉ signs) :
    ((tokens pattern).flatMap Piece.least).count '/' = pattern.dropLast.countP (·.getLast? ≠ some .cross) := by
  have hSigns : ∀ signs : List (Sign Char), .exact '/' ∉ signs → ((signs.map Piece.ofSign).flatMap Piece.least).count '/' = 0 := by
    intro signs hNone
    rw [List.count_eq_zero, List.mem_flatMap]
    rintro ⟨piece, hPiece, hc⟩
    obtain ⟨sign, hSign, rfl⟩ := List.mem_map.mp hPiece
    cases sign with
    | exact c =>
        obtain rfl := List.mem_singleton.mp hc
        exact hNone hSign
    | _ => simp [Piece.ofSign, Piece.least] at hc
  induction pattern with
  | nil => rfl
  | cons first rest ih =>
      have hFirst := h first List.mem_cons_self
      cases rest with
      | nil => simpa [tokens] using hSigns first hFirst
      | cons next rest =>
          have hRest := ih fun signs hMem => h signs (List.mem_cons_of_mem _ hMem)
          rw [tokens, List.flatMap_append, List.count_append, hRest, List.dropLast_cons_of_ne_nil (List.cons_ne_nil next rest),
            List.countP_cons, closed]
          split
          · rename_i hLast
            have hFront := hSigns first.dropLast fun hc => hFirst (List.mem_of_mem_dropLast hc)
            rw [List.flatMap_append, List.count_append, hFront]
            simp [Piece.least, hLast]
          · rename_i hLast
            rw [List.flatMap_append, List.count_append, hSigns first hFirst]
            simp [Piece.least, hLast, Nat.add_comm]

/-- A path that is matched and not meant, where some `**/` is not a segment of its own:
the segment's end is left out, and the slash with it. -/
theorem not_reads_least (h : ∀ signs ∈ pattern, .exact '/' ∉ signs) (hOpen : ¬ Segmented pattern) :
    ¬ Reads '/' pattern ((tokens pattern).flatMap Piece.least) := by
  intro hReads
  have hCount := count_of_reads hReads
  rw [count_least h] at hCount
  obtain ⟨signs, hMem, hLast, hOther⟩ : ∃ signs ∈ pattern.dropLast, signs.getLast? = some .cross ∧ signs ≠ [.cross] := by
    simpa [Segmented] using hOpen
  obtain ⟨front, back, hSplit⟩ := List.append_of_mem hMem
  have hMono : ∀ l : List (List (Sign Char)), l.countP (·.getLast? ≠ some .cross) ≤ l.countP (· ≠ [.cross]) := fun l =>
    List.countP_mono_left fun other _ hEnd => by
      simp only [decide_eq_true_eq] at hEnd ⊢
      rintro rfl
      exact hEnd rfl
  have hFront := hMono front
  have hBack := hMono back
  simp only [ne_eq] at hFront hBack
  simp only [hSplit, List.countP_append, List.countP_cons, hLast, hOther, ne_eq, not_true_eq_false, decide_false,
    Bool.false_eq_true, if_false, not_false_eq_true, decide_true, if_true] at hCount
  omega

/-- How often a line feed stands right before a slash. -/
def falls : Text → ℕ
  | [] => 0
  | [_] => 0
  | a :: b :: rest => (if a = '\n' ∧ b = '/' then 1 else 0) + falls (b :: rest)

theorem falls_append (a b : Text) : falls a + falls b ≤ falls (a ++ b) ∧ falls (a ++ b) ≤ falls a + falls b + 1 := by
  induction a using falls.induct with
  | case1 => simp [falls]
  | case2 first =>
      cases b with
      | nil => simp [falls]
      | cons second rest =>
          rw [List.singleton_append, falls, falls]
          split <;> omega
  | case3 first second rest ih =>
      rw [List.cons_append, List.cons_append, falls, falls]
      rw [List.cons_append] at ih
      omega

theorem falls_of_not_mem {text : Text} (h : '\n' ∉ text ∨ '/' ∉ text) : falls text = 0 := by
  induction text using falls.induct with
  | case1 => rfl
  | case2 first => rfl
  | case3 first second rest ih =>
      have hHere : ¬ (first = '\n' ∧ second = '/') := by
        rintro ⟨rfl, rfl⟩
        simp at h
      rw [falls, if_neg hHere, ih (h.imp (fun hNot hc => hNot (List.mem_cons_of_mem _ hc))
        fun hNot hc => hNot (List.mem_cons_of_mem _ hc))]

/-- No token takes a line feed and then a slash. -/
theorem falls_of_takes (piece : Piece) (part : Text) (h : piece.takes part) : falls part = 0 := by
  cases piece with
  | folders =>
      rcases folders_takes.mp h with rfl | ⟨folders, rfl, hLine⟩
      · rfl
      · exact falls_of_not_mem (.inl (by simpa using hLine))
  | cross => exact falls_of_not_mem (.inl (by simpa [Piece.takes] using h))
  | run => exact falls_of_not_mem (.inr (by simpa [Piece.takes] using h))
  | one => exact falls_of_not_mem (.inr (by simpa [Piece.takes] using h : part.length = 1 ∧ '/' ∉ part).2)
  | exact c =>
      obtain rfl : part = [c] := by simpa [Piece.takes] using h
      rfl

/-- A text that falls at least so often. -/
def cascade : ℕ → Text
  | 0 => []
  | n + 1 => '\n' :: '/' :: cascade n

theorem le_falls_cascade (n : ℕ) : n ≤ falls (cascade n) := by
  induction n with
  | zero => exact Nat.zero_le _
  | succ n ih =>
      have hMore := (falls_append ['\n', '/'] (cascade n)).1
      have hOne : falls ['\n', '/'] = 1 := rfl
      rw [hOne] at hMore
      exact (by omega : n + 1 ≤ 1 + falls (cascade n)).trans hMore

/-- What each sign reads, with a cascade for a crossing. -/
def cascading (n : ℕ) : Sign Char → Text
  | .cross => cascade n
  | .run => []
  | .one => ['a']
  | .exact c => [c]

theorem reads_cascading (n : ℕ) (sign : Sign Char) : sign.reads '/' (cascading n sign) := by
  cases sign <;> simp [Sign.reads, cascading]

theorem falls_infix {a b : Text} (h : a <:+: b) : falls a ≤ falls b := by
  obtain ⟨front, back, rfl⟩ := h
  have hFront := (falls_append front a).1
  have hBack := (falls_append (front ++ a) back).1
  omega

/-- A path that is meant and not matched, where some sign crosses. -/
theorem exists_not_matched (hSome : pattern ≠ []) (hCrosses : Crosses pattern) :
    ∃ path, Reads '/' pattern path ∧ ¬ spells Piece.takes (tokens pattern) path := by
  obtain ⟨signs, hSigns, hCross⟩ := hCrosses
  refine ⟨_, reads_filled (reads_cascading ((tokens pattern).length + 1)) hSome, fun hMatched => ?_⟩
  have hMost := le_length_of_spells rfl (fun a b => (falls_append a b).2) (fun piece _ => falls_of_takes piece) hMatched
  have hSegment : cascade ((tokens pattern).length + 1) <:+: signs.flatMap (cascading ((tokens pattern).length + 1)) :=
    List.infix_of_mem_flatten (List.mem_map_of_mem hCross)
  have hJoined : signs.flatMap (cascading ((tokens pattern).length + 1)) <:+:
      ['/'].intercalate (pattern.map (·.flatMap (cascading ((tokens pattern).length + 1)))) :=
    Joined.infix_intercalate (List.mem_map_of_mem hSigns)
  have hPath := falls_infix (hSegment.trans hJoined)
  have hLeast := le_falls_cascade ((tokens pattern).length + 1)
  omega

/-- A glob's expression matches the paths that it stands for, of all paths where the glob
crosses no segment, and of those without a line feed where each of its `**/` is a segment of
its own. -/
theorem glob_regex_iff (glob : Text) :
    ((∀ path, globMatches glob path = globStands glob path) ↔ ¬ Crosses (segments glob)) ∧
    ((∀ path, '\n' ∉ path → globMatches glob path = globStands glob path) ↔
      Segmented (segments glob) ∨ Feeds (segments glob)) := by
  have hSome := segments_ne_nil glob
  have hStands : ∀ path, globMatches glob path = globStands glob path ↔
      (spells Piece.takes (tokens (segments glob)) path ↔ Reads '/' (segments glob) path) := by
    intro path
    rw [globMatches, globStands, glob_regex_eq, Bool.eq_iff_iff, segmentwise_iff hSome]
  simp only [hStands]
  refine ⟨⟨?_, ?_⟩, ?_, ?_⟩
  · intro hAll hCrosses
    obtain ⟨path, hReads, hNot⟩ := exists_not_matched hSome hCrosses
    exact hNot ((hAll path).mpr hReads)
  · exact fun hNone path => spells_tokens hSome (segmented_of_not_crosses hNone) (.inr hNone)
  · intro hAll
    by_contra hNot
    obtain ⟨hOpen, hFeeds⟩ := not_or.mp hNot
    have hLine : '\n' ∉ (tokens (segments glob)).flatMap Piece.least := by
      rw [List.mem_flatMap]
      rintro ⟨piece, hPiece, hc⟩
      cases piece with
      | exact c =>
          obtain rfl := List.mem_singleton.mp hc
          exact hFeeds ((exact_mem_tokens (by decide)).mp hPiece)
      | one => exact absurd hc (by decide)
      | _ => cases hc
    exact not_reads_least (fun signs => slash_not_mem_segments) hOpen
      ((hAll _ hLine).mp (spells_flatMap fun piece _ => takes_least piece))
  · rintro (hSegmented | hFeeds) path hLine
    · exact spells_tokens hSome hSegmented (.inl hLine)
    · obtain ⟨hMatched, hReads⟩ := not_matched_of_feeds hFeeds hLine
      exact ⟨fun h => (hMatched h).elim, fun h => (hReads h).elim⟩

/-- A path with a line feed in a folder that the glob crosses is missed, and a path without
the folder that the glob names is matched. -/
theorem glob_regex_misses :
    globStands "**/x".toList "a\nb/x".toList = true ∧ globMatches "**/x".toList "a\nb/x".toList = false ∧
    globStands "src**/x".toList "srcx".toList = false ∧ globMatches "src**/x".toList "srcx".toList = true := by
  decide +kernel

end Brnrd.Guards
