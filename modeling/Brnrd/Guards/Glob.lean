import Brnrd.Globs.Segmentwise
import Brnrd.Guards.Match

/-! The globs of a guard's paths: the expression that each becomes, and the paths that it
stands for. -/
namespace Brnrd.Guards

open Globs

/-- What `glob_regex` puts in its expression for one token. -/
inductive Piece
  | folders
  | cross
  | run
  | one
  | exact (c : Char)
  deriving DecidableEq

/-- `re.escape` puts a backslash before these. -/
def special : Text :=
  "()[]\x7b\x7d?*+-|^$\\.&~# \t\n\r".toList ++ [Char.ofNat 11, Char.ofNat 12]

def escape (c : Char) : Text :=
  if c ∈ special then ['\\', c] else [c]

def Piece.text : Piece → Text
  | .folders => "(?:.*/)?".toList
  | .cross => ".*".toList
  | .run => "[^/]*".toList
  | .one => "[^/]".toList
  | .exact c => escape c

/-- What the expression of a token matches: a `.` is any letter but a line feed. -/
def Piece.takes : Piece → Text → Bool
  | .folders, part => part.isEmpty || part.getLast? = some '/' && '\n' ∉ part
  | .cross, part => '\n' ∉ part
  | .run, part => '/' ∉ part
  | .one, part => part.length = 1 ∧ '/' ∉ part
  | .exact c, part => part = [c]

def pieces : Text → List Piece
  | '*' :: '*' :: '/' :: rest => .folders :: pieces rest
  | '*' :: '*' :: rest => .cross :: pieces rest
  | '*' :: rest => .run :: pieces rest
  | '?' :: rest => .one :: pieces rest
  | c :: rest => .exact c :: pieces rest
  | [] => []

/-- A glob that ends in `/` is the whole directory. -/
def whole (glob : Text) : Text :=
  if glob.getLast? = some '/' then glob ++ ['*', '*'] else glob

/-- `glob_regex`. -/
def glob_regex (glob : Text) : List Piece :=
  (pieces (whole glob)).dropWhile (· = .exact '/')

/-- `glob_regex(glob).match(path)`; its `\Z` is the end of the path. -/
def globMatches (glob path : Text) : Bool :=
  spells Piece.takes (glob_regex glob) path

/-- The signs of a segment of a glob. -/
def signs : Text → List (Sign Char)
  | '*' :: '*' :: rest => .cross :: signs rest
  | '*' :: rest => .run :: signs rest
  | '?' :: rest => .one :: signs rest
  | c :: rest => .exact c :: signs rest
  | [] => []

/-- A glob by its segments: what stands before the first name of it is ignored, and a
slash that ends it has a crossing behind it. -/
def segments (glob : Text) : List (List (Sign Char)) :=
  let parts := ((glob.dropWhile (· = '/')).splitOn '/').map signs
  if glob.getLast? = some '/' then parts.dropLast ++ [[.cross]] else parts

/-- The paths that a glob stands for. -/
def globStands (glob path : Text) : Bool :=
  segmentwise '/' (segments glob) (path.splitOn '/')

theorem segments_eq (glob : Text) : segments glob = (((whole glob).dropWhile (· = '/')).splitOn '/').map signs := by
  unfold segments whole
  dsimp only
  split_ifs with hFolder
  · obtain ⟨front, rfl⟩ := List.getLast?_eq_some_iff.mp hFolder
    by_cases hEmpty : front.dropWhile (· = '/') = []
    · have hDrop : ∀ more, (front ++ more).dropWhile (· = '/') = more.dropWhile (· = '/') := by
        intro more
        rw [List.dropWhile_append, hEmpty]
        rfl
      rw [List.append_assoc, hDrop, hDrop]
      decide
    · have hDrop : ∀ more, (front ++ more).dropWhile (· = '/') = front.dropWhile (· = '/') ++ more := by
        intro more
        rw [List.dropWhile_append, if_neg (by simpa only [List.isEmpty_iff] using hEmpty)]
      have hCross : ['*', '*'].splitOn '/' = [['*', '*']] := by decide
      rw [List.append_assoc, hDrop, hDrop, List.singleton_append, List.splitOn_append_cons_self, List.splitOn_append_cons_self,
        List.map_append, List.map_append, hCross, List.splitOn_nil, List.map_singleton, List.dropLast_concat]
      rfl
  · rfl

theorem segments_ne_nil (glob : Text) : segments glob ≠ [] := by
  rw [segments_eq]
  simp

/-- A slash before the first name is no token of the expression. -/
theorem dropWhile_pieces (glob : Text) : (pieces glob).dropWhile (· = .exact '/') = pieces (glob.dropWhile (· = '/')) := by
  induction glob with
  | nil => rfl
  | cons c glob ih =>
      by_cases hSlash : c = '/'
      · subst hSlash
        rw [pieces, List.dropWhile_cons_of_pos (by simp), List.dropWhile_cons_of_pos (by simp), ih]
        all_goals simp
      · rw [List.dropWhile_cons_of_neg (by simpa using hSlash)]
        unfold pieces
        split
        · rw [List.dropWhile_cons_of_neg (by simp)]
        · rw [List.dropWhile_cons_of_neg (by simp)]
        · rw [List.dropWhile_cons_of_neg (by simp)]
        · rw [List.dropWhile_cons_of_neg (by simp)]
        · rename_i hCons
          obtain ⟨rfl, rfl⟩ := List.cons.inj hCons
          rw [List.dropWhile_cons_of_neg (by simpa using hSlash)]
        · rename_i hCons
          cases hCons

def Piece.ofSign : Sign Char → Piece
  | .cross => .cross
  | .run => .run
  | .one => .one
  | .exact c => .exact c

variable {part rest text segment : Text}

theorem pieces_cross (h : rest.head? ≠ some '/') : pieces ('*' :: '*' :: rest) = .cross :: pieces rest := by
  rw [pieces]
  rintro _ rfl
  exact h rfl

theorem pieces_run (h : rest.head? ≠ some '*') : pieces ('*' :: rest) = .run :: pieces rest := by
  rw [pieces]
  · rintro _ rfl
    exact h rfl
  · rintro _ rfl
    exact h rfl

theorem pieces_exact {c : Char} (hStar : c ≠ '*') (hOne : c ≠ '?') (rest : Text) :
    pieces (c :: rest) = .exact c :: pieces rest := by
  rw [pieces]
  · exact fun _ h => (hStar h).elim
  · exact fun _ h => (hStar h).elim
  · exact hStar
  · exact hOne

/-- The tokens of a last segment are its signs. -/
theorem pieces_last (h : '/' ∉ segment) : pieces segment = (signs segment).map Piece.ofSign := by
  induction segment using signs.induct with
  | case1 rest ih =>
      rw [signs, List.map_cons, ← ih fun hc => h (by simp [hc])]
      exact pieces_cross fun hHead => h (by simp [List.mem_of_mem_head? hHead])
  | case2 rest hStar ih =>
      have hHead : rest.head? ≠ some '*' := fun hHead => hStar _ (List.eq_cons_of_mem_head? hHead)
      rw [signs.eq_2 rest hStar, List.map_cons, ← ih fun hc => h (by simp [hc])]
      exact pieces_run hHead
  | case3 rest ih =>
      rw [signs, List.map_cons, ← ih fun hc => h (by simp [hc]), pieces]
      rfl
  | case4 c rest hCross hRun hOne ih =>
      rw [signs.eq_4 c rest hCross hRun hOne, List.map_cons, ← ih fun hc => h (by simp [hc])]
      exact pieces_exact hRun hOne rest
  | case5 => rfl

theorem signs_ne_nil (c : Char) (rest : Text) : signs (c :: rest) ≠ [] := by
  unfold signs
  split <;> simp_all

/-- The tokens of a segment that a slash ends: a crossing at its end takes the slash. -/
def closed (signs : List (Sign Char)) : List Piece :=
  if signs.getLast? = some .cross then signs.dropLast.map Piece.ofSign ++ [.folders]
  else signs.map Piece.ofSign ++ [.exact '/']

theorem closed_cons {sign : Sign Char} {tail : List (Sign Char)} (h : tail ≠ [] ∨ sign ≠ .cross) :
    closed (sign :: tail) = Piece.ofSign sign :: closed tail := by
  cases tail with
  | nil =>
      have hOther : sign ≠ .cross := h.resolve_left fun hNil => hNil rfl
      rw [closed, if_neg (by simpa using hOther)]
      rfl
  | cons next tail =>
      unfold closed
      rw [List.getLast?_cons_cons, List.dropLast_cons_of_ne_nil (List.cons_ne_nil next tail)]
      split <;> rfl

theorem pieces_segment (h : '/' ∉ segment) (rest : Text) :
    pieces (segment ++ '/' :: rest) = closed (signs segment) ++ pieces rest := by
  induction segment using signs.induct with
  | case1 tail ih =>
      cases tail with
      | nil => rfl
      | cons c tail =>
          have hHead : (c :: tail ++ '/' :: rest).head? ≠ some '/' := fun hHead =>
            h (by simp [Option.some.inj hHead])
          rw [signs, closed_cons (.inl (signs_ne_nil c tail))]
          exact (pieces_cross hHead).trans (congrArg _ (ih fun hc => h (by simp [hc])))
  | case2 tail hStar ih =>
      have hHead : (tail ++ '/' :: rest).head? ≠ some '*' := by
        cases tail with
        | nil => simp
        | cons c tail => exact fun hHead => hStar tail (by simp [Option.some.inj hHead])
      rw [signs.eq_2 tail hStar, closed_cons (.inr (by simp))]
      exact (pieces_run hHead).trans (congrArg _ (ih fun hc => h (by simp [hc])))
  | case3 tail ih =>
      rw [signs, closed_cons (.inr (by simp)), List.cons_append, pieces]
      exact congrArg _ (ih fun hc => h (by simp [hc]))
  | case4 c tail hCross hRun hOne ih =>
      rw [signs.eq_4 c tail hCross hRun hOne, closed_cons (.inr (by simp))]
      exact (pieces_exact hRun hOne _).trans (congrArg _ (ih fun hc => h (by simp [hc])))
  | case5 => exact pieces_exact (by decide) (by decide) rest

/-- The tokens of a glob, segment by segment. -/
def tokens : List (List (Sign Char)) → List Piece
  | [] => []
  | [last] => last.map Piece.ofSign
  | signs :: next :: rest => closed signs ++ tokens (next :: rest)

theorem pieces_intercalate {parts : List Text} (hParts : parts ≠ []) (h : ∀ part ∈ parts, '/' ∉ part) :
    pieces (['/'].intercalate parts) = tokens (parts.map signs) := by
  induction parts with
  | nil => exact absurd rfl hParts
  | cons part parts ih =>
      have hPart := h part List.mem_cons_self
      cases parts with
      | nil =>
          rw [List.intercalate_singleton]
          exact pieces_last hPart
      | cons next parts =>
          rw [List.intercalate_cons_cons, List.append_assoc, List.singleton_append, pieces_segment hPart,
            ih (List.cons_ne_nil next parts) fun other hOther => h other (List.mem_cons_of_mem _ hOther)]
          rfl

/-- The expression of a glob is that of its segments. -/
theorem glob_regex_eq (glob : Text) : glob_regex glob = tokens (segments glob) := by
  rw [glob_regex, dropWhile_pieces, segments_eq,
    ← pieces_intercalate (List.splitOn_ne_nil '/' _) fun part hPart => (Joined.mem_splitOn part hPart).1,
    List.intercalate_splitOn]

/-- Some sign of a pattern crosses. -/
def Crosses (pattern : List (List (Sign Char))) : Prop :=
  ∃ signs ∈ pattern, .cross ∈ signs

/-- Each `**/` is a segment of its own. -/
def Segmented (pattern : List (List (Sign Char))) : Prop :=
  ∀ signs ∈ pattern.dropLast, signs.getLast? = some .cross → signs = [.cross]

instance (pattern : List (List (Sign Char))) : Decidable (Crosses pattern) :=
  inferInstanceAs (Decidable (∃ signs ∈ pattern, .cross ∈ signs))

instance (pattern : List (List (Sign Char))) : Decidable (Segmented pattern) :=
  inferInstanceAs (Decidable (∀ signs ∈ pattern.dropLast, signs.getLast? = some .cross → signs = [.cross]))

variable {pattern : List (List (Sign Char))}

theorem segmented_of_not_crosses (h : ¬ Crosses pattern) : Segmented pattern :=
  fun signs hSigns hLast => (h ⟨signs, List.mem_of_mem_dropLast hSigns, List.mem_of_getLast? hLast⟩).elim

theorem takes_ofSign {sign : Sign Char} (h : '\n' ∉ part ∨ sign ≠ .cross) :
    (Piece.ofSign sign).takes part = sign.reads '/' part := by
  cases sign with
  | cross => simpa [Piece.ofSign, Piece.takes, Sign.reads] using h
  | _ => rfl

theorem spells_signs {signs : List (Sign Char)} (h : '\n' ∉ text ∨ .cross ∉ signs) :
    spells Piece.takes (signs.map Piece.ofSign) text ↔ spells (Sign.reads '/') signs text := by
  refine spells_map fun sign hSign part hPart => takes_ofSign ?_
  rcases h with hLine | hCross
  · exact .inl fun hc => hLine (hPart.subset hc)
  · exact .inr fun hSame => hCross (hSame ▸ hSign)

theorem folders_takes : Piece.folders.takes part ↔ part = [] ∨ ∃ folders, part = folders ++ ['/'] ∧ '\n' ∉ folders := by
  simp only [Piece.takes, Bool.or_eq_true, List.isEmpty_iff, Bool.and_eq_true, decide_eq_true_eq]
  refine or_congr_right ⟨?_, ?_⟩
  · rintro ⟨hLast, hLine⟩
    obtain ⟨folders, rfl⟩ := List.getLast?_eq_some_iff.mp hLast
    exact ⟨folders, rfl, fun hc => hLine (List.mem_append_left _ hc)⟩
  · rintro ⟨folders, rfl, hLine⟩
    exact ⟨by simp, by simpa using hLine⟩

/-- The expression matches what the segments read, where each `**/` is a segment of its own
and no line feed has to be crossed. -/
theorem spells_tokens (hSome : pattern ≠ []) (hSegmented : Segmented pattern) (h : '\n' ∉ text ∨ ¬ Crosses pattern) :
    spells Piece.takes (tokens pattern) text ↔ Reads '/' pattern text := by
  induction pattern generalizing text with
  | nil => exact absurd rfl hSome
  | cons signs rest ih =>
      have hSigns : '\n' ∉ text ∨ .cross ∉ signs := h.imp_right fun hNone hc => hNone ⟨signs, List.mem_cons_self .., hc⟩
      cases rest with
      | nil => exact spells_signs hSigns
      | cons next rest =>
          have hNext : next :: rest ≠ [] := List.cons_ne_nil next rest
          have hFirst : signs ∈ (signs :: next :: rest).dropLast := by simp
          have hTail : Segmented (next :: rest) := fun other hOther =>
            hSegmented other (by rw [List.dropLast_cons_of_ne_nil hNext]; exact List.mem_cons_of_mem _ hOther)
          have hRest : ∀ part, part <:+: text → ('\n' ∉ part ∨ ¬ Crosses (next :: rest)) := fun part hPart =>
            h.imp (fun hLine hc => hLine (hPart.subset hc)) fun hNone ⟨other, hOther, hc⟩ =>
              hNone ⟨other, List.mem_cons_of_mem _ hOther, hc⟩
          rw [tokens, closed]
          by_cases hLast : signs.getLast? = some .cross
          · have hAlone := hSegmented signs hFirst hLast
            have hLine : '\n' ∉ text := h.resolve_right fun hNone => hNone ⟨signs, List.mem_cons_self .., List.mem_of_getLast? hLast⟩
            subst hAlone
            rw [if_pos hLast]
            refine spells_cons.trans ⟨?_, ?_⟩
            · rintro ⟨a, b, rfl, ha, hb⟩
              rcases folders_takes.mp ha with rfl | ⟨folders, rfl, -⟩
              · exact .inl ⟨rfl, (ih hNext hTail (hRest _ ⟨[], [], by simp⟩)).mp hb⟩
              · exact .inr ⟨folders, b, by simp, spells_crossing folders,
                  (ih hNext hTail (hRest _ ⟨folders ++ ['/'], [], by simp⟩)).mp hb⟩
            · rintro (⟨-, hRead⟩ | ⟨a, b, rfl, -, hb⟩)
              · exact ⟨[], text, rfl, folders_takes.mpr (.inl rfl), (ih hNext hTail (.inl hLine)).mpr hRead⟩
              · refine ⟨a ++ ['/'], b, by simp, folders_takes.mpr (.inr ⟨a, rfl, fun hc => hLine (by simp [hc])⟩), ?_⟩
                exact (ih hNext hTail (.inl fun hc => hLine (by simp [hc]))).mpr hb
          · rw [if_neg hLast, List.append_assoc, spells_append]
            constructor
            · rintro ⟨a, tail, rfl, ha, hTail'⟩
              obtain ⟨slash, b, rfl, hSlash, hb⟩ := spells_cons.mp hTail'
              obtain rfl : slash = ['/'] := by simpa [Piece.takes] using hSlash
              refine .inr ⟨a, b, rfl, (spells_signs ?_).mp ha, (ih hNext hTail (hRest b ⟨a ++ ['/'], [], by simp⟩)).mp hb⟩
              exact hSigns.imp_left fun hLine hc => hLine (List.mem_append_left _ hc)
            · rintro (⟨rfl, -⟩ | ⟨a, b, rfl, ha, hb⟩)
              · exact (hLast rfl).elim
              · refine ⟨a, '/' :: b, rfl, (spells_signs ?_).mpr ha, spells_cons.mpr ⟨['/'], b, rfl, rfl, ?_⟩⟩
                · exact hSigns.imp_left fun hLine hc => hLine (List.mem_append_left _ hc)
                · exact (ih hNext hTail (hRest b ⟨a ++ ['/'], [], by simp⟩)).mpr hb

end Brnrd.Guards
