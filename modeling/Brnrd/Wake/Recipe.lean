import Brnrd.Python.Lines

/-! The packaged wake recipe: what it prints of the texts it has read, within a number
of bytes. -/
namespace Brnrd.Wake

open Python

abbrev Text := List Char

def ensureNl (text : Text) : Text :=
  if text.getLast? = some '\n' then text else text ++ ['\n']

/-- `section`. -/
def sectionOf (title body : Text) : Text :=
  "## ".toList ++ title ++ ['\n'] ++ ensureNl body

/-- A `## ` section of a page: its heading, and its lines. -/
structure Part where
  title : Text
  body : List Text

def Part.whole (part : Part) : Text :=
  part.title ++ part.body.flatten

/-- The lines above the first heading, and the sections. -/
def cutSections : List Text → List Text × List Part
  | [] => ([], [])
  | line :: rest =>
      let (above, parts) := cutSections rest
      if "## ".toList.isPrefixOf line then ([], ⟨line, above⟩ :: parts) else (line :: above, parts)

def isNow (part : Part) : Bool :=
  (strip part.title).map Char.toLower = "## now".toList

/-- What stands in the place of a folded section's lines. -/
def foldNote (bytes : Nat) : Text :=
  "[the wake folded this section's ".toList ++ (toString bytes).toList ++
    " bytes to its title; it is whole on disk]".toList ++ ['\n']

/-- The sections, last first, each with the note it is folded to. A section that is
not longer than its note is left. -/
def foldFrom (excess : Nat) : Nat → List Part → List (Part × Option Text)
  | _, [] => []
  | saved, part :: rest =>
      let bytes := size part.body.flatten
      let note := foldNote bytes
      if isNow part then (part, none) :: foldFrom excess saved rest
      else if excess ≤ saved then (part :: rest).map (·, none)
      else if bytes ≤ size note then (part, none) :: foldFrom excess saved rest
      else (part, some note) :: foldFrom excess (saved + (bytes - size note)) rest

def printFolded (item : Part × Option Text) : Text :=
  item.1.title ++ item.2.getD item.1.body.flatten

def fold (readme : Text) (excess : Nat) : Text :=
  let (above, parts) := cutSections (keptFrom [] readme)
  above.flatten ++ (foldFrom excess 0 parts.reverse).reverse.flatMap printFolded

/-- What says how much of the README is cut. -/
def receipt (cut whole limit : Nat) : Text :=
  "[the wake cut ".toList ++ (toString cut).toList ++ " of this README's ".toList ++ (toString whole).toList ++
    " bytes from its end to fit the ".toList ++ (toString limit).toList ++
    "-byte budget; the file is whole on disk: trim it]".toList ++ ['\n']

def clip (readme : Text) (excess limit : Nat) : Text :=
  let keep := size readme - (excess + size (receipt (size readme) (size readme) limit))
  let kept := (takeBytes keep readme).rdropWhile (· ≠ '\n')
  kept ++ receipt (size readme - size kept) (size readme) limit

/-- The texts the recipe has read and rendered, and the lines of the tree, newest
first. -/
structure Given where
  thread : Text
  identity : Text
  stance : Text
  readme : Text
  notes : Text
  people : Text
  topics : Text
  loom : Text
  occasion : Text
  tree : List Text

def coreText (given : Given) : Text :=
  sectionOf "core/identity.md".toList given.identity ++ sectionOf "memory/stance.md".toList given.stance

/-- The parts that are never cut but for the README, by name. -/
structure Parts where
  core : Text
  readme : Text
  notes : Text
  people : Text
  topics : Text
  loom : Text
  occasion : Text

/-- The README that is printed where the parts are too long by `excess` bytes. -/
def cutReadme (readme : Text) (excess limit : Nat) : Text :=
  if excess = 0 then readme
  else
    let folded := fold readme excess
    if excess + size folded ≤ size readme then folded
    else clip folded (excess + size folded - size readme) limit

def readmePath (given : Given) : Text :=
  "threads/".toList ++ given.thread ++ "/README.md".toList

def fixedParts (given : Given) (excess limit : Nat) : Parts where
  core := coreText given
  readme := sectionOf (readmePath given) (cutReadme given.readme excess limit)
  notes := given.notes
  people := given.people
  topics := given.topics
  loom := sectionOf "Loom".toList given.loom
  occasion := given.occasion

def Parts.head (parts : Parts) : Text :=
  parts.core ++ parts.readme ++ parts.notes

def Parts.tail (parts : Parts) : Text :=
  parts.people ++ parts.topics ++ parts.loom ++ parts.occasion

def Parts.fixed (parts : Parts) : Text :=
  parts.head ++ parts.tail

/-- `write_sizes`. -/
def sizesOf (parts : Parts) (tree : Text) : List (String × Nat) :=
  [("core", size parts.core), ("readme", size parts.readme), ("notes", size parts.notes),
    ("people", size parts.people), ("topics", size parts.topics), ("loom", size parts.loom),
    ("occasion", size parts.occasion), ("tree", size tree)]

/-- `piece_sizes`. -/
def pieceSizes (text : Text) : List (Text × Nat) :=
  let (above, parts) := cutSections (keptFrom [] text)
  (if above = [] then [] else [("preamble".toList, size above.flatten)]) ++
    parts.map fun part => (strip (part.title.drop 3), size part.whole)

def treeBody (lines : List Text) (count : Nat) : Text :=
  "## Tree\n".toList ++ (lines.take count).flatMap (· ++ ['\n'])

/-- The most of the tree's first lines that fit, from a number of them down. -/
def fitFrom (fixed : Text) (lines : List Text) (limit : Nat) : Nat → Option Nat
  | 0 => if size (fixed ++ treeBody lines 0) ≤ limit then some 0 else none
  | count + 1 =>
      if size (fixed ++ treeBody lines (count + 1)) ≤ limit then some (count + 1)
      else fitFrom fixed lines limit count

/-- The one line that names what is left out of the tree. -/
def omittedLine (omitted : Nat) : Text :=
  if omitted = 0 then []
  else "omitted ".toList ++ (toString omitted).toList ++ " entries; each is one read away\n".toList

def fitTree (fixed : Text) (lines : List Text) (limit : Nat) : Text :=
  match fitFrom fixed lines limit lines.length with
  | some kept => treeBody lines kept ++ omittedLine (lines.length - kept)
  | none => omittedLine lines.length

/-- How the recipe ends: it has printed, and written the core and the sizes where it
was told to; or it has said why not. -/
inductive Outcome where
  | printed (core : Option Text) (out : Text) (sizes : List (String × Nat))
  | died (code : Nat) (why : Text)

def overBudget (fixed : Text) (limit : Nat) : Text :=
  let total := size fixed
  let largest := ((pieceSizes fixed).mergeSort fun a b => b.2 ≤ a.2).take 4
  let named := (", ".toList).intercalate (largest.map fun item => item.1 ++ [' '] ++ (toString item.2).toList ++ ['B'])
  "over budget: the wake is ".toList ++ (toString total).toList ++ "B, ".toList ++ (toString (total - limit)).toList ++
    "B over its ".toList ++ (toString limit).toList ++
    "B budget, more than cutting the thread README can give. Largest parts: ".toList ++ named ++
    ". core/identity.md, memory/stance.md and the letters are never cut.".toList

/-- `main`, from the texts it has read on. -/
def main (given : Given) (limit : Nat) (toCore : Bool) : Outcome :=
  let first := fixedParts given 0 0
  let total := size first.fixed
  let parts := if limit < total then fixedParts given (total - limit) limit else first
  if limit < size parts.fixed then .died 3 (overBudget parts.fixed limit)
  else
    let tree := fitTree parts.fixed given.tree limit
    let out := parts.head ++ tree ++ parts.tail
    if toCore then .printed (some (coreText given)) (out.drop (coreText given).length) (sizesOf parts tree)
    else .printed none out (sizesOf parts tree)

end Brnrd.Wake

/-! The wake stays in its budget: what a fold and a cut of the README save, and what is
left where they save too little. -/
namespace Brnrd.Wake

open Python

/-- The sections of a page are all of it, and each has a heading. -/
theorem cutSections_whole (lines : List Text) :
    (cutSections lines).1.flatten ++ (cutSections lines).2.flatMap Part.whole = lines.flatten ∧
      ∀ part ∈ (cutSections lines).2, part.title ≠ [] := by
  induction lines with
  | nil => exact ⟨rfl, nofun⟩
  | cons line rest ih =>
      simp only [cutSections]
      split
      · rename_i hHead
        refine ⟨by simp [Part.whole, ← ih.1], fun part hPart => ?_⟩
        rcases List.mem_cons.mp hPart with rfl | hPart
        · intro hNil
          have hEmpty : line = [] := hNil
          rw [hEmpty] at hHead
          revert hHead
          decide
        · exact ih.2 part hPart
      · exact ⟨by simp [← ih.1], ih.2⟩

theorem foldNote_ends (bytes : Nat) : (foldNote bytes).getLast? = some '\n' := by
  unfold foldNote
  exact List.getLast?_concat ..

theorem foldFrom_head (excess saved : Nat) (part : Part) (rest : List Part) :
    ∃ note more, foldFrom excess saved (part :: rest) = (part, note) :: more ∧
      ∀ text, note = some text → text.getLast? = some '\n' := by
  unfold foldFrom
  dsimp only
  split
  · exact ⟨none, _, rfl, nofun⟩
  · split
    · exact ⟨none, _, rfl, nofun⟩
    · split
      · exact ⟨none, _, rfl, nofun⟩
      · exact ⟨_, _, rfl, fun text h => Option.some.inj h ▸ foldNote_ends _⟩

/-- A fold leaves the newline a README ends in. -/
theorem fold_ends {readme : Text} (h : readme.getLast? = some '\n') (excess : Nat) :
    (fold readme excess).getLast? = some '\n' := by
  obtain ⟨hWhole, hTitles⟩ := cutSections_whole (keptFrom [] readme)
  rw [flatten_keptFrom, List.nil_append] at hWhole
  unfold fold
  generalize cutSections (keptFrom [] readme) = cut at hWhole hTitles
  obtain ⟨above, parts⟩ := cut
  dsimp only at hWhole hTitles ⊢
  rcases List.eq_nil_or_concat parts with rfl | ⟨front, last, rfl⟩
  · rw [← hWhole] at h
    exact h
  · obtain ⟨note, more, hFold, hNote⟩ := foldFrom_head excess 0 last front.reverse
    have hTitle : last.title ≠ [] := hTitles last (by simp)
    have hLast : last.whole.getLast? = some '\n' := by
      have hNew : last.whole ≠ [] := List.append_ne_nil_of_left_ne_nil hTitle _
      rw [← hWhole, List.concat_eq_append, List.flatMap_append, List.flatMap_singleton, ← List.append_assoc,
        List.getLast?_append_of_ne_nil _ hNew] at h
      exact h
    have hNew : printFolded (last, note) ≠ [] := List.append_ne_nil_of_left_ne_nil hTitle _
    rw [List.concat_eq_append, List.reverse_append, List.reverse_singleton, List.singleton_append, hFold,
      List.reverse_cons, List.flatMap_append, List.flatMap_singleton, ← List.append_assoc,
      List.getLast?_append_of_ne_nil _ hNew]
    cases note with
    | none => exact hLast
    | some text =>
        have hEnds := hNote text rfl
        rw [printFolded, Option.getD_some, List.getLast?_append, hEnds]
        rfl

theorem receipt_ends (cut whole limit : Nat) : (receipt cut whole limit).getLast? = some '\n' := by
  unfold receipt
  exact List.getLast?_concat ..

theorem clip_ends (readme : Text) (excess limit : Nat) : (clip readme excess limit).getLast? = some '\n' := by
  rw [clip, List.getLast?_append, receipt_ends]
  rfl

theorem size_receipt_mono {cut whole : Nat} (h : cut ≤ whole) (limit : Nat) :
    size (receipt cut whole limit) ≤ size (receipt whole whole limit) := by
  have hDigits := size_digits_mono h
  unfold receipt
  simp only [size_append]
  repeat refine Nat.add_le_add_right ?_ _
  exact Nat.add_le_add_left hDigits _

/-- A cut saves what it is asked for, or the receipt alone is left. -/
theorem clip_saves (readme : Text) (excess limit : Nat) :
    size (clip readme excess limit) + excess ≤ size readme ∨
      clip readme excess limit = receipt (size readme) (size readme) limit := by
  unfold clip
  dsimp only
  generalize hKeep : size readme - (excess + size (receipt (size readme) (size readme) limit)) = keep
  have hKept : size ((takeBytes keep readme).rdropWhile (· ≠ '\n')) ≤ keep :=
    (size_prefix_le (List.rdropWhile_prefix _ _)).trans (size_takeBytes keep readme)
  have hReceipt := size_receipt_mono
    (Nat.sub_le (size readme) (size ((takeBytes keep readme).rdropWhile (· ≠ '\n')))) limit
  by_cases hRoom : excess + size (receipt (size readme) (size readme) limit) ≤ size readme
  · refine .inl ?_
    rw [size_append]
    omega
  · have hNone : takeBytes keep readme = [] := by
      have hZero : keep = 0 := by omega
      rw [hZero]
      cases readme with
      | nil => rfl
      | cons c rest =>
          have hPos := c.utf8Size_pos
          unfold takeBytes
          rw [if_neg (by omega)]
    refine .inr ?_
    rw [hNone]
    rfl

theorem size_ensureNl (text : Text) :
    size (ensureNl text) = size text + if text.getLast? = some '\n' then 0 else 1 := by
  unfold ensureNl
  split
  · rfl
  · rw [size_append]
    rfl

/-- The README that is printed is shorter by what the parts are too long, or it is the
receipt alone. -/
theorem cutReadme_saves (readme : Text) {excess : Nat} (h : 0 < excess) (limit : Nat) :
    size (ensureNl (cutReadme readme excess limit)) + excess ≤ size (ensureNl readme) ∨
      ∃ whole, cutReadme readme excess limit = receipt whole whole limit := by
  unfold cutReadme
  rw [if_neg (Nat.pos_iff_ne_zero.mp h)]
  dsimp only
  split
  · rename_i hFits
    refine .inl ?_
    rw [size_ensureNl, size_ensureNl]
    by_cases hEnds : readme.getLast? = some '\n'
    · rw [if_pos (fold_ends hEnds excess), if_pos hEnds]
      omega
    · rw [if_neg hEnds]
      split <;> omega
  · rename_i hOver
    rcases clip_saves (fold readme excess) (excess + size (fold readme excess) - size readme) limit with hSaves | hOnly
    · refine .inl ?_
      rw [size_ensureNl, size_ensureNl, if_pos (clip_ends ..)]
      omega
    · exact .inr ⟨_, hOnly⟩

/-- The parts are as long as the README that is printed makes them. -/
theorem size_fixed (given : Given) (excess limit : Nat) :
    size (fixedParts given excess limit).fixed + size (ensureNl given.readme) =
      size (fixedParts given 0 0).fixed + size (ensureNl (cutReadme given.readme excess limit)) := by
  have hNone : cutReadme given.readme 0 0 = given.readme := if_pos rfl
  simp only [Parts.fixed, Parts.head, Parts.tail, fixedParts, sectionOf, size_append, hNone]
  omega

theorem fitFrom_fits {fixed : Text} {lines : List Text} {limit count kept : Nat}
    (h : fitFrom fixed lines limit count = some kept) : size (fixed ++ treeBody lines kept) ≤ limit := by
  induction count with
  | zero =>
      unfold fitFrom at h
      split at h
      · rename_i hFits
        rwa [← Option.some.inj h]
      · cases h
  | succ count ih =>
      unfold fitFrom at h
      split at h
      · rename_i hFits
        rwa [← Option.some.inj h]
      · exact ih h

/-- The tree that is shown fits, beside the line that names what is left out. -/
theorem fitTree_fits {fixed : Text} {limit : Nat} (hFixed : size fixed ≤ limit) (lines : List Text) :
    ∃ shown omitted, fitTree fixed lines limit = shown ++ omittedLine omitted ∧ size fixed + size shown ≤ limit := by
  unfold fitTree
  cases hFit : fitFrom fixed lines limit lines.length with
  | none => exact ⟨[], lines.length, rfl, by simpa using hFixed⟩
  | some kept =>
      have hFits := fitFrom_fits hFit
      rw [size_append] at hFits
      exact ⟨treeBody lines kept, lines.length - kept, rfl, hFits⟩

/-- A wake that is printed is in its budget but for the one line that names what is
left out of the tree, its parts are whole but for the README, and the README is
whole where the parts leave room. The recipe gives up only where the README is cut
to its receipt. -/
theorem wake_in_budget (given : Given) (limit : Nat) (toCore : Bool) :
    match main given limit toCore with
    | .printed core out _ =>
        core = (if toCore then some (coreText given) else none) ∧
        ∃ readme shown omitted,
          core.getD [] ++ out =
            coreText given ++ sectionOf (readmePath given) readme ++ given.notes ++ (shown ++ omittedLine omitted) ++
              (given.people ++ given.topics ++ sectionOf "Loom".toList given.loom ++ given.occasion) ∧
          size (core.getD []) + size out ≤ limit + size (omittedLine omitted) ∧
          (readme = given.readme ∨ limit < size (fixedParts given 0 0).fixed)
    | .died code _ =>
        code = 3 ∧ ∃ whole, cutReadme given.readme (size (fixedParts given 0 0).fixed - limit) limit =
          receipt whole whole limit := by
  unfold main
  dsimp only
  generalize hParts : (if limit < size (fixedParts given 0 0).fixed then
    fixedParts given (size (fixedParts given 0 0).fixed - limit) limit else fixedParts given 0 0) = parts
  -- Whichever parts are taken, they differ from the first in the README alone.
  obtain ⟨readme, hFixed, hReadme⟩ : ∃ readme, parts = { fixedParts given 0 0 with
      readme := sectionOf (readmePath given) readme } ∧
      (readme = given.readme ∨ limit < size (fixedParts given 0 0).fixed) := by
    rw [← hParts]
    split
    · rename_i hOver
      exact ⟨_, rfl, .inr hOver⟩
    · exact ⟨given.readme, rfl, .inl rfl⟩
  by_cases hDied : limit < size parts.fixed
  · rw [if_pos hDied]
    refine ⟨rfl, ?_⟩
    have hOver : limit < size (fixedParts given 0 0).fixed := by
      by_contra hNot
      rw [if_neg hNot] at hParts
      exact hNot (hParts ▸ hDied)
    rw [if_pos hOver] at hParts
    refine (cutReadme_saves given.readme (Nat.sub_pos_of_lt hOver) limit).resolve_left fun hSaves => ?_
    have hSize := size_fixed given (size (fixedParts given 0 0).fixed - limit) limit
    rw [hParts] at hSize
    omega
  · rw [if_neg hDied]
    obtain ⟨shown, omitted, hTree, hRoom⟩ := fitTree_fits (Nat.not_lt.mp hDied) given.tree
    rw [hTree]
    have hOut : parts.head ++ (shown ++ omittedLine omitted) ++ parts.tail =
        coreText given ++ sectionOf (readmePath given) readme ++ given.notes ++ (shown ++ omittedLine omitted) ++
          (given.people ++ given.topics ++ sectionOf "Loom".toList given.loom ++ given.occasion) := by
      rw [hFixed]
      rfl
    have hSize : size (parts.head ++ (shown ++ omittedLine omitted) ++ parts.tail) ≤
        limit + size (omittedLine omitted) := by
      rw [Parts.fixed, size_append] at hRoom
      simp only [size_append]
      omega
    cases toCore with
    | false => exact ⟨rfl, readme, shown, omitted, hOut, by simpa using hSize, hReadme⟩
    | true =>
        have hCut : coreText given ++ (parts.head ++ (shown ++ omittedLine omitted) ++ parts.tail).drop
            (coreText given).length = parts.head ++ (shown ++ omittedLine omitted) ++ parts.tail := by
          rw [hOut]
          simp only [List.append_assoc, List.drop_left]
        refine ⟨rfl, readme, shown, omitted, hCut.trans hOut, ?_, hReadme⟩
        rw [← hCut, size_append] at hSize
        exact hSize

end Brnrd.Wake
