import Brnrd.Port.Boundary
import Brnrd.Readme.Readme

/-! The heads of the topic pages that a wake shows, each in its share of the bytes. -/
namespace Brnrd.Recall

open Python

abbrev Text := List Char

/-- A topic page: its title, its head and the titles of its entries, newest first. -/
structure Page where
  title : Text
  head : Text
  entries : List Text

/-- A link at the start of a text, `\[([^\]]*)\]\([^)]*\)`: its words and what is behind
it. -/
def linkAt : Text → Option (Text × Text)
  | '[' :: rest =>
      match rest.dropWhile (· ≠ ']') with
      | ']' :: '(' :: target =>
          match target.dropWhile (· ≠ ')') with
          | _ :: behind => some (rest.takeWhile (· ≠ ']'), behind)
          | [] => none
      | _ => none
  | _ => none

/-- `_LINK.sub(r"\1", text)`, in a number of turns that the length of the text bounds. -/
def unlink : Nat → Text → Text
  | 0, text => text
  | turns + 1, text =>
      match linkAt text with
      | some (words, behind) => words ++ unlink turns behind
      | none =>
          match text with
          | [] => []
          | c :: rest => c :: unlink turns rest

/-- `_plain`. -/
def plain (text : Text) : Text :=
  [' '].intercalate (Port.wordsFrom [] (unlink text.length text))

def boiler : Text := "Entries newest first.".toList

/-- `_BOILER.sub(" ", head)`, in a number of turns that the length of the text bounds. -/
def unboil : Nat → Text → Text
  | 0, text => text
  | turns + 1, text =>
      let solid := text.dropWhile isSpace
      if boiler.isPrefixOf solid then ' ' :: unboil turns ((solid.drop boiler.length).dropWhile isSpace)
      else match text with
        | [] => []
        | c :: rest => c :: unboil turns rest

/-- `title.split(" · ")`. -/
def splitDots : Text → List Text
  | [] => [[]]
  | ' ' :: '·' :: ' ' :: rest => [] :: splitDots rest
  | c :: rest => (splitDots rest).modifyHead (c :: ·)

/-- `_entry`. -/
def entryOf (title : Text) : Text :=
  " · ".toList.intercalate ((splitDots title).filter fun part => (linkAt (strip part)).map Prod.snd ≠ some [])

/-- The lines of a head, before they are cut. -/
def headLines (slug : Text) (page : Page) : List Text :=
  let count := (toString page.entries.length).toList ++ " entr".toList ++
    (if page.entries.length = 1 then ['y'] else "ies".toList)
  let prose := plain (unboil page.head.length page.head)
  [("topics/".toList ++ slug ++ ".md · ".toList ++ plain page.title ++ " (".toList ++ count ++ [')'])] ++
    (if prose = [] then [] else [prose]) ++
    (if page.entries = [] then []
      else ["newest: ".toList ++ "; ".toList.intercalate ((page.entries.take 2).map fun entry => plain (entryOf entry))])

/-- Where a slice of some bytes ends: a negative end counts from the back. -/
def sliceEnd (stop : Int) (bytes : Nat) : Nat :=
  if stop < 0 then (bytes + stop).toNat else stop.toNat

/-- A line in the room that is left. -/
def cutLine (room : Int) (line : Text) : Text :=
  if room < size line then takeBytes (sliceEnd (room - 3) (size line)) line ++ ['…'] else line

/-- The loop of `head_block`, behind what it has put out. -/
def headFrom (most : Nat) (out : Text) : List Text → Text
  | [] => out
  | line :: rest =>
      let room : Int := most - size out - 1
      if room ≤ 1 then out else headFrom most (out ++ cutLine room line ++ ['\n']) rest

/-- `head_block`. -/
def headBlock (slug : Text) (page : Page) (most : Nat) : Text :=
  headFrom most [] (headLines slug page)

def TOPICS : Nat := 2
def WAKE_MAX : Nat := 600

/-- `str.strip(chars)`. -/
def stripOf (chars text : Text) : Text :=
  ((text.dropWhile (· ∈ chars)).reverse.dropWhile (· ∈ chars)).reverse

/-- `pinned`. -/
def pinned (alphabet : Alphabet) (readme : Text) : List Text :=
  match Readme.parseReadme alphabet readme with
  | .error _ => []
  | .ok data =>
      let items : Text → List Text := fun key =>
        match Entries.get key data with
        | some (.text value) => if value = [] then [] else (stripOf ['[', ']'] value).splitOn ','
        | some (.items values) => values
        | _ => []
      let raw := if items "topic".toList = [] then items "topics".toList else items "topic".toList
      (raw.filter (strip · ≠ [])).map fun item => stripOf ['\'', '"'] (strip item)

/-- The pages that a wake shows, and why: those the README names, else the closest. The
closest are ranked with their scores, where `floor` is what a score must reach behind the
best one. -/
def chosenTopics (alphabet : Alphabet) (pages : List (Text × Page)) (readme : Text) (ranked : List (ℚ × Text))
    (floor : ℚ → ℚ) : List Text × Text :=
  let named := ((pinned alphabet readme).filter fun slug => (Entries.get slug pages).isSome).take TOPICS
  if named = [] then
    let best := ((ranked.head?).map Prod.fst).getD 0
    (((ranked.take TOPICS).filter fun row => decide (floor best ≤ row.1)).map Prod.snd,
      "closest topic pages to this occasion".toList)
  else (named, "this thread's topic pages".toList)

def wakeHead (why : Text) : Text :=
  "## Topics close to this wake\n".toList ++ why ++ "; open one before deciding in its area\n".toList

/-- The share of each of some pages. -/
def share (most : Nat) (why : Text) (count : Nat) : Nat :=
  (most - size (wakeHead why)) / count

/-- The head of the page of a slug. -/
def blockOf (pages : List (Text × Page)) (most : Nat) (slug : Text) : Text :=
  match Entries.get slug pages with
  | some page => headBlock slug page most
  | none => []

/-- `wake_topics`. -/
def wakeTopics (alphabet : Alphabet) (pages : List (Text × Page)) (readme : Text) (ranked : List (ℚ × Text)) (floor : ℚ → ℚ)
    (most : Nat) : Text :=
  let (chosen, why) := chosenTopics alphabet pages readme ranked floor
  if pages = [] ∨ chosen = [] then []
  else wakeHead why ++ chosen.flatMap (blockOf pages (share most why chosen.length))

end Brnrd.Recall

/-! When the head of a page keeps to its bytes: a line that comes where two bytes are left
is cut from the wrong end. -/
namespace Brnrd.Recall

open Python

/-- A line of more than two bytes comes where two bytes are left for it. -/
def Tight (most used : Nat) : List Text → Prop
  | [] => False
  | line :: rest =>
      let room : Int := most - used - 1
      1 < room ∧ (room = 2 ∧ 2 < size line ∨ Tight most (used + size (cutLine room line) + 1) rest)

instance decidableTight (most used : Nat) (lines : List Text) : Decidable (Tight most used lines) :=
  match lines with
  | [] => inferInstanceAs (Decidable False)
  | line :: rest =>
      have := decidableTight most (used + size (cutLine (most - used - 1) line) + 1) rest
      inferInstanceAs (Decidable (_ ∧ (_ ∨ _)))

/-- A line that is whole, or cut behind a character with an ellipsis. -/
def Shown (line shown : Text) : Prop :=
  shown = line ∨ ∃ kept, kept <+: line ∧ shown = kept ++ ['…']

/-- The first lines of a head, each whole or cut, on lines of their own. -/
def Printed (lines : List Text) (block : Text) : Prop :=
  ∃ shown count, block = shown.flatMap (· ++ ['\n']) ∧ List.Forall₂ Shown (lines.take count) shown

theorem cutLine_shown (room : Int) (line : Text) : Shown line (cutLine room line) := by
  unfold cutLine
  split
  · exact .inr ⟨_, takeBytes_prefix _ _, rfl⟩
  · exact .inl rfl

theorem headFrom_printed (most : Nat) (out : Text) (lines : List Text) :
    ∃ shown count, headFrom most out lines = out ++ shown.flatMap (· ++ ['\n']) ∧
      List.Forall₂ Shown (lines.take count) shown := by
  induction lines generalizing out with
  | nil => exact ⟨[], 0, (List.append_nil _).symm, .nil⟩
  | cons line rest ih =>
      simp only [headFrom]
      split
      · exact ⟨[], 0, (List.append_nil _).symm, .nil⟩
      · obtain ⟨shown, count, hBlock, hShown⟩ := ih (out ++ cutLine (most - size out - 1) line ++ ['\n'])
        refine ⟨_ :: shown, count + 1, ?_, .cons (cutLine_shown (most - size out - 1) line) hShown⟩
        rw [hBlock, List.flatMap_cons]
        simp only [List.append_assoc]

theorem size_ellipsis : size ['…'] = 3 := by decide

/-- A line is cut to its room, unless the room is two bytes. -/
theorem size_cutLine {room : Int} {line : Text} (hRoom : 1 < room) (h : ¬(room = 2 ∧ 2 < size line)) :
    size (cutLine room line) ≤ room := by
  unfold cutLine
  split
  · rename_i hLong
    have hThree : 3 ≤ room := by
      by_contra hTwo
      exact h ⟨by omega, by omega⟩
    have hTake := size_takeBytes (sliceEnd (room - 3) (size line)) line
    have hEnd : sliceEnd (room - 3) (size line) = (room - 3).toNat := if_neg (by omega)
    rw [hEnd] at hTake
    rw [size_append, size_ellipsis, hEnd]
    omega
  · omega

/-- In a room of two bytes a longer line is not cut short enough. -/
theorem size_cutLine_two {line : Text} (h : 2 < size line) : 2 < size (cutLine 2 line) := by
  unfold cutLine
  rw [if_pos (by omega), size_append, size_ellipsis]
  omega

theorem size_headFrom_ge (most : Nat) (out : Text) (lines : List Text) : size out ≤ size (headFrom most out lines) := by
  obtain ⟨shown, count, hBlock, -⟩ := headFrom_printed most out lines
  rw [hBlock, size_append]
  omega

theorem headFrom_fits_iff {most : Nat} {out : Text} (hOut : size out ≤ most) (lines : List Text) :
    size (headFrom most out lines) ≤ most ↔ ¬Tight most (size out) lines := by
  induction lines generalizing out with
  | nil => exact iff_of_true hOut fun h => h
  | cons line rest ih =>
      have hOne : size ['\n'] = 1 := by decide
      have hSize : size (out ++ cutLine (most - size out - 1) line ++ ['\n']) =
          size out + size (cutLine (most - size out - 1) line) + 1 := by
        rw [size_append, size_append, hOne]
      simp only [headFrom, Tight]
      split
      · rename_i hRoom
        exact iff_of_true hOut fun h => absurd h.1 (by omega)
      · rename_i hRoom
        by_cases hTwo : (most : Int) - size out - 1 = 2 ∧ 2 < size line
        · refine iff_of_false (fun hFits => ?_) fun h => h ⟨by omega, .inl hTwo⟩
          have hGrows := size_headFrom_ge most (out ++ cutLine (most - size out - 1) line ++ ['\n']) rest
          have hCut := size_cutLine_two hTwo.2
          rw [← hTwo.1] at hCut
          omega
        · have hCut := size_cutLine (by omega) hTwo
          rw [ih (by omega), hSize]
          refine not_congr ⟨fun h => ⟨by omega, .inr h⟩, fun h => h.2.resolve_left hTwo⟩

theorem headBlock_fits_iff (slug : Text) (page : Page) (most : Nat) :
    size (headBlock slug page most) ≤ most ↔ ¬Tight most 0 (headLines slug page) :=
  @headFrom_fits_iff most [] (Nat.zero_le most) (headLines slug page)

theorem wakeHead_fits (alphabet : Alphabet) (pages : List (Text × Page)) (readme : Text) (ranked : List (ℚ × Text))
    (floor : ℚ → ℚ) : size (wakeHead (chosenTopics alphabet pages readme ranked floor).2) ≤ WAKE_MAX := by
  have hNamed : size (wakeHead "this thread's topic pages".toList) ≤ WAKE_MAX := by decide +kernel
  have hClosest : size (wakeHead "closest topic pages to this occasion".toList) ≤ WAKE_MAX := by decide +kernel
  unfold chosenTopics
  dsimp only
  split
  · exact hClosest
  · exact hNamed

/-- Some blocks that each keep to a share of the bytes keep to the bytes. -/
theorem size_flatMap_le {slugs : List Text} {block : Text → Text} {share : Nat} (h : ∀ slug ∈ slugs, size (block slug) ≤ share) :
    size (slugs.flatMap block) ≤ slugs.length * share := by
  induction slugs with
  | nil => exact Nat.zero_le _
  | cons slug slugs ih =>
      have hFirst := h slug List.mem_cons_self
      have hRest := ih fun other hOther => h other (List.mem_cons_of_mem _ hOther)
      rw [List.flatMap_cons, size_append, List.length_cons, Nat.succ_mul]
      omega

/-- The head of a page keeps to its bytes, each of its lines whole or cut with an
ellipsis, exactly where no line of more than two bytes comes with two bytes left for it.
The heads that a wake shows keep to theirs where that happens to none of them. -/
theorem head_fits_iff (slug : Text) (page : Page) (most : Nat) (alphabet : Alphabet) (pages : List (Text × Page))
    (readme : Text) (ranked : List (ℚ × Text)) (floor : ℚ → ℚ) :
    (size (headBlock slug page most) ≤ most ∧ Printed (headLines slug page) (headBlock slug page most) ↔
      ¬Tight most 0 (headLines slug page)) ∧
    ((∀ slug ∈ (chosenTopics alphabet pages readme ranked floor).1, ∀ page, Entries.get slug pages = some page →
        ¬Tight (share WAKE_MAX (chosenTopics alphabet pages readme ranked floor).2
          (chosenTopics alphabet pages readme ranked floor).1.length) 0 (headLines slug page)) →
      size (wakeTopics alphabet pages readme ranked floor WAKE_MAX) ≤ WAKE_MAX) := by
  constructor
  · rw [headBlock_fits_iff, and_iff_left_iff_imp]
    intro _
    obtain ⟨shown, count, hBlock, hShown⟩ := headFrom_printed most [] (headLines slug page)
    exact ⟨shown, count, hBlock, hShown⟩
  · intro hLoose
    have hHead := wakeHead_fits alphabet pages readme ranked floor
    unfold wakeTopics
    generalize chosenTopics alphabet pages readme ranked floor = choice at hLoose hHead ⊢
    obtain ⟨chosen, why⟩ := choice
    dsimp only at hLoose hHead ⊢
    split
    · exact Nat.zero_le _
    · have hBlocks : ∀ slug ∈ chosen, size (blockOf pages (share WAKE_MAX why chosen.length) slug) ≤
          share WAKE_MAX why chosen.length := by
        intro slug hSlug
        unfold blockOf
        cases hPage : Entries.get slug pages with
        | none => exact Nat.zero_le _
        | some page => exact (headBlock_fits_iff ..).mpr (hLoose slug hSlug page hPage)
      have hShare : chosen.length * share WAKE_MAX why chosen.length ≤ WAKE_MAX - size (wakeHead why) :=
        Nat.mul_div_le _ _
      have hAll := size_flatMap_le hBlocks
      rw [size_append]
      omega

def plainPage (head : List Char) : Page := ⟨['t'], head, []⟩

/-- A wake with room for its one page shows it. -/
theorem head_fits_iff_plain :
    size (wakeTopics asciiOnly [(['s'], plainPage ['h'])] [] [(10, ['s'])] (fun _ => 6) WAKE_MAX) ≤ WAKE_MAX := by
  refine (head_fits_iff [] (plainPage []) 0 asciiOnly [(['s'], plainPage ['h'])] [] [(10, ['s'])] (fun _ => 6)).2 ?_
  have hChosen : chosenTopics asciiOnly [(['s'], plainPage ['h'])] [] [(10, ['s'])] (fun _ => 6) =
      ([['s']], "closest topic pages to this occasion".toList) := by
    decide +kernel
  rw [hChosen]
  intro slug hSlug page hPage
  rw [List.mem_singleton.mp hSlug] at hPage ⊢
  obtain rfl : plainPage ['h'] = page := Option.some.inj hPage
  decide +kernel

/-- Its path and title leave two bytes for the prose, and the block is over its bytes. -/
theorem head_overruns :
    32 < size (headBlock ['s'] (plainPage ['p', 'r', 'o', 's', 'e']) 32) := by
  decide +kernel

end Brnrd.Recall
