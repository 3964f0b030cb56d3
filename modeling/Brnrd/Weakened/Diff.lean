import Brnrd.Weakened.Counted

/-! A unified diff as it was made, file by file, and what is read of its text. -/
namespace Brnrd.Weakened

open Python

inductive Sign where
  | added
  | removed
  | kept

def Sign.char : Sign → Char
  | .added => '+'
  | .removed => '-'
  | .kept => ' '

/-- A line of a hunk: one of the file, or a note such as `\ No newline at end of file`. -/
inductive Body where
  | line (sign : Sign) (text : Text)
  | note (text : Text)

def Body.raw : Body → Text
  | .line sign text => sign.char :: text
  | .note text => '\\' :: text

structure Section where
  header : Text
  body : List Body

/-- What a diff says of a file. Between the first line and the hunks stand the extended
header and the names of the two sides. -/
structure FileDiff where
  old : Text
  path : Text
  extended : List Text
  hunks : List Section
  plain : ∀ line ∈ extended, ¬ "diff --git ".toList <+: line ∧ ¬ "@@".toList <+: line

def Section.lines (hunk : Section) : List Text :=
  ("@@".toList ++ hunk.header) :: hunk.body.map Body.raw

def FileDiff.lines (f : FileDiff) : List Text :=
  ("diff --git a/".toList ++ f.old ++ " b/".toList ++ f.path) :: f.extended ++ f.hunks.flatMap Section.lines

/-- The text of a diff. -/
def textOf (diff : List FileDiff) : Text :=
  (diff.flatMap FileDiff.lines).flatMap fun line => line ++ ['\n']

/-- The changed lines of a hunk, with those kept. -/
def Section.changed (hunk : Section) : Hunk :=
  hunk.body.filterMap fun
    | .line sign text => some (sign.char, text)
    | .note _ => none

/-- What there is to read of a file. -/
def FileDiff.content (f : FileDiff) : Text × List Hunk :=
  (f.path, f.hunks.map Section.changed)

/-- An added line that does not look like `+++ `, and a removed one that does not look
like `--- `. -/
def Body.Clear : Body → Prop
  | .line .added text => ¬ "++ ".toList <+: text
  | .line .removed text => ¬ "-- ".toList <+: text
  | _ => True

instance : (body : Body) → Decidable body.Clear
  | .line .added text => inferInstanceAs (Decidable (¬ "++ ".toList <+: text))
  | .line .removed text => inferInstanceAs (Decidable (¬ "-- ".toList <+: text))
  | .line .kept _ | .note _ => inferInstanceAs (Decidable True)

/-- Each line is one line for `splitlines` too, no line of a hunk looks like the name of a
side, and the path has no ` b/` in it. -/
structure FileDiff.Plain (f : FileDiff) : Prop where
  oneLine : ∀ line ∈ f.lines, OneLine line
  path : ¬ " b/".toList <:+: f.path
  clear : ∀ hunk ∈ f.hunks, ∀ body ∈ hunk.body, body.Clear

variable {s : Reading}

variable {hunks : List Hunk} {path : Option Text} {done : List (Text × List Hunk)}

variable (alphabet : Alphabet)

/-- What is counted of a file: the entries of each of its hunks. -/
structure Tally where
  path : Text
  hunks : List (List Entry)

def Tally.found (tally : Tally) : List Text :=
  tally.hunks.flatten.map (Entry.text tally.path)

/-- The tallies of the test files count each weakening of each hunk once. -/
def Counts (added removed : List Text) (file : Text × List Hunk) (tally : Tally) : Prop :=
  tally.path = file.1 ∧ List.Forall₂ (fun hunk entries =>
    Counted alphabet added removed (looseOf alphabet hunk) hunk entries) file.2 tally.hunks

variable {alphabet}

/-- The sizes of all entries come to the number of weakenings of the test files. -/
theorem Counts.total {added removed : List Text} {tests : List (Text × List Hunk)} {tallies : List Tally}
    (h : List.Forall₂ (Counts alphabet added removed) tests tallies) :
    (tallies.flatMap fun tally => tally.hunks.flatten.map Entry.size).sum =
      (tests.flatMap fun file => file.2.flatten).countP fun line => Weakening alphabet added removed line := by
  have hFile : ∀ (hunks : List Hunk) (counted : List (List Entry)), List.Forall₂ (fun hunk entries =>
      Counted alphabet added removed (looseOf alphabet hunk) hunk entries) hunks counted →
      (counted.flatten.map Entry.size).sum = hunks.flatten.countP fun line => Weakening alphabet added removed line := by
    intro hunks counted hCounted
    induction hCounted with
    | nil => rfl
    | cons hHunk _ ih =>
        rw [List.flatten_cons, List.map_append, List.sum_append, hHunk.total, ih, List.flatten_cons, List.countP_append]
  induction h with
  | nil => rfl
  | cons hFirst _ ih =>
      rw [List.flatMap_cons, List.sum_append, hFile _ _ hFirst.2, ih, List.flatMap_cons, List.countP_append]

end Brnrd.Weakened
