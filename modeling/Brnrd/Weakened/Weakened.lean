import Brnrd.Lists.Entries
import Brnrd.Weakened.Patterns

/-! What a diff takes out of the tests that it changes beside code. -/
namespace Brnrd.Weakened

open Python

/-- A changed line: its sign and its text. -/
abbrev Line := Char × Text

abbrev Hunk := List Line

/-- `raw[0]` of an empty line. -/
inductive Raised where
  | index
  deriving DecidableEq

/-- `hunks[-1].append(line)`. -/
def appendLast (line : Line) : List Hunk → List Hunk
  | [] => []
  | [hunk] => [hunk ++ [line]]
  | hunk :: rest => hunk :: appendLast line rest

/-- The variables of `_files`, and what it has yielded. -/
structure Reading where
  done : List (Text × List Hunk)
  path : Option Text
  hunks : List Hunk

/-- What is yielded when the file that is being read ends. -/
def Reading.yielded (s : Reading) : List (Text × List Hunk) :=
  s.done ++ (s.path.map fun path => (path, s.hunks)).toList

/-- One turn of the loop. -/
def Reading.read (s : Reading) (raw : Text) : Except Raised Reading :=
  if "diff --git ".toList.isPrefixOf raw then
    .ok ⟨s.yielded, some ((behindLast " b/".toList raw).getD raw), []⟩
  else if "+++ ".toList.isPrefixOf raw || "--- ".toList.isPrefixOf raw then .ok s
  else if "@@".toList.isPrefixOf raw then .ok { s with hunks := s.hunks ++ [[]] }
  else if s.hunks = [] then .ok s
  else match raw with
    -- `raw[:1] in "+- "` holds of an empty line.
    | [] => .error .index
    | sign :: text =>
        if sign ∈ ['+', '-', ' '] then .ok { s with hunks := appendLast (sign, text) s.hunks } else .ok s

/-- `_files(diff)`. -/
def files (diff : Text) : Except Raised (List (Text × List Hunk)) :=
  ((splitlines diff).foldlM Reading.read ⟨[], none, []⟩).map Reading.yielded

/-- The character between the path of an entry and what it says. -/
def nul : Char :=
  Char.ofNat 0

/-- What is said of the assertions folded into a deletion. -/
def foldWords (folded : ℕ) : Text :=
  if folded > 1 then " (".toList ++ (toString folded).toList ++ " asserts)".toList
  else if folded = 1 then " (1 assert)".toList else []

/-- The variables of the loop over a hunk. -/
structure Scan where
  found : List Text
  loose : List Text
  deleting : Option ℕ
  folded : ℕ

/-- The end of a run of removed lines. -/
def Scan.close (s : Scan) : Scan :=
  match s.deleting with
  | some entry => { s with
      found := s.found.modify entry (· ++ foldWords s.folded)
      deleting := none
      folded := 0 }
  | none => s

variable (alphabet : Alphabet)

/-- The lines of one sign, stripped, in a hunk and in all the test files. -/
def signed (sign : Char) (hunk : Hunk) : List Text :=
  (hunk.filter (·.1 = sign)).map fun line => strip line.2

/-- The added assertions of a hunk that one may have been loosened to. -/
def looseOf (hunk : Hunk) : List Text :=
  (signed '+' hunk).filter fun line =>
    isAssert alphabet line && isLoose alphabet line && !decide ("==".toList <:+: line)

def quoted (line : Text) : Text :=
  '`' :: clip line ++ ['`']

variable (added removed : List Text) (path : Text)

/-- One turn of the loop over a hunk. -/
def Scan.line (s : Scan) (changed : Line) : Scan :=
  let line := strip changed.2
  let s := if changed.1 ≠ '-' then s.close else s
  if changed.1 = '-' ∧ line ∉ added then
    match testDef alphabet line with
    | some name =>
        let s := s.close
        { s with
          found := s.found ++ [path ++ nul :: ("deletes ".toList ++ name)]
          deleting := some s.found.length
          folded := 0 }
    | none =>
        if isAssert alphabet line then
          match s.deleting, s.loose with
          | some _, _ => { s with folded := s.folded + 1 }
          | none, loosened :: rest =>
              if "==".toList <:+: line then { s with
                found := s.found ++ [path ++ nul :: ("loosens ".toList ++ quoted line ++ " to ".toList ++ quoted loosened)]
                loose := rest }
              else { s with found := s.found ++ [path ++ nul :: ("drops ".toList ++ quoted line)] }
          | none, [] => { s with found := s.found ++ [path ++ nul :: ("drops ".toList ++ quoted line)] }
        else s
  else if changed.1 = '+' ∧ isSkip alphabet line ∧ line ∉ removed then
    { s with found := s.found ++ [path ++ nul :: ("skips with ".toList ++ quoted line)] }
  else s

/-- `_SHOWN`. -/
def shownLimit : ℕ := 4

/-- `shown`: what the first entries say, by path. -/
def shownOf (found : List Text) : List (Text × List Text) :=
  (found.take shownLimit).foldl (fun shown entry =>
    let path := entry.takeWhile (· ≠ nul)
    let what := (entry.dropWhile (· ≠ nul)).drop 1
    Entries.set path ((Entries.get path shown).getD [] ++ [what]) shown) []

/-- The line that names the entries. -/
def report (found : List Text) : Text :=
  if found = [] then []
  else
    let more := found.length - shownLimit
    "Tests weakened beside code (a fact for the reviewer): ".toList ++
      "; ".toList.intercalate ((shownOf found).map fun item => item.1 ++ ' ' :: ", ".toList.intercalate item.2) ++
      if more > 0 then "; +".toList ++ (toString more).toList ++ " more".toList else []

end Brnrd.Weakened
