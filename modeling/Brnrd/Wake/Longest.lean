import Brnrd.Lists.Entries
import Brnrd.Search.Bisect
import Brnrd.Wake.Recipe
import Mathlib.Control.Monad.Basic

/-! Building a wake: the letters the packaged recipe is given, and the search for how
many of them it has room for. -/
namespace Brnrd.Wake

open Python

/-- A letter owed to the thread, as `owed.json` has it. -/
structure Letter where
  id : Text
  sender : Text
  body : Text
  replyTo : Text
  replyContext : Text
  attachments : List Text

/-- `title.lower()`, as far as its letters of ASCII go. -/
def lower (c : Char) : Char :=
  if c.toNat = 0x212a then 'k' else c.toLower

/-- The sections of a person's page by title, each its lines that are not blank. -/
def pageSections (text : Text) : List (Text × List Text) :=
  ((splitlines text).foldl (fun (found : List (Text × List Text) × Option Text) line =>
    if "## ".toList.isPrefixOf line then
      let title := (strip (line.drop 3)).map lower
      (Entries.set title [] found.1, some title)
    else match found.2 with
      | some title =>
          if strip line = [] then found
          else (Entries.set title ((Entries.get title found.1).getD [] ++ [line]) found.1, some title)
      | none => found) ([], none)).1

/-- The folder of the person a letter is from, empty for a thread or a strand. -/
def personOf (sender : Text) : Text :=
  let named := fun name : Text => if name ≠ [] ∧ '/' ∉ name ∧ name ≠ ['.'] ∧ name ≠ ['.', '.'] then name else []
  if "person:".toList.isPrefixOf sender then named (sender.drop 7)
  else if "p-".toList.isPrefixOf sender then named (sender.drop 2)
  else []

def PAGE_CAP : Nat := 2400

def PAGE_LISTS : List Text := ["just do".toList, "ask first".toList, "never".toList]

/-- The latest line between the person and us, without its bullet. -/
def latestOf (parts : List (Text × List Text)) : Text :=
  (((Entries.get "between us".toList parts).getD []).head?.getD []).dropWhile fun c => c = '-' || c = ' '

/-- Whether there is such a line. -/
def hasLatest (parts : List (Text × List Text)) : Bool :=
  ((Entries.get "between us".toList parts).getD []).head?.getD [] ≠ []

/-- What is printed of the page of a person in hand. -/
def pageBlock (name page : Text) : Text :=
  let rel := "people/".toList ++ name ++ "/page.md".toList
  let parts := pageSections page
  let lists := PAGE_LISTS.flatMap fun title =>
    let lines := (Entries.get title parts).getD []
    (title ++ [':']) :: if lines = [] then ["- (none written)".toList] else lines
  let lines := ("### ".toList ++ name) :: lists ++
    (if hasLatest parts then ["between us, latest: ".toList ++ latestOf parts] else []) ++
    ["whole page: ".toList ++ rel]
  let block := lines.flatMap ensureNl
  if PAGE_CAP < size block then
    let note := "[the wake cut this page's render at ".toList ++ (toString PAGE_CAP).toList ++ " of ".toList ++
      (toString (size block)).toList ++ " bytes; ".toList ++ rel ++ " is whole on disk]\n".toList
    (takeBytes (PAGE_CAP - size note) block).rdropWhile (· ≠ '\n') ++ note
  else block

/-- The people in hand: those whose letters are owed and who have a page, each once. -/
def inHand (pages : List (Text × Text)) (letters : List Letter) : List Text :=
  letters.foldl (fun names letter =>
    let name := personOf letter.sender
    if name ≠ [] ∧ name ∉ names ∧ (Entries.get name pages).isSome then names ++ [name] else names) []

/-- `people_block`: with nobody in hand, every page's latest line. -/
def peopleBlock (pages : List (Text × Text)) (letters : List Letter) : Text :=
  if inHand pages letters ≠ [] then
    sectionOf "People".toList
      ((inHand pages letters).flatMap fun name => pageBlock name ((Entries.get name pages).getD []))
  else
    let rows := pages.filterMap fun page =>
      let parts := pageSections page.2
      if hasLatest parts then some ((page.1 ++ ": ".toList ++ latestOf parts).take 400) else none
    if rows = [] then [] else sectionOf "People".toList (rows.flatMap ensureNl)

/-- `occasion`. -/
def occasionOf (letters : List Letter) : Text :=
  "## Occasion\n".toList ++ letters.flatMap fun letter =>
    "### ".toList ++ letter.id ++ " from ".toList ++ letter.sender ++ " · reply ".toList ++ letter.replyTo ++ ['\n'] ++
      ensureNl letter.body ++ (if letter.replyContext = [] then [] else ensureNl letter.replyContext) ++
      letter.attachments.flatMap ensureNl

/-- What the recipe reads of the self and the seat, whichever letters are owed. -/
structure Self where
  thread : Text
  identity : Text
  stance : Text
  readme : Text
  notes : Text
  pages : List (Text × Text)
  topics : Text
  repos : Text
  tree : List Text

/-- `LOOM_PART` with `LOOM_REPOS` behind it. -/
def loomText (words repos : Text) : Text :=
  if repos = [] then words else ensureNl words ++ repos

def Self.given (self : Self) (letters : List Letter) (words : Text) : Given where
  thread := self.thread
  identity := self.identity
  stance := self.stance
  readme := self.readme
  notes := self.notes
  people := peopleBlock self.pages letters
  topics := self.topics
  loom := loomText words self.repos
  occasion := occasionOf letters
  tree := self.tree

/-- What a run of a recipe says. -/
structure Ran where
  code : Int
  wake : Text
  why : Text

/-- A recipe, given letters and the loom's part. -/
abbrev Recipe := List Letter → Text → Ran

def packaged (self : Self) (limit : Nat) : Recipe := fun letters words =>
  match main (self.given letters words) limit true with
  | .printed _ out _ => ⟨0, out, []⟩
  | .died code why => ⟨code, [], strip why⟩

/-- The self's own recipe, or why it cannot be run; the packaged one; and the budget,
`none` where it is no number. -/
structure Home where
  own : Except Text Recipe
  packaged : Recipe
  budget : Option Nat

def deferredLine (rest : List Letter) (total : Nat) : Text :=
  "the wake had room for ".toList ++ (toString (total - rest.length)).toList ++ " of ".toList ++ (toString total).toList ++
    " owed letters; the other ".toList ++ (toString rest.length).toList ++ " (".toList ++
    (", ".toList).intercalate (rest.map Letter.id) ++
    ") arrive whole at your first tool boundary: read them before you act on the ones below. ".toList

/-- What is put on record of a wake that is not the plain one. -/
inductive Fallback where
  | recipe (error : Text)
  | letters (carried : Nat) (deferred : List Text)

/-- A wake that is built: its text, `owed.json` and the loom's part as they are left,
and what is put on record. -/
structure Woken where
  wake : Text
  owed : List Letter
  part : Text
  records : List Fallback

def exited (ran : Ran) : Text :=
  "wake exited ".toList ++ (toString ran.code).toList ++ ": ".toList ++ ran.why

/-- What the loom's part says first of a recipe that is broken. -/
def brokenLine (broken : Text) : Text :=
  "your self's core/loom/wake failed (".toList ++ broken.take 400 ++
    ("); brnrd's packaged recipe built this wake instead; repair core/loom/wake and land it with send-self " ++
      "before other work. ").toList

/-- The recipe that is used, with the loom's part and what is put on record of it. -/
def chosen (home : Home) (rows : List Letter) (part : Text) : Recipe × Text × List Fallback :=
  match home.own with
  | .error broken => (home.packaged, brokenLine broken ++ part, [.recipe (broken.take 400)])
  | .ok own =>
      let ran := own rows part
      if ran.code = 0 ∨ ran.code = 3 then (own, part, [])
      else (home.packaged, brokenLine (exited ran) ++ part, [.recipe ((exited ran).take 400)])

/-- The loom's part where a number of letters is carried. -/
def wordsFor (rows : List Letter) (words : Text) (carried : Nat) : Text :=
  deferredLine (rows.drop carried) rows.length ++ words

/-- Whether so many letters fit. -/
def fits (recipe : Recipe) (rows : List Letter) (words : Text) (carried : Nat) : Bool :=
  (recipe (rows.take carried) (wordsFor rows words carried)).code = 0

end Brnrd.Wake

/-! How many owed letters a wake carries: all where all fit, else the longest prefix that
fits, where the shorter ones the search tries fit too. -/
namespace Brnrd.Wake

variable {part words : Text} {rows : List Letter} {own recipe : Recipe}

variable {home : Home}

end Brnrd.Wake
