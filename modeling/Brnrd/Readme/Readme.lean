import Brnrd.Lists.Entries
import Brnrd.Project.Replay
import Brnrd.Python.Lines

/-! The check of the push gate, `immune.d/10-readme`: the front matter, the
required fields and the heading of a thread's README. -/
namespace Brnrd.Readme

open Python

abbrev Text := List Char

/-- Why a README is refused, by the gate or by the runtime. -/
inductive Why where
  | missing
  | unclosed
  | notKeyValue (line : Text)
  | duplicate (key : Text)
  | forString
  | listUnclosed (key : Text)
  | listMalformed (key : Text)
  | quote (value : Text)
  | required (key : Text)
  | notOneOf (key value options : Text)
  | reference
  | headingMissing
  | heading
  | notFolder (ident folder : Text)

def fence : Text := "---".toList

def keyId : Text := "id".toList
def keyStatus : Text := "status".toList
def keyTense : Text := "tense".toList
def keyFor : Text := "for".toList

/-- `"open|live|dormant|settled|retired"` and `"plan|reference"`, split at the bars. -/
def statuses : List Text :=
  ["open".toList, "live".toList, "dormant".toList, "settled".toList, "retired".toList]

def tenses : List Text := ["plan".toList, "reference".toList]

/-- `"|".join(options)`. -/
def why (options : List Text) : Text := ['|'].intercalate options

/-- What `line.partition(":")` makes of a line: the text before the first colon,
whether there is one, and the text behind it. -/
def partition (line : Text) : Text × Bool × Text :=
  (line.takeWhile (· ≠ ':'), line.contains ':', (line.dropWhile (· ≠ ':')).drop 1)

/-- `value[1:-1]`. -/
def inner (value : Text) : Text := (value.drop 1).dropLast

/-- `lines[lines.index("---", 1)]` cuts the lines: what stands before it, from the
second line on, and what stands behind it. -/
def untilFence (lines : List Text) : Option (List Text × List Text) :=
  if fence ∈ lines.drop 1 then
    some ((lines.drop 1).takeWhile (· ≠ fence), ((lines.drop 1).dropWhile (· ≠ fence)).drop 1)
  else none

namespace Gate

/-- `text.strip(" ")`. -/
def stripSpaces (text : Text) : Text :=
  ((text.dropWhile (· = ' ')).reverse.dropWhile (· = ' ')).reverse

/-- `char in allowed`. -/
def allowed (c : Char) : Bool :=
  asciiLetter c || asciiDigit c || c = '_' || c = '-'

def unquote (value : Text) : Except Why Text :=
  if value.head? = some '"' && value.getLast? = some '"' && 2 ≤ value.length then
    if '"' ∉ inner value then .ok (inner value) else .error (.quote value)
  else if '"' ∉ value then .ok value
  else .error (.quote value)

/-- One part of a list: the value is not kept. -/
def checkPart (key part : Text) : Except Why Unit :=
  if stripSpaces part = [] then .error (.listMalformed key)
  else (unquote (stripSpaces part)).map fun _ => ()

/-- What `frontmatter_line` does with a value, which it has stripped of spaces. A
list stays the text it is. -/
def lineValue (key raw : Text) : Except Why Text :=
  if raw.head? = some '[' then
    if key = keyFor then .error .forString
    else if raw.getLast? ≠ some ']' then .error (.listUnclosed key)
    else if stripSpaces (inner raw) = [] then .ok raw
    else (((stripSpaces (inner raw)).splitOn ',').forM (checkPart key)).map fun _ => raw
  else unquote raw

/-- The test of `frontmatter_line` that a line is a key and a value. -/
def isKeyLine (line : Text) : Bool :=
  let key := stripSpaces (partition line).1
  !(line.head? = some ' ' || line.head? = some '\t' || !(partition line).2.1 || key = [] ||
    !key.head?.any asciiLetter || key.any (!allowed ·))

def frontmatterLine (values : List (Text × Text)) (line : Text) : Except Why (List (Text × Text)) :=
  if line = [] then .ok values
  else if !isKeyLine line then .error (.notKeyValue line)
  else
    let key := stripSpaces (partition line).1
    if (Entries.get key values).isSome then .error (.duplicate key)
    else (lineValue key (stripSpaces (partition line).2.2)).map fun value => Entries.set key value values

/-- One turn of `require_fields`: a field that is there, and one of its options. -/
def requireField (values : List (Text × Text)) (key : Text) (options : Option (List Text)) : Except Why Unit :=
  let value := (Entries.get key values).getD []
  if value = [] then .error (.required key)
  else if options.any (value ∉ ·) then .error (.notOneOf key value (why (options.getD [])))
  else .ok ()

def requireFields (values : List (Text × Text)) : Except Why Unit := do
  requireField values keyId none
  requireField values keyStatus (some statuses)
  requireField values keyTense (some tenses)
  if Entries.get keyTense values = some "reference".toList && Entries.get keyStatus values ≠ some "settled".toList then
    .error .reference
  else .ok ()

/-- The last line goes where it is empty. -/
def popEmpty (lines : List Text) : List Text :=
  if lines.getLast? = some [] then lines.dropLast else lines

/-- The lines of a README: every carriage return goes, and a line ends at a newline only. -/
def linesOf (content : Text) : List Text :=
  popEmpty ((content.filter (· ≠ '\r')).splitOn '\n')

def checkHeading (rest : List Text) : Except Why Unit :=
  match rest.find? (· ≠ []) with
  | none => .error .headingMissing
  | some heading =>
      if !("# ".toList.isPrefixOf heading) || (heading.drop 2).head? = some '#' || strip (heading.drop 2) = [] then
        .error .heading
      else .ok ()

/-- `check_content`, with the values that it has read when it accepts. -/
def checkContent (content folder : Text) : Except Why (List (Text × Text)) := do
  let lines := linesOf content
  if lines.head? ≠ some fence then .error .missing
  else
    match untilFence lines with
    | none => .error .unclosed
    | some (front, rest) => do
        let values ← front.foldlM frontmatterLine []
        requireFields values
        checkHeading rest
        let ident := (Entries.get keyId values).getD []
        if folder ≠ [] && ident ≠ folder then .error (.notFolder ident folder)
        else .ok values

/-- The folder of a path that names the README of a thread. -/
def folderOf (path : Text) : Option Text :=
  match path.splitOn '/' with
  | [top, folder, name] => if top = "threads".toList ∧ folder ≠ [] ∧ name = "README.md".toList then some folder else none
  | _ => none

end Gate

end Brnrd.Readme

/-! The runtime's reading of a README: `parse_readme`, the plan and the done rows,
and the snapshot of the threads on main. -/
namespace Brnrd.Readme

open Python

variable (alphabet : Alphabet)

/-- A value of the dictionary that `read_thread` returns. -/
inductive Field where
  | text (value : Text)
  | items (values : List Text)
  | plan (rows : Option (List (Option Bool × Text)))
  | done (rows : List (Text × Text × Text))
deriving DecidableEq

abbrev Data := List (Text × Field)

/-- `_key_ok`. -/
def keyOk (key : Text) : Bool :=
  key.head?.any (isalpha alphabet) && key.all fun c => isalnum alphabet c || c = '-' || c = '_'

/-- `_unquote`. -/
def unquote (value : Text) : Except Why Text :=
  if value.head? = some '"' || value.getLast? = some '"' then
    if value.length < 2 || value.head? ≠ some '"' || value.getLast? ≠ some '"' || '"' ∈ inner value then
      .error (.quote value)
    else .ok (inner value)
  else .ok value

/-- One part of a list. -/
def readPart (key part : Text) : Except Why Text :=
  if strip part = [] then .error (.listMalformed key) else unquote (strip part)

/-- `_parse_list`. -/
def parseList (value key : Text) : Except Why (List Text) :=
  if value.getLast? ≠ some ']' then .error (.listUnclosed key)
  else if strip (inner value) = [] then .ok []
  else ((strip (inner value)).splitOn ',').mapM (readPart key)

/-- What `parse_readme` makes of a value, which it has stripped. -/
def fieldOf (key value : Text) : Except Why Field :=
  if key = keyFor ∧ value.head? = some '[' then .error .forString
  else if value.head? = some '[' then (parseList value key).map .items
  else (unquote value).map .text

/-- One turn of the loop of `parse_readme` over the front matter. -/
def readLine (data : Data) (line : Text) : Except Why Data :=
  if strip line = [] then .ok data
  else if line.head? = some ' ' || line.head? = some '\t' || !(partition line).2.1 then .error (.notKeyValue line)
  else
    let key := strip (partition line).1
    if !keyOk alphabet key then .error (.notKeyValue line)
    else if (Entries.get key data).isSome then .error (.duplicate key)
    else (fieldOf key (strip (partition line).2.2)).map fun field => Entries.set key field data

/-- What `_require` reads of a field: a text that is not empty. -/
def required (data : Data) (key : Text) : Except Why Text :=
  match Entries.get key data with
  | some (.text value) => if value = [] then .error (.required key) else .ok value
  | _ => .error (.required key)

/-- `_require`. -/
def require_ (data : Data) : Except Why Unit := do
  let _ ← required data keyId
  let status ← required data keyStatus
  if status ∉ statuses then .error (.notOneOf keyStatus status (why statuses))
  else do
    let tense ← required data keyTense
    if tense ∉ tenses then .error (.notOneOf keyTense tense (why tenses))
    else if tense = "reference".toList ∧ status ≠ "settled".toList then .error .reference
    else .ok ()

/-- `_headline`. -/
def headline (lines : List Text) : Except Why Text :=
  match lines.dropWhile (strip · = []) with
  | [] => .error .headingMissing
  | line :: _ =>
      let rest := if "# ".toList.isPrefixOf line then line.drop 2 else []
      if !("# ".toList.isPrefixOf line) || rest.head? = some '#' || strip rest = [] then .error .heading
      else .ok (strip rest)

/-- `parse_readme` on the lines of a text. -/
def parseLines (lines : List Text) : Except Why Data :=
  if lines.head? ≠ some fence then .error .missing
  else
    match untilFence lines with
    | none => .error .unclosed
    | some (front, rest) => do
        let data ← front.foldlM (readLine alphabet) []
        require_ data
        let heading ← headline rest
        .ok (Entries.set "headline".toList (.text heading) data)

def parseReadme (text : Text) : Except Why Data :=
  parseLines alphabet (splitlines text)

/-- The row of `parse_plan` in a line, which `^\s*- (?:\[([ xX])\] )?(.+)$` finds. A
box with nothing behind it is the text of its row. -/
def planRow (line : Text) : Option (Option Bool × Text) :=
  match line.dropWhile isSpace with
  | '-' :: ' ' :: row =>
      match row with
      | '[' :: box :: ']' :: ' ' :: c :: rest =>
          if box = ' ' || box = 'x' || box = 'X' then some (some (box ≠ ' '), c :: rest) else some (none, row)
      | [] => none
      | _ => some (none, row)
  | _ => none

/-- One turn of `parse_plan`: the plan so far, and whether the line is inside it. -/
def planLine (state : Option (List (Option Bool × Text)) × Bool) (line : Text) :
    Option (List (Option Bool × Text)) × Bool :=
  if "## ".toList.isPrefixOf line then
    let inside := decide (line = "## Plan".toList)
    (if inside && state.1.isNone then some [] else state.1, inside)
  else if state.2 then (state.1.map (· ++ (planRow line).toList), true)
  else state

/-- `parse_plan`. -/
def parsePlan (text : Text) : Option (List (Option Bool × Text)) :=
  ((splitlines text).foldl planLine (none, false)).1

def doneKinds : List Text :=
  ["pr", "issue", "doc", "research", "file", "answer", "post", "action"].map String.toList

/-- The row of `parse_done` in a line, which `^- (kind) (\S+) — (.+)$` finds. -/
def doneRow (line : Text) : Option (Text × Text × Text) :=
  doneKinds.findSome? fun kind =>
    let start := "- ".toList ++ kind ++ [' ']
    if start.isPrefixOf line then
      let ref := (line.drop start.length).takeWhile (!isSpace ·)
      let rest := line.drop (start.length + ref.length)
      if ref ≠ [] ∧ " — ".toList.isPrefixOf rest ∧ rest.length > 3 then some (kind, ref, rest.drop 3) else none
    else none

def doneLine (state : List (Text × Text × Text) × Bool) (line : Text) : List (Text × Text × Text) × Bool :=
  if "## ".toList.isPrefixOf line then (state.1, decide (line = "## Done".toList))
  else if state.2 then (state.1 ++ (doneRow line).toList, true)
  else state

/-- `parse_done`. -/
def parseDone (text : Text) : List (Text × Text × Text) :=
  ((splitlines text).foldl doneLine ([], false)).1

/-- The newlines of a text that a subprocess printed: `\r\n` and a lone `\r` become
`\n`. -/
def universal : Text → Text
  | [] => []
  | '\r' :: '\n' :: rest => '\n' :: universal rest
  | '\r' :: rest => '\n' :: universal rest
  | c :: rest => c :: universal rest

/-- Main at one commit: the paths that `git ls-tree` prints, and the text that is at
a path. -/
structure Tree where
  paths : List Text
  content : Text → Option Text

def readmePath (thread : Text) : Text :=
  "threads/".toList ++ thread ++ "/README.md".toList

/-- `read_thread` at a commit, `none` where it raises or returns no field. -/
def readThread (tree : Tree) (thread : Text) : Option Data :=
  if !Project.isThreadId (String.ofList thread) then none
  else
    (tree.content (readmePath thread)).bind fun content =>
      let text := universal content
      match parseReadme alphabet text with
      | .error _ => none
      | .ok data =>
          some (Entries.set "done".toList (.done (parseDone text))
            (Entries.set "plan_rows".toList (.plan (parsePlan text)) data))

/-- The thread of a path of the tree. -/
def threadOf (path : Text) : Option Text :=
  match path.splitOn '/' with
  | [_, thread, name] => if name = "README.md".toList then some thread else none
  | _ => none

/-- One turn of the loop of `main_snapshot`. -/
def snapshotPath (tree : Tree) (result : List (Text × Data)) (path : Text) : List (Text × Data) :=
  match (threadOf path).bind fun thread => (readThread alphabet tree thread).map (thread, ·) with
  | none => result
  | some (thread, data) => Entries.set thread data result

/-- `main_snapshot`. -/
def mainSnapshot (tree : Tree) : List (Text × Data) :=
  tree.paths.foldl (snapshotPath alphabet tree) []

end Brnrd.Readme
