import Brnrd.Readme.Readme

/-! The driver that merges a README: its front matter by the key against the base, its
prose by a body. -/
namespace Brnrd.Readme

open Python

variable (alphabet : Alphabet)

/-- `line.rstrip("\r\n")`. -/
def bareLine (line : Text) : Text :=
  line.rdropWhile fun c => c = '\r' || c = '\n'

/-- What `_parts` returns: the data, the lines of the front matter by their key, and
the prose. -/
structure Parts where
  data : Data
  raw : List (Text × Text)
  body : Text

/-- One line of the front matter in the comprehension of `_parts`. -/
def rawLine (raw : List (Text × Text)) (line : Text) : List (Text × Text) :=
  if strip line = [] then raw else Entries.set (strip (partition line).1) (bareLine line) raw

/-- `_parts`. -/
def partsOf (text : Text) : Except Why Parts := do
  let data ← parseReadme alphabet text
  let lines := (keptFrom [] text).drop 1
  .ok {
    data
    raw := (lines.takeWhile (strip · ≠ fence)).foldl rawLine []
    body := ((lines.dropWhile (strip · ≠ fence)).drop 1).flatten }

/-- `fake_merge`. -/
def fakeMerge (ours theirs : Text) : Text :=
  joinLines (splitlines ours ++ (splitlines theirs).filter (· ∉ splitlines ours)) ++ ['\n']

/-- `_strip_fence`. -/
def stripFence (text : Text) : Text :=
  let lines := splitlines (strip text)
  let fenced := fun line : Option Text => line.any ("```".toList.isPrefixOf ·)
  let inside :=
    if fenced lines.head? then
      if fenced (lines.drop 1).getLast? then (lines.drop 1).dropLast else lines.drop 1
    else lines
  let body := (joinLines inside).rdropWhile isSpace
  if body = [] then [] else body ++ ['\n']

def promptFor (ours theirs path : Text) : Text :=
  "Merge two versions of one file. Keep a valid README frontmatter ".toList ++
    "(id, status, tense) and a single heading line that starts with '# '. ".toList ++
    "Keep every unique body line from both sides. ".toList ++ "Output only the file, no explanation.\n\n".toList ++
    "PATH ".toList ++ path ++ "\n\nOURS\n".toList ++ ours ++ "\nTHEIRS\n".toList ++ theirs

/-- `haiku_merge`, where `answer` is what the command prints for a prompt, `none` where
it fails. -/
def haikuMerge (answer : Text → Option Text) (ours theirs path : Text) : Option Text :=
  match answer (promptFor ours theirs path) with
  | none => none
  | some printed => if strip printed = [] then none else some (stripFence printed)

/-- `Path(path).parent.name`. -/
def folderName (path : Text) : Text :=
  (((path.splitOn '/').filter fun part => part ≠ [] ∧ part ≠ ['.']).dropLast.getLast?).getD []

/-- `acceptable`. -/
def acceptable (text path : Text) : Bool :=
  match parseReadme alphabet text with
  | .error _ => false
  | .ok data => Entries.get keyId data = some (.text (folderName path))

/-- One turn of the loop of `merge` over the keys, `none` where it stops. -/
def headerLine (base : Data) (ours theirs : Parts) (header : List Text) (key : Text) : Option (List Text) :=
  let before := Entries.get key base
  let left := Entries.get key ours.data
  let right := Entries.get key theirs.data
  if left ≠ before ∧ right ≠ before ∧ left ≠ right ∧ key ≠ keyStatus then none
  else
    let source := if left = before ∧ right ≠ before then theirs.raw else ours.raw
    some (header ++ (Entries.get key source).toList)

/-- The front matter of the merge. Each key is taken once, ours first. -/
def mergeFront (base : Data) (ours theirs : Parts) : Option Text :=
  ((ours.raw ++ theirs.raw).map Prod.fst).eraseDups.foldlM (headerLine base ours theirs) [fence] |>.map
    fun header => joinLines (header ++ [fence]) ++ ['\n']

/-- The README that a body makes of the front matter and the two proses. -/
def mergeBody (body : Text) (answer : Text → Option Text) (front : Text) (ours theirs : Parts) (path : Text) : Option Text :=
  if body = [] ∨ body = "fake".toList then some (front ++ fakeMerge ours.body theirs.body)
  else if body = "claude-haiku".toList then
    match haikuMerge answer (front ++ ours.body) (front ++ theirs.body) path with
    | none => none
    | some text =>
        if !acceptable alphabet text path then none
        -- A body chooses prose, never a different thread state.
        else (partsOf alphabet text).toOption.map fun found => front ++ found.body
  else none

/-- The texts of the files, `none` where one cannot be read. -/
abbrev Disk := Text → Option Text

/-- What is written to `%A`, `none` where `merge` stops. -/
def mergeText (disk : Disk) (body : Text) (answer : Text → Option Text) (base ours theirs path : Text) : Option Text := do
  let before ← (disk base).map universal
  let left ← (disk ours).map universal
  let right ← (disk theirs).map universal
  -- Where both sides added the file there is no base to read.
  let data := match partsOf alphabet before with
    | .ok parts => parts.data
    | .error _ => []
  let left ← (partsOf alphabet left).toOption
  let right ← (partsOf alphabet right).toOption
  let front ← mergeFront data left right
  let result ← mergeBody alphabet body answer front left right path
  if acceptable alphabet result path then some result else none

/-- `merge`: the exit code and the files behind it, where the write goes through. -/
def merge (disk : Disk) (body : Text) (answer : Text → Option Text) (base ours theirs path : Text) : Nat × Disk :=
  match mergeText alphabet disk body answer base ours theirs path with
  | none => (1, disk)
  | some result => (0, Function.update disk ours (some result))

end Brnrd.Readme
