import Brnrd.Project.Replay
import Brnrd.Python.Lines

/-! The boundary page: how the loom writes the letters a body is owed, and how
the body's jack reads them back line by line. -/
namespace Brnrd.Port

open Python Facts Project

/-- A thread opened from the page's own thread. -/
structure Opened where
  openedBy : List Char
  status : List Char
  now : List Char
  prs : List (List Char)
  owed : Nat
  waits : List Char
  headline : List Char
  thread : List Char

/-- What `render_boundary` is called with. `clock` is what the clock prints. -/
structure Page where
  strand : List Char
  gen : Nat
  clock : List Char
  thread : List Char
  letters : List Fact
  shown : List String
  senderThreads : List (String × String)
  fuel : List Char
  settled : Option (List Char)
  channels : List (String × String)
  opened : List Opened
  plan : List Char
  replies : Option (List (String × String))
  attachments : List (String × List (List Char))
  replyContext : List (String × List Char)
  budget : List Char
  «over» : List Char
  repaired : List Char
  degraded : List Char
  face : List Char
  left : List Char
  moved : List Char
  library : List Char
  forge : List Char
  band : List Char
  done : List Char
  room : List Char
  cited : List Char
  idle : List Char

/-- The digits of a number as `int` reads them. -/
def number (text : List Char) : Nat :=
  text.foldl (fun n c => n * 10 + (digit c).getD 0) 0

def isDigits (text : List Char) : Bool :=
  text != [] && text.all fun c => (digit c).isSome

/-- The age at the end of a line, ` 90s`, in minutes. -/
def inMinutes (line : List Char) : List Char :=
  match line.reverse with
  | 's' :: rest =>
      let seconds := (rest.takeWhile fun c => (digit c).isSome).reverse
      let before := (rest.dropWhile fun c => (digit c).isSome).reverse
      if seconds ≠ [] ∧ before.getLast? = some ' ' then before ++ (toString (number seconds / 60)).toList ++ ['m']
      else line
  | _ => line

/-- The age of a pull request. `$` also matches before a newline at the end. -/
def prAge (pr : List Char) : List Char :=
  if pr.getLast? = some '\n' then inMinutes pr.dropLast ++ ['\n'] else inMinutes pr

/-- The words of `now` that earn a thread a line. -/
def moving : List String :=
  ["working", "holding", "paced", "pending", "unidentified"]

def sepDot : List Char := " · ".toList

def portMark : List Char := "<!-- port ".toList

def genMark : List Char := " gen ".toList

def owedMark : List Char := " · owed".toList

def itemMark : List Char := "- ".toList

def fromMark : List Char := " · from ".toList

def replyMark : List Char := " · reply ".toList

def compactMark : List Char := " · compact".toList

def dashMark : List Char := " — ".toList

def settledMark : List Char := "settled:".toList

def firstMark : List Char := "first-word: ".toList

/-- The line of an opened thread: `none` where it has none, and whether such a
thread counts as idle. -/
def Opened.line (row : Opened) (thread forge : List Char) : Option (List Char) × Bool :=
  if row.openedBy ≠ "thread:".toList ++ thread ∨ String.ofList row.status ∈ ["settled", "retired"] then (none, false)
  else
    let now := row.now.takeWhile (· ≠ ' ')
    let detail := (row.now.dropWhile (· ≠ ' ')).drop 1
    let prs := row.prs.map prAge
    if String.ofList now ∉ moving ∧ row.owed = 0 ∧ prs = [] then (none, true)
    else
      let unit := detail.getLast?
      let aged :=
        if isDigits detail.dropLast ∧ unit = some 's' then
          now ++ ' ' :: (toString (number detail.dropLast / 60)).toList ++ ['m']
        else if isDigits detail.dropLast ∧ (unit = some 'm' ∨ unit = some 'h' ∨ unit = some 'd') then
          now ++ ' ' :: detail
        else now
      let fields := ("owed ".toList ++ (toString row.owed).toList) :: prs ++
        (if row.waits = [] then [] else ["waits ".toList ++ row.waits]) ++
        (if row.headline = [] then [] else [row.headline]) ++
        (if forge = [] then [] else [forge ++ '/' :: row.thread])
      (some ("opened: ".toList ++ row.thread ++ ' ' :: aged ++ sepDot ++ sepDot.intercalate fields), false)

/-- The lines of the opened threads, and one for the idle ones. -/
def Page.children (p : Page) : List (List Char) :=
  let rows := p.opened.map fun row => row.line p.thread p.forge
  let idle := rows.countP fun row => row.2
  rows.filterMap (·.1) ++
    (if idle = 0 then []
    else ["idle: ".toList ++ (toString idle).toList ++ " more opened here (brnrd runtime threads)".toList])

variable (host : Host)

/-- `str(letter.data['id'])`. -/
def idOf (letter : Fact) : List Char :=
  ((Dict.get letter.data "id").toStr host).toList

/-- `str(letter.data.get('from', ''))`. -/
def senderOf (letter : Fact) : List Char :=
  ((letter.data.lookup "from").elim "" (·.toStr host)).toList

/-- `is_person`. -/
def isPerson (letter : Fact) : Bool :=
  letter.kind = "letter" &&
    ("p-".toList.isPrefixOf (senderOf host letter) || "person:".toList.isPrefixOf (senderOf host letter))

/-- `_reply`. -/
def replyTo (letter : Fact) (senderThreads : List (String × String)) (own : List Char)
    (channels : List (String × String)) : List Char :=
  let thread := (senderThreads.lookup (removePrefix letter.by_ "strand:")).getD ""
  if thread ≠ "" ∧ thread.toList ≠ own then "thread:".toList ++ thread.toList
  else
    let channel := (channels.lookup ((Dict.get letter.data "id").toStr host)).getD ""
    if channel ≠ "" then channel.toList
    else ((channels.lookup ((Dict.get letter.data "about").toStr host)).getD "-").toList

def Page.reply (p : Page) (letter : Fact) : List Char :=
  match p.replies with
  | some replies => ((replies.lookup letter.id).getD "-").toList
  | none => replyTo host letter p.senderThreads p.thread p.channels

def indent (line : List Char) : List Char :=
  ' ' :: ' ' :: line

/-- The first line of a letter. -/
def itemLine (id sender reply : List Char) (compact : Bool) (first : List Char) : List Char :=
  itemMark ++ (id ++ (fromMark ++ (sender ++ (replyMark ++ (reply ++
    ((if compact then compactMark else []) ++ (dashMark ++ first)))))))

/-- `_letter_lines`. -/
def letterLines (letter : Fact) (reply : List Char) (compact : Bool) (attachments : List (List Char))
    (context : List Char) : List (List Char) :=
  let body := ((Dict.get letter.data "body").orElse (.str "")).toStr host |>.toList
  let parts := body.splitOn '\n'
  itemLine (idOf host letter) (senderOf host letter) reply compact (parts.headD []) ::
    ((if compact then [] else parts.tail.map indent) ++
      (splitlines context).map indent ++ attachments.map indent)

def Page.letterLines (p : Page) (letter : Fact) : List (List Char) :=
  Port.letterLines host letter (p.reply host letter) (p.shown.contains (String.ofList (idOf host letter)))
    ((p.attachments.lookup letter.id).getD []) ((p.replyContext.lookup letter.id).getD [])

/-- A line that is left out when it is empty. -/
def optional (line : List Char) : List (List Char) :=
  if line = [] then [] else [line]

def Page.header (p : Page) : List Char :=
  portMark ++ (p.strand ++ (genMark ++ ((toString p.gen).toList ++ (sepDot ++ (p.clock ++
    (owedMark ++ (' ' :: [' '].intercalate (p.letters.map (idOf host)) ++ " -->".toList)))))))

def Page.status (p : Page) : List Char :=
  "status: strand ".toList ++ p.strand ++ " · gen ".toList ++ (toString p.gen).toList ++ " · thread ".toList ++ p.thread ++
    (optional p.fuel).flatMap (sepDot ++ ·) ++ (optional p.budget).flatMap (sepDot ++ ·) ++ (optional p.plan).flatMap (sepDot ++ ·)

def settledLine (settled : List Char) : List Char :=
  settledMark ++ ' ' :: settled

/-- The loom's own lines below the settled one. -/
def Page.notices (p : Page) : List (List Char) :=
  optional p.room ++ optional p.degraded ++ optional p.library ++ optional p.repaired ++ optional p.over ++ optional p.face ++
    (if p.idle = [] then [] else [p.idle.rdropWhile (· = '\n')]) ++ optional p.cited ++ optional p.moved ++ optional p.done ++
    optional p.band ++ optional p.left

/-- `letter.data.get('id', letter.id)`. -/
def namedId (letter : Fact) : List Char :=
  ((letter.data.lookup "id").elim letter.id (·.toStr host)).toList

def firstWord (letter : Fact) : List Char :=
  firstMark ++ (namedId host letter ++ ' ' :: letter.at_.toList)

/-- The lines behind the header. -/
def Page.lines (p : Page) : List (List Char) :=
  p.status :: (p.children ++ (p.settled.elim [] fun settled => [settledLine settled]) ++ p.notices ++
    (p.letters.filter (isPerson host)).map (firstWord host) ++ "owed:".toList :: p.letters.flatMap (p.letterLines host))

/-- `render_boundary`, which raises where a letter has no id. -/
def renderBoundary (p : Page) : Except Raised (List Char) :=
  if p.letters.any fun letter => (letter.data.lookup "id").isNone then .error (.key "id")
  else .ok (joinLines (p.header host :: (p.lines host ++ [[]])))

/-- What stands behind `literal` at the start of a text. -/
def expect (literal text : List Char) : Option (List Char) :=
  if literal.isPrefixOf text then some (text.drop literal.length) else none

/-- A longest nonempty run of characters, and what follows it. In both patterns
below a run ends at a blank, so no shorter run can match. -/
def run (accepts : Char → Bool) (text : List Char) : Option (List Char × List Char) :=
  if text.takeWhile accepts = [] then none else some (text.takeWhile accepts, text.dropWhile accepts)

def word : List Char → Option (List Char × List Char) :=
  run fun c => !isSpace c

/-- A text of the shape of `pattern`, in which `0` stands for a digit. -/
def expectClock : List Char → List Char → Option (List Char)
  | [], text => some text
  | _ :: _, [] => none
  | p :: pattern, c :: text =>
      if (if p = '0' then (digit c).isSome else p = c) then expectClock pattern text else none

def clockPattern : List Char := "0000-00-00 00:00Z".toList

structure Header where
  strand : List Char
  gen : Nat
  owed : List Char

/-- The header's pattern at the start of a text, and the text behind it. -/
def matchHeader (text : List Char) : Option (Header × List Char) := do
  let text ← expect portMark text
  let (strand, text) ← word text
  let text ← expect genMark text
  let (gen, text) ← run (fun c => (digit c).isSome) text
  let text ← (do
    let text ← expect sepDot text
    let text ← expectClock clockPattern text
    expect owedMark text) <|> expect owedMark text
  let owed := text.takeWhile (· ≠ '>')
  let text ← expect ['>'] (text.dropWhile (· ≠ '>'))
  if "--".toList.isSuffixOf owed then
    some (⟨strand, number gen, owed.take (owed.length - 2)⟩, text)
  else none

/-- The first place where the header's pattern matches. -/
def searchHeader : List Char → Option (Header × List Char)
  | [] => none
  | c :: text => matchHeader (c :: text) <|> searchHeader text

/-- `text.split()`, from inside a word. -/
def wordsFrom (word : List Char) : List Char → List (List Char)
  | [] => if word = [] then [] else [word]
  | c :: text =>
      if isSpace c then (if word = [] then wordsFrom [] text else word :: wordsFrom [] text)
      else wordsFrom (word ++ [c]) text

/-- `text.split(maxsplit=2)` into three parts, `none` where there are fewer. -/
def splitThree (text : List Char) : Option (List Char × List Char × List Char) := do
  let (first, text) ← word (text.dropWhile isSpace)
  let (second, text) ← word (text.dropWhile isSpace)
  let third := text.dropWhile isSpace
  if third = [] then none else some (first, second, third)

structure LetterView where
  id : List Char
  sender : List Char
  reply : List Char
  body : List Char
  compact : Bool

/-- `_ITEM.match`. -/
def matchItem (line : List Char) : Option LetterView := do
  let line ← expect itemMark line
  let (id, line) ← word line
  let line ← expect fromMark line
  let (sender, line) ← word line
  let line ← expect replyMark line
  let (reply, line) ← word line
  match (do expect dashMark (← expect compactMark line)) with
  | some first => some ⟨id, sender, reply, first, true⟩
  | none => do
      let first ← expect dashMark line
      some ⟨id, sender, reply, first, false⟩

/-- The ways `parse_boundary` raises: "boundary has no port header", "boundary
line is not a letter: " with the line, "owed ids do not match the letter list", and
a first word that does not unpack. -/
inductive BoundaryError where
  | noHeader
  | notALetter (line : List Char)
  | owedIds
  | unpack

structure Boundary where
  strand : List Char
  gen : Nat
  ids : List (List Char)
  letters : List LetterView
  settled : Option (List Char)
  firstWords : List (List Char × List Char)

/-- Between two lines: the letters so far, the last of which is `current` while
`current` is not `None`. -/
structure Reading where
  letters : List LetterView
  current : Bool
  settled : Option (List Char)
  firstWords : List (List Char × List Char)

def Reading.start : Reading :=
  ⟨[], false, none, []⟩

/-- `current.body += "\n" + line`. -/
def continueLast (line : List Char) : List LetterView → List LetterView
  | [] => []
  | [letter] => [{ letter with body := letter.body ++ '\n' :: line }]
  | letter :: letters => letter :: continueLast line letters

/-- `words[key] = value`. -/
def putWord (key value : List Char) : List (List Char × List Char) → List (List Char × List Char)
  | [] => [(key, value)]
  | item :: rest => if item.1 = key then (key, value) :: rest else item :: putWord key value rest

/-- `line.partition(":")[2].strip()`. -/
def settledIn (line : List Char) : List Char :=
  strip ((line.dropWhile (· ≠ ':')).drop 1)

def readBoundaryLine (s : Reading) (line : List Char) : Except BoundaryError Reading :=
  if [' ', ' '].isPrefixOf line && s.current then
    .ok { s with letters := continueLast (line.drop 2) s.letters }
  else if firstMark.isPrefixOf line then
    match splitThree line with
    | some (_, ident, at_) => .ok { s with firstWords := putWord ident at_ s.firstWords, current := false }
    | none => .error .unpack
  else if settledMark.isPrefixOf line then
    .ok { s with settled := some (settledIn line), current := false }
  else if !itemMark.isPrefixOf line then .ok { s with current := false }
  else match matchItem line with
    | some letter => .ok { s with letters := s.letters ++ [letter], current := true }
    | none => .error (.notALetter line)

/-- `parse_boundary`. -/
def parseBoundary (text : List Char) : Except BoundaryError Boundary :=
  if strip text = [] then .ok ⟨[], 0, [], [], none, []⟩
  else match searchHeader text with
    | none => .error .noHeader
    | some (header, rest) => do
        let ids := wordsFrom [] header.owed
        let s ← (splitlines rest).foldlM readBoundaryLine Reading.start
        if s.letters.map (·.id) ≠ ids then .error .owedIds
        else .ok ⟨header.strand, header.gen, ids, s.letters, s.settled, s.firstWords⟩

end Brnrd.Port
