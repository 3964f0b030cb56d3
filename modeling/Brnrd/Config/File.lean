import Brnrd.Lists.Entries
import Brnrd.Python.Json
import Brnrd.Python.Lines

/-! The knobs of `loom/config.toml`, and the values their lines hold. -/
namespace Brnrd.Config

abbrev Text := List Char

/-- An item of a list. One that is no text is kept by its printed form. -/
inductive Item where
  | text (s : Text)
  | other (printed : Text)
  deriving DecidableEq

def Item.text? : Item → Option Text
  | .text s => some s
  | .other _ => none

/-- What a line may hold. A float is kept by its printed form. -/
inductive Value where
  | null
  | bool (b : Bool)
  | int (n : Int)
  | float (printed : Text)
  | str (s : Text)
  | list (items : List Item)
  deriving DecidableEq

inductive Kind where
  | text
  | path
  | secret
  | names
  | choice
  | seconds
  | positive
  | percent
  deriving DecidableEq

structure Key where
  name : String
  kind : Kind
  default : Value
  help : String
  choices : List String := []

def KEYS : List Key :=
  [ { name := "name", kind := .text, default := .null
      help := "This loom's name. A thread whose README says `for: <name>` runs only on the loom of that name; unset " ++
        "matches none." },
    { name := "body", kind := .text, default := .null
      help := "The body a login service runs: a shell (e.g. claude), which uses the harness's own model choice, or " ++
        "shell/core to pin a model (e.g. claude/sonnet). `brnrd loom install` writes one when unset." },
    { name := "author", kind := .text, default := .null
      help := "`Name <email>` for every commit a body makes. Unset: the loom's own." },
    { name := "forge_token", kind := .secret, default := .null
      help := "How to get the forge token `publish` pushes with and a body's gh uses: \"command: gh auth token\", " ++
        "\"file: ~/path\" or \"env: NAME\". Read at each use and at body start, never stored. Install and loom " ++
        "start set it: \"command: gh auth token\" when gh is signed in, the App's `forge-token` verb once the " ++
        "home holds a cloud gate; any other value is left alone. Unset: the machine's own git setup." },
    { name := "gh", kind := .choice, default := .str "auto".toList, choices := ["auto", "off"]
      help := "A body's `gh`: auto uses the forge token above when the home has one, else the machine's gh login; " ++
        "off signs it out." },
    { name := "update", kind := .choice, default := .str "auto".toList, choices := ["auto", "dev", "stable", "off"]
      help := "How the loom follows new code: dev fast-forwards the checkout it runs from to origin's main once " ++
        "main's CI is green, then re-execs at an idle tick; stable is the release channel (not built yet); " ++
        "off stays put. auto: dev for a git checkout, else off." },
    { name := "connectors", kind := .names, default := .list []
      help := "Enabled folders or named channels, e.g. [\"inbox=addon\"]. Home folders override bundled folders; " ++
        "default: none." },
    { name := "relay_state", kind := .path, default := .null
      help := "The account's cloud gate state directory (holds gates/cloud.json). Read by the account-backed " ++
        "connector folder." },
    { name := "guard", kind := .choice, default := .str "on".toList, choices := ["on", "off"]
      help := "on: letters from strangers, web reads and tainted strands taint what they touch, and a tainted " ++
        "strand cannot publish, push to self or open threads. off: every strand is clean and nothing is " ++
        "shielded." },
    { name := "hold_floor_pct", kind := .percent, default := .float "3.0".toList
      help := "A quota window with this percent or less left counts as exhausted: a held body stays held." },
    { name := "disk_floor_pct", kind := .percent, default := .float "5.0".toList
      help := "The disk floor, as a percent of the home's volume (never under 5 GiB): below it the loom is " ++
        "degraded, reaps rooms at once and prunes package caches." },
    { name := "memory_floor", kind := .choice, default := .str "on".toList, choices := ["on", "off"]
      help := "on: while macOS reports memory pressure critical, or warn with more than memory_swap_gb of swap " ++
        "used, the loom is degraded and starts no new body (a wanted one waits, live ones are untouched). " ++
        "off: bodies start whatever the pressure. Elsewhere it reads nothing." },
    { name := "memory_swap_gb", kind := .positive, default := .float "6.0".toList
      help := "GB of swap used past which a warn pressure holds new bodies (memory_floor). An absolute amount: " ++
        "macOS grows its swap total on demand, so a share of it is nearly always high." },
    { name := "max_held", kind := .positive, default := .null
      help := "Most live bodies this install keeps warm, the home thread's not counted. Past it, the body held " ++
        "longest with nothing to do leaves at its stop hook; a working body is never cut, and the next letter " ++
        "to its thread starts a fresh one. Unset: every body holds." },
    { name := "thread_budget", kind := .positive, default := .int 2000000
      help := "Weighted tokens a thread opened by another thread may spend before its strand is told, at every " ++
        "boundary, to write to its parent for more. `send --budget` overrides it." },
    { name := "turn", kind := .seconds, default := .float "7200.0".toList
      help := "Seconds between a park's turns. A park that waits on someone (letter:, wish:, pr:, prose) wakes its " ++
        "thread once a turn while the week's fuel is ahead of pace and the thread has acts it could move; the " ++
        "park stays. 0: parks carry no turn." },
    { name := "stop_grace", kind := .seconds, default := .float "60.0".toList
      help := "Seconds a settled thread's body may take to land and exit before it is signalled." },
    { name := "router_ttl", kind := .positive, default := .float "30.0".toList
      help := "Seconds a router lease lasts; a silent router is replaced after this." },
    { name := "max_skew", kind := .seconds, default := .float "5.0".toList
      help := "Clock skew, in seconds, a router lease must tolerate; grants stop at until - max_skew - margin." },
    { name := "margin", kind := .seconds, default := .float "1.0".toList
      help := "Extra seconds, beyond max_skew, a router stops granting before its lease ends." },
    { name := "lease_remote", kind := .text, default := .null
      help := "The self's https URL whose refs/leases/inbox decides which install routes and runs connectors, so " ++
        "two machines can share one resident; that lease lasts router_ttl but at least 180 s. Unset, the " ++
        "router lease is this machine's alone." },
    { name := "lease_mode", kind := .choice, default := .str "contested".toList, choices := ["contested", "strict"]
      help := "contested: a holder that cannot reach lease_remote keeps routing unless a peer's ledger moved there " ++
        "in the last 10 minutes; strict: it stops at the end of its ttl." },
    { name := "board_port", kind := .text, default := .null
      help := "Loopback port the board's parts are served on (127.0.0.1); unset, the board is off. Read at start." } ]

/-- `BY_NAME.get(name)`. -/
def byName (name : String) : Option Key :=
  KEYS.find? fun key => key.name = name

def RETIRED : List String :=
  ["shed_excess", "shed_hold"]

/-- The characters a key is spelled with. -/
def keyChar (c : Char) : Bool :=
  'a' ≤ c && c ≤ 'z' || c = '_'

/-- A key is a word of small letters. -/
theorem key_plain : ∀ key ∈ KEYS, key.name.toList ≠ [] ∧ ∀ c ∈ key.name.toList, keyChar c = true := by
  decide +kernel

theorem names_distinct : (KEYS.map Key.name).Nodup := by
  decide +kernel

/-- A key whose default is `None` is a text, or a number. -/
theorem null_default : ∀ key ∈ KEYS, key.default = .null → key.kind ≠ .names ∧ key.kind ≠ .choice := by
  decide +kernel

theorem byName_eq {key : Key} (h : key ∈ KEYS) : byName key.name = some key := by
  have hAll : ∀ (keys : List Key), (keys.map Key.name).Nodup → ∀ key ∈ keys,
      keys.find? (fun other => other.name = key.name) = some key := by
    intro keys hDistinct key hMem
    induction keys with
    | nil => cases hMem
    | cons first keys ih =>
        rw [List.map_cons, List.nodup_cons] at hDistinct
        rcases List.mem_cons.mp hMem with rfl | hMem
        · simp
        · have hOther : first.name ≠ key.name := fun hSame => hDistinct.1 (hSame ▸ List.mem_map_of_mem hMem)
          rw [List.find?_cons_of_neg (by simpa using hOther)]
          exact ih hDistinct.2 hMem
  exact hAll KEYS names_distinct key h

end Brnrd.Config

/-! How `loom/config.toml` is read, folded and edited. -/
namespace Brnrd.Config

open Python

/-- What the interpreter and the machine decide: floats by their printed form,
`ast.literal_eval` of a text that begins with a bracket, which a `ValueError`
makes `none` and any other exception an error, the printed form of a value, the
home directories, and the closest known key. -/
structure Interpreter where
  float : Text → Option Text
  ofInt : Int → Option Text
  nonpositive : Text → Bool
  negative : Text → Bool
  literalEval : Text → Except String (Option (List Item))
  repr : Value → String
  home : Text → Option Text
  near : String → Option String

/-- The part of a text before its first such character. -/
def before (sep : Char) (text : Text) : Text :=
  text.takeWhile (· ≠ sep)

/-- The part behind it. -/
def behind (sep : Char) (text : Text) : Text :=
  (text.dropWhile (· ≠ sep)).tail

/-- The scan of `_without_comment`: the open quote, and whether a backslash
stands before. -/
def keepFrom (quote : Option Char) (escaped : Bool) : Text → Text
  | [] => []
  | c :: rest =>
      if escaped then c :: keepFrom quote false rest
      else if c = '\\' ∧ quote = some '"' then c :: keepFrom quote true rest
      else match quote with
        | some mark => c :: keepFrom (if c = mark then none else quote) false rest
        | none =>
            if c = '\'' ∨ c = '"' then c :: keepFrom (some c) false rest
            else if c = '#' then []
            else c :: keepFrom none false rest

def withoutComment (line : Text) : Text :=
  keepFrom none false line

section Reading

variable (host : Interpreter)

def literal (raw : Text) : Except String Value :=
  if raw.head? = some '[' then
    match host.literalEval raw with
    | .error raised => .error raised
    | .ok (some items) => .ok (.list items)
    | .ok none => .ok (.str raw)
  else if 2 ≤ raw.length ∧ raw.head? = raw.getLast? ∧ (raw.head? = some '"' ∨ raw.head? = some '\'') then
    .ok (.str raw.tail.dropLast)
  else if '.' ∈ raw then
    match host.float raw with
    | some printed => .ok (.float printed)
    | none => .ok (.str raw)
  else
    match parseInt (String.ofList raw) with
    | some n => .ok (.int n)
    | none => .ok (.str raw)

abbrev Found := List (String × Value)

/-- One line of `read_values`. -/
def readLine (path : String) (found : Found) (line : Text) : Except String Found :=
  let kept := strip (withoutComment line)
  if kept = [] ∨ '=' ∉ kept then .ok found
  else
    let key := String.ofList (strip (before '=' kept))
    if (Entries.get key found).isSome then .error s!"{path}: {key} is set twice; keep one line"
    else do
      let value ← literal host (strip (behind '=' kept))
      return Entries.set key value found

def readValues (path : String) (contents : Option Text) : Except String Found :=
  match contents with
  | none => .ok []
  | some text => (splitlines text).foldlM (readLine host path) []

/-- `[A-Za-z0-9][A-Za-z0-9._-]*`. -/
def isFolder (name : Text) : Bool :=
  let alnum := fun c : Char => 'a' ≤ c && c ≤ 'z' || 'A' ≤ c && c ≤ 'Z' || '0' ≤ c && c ≤ '9'
  match name with
  | [] => false
  | c :: rest => alnum c && rest.all fun c => alnum c || c = '.' || c = '_' || c = '-'

/-- A folder, or a name and a folder. -/
def isChannel (spelling : Text) : Bool :=
  if '=' ∈ spelling then isFolder (before '=' spelling) && isFolder (behind '=' spelling) else isFolder spelling

/-- `os.path.expanduser`. -/
def expanduser (path : Text) : Text :=
  match path with
  | '~' :: rest =>
      match host.home (before '/' rest) with
      | none => path
      | some dir =>
          let whole := dir.rdropWhile (· = '/') ++ rest.dropWhile (· ≠ '/')
          if whole = [] then ['/'] else whole
  | _ => path

/-- `[A-Za-z_][A-Za-z0-9_]*`. -/
def isVariable (name : Text) : Bool :=
  let letter := fun c : Char => 'a' ≤ c && c ≤ 'z' || 'A' ≤ c && c ≤ 'Z' || c = '_'
  match name with
  | [] => false
  | c :: rest => letter c && rest.all fun c => letter c || '0' ≤ c && c ≤ '9'

def SECRET_SOURCES : List Text :=
  ["command".toList, "file".toList, "env".toList]

/-- `_secret_source`, `none` where it raises. -/
def secretSource (spec : Text) : Option Text :=
  let source := strip (before ':' spec)
  let arg := strip (behind ':' spec)
  if ':' ∉ spec ∨ source ∉ SECRET_SOURCES ∨ arg = [] then none
  else if source = "env".toList ∧ !isVariable arg then none
  else
    let arg := if source = "file".toList then expanduser host arg else arg
    some (source ++ ": ".toList ++ arg)

def coerce (path : String) (key : Key) (value : Value) : Except String Value :=
  let refuse := fun want : String =>
    Except.error s!"{path}: {key.name} must be {want}, not {host.repr value}"
  let number := fun printed : Text =>
    if key.kind = .positive ∧ host.nonpositive printed then refuse "greater than 0"
    else if host.negative printed then refuse "0 or more"
    else .ok (.float printed)
  match key.kind with
  | .names =>
      match value with
      | .list items =>
          let names := items.filterMap Item.text?
          if names.length ≠ items.length ∨ !names.all isChannel then
            refuse "an array of \"folder\" or \"name=folder\" strings"
          else if ¬(names.map (before '=')).Nodup then refuse "unique connector names"
          else .ok value
      | _ => refuse "an array of \"folder\" or \"name=folder\" strings"
  | .text =>
      match value with
      | .str s => .ok (if strip s = [] then .null else .str (strip s))
      | _ => refuse "a quoted string"
  | .path =>
      match value with
      | .str s => .ok (if strip s = [] then .null else .str (expanduser host (strip s)))
      | _ => refuse "a quoted string"
  | .secret =>
      match value with
      | .str s =>
          if strip s = [] then .ok .null
          else match secretSource host (strip s) with
            | some source => .ok (.str source)
            | none => refuse "\"command: <shell>\", \"file: <path>\" or \"env: <NAME>\""
      | _ => refuse "a quoted string"
  | .choice =>
      match value with
      | .str s =>
          if String.ofList s ∈ key.choices then .ok value
          else refuse (" or ".intercalate (key.choices.map fun c => "\"" ++ c ++ "\""))
      | _ => refuse (" or ".intercalate (key.choices.map fun c => "\"" ++ c ++ "\""))
  | _ =>
      match value with
      | .str s => if s = [] ∧ key.default = .null then .ok .null else refuse "a number"
      | .int n =>
          match host.ofInt n with
          | some printed => number printed
          | none => .error "int too large to convert to float"
      | .float printed => number printed
      | _ => refuse "a number"

/-- One item of `load_config_report`, without an `unknown` handler. -/
def loadItem (path : String) (values : Found) (item : String × Value) : Except String Found :=
  match byName item.1 with
  | none =>
      if item.1 ∈ RETIRED then .ok values
      else match host.near item.1 with
        | some near => .error s!"{path}: unknown key {host.repr (.str item.1.toList)} (did you mean {near}?)"
        | none =>
            let known := ", ".intercalate (KEYS.map Key.name)
            .error s!"{path}: unknown key {host.repr (.str item.1.toList)} (known: {known})"
  | some key => do
      let value ← coerce host path key item.2
      return Entries.set item.1 value values

/-- The value of every key, in the order of `KEYS`. -/
abbrev LoomConfig := List (String × Value)

def effective (values : Found) : LoomConfig :=
  KEYS.map fun key => (key.name, (Entries.get key.name values).getD key.default)

def loadConfig (path : String) (contents : Option Text) : Except String LoomConfig := do
  let found ← readValues host path contents
  let values ← found.foldlM (loadItem host path) []
  return effective values

end Reading

/-- The key an uncommented line sets. -/
def setKey (line : Text) : Option String :=
  let kept := strip (withoutComment line)
  if kept = [] ∨ '=' ∉ kept then none else some (String.ofList (strip (before '=' kept)))

def FOLDED : Text :=
  "# folded, an earlier duplicate the last line overrode: ".toList

/-- The last line of each key. -/
def lastLines (lines : List Text) : List (String × Nat) :=
  lines.zipIdx.foldl (fun last item =>
    match setKey item.1 with
    | some key => Entries.set key item.2 last
    | none => last) []

/-- Whether a later line sets the key of this one. -/
def overridden (last : List (String × Nat)) (item : Text × Nat) : Option String :=
  (setKey item.1).filter fun key => Entries.get key last ≠ some item.2

/-- The file that is left, and the keys folded. -/
def foldConfig (text : Text) : Text × List String :=
  let lines := splitlines text
  let last := lastLines lines
  let folded := lines.zipIdx.filterMap (overridden last)
  if folded = [] then (text, [])
  else
    let left := lines.zipIdx.map fun item => if (overridden last item).isSome then FOLDED ++ item.1 else item.1
    (joinLines left ++ ['\n'], folded.dedup.mergeSort fun a b => a ≤ b)

/-- An item as `json.dumps` prints it. -/
def printItem : Item → Text
  | .text s => dumps s
  | .other printed => printed

def renderValue : Value → Text
  | .list items => '[' :: ((", ".toList).intercalate (items.map printItem) ++ [']'])
  | .null => ['"', '"']
  | .str s => '"' :: (s ++ ['"'])
  | .bool b => if b then "True".toList else "False".toList
  | .int n => (toString n).toList
  | .float printed => printed

/-- The lines `init` seeds: every key commented out at its default. -/
def renderConfig : List Text :=
  ["# brnrd loom config: the knobs this home's looms share.".toList,
    "# Flat `key = value` lines; [sections] are not read. Every line below is".toList,
    "# commented out at its default: uncomment one to change it. An unknown".toList,
    "# key, or a value of the wrong kind, is refused when the loom starts.".toList,
    "# `brnrd loom config` prints what is in effect and where each came from.".toList] ++
  KEYS.flatMap fun key =>
    [[], "# ".toList ++ key.help.toList,
      "# ".toList ++ key.name.toList ++ " = ".toList ++ renderValue key.default]

/-- The file `seed_config` leaves. -/
def seedConfig (contents : Option Text) : Text :=
  match contents with
  | some text => (foldConfig text).1
  | none => joinLines renderConfig ++ ['\n']

/-- `#\s*name\s*=` at the start of a stripped line. -/
def isTemplate (name : String) (line : Text) : Bool :=
  match strip line with
  | '#' :: rest =>
      let rest := rest.dropWhile isSpace
      name.toList.isPrefixOf rest && ((rest.drop name.toList.length).dropWhile isSpace).head? = some '='
  | _ => false

def settingOf (name : String) (value : Value) : Text :=
  name.toList ++ " = ".toList ++ renderValue value

/-- The lines `set_value` writes. -/
def setLines (name : String) (setting : Text) (lines : List Text) : List Text :=
  let live := lines.findIdxs fun line => setKey line = some name
  let template := lines.findIdxs (isTemplate name)
  match live.getLast? with
  | some last => live.dropLast.foldl (fun lines index => lines.modify index (FOLDED ++ ·)) (lines.set last setting)
  | none =>
      match template.getLast? with
      | some last => lines.set last setting
      | none => lines ++ [setting]

def setValue (host : Interpreter) (path : String) (contents : Option Text) (name : String) (value : Value) :
    Except String Text :=
  if (byName name).isNone then .error s!"{path}: unknown key {host.repr (.str name.toList)}"
  else .ok (joinLines (setLines name (settingOf name value) (splitlines (seedConfig contents))) ++ ['\n'])

end Brnrd.Config
