import Brnrd.Wishes.Wish

/-! Guards: rules that are held against each call of a tool. A match that refuses
may name a class, whose acts a letter of the owner lets through. -/
namespace Brnrd.Guards

open Python Wishes

abbrev Text := List Char

/-- `CLASSES`. -/
inductive Class where
  | forcePush
  | deleteHome
  | mergeRed
  | publish
  deriving DecidableEq

/-- A compiled expression: whether all of a text is a match of it, and the matches
`finditer` finds in one, each with its group `target`. -/
structure Regex where
  fullmatch : String → Bool
  finditer : Text → List (Option Text)

/-- `regex.search(text)` finds a match. -/
def Regex.search (regex : Regex) (text : Text) : Bool :=
  !(regex.finditer text).isEmpty

inductive Moment where
  | pre
  | post
  deriving DecidableEq

/-- `Match`, as `parse` lets it be: only a call that has not run is refused, and only
a refusal is granted, by the target that its `input` names. -/
structure Match where
  at_ : Moment
  tool : Regex
  input : Option Regex
  unless_ : Option Regex
  path : Option Regex
  cwd : Option Regex
  output : Option Regex
  refuse : Bool
  grant : Option Class
  refuse_pre : refuse = true → at_ = .pre
  grant_refuse : grant.isSome → refuse = true ∧ input.isSome

/-- `Paths`. -/
structure Paths where
  repo : String
  untouched : List String
  absent : List String

/-- `Guard`; `words` is its `says`. -/
structure Guard where
  id : String
  words : String
  setBy : String
  scope : String
  paths : List Paths
  matches_ : List Match

def Guard.label (guard : Guard) : String :=
  "guard " ++ guard.id ++ " (" ++ guard.setBy ++ "): " ++ guard.words

/-- What the modules around ask of the process and the disk: the two ways `json.dumps`
prints a value, and the path of a file inside the tree of a path rule, if one of the
rule's globs hits it. -/
structure Host where
  python : Python.Host
  dumps : Value → Text
  compact : Value → Text
  hitPath : Paths → Text → Option String

variable (host : Host)

/-- `str(value.get(key) or "")`. -/
def textOf (data : Dict) (key : String) : Text :=
  (((Dict.get data key).orElse (.str "")).toStr host.python).toList

/-- `_call_text`. -/
def callText (tool : String) (input : Value) : Except WishError Text :=
  match input with
  | .obj fields =>
      if tool = "Bash" then .ok (textOf host fields "command")
      else if tool = "Edit" then .ok (textOf host fields "new_string")
      else if tool = "MultiEdit" then do
        let edits ← elements (Dict.get fields "edits")
        .ok (['\n'].intercalate (edits.filterMap fun edit =>
          match edit with
          | .obj edit => some (textOf host edit "new_string")
          | _ => none))
      else if tool = "Write" then .ok (textOf host fields "content")
      else .ok (host.compact input)
  | _ => .ok (host.dumps input)

/-- `_response_text`. -/
def responseText (response : Value) : Text :=
  match response with
  | .str s => s.toList
  | .obj fields =>
      if (fields.lookup "stdout").isSome || (fields.lookup "stderr").isSome then
        textOf host fields "stdout" ++ '\n' :: textOf host fields "stderr"
      else host.compact response
  | _ => host.compact response

/-- What `trips` reads of a payload. -/
structure Call where
  tool : String
  text : Text
  filePath : Text
  cwd : Text
  response : Text

/-- The first lines of `trips`. -/
def readCall (moment : Moment) (payload : Dict) : Except WishError Call := do
  let tool := String.ofList (textOf host payload "tool_name")
  let input := (Dict.get payload "tool_input").orElse (.obj [])
  let text ← callText host tool input
  let filePath := match input with
    | .obj fields =>
        (((Dict.get fields "file_path").orElse ((Dict.get fields "notebook_path").orElse (.str ""))).toStr host.python).toList
    | _ => []
  .ok {
    tool := tool
    text := text
    filePath := filePath
    cwd := textOf host payload "cwd"
    response := if moment = .post then responseText host (Dict.get payload "tool_response") else [] }

/-- The tests of a match in the loop of `trips`. -/
def Match.tripped (m : Match) (moment : Moment) (call : Call) : Bool :=
  decide (m.at_ = moment) && m.tool.fullmatch call.tool && m.input.all (·.search call.text) &&
    m.path.all (·.search call.filePath) && m.cwd.all (·.search call.cwd) &&
    m.output.all (·.search call.response) && !m.unless_.any (·.search call.text)

/-- A class and a target: what a letter has to name. -/
abbrev Ask := Class × Text

/-- The matches of the input in the call's text. -/
def Match.occurrences (m : Match) (call : Call) : List (Option Text) :=
  (m.input.map (·.finditer call.text)).getD []

/-- `(found.group("target") or "").strip()`. -/
def targetOf (found : Option Text) : Text :=
  strip (found.getD [])

/-- What a refusing match asks: `search` finds the first occurrence. -/
def Match.ask (m : Match) (call : Call) : Option Ask :=
  m.grant.bind fun cls =>
    match (m.occurrences call).head? with
    | none => none
    | some found => if targetOf found = [] then none else some (cls, targetOf found)

/-- A guard that a call trips: its words, whether it refuses, and what would lift
that. -/
structure Hit where
  label : String
  refuse : Bool
  ask : Option Ask

def fileTools : List String :=
  ["Edit", "MultiEdit", "Write", "NotebookEdit"]

/-- `_file_hit`. -/
def fileHit (guard : Guard) (target : Text) : Option String :=
  guard.paths.findSome? fun item =>
    (host.hitPath item target).map fun rel => guard.label ++ " (" ++ item.repo ++ ": " ++ rel ++ " is guarded)"

/-- The asks of the matches that refuse the call. -/
def Guard.asks (guard : Guard) (moment : Moment) (call : Call) : List (Option Ask) :=
  (guard.matches_.filter fun m => m.tripped moment call && m.refuse).map (·.ask call)

/-- A refusal is granted only whole: one match that names no target, or another one,
keeps it. -/
def wholeAsk : List (Option Ask) → Option Ask
  | some ask :: rest => if rest.all (· = some ask) then some ask else none
  | _ => none

/-- One turn of the loop of `trips`. -/
def Guard.trip (guard : Guard) (moment : Moment) (call : Call) : Option Hit :=
  let hit :=
    if guard.matches_.any (·.tripped moment call) then some guard.label
    else if moment = .pre ∧ call.tool ∈ fileTools ∧ call.filePath ≠ [] then fileHit host guard call.filePath
    else none
  hit.map fun label => ⟨label, !(guard.asks moment call).isEmpty, wholeAsk (guard.asks moment call)⟩

/-- `trips`. -/
def trips (guards : List Guard) (moment : Moment) (call : Call) : List Hit :=
  guards.filterMap fun guard => guard.trip host moment call

end Brnrd.Guards
