import Brnrd.Facts.Fact
import Mathlib.Data.List.Sort

/-! The facts a body's lifecycle writes or reads, declared once, and the check
that the ledger's one write path makes against the declarations. -/
namespace Brnrd.Ledger

open Python Facts

structure Kind where
  kind : String
  resource : String
  fields : List String
  writer : List String

/-- `field.rstrip("?")`. -/
def fieldName (field : String) : String :=
  String.ofList (field.toList.reverse.dropWhile (· = '?')).reverse

def Kind.names (row : Kind) : List String :=
  row.fields.map fieldName

def Kind.required (row : Kind) : List String :=
  row.fields.filter fun field => !"?".toList.isSuffixOf field.toList

/-- `CLOSED`. -/
def closed : List String :=
  ["body", "wish", "pr", "loom"]

/-- `REGISTRY`, less the columns no check reads. -/
def registry : List Kind :=
  [⟨"body.pending", "body", ["strand", "gen", "shell", "core", "why?"], ["loom"]⟩,
   ⟨"body.parked", "body", ["strand", "gen", "shell", "core", "window", "left_pct", "until"], ["loom"]⟩,
   ⟨"body.started", "body", ["strand", "gen", "pid", "shell", "core", "readme", "lstart"], ["loom"]⟩,
   ⟨"body.leaving", "body", ["strand", "gen", "deadline"], ["loom"]⟩,
   ⟨"body.stayed", "body", ["strand", "gen"], ["loom"]⟩,
   ⟨"body.stopped", "body", ["strand", "gen", "pid", "why"], ["loom"]⟩,
   ⟨"body.unidentified", "body", ["strand", "gen", "pid", "why"], ["loom"]⟩,
   ⟨"body.exited", "body", ["strand", "gen", "code", "why?", "failure_origin?", "failure_letters?"],
     ["loom"]⟩,
   ⟨"wish", "wish", ["wish", "says", "from", "line", "thread", "parent?", "rec?", "kind?"],
     ["strand", "person", "loom"]⟩,
   ⟨"ask.answer", "wish", ["wish", "as", "ref"], ["strand", "person", "loom"]⟩,
   ⟨"wish.read", "wish", ["wish", "reading", "by", "wait?"], ["strand", "person"]⟩,
   ⟨"wish.result", "wish", ["wish", "kind", "ref", "line", "delivered", "cmd?", "sha256?", "size?",
     "name?", "mime?", "verified?", "word?", "unverified?", "weakened?"], ["strand", "loom"]⟩,
   ⟨"wish.verdict", "wish", ["wish", "as", "evidence", "ref"], ["strand", "person", "loom"]⟩,
   ⟨"wish.left", "wish", ["wish", "steps", "gen", "same?"], ["strand"]⟩,
   ⟨"wish.top", "wish", ["wish", "ref"], ["strand", "person"]⟩,
   ⟨"wish.pick", "wish", ["wish", "why"], ["strand"]⟩,
   ⟨"left.asked", "wish", ["strand", "gen", "wishes", "letters?"], ["strand"]⟩,
   ⟨"thread.reopened", "wish", ["thread", "wish", "was", "closed?", "why?"], ["strand"]⟩,
   ⟨"pr.opened", "pr", ["thread", "repo", "number", "url", "head"], ["strand"]⟩,
   ⟨"pr.merged", "pr", ["thread", "repo", "number", "head", "merge_commit"], ["strand"]⟩,
   ⟨"lease", "thread", ["thread", "strand", "gen", "install", "router_gen", "shell", "core", "repos",
     "parent?", "pin?"], ["loom"]⟩,
   ⟨"released", "thread", ["thread", "strand", "gen", "why", "install", "router_gen?"], ["loom"]⟩,
   ⟨"shown", "letter", ["strand", "gen", "ids"], ["loom", "strand"]⟩,
   ⟨"reincarnate", "letter", ["strand", "gen", "why", "fresh?", "cites?"], ["strand"]⟩,
   ⟨"hold", "letter", ["strand", "gen", "why", "context"], ["strand"]⟩,
   ⟨"guard.granted", "letter", ["strand", "gen", "thread", "class", "target", "letter", "wish"],
     ["strand"]⟩,
   ⟨"guard.refused", "letter", ["strand", "gen", "thread", "class", "target"], ["strand"]⟩,
   ⟨"attempt.ended", "attempt", ["thread", "strand", "gen", "ids", "cause", "code", "dispositions",
     "evidence"], ["loom"]⟩,
   ⟨"wake.sizes", "wake", ["thread", "strand", "gen", "budget", "total", "parts"], ["loom"]⟩,
   ⟨"port.drained", "port", ["thread", "strand", "gen"], ["loom"]⟩,
   ⟨"loom.started", "loom", ["install", "pid", "commit?", "loaded", "merges?"], ["loom"]⟩,
   ⟨"loom.degraded", "loom", ["install", "step", "error", "where", "since", "episode?", "dips?",
     "seconds?", "bodies?"], ["loom"]⟩,
   ⟨"loom.recovered", "loom", ["install", "step", "since", "count", "last", "episode?", "told?",
     "grade?", "up?", "seconds?", "bodies?"], ["loom"]⟩,
   ⟨"loom.moved", "loom", ["install", "from", "to", "merges", "started"], ["loom"]⟩,
   ⟨"loom.pruned", "loom", ["install", "ran", "bytes"], ["loom"]⟩,
   ⟨"lease.fenced", "loom", ["install", "gen", "why"], ["loom"]⟩,
   ⟨"lease.handed", "loom", ["install", "gen", "prefer", "to"], ["loom"]⟩,
   ⟨"machines.prefer", "loom", ["install", "from"], ["person"]⟩,
   ⟨"machines.pin", "loom", ["thread", "install?", "from"], ["person"]⟩,
   ⟨"self.healed", "loom", ["thread", "commit"], ["loom"]⟩,
   ⟨"library.problem", "loom", ["install", "name", "problem", "text", "since"], ["loom"]⟩,
   ⟨"library.cleared", "loom", ["install", "name", "problem"], ["loom"]⟩]

/-- `KINDS.get(kind)`. -/
def kindRow (kind : String) : Option Kind :=
  registry.find? fun row => row.kind = kind

/-- `text.split(sep, 1)[0]`. -/
def before (text : String) (sep : Char) : String :=
  String.ofList (text.toList.takeWhile (· ≠ sep))

/-- A declared kind's resource; otherwise the name before the first dot. -/
def resourceOf (kind : String) : String :=
  match kindRow kind with
  | some row => row.resource
  | none => before kind '.'

/-- What the registry has against `fact`. A kind with no row has one problem. -/
def problems (fact : Fact) : List String :=
  match kindRow fact.kind with
  | none => ["kind " ++ fact.kind ++ " is not declared"]
  | some row =>
      let role := before fact.by_ ':'
      let missing := row.required.filter fun name => !Dict.has fact.data name
      let extra := ((fact.data.map Prod.fst).filter (· ∉ row.names)).insertionSort (· ≤ ·)
      (if role ∈ row.writer then []
        else [fact.kind ++ " is written by " ++ " or ".intercalate row.writer ++ ", not " ++ role]) ++
      (if missing = [] then [] else [fact.kind ++ " lacks " ++ ", ".intercalate missing]) ++
      (if extra = [] then [] else [fact.kind ++ " does not declare " ++ ", ".intercalate extra])

/-- What a wish fact with no problem of its row may still lack. -/
def wishProblems (fact : Fact) : List String :=
  let fromResident := Dict.get fact.data "from" = .str "resident"
  let byLoom := startsWith fact.by_ "loom:"
  (if Dict.get fact.data "wish" = .str fact.id then
    if byLoom then
      if fromResident then [] else ["the loom writes only the resident's own wishes"]
    else if !(Dict.get fact.data "says").truthy && !(Dict.get fact.data "parent").truthy then
      ["a new wish needs --say <letter> or --parent <wish>"]
    else if fromResident ∧ !(Dict.get fact.data "parent").truthy then
      ["an ask needs the wish it unblocks: ask --for <wish>"]
    else []
  else if !startsWith fact.id "wish:" then
    ["a wish fact is a birth (id = the wish) or a touch (id wish:…)"]
  else []) ++
  (if Dict.has fact.data "rec" && !fromResident then ["only an ask carries a rec"] else [])

/-- `admit`: the text of the refusal of a fact of a closed resource that the
registry has anything against. -/
def admitFact (fact : Fact) : Option String :=
  if resourceOf fact.kind ∉ closed then none
  else
    let found := problems fact
    let found := if fact.kind = "wish" ∧ found = [] then wishProblems fact else found
    if found = [] then none
    else some ("registry refused " ++ fact.id ++ ": " ++ "; ".intercalate found)

end Brnrd.Ledger

/-! Which stream file a fact is written to: the loom's own, or its strand's. -/
namespace Brnrd.Ledger

open Python Facts

/-- `_LOOM_KINDS`: the router writes these, except that a strand's loom records
that strand's exit and a person asks for a machine. -/
def loomKinds : List String :=
  ["lease", "released", "attention", "router", "router.renewed", "speech", "speech.part",
    "thread.closed", "attempt.ended", "port.drained", "letter.disposed", "letter.due",
    "loom.started", "home.migrated", "loom.degraded", "loom.recovered", "loom.moved", "loom.pruned",
    "lease.fenced", "lease.handed", "machines.prefer", "machines.pin", "self.healed",
    "library.problem", "library.cleared", "interview.offer", "interview.offered"]

/-- A nonempty string value. -/
def textOf : Value → Option String
  | .str s => if s = "" then none else some s
  | _ => none

/-- Explicit strand, strand writer, or a letter's strand sender. -/
def strandOf (fact : Fact) : Option String :=
  match textOf (Dict.get fact.data "strand") with
  | some strand => some strand
  | none =>
      if startsWith fact.by_ "strand:" then some (removePrefix fact.by_ "strand:")
      else match if fact.kind = "letter" then Dict.get fact.data "from" else .null with
        | .str sender => if startsWith sender "s-" then some sender else none
        | _ => none

/-- Facts of the loom, of a person and of a letter nobody's strand sent. -/
def inLoomFile (fact : Fact) : Bool :=
  (fact.kind ∈ ["source", "blob", "note"] && startsWith fact.by_ "loom:") ||
  (fact.kind = "note" && startsWith fact.by_ "person:") ||
  (resourceOf fact.kind = "wish" && (startsWith fact.by_ "person:" || startsWith fact.by_ "loom:")) ||
  fact.kind ∈ loomKinds ||
  (fact.kind = "letter" && !Dict.has fact.data "gen")

/-- `fact_filename`, `none` where it raises `no strand file`. -/
def factFilename (fact : Fact) : Option String :=
  if inLoomFile fact then some "loom.jsonl"
  else match strandOf fact with
    | some strand => if strand = "" || '/' ∈ strand.toList then none else some (strand ++ ".jsonl")
    | none => none

end Brnrd.Ledger
