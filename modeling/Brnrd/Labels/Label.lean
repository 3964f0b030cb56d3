import Brnrd.Letters.Projections

/-! A strand's label is a fold over facts: what it was shown, its parent at
birth, and the facts that taint it. The body never declares it. -/
namespace Brnrd.Labels

open Python Facts Project

/-- The ways a label is not given. -/
inductive LabelError where
  | union (e : UnionError)
  | raised (e : Raised)
  /-- The recursion is cut off; a label never meets it (`strandLabel_ends`). -/
  | depth
  deriving DecidableEq

abbrev Labelled (α : Type) := Except LabelError α

def raising {α : Type} (x : Except Raised α) : Labelled α :=
  x.mapError .raised

/-- `Label`. -/
structure Label where
  taint : Bool
  audience : Finset Value
  deriving DecidableEq

/-- `SELF_AUDIENCE`. -/
def selfAudience : Finset Value :=
  {.str "self"}

/-- `CLEAN`. -/
def clean : Label :=
  ⟨false, selfAudience⟩

def Label.join (left right : Label) : Label :=
  ⟨left.taint || right.taint, left.audience ∩ right.audience⟩

@[simp] theorem Label.join_taint (left right : Label) :
    (left.join right).taint = (left.taint || right.taint) :=
  rfl

/-- What the functions read below a self's directory: whether a thread has its
`README.md`, whether a person has a directory, the text of the jack error log
in a sibling room, empty where it cannot be read; and whether the home's config
turns labels off. -/
structure SelfRoot where
  threads : String → Bool
  people : String → Bool
  jackErrors : String → String
  off : Bool

/-- `guard_off(self_root)`. -/
def guardOff (root : Option SelfRoot) : Bool :=
  root.any SelfRoot.off

/-- `_segment(value)` gives the value back. -/
def isSegment (value : String) : Bool :=
  value ∉ ["", ".", ".."] && value.toList.all fun c => c ≠ '/' && c ≠ '\\' && c.toNat ≠ 0

/-- `_strip_prefix(sender)`. -/
def stripPrefix (sender : String) : String :=
  if startsWith sender "thread:" then removePrefix sender "thread:"
  else removePrefix sender "person:"

/-- `name` is a thread or a person of this self. -/
def SelfRoot.knows (root : SelfRoot) (name : String) : Bool :=
  root.threads name || root.people name ||
    startsWith name "p-" && isSegment (removePrefix name "p-") && root.people (removePrefix name "p-")

/-- `is_stranger(sender, self_root)`. -/
def isStranger (root : Option SelfRoot) (sender : String) : Bool :=
  match root with
  | none => true
  | some root =>
      let name := stripPrefix (String.ofList (strip sender.toList))
      if isSegment name then !root.knows name else true

/-- `str(data.get("id") or fact.id)`. -/
def identOf (host : Host) (fact : Fact) : String :=
  ((Dict.get fact.data "id").orElse (.str fact.id)).toStr host

/-- One turn of `_letter_map`. An empty id is no key. -/
def addLetter (host : Host) (found : List (String × Fact)) (fact : Fact) : List (String × Fact) :=
  if fact.kind = "letter" ∧ ((Dict.get fact.data "id").orElse (.str fact.id)).truthy then
    (identOf host fact, fact) :: found
  else found

/-- `_letter_map(facts)`: the last letter of an id is the one that is read. -/
def letterMap (host : Host) (facts : List Fact) : List (String × Fact) :=
  facts.foldl (addLetter host) []

/-- `_explicit(fact)`. -/
def explicitLabel (fact : Fact) : Labelled (Option Label) :=
  match Dict.get fact.data "label" with
  | .obj raw => match Dict.get raw "taint", Dict.get raw "audience" with
      | .bool bit, .arr audience => do
          raising (audience.forM hash)
          .ok (some ⟨bit, audience.toFinset⟩)
      | _, _ => .ok none
  | _ => .ok none

/-- `_about(fact, strand)`. -/
def about (fact : Fact) (strand : String) : Bool :=
  Dict.get fact.data "strand" = .str strand || fact.by_ = "strand:" ++ strand

/-- `_url(origin)`. -/
def isUrl : Value → Bool
  | .str origin => startsWith origin "https://" || startsWith origin "http://"
  | _ => false

/-- A lease of the strand. -/
def leases (strand : String) (fact : Fact) : Bool :=
  fact.kind = "lease" && Dict.get fact.data "strand" = .str strand

/-- `_known_strand(facts, sender)`. -/
def knownStrand (facts : List Fact) (sender : String) : Bool :=
  facts.any (leases sender)

/-- `_sibling_log(self_root, strand)`. -/
def siblingLog (root : Option SelfRoot) (strand : String) : String :=
  match root with
  | none => ""
  | some root => if isSegment strand then root.jackErrors strand else ""

/-- The facts a label is read from: the ledger's own view, or a list. -/
structure History where
  facts : List Fact
  view : Bool
  deriving DecidableEq

/-- `list(facts)[:index]`. -/
def History.before (h : History) (index : Nat) : History :=
  ⟨h.facts.take index, false⟩

/-- One turn of `_sender_threads`. -/
def addSender (host : Host) (found : List (String × String)) (fact : Fact) : Except Raised (List (String × String)) :=
  if fact.kind = "lease" then do
    let strand ← item fact.data "strand"
    let thread ← item fact.data "thread"
    .ok ((strand.toStr host, thread.toStr host) :: found)
  else .ok found

/-- `sender_threads(facts).get`, of a key that can be hashed. -/
def History.senderThreads (host : Host) (h : History) : Labelled (Value → Option String) :=
  if h.view then raising (Letters.senderThreads host h.facts)
  else do
    let rows ← (union host [h.facts]).mapError LabelError.union
    let folded ← raising (fold host rows)
    let found ← raising (folded.replay.accepted.foldlM (addSender host) [])
    .ok fun
      | .str sender => found.lookup sender
      | _ => none

/-- The fact behind a fresh reincarnation's letter. -/
def reincarnates (letter fact : Fact) : Bool :=
  fact.kind = "reincarnate" && Dict.get letter.data "reincarnate" = .str fact.id &&
    Dict.get fact.data "fresh" = .bool true &&
    Dict.get fact.data "strand" = Dict.get letter.data "from" &&
    Dict.get fact.data "gen" = Dict.get letter.data "gen"

/-- A fresh reincarnation carries only a fixed control message, never room prose. -/
def isFresh (host : Host) (h : History) (letter : Fact) : Labelled Bool := do
  let threads ← h.senderThreads host
  raising (hash (Dict.get letter.data "from"))
  match threads (Dict.get letter.data "from") with
  | some own =>
      .ok (own ≠ "" && Dict.get letter.data "to" = .str ("thread:" ++ own) &&
        Dict.get letter.data "body" = .str "Fresh reincarnation: start from main." &&
        h.facts.any (reincarnates letter))
  | none => .ok false

/-- `str(data.get("from") or "")`. -/
def senderOf (host : Host) (letter : Fact) : String :=
  Letters.textAt host letter.data "from"

/-- `_sender_label`, where `recur` is the label of another strand in the same facts. -/
def senderLabel (host : Host) (root : Option SelfRoot) (h : History) (recur : String → Labelled Label)
    (letter : Fact) : Labelled Label := do
  if ← isFresh host h letter then .ok clean
  else match ← explicitLabel letter with
    | some label => .ok label
    | none =>
        let sender := senderOf host letter
        if !isStranger root sender then .ok clean
        else if knownStrand h.facts sender then recur sender
        else .ok ⟨true, selfAudience⟩

/-- `data.get("ids") or ()`. -/
def shownIds (fact : Fact) : Labelled (List Value) :=
  raising (iterate ((Dict.get fact.data "ids").orElse (.arr [])))

/-- One id of a `shown` row. -/
def joinShown (host : Host) (root : Option SelfRoot) (h : History) (recur : String → Labelled Label)
    (label : Label) (ident : Value) : Labelled Label :=
  match (letterMap host h.facts).lookup (ident.toStr host) with
  | some letter => do
      let sent ← senderLabel host root h recur letter
      .ok (label.join sent)
  | none => .ok label

/-- One fact of the loop. -/
def joinRow (host : Host) (root : Option SelfRoot) (h : History) (recur : String → Labelled Label)
    (strand : String) (label : Label) (fact : Fact) : Labelled Label :=
  if fact.kind = "shown" ∧ Dict.get fact.data "strand" = .str strand then do
    let ids ← shownIds fact
    ids.foldlM (joinShown host root h recur) label
  else if fact.kind = "label.tainted" ∧ about fact strand then .ok (label.join ⟨true, selfAudience⟩)
  else if fact.kind = "source" ∧ about fact strand ∧ isUrl (Dict.get fact.data "origin") then
    .ok (label.join ⟨true, selfAudience⟩)
  else .ok label

/-- The first lease of the strand, and how many facts are before it. -/
def birth (facts : List Fact) (strand : String) : Option (Fact × Nat) :=
  facts.zipIdx.find? fun row => leases strand row.1

/-- The parent a lease names, where it is another strand. -/
def parentOf (lease : Fact) (strand : String) : Option String :=
  match Dict.get lease.data "parent" with
  | .str parent => if parent ≠ "" ∧ parent ≠ strand then some parent else none
  | _ => none

/-- The parent of the strand, with the facts it had at the birth. -/
def parentAt (h : History) (strand : String) : Option (History × String) := do
  let (lease, index) ← birth h.facts strand
  let parent ← parentOf lease strand
  some (h.before index, parent)

/-- `log and log.strip()`. -/
def speaks (log : String) : Bool :=
  strip log.toList ≠ []

/-- `strand_label(facts, strand)`, to a depth. -/
def strandLabelTo (host : Host) (root : Option SelfRoot) :
    Nat → History → String → Option String → Finset String → Labelled Label
  | 0, _, _, _, _ => .error .depth
  | depth + 1, h, strand, jackLog, seen =>
      if strand = "" ∨ strand ∈ seen then .ok clean
      else if guardOff root then .ok clean
      else do
        let seen := insert strand seen
        let born := match parentAt h strand with
          | some (early, parent) => (strandLabelTo host root depth early parent none seen).map clean.join
          | none => .ok clean
        let recur := fun sender => strandLabelTo host root depth h sender none seen
        let start ← born
        let label ← h.facts.foldlM (joinRow host root h recur strand) start
        .ok (if speaks (jackLog.getD (siblingLog root strand)) then { label with taint := true } else label)

def textOf : Value → Option String
  | .str text => some text
  | _ => none

theorem textOf_eq_some {value : Value} {text : String} : textOf value = some text ↔ value = .str text := by
  cases value <;> simp [textOf]

/-- The strands that leases name. -/
def leaseNames (facts : List Fact) : Finset String :=
  (facts.flatMap fun fact =>
    if fact.kind = "lease" then [Dict.get fact.data "strand", Dict.get fact.data "parent"].filterMap textOf
    else []).toFinset

/-- `strand_label(facts, strand, self_root=root, jack_log=jackLog)`. The strands
on the path are distinct, and leases name all of them but the first. -/
def strandLabel (host : Host) (root : Option SelfRoot) (h : History) (strand : String) (jackLog : Option String) :
    Labelled Label :=
  strandLabelTo host root ((leaseNames h.facts).card + 2) h strand jackLog ∅

end Brnrd.Labels
