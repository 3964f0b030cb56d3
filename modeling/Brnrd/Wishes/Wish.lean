import Brnrd.Facts.Union

/-! Wishes are a projection of the ledger's facts: what each was said in, how it
was read, what was done about it, and the verdict on it. -/
namespace Brnrd.Wishes

open Python Facts

/-- The ways `wishes` raises. -/
inductive WishError where
  | union (error : UnionError)
  /-- A `KeyError`. -/
  | missing (key : String)
  /-- A `TypeError`: an unhashable id, or a loop over what has no elements. -/
  | type
  /-- `int` of a number that is none. -/
  | number (text : String)
  deriving DecidableEq

/-- `data[key]`. -/
def need (data : Dict) (key : String) : Except WishError Value :=
  match data.lookup key with
  | some value => .ok value
  | none => .error (.missing key)

/-- The elements of `value or ()`. -/
def elements (value : Value) : Except WishError (List Value) :=
  if value.truthy then
    match value with
    | .arr items => .ok items
    | .str s => .ok (s.toList.map fun c => .str (String.singleton c))
    | .obj fields => .ok (fields.map fun field => .str field.1)
    | _ => .error .type
  else .ok []

/-- `ident in (value or ())`: in a string it is a substring. -/
def isIn (ident value : Value) : Except WishError Bool :=
  match value, ident with
  | .str s, .str t => .ok (s != "" && decide (t.toList <:+: s.toList))
  | .str s, _ => if s = "" then .ok false else .error .type
  | _, _ => do .ok ((← elements value).contains ident)

/-- A span of a letter a wish cites. -/
structure Say where
  letter : String
  offset : Int
  size : Option Int
  quote : Option String
  deriving DecidableEq

/-- A count, or nothing. -/
def countOf : Value → Option (Option Int)
  | .null => some none
  | .int n => if 0 ≤ n then some (some n) else none
  | _ => none

def quoteOf : Value → Option (Option String)
  | .null => some none
  | .str s => some (some s)
  | _ => none

/-- `Say.read`, `none` where it raises `ValueError`. -/
def Say.read (raw : Value) : Option Say := do
  let items ← match raw with
    | .obj fields => some [Dict.get fields "letter", (fields.lookup "offset").getD (.int 0),
        Dict.get fields "size", Dict.get fields "quote"]
    | .arr items => some items
    | _ => none
  if items.length = 0 then none
  else match items ++ [.int 0, .null, .null].drop (items.length - 1) with
    | [.str letter, .int offset, size, quote] =>
        if letter = "" ∨ offset < 0 then none
        else return ⟨letter, offset, ← countOf size, ← quoteOf quote⟩
    | _ => none

/-- `read_says`: a bad one is left out. -/
def readSays (rows : Value) : Except WishError (List Say) := do
  .ok ((← elements rows).filterMap Say.read)

/-- `dict(d, at=fact.at, writer=fact.by)`. -/
structure Row where
  data : Dict
  at_ : String
  writer : String
  deriving DecidableEq

/-- A result, and the merge that `held_merge` found for it, which delivers it. -/
structure Result extends Row where
  held : Option String
  deriving DecidableEq

structure Stamp where
  at_ : String
  by_ : String
  letters : List String
  deriving DecidableEq

structure Left where
  steps : List Value
  at_ : String
  by_ : String
  gen : Value
  deriving DecidableEq

structure Top where
  at_ : String
  ref : Value
  by_ : String
  deriving DecidableEq

structure Pick where
  at_ : String
  why : Value
  by_ : String
  deriving DecidableEq

/-- `Wish`; `said` is its `says` and `rec_` its `rec`. -/
structure Wish where
  id : Value
  said : List Say
  sender : Value
  line : Value
  thread : Value
  parent : Value
  reading : Value
  rec_ : Value
  kind : Value
  reads : List Row
  results : List Result
  verdict : Option Row
  at_ : String
  origin : String
  born : String
  lefts : List Left
  stamps : List Stamp
  answer : String
  heardAt : String
  saidAt : String
  tops : List Top
  pick : Option Pick
  deriving DecidableEq

/-- `Wish(ident, born=fact.at)`. -/
def Wish.new (ident : Value) (born : String) : Wish where
  id := ident
  said := []
  sender := .str "person"
  line := .str ""
  thread := .str ""
  parent := .str ""
  reading := .str ""
  rec_ := .str ""
  kind := .str ""
  reads := []
  results := []
  verdict := none
  at_ := ""
  origin := "derived"
  born := born
  lefts := []
  stamps := []
  answer := ""
  heardAt := ""
  saidAt := ""
  tops := []
  pick := none

/-- A `wish` fact about its wish. -/
def Wish.told (w : Wish) (fact : Fact) : Except WishError Wish := do
  let rows ← readSays (Dict.get fact.data "says")
  let sender ← need fact.data "from"
  let line ← need fact.data "line"
  let thread ← need fact.data "thread"
  .ok { w with
    stamps := if .str fact.id = w.id then w.stamps else w.stamps ++ [⟨fact.at_, fact.by_, rows.map Say.letter⟩]
    said := rows.foldl (fun found say => if say ∈ found then found else found ++ [say]) w.said
    sender := sender
    line := line
    thread := thread
    parent := (Dict.get fact.data "parent").orElse w.parent
    rec_ := (Dict.get fact.data "rec").orElse w.rec_
    kind := (Dict.get fact.data "kind").orElse w.kind
    verdict := none
    at_ := fact.at_ }

/-- Another fact about a known wish. A top, a pick and a left are no news on it:
its age stays the last stamp's. -/
def Wish.touched (w : Wish) (fact : Fact) : Except WishError Wish :=
  let row : Row := ⟨fact.data, fact.at_, fact.by_⟩
  if fact.kind = "wish.read" then do
    let reading ← need fact.data "reading"
    .ok { w with reading := reading, reads := w.reads ++ [row], at_ := fact.at_ }
  else if fact.kind = "wish.result" then
    .ok { w with results := w.results ++ [⟨row, none⟩], at_ := fact.at_ }
  else if fact.kind = "wish.top" then
    .ok { w with tops := w.tops ++ [⟨fact.at_, Dict.get fact.data "ref", fact.by_⟩] }
  else if fact.kind = "wish.pick" then
    .ok { w with pick := some ⟨fact.at_, (fact.data.lookup "why").getD (.str ""), fact.by_⟩ }
  else if fact.kind = "wish.left" then do
    let same := if (Dict.get fact.data "same").truthy then w.lefts.getLast? else none
    let steps ← match same with
      | some left => .ok left.steps
      | none => elements (Dict.get fact.data "steps")
    .ok { w with lefts := w.lefts ++ [⟨steps, fact.at_, fact.by_, Dict.get fact.data "gen"⟩] }
  else .ok { w with verdict := some row, at_ := fact.at_ }

/-- The wish of an id in the table, replaced by what `act` makes of it. -/
def onWish (ident : Value) (act : Wish → Except WishError Wish) (found : List Wish) :
    Except WishError (List Wish) :=
  found.mapM fun w => if w.id = ident then act w else .ok w

/-- One turn of the loop of `wishes`. -/
def foldFact (found : List Wish) (fact : Fact) : Except WishError (List Wish) := do
  let ident ← need fact.data "wish"
  if !ident.hashable then .error .type
  else if fact.kind = "wish" then
    let found := if found.any (·.id = ident) then found else found ++ [Wish.new ident fact.at_]
    onWish ident (Wish.told · fact) found
  else onWish ident (Wish.touched · fact) found

/-- `_person`. -/
def isPerson (host : Host) (letter : Fact) : Bool :=
  let sender := (Dict.get letter.data "from").toStr host
  startsWith sender "p-" || startsWith sender "person:"

/-- `d[key] = value` on a dict kept in the order of its first keys. -/
def putKey {ν : Type} (items : List (String × ν)) (key : String) (value : ν) : List (String × ν) :=
  if items.any (·.1 = key) then items.map fun item => if item.1 = key then (key, value) else item
  else items ++ [(key, value)]

/-- `str(f.data.get("id", f.id))`. -/
def letterName (host : Host) (letter : Fact) : String :=
  ((letter.data.lookup "id").getD (.str letter.id)).toStr host

/-- `{str(f.data.get("id", f.id)): f …}`. -/
def lettersOf (host : Host) (letters : List Fact) : List (String × Fact) :=
  letters.foldl (fun found f => putKey found (letterName host f) f) []

/-- `RELAYS`: the home thread, and its former name. -/
def relays : List String :=
  ["inbox", "brnrd"]

/-- The first of `items` that satisfies `test`. -/
def firstM {α : Type} (test : α → Except WishError Bool) : List α → Except WishError (Option α)
  | [] => .ok none
  | x :: rest => do if ← test x then .ok (some x) else firstM test rest

/-- `answers(letter)` for an ask, with the links each letter raises and the
thread each strand writes for. -/
def answers (host : Host) (raised : List (String × List String)) (writers : List (String × String)) (ask : Wish)
    (letter : Fact) : Except WishError Bool :=
  if letter.at_ < ask.born then .ok false
  else
    let re := ((Dict.get letter.data "re").orElse (.str "")).toStr host
    let replies := .str re = ask.id || ((raised.lookup re).getD []).any fun link => .str link = ask.id
    if isPerson host letter then
      if replies then .ok true else isIn ask.id (Dict.get letter.data "links")
    else
      let writer := writers.lookup (removePrefix letter.by_ "strand:")
      .ok (startsWith letter.by_ "strand:" && replies && decide ((writer.map Value.str).getD .null ≠ ask.thread) &&
        !(writer.any fun thread => relays.contains thread))

/-- `_answer` of one ask. -/
def answerOf (host : Host) (letters : List (String × Fact)) (raised : List (String × List String))
    (writers : List (String × String)) (ask : Wish) : Except WishError Wish := do
  let stamped := (ask.stamps.flatMap Stamp.letters).find? fun ident => (letters.lookup ident).any (isPerson host)
  match stamped with
  | some ident => .ok { ask with answer := ident }
  | none =>
      let first ← firstM (fun item => answers host raised writers ask item.2) letters
      .ok { ask with answer := (first.map Prod.fst).getD "" }

/-- `_answer`: the asks are the wishes of the resident. -/
def answerAsks (host : Host) (letters : List (String × Fact)) (leases : List Fact) (found : List Wish) :
    Except WishError (List Wish) :=
  if found.any (·.sender = .str "resident") then do
    let writers := leases.reverse.map fun f =>
      ((Dict.get f.data "strand").toStr host, (Dict.get f.data "thread").toStr host)
    let raised ← letters.mapM fun (ident, letter) => do
      .ok (ident, (← elements (Dict.get letter.data "links")).map (Value.toStr host))
    found.mapM fun w => if w.sender = .str "resident" then answerOf host letters raised writers w else .ok w
  else .ok found

/-- The checkout the loom runs from: whether it is one, its name, the name and
the number of the pull request a text names, whether a text is of digits, and the
landings on a commit's first-parent line with their pull requests. No result
depends on which these are. -/
structure Checkout where
  isRepo : Bool
  name : String
  pull : String → Option (String × String)
  isDigits : String → Bool
  mergeLog : Value → List (String × Int)

/-- `held_merge`. -/
def heldMerge (host : Host) (checkout : Checkout) (result : Dict) (commit : Value) : Except WishError (Option String) :=
  if !checkout.isRepo then .ok none
  else
    let ref := ((Dict.get result "ref").orElse (.str "")).toStr host
    let number := if Dict.get result "kind" = .str "pr" && checkout.isDigits ref then some ref
      else match checkout.pull ref with
        | some (name, number) => if name = checkout.name then some number else none
        | none => none
    match number, checkout.mergeLog commit with
    | none, _ | _, [] => .ok none
    | some number, log => match parseInt number with
        | some n => .ok ((log.find? fun landing => landing.2 = n).map Prod.fst)
        | none => .error (.number number)

/-- A result that is merged and in the code the loom runs is delivered. -/
def Result.deliver (host : Host) (checkout : Checkout) (start : Option Dict) (result : Result) :
    Except WishError Result := do
  let delivered ← need result.data "delivered"
  let commit := ((start.map fun data => Dict.get data "commit").getD .null)
  if delivered.truthy || !commit.truthy then .ok result
  else match ← heldMerge host checkout result.data commit with
    | some merge => .ok { result with held := if merge = "" then none else some merge }
    | none => .ok result

/-- `own_say`. -/
def ownSay (host : Host) (letters : List (String × Fact)) (w : Wish) (say : Say) : Bool :=
  (letters.lookup say.letter).any fun letter =>
    if w.sender = .str "person" then isPerson host letter else startsWith letter.by_ "strand:"

/-- The last loop of `wishes`, for one wish. -/
def Wish.settle (host : Host) (checkout : Checkout) (letters : List (String × Fact)) (start : Option Dict)
    (w : Wish) : Except WishError Wish := do
  let ours := fun ident => (letters.lookup ident).any (isPerson host)
  let results ← w.results.mapM (Result.deliver host checkout start)
  let named := (letters.filter fun (_, letter) => (Dict.get letter.data "wish").truthy && isPerson host letter &&
    .str ((Dict.get letter.data "wish").toStr host) = w.id).map fun item => item.2.at_
  let stamped := (w.stamps.filter fun stamp => stamp.letters.any ours).map Stamp.at_
  let heard := (w.said.filter fun say => ours say.letter).filterMap fun say => (letters.lookup say.letter).map Fact.at_
  .ok { w with
    results := results
    heardAt := (named ++ stamped).foldl max ""
    saidAt := if w.sender = .str "person" then heard.min?.getD "" else w.saidAt
    origin := if w.sender = .str "resident" && w.said.isEmpty ||
      !w.said.isEmpty && w.said.all (ownSay host letters w) then "said" else "derived" }

/-- The kinds of the facts about a wish. -/
def tableKinds : List String :=
  ["wish", "wish.read", "wish.result", "wish.verdict", "wish.left", "wish.top", "wish.pick"]

/-- `wishes`, over the facts in their order. -/
def wishTable (host : Host) (checkout : Checkout) (ordered : List Fact) : Except WishError (List Wish) := do
  let letters := lettersOf host (ordered.filter fun f => f.kind = "letter")
  let found ← (ordered.filter fun f => f.kind ∈ tableKinds).foldlM foldFact []
  let found ← answerAsks host letters (ordered.filter fun f => f.kind = "lease") found
  let start := ((ordered.filter fun f => f.kind = "loom.started").getLast?).map Fact.data
  found.mapM (Wish.settle host checkout letters start)

/-- `wishes(facts)`: its table, in the order in which the wishes were born. -/
def wishes (host : Host) (checkout : Checkout) (facts : List Fact) : Except WishError (List Wish) :=
  match union host [facts] with
  | .ok ordered => wishTable host checkout ordered
  | .error e => .error (.union e)

/-- `WISH_KINDS`. -/
def wishKinds : List String :=
  tableKinds ++ ["loom.started", "letter", "lease"]

/-- The fold reads no other kinds. -/
theorem wishTable_filter (host : Host) (checkout : Checkout) (ordered : List Fact) :
    wishTable host checkout (ordered.filter fun f => f.kind ∈ wishKinds) = wishTable host checkout ordered := by
  have hKeep (p : Fact → Bool) (hRead : ∀ f, p f = true → f.kind ∈ wishKinds) :
      (ordered.filter fun f => f.kind ∈ wishKinds).filter p = ordered.filter p := by
    rw [List.filter_filter]
    refine List.filter_congr fun f _ => ?_
    cases hp : p f with
    | false => rfl
    | true => simp [hRead f hp]
  have hTable : ∀ f : Fact, decide (f.kind ∈ tableKinds) = true → f.kind ∈ wishKinds :=
    fun f hf => List.mem_append_left _ (of_decide_eq_true hf)
  have hOther (kind : String) (hKind : kind ∈ wishKinds) : ∀ f : Fact, decide (f.kind = kind) = true → f.kind ∈ wishKinds :=
    fun f hf => of_decide_eq_true hf ▸ hKind
  unfold wishTable
  rw [hKeep _ (hOther "letter" (by decide)), hKeep _ hTable, hKeep _ (hOther "lease" (by decide)),
    hKeep _ (hOther "loom.started" (by decide))]

end Brnrd.Wishes
