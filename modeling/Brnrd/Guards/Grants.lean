import Brnrd.Guards.Match
import Brnrd.Wishes.State

/-! Grants: the letter of an owner that lets a refused act through. It is on an open
wish of the thread, nobody held it, and it names the act's target and a verb of its
class. -/
namespace Brnrd.Guards

open Python Facts Wishes

/-- The key of a class in `CLASSES`. -/
def Class.key : Class → String
  | forcePush => "force-push"
  | deleteHome => "delete-home"
  | mergeRed => "merge-red"
  | publish => "publish"

/-- The words of a class in `CLASSES`. -/
def Class.words : Class → String
  | forcePush => "force-push to a branch not this strand's own"
  | deleteHome => "delete under a home root"
  | mergeRed => "merge without green"
  | publish => "publish"

/-- The small ASCII letter that a character matches where case is ignored, else the
character. -/
def fold (c : Char) : Char :=
  if 'A' ≤ c && c ≤ 'Z' then Char.ofNat (c.toNat + 32)
  else if c.toNat = 0x130 || c.toNat = 0x131 then 'i'
  else if c.toNat = 0x17f then 's'
  else if c.toNat = 0x212a then 'k'
  else c

/-- A search for a word, case ignored. -/
def hasWord (word : String) (text : Text) : Bool :=
  text.tails.any fun rest => word.toList.isPrefixOf (rest.map fold)

/-- A search for `push\s+-f`. -/
def hasPushF (text : Text) : Bool :=
  text.tails.any fun rest =>
    "push".toList.isPrefixOf (rest.map fold) && (rest.drop 4).head?.any isSpace &&
      "-f".toList.isPrefixOf (((rest.drop 4).dropWhile isSpace).map fold)

variable (alphabet : Alphabet)

/-- A search for `\brm\b` behind a character. -/
def hasRm (before : Option Char) : Text → Bool
  | [] => false
  | c :: rest =>
      !before.any (isWord alphabet) && fold c = 'r' && rest.head?.any (fold · = 'm') &&
        !(rest.drop 1).head?.any (isWord alphabet) || hasRm (some c) rest

/-- A search for the verbs of a class, `VERBS`. -/
def hasVerb (text : Text) : Class → Bool
  | .forcePush => hasWord "force" text || hasPushF text
  | .deleteHome => hasWord "delet" text || hasWord "remov" text || hasRm alphabet none text || hasWord "wipe" text ||
      hasWord "clean" text
  | .mergeRed => hasWord "merg" text
  | .publish => hasWord "releas" text || hasWord "publish" text || hasWord "upload" text || hasWord "post" text ||
      hasWord "tag" text

/-- What stands behind a name and makes it part of a longer one. -/
def goesOn : Text → Bool
  | [] => false
  | c :: rest => isWord alphabet c || c = '/' || c = '-' ||
      c = '.' && rest.head?.any fun d => isWord alphabet d || d = '/'

/-- A name stands at the head of a text. -/
def nameAt (name text : Text) : Bool :=
  name.isPrefixOf text && !goesOn alphabet (text.drop name.length)

/-- A search for a name, behind a character; a number may have a `#` in front. -/
def hasName (name : Text) (before : Option Char) (text : Text) : Bool :=
  !before.any (fun c => isWord alphabet c || c = '/' || c = '.' || c = '-') &&
      (nameAt alphabet name text ||
        name ≠ [] && name.all (isdigit alphabet) && text.head? = some '#' && nameAt alphabet name (text.drop 1)) ||
    match text with
    | [] => false
    | c :: rest => hasName name (some c) rest

/-- `names(text, target)`. -/
def names (text target : Text) : Bool :=
  let target := strip target
  if target = [] then false
  else if target.head? = some '#' then
    hasName alphabet target none text || hasName alphabet (target.dropWhile (· = '#')) none text
  else hasName alphabet target none text

/-- A text names the target of an ask and a verb of its class. -/
def states (text : Text) (ask : Ask) : Bool :=
  names alphabet text ask.2 && hasVerb alphabet text ask.1

/-- `held`: the letters whose triage, on a letter or a note that replies to them, is
`held`. -/
def held (host : Python.Host) (facts : List Fact) : List String :=
  (facts.filter fun f => f.kind = "letter" || f.kind = "note").filterMap fun f =>
    let value := (((Dict.get f.data "triage").orElse (.str "")).toStr host).toList
    let re := Dict.get f.data "re"
    if value ≠ [] && re.truthy && value.takeWhile (· ≠ ' ') = "held".toList then some (re.toStr host) else none

/-- `Grant`. -/
structure Grant where
  letter : String
  wish : Value
  person : String

/-- What a call is judged by: the facts of the ledger, `BRNRD_THREAD`, the owners, the
strand and its generation, the checkout of the loom, and the times that are more than
three days past. -/
structure Room where
  facts : List Fact
  thread : String
  owner : List String
  strand : String
  gen : Value
  checkout : Checkout
  expired : String → Bool

variable (host : Host)

/-- The letters of `find`. -/
def letters (facts : List Fact) : List (String × Fact) :=
  lettersOf host.python (facts.filter fun f => f.kind = "letter")

/-- The letters on a wish: those its says cite and those stamped with it. A set has
no order of its own. -/
def citedBy (facts : List Fact) (w : Wish) : List String :=
  (w.said.map Say.letter ++
    ((letters host facts).filter fun item => Dict.get item.2.data "wish" = w.id).map Prod.fst).eraseDups

/-- The person a letter is from. -/
def senderOf (letter : Fact) : String :=
  String.ofList (textOf host letter.data "from")

/-- The tests of a letter in the inner loop of `find`. -/
def qualifies (room : Room) (ask : Ask) (ident : String) : Option Fact :=
  ((letters host room.facts).lookup ident).filter fun letter =>
    ident ∉ held host.python room.facts && senderOf host letter ∈ room.owner &&
      states alphabet (textOf host letter.data "body") ask

/-- One turn of the inner loop: a newer letter is the better one. -/
def better (room : Room) (ask : Ask) (w : Wish) (best : Option (String × Grant)) (ident : String) :
    Option (String × Grant) :=
  match qualifies alphabet host room ask ident with
  | none => best
  | some letter =>
      if best.all (fun found => found.1 < letter.at_) then
        some (letter.at_, ⟨ident, w.id, senderOf host letter⟩)
      else best

/-- One turn of the outer loop. -/
def onOpenWish (room : Room) (ask : Ask) (best : Option (String × Grant)) (w : Wish) :
    Except WishError (Option (String × Grant)) :=
  if w.thread ≠ .str room.thread then .ok best
  else do
    if ← isOpen room.expired w then .ok ((citedBy host room.facts w).foldl (better alphabet host room ask w) best)
    else .ok best

/-- `find`. -/
def find (room : Room) (ask : Ask) : Except WishError (Option Grant) := do
  let table ← wishes host.python room.checkout room.facts
  let best ← table.foldlM (onOpenWish alphabet host room ask) none
  .ok (best.map Prod.snd)

/-- `refusal`, with no `why`. -/
def refusal (owner : List String) (ask : Ask) : String :=
  let name := fun person : String => String.ofList ((person.toList.dropWhile (· ≠ ':')).drop 1)
  let who := if owner = [] then "the owner" else " or ".intercalate ((owner.map name).mergeSort (· ≤ ·))
  let target := String.ofList ask.2
  "refused: " ++ ask.1.words ++ " (" ++ target ++ "); no letter from " ++ who ++ " on this thread's open wishes names " ++
    target ++ ".\noverride: a letter from " ++ who ++ " naming " ++ target ++ " and the act, stamped on the wish it serves."

/-- A fact that `record` or `refused` appends; its id is minted. -/
structure Written where
  kind : String
  by_ : String
  data : Dict

/-- `refused`. -/
def refusedFact (room : Room) (ask : Ask) : Written where
  kind := "guard.refused"
  by_ := "strand:" ++ room.strand
  data := [("class", .str ask.1.key), ("gen", room.gen), ("strand", .str room.strand),
    ("target", .str (String.ofList ask.2)), ("thread", .str room.thread)]

/-- `record`. -/
def grantedFact (room : Room) (ask : Ask) (grant : Grant) : Written where
  kind := "guard.granted"
  by_ := "strand:" ++ room.strand
  data := [("class", .str ask.1.key), ("gen", room.gen), ("letter", .str grant.letter), ("strand", .str room.strand),
    ("target", .str (String.ofList ask.2)), ("thread", .str room.thread), ("wish", grant.wish)]

/-- `granted: …`, a line of `judge`. -/
def grantedLine (ask : Ask) (grant : Grant) : String :=
  "granted: " ++ ask.1.words ++ " (" ++ String.ofList ask.2 ++ ") by " ++ grant.letter ++ " on " ++
    grant.wish.toStr host.python

/-- What comes of a call: the lines it hears, whether it is refused, and the facts
that are appended. -/
structure Verdict where
  lines : List String
  refuse : Bool
  written : List Written

/-- `judge`; without a thread nothing is found. -/
def judge (room : Room) (asks : List (Option Ask)) : Except WishError Verdict :=
  if asks = [] ∨ none ∈ asks then .ok ⟨[], true, []⟩
  else do
    let found ← asks.reduceOption.eraseDups.mapM fun ask =>
      if room.thread = "" then .ok (ask, none) else (find alphabet host room ask).map (ask, ·)
    let missing := (found.filter fun item => item.2.isNone).map Prod.fst
    if missing ≠ [] then .ok ⟨missing.map (refusal room.owner), true, missing.map (refusedFact room)⟩
    else
      let grants := found.filterMap fun item => item.2.map (item.1, ·)
      .ok ⟨grants.map fun item => grantedLine host item.1 item.2, false,
        grants.map fun item => grantedFact room item.1 item.2⟩

/-- `_guard_warnings` of a call, with the guards that are read for its room. -/
def guardWarnings (room : Room) (guards : List Guard) (moment : Moment) (call : Call) : Except WishError Verdict :=
  let hits := trips host guards moment call
  let asks := (hits.filter Hit.refuse).map Hit.ask
  if asks = [] then .ok ⟨hits.map Hit.label, false, []⟩
  else (judge alphabet host room asks).map fun verdict => { verdict with lines := hits.map Hit.label ++ verdict.lines }

end Brnrd.Guards
