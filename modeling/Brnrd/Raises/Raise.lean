import Brnrd.Weakened.Patterns
import Brnrd.Wishes.State
import Mathlib.Data.List.ReduceOption

/-! An unchanged question is raised once a day: a letter to a channel that links an open
ask is refused while nothing moved the ask since it was raised less than a day ago. -/
namespace Brnrd.Raises

open Python Facts Wishes

/-- What the code reads outside: the loom's host and checkout, the microseconds of a
timestamp that has a time zone (`none` where `datetime.fromisoformat` raises, or the time has
no zone and does not compare), the letters and the decimal digits beyond ASCII. -/
structure Env where
  host : Host
  checkout : Checkout
  stamp : String → Option ℤ
  alphabet : Alphabet
  decimal : Char → Bool

inductive RaiseError where
  | wish (error : WishError)
  /-- A time that can not be read or compared. -/
  | time (at_ : String)
  /-- `{ask.id} was raised at {last} and nothing moved since`. -/
  | unmoved (ask : Value) (last : ℤ)

/-- `RAISE_GAP`, in microseconds. -/
def raiseGap : ℤ :=
  24 * 60 * 60 * 1000000

def ofWish {α : Type} : Except WishError α → Except RaiseError α
  | .ok value => .ok value
  | .error e => .error (.wish e)

/-- `text.split()`. -/
def words (text : String) : List String :=
  (Port.wordsFrom [] text.toList).map String.ofList

/-- A file of a room's `port/out`: what `parse_frontmatter` reads of it, `none` where it
raises, and when it was written. -/
structure File where
  sent : Option Dict
  mtime : ℤ
  deriving DecidableEq

variable (env : Env)

/-- `datetime.fromisoformat(f.at)`. -/
def time (f : Fact) : Except RaiseError ℤ :=
  match env.stamp f.at_ with
  | some t => .ok t
  | none => .error (.time f.at_)

/-- `_links(data)`. -/
def links (data : Dict) : Except RaiseError (List String) :=
  match (Dict.get data "links").orElse (.arr []) with
  | .str text => .ok (words text)
  | value => do .ok ((← ofWish (elements value)).map (Value.toStr env.host))

/-- `is_channel(str(data.get("to", "")))`. -/
def toChannel (data : Dict) : Bool :=
  startsWith (((data.lookup "to").getD (.str "")).toStr env.host) "channel:"

/-- Whether a letter to a channel links the ask. -/
def raisesAsk (data : Dict) (ask : Value) : Except RaiseError Bool :=
  if toChannel env data then do .ok ((← links env data).any (.str · = ask)) else .ok false

/-- `_asks(found, links)`; `expired` is the wish table's look at the clock. -/
def asks (expired : String → Bool) (found : List Wish) (links : List String) : Except RaiseError (List Wish) := do
  let rows ← links.mapM fun link => match found.find? (·.id = .str link) with
    | none => .ok none
    | some w => do .ok (if (← ofWish (isOpen expired w)) && w.sender = .str "resident" then some w else none)
  .ok rows.reduceOption

/-- When one letter of the ledger raised the ask, if it did. -/
def toldAt (ask : Value) (f : Fact) : Except RaiseError (Option ℤ) := do
  if ← raisesAsk env f.data ask then return some (← time env f) else return none

/-- When one file of the port raises the ask, if it does. -/
def sentAt (ask : Value) (file : File) : Except RaiseError (Option ℤ) :=
  match file.sent with
  | none => .ok none
  | some sent => do if ← raisesAsk env sent ask then return some file.mtime else return none

/-- `last_raise(facts, room, ask)`, over the files of the room's port. -/
def lastRaise (facts : List Fact) (out : List File) (ask : Value) : Except RaiseError (Option ℤ) := do
  let told ← (facts.filter fun f => f.kind = "letter").mapM (toldAt env ask)
  let sent ← out.mapM (sentAt env ask)
  return (told ++ sent).reduceOption.max?

/-- `PR.findall(text)`. -/
def numbers : List Char → List (List Char)
  | [] => []
  | c :: text =>
      let here := match Weakened.behind ["/pull/", "#"] (c :: text) with
        | none => []
        | some rest =>
            let isDigit := fun c => asciiDigit c || env.decimal c
            let digits := rest.takeWhile isDigit
            if digits ≠ [] && Weakened.wordEnds env.alphabet (rest.dropWhile isDigit) then [digits] else []
      here ++ numbers text

/-- `prs(wish)`. -/
def prs (wish : Wish) : List String :=
  (numbers env (wish.line.toStr env.host ++ " " ++ wish.rec_.toStr env.host).toList).map String.ofList

/-- What one fact moves an ask by, or "". -/
def moveBy (wish : Wish) (f : Fact) : String :=
  let number := (Dict.get f.data "number").toStr env.host
  if f.kind = "letter" ∧ isPerson env.host f then "a letter of theirs"
  else if f.kind = "wish" ∧ (Dict.get f.data "wish" = wish.id ∨ Dict.get f.data "wish" = wish.parent) then "restated"
  else if (f.kind = "pr.opened" ∨ f.kind = "pr.merged") ∧ number ∈ prs env wish then
    "#" ++ number ++ " " ++ removePrefix f.kind "pr."
  else ""

/-- `move(facts, wish, since)`. -/
def move (wish : Wish) (since : ℤ) : List Fact → Except RaiseError String
  | [] => .ok ""
  | f :: facts => do
      if (← time env f) ≤ since ∨ moveBy env wish f = "" then move wish since facts else return moveBy env wish f

/-- The turn of `refuse` for one ask. -/
def refuseAsk (facts : List Fact) (out : List File) (now : ℤ) (ask : Wish) : Except RaiseError Unit := do
  match ← lastRaise env facts out ask.id with
  | none => .ok ()
  | some last =>
      if now - last < raiseGap then
        if (← move env ask last facts) = "" then .error (.unmoved ask.id last) else .ok ()
      else .ok ()

/-- The asks that `refuse` goes through. -/
def asked (expired : String → Bool) (facts : List Fact) (links : List String) : Except RaiseError (List Wish) := do
  asks expired (← ofWish (wishes env.host env.checkout facts)) links

/-- `refuse(facts, room, links, now)`. -/
def refuse (expired : String → Bool) (facts : List Fact) (out : List File) (links : List String) (now : ℤ) :
    Except RaiseError Unit := do
  (← asked env expired facts links).forM (refuseAsk env facts out now)

end Brnrd.Raises
