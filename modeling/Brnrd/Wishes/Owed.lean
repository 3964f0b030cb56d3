import Brnrd.Events.Frontmatter
import Brnrd.Wishes.State

/-! What a stop is refused on: the open wishes of a person on a thread that have moved since
they last said what is left. -/
namespace Brnrd.Wishes

open Python Facts

/-- The ways `owed_lefts` raises. -/
inductive OwedError where
  | wish (error : WishError)
  /-- An `AttributeError`: a reading that is no text. -/
  | attribute
  deriving DecidableEq

/-- `read["reading"].startswith("waiting:")`. -/
def Row.isPark (read : Row) : Except OwedError Bool :=
  match need read.data "reading" with
  | .error e => .error (.wish e)
  | .ok (.str reading) => .ok (startsWith reading "waiting:")
  | .ok _ => .error .attribute

/-- `max(times, default="")`. -/
def latestOf (times : List String) : String :=
  times.foldl max ""

/-- `_short`. -/
def short (value : String) (size : Nat) : String :=
  let text := Events.singleSpaced value.toList
  String.ofList (if text.length ≤ size then text else text.take (size - 1) ++ ['…'])

/-- `_letter_word`: what comes after the last colon of a letter's id. -/
def letterWord (ident : String) : String :=
  if startsWith ident "letter:" then String.ofList (ident.toList.reverse.takeWhile (· ≠ ':')).reverse else ident

variable (host : Host) (expired : String → Bool) (strand since : String)

/-- A stamp, or a read that parks nothing, of this body. -/
def ofBody (writer at_ : String) : Bool :=
  writer = "strand:" ++ strand && decide (since ≤ at_)

/-- `_moves`. -/
def Wish.moves (w : Wish) (alone : Bool) : Except OwedError (List (String × String)) := do
  let steered := (w.stamps.filter fun s => s.letters ≠ []).map fun s =>
    (s.at_, "steered: " ++ ", ".intercalate (s.letters.map letterWord))
  let waiting ← (Fallible.keep (fun r => (delivered r).map not) w.results).mapError .wish
  let results ← waiting.mapM fun r => do
    .ok (r.at_, "result " ++ short ((← (need r.data "ref").mapError .wish).toStr host) 40)
  let stamps := (w.stamps.filter fun s => ofBody strand since s.by_ s.at_ && s.letters = []).map fun s =>
    (s.at_, "named by this body")
  let named ← Fallible.keep (fun r => r.isPark.map not) (w.reads.filter fun r => ofBody strand since r.writer r.at_)
  let reads := named.map fun r => (r.at_, "named by this body")
  let work := if alone && since ≠ "" then [(since, "this body's work")] else []
  .ok ((w.born, "new") :: steered ++ results ++ stamps ++ reads ++ work)

/-- `_answered`: a left, a park, a delivery, an ask, a verdict. -/
def Wish.answered (found : List Wish) (w : Wish) : Except OwedError String := do
  let parks ← Fallible.keep Row.isPark w.reads
  let given ← (Fallible.keep delivered w.results).mapError .wish
  .ok (latestOf (w.lefts.map Left.at_ ++ parks.map Row.at_ ++ given.map (fun r => r.at_) ++
    (found.filter fun ask => ask.sender = .str "resident" && ask.parent = w.id).map Wish.born ++
    w.verdict.toList.map Row.at_))

/-- The start of this body: the last lease of its strand. -/
def bodyStart (facts : List Fact) : String :=
  latestOf ((facts.filter fun f => f.kind = "lease" && Dict.get f.data "strand" = .str strand).map Fact.at_)

/-- What this body has been asked about, each time with its wish. -/
def askedAbout (facts : List Fact) : Except OwedError (List (Value × String)) := do
  let asked := facts.filter fun f => f.kind = "left.asked" && Dict.get f.data "strand" = .str strand && since ≤ f.at_
  let named ← asked.mapM fun f => do
    let idents ← (elements (Dict.get f.data "wishes")).mapError .wish
    if idents.all Value.hashable then .ok (idents.map fun ident => (ident, f.at_)) else .error (.wish .type)
  .ok named.flatten

/-- `asked.get(ident, "")`. -/
def askedAt (asked : List (Value × String)) (ident : Value) : String :=
  latestOf ((asked.filter fun item => item.1 = ident).map Prod.snd)

/-- The later of two moves, as pairs. -/
def laterMove (a b : String × String) : String × String :=
  if a.1 < b.1 ∨ a.1 = b.1 ∧ a.2 < b.2 then b else a

/-- The moves that count: on a wish that is handed over only a steer. -/
def Wish.counted (w : Wish) (alone : Bool) : Except OwedError (List (String × String)) := do
  let moves ← w.moves host strand since alone
  let state ← (stateOf expired w).mapError .wish
  .ok (if state = .str "delivered" then moves.filter fun m => startsWith m.2 "steered" else moves)

/-- The open wishes of a person on a thread. -/
def openRows (found : List Wish) (thread : String) : Except WishError (List Wish) :=
  Fallible.keep (fun w => if w.thread = .str thread then
    (isOpen expired w).map fun isOpen => isOpen && decide (w.sender = .str "person") else .ok false) found

/-- What a wish owes: nothing where nothing moved since it last said what is left. -/
def Wish.owes (found : List Wish) (asked : List (Value × String)) (alone : Bool) (w : Wish) :
    Except OwedError (Option (Value × String)) := do
  let answered := max (← w.answered found) (askedAt asked w.id)
  let late := (← w.counted host expired strand since alone).filter fun m => decide (answered < m.1)
  match late with
  | [] => .ok none
  | first :: rest => .ok (some (w.id, if w.lefts = [] then "no left yet" else (rest.foldl laterMove first).2))

/-- `owed_lefts`. -/
def owedLefts (found : List Wish) (facts : List Fact) (thread : String) : Except OwedError (List (Value × String)) := do
  let rows ← (openRows expired found thread).mapError .wish
  if rows = [] then return []
  let since := bodyStart strand facts
  let asked ← askedAbout strand since facts
  let lines ← (rows.mergeSort fun a b => decide (a.born ≤ b.born)).mapM
    (Wish.owes host expired strand since found asked (rows.length = 1))
  return lines.filterMap id

end Brnrd.Wishes
