import Brnrd.Ledger.LetterIndex
import Brnrd.Lists.Entries
import Brnrd.Port.Frontmatter
import Brnrd.Stores.FactStore

/-! A strand's letters to channels that cite nothing, as its stop lists them: the ones in
its ledger file, the ones still in its port, and the section of the README that names them. -/
namespace Brnrd.Cites

open Python Facts Port
open Ledger (nameOf isLetter)
open Stores (factRow)

/-- A text as code points: what a port file holds may be half of a surrogate pair. -/
abbrev Points := List ℕ

def points (text : String) : Points :=
  codePoints text.toList

/-- The line of a fact in its file. -/
def lineOf (f : Fact) : List Char :=
  dumpsValue (.obj (factRow f))

/-- `is_channel(to)` of what a fact holds. -/
def isChannel : Value → Bool
  | .str channel => startsWith channel "channel:"
  | _ => false

structure Send where
  id : Points
  to_ : Points
  deriving DecidableEq

section Letters

variable (host : Host) (strand since : String)

/-- A letter of the strand to a channel, since it booted, without `re`. -/
def isSend (f : Fact) : Bool :=
  isLetter f && f.by_ = "strand:" ++ strand && isChannel (Dict.get f.data "to") && !(Dict.get f.data "re").truthy &&
    since ≤ f.at_

def sendOf (f : Fact) : Send :=
  ⟨points (nameOf host f), points ((Dict.get f.data "to").toStr host)⟩

/-- What `channel_sends` takes of one line of a ledger file. -/
def drainedSend (f : Fact) : Option Send :=
  if "\"channel:".toList <:+: lineOf f then
    if isSend strand since f then some (sendOf host f) else none
  else none

/-- What `channel_sends` takes of one file of `port/out`: its stem and its text, `none` where
it cannot be read. -/
def outSend (file : String × Option Text) : Option Send :=
  match file.2.map parseFrontmatter with
  | some (.ok fields) =>
      let field := fun key : String => (fields.lookup key.toList).getD []
      if field "kind" = points "letter" && (points "channel:").isPrefixOf (field "to") && field "re" = [] then
        some ⟨if field "id" = [] then points file.1 else field "id", field "to"⟩
      else none
  | _ => none

/-- `channel_sends(room, strand, booted)`: the facts of the strand's files, in the order in which
they are read, and the files of `port/out`, sorted. -/
def channelSends (drained : List Fact) (out : List (String × Option Text)) : List Send :=
  let found := (drained.filterMap (drainedSend host strand since)).foldl (fun found send => Entries.set send.id send found) []
  ((out.filterMap outSend).foldl (fun found send => Entries.setDefault send.id send found) found).map Prod.snd

end Letters

/-- `_within(channel, allowed)`. -/
def within (channel : Points) (allowed : List Points) : Bool :=
  allowed.any fun chat => channel = chat || (chat ++ points ":").isPrefixOf channel

/-- What `\s*$` leaves of a text, or `none` where it does not match. -/
def blankEnd : Text → Option Text
  | [] => some []
  | c :: rest =>
      if isSpace c then (blankEnd rest).orElse fun _ => if c = '\n' then some (c :: rest) else none
      else none

/-- What `^## Misses\s*$` leaves of a text at the start of a line. -/
def headingEnd (text : Text) : Option Text :=
  if "## Misses".toList.isPrefixOf text then blankEnd (text.drop 9) else none

/-- `(.*?)(?=^## |\Z)`. -/
def untilHeading (lineStart : Bool) : Text → Text
  | [] => []
  | c :: rest =>
      if lineStart && "## ".toList.isPrefixOf (c :: rest) then []
      else c :: untilHeading (c = '\n') rest

/-- The first match of the whole pattern. -/
def searchMisses (lineStart : Bool) : Text → Option Text
  | [] => none
  | c :: rest =>
      match if lineStart then headingEnd (c :: rest) else none with
      | some behind => some (untilHeading false behind)
      | none => searchMisses (c = '\n') rest

/-- `missed_text(text)`. -/
def missedText (text : Text) : Text :=
  (searchMisses true text).getD []

/-- `missed(readme)`; `none` is a README that cannot be read. -/
def missed (readme : Option Text) : Text :=
  (readme.map missedText).getD []

/-- `send:{to}@{id}`. -/
def keyOf (send : Send) : Points :=
  points "send:" ++ send.to_ ++ points "@" ++ send.id

/-- `uncited(room, thread, strand, booted)`, with the channels that `granted_channels` gives. -/
def uncited (host : Host) (strand since : String) (drained : List Fact) (out : List (String × Option Text))
    (allowed : List Points) (readme : Option Text) : List Points :=
  let sends := channelSends host strand since drained out
  if sends = [] then []
  else
    let misses := codePoints (missed readme)
    let keys := (sends.filter fun send => !within send.to_ allowed).map keyOf
    keys.filter fun key => !decide (key <:+: misses)

end Brnrd.Cites
