import Brnrd.Letters.UpToDate
import Brnrd.Port.Boundary
import Brnrd.Project.Reducer
import Mathlib.Data.List.SplitOn

/-! The three projections a view carries over its letters: the chat each letter
came from, the lines on its attachments, and what it replies to. -/
namespace Brnrd.Letters

open Python Facts Ledger Project

/-- What `pathlib` and `datetime` make of texts: the path of a blob under a
root, and the seconds from one timestamp to another, `none` where either is
none or only one of them has a time zone. -/
structure Calls where
  blobPath : String → String → String
  between : String → String → Option ℚ

/-- `index.get(key)`, of a key that `_add` has hashed. -/
def getFact (index : List (String × Fact)) : Value → Option Fact
  | .str key => index.lookup key
  | _ => none

/-- `source_fact`: the source a letter cites. -/
def sourceOf (v : LedgerView) (letter : Fact) : Option Fact :=
  (getFact v.byId (Dict.get letter.data "cites")).filter fun f => f.kind = "source"

/-- `str(data.get(key) or "")`. -/
def textAt (host : Host) (data : Dict) (key : String) : String :=
  ((Dict.get data key).orElse (.str "")).toStr host

/-- `is_channel(to)`, for a text. -/
def isChannel (address : String) : Bool :=
  startsWith address "channel:"

def chatChar (c : Char) : Bool :=
  c.isAlphanum || "_:@#.+/-".toList.contains c

/-- `channel_parts(channel)`, `none` where it raises `ValueError`. -/
def channelParts (channel : String) : Option (String × Option String) :=
  if isChannel channel then
    let rest := (removePrefix channel "channel:").toList
    let name := rest.takeWhile (· ≠ '/')
    if (name.head?.any Char.isAlphanum) && name.all idChar then
      match rest.dropWhile (· ≠ '/') with
      | [] => some (String.ofList name, none)
      | _ :: chat =>
          if chat ≠ [] && chat.all chatChar && (chat.splitOn '/').all (fun segment => segment ∉ [[], ['.'], ['.', '.']])
          then some (String.ofList name, some (String.ofList chat))
          else none
    else none
  else none

/-- The chat of one letter: the channel its source came on, where `send` accepts it. -/
def channelEntry (v : LedgerView) (enabled : Option (Finset String)) (letter : Fact) : Except Raised (Option String) :=
  match if letter.kind = "letter" then sourceOf v letter else none with
  | none => .ok none
  | some source => match Dict.get source.data "channel" with
      | .str channel => match channelParts channel with
          | some (name, _) => .ok (if enabled.all fun names => name ∈ names then some channel else none)
          | none => .ok none
      | _ => .ok none

/-- `_reply_channels(facts, enabled, selected)`. -/
def replyChannels (host : Host) (v : LedgerView) (enabled : Option (Finset String)) (selected : Option (List Fact)) :
    Except Raised (List (String × String)) :=
  buildWith (channelEntry v enabled) (fun letter => (Dict.get letter.data "id").toStr host)
    (selected.getD (kindRows v "letter"))

/-- `item in value`. -/
def contains (value item : Value) : Except Raised Bool :=
  match value, item with
  | .arr items, _ => .ok (items.contains item)
  | .obj fields, _ => do
      hash item
      .ok (fields.any fun field => .str field.1 = item)
  | .str text, .str part => .ok (decide (part.toList <:+: text.toList))
  | _, _ => .error .type

/-- The line on one blob fact that a source names. -/
def blobLine (host : Host) (calls : Calls) (v : LedgerView) (root : String) (source : Fact) (ref : String) :
    Except Raised (List String) :=
  match (v.byId.lookup ref).filter fun f => f.kind = "blob" with
  | none => .ok []
  | some blob => do
      let sha ← item blob.data "sha"
      let held ← match source.data.lookup "blobs" with
        | some blobs => contains blobs sha
        | none => .ok false
      match held, sha with
      | false, _ => .ok []
      | true, .str name => do
          let mime ← item blob.data "mime"
          let size ← item blob.data "size"
          .ok ["attachment: " ++ mime.toStr host ++ " · " ++ size.toStr host ++ " bytes · " ++ calls.blobPath root name]
      | true, _ => .error .type

/-- `source.data.get("blobs_missing", ())`. -/
def missingBlobs (source : Fact) : Except Raised (List Value) :=
  match source.data.lookup "blobs_missing" with
  | some numbers => iterate numbers
  | none => .ok []

/-- The lines on one letter's attachments. -/
def attachmentEntry (host : Host) (calls : Calls) (v : LedgerView) (root : String) (letter : Fact) :
    Except Raised (Option (List String)) :=
  match if letter.kind = "letter" then sourceOf v letter else none with
  | none => .ok none
  | some source => do
      let lines ← source.after.mapM (blobLine host calls v root source)
      let numbers ← missingBlobs source
      .ok (some (lines.flatten ++ numbers.map fun number => "attachment " ++ number.toStr host ++ " could not be fetched"))

/-- `_letter_attachments(root, facts, selected)`. -/
def letterAttachments (host : Host) (calls : Calls) (v : LedgerView) (root : String) (selected : Option (List Fact)) :
    Except Raised (List (String × List String)) :=
  buildWith (attachmentEntry host calls v root) Fact.id (selected.getD (kindRows v "letter"))

/-- `TURNS`. -/
def turnsKept : Nat := 4

/-- `BURST`. -/
def burst : ℚ := 600

/-- A letter's channel: the one it went to, or the one its source came on. -/
def letterChannel (host : Host) (v : LedgerView) (letter : Fact) : String :=
  let address := textAt host letter.data "to"
  if isChannel address then address
  else match sourceOf v letter with
    | some source => textAt host source.data "channel"
    | none => ""

/-- `source.get("re")`. -/
def nativeReply (v : LedgerView) (letter : Fact) : Value :=
  match sourceOf v letter with
  | some source => Dict.get source.data "re"
  | none => .null

/-- `_follows(previous, letter)`. -/
def follows (host : Host) (calls : Calls) (previous letter : Fact) : Bool :=
  if isChannel (textAt host previous.data "to") then false
  else match calls.between previous.at_ letter.at_ with
    | some seconds => seconds < burst
    | none => false

/-- `text.split("\n", 1)[0]`. -/
def firstLine (text : String) : List Char :=
  text.toList.takeWhile (· ≠ '\n')

/-- `who`: a turn of ours is its strand's thread's. -/
def turnSender (host : Host) (threads : Value → Option String) (turn : Fact) : String :=
  let sender := textAt host turn.data "from"
  if isChannel (textAt host turn.data "to") then (threads (.str sender)).getD sender else sender

/-- `age`. -/
def turnAge (calls : Calls) (turn letter : Fact) : String :=
  match calls.between turn.at_ letter.at_ with
  | none => ""
  | some seconds =>
      let minutes := (seconds / 60).floor.toNat
      let age := if 1440 ≤ minutes then toString (minutes / 1440) ++ "d"
        else if 60 ≤ minutes then
          toString (minutes / 60) ++ "h" ++ (if minutes % 60 < 10 then "0" else "") ++ toString (minutes % 60) ++ "m"
        else toString minutes ++ "m"
      " · " ++ age ++ " before"

/-- `" ".join(text.split())`, cut to 160 characters. -/
def turnWords (text : String) : String :=
  let first := [' '].intercalate (Port.wordsFrom [] (firstLine text))
  String.ofList (if first.length ≤ 160 then first else first.take 159 ++ ['…'])

/-- `_turn_line(turn, letter, threads)`. -/
def turnLine (host : Host) (calls : Calls) (threads : Value → Option String) (letter turn : Fact) : String :=
  (match turn.data.lookup "id" with
    | some ident => ident.toStr host
    | none => turn.id) ++ " · " ++ turnSender host threads turn ++ turnAge calls turn letter ++ " — " ++
    turnWords (textAt host turn.data "body")

/-- `before[-TURNS:]`. -/
def lastTurns (before : List Fact) : List Fact :=
  before.drop (before.length - turnsKept)

/-- `sender_threads(facts)`, of a view: resumed or from the start, the fold's
writers are the same. -/
def senderThreads (host : Host) (facts : List Fact) : Except Raised (Value → Option String) :=
  (Reducer.start.resume host facts).map fun r => r.activity.writers

/-- The turns that a letter is read against, of those before it on its channel. -/
def turnsAgainst (host : Host) (calls : Calls) (v : LedgerView) (letter : Fact) (before : List Fact) : List Fact :=
  if nativeReply v letter ∈ [.null, .str ""] then
    match before.getLast? with
    | some previous => if follows host calls previous letter then [] else lastTurns before
    | none => []
  else []

/-- The context of one letter, after the turns before it. -/
def contextOf (host : Host) (calls : Calls) (v : LedgerView) (letter : Fact) (before : List Fact) :
    Except Raised (Option String) :=
  let given := nativeReply v letter
  if given ∈ [.null, .str ""] then
    match turnsAgainst host calls v letter before with
    | [] => .ok none
    | turn :: turns => do
        let threads ← senderThreads host v.facts
        .ok (some ("\n".intercalate ("not a reply; the conversation before it on this channel:" ::
          (turn :: turns).map (turnLine host calls threads letter))))
  else match getFact v.namedLetters (Dict.get letter.data "re") with
    | some target => .ok (some ("replying to your " ++ (Dict.get letter.data "re").toStr host ++ ": " ++
        String.ofList (firstLine (textAt host target.data "body"))))
    | none => .ok (some ("replying to an earlier message (" ++ given.toStr host ++ ")"))

/-- The variables of the loop over the letters. -/
structure Turns where
  turns : List (String × List Fact)
  found : List (String × String)

def Turns.start : Turns :=
  ⟨[], []⟩

/-- `before`: a channel's turns with the letter; a letter without one has none. -/
def Turns.before (s : Turns) (channel : String) (letter : Fact) : List Fact :=
  if channel = "" then [] else (s.turns.lookup channel).getD [] ++ [letter]

def Turns.put (s : Turns) (channel : String) (letter : Fact) : List (String × List Fact) :=
  if channel = "" then s.turns else (channel, s.before channel letter) :: s.turns

/-- `picked is not None and letter.id not in picked`. -/
def passedOver (picked : Option (List String)) (letter : Fact) : Bool :=
  picked.any fun idents => letter.id ∉ idents

/-- One turn of the loop over the letters. -/
def Turns.read (host : Host) (calls : Calls) (v : LedgerView) (picked : Option (List String)) (s : Turns)
    (letter : Fact) : Except Raised Turns :=
  let channel := letterChannel host v letter
  let turns := s.put channel letter
  if passedOver picked letter || Dict.get letter.data "to" = .str channel then .ok ⟨turns, s.found⟩
  else match contextOf host calls v letter (s.before channel letter).dropLast with
    | .ok (some line) => .ok ⟨turns, (letter.id, line) :: s.found⟩
    | .ok none => .ok ⟨turns, s.found⟩
    | .error e => .error e

/-- `_letter_replies(facts, selected)`. -/
def letterReplies (host : Host) (calls : Calls) (v : LedgerView) (selected : Option (List Fact)) :
    Except Raised (List (String × String)) :=
  ((kindRows v "letter").foldlM (Turns.read host calls v (selected.map (List.map Fact.id))) Turns.start).map Turns.found

/-- `reply_channels(view)`, with the names of the enabled instances. -/
def channelsProjection (host : Host) : Projection (Option (Finset String)) String where
  kinds := ["source", "letter"]
  build := replyChannels host

/-- `letter_attachments(root, view)`. -/
def attachmentsProjection (host : Host) (calls : Calls) : Projection String (List String) where
  kinds := ["source", "blob", "letter"]
  build := letterAttachments host calls

/-- `letter_replies(view)`. -/
def contextProjection (host : Host) (calls : Calls) : Projection Unit String where
  kinds := ["source", "letter"]
  build := fun v _ => letterReplies host calls v

end Brnrd.Letters
