import Brnrd.Events.Event
import Brnrd.Machine.Reach

/-! A cloud event and the letters made of it: the event as albums merge into it, the
daemon's copy with its attachment directory, and the loom's relay with its own. -/
namespace Brnrd.Copies

open Python
open Events (Text padded attachmentNames attachmentsKey fieldLine parseBlock truthy)

/-- The event as the server has it: its body, and the file name of each attachment. -/
structure Served where
  body : Text
  pointers : List Text
deriving DecidableEq

/-- An item of the album comes: the event's body stays where it has one. -/
def Served.merge (event : Served) (caption : Text) (more : List Text) : Served where
  body := if caption ≠ [] ∧ strip event.body = [] then caption else event.body
  pointers := event.pointers ++ more

/-- `_safe_attachment_name`. -/
def safeAttachmentName (filename : Text) (index : ℕ) : Text :=
  let slashed := filename.map fun c => if c = '\\' then '/' else c
  let raw := strip (slashed.rtakeWhile (· ≠ '/'))
  let raw := if raw = [] ∨ raw = ['.'] ∨ raw = ['.', '.'] then "attachment-".toList ++ padded 2 index else raw
  raw.take 128

/-- `_attachment_names`, of the list of pointers that the server sends. -/
def Served.names (event : Served) : List Text :=
  event.pointers.zipIdx.map fun pointer => safeAttachmentName pointer.1 pointer.2

def failureNote (name : Text) : Text :=
  "[attachment \"".toList ++ (name ++ ("\" could not be fetched — the source media may have " ++
    "expired or the file exceeds the size cap; ask the sender to re-send it]").toList)

/-- `_annotate_failures`. -/
def annotateFailures (body : Text) (failed : List Text) : Text :=
  if failed = [] then body
  else
    let joined := joinLines (failed.map failureNote)
    if body = [] then joined else body ++ '\n' :: '\n' :: joined

/-- The daemon's letter: the event's body, the attachments that its notes name, the names
in its field `attachments`, and its directory, each file with the attachment it has the
bytes of. -/
structure Letter where
  body : Text
  failed : List (Text × ℕ)
  names : List Text
  files : List (Text × ℕ)

def Letter.text (letter : Letter) : Text :=
  annotateFailures letter.body (letter.failed.map Prod.fst)

/-- The names that are read back of a field `attachments` with these:
`event_attachment_names`. No name begins with a blank, so no block is read. -/
def readNames (names : List Text) : List Text :=
  if names = [] then []
  else
    let line := fieldLine (attachmentsKey, [','].intercalate names)
    let raw := (Entries.get attachmentsKey (parseBlock (splitlines (line ++ ['\n'])) 0).1).getD .none
    if truthy raw then (((raw.str fun _ => []).splitOn ',').map strip).filter (· ≠ []) else []

/-- The attachments that the letter has, by the names that are read of it. -/
def Letter.indices (letter : Letter) : List ℕ :=
  (readNames letter.names).filterMap fun name => Entries.get name letter.files

/-- The daemon and the server, for one event. `seen` is what the last poll to be taken in
had of it. -/
structure Daemon where
  server : Served
  letters : List Letter := []
  seen : Option Served := none

namespace Daemon

inductive Action where
  | merge (caption : Text) (more : List Text)
  /-- A poll is taken in; of the attachments it asks for, these come. -/
  | poll (fetched : List ℕ)
  /-- The process dies in a poll, when so many new files are in the letter's directory. -/
  | crash (fetched : List ℕ) (moved : ℕ)

/-- `_ingest_event_attachments`: the files that came, each under its name in the working
directory, and the names of those that did not. -/
def ingestEventAttachments (names : List Text) (fetched : List ℕ) : List (Text × ℕ) × List (Text × ℕ) :=
  let came := names.zipIdx.filter fun item => decide (item.2 ∈ fetched)
  let file := fun item : Text × ℕ => if 1 < names.length then padded 2 item.2 ++ '-' :: item.1 else item.1
  (came.map fun item => (file item, item.2), names.zipIdx.filter fun item => decide (item.2 ∉ fetched))

/-- The letter that `create_event` makes of the event. -/
def createLetter (event : Served) (fetched : List ℕ) : Letter :=
  let (files, failed) := ingestEventAttachments event.names fetched
  let names := attachmentNames (files.map Prod.fst)
  ⟨event.body, failed, names, names.zip (files.map Prod.snd)⟩

/-- The new files of a letter that has so many, each with the name it gets there:
`_reconcile_grown_attachments`, and the prefix of `append_event_attachments`. -/
def grown (event : Served) (already : ℕ) (fetched : List ℕ) : List (Text × ℕ) :=
  let came := (event.names.zipIdx.drop already).filter fun item => decide (item.2 ∈ fetched)
  came.zipIdx.map fun item =>
    (padded 2 (already + item.2) ++ '-' :: (padded 2 item.1.2 ++ '-' :: item.1.1), item.1.2)

/-- The files are moved into the letter's directory. -/
def Letter.move (letter : Letter) (files : List (Text × ℕ)) : Letter :=
  { letter with files := files.foldl (fun held file => Entries.set file.1 file.2 held) letter.files }

/-- What is to be fetched for a letter: the event's attachments beyond as many as the letter
names. -/
def tail (event : Served) (letter : Letter) (fetched : List ℕ) : List (Text × ℕ) :=
  grown event (readNames letter.names).length fetched

/-- `_reconcile_grown_attachments`. -/
def reconcile (event : Served) (letter : Letter) (fetched : List ℕ) : Letter :=
  let added := tail event letter fetched
  if added = [] then letter
  else { Letter.move letter added with names := readNames letter.names ++ added.map Prod.fst }

/-- The event's part of `_loop_once`. Of two letters, `known_origin_events` gives the
last. -/
def ingest (w : Daemon) (fetched : List ℕ) : List Letter :=
  match w.letters.getLast? with
  | none => [createLetter w.server fetched]
  | some letter => w.letters.dropLast ++ [reconcile w.server letter fetched]

def step (w : Daemon) : Action → Option Daemon
  | .merge caption more => some { w with server := w.server.merge caption more }
  | .poll fetched => some { w with letters := w.ingest fetched, seen := some w.server }
  | .crash fetched moved =>
      match w.letters.getLast? with
      | none => some w
      | some letter =>
          some { w with letters := w.letters.dropLast ++ [Letter.move letter ((tail w.server letter fetched).take moved)] }

end Daemon

/-- The loom's letter: the event's body, and the attachments it says are missing. -/
structure Note where
  body : Text
  missing : List ℕ

/-- The loom's relay and the server, for one event. `known` is that `messages.json` has
it, and `failures` is the process's own count for each version of the event. -/
structure Loom where
  server : Served
  files : List ℕ := []
  letter : Option Note := none
  /-- A file with the event's wire bytes, for the loom to refuse. -/
  quarantined : Bool := false
  known : Bool := false
  failures : Served → ℕ := fun _ => 0
  seen : Option Served := none

namespace Loom

inductive Action where
  | merge (caption : Text) (more : List Text)
  /-- A page with the event is worked through; of the attachments it asks for, these
  come. -/
  | poll (fetched : List ℕ)
  /-- Something else raises behind the downloads. -/
  | fault (fetched : List ℕ)
  /-- The process dies behind the downloads, or when the letter is written and
  `messages.json` is not. -/
  | crash (fetched : List ℕ) (written : Bool)

/-- The files that are there when these downloads have come. -/
def download (w : Loom) (fetched : List ℕ) : List ℕ :=
  w.files ++ (List.range w.server.names.length).filter fun index => decide (index ∉ w.files ∧ index ∈ fetched)

def missing (w : Loom) (fetched : List ℕ) : List ℕ :=
  (List.range w.server.names.length).filter fun index => decide (index ∉ w.download fetched)

/-- Whether the attachments that are missing make the attempt fail. -/
def refuses (w : Loom) (fetched : List ℕ) : Bool :=
  decide (w.missing fetched ≠ [] ∧ w.failures w.server < 2)

/-- An attempt fails: at the third, the wire bytes are retained. -/
def fail (w : Loom) (files : List ℕ) : Loom :=
  let failures := Function.update w.failures w.server (w.failures w.server + 1)
  if w.failures w.server + 1 < 3 then { w with files, failures }
  else { w with files, failures, quarantined := true, known := true, seen := some w.server }

/-- `pull_once`, of a page with the event. -/
def pull (w : Loom) (fetched : List ℕ) : Loom :=
  if w.known then { w with seen := some w.server }
  else if w.refuses fetched then w.fail (w.download fetched)
  else
    { w with files := w.download fetched, letter := some ⟨w.server.body, w.missing fetched⟩, known := true,
             failures := Function.update w.failures w.server 0, seen := some w.server }

def step (w : Loom) : Action → Option Loom
  | .merge caption more => some { w with server := w.server.merge caption more }
  | .poll fetched => some (w.pull fetched)
  | .fault fetched => some (if w.known then w else w.fail (w.download fetched))
  | .crash fetched written =>
      if w.known then some { w with failures := fun _ => 0 }
      else
        some { w with files := w.download fetched, failures := fun _ => 0,
                      letter := if written && !w.refuses fetched then some ⟨w.server.body, w.missing fetched⟩ else w.letter }

end Loom

end Brnrd.Copies
