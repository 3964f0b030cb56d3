import Brnrd.Ledger.Reader
import Brnrd.Ledger.Writer
import Brnrd.Stores.FactStore

/-! An install's folder of the ledger as its files are on disk, the index that each
process keeps of it, and the one write path over both. -/
namespace Brnrd.Ledger

open Python Facts
open Stores (factRow)

/-- `json.dumps(row, sort_keys=True, separators=(",", ":"))` beside the host's
`json.loads`, which gives back what was written. It escapes what is not printable ASCII, so
a line is as many bytes as characters. `none` is what is no plain JSON object. -/
structure Format (host : Host) where
  dumps : Dict → Option (List Char)
  opens : ∀ row text, dumps row = some text → text.head? = some '{'
  oneLine : ∀ row text, dumps row = some text → OneLine text
  loads_dumps : ∀ row text, dumps row = some text → host.loads text = some (.obj row)

def Format.text {host : Host} (format : Format host) (f : Fact) : List Char :=
  (format.dumps (factRow f)).getD []

def Format.line {host : Host} (format : Format host) (f : Fact) : List Char :=
  format.text f ++ ['\n']

/-- A file of the folder, with the times the file system gives it. -/
structure Shard where
  dev : ℕ
  ino : ℕ
  mtime : ℕ
  ctime : ℕ
  text : List Char
deriving DecidableEq

def Shard.stamp (file : Shard) : Stamp :=
  ⟨file.dev, file.ino, file.text.length, file.mtime, file.ctime⟩

/-- The files of the folder, in the order of their names. -/
abbrev Directory := List (String × Shard)

/-- `raw[:raw.rfind(b'\n') + 1]`, and what `_heal_tail` leaves of a file. -/
def wholeLines (text : List Char) : List Char :=
  text.rdropWhile (· ≠ '\n')

/-- `bytes.splitlines`, from inside a line. -/
def byteLinesFrom (line : List Char) (returned : Bool) : List Char → List (List Char)
  | [] => if line = [] then [] else [line]
  | c :: rest =>
      if c = '\n' && returned then byteLinesFrom [] false rest
      else if c = '\n' || c = '\r' then line :: byteLinesFrom [] (c = '\r') rest
      else byteLinesFrom (line ++ [c]) false rest

def byteLines (text : List Char) : List (List Char) :=
  byteLinesFrom [] false text

/-- What makes the write path raise. -/
inductive WriteError where
  | append (error : AppendError)
  | unreadable (name : String)
  /-- `json.dumps` of the fact. -/
  | unwritable (id : String)
  /-- The process dies in the write, or the write raises. -/
  | cut
deriving DecidableEq

def liftAppend {α : Type} : Except AppendError α → Except WriteError α
  | .ok a => .ok a
  | .error e => .error (.append e)

/-- `WriterIndex`: for each file a stamp and the offset behind its last complete line,
beside the ids and clocks. -/
structure DirIndex where
  stamps : List (String × Stamp × ℕ)
  facts : WriterIndex

def DirIndex.empty : DirIndex :=
  ⟨[], 0, [], []⟩

/-- The loop variables of `refresh`. -/
structure Refreshing where
  stamps : List (String × Stamp × ℕ)
  additions : List Fact
  rebuild : Bool

/-- A file that has not the stamp it had: what follows the offset, or all of it. -/
def Refreshing.read (host : Host) (v : Refreshing) (prior : Option (Stamp × ℕ)) (name : String) (file : Shard) :
    Except WriteError Refreshing :=
  let grows := prior.filter fun known => known.1.dev = file.dev ∧ known.1.ino = file.ino ∧ known.1.size < file.text.length
  let offset := (grows.map Prod.snd).getD 0
  let lines := wholeLines (file.text.drop offset)
  match linesFacts host (byteLines lines) with
  | none => .error (.unreadable name)
  | some added => .ok {
      stamps := v.stamps ++ [(name, file.stamp, offset + lines.length)]
      additions := v.additions ++ added
      rebuild := v.rebuild || (prior.isSome && grows.isNone) }

/-- One path of `refresh`. -/
def Refreshing.visit (host : Host) (known : List (String × Stamp × ℕ)) (v : Refreshing) (entry : String × Shard) :
    Except WriteError Refreshing :=
  match known.lookup entry.1 with
  | some prior =>
      if prior.1 = entry.2.stamp then .ok { v with stamps := v.stamps ++ [(entry.1, prior)] }
      else v.read host (some prior) entry.1 entry.2
  | none => v.read host none entry.1 entry.2

/-- `read_file`, of a file's text. -/
def shardFacts (host : Host) (entry : String × Shard) : Except WriteError (List Fact) :=
  match linesFacts host (splitlines (wholeLines entry.2.text)) with
  | some facts => .ok facts
  | none => .error (.unreadable entry.1)

/-- The ids and clocks, checked and taken in. -/
def WriterIndex.takeIn (index : WriterIndex) (facts : List Fact) : Except WriteError WriterIndex :=
  liftAppend (facts.foldlM WriterIndex.add index)

/-- `refresh(directory)`. Where it raises, the index stays as it was. -/
def DirIndex.refresh (host : Host) (index : DirIndex) (dir : Directory) : Except WriteError DirIndex := do
  let removed := index.stamps.any fun known => known.1 ∉ dir.map Prod.fst
  let v ← dir.foldlM (Refreshing.visit host index.stamps) ⟨[], [], removed⟩
  if v.rebuild then do
    let all ← dir.mapM (shardFacts host)
    let facts ← WriterIndex.takeIn DirIndex.empty.facts all.flatten
    .ok ⟨v.stamps, facts⟩
  else do
    let facts ← index.facts.takeIn v.additions
    .ok ⟨v.stamps, facts⟩

/-- The file system's own numbers for a write: the times the file gets, and what it is where
it is new. -/
structure Disk where
  dev : ℕ
  ino : ℕ
  mtime : ℕ
  ctime : ℕ

/-- The unfinished tail is cut off, and the text appended. -/
def Shard.extend (file : Shard) (disk : Disk) (sent : List Char) : Shard :=
  { file with mtime := disk.mtime, ctime := disk.ctime, text := wholeLines file.text ++ sent }

def Directory.write (dir : Directory) (name : String) (disk : Disk) (sent : List Char) : Directory :=
  if name ∈ dir.map Prod.fst then dir.map fun entry => if entry.1 = name then (name, entry.2.extend disk sent) else entry
  else dir.orderedInsert (fun a b => a.1 ≤ b.1) (name, ⟨disk.dev, disk.ino, disk.mtime, disk.ctime, sent⟩)

/-- What `append` comes to under the lock: a fact that is there, or one to write. -/
inductive Outcome where
  | present (old : Fact)
  | write (name : String) (stored : Fact)

def DirIndex.outcome {host : Host} (format : Format host) (index : DirIndex) (now : Int) (install : String) (fact : Fact) :
    Except WriteError Outcome :=
  match index.facts.existing.lookup fact.id with
  | some old => if content old = content fact then .ok (.present old) else .error (.append (.conflict fact.id))
  | none =>
      let stored := { fact with hlc := some (fact.hlc.getD (index.facts.nextHlc now install)) }
      if (format.dumps (factRow stored)).isNone then .error (.unwritable stored.id)
      else match factFilename stored with
        | none => .error (.append (.noFile stored.kind stored.id))
        | some name => .ok (.write name stored)

/-- The folder with the processes that append to it, each with its index. `log` holds the
facts whose lines are on disk, in the order of their appends, and `stamped` those of them
that `append` stamped; `past` holds the stamps that files have had. No call reads these
three. -/
structure Appending where
  dir : Directory := []
  index : ℕ → DirIndex := fun _ => DirIndex.empty
  log : List Fact := []
  stamped : List Fact := []
  past : List (String × Stamp) := []

section
variable {host : Host} (format : Format host)

/-- How much of the line reaches the disk: all of it, or so many characters. -/
def Format.sent (stored : Fact) : Option ℕ → List Char
  | none => format.line stored
  | some reach => (format.line stored).take reach

def Appending.write (w : Appending) (name : String) (stored : Fact) (fresh : Bool) (reach : Option ℕ) (disk : Disk) :
    Appending :=
  let sent := format.sent stored reach
  { w with
    dir := w.dir.write name disk sent
    log := if sent = format.line stored then w.log ++ [stored] else w.log
    stamped := if sent = format.line stored ∧ fresh then w.stamped ++ [stored] else w.stamped
    past := w.past ++ w.dir.map fun entry => (entry.1, entry.2.stamp) }

/-- `append(home, fact)` by a process: what it leaves, and what it returns or raises. -/
def Appending.append (install : String) (w : Appending) (p : ℕ) (now : Int) (fact : Fact) (reach : Option ℕ) (disk : Disk) :
    Appending × Except WriteError Fact :=
  match admitFact fact with
  | some text => (w, .error (.append (.undeclared text)))
  | none =>
      match (w.index p).refresh host w.dir with
      | .error e => (w, .error e)
      | .ok index =>
          let w := { w with index := Function.update w.index p index }
          match index.outcome format now install fact with
          | .error e => (w, .error e)
          | .ok (.present old) => (w, .ok old)
          | .ok (.write name stored) =>
              (w.write format name stored fact.hlc.isNone reach disk, if reach.isNone then .ok stored else .error .cut)

/-- A process appends, or one begins, or forgets its index. -/
inductive AppendAction where
  | append (p : ℕ) (now : Int) (fact : Fact) (reach : Option ℕ) (disk : Disk)
  | restart (p : ℕ)

def Appending.step (install : String) (w : Appending) : AppendAction → Option Appending
  | .append p now fact reach disk => some (w.append format install p now fact reach disk).1
  | .restart p => some { w with index := Function.update w.index p DirIndex.empty }

end

end Brnrd.Ledger
