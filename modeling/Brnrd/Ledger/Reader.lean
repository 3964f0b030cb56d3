import Brnrd.Ledger.Rows
import Brnrd.Ledger.View

/-! The file-incremental reader: for each stream a stamp, the offset behind its
last complete line and a bounded tail before that offset. -/
namespace Brnrd.Ledger

open Python Facts

/-- A stream file as one `fstat` and one `read` see it. -/
structure File where
  dev : Nat
  ino : Nat
  mtime : Nat
  ctime : Nat
  bytes : List UInt8
  deriving DecidableEq

structure Stamp where
  dev : Nat
  ino : Nat
  size : Nat
  mtime : Nat
  ctime : Nat
  deriving DecidableEq

def File.stamp (file : File) : Stamp :=
  ⟨file.dev, file.ino, file.bytes.length, file.mtime, file.ctime⟩

/-- A folder and a file name under `ledger/facts`. -/
abbrev Path := String × String

/-- The files under `ledger/facts`, in the order of their sorted names. -/
structure Files where
  entries : List (Path × File)
  sorted : entries.Pairwise fun a b => toLex a.1 < toLex b.1

/-- Neither name is hidden, and the file is a `.jsonl`. -/
def isStream (path : Path) : Bool :=
  !startsWith path.1 "." && !startsWith path.2 "." && ".jsonl".toList.isSuffixOf path.2.toList

def Files.streams (files : Files) : List (Path × File) :=
  files.entries.filter fun entry => isStream entry.1

/-- What the reader keeps of a stream. -/
structure Stream where
  stamp : Stamp
  offset : Nat
  tail : List UInt8

/-- `TAIL`. -/
def tailBytes : Nat := 256

/-- `raw[-TAIL:]`. -/
def lastBytes (raw : List UInt8) : List UInt8 :=
  raw.drop (raw.length - tailBytes)

/-- The ways a scan raises. -/
inductive ScanError where
  | unreadable (path : Path)
  | view (error : ViewError)
  deriving DecidableEq

def liftView {α : Type} : Except ViewError α → Except ScanError α
  | .ok a => .ok a
  | .error e => .error (.view e)

/-- Grown in place is an append only if the bytes before the cursor are still
the ones read: then what stands behind the cursor. -/
def Stream.appended (s : Stream) (file : File) : Option (List UInt8) :=
  if s.stamp.dev = file.dev ∧ s.stamp.ino = file.ino ∧ s.stamp.size < file.bytes.length then
    let raw := file.bytes.drop (s.offset - s.tail.length)
    if s.tail.isPrefixOf raw then some (raw.drop s.tail.length) else none
  else none

/-- The loop variables of `_scan`. -/
structure Gathered where
  streams : List (Path × Stream)
  changed : Bool
  repair : Bool
  additions : List Fact

/-- A stream whose stamp is new: what follows the cursor, or the whole file. -/
def Gathered.read (host : Host) (g : Gathered) (prior : Option Stream) (path : Path) (file : File) :
    Except ScanError Gathered :=
  let grown := prior.bind fun s => s.appended file
  let start := match prior, grown with
    | some s, some _ => (s.offset, s.tail)
    | _, _ => (0, [])
  let lines := complete (grown.getD file.bytes)
  match parseLines host lines with
  | none => .error (.unreadable path)
  | some added => .ok {
      streams := g.streams ++ [(path, ⟨file.stamp, start.1 + lines.length,
        lastBytes ((if start.1 = 0 then [] else start.2) ++ lines)⟩)]
      changed := true
      repair := g.repair || (prior.isSome && grown.isNone)
      additions := g.additions ++ added }

/-- One path of the scan. -/
def Gathered.visit (host : Host) (known : List (Path × Stream)) (g : Gathered)
    (entry : Path × File) : Except ScanError Gathered :=
  match known.lookup entry.1 with
  | some s =>
      if s.stamp = entry.2.stamp then .ok { g with streams := g.streams ++ [(entry.1, s)] }
      else g.read host (some s) entry.1 entry.2
  | none => g.read host none entry.1 entry.2

/-- `LedgerReader`, less its lock and its marker. -/
structure LedgerReader where
  streams : List (Path × Stream)
  ordered : LedgerView
  revision : Nat

def LedgerReader.empty : LedgerReader :=
  ⟨[], LedgerView.empty, 0⟩

/-- `read_file(path) for path in paths`. -/
def readFiles (host : Host) (files : Files) : Except ScanError (List (List Fact)) :=
  files.streams.mapM fun entry => match readFile host entry.2.bytes with
    | some facts => .ok facts
    | none => .error (.unreadable entry.1)

/-- A repair: the union of all files. -/
def rebuild (host : Host) (files : Files) : Except ScanError LedgerView := do
  let contents ← readFiles host files
  let (l, duplicates) ← liftView (liftUnion (unionWith host contents []))
  let view ← liftView (LedgerView.load host l)
  .ok { view with duplicates := duplicates }

/-- The union of a view and a batch that reorders it, as a new view. -/
def replay (host : Host) (v : LedgerView) (delta : List Fact) : Except ScanError LedgerView := do
  let (l, duplicates) ← liftView (liftUnion (unionWith host [v.facts, delta] v.duplicates))
  let view ← liftView (LedgerView.load host l)
  .ok { view with duplicates := duplicates }

/-- Additions alone: the view grows, or is replayed where they reorder it. -/
def absorb (host : Host) (v : LedgerView) (additions : List Fact) : Except ScanError LedgerView := do
  let (v, delta, reorder) ← liftView (v.incoming host additions)
  if reorder then replay host v delta else liftView (v.apply host delta false)

/-- The view after a scan in which something changed. -/
def Gathered.view (host : Host) (g : Gathered) (v : LedgerView) (files : Files) :
    Except ScanError LedgerView :=
  if g.repair then rebuild host files else absorb host v g.additions

/-- `_scan(root)`. An unreadable line leaves the reader as it was. -/
def LedgerReader.scan (host : Host) (r : LedgerReader) (files : Files) :
    Except ScanError LedgerReader := do
  let paths := files.streams.map Prod.fst
  let removed := r.streams.any fun known => known.1 ∉ paths
  let changed := removed || paths.any fun path => (r.streams.lookup path).isNone
  let g ← files.streams.foldlM (Gathered.visit host r.streams) ⟨[], changed, removed, []⟩
  if g.changed then do
    let ordered ← g.view host r.ordered files
    .ok ⟨g.streams, ordered, r.revision + 1⟩
  else .ok { r with streams := g.streams }

end Brnrd.Ledger
