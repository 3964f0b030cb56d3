import Brnrd.Facts.Fact
import Brnrd.Python.Text
import Mathlib.Data.List.Sort

/-! The lines of a stream file: rows with their old names read in today's
words, and the facts they hold. Only complete lines are read. -/
namespace Brnrd.Ledger

open Python Facts

/-- `{**row, key: value}` for a key the row has. -/
def replaceAt (row : Dict) (key : String) (value : Value) : Dict :=
  row.map fun item => if item.1 = key then (key, value) else item

/-- `_FRESH`. -/
def fresh : String × String :=
  ("Fresh molt: start from main.", "Fresh reincarnation: start from main.")

/-- A dict with its key `molt` renamed; a `reincarnate` it already has stays. -/
def renameMolt (data : Dict) : Dict :=
  if Dict.has data "molt" then
    let rest := data.filter fun item => item.1 ≠ "molt"
    if Dict.has data "reincarnate" then rest
    else rest.orderedInsert (fun a b => a.1 ≤ b.1) ("reincarnate", Dict.get data "molt")
  else data

/-- `renamed(row)`: the one place an old name is read. -/
def renamed (row : Dict) : Dict :=
  let kind := Dict.get row "kind"
  let named := if kind = .str "molt" then replaceAt row "kind" (.str "reincarnate") else row
  match Dict.get row "data" with
  | .obj data =>
      let data := renameMolt data
      let data := if kind = .str "attempt.ended" ∧ Dict.get data "cause" = .str "molted" then
        replaceAt data "cause" (.str "reincarnated") else data
      let data := if kind = .str "letter" ∧ Dict.get data "body" = .str fresh.1 then
        replaceAt data "body" (.str fresh.2) else data
      replaceAt named "data" (.obj data)
  | _ => named

/-- `value == VERSION`. -/
def isVersion : Value → Bool
  | .int n => n = version
  | .bool b => b
  | .float text _ => text = "1.0"
  | _ => false

/-- A value that `isinstance(value, int)` accepts. -/
def asInt : Value → Option Int
  | .int n => some n
  | .bool b => some (if b then 1 else 0)
  | _ => none

def asStr : Value → Option String
  | .str s => some s
  | _ => none

/-- The `hlc` of a row: none, or three of the right types. -/
def asHlc : Value → Option (Option Hlc)
  | .null => some none
  | .arr [ms, counter, install] => do
      some (some ⟨← asInt ms, ← asInt counter, ← asStr install⟩)
  | _ => none

/-- The `after` of a row, which may be absent. -/
def asAfter (row : Dict) : Option (List String) :=
  if Dict.has row "after" then
    match Dict.get row "after" with
    | .arr items => items.mapM asStr
    | _ => none
  else some []

/-- `Fact.from_row(row)`, `none` where it raises. A row whose kind, writer,
time or id is no text counts as one it raises on. -/
def fromRow (row : Dict) : Option Fact :=
  match Dict.get row "data" with
  | .obj data =>
      if isVersion (Dict.get row "v") then do
        let hlc ← asHlc (Dict.get row "hlc")
        let after ← asAfter row
        let kind ← asStr (Dict.get row "kind")
        let by_ ← asStr (Dict.get row "by")
        let at_ ← asStr (Dict.get row "at")
        let id ← asStr (Dict.get row "id")
        some ⟨kind, by_, data, at_, id, version, hlc, after⟩
      else none
  | _ => none

/-- `Fact.from_row(renamed(json.loads(line)))`. -/
def lineFact (host : Host) (line : List Char) : Option Fact :=
  match host.loads line with
  | some (.obj row) => fromRow (renamed row)
  | _ => none

/-- The facts of the nonblank lines, `none` where one cannot be read. -/
def linesFacts (host : Host) (lines : List (List Char)) : Option (List Fact) :=
  (lines.filter fun line => strip line ≠ []).mapM (lineFact host)

def parseLines (host : Host) (raw : List UInt8) : Option (List Fact) :=
  (decode raw).bind fun text => linesFacts host (splitlines text)

/-- `raw[:raw.rfind(b"\n") + 1]`. -/
def complete (raw : List UInt8) : List UInt8 :=
  (raw.reverse.dropWhile (· ≠ 10)).reverse

/-- `read_file`, given the file's bytes. -/
def readFile (host : Host) (raw : List UInt8) : Option (List Fact) :=
  if raw = [] then some []
  else parseLines host (if raw.getLast? = some 10 then raw else complete raw)

/-- Nothing, or whole lines. -/
def Lines (raw : List UInt8) : Prop :=
  raw = [] ∨ ∃ first, raw = first ++ [10]

theorem complete_lines (raw : List UInt8) : Lines (complete raw) := by
  unfold complete
  cases h : raw.reverse.dropWhile (· ≠ 10) with
  | nil => exact .inl rfl
  | cons b rest =>
      have hHead : (raw.reverse.dropWhile (· ≠ 10)).head? = some b := by rw [h]; rfl
      have hNewline := List.head?_dropWhile_not (· ≠ (10 : UInt8)) raw.reverse
      rw [hHead] at hNewline
      have hb : b = 10 := by simpa using hNewline
      exact .inr ⟨rest.reverse, by simp [hb]⟩

theorem complete_append {a : List UInt8} (h : Lines a) (b : List UInt8) :
    complete (a ++ b) = a ++ complete b := by
  unfold complete
  rw [List.reverse_append, List.dropWhile_append]
  cases hb : b.reverse.dropWhile (· ≠ 10) with
  | nil =>
      rcases h with rfl | ⟨first, rfl⟩
      · simp
      · simp [List.dropWhile_cons]
  | cons c rest => simp

theorem complete_prefix (raw : List UInt8) : complete raw <+: raw := by
  rw [← List.reverse_suffix, complete, List.reverse_reverse]
  exact List.dropWhile_suffix _

theorem Lines.append {a b : List UInt8} (ha : Lines a) (hb : Lines b) : Lines (a ++ b) := by
  rcases hb with rfl | ⟨first, rfl⟩
  · simpa using ha
  · exact .inr ⟨a ++ first, by simp⟩

theorem linesFacts_append (host : Host) (a b : List (List Char)) :
    linesFacts host (a ++ b) =
      (linesFacts host a).bind fun x => (linesFacts host b).map (x ++ ·) := by
  unfold linesFacts
  rw [List.filter_append, List.mapM_append]
  cases (a.filter fun line => strip line ≠ []).mapM (lineFact host) with
  | none => rfl
  | some x => cases (b.filter fun line => strip line ≠ []).mapM (lineFact host) <;> rfl

theorem parseLines_append (host : Host) {a : List UInt8} (h : Lines a) (b : List UInt8) :
    parseLines host (a ++ b) =
      (parseLines host a).bind fun x => (parseLines host b).map (x ++ ·) := by
  rcases h with rfl | ⟨first, rfl⟩
  · have hNil : parseLines host [] = some [] := rfl
    rw [List.nil_append, hNil]
    cases parseLines host b <;> rfl
  · rw [List.append_assoc, List.singleton_append, parseLines, decode_newline]
    unfold parseLines
    cases ha : decode (first ++ [10]) with
    | none => rfl
    | some text =>
        obtain ⟨start, rfl⟩ := decode_ends ha
        cases decode b with
        | none => cases h : linesFacts host (splitlines (start ++ ['\n'])) <;> simp [h]
        | some rest =>
            simp only [Option.map_some, Option.bind_some, List.append_assoc, List.singleton_append]
            rw [splitlines_newline, linesFacts_append]

theorem readFile_eq (host : Host) (raw : List UInt8) :
    readFile host raw = parseLines host (complete raw) := by
  unfold readFile
  split
  · next h =>
      subst h
      rfl
  · split
    · next hLast =>
        rcases List.eq_nil_or_concat raw with rfl | ⟨first, b, rfl⟩
        · rfl
        · rw [List.concat_eq_append, List.getLast?_concat] at hLast
          obtain rfl := Option.some.inj hLast
          rw [List.concat_eq_append]
          have := complete_append (Or.inr ⟨first, rfl⟩ : Lines (first ++ [10])) []
          simp only [List.append_nil] at this
          rw [this]
          simp [complete]
    · rfl

end Brnrd.Ledger
