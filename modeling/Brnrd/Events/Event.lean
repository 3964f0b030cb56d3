import Brnrd.Events.Frontmatter

/-! Event files: what is written when an event is created, what is read back, and
the two rewrites in place. -/
namespace Brnrd.Events

open Python
open Port (partition)
open Readme (universal)

def keyStart (c : Char) : Bool :=
  asciiLetter c || c = '_'

def keyChar (c : Char) : Bool :=
  asciiLetter c || asciiDigit c || c = '_'

/-- A plain identifier. -/
def isIdentifier (key : Text) : Bool :=
  key.head?.any keyStart && key.all keyChar

/-- `_SAFE_KEY_RE.match`. Its `$` also matches in front of a newline that ends the
key. -/
def safeKey (key : Text) : Bool :=
  isIdentifier key || key.getLast? = some '\n' && isIdentifier key.dropLast

/-- `_RESERVED_META_KEYS`. -/
def reservedMetaKeys : List Text :=
  ["id", "source", "status", "created", "attachments"].map String.toList

/-- The parameters of `create_event`. A call that passes one of these by name has
no such meta key. -/
def parameters : List Text :=
  ["inbox_dir", "source", "body", "status", "attachment_files"].map String.toList

/-- A meta map: each key with its value as `str` prints it. -/
structure Meta where
  items : List (Text × Text)
  distinct : (items.map Prod.fst).Nodup

/-- The `ValueError`s of `_validate_meta`, and the `TypeError` of a parameter passed
twice. -/
inductive CreateError where
  | parameter (key : Text)
  | invalidKey (key : Text)
  | reservedKey (key : Text)
  | newline (key : Text)

def validateItem (item : Text × Text) : Except CreateError Unit :=
  if !safeKey item.1 then .error (.invalidKey item.1)
  else if item.1 ∈ reservedMetaKeys then .error (.reservedKey item.1)
  else if '\n' ∈ item.2 ∨ '\r' ∈ item.2 then .error (.newline item.1)
  else .ok ()

/-- `_validate_meta`. -/
def validateMeta (data : Meta) : Except CreateError Unit :=
  data.items.forM validateItem

/-- What the clock and the random source give: the nanoseconds and the four
characters of `_generate_id`, and the six numbers of the `created` stamp. -/
structure Now where
  nanos : Nat
  suffix : Fin 4 → Fin 36
  year : Nat
  month : Fin 13
  day : Fin 32
  hour : Fin 24
  minute : Fin 60
  second : Fin 62

def idAlphabet : Text := "abcdefghijklmnopqrstuvwxyz0123456789".toList

/-- A number, with zeros in front up to a width. -/
def padded (width n : Nat) : Text :=
  (Nat.toDigits 10 n).leftpad width '0'

/-- `_generate_id`. -/
def generateId (now : Now) : Text :=
  "evt-".toList ++ (Nat.toDigits 10 now.nanos ++ '-' :: List.ofFn fun i => idAlphabet.getD (now.suffix i).val 'a')

/-- `time.strftime('%Y-%m-%dT%H:%M:%SZ')`. -/
def createdStamp (now : Now) : Text :=
  padded 4 now.year ++ '-' :: (padded 2 now.month ++ '-' :: (padded 2 now.day ++ 'T' :: (padded 2 now.hour ++ ':' ::
    (padded 2 now.minute ++ ':' :: (padded 2 now.second ++ ['Z'])))))

/-- The arguments of a call of `create_event`. -/
structure Call where
  source : Text
  body : Text
  status : Text
  attachments : List Text
  data : Meta

/-- The bare names under which attachments are kept. -/
def attachmentNames (files : List Text) : List Text :=
  if 1 < files.length then files.zipIdx.map fun file => padded 2 file.2 ++ '-' :: file.1 else files

def fieldLine (field : Text × Text) : Text :=
  field.1 ++ ':' :: ' ' :: field.2

def idKey : Text := "id".toList
def sourceKey : Text := "source".toList
def statusKey : Text := "status".toList
def attachmentsKey : Text := "attachments".toList
def createdKey : Text := "created".toList

/-- The fields of the front matter of a new event. -/
def eventFields (now : Now) (call : Call) : List (Text × Text) :=
  [(idKey, generateId now), (sourceKey, call.source), (statusKey, call.status)] ++
    (call.data.items ++
      ((if call.attachments = [] then []
        else [(attachmentsKey, [','].intercalate (attachmentNames call.attachments))]) ++
      [(createdKey, createdStamp now)]))

/-- The text of an event file. -/
def eventText (lines : List Text) (body : Text) : Text :=
  joinLines (fence :: (lines ++ [fence, body])) ++ ['\n']

/-- `create_event`: the text it writes. -/
def createEvent (now : Now) (call : Call) : Except CreateError Text :=
  match call.data.items.find? fun item => item.1 ∈ parameters with
  | some item => .error (.parameter item.1)
  | none => do
      validateMeta call.data
      return eventText ((eventFields now call).map fieldLine) call.body

/-- An event as it is read: its fields but for `body` and `_path`, which the reader
sets itself. -/
structure Event where
  fields : Fields
  body : Text

def truthy : Entry → Bool
  | .none => false
  | .bool b => b
  | .int n => n != 0
  | .text value => value != []
  | .block fields => !fields.isEmpty

def readerKeys : List Text :=
  ["body", "_path"].map String.toList

/-- The fields and the body of a file with this text. -/
def contents (file : Text) : Event :=
  ⟨(parseFrontmatter (universal file)).filter fun item => item.1 ∉ readerKeys,
    strip (frontmatterBody (universal file))⟩

/-- `_read_event` of a file with this text. -/
def readEvent (file : Text) : Option Event :=
  if !truthy ((Entries.get idKey (parseFrontmatter (universal file))).getD .none) then none
  else some (contents file)

/-- `text.replace(old, new, 1)`. -/
def replaceFirst (old new text : Text) : Text :=
  match partition old text with
  | none => text
  | some (before, after) => before ++ new ++ after

/-- `str(entry)`, given what a dict prints as. -/
def Entry.str (repr : Fields → Text) : Entry → Text
  | .none => "None".toList
  | .bool b => if b then "True".toList else "False".toList
  | .int n => (toString n).toList
  | .text value => value
  | .block fields => repr fields

def statusText (value : Text) : Text :=
  "status: ".toList ++ value

/-- `set_status` on a file with this text. -/
def setStatus (repr : Fields → Text) (event : Event) (status : Text) (file : Text) : Text :=
  let old := ((Entries.get statusKey event.fields).getD (.text "pending".toList)).str repr
  replaceFirst (statusText old) (statusText status) (universal file)

/-- The keyword arguments of `update_event_meta`: each value as `_format_meta_value`
prints it, and nothing for a key that is removed. -/
structure Updates where
  items : List (Text × Option Text)
  distinct : (items.map Prod.fst).Nodup

/-- What becomes of one line of the front matter. -/
def rewriteLine (updates : List (Text × Option Text)) (line : Text) : Option Text :=
  let stripped := lstrip line
  if ':' ∉ stripped ∨ line.head? = some ' ' then some line
  else
    let key := strip (stripped.takeWhile (· ≠ ':'))
    match Entries.get key updates with
    | none => some line
    | some value => value.map fun value => fieldLine (key, value)

/-- The keys the loop over the lines has seen. -/
def seenKey (updates : List (Text × Option Text)) (line : Text) : Option Text :=
  let stripped := lstrip line
  if ':' ∉ stripped ∨ line.head? = some ' ' then none
  else
    let key := strip (stripped.takeWhile (· ≠ ':'))
    if (Entries.get key updates).isSome then some key else none

def isCreatedLine (line : Text) : Bool :=
  strip (line.takeWhile (· ≠ ':')) = createdKey

/-- The lines of the front matter after the update. -/
def rewriteLines (updates : List (Text × Option Text)) (lines : List Text) : List Text :=
  let seen := lines.filterMap (seenKey updates)
  let kept := lines.filterMap (rewriteLine updates)
  let additions := updates.filterMap fun item =>
    if item.1 ∈ seen then none else item.2.map fun value => fieldLine (item.1, value)
  kept.takeWhile (!isCreatedLine ·) ++ (additions ++ kept.dropWhile (!isCreatedLine ·))

/-- `update_event_meta` on a file with this text. -/
def updateEventMeta (updates : Updates) (file : Text) : Text :=
  let text := universal file
  match fenced text with
  | none => file
  | some (head, tail) =>
      let lines := rewriteLines updates.items (splitlines (head ++ ['\n']))
      let body := if tail.head? = some '\n' then tail.drop 1 else tail
      fence ++ '\n' :: (joinLines lines ++ '\n' :: (fence ++ '\n' :: body))

end Brnrd.Events

/-! Texts whose front matter stands at the margin: how they are read, and what the
two rewrites make of them. -/
namespace Brnrd.Events

open Python
open Readme (universal)

/-- The lines `splitlines` finds in the lines between the fences. -/
def pieces (lines : List Text) : List Text :=
  splitlines (joinLines lines ++ ['\n'])

/-- Front matter that ends where it should, and whose lines stand at the margin. -/
structure Margin (lines : List Text) : Prop where
  nonempty : lines ≠ []
  newline : ∀ line ∈ lines, '\n' ∉ line
  carriage : ∀ line ∈ lines, '\r' ∉ line
  dash : ∀ line ∈ lines, line.head? ≠ some '-'
  flat : ∀ piece ∈ pieces lines, Flat piece

/-- The text of a file with these lines between the fences. -/
def fileText (lines : List Text) (rest : Text) : Text :=
  fence ++ '\n' :: (joinLines lines ++ '\n' :: (fence ++ '\n' :: rest))

theorem universal_append {a : Text} (h : '\r' ∉ a) (b : Text) : universal (a ++ b) = a ++ universal b := by
  induction a with
  | nil => rfl
  | cons c a ih =>
      have hNot : c ≠ '\r' := fun hSame => h (List.mem_cons.mpr (.inl hSame.symm))
      have hRest := ih fun hMem => h (List.mem_cons_of_mem _ hMem)
      rw [List.cons_append, Readme.universal.eq_4 _ _ (fun _ hSame _ => hNot hSame) hNot, hRest]
      rfl

theorem universal_self {text : Text} (h : '\r' ∉ text) : universal text = text := by
  have hAppend := universal_append h []
  rwa [List.append_nil, universal, List.append_nil] at hAppend

theorem return_not_mem_universal (text : Text) : '\r' ∉ universal text := by
  induction text using Readme.universal.induct with
  | case1 => simp [universal]
  | case2 rest ih => simpa [universal] using ih
  | case3 rest hNot ih => simpa [Readme.universal.eq_3 _ hNot] using ih
  | case4 c rest hNot hNotReturn ih =>
      rw [Readme.universal.eq_4 _ _ hNot hNotReturn]
      simpa [Ne.symm hNotReturn] using ih

variable {lines : List Text}

theorem not_mem_joinLines {c : Char} (hc : c ≠ '\n') (h : ∀ line ∈ lines, c ∉ line) : c ∉ joinLines lines := by
  induction lines with
  | nil => simp
  | cons line lines ih =>
      have hLine := h line (by simp)
      cases lines with
      | nil => simpa using hLine
      | cons next lines =>
          have hRest := ih fun l hl => h l (List.mem_cons_of_mem _ hl)
          rw [joinLines_cons_cons]
          simp [hLine, hc, hRest]

theorem fileText_universal (h : ∀ line ∈ lines, '\r' ∉ line) (rest : Text) :
    universal (fileText lines rest) = fileText lines (universal rest) := by
  have hJoin := not_mem_joinLines (c := '\r') (by decide) h
  have hHead : '\r' ∉ fence ++ '\n' :: (joinLines lines ++ '\n' :: (fence ++ ['\n'])) := by
    simp only [List.mem_append, List.mem_cons, not_or]
    exact ⟨by decide, by decide, hJoin, by decide, by decide, by decide, by simp⟩
  have hSplit : ∀ rest, fileText lines rest =
      (fence ++ '\n' :: (joinLines lines ++ '\n' :: (fence ++ ['\n']))) ++ rest := by
    intro rest
    simp [fileText]
  rw [hSplit, universal_append hHead, ← hSplit]

theorem Margin.fenced (h : Margin lines) (rest : Text) :
    fenced (fileText lines rest) = some (joinLines lines, '\n' :: rest) :=
  fenced_lines h.nonempty h.newline h.dash _

theorem Margin.parseFrontmatter (h : Margin lines) (rest : Text) :
    parseFrontmatter (fileText lines rest) = (pieces lines).foldl readLine [] := by
  rw [Events.parseFrontmatter, h.fenced]
  exact parseFrom_flat h.flat (Nat.zero_le _) [] 0

theorem Margin.frontmatterBody (h : Margin lines) (rest : Text) : frontmatterBody (fileText lines rest) = rest := by
  rw [Events.frontmatterBody, h.fenced]
  rfl

/-- Each line is split on its own. -/
theorem pieces_eq_flatMap (hNew : lines ≠ []) : pieces lines = lines.flatMap fun line => splitlines (line ++ ['\n']) := by
  induction lines with
  | nil => exact absurd rfl hNew
  | cons line lines ih =>
      cases lines with
      | nil => simp [pieces]
      | cons next lines =>
          have hRest := ih (by simp)
          rw [pieces] at hRest ⊢
          rw [joinLines_cons_cons, List.append_assoc, List.cons_append, splitlines_newline, hRest]
          rfl

/-- Two files whose lines with a key are the same give it the same value. -/
theorem get_same {key : Text} {a b : List Text} (h : a.filter (keyed key) = b.filter (keyed key)) :
    Entries.get key (a.foldl readLine []) = Entries.get key (b.foldl readLine []) := by
  rw [get_readLines, get_readLines, h]

/-- The keys the reader sets itself are in no event's fields. -/
theorem get_contents (key file : Text) :
    Entries.get key (contents file).fields =
      if key ∈ readerKeys then none else Entries.get key (parseFrontmatter (universal file)) := by
  by_cases hKey : key ∈ readerKeys
  · rw [if_pos hKey]
    exact Entries.get_filter_of_neg fun item h => by simp [h, hKey]
  · rw [if_neg hKey]
    exact Entries.get_filter_of_pos fun item h => by simp [h, hKey]

end Brnrd.Events
