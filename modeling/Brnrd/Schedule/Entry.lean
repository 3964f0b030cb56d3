import Brnrd.Events.Frontmatter

/-! The schedule file and the entries it is read as: one for each heading with a
trigger. Times are exact. -/
namespace Brnrd.Schedule

open Python
open Events (Text lstrip)

/-- What the reader takes from its runtime. -/
structure Calls where
  /-- `str.lower`. -/
  lower : Text → Text
  /-- The value of a decimal digit. -/
  digit : Char → Option ℕ
  /-- The POSIX time of what `datetime.fromisoformat` reads, in UTC where it names
  no zone. -/
  fromIso : Text → Option ℚ

inductive Kind where
  | atTime
  | every
deriving DecidableEq

/-- `ScheduleEntry`. -/
structure ScheduleEntry where
  id : Text
  kind : Kind
  body : Text
  atTime : Option ℚ
  interval : Option ℚ
  rawWhen : Text
  heading : Text
  conversationKey : Option Text
  resetOn : Option Text
  premise : Option Text
  serves : List Text
  shell : Option Text
  core : Option Text
  runner : Option Text
deriving DecidableEq

variable (calls : Calls)

/-- `_UNIT_SECONDS`. -/
def unitSeconds (c : Char) : Option ℕ :=
  match c.toLower with
  | 's' => some 1
  | 'm' => some 60
  | 'h' => some 3600
  | 'd' => some 86400
  | _ => none

/-- Where the reader of a duration stands: between two tokens, in the digits of
one, or between its digits and its unit. -/
inductive Token where
  | between (matched : Bool)
  | digits (amount : ℕ)
  | gap (amount : ℕ)

/-- The sum of the tokens of a text that is nothing but tokens and white space. -/
def durationFrom : Token → ℕ → Text → Option ℕ
  | .between matched, total, [] => if matched then some total else none
  | .digits _, _, [] => none
  | .gap _, _, [] => none
  | .between matched, total, c :: rest =>
      match calls.digit c with
      | some d => durationFrom (.digits d) total rest
      | none => if isSpace c then durationFrom (.between matched) total rest else none
  | .digits amount, total, c :: rest =>
      match calls.digit c, unitSeconds c with
      | some d, _ => durationFrom (.digits (10 * amount + d)) total rest
      | none, some seconds => durationFrom (.between true) (total + amount * seconds) rest
      | none, none => if isSpace c then durationFrom (.gap amount) total rest else none
  | .gap amount, total, c :: rest =>
      match unitSeconds c with
      | some seconds => durationFrom (.between true) (total + amount * seconds) rest
      | none => if isSpace c then durationFrom (.gap amount) total rest else none

/-- `parse_duration`. -/
def parseDuration (text : Text) : Option ℚ :=
  (durationFrom calls (.between false) 0 text).map (↑)

/-- `parse_iso`. -/
def parseIso (text : Text) : Option ℚ :=
  if text = [] then none
  else
    let candidate := strip text
    calls.fromIso (if candidate.getLast?.any ['Z', 'z'].contains then candidate.dropLast ++ "+00:00".toList
      else candidate)

def slugChar (c : Char) : Bool :=
  'a' ≤ c && c ≤ 'z' || asciiDigit c

/-- `_SLUG_RE.sub("-", text)`: whether the character before was one that is left
out. -/
def dashed : Bool → Text → Text
  | _, [] => []
  | within, c :: rest =>
      if slugChar c then c :: dashed false rest
      else if within then dashed true rest
      else '-' :: dashed true rest

/-- `_slug`. -/
def slug (title : Text) : Text :=
  ((dashed false (calls.lower (strip title))).dropWhile (· = '-')).rdropWhile (· = '-')

/-- The pieces of a text between the characters that part it. -/
def splitAny (parts : Char → Bool) : Text → List Text
  | [] => [[]]
  | c :: rest => if parts c then [] :: splitAny parts rest else (splitAny parts rest).modifyHead (c :: ·)

def callSignChar (c : Char) : Bool :=
  slugChar c || ['.', '_', '-'].contains c

/-- `_CALL_SIGN_RE.fullmatch`. -/
def isCallSign (text : Text) : Bool :=
  text.head?.any slugChar && text.all callSignChar && text.length ≤ 64

/-- `parse_serves`. -/
def parseServes (text : Option Text) : List Text :=
  let tokens := (splitAny (fun c => c = ',' || isSpace c) (strip (text.getD []))).filter (· ≠ [])
  tokens.foldl (fun out token =>
    let callSign := calls.lower (strip (token.takeWhile (· ≠ '#')))
    if isCallSign callSign ∧ callSign ∉ out then out ++ [callSign] else out) []

/-- The keys of `_FIELD_RE`. -/
def fieldKeys : List Text :=
  ["at", "every", "conversation_key", "reset_on", "premise", "serves", "shell", "core", "runner"].map String.toList

/-- The small letter that `re.IGNORECASE` takes a character for. -/
def ignoreCase (c : Char) : Char :=
  if c.toNat = 0x17f then 's'
  else if c.toNat = 0x212a then 'k'
  else if c.toNat = 0x130 ∨ c.toNat = 0x131 then 'i'
  else c.toLower

/-- The line as a row of one key, and the value of the row. -/
def rowOf (line key : Text) : Option (Text × Text) :=
  let line := lstrip line
  let found := line.take key.length
  match lstrip (line.drop key.length) with
  | ':' :: value => if found.map ignoreCase = key ∧ value ≠ [] then some (calls.lower found, strip value) else none
  | _ => none

/-- `_FIELD_RE.match`. -/
def fieldRow (line : Text) : Option (Text × Text) :=
  fieldKeys.findSome? (rowOf calls line)

/-- `(fields.get(key) or "").strip() or None`. -/
def given (fields : List (Text × Text)) (key : String) : Option Text :=
  ((Entries.get key.toList fields).map strip).filter (· ≠ [])

/-- The entry under a heading, once its trigger has been read. -/
def entryOf (title : Text) (fields : List (Text × Text)) (bodyLines : List Text) (kind : Kind)
    (atTime interval : Option ℚ) (rawWhen : Text) (resetOn : Option Text) : ScheduleEntry where
  id := slug calls title
  kind := kind
  body := strip (['\n'].intercalate bodyLines)
  atTime := atTime
  interval := interval
  rawWhen := rawWhen
  heading := title
  conversationKey := given fields "conversation_key"
  resetOn := resetOn
  premise := given fields "premise"
  serves := parseServes calls (Entries.get "serves".toList fields)
  shell := given fields "shell"
  core := given fields "core"
  runner := given fields "runner"

/-- `_build_entry`. -/
def buildEntry (title : Text) (fields : List (Text × Text)) (bodyLines : List Text) : Option ScheduleEntry :=
  if slug calls title = [] then none
  else
    match Entries.get "every".toList fields, Entries.get "at".toList fields with
    | some every, _ =>
        match parseDuration calls every with
        | some interval =>
            if 0 < interval then
              some (entryOf calls title fields bodyLines .every none (some interval) every (given fields "reset_on"))
            else none
        | none => none
    | none, some at_ =>
        (parseIso calls at_).map fun time => entryOf calls title fields bodyLines .atTime (some time) none at_ none
    | none, none => none

/-- What has been read of a schedule: the entries behind, and the heading, the rows
and the prose of the one it stands in. -/
structure Reading where
  entries : List ScheduleEntry := []
  title : Option Text := none
  fields : List (Text × Text) := []
  bodyLines : List Text := []

/-- `_flush`. -/
def Reading.flush (reading : Reading) : List ScheduleEntry :=
  match reading.title with
  | none => reading.entries
  | some title => reading.entries ++ (buildEntry calls title reading.fields reading.bodyLines).toList

def Reading.next (reading : Reading) (line : Text) : Reading :=
  if "## ".toList.isPrefixOf line then
    { entries := reading.flush calls, title := some (strip (line.drop 3)) }
  else if reading.title = none then reading
  else
    match fieldRow calls line with
    | some (key, value) => { reading with fields := Entries.set key value reading.fields }
    | none => { reading with bodyLines := reading.bodyLines ++ [line] }

/-- `parse_schedule_text`. -/
def parseScheduleText (text : Text) : List ScheduleEntry :=
  ((splitlines text).foldl (Reading.next calls) {}).flush calls

/-- What an entry has by its kind. -/
structure ScheduleEntry.WellFormed (entry : ScheduleEntry) : Prop where
  named : entry.id ≠ []
  timed : entry.kind = .atTime → entry.atTime.isSome = true ∧ entry.resetOn = none
  spaced : entry.kind = .every → ∃ interval, entry.interval = some interval ∧ 0 < interval

variable {calls}

theorem buildEntry_wellFormed {title : Text} {fields : List (Text × Text)} {bodyLines : List Text}
    {entry : ScheduleEntry} (h : buildEntry calls title fields bodyLines = some entry) : entry.WellFormed := by
  unfold buildEntry at h
  split at h
  · cases h
  · rename_i hNamed
    split at h
    · split at h
      · split at h
        · rename_i hPositive
          obtain rfl := Option.some.inj h
          exact ⟨hNamed, by rintro ⟨⟩, fun _ => ⟨_, rfl, hPositive⟩⟩
        · cases h
      · cases h
    · obtain ⟨time, -, rfl⟩ := Option.map_eq_some_iff.mp h
      exact ⟨hNamed, fun _ => ⟨rfl, rfl⟩, by rintro ⟨⟩⟩
    · cases h

theorem flush_wellFormed {reading : Reading} (h : ∀ entry ∈ reading.entries, entry.WellFormed) :
    ∀ entry ∈ reading.flush calls, entry.WellFormed := by
  intro entry hEntry
  unfold Reading.flush at hEntry
  split at hEntry
  · exact h entry hEntry
  · rcases List.mem_append.mp hEntry with hEntry | hEntry
    · exact h entry hEntry
    · exact buildEntry_wellFormed (Option.mem_toList.mp hEntry)

/-- Every entry of a schedule has what its kind asks for, whatever the text. -/
theorem parseScheduleText_wellFormed (text : Text) : ∀ entry ∈ parseScheduleText calls text, entry.WellFormed := by
  have hRead : ∀ (lines : List Text) (reading : Reading), (∀ entry ∈ reading.entries, entry.WellFormed) →
      ∀ entry ∈ (lines.foldl (Reading.next calls) reading).entries, entry.WellFormed := by
    intro lines
    induction lines with
    | nil => exact fun _ h => h
    | cons line lines ih =>
        intro reading h
        refine ih _ ?_
        unfold Reading.next
        split
        · exact flush_wellFormed h
        · split
          · exact h
          · split
            · exact h
            · exact h
  exact flush_wellFormed (hRead _ _ (by simp))

end Brnrd.Schedule
