import Brnrd.Events.NoInjection

/-! The message store of one run: a directory of files, each with its name. Staging
writes a new file, and a transition rewrites one in place. -/
namespace Brnrd.Messages

open Python Events

/-- The files of the directory and their texts. -/
abbrev Dir := List (Text × Text)

def pending : Text := "pending".toList
def delivered : Text := "delivered".toList
def collected : Text := "collected".toList
def undeliverable : Text := "undeliverable".toList
def carried : Text := "carried".toList

/-- `_RECEIPTED`. -/
def receipted : List Text := [delivered, collected]

/-- `_TERMINAL`. -/
def terminal : List Text := receipted ++ [undeliverable, carried]

variable (repr : Fields → Text)

/-- `str(value or "")`. -/
def strOr (value : Entry) : Text :=
  if truthy value then value.str repr else []

/-- `_clean`. -/
def clean (value : Entry) : Text :=
  singleSpaced (strOr repr value)

/-- `value not in (None, "")`. -/
def shown : Entry → Bool
  | .none => false
  | .text value => value ≠ []
  | _ => true

/-- The fields of a file, each with its cleaned text. -/
def rendered (data : Fields) : List (Text × Text) :=
  (data.filter fun item => shown item.2).map fun item => (item.1, clean repr item.2)

/-- `_render`. -/
def render (data : Fields) (body : Text) : Text :=
  joinLines (fence :: ((rendered repr data).map fieldLine ++ [fence, [], strip body, []]))

/-- `read` of a file with this text. -/
def read (file : Text) : Option Event :=
  if !truthy ((Entries.get statusKey (contents file).fields).getD .none) then none else some (contents file)

/-- `list_messages`, each with its path. -/
def listMessages (dir : Dir) : List (Text × Event) :=
  (dir.insertionSort fun a b => a.1 ≤ b.1).filterMap fun file => (read file.2).map (file.1, ·)

def sourceRefKey : Text := "source_ref".toList

/-- `_existing_by_source`. -/
def existingBySource (dir : Dir) (sourceRef : Text) : Option Text :=
  if sourceRef = [] then none
  else
    ((listMessages dir).find? fun message =>
      (Entries.get sourceRefKey message.2.fields).any (·.eqText sourceRef)).map Prod.fst

/-- The arguments of `stage`. -/
structure Staging where
  runId : Text
  body : Text
  kind : Text
  targetEvent : Text
  targetGate : Text
  targetThread : Text
  sourceRef : Text
  status : Text
  reason : Text
  createdAt : Option Text
  topic : Text

/-- The number in front of a file's name, `none` where there is none. -/
def seqOf (name : Text) : Option Nat :=
  let first := name.takeWhile (· ≠ '-')
  if first ≠ [] ∧ first.all Char.isDigit then some (Nat.ofDigitChars 10 first 0) else none

def safeChar (c : Char) : Bool :=
  asciiLetter c || asciiDigit c || c = '_' || c = '.' || c = '-'

/-- `_SAFE.sub("-", text)`, from behind a character that is safe or is not. -/
def dashed (safe : Bool) : Text → Text
  | [] => []
  | c :: rest => if safeChar c then c :: dashed true rest else if safe then '-' :: dashed false rest else dashed false rest

/-- The kind as it stands in the name. -/
def safeKind (kind : Text) : Text :=
  let text := Readme.trim (fun c => c = '-' || c = '.') (dashed true kind)
  if text = [] then "message".toList else text

def messagePath (seq : Nat) (kind : Text) : Text :=
  padded 6 seq ++ '-' :: (safeKind kind ++ ".md".toList)

def nextSeq (dir : Dir) : Nat :=
  ((dir.filterMap fun file => seqOf file.1).max?.getD 0) + 1

def stagedMeta (now : Text) (call : Staging) : Fields :=
  [("direction".toList, .text "out".toList), (statusKey, .text call.status),
    ("created_at".toList, .text (call.createdAt.elim now fun at_ => if at_ = [] then now else at_)),
    ("kind".toList, .text (safeKind call.kind)), ("target_event".toList, .text call.targetEvent),
    ("target_gate".toList, .text call.targetGate), ("target_thread".toList, .text call.targetThread),
    (sourceRefKey, .text call.sourceRef), ("reason".toList, .text call.reason), ("topic".toList, .text call.topic)]

/-- Whether a call has anything to stage. -/
def Staging.asks (call : Staging) : Bool :=
  strip call.body ≠ [] && call.runId ≠ []

/-- `stage`: the path it returns, and the directory after it. -/
def stage (now : Text) (call : Staging) (dir : Dir) : Option Text × Dir :=
  if !call.asks then (none, dir)
  else
    match existingBySource dir call.sourceRef with
    | some path => (some path, dir)
    | none =>
        let path := messagePath (nextSeq dir) call.kind
        (some path, Entries.set path (render repr (stagedMeta now call) (strip call.body)) dir)

/-- The arguments of `transition`. -/
structure Closing where
  path : Text
  status : Text
  gate : Text
  platformMessageId : Entry
  reason : Text
  deliveredAt : Option Text

def reasonKey : Text := "reason".toList
def platformGateKey : Text := "platform_gate".toList
def platformMessageIdKey : Text := "platform_message_id".toList
def deliveredAtKey : Text := "delivered_at".toList

/-- The fields a closed message has. -/
def closedMeta (now : Text) (call : Closing) (data : Fields) : Fields :=
  let data := Entries.set statusKey (.text call.status) data
  if call.status ∈ receipted then
    Entries.set deliveredAtKey (.text (call.deliveredAt.elim now fun at_ => if at_ = [] then now else at_))
      (Entries.set platformMessageIdKey call.platformMessageId (Entries.set platformGateKey (.text call.gate) data))
  else
    Entries.set reasonKey (.text (if call.reason ≠ [] then call.reason
      else if call.status = undeliverable then "no configured gate owns this target".toList else [])) data

/-- The status of a message, as `transition` compares it. -/
def current (message : Event) : Text :=
  strOr repr ((Entries.get statusKey message.fields).getD .none)

/-- `transition`: what it returns, `none` where it raises, and the directory after it. -/
def transition (now : Text) (call : Closing) (dir : Dir) : Option Bool × Dir :=
  if call.status ∉ terminal then (none, dir)
  else
    match (Entries.get call.path dir).bind read with
    | none => (some false, dir)
    | some message =>
        if current repr message ∈ terminal then (some (current repr message = call.status), dir)
        else if current repr message ≠ pending then (some false, dir)
        else
          (some true, Entries.set call.path (render repr (closedMeta now call message.fields) message.body) dir)

/-- One call, at the time it is made. -/
inductive Op where
  | stage (now : Text) (call : Staging)
  | transition (now : Text) (call : Closing)

def step (dir : Dir) : Op → Dir
  | .stage now call => (stage repr now call dir).2
  | .transition now call => (transition repr now call dir).2

/-- The directory after a sequence of calls. -/
def run (ops : List Op) : Dir :=
  ops.foldl (step repr) []

end Brnrd.Messages

/-! What a message file gives back: the text that is rendered of a message stands at
the margin, and each of its fields is read on its own. -/
namespace Brnrd.Messages

open Python Events
open Port (wordsFrom)
open Joined (mem_intercalate)
open Readme (universal)

theorem wordsFrom_solid {text word : Text} (hWord : ∀ c ∈ word, isSpace c = false) :
    ∀ w ∈ wordsFrom word text, w ≠ [] ∧ ∀ c ∈ w, isSpace c = false := by
  induction text generalizing word with
  | nil =>
      intro w hw
      rw [wordsFrom] at hw
      split at hw
      · cases hw
      · rename_i hSome
        rw [List.mem_singleton.mp hw]
        exact ⟨hSome, hWord⟩
  | cons c text ih =>
      intro w hw
      rw [wordsFrom] at hw
      split at hw
      · split at hw
        · exact ih (by simp) w hw
        · rename_i hSome
          rcases List.mem_cons.mp hw with rfl | hw
          · exact ⟨hSome, hWord⟩
          · exact ih (by simp) w hw
      · rename_i hSolid
        refine ih (fun d hd => ?_) w hw
        rcases List.mem_append.mp hd with hd | hd
        · exact hWord d hd
        · rw [List.mem_singleton.mp hd]
          simpa using hSolid

theorem head_intercalate {sep first : Text} {parts : List Text} (hFirst : first ≠ []) :
    (sep.intercalate (first :: parts)).head? = first.head? := by
  cases parts with
  | nil => simp [List.intercalate]
  | cons next parts =>
      rw [List.intercalate_cons_cons, List.append_assoc, List.head?_append_of_ne_nil _ hFirst]

theorem last_intercalate {sep : Text} {parts : List Text} {last : Text} (hLast : last ≠ []) :
    (sep.intercalate (parts ++ [last])).getLast? = last.getLast? := by
  induction parts with
  | nil => simp [List.intercalate]
  | cons first parts ih =>
      obtain ⟨next, rest, hNext⟩ : ∃ next rest, parts ++ [last] = next :: rest :=
        List.exists_cons_of_ne_nil (by simp)
      have hSome : sep.intercalate (parts ++ [last]) ≠ [] := by
        intro hNil
        rw [hNil] at ih
        exact hLast (List.getLast?_eq_none_iff.mp ih.symm)
      rw [List.cons_append, hNext, List.intercalate_cons_cons, ← hNext, List.getLast?_append_of_ne_nil _ hSome, ih]

/-- A cleaned text is one line and has no white space at its ends. -/
theorem singleSpaced_clean (text : Text) : OneLine (singleSpaced text) ∧ strip (singleSpaced text) = singleSpaced text := by
  have hWords := @wordsFrom_solid text [] (by simp)
  constructor
  · intro c hc
    rcases mem_intercalate hc with hc | ⟨w, hw, hc⟩
    · rw [List.mem_singleton.mp hc]
      decide
    · cases hBreak : isLineBreak c with
      | false => rfl
      | true =>
          have hSolid := (hWords w hw).2 c hc
          rw [isSpace_of_isLineBreak hBreak] at hSolid
          cases hSolid
  · apply strip_eq_self
    · intro c hc
      cases hParts : wordsFrom [] text with
      | nil =>
          rw [singleSpaced, hParts] at hc
          cases hc
      | cons first parts =>
          rw [hParts] at hWords
          obtain ⟨hFirst, hSolid⟩ := hWords first (by simp)
          rw [singleSpaced, hParts, head_intercalate hFirst] at hc
          exact hSolid c (List.mem_of_head? hc)
    · intro c hc
      rcases List.eq_nil_or_concat (wordsFrom [] text) with hNil | ⟨parts, last, hParts⟩
      · rw [singleSpaced, hNil] at hc
        cases hc
      · rw [List.concat_eq_append] at hParts
        rw [hParts] at hWords
        obtain ⟨hLast, hSolid⟩ := hWords last (by simp)
        rw [singleSpaced, hParts, last_intercalate hLast] at hc
        exact hSolid c (List.mem_of_getLast? hc)

/-- The keys of the fields a message can have. -/
def messageKeys : List Text :=
  ["direction", "status", "created_at", "kind", "target_event", "target_gate", "target_thread", "source_ref",
    "reason", "topic", "platform_gate", "platform_message_id", "delivered_at"].map String.toList

/-- A message's fields, as they are given to the writer. -/
structure DataOk (data : Fields) : Prop where
  distinct : (data.map Prod.fst).Nodup
  keys : ∀ item ∈ data, item.1 ∈ messageKeys
  direction : ("direction".toList, .text "out".toList) ∈ data

variable (repr : Fields → Text)

/-- The text of a file with these fields. -/
def messageText (fields : List (Text × Text)) (body : Text) : Text :=
  joinLines (fence :: (fields.map fieldLine ++ [fence, [], body, []]))

theorem messageText_eq {fields : List (Text × Text)} (h : fields ≠ []) (body : Text) :
    messageText fields body = fileText (fields.map fieldLine) ('\n' :: (body ++ ['\n'])) := by
  have hNew : fields.map fieldLine ≠ [] := by simpa using h
  have hEnd : joinLines [fence, [], body, []] = fence ++ '\n' :: '\n' :: (body ++ ['\n']) := by simp
  have hLines : joinLines (fields.map fieldLine ++ [fence, [], body, []]) =
      joinLines (fields.map fieldLine) ++ '\n' :: (fence ++ '\n' :: '\n' :: (body ++ ['\n'])) := by
    rw [joinLines_append hNew (by simp), hEnd]
  obtain ⟨first, rest, hCons⟩ :=
    List.exists_cons_of_ne_nil (List.append_ne_nil_of_left_ne_nil hNew [fence, [], body, []])
  rw [messageText, hCons, joinLines_cons_cons, ← hCons, hLines]
  rfl

/-- The fields of a message file: each one line, under a key of the store. -/
structure FieldsOk (fields : List (Text × Text)) : Prop where
  nonempty : fields ≠ []
  distinct : (fields.map Prod.fst).Nodup
  keys : ∀ field ∈ fields, field.1 ∈ messageKeys
  values : ∀ field ∈ fields, OneLine field.2 ∧ strip field.2 = field.2

theorem messageKeys_names : ∀ key ∈ messageKeys, isIdentifier key = true ∧ key ∉ readerKeys := by
  decide +kernel

theorem FieldsOk.tidy {fields : List (Text × Text)} (h : FieldsOk fields) : Tidy fields where
  nonempty := h.nonempty
  distinct := h.distinct
  names := fun field hField => name_of_identifier (messageKeys_names _ (h.keys field hField)).1
  inLine := by
    intro field hField
    have hOne := (h.values field hField).1
    refine ⟨hOne.newline, fun hMem => ?_⟩
    have hBreak := hOne '\r' hMem
    revert hBreak
    decide
  values := fun field hField => oneLine_rstrip (h.values field hField).1

/-- What a message file is read as. -/
theorem contents_messageText {fields : List (Text × Text)} (h : FieldsOk fields) (body : Text) :
    contents (messageText fields body) =
      ⟨fields.map fun field => (field.1, readValue field.2), strip (universal (body ++ ['\n']))⟩ := by
  have hAll : ∀ item ∈ fields.map (fun field => (field.1, readValue (strip field.2))), item.1 ∉ readerKeys := by
    intro item hItem
    obtain ⟨field, hField, rfl⟩ := List.mem_map.mp hItem
    exact (messageKeys_names _ (h.keys field hField)).2
  have hFilter : (fields.map fun field => (field.1, readValue (strip field.2))).filter
      (fun item => item.1 ∉ readerKeys) = fields.map fun field => (field.1, readValue (strip field.2)) := by
    rw [List.filter_eq_self]
    exact fun item hItem => decide_eq_true (hAll item hItem)
  have hMap : (fields.map fun field => (field.1, readValue (strip field.2))) =
      fields.map fun field => (field.1, readValue field.2) :=
    List.map_congr_left fun field hField => by rw [(h.values field hField).2]
  have hBody : strip (universal ('\n' :: (body ++ ['\n']))) = strip (universal (body ++ ['\n'])) := by
    rw [Readme.universal.eq_4 _ _ (by simp) (by decide), strip_cons (by decide)]
  rw [messageText_eq h.nonempty, h.tidy.margin.contents, h.tidy.foldl, hFilter, hMap, hBody]

theorem render_eq (data : Fields) (body : Text) : render repr data body = messageText (rendered repr data) (strip body) :=
  rfl

variable {data : Fields}

/-- What is rendered of a message is one line a field. -/
theorem DataOk.fields (h : DataOk data) : FieldsOk (rendered repr data) where
  nonempty := by
    have hMem : ("direction".toList, clean repr (.text "out".toList)) ∈ rendered repr data := by
      refine List.mem_map.mpr ⟨_, List.mem_filter.mpr ⟨h.direction, ?_⟩, rfl⟩
      decide
    exact List.ne_nil_of_mem hMem
  distinct := by
    have hSublist : ((data.filter fun item => shown item.2).map Prod.fst).Sublist (data.map Prod.fst) :=
      (List.filter_sublist).map _
    rw [rendered, List.map_map]
    exact h.distinct.sublist hSublist
  keys := by
    intro field hField
    obtain ⟨item, hItem, rfl⟩ := List.mem_map.mp hField
    exact h.keys item (List.mem_of_mem_filter hItem)
  values := by
    intro field hField
    obtain ⟨item, -, rfl⟩ := List.mem_map.mp hField
    exact singleSpaced_clean _

/-- What an entry is read as when it is written again. -/
def reread (value : Entry) : Entry :=
  readValue (clean repr value)

theorem get_shown (hDistinct : (data.map Prod.fst).Nodup) (key : Text) :
    Entries.get key (data.filter fun item => shown item.2) = (Entries.get key data).filter shown := by
  induction data with
  | nil => rfl
  | cons item data ih =>
      rw [List.map_cons, List.nodup_cons] at hDistinct
      by_cases hKey : item.1 = key
      · have hAbsent : Entries.get key (data.filter fun item => shown item.2) = none := by
          rw [Entries.get_eq_none]
          intro hMem
          refine hDistinct.1 (hKey ▸ ?_)
          exact ((List.filter_sublist).map Prod.fst).subset hMem
        have hHere : Entries.get key (item :: data) = some item.2 := by rw [Entries.get, if_pos hKey]
        rw [hHere, List.filter_cons]
        split
        · rename_i hShown
          rw [Entries.get, if_pos hKey, Option.filter_some_pos hShown]
        · rename_i hShown
          rw [hAbsent, Option.filter_some_neg (by simpa using hShown)]
      · have hLater : Entries.get key (item :: data) = Entries.get key data := by rw [Entries.get, if_neg hKey]
        rw [hLater, ← ih hDistinct.2, List.filter_cons]
        split
        · rw [Entries.get, if_neg hKey]
        · rfl

/-- A field of a rendered message is read as its value is when it is written. -/
theorem get_render (h : DataOk data) (body key : Text) :
    Entries.get key (contents (render repr data body)).fields =
      ((Entries.get key data).filter shown).map (reread repr) := by
  have hRead := Entries.get_map (fun _ value => readValue value) key (rendered repr data)
  have hClean := Entries.get_map (fun _ value => clean repr value) key (data.filter fun item => shown item.2)
  rw [render_eq, contents_messageText (h.fields repr), hRead]
  rw [rendered, hClean, get_shown h.distinct, Option.map_map]
  rfl

theorem contents_body_render (h : DataOk data) (body : Text) :
    (contents (render repr data body)).body = strip (universal (strip body ++ ['\n'])) := by
  rw [render_eq, contents_messageText (h.fields repr)]

/-- A body that was read is read again as it is. -/
theorem body_render {data' : Fields} (h : DataOk data) (h' : DataOk data') (body : Text) :
    (contents (render repr data' (contents (render repr data body)).body)).body =
      (contents (render repr data body)).body := by
  rw [contents_body_render repr h', contents_body_render repr h, strip_strip]
  generalize hRead : universal (strip body ++ ['\n']) = text
  have hReturn : '\r' ∉ strip (strip text) := by
    rw [strip_strip, ← hRead]
    exact fun hMem => return_not_mem_universal _ (strip_subset _ hMem)
  rw [body_reads.mpr hReturn, strip_strip]

/-- What is read of a rendered message can be rendered again. -/
theorem DataOk.contents (h : DataOk data) (body : Text) : DataOk (contents (render repr data body)).fields := by
  have hFields := h.fields repr
  have hRead : (Events.contents (render repr data body)).fields =
      (rendered repr data).map fun field => (field.1, readValue field.2) := by
    rw [render_eq, contents_messageText hFields]
  rw [hRead]
  refine ⟨?_, fun item hItem => ?_, ?_⟩
  · rw [List.map_map]
    exact hFields.distinct
  · obtain ⟨field, hField, rfl⟩ := List.mem_map.mp hItem
    exact hFields.keys field hField
  · refine List.mem_map.mpr ⟨("direction".toList, clean repr (.text "out".toList)), ?_, ?_⟩
    · refine List.mem_map.mpr ⟨_, List.mem_filter.mpr ⟨h.direction, ?_⟩, rfl⟩
      decide
    · have hClean : clean repr (.text "out".toList) = "out".toList := rfl
      rw [hClean]
      rfl

end Brnrd.Messages
