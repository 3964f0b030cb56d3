import Brnrd.Events.Recovered

/-! A new event file reads back as it was written, and no value in it forges a field,
exactly where the call is faithful. -/
namespace Brnrd.Events

open Python
open Readme (universal)

/-- No field of a new event is forged: the file gives its fields and its body, and the
two rewrites change the fields they name. -/
structure NoInjection (now : Now) (call : Call) (file : Text) : Prop where
  fields : ∃ event, readEvent file = some event ∧ event.body = strip call.body ∧
    ∀ key, Entries.get key event.fields =
      Entries.get key ((eventFields now call).map fun field => (field.1, asWritten field.1 field.2))
  setStatus : ∀ event, readEvent file = some event → ∀ repr status, OneLine status →
    Keeps [statusKey] event (contents (setStatus repr event status file))
  updateEventMeta : ∀ event, readEvent file = some event → ∀ updates, Plain updates →
    Keeps (updates.items.map Prod.fst) event (contents (updateEventMeta updates file))

variable {now : Now} {call : Call} {file : Text}

/-- The body of a new event is read behind its fences, whatever its values are. -/
theorem contents_body (hOk : CallOk call) (hFile : createEvent now call = .ok file)
    (hKeys : ∀ item ∈ call.data.items, item.1.getLast? ≠ some '\n') :
    (contents file).body = strip (universal (call.body ++ ['\n'])) ∧
      parseFrontmatter (universal file) = (parseBlock (pieces ((eventFields now call).map fieldLine)) 0).1 := by
  obtain ⟨rfl, hItems⟩ := createEvent_ok hFile
  have hNew := eventFields_ne_nil now call
  have hNames := eventFields_names now fun item hItem => ⟨(hItems item hItem).2.1, hKeys item hItem⟩
  have hInLine := eventFields_inLine now hOk fun item hItem => (hItems item hItem).2.2.2
  have hLines : ∀ line ∈ (eventFields now call).map fieldLine, '\n' ∉ line ∧ '\r' ∉ line ∧ line.head? ≠ some '-' := by
    intro line hLine
    obtain ⟨field, hField, rfl⟩ := List.mem_map.mp hLine
    obtain ⟨hNewline, hReturn⟩ := fieldLine_chars (hNames field hField) (hInLine field hField)
    exact ⟨hNewline, hReturn, fieldLine_dash (hNames field hField)⟩
  have hText := fileText_universal (fun line hLine => (hLines line hLine).2.1) (call.body ++ ['\n'])
  have hFenced := fenced_lines hNew (fun line hLine => (hLines line hLine).1) (fun line hLine => (hLines line hLine).2.2)
    ('\n' :: universal (call.body ++ ['\n']))
  rw [contents, eventText_eq hNew, hText, frontmatterBody, parseFrontmatter, fileText, hFenced]
  exact ⟨rfl, rfl⟩

theorem strip_key_of_mem {text : Text} : ∀ item ∈ parseFrontmatter text, ∃ key, item.1 = strip key := by
  intro item hItem
  rw [parseFrontmatter] at hItem
  split at hItem
  · cases hItem
  · rename_i head tail hFenced
    have hOne : ∀ line ∈ splitlines (head ++ ['\n']), OneLine line := by
      have hPieces : pieces [head] = splitlines (head ++ ['\n']) := by rw [pieces, joinLines_singleton]
      exact fun line hLine => pieces_oneLine (hPieces ▸ hLine)
    rcases parseFrom_came hOne 0 0 [] 0 item hItem with h | h
    · cases h
    · exact h.1

/-- What is asked of each field of a new event. -/
def Recovers (now : Now) (call : Call) (event : Event) : Prop :=
  ∀ key, Entries.get key event.fields =
    Entries.get key ((eventFields now call).map fun field => (field.1, asWritten field.1 field.2))

theorem Recovers.field {event : Event} (h : Recovers now call event)
    (hReserved : ∀ item ∈ call.data.items, item.1 ∉ reservedMetaKeys) {field : Text × Text}
    (hField : field ∈ eventFields now call) :
    Entries.get field.1 event.fields = some (asWritten field.1 field.2) := by
  have hGet := (Entries.get_eq_some (eventFields_distinct now hReserved)).mpr hField
  rw [h field.1, Entries.get_map asWritten, hGet]
  rfl

/-- A key that is read back is a name, and not one the reader sets itself. -/
theorem keys_of_recovers (hFile : createEvent now call = .ok file) (h : Recovers now call (contents file)) :
    ∀ item ∈ call.data.items, item.1.getLast? ≠ some '\n' ∧ item.1 ∉ readerKeys := by
  obtain ⟨-, hItems⟩ := createEvent_ok hFile
  intro item hItem
  have hGet := h.field (fun i hi => (hItems i hi).2.2.1) (mem_eventFields.mpr (.inr (.inr (.inr (.inl hItem)))))
  rw [get_contents] at hGet
  split at hGet
  · cases hGet
  · rename_i hReader
    obtain ⟨key, hKey⟩ := strip_key_of_mem _ (Entries.mem_of_get hGet)
    refine ⟨fun hLast => ?_, hReader⟩
    have hName : item.1 = strip key := hKey
    rw [hName] at hLast
    have hSolid := last_of_strip hLast
    revert hSolid
    decide

/-- Where every field is read back as it is to be, each stands on its own line. -/
theorem tidy_of_recovers (hOk : CallOk call) (hFile : createEvent now call = .ok file)
    (h : Recovers now call (contents file)) : Tidy (eventFields now call) := by
  obtain ⟨-, hItems⟩ := createEvent_ok hFile
  have hKeys := keys_of_recovers hFile h
  have hReserved := fun item hItem => (hItems item hItem).2.2.1
  have hNames := eventFields_names now fun item hItem => ⟨(hItems item hItem).2.1, (hKeys item hItem).1⟩
  have hInLine := eventFields_inLine now hOk fun item hItem => (hItems item hItem).2.2.2
  have hDistinct := eventFields_distinct now hReserved
  have hParse := (contents_body hOk hFile fun item hItem => (hKeys item hItem).1).2
  have hOne : ∀ piece ∈ pieces ((eventFields now call).map fieldLine), OneLine piece := fun _ hp => pieces_oneLine hp
  have hCame : ∀ field ∈ eventFields now call,
      Came (pieces ((eventFields now call).map fieldLine)) (field.1, asWritten field.1 field.2) := by
    intro field hField
    have hGet := h.field hReserved hField
    rw [get_contents, hParse] at hGet
    split at hGet
    · cases hGet
    · rcases parseFrom_came hOne 0 0 [] 0 _ (Entries.mem_of_get hGet) with hNil | hCame
      · cases hNil
      · exact hCame
  have hOwn : ∀ field ∈ eventFields now call, field.1 ∈ ownKeys → OneLine field.2 := by
    intro field hField hKey
    rcases mem_eventFields.mp hField with rfl | rfl | rfl | hMeta | ⟨-, rfl⟩ | rfl
    · exact (generateId_token now).oneLine
    · exact hOk.source.oneLine
    · exact hOk.status.oneLine
    · have hAll : ∀ key ∈ ownKeys, key ∈ reservedMetaKeys := by decide +kernel
      exact absurd (hAll _ hKey) (hReserved field hMeta)
    · have hNot : attachmentsKey ∉ ownKeys := by decide +kernel
      exact absurd hKey hNot
    · exact (createdStamp_token now).oneLine
  have hValues : ∀ field ∈ eventFields now call, OneLine field.2 ∨
      ∃ n, parseInt (String.ofList field.2) = some n ∧ asWritten field.1 field.2 = .int n := by
    intro field hField
    by_cases hKey : field.1 ∈ ownKeys
    · exact .inl (hOwn field hField hKey)
    · have hHere := hCame field hField
      rw [asWritten, if_neg hKey] at hHere ⊢
      exact oneLine_of_came hOne (hInLine field hField).1 hHere
  have hSome : eventFields now call ≠ [] := by simp [eventFields]
  refine ⟨hSome, hDistinct, hNames, hInLine, fun field hField => ?_⟩
  rcases hValues field hField with hLine | ⟨n, hInt, hRead⟩
  · exact oneLine_rstrip hLine
  · have hHere := hCame field hField
    rw [hRead] at hHere
    exact tidy_of_came hSome hNames hDistinct
      (fun other hOther => (hValues other hOther).imp_right (Exists.imp fun _ => And.left)) hField hInt hHere

/-- Each field of a tidy call is read as its value is. -/
theorem get_contents_tidy (hOk : CallOk call) (hFile : createEvent now call = .ok file)
    (hKeys : ∀ item ∈ call.data.items, item.1.getLast? ≠ some '\n') (hTidy : Tidy (eventFields now call)) (key : Text) :
    Entries.get key (contents file).fields =
      if key ∈ readerKeys then none
      else (Entries.get key (eventFields now call)).map fun value => readValue (strip value) := by
  have hFlat := parseFrom_flat hTidy.margin.flat (Nat.zero_le _) [] 0
  rw [get_contents, (contents_body hOk hFile hKeys).2, parseBlock, hFlat, hTidy.get]

theorem faithful_of_recovers (hOk : CallOk call) (hFile : createEvent now call = .ok file)
    (h : Recovers now call (contents file)) (hBody : (contents file).body = strip call.body) : Faithful call := by
  obtain ⟨-, hItems⟩ := createEvent_ok hFile
  have hKeys := keys_of_recovers hFile h
  have hReserved := fun item hItem => (hItems item hItem).2.2.1
  have hTidy := tidy_of_recovers hOk hFile h
  have hFields : ∀ field ∈ eventFields now call,
      OneLine (rstrip field.2) ∧ readValue (strip field.2) = asWritten field.1 field.2 := by
    intro field hField
    refine ⟨hTidy.values field hField, ?_⟩
    have hGet := h.field hReserved hField
    rw [get_contents_tidy hOk hFile (fun item hItem => (hKeys item hItem).1) hTidy,
      (Entries.get_eq_some hTidy.distinct).mpr hField] at hGet
    split at hGet
    · cases hGet
    · exact Option.some.inj hGet
  obtain ⟨hSource, hStatus, hValues, hAttachments⟩ := (faithful_fields now hOk hReserved).mp hFields
  refine ⟨hSource, hStatus, hKeys, hValues, hAttachments, ?_⟩
  rw [(contents_body hOk hFile fun item hItem => (hKeys item hItem).1).1] at hBody
  exact body_reads.mp hBody

theorem tidy_of_faithful (hOk : CallOk call) (hFile : createEvent now call = .ok file) (h : Faithful call) :
    Tidy (eventFields now call) ∧ ∀ field ∈ eventFields now call, readValue (strip field.2) = asWritten field.1 field.2 := by
  obtain ⟨-, hItems⟩ := createEvent_ok hFile
  have hReserved := fun item hItem => (hItems item hItem).2.2.1
  have hFields := (faithful_fields now hOk hReserved).mpr ⟨h.source, h.status, h.values, h.attachments⟩
  exact ⟨⟨by simp [eventFields], eventFields_distinct now hReserved,
    eventFields_names now fun item hItem => ⟨(hItems item hItem).2.1, (h.keys item hItem).1⟩,
    eventFields_inLine now hOk fun item hItem => (hItems item hItem).2.2.2,
    fun field hField => (hFields field hField).1⟩, fun field hField => (hFields field hField).2⟩

theorem recovers_of_faithful (hOk : CallOk call) (hFile : createEvent now call = .ok file) (h : Faithful call) :
    Recovers now call (contents file) := by
  obtain ⟨hTidy, hRead⟩ := tidy_of_faithful hOk hFile h
  intro key
  rw [get_contents_tidy hOk hFile (fun item hItem => (h.keys item hItem).1) hTidy, Entries.get_map asWritten]
  cases hGet : Entries.get key (eventFields now call) with
  | none =>
      split
      · rfl
      · rfl
  | some value =>
      have hField := Entries.mem_of_get hGet
      have hOther : key ∉ readerKeys := by
        have hAll : ∀ name ∈ [idKey, sourceKey, statusKey, attachmentsKey, createdKey], name ∉ readerKeys := by
          decide +kernel
        rcases mem_eventFields.mp hField with hSame | hSame | hSame | hMeta | ⟨-, hSame⟩ | hSame
        · exact hAll key (by simp [(Prod.mk.inj hSame).1])
        · exact hAll key (by simp [(Prod.mk.inj hSame).1])
        · exact hAll key (by simp [(Prod.mk.inj hSame).1])
        · exact (h.keys _ hMeta).2
        · exact hAll key (by simp [(Prod.mk.inj hSame).1])
        · exact hAll key (by simp [(Prod.mk.inj hSame).1])
      rw [if_neg hOther, Option.map_some, Option.map_some, hRead _ hField]

/-- A status written in the place of another changes no other field. -/
theorem setStatus_keeps (hOk : CallOk call) (hFile : createEvent now call = .ok file) (h : Faithful call)
    (repr : Fields → Text) {status : Text} (hStatus : OneLine status) :
    Keeps [statusKey] (contents file) (contents (setStatus repr (contents file) status file)) := by
  obtain ⟨hTidy, -⟩ := tidy_of_faithful hOk hFile h
  have hMargin := hTidy.margin
  have hReserved := fun item hItem => ((createEvent_ok hFile).2 item hItem).2.2.1
  have hOld : Entries.get statusKey (contents file).fields = some (.text call.status) := by
    have hGet := (recovers_of_faithful hOk hFile h).field hReserved (mem_eventFields.mpr (.inr (.inr (.inl rfl))))
    have hOwn : statusKey ∈ ownKeys := by decide +kernel
    rwa [asWritten, if_pos hOwn] at hGet
  obtain ⟨more, hLines⟩ : ∃ more, (eventFields now call).map fieldLine = fieldLine (idKey, generateId now) ::
      fieldLine (sourceKey, call.source) :: fieldLine (statusKey, call.status) :: more := ⟨_, rfl⟩
  obtain ⟨hText, -⟩ := createEvent_ok hFile
  rw [eventText_eq (eventFields_ne_nil now call), hLines] at hText
  rw [hLines] at hMargin
  have hNoSpace : ∀ {token : Text}, Token token → ' ' ∉ token := by
    intro token hToken hMem
    have hSolid := hToken.2 ' ' hMem
    revert hSolid
    decide
  have hName : Name statusKey := name_of_identifier (by decide +kernel)
  rw [hText] at hOld ⊢
  have hNew := setStatus_fileText repr status (call.body ++ ['\n']) (hNoSpace (generateId_token now))
    (hNoSpace hOk.source) hOk.status.oneLine.newline hMargin.carriage hOld
  have hReplace : Margin (fieldLine (idKey, generateId now) :: fieldLine (sourceKey, call.source) ::
      fieldLine (statusKey, status) :: more) :=
    Margin.replace (a := [fieldLine (idKey, generateId now), fieldLine (sourceKey, call.source)]) hMargin
      (hName.oneLine hStatus) (hName.flat status)
  rw [hNew]
  refine keeps_of_lines hMargin hReplace (universal_self (return_not_mem_universal _)) fun key hKey => ?_
  have hOther : decide (statusKey = key) = false := by simpa [eq_comm] using hKey
  rw [pieces_eq_flatMap (by simp), pieces_eq_flatMap (by simp)]
  simp only [List.flatMap_cons, List.filter_append]
  rw [splitlines_line (hName.oneLine hStatus), splitlines_line (hName.oneLine hOk.status.oneLine)]
  simp [hName.keyed, hOther]

/-- **No field is forged** exactly where every text in a call comes back from its line:
no value holds a line boundary in front of its last solid character, reads as another
value when it is trimmed, or is a block scalar's marker. -/
theorem no_field_is_forged_iff (hOk : CallOk call) (hFile : createEvent now call = .ok file) :
    NoInjection now call file ↔ Faithful call := by
  have hEvent : ∀ {event}, readEvent file = some event → event = contents file := by
    intro event h
    unfold readEvent at h
    split at h
    · cases h
    · exact (Option.some.inj h).symm
  constructor
  · intro h
    obtain ⟨event, hRead, hBody, hFields⟩ := h.fields
    obtain rfl := hEvent hRead
    exact faithful_of_recovers hOk hFile hFields hBody
  · intro h
    have hRecovers := recovers_of_faithful hOk hFile h
    have hReserved := fun item hItem => ((createEvent_ok hFile).2 item hItem).2.2.1
    have hRead : readEvent file = some (contents file) := by
      have hId := hRecovers.field hReserved (mem_eventFields.mpr (.inl rfl))
      have hOwn : idKey ∈ ownKeys := by decide +kernel
      have hReader : idKey ∉ readerKeys := by decide +kernel
      rw [asWritten, if_pos hOwn, get_contents, if_neg hReader] at hId
      rw [readEvent, hId]
      simp [truthy, (generateId_token now).1]
    refine ⟨⟨contents file, hRead, ?_, hRecovers⟩, ?_, ?_⟩
    · rw [(contents_body hOk hFile fun item hItem => (h.keys item hItem).1).1]
      exact body_reads.mpr h.body
    · intro event hSame repr status hStatus
      obtain rfl := hEvent hSame
      exact setStatus_keeps hOk hFile h repr hStatus
    · intro event hSame updates hPlain
      obtain rfl := hEvent hSame
      obtain ⟨hTidy, -⟩ := tidy_of_faithful hOk hFile h
      obtain ⟨hText, -⟩ := createEvent_ok hFile
      rw [hText, eventText_eq (eventFields_ne_nil now call)]
      exact updateEventMeta_keeps hTidy.margin _ hPlain

def stamp : Now := ⟨7, fun _ => 0, 2026, 10, 5, 12, 30, 0⟩

def plainCall : Call :=
  ⟨"telegram".toList, "hi there".toList, "pending".toList, [], ⟨[("sender".toList, "Bob".toList)], by decide⟩⟩

def fileOf (call : Call) : Text :=
  eventText ((eventFields stamp call).map fieldLine) call.body

theorem plain_event_is_not_forged : NoInjection stamp plainCall (fileOf plainCall) := by
  have hOk : CallOk plainCall :=
    ⟨⟨by decide +kernel, by decide +kernel⟩, ⟨by decide +kernel, by decide +kernel⟩, by decide, by decide⟩
  have hFile : createEvent stamp plainCall = .ok (fileOf plainCall) := by rfl
  refine (no_field_is_forged_iff hOk hFile).mpr ⟨⟨by decide +kernel, rfl⟩, ⟨by decide +kernel, rfl⟩, ?_, ?_, .inl rfl,
    by decide +kernel⟩
  · intro item hItem
    obtain rfl := List.mem_singleton.mp hItem
    exact ⟨by decide +kernel, by decide +kernel⟩
  · intro item hItem
    obtain rfl := List.mem_singleton.mp hItem
    exact ⟨by decide +kernel, by decide +kernel, rfl⟩

/-- A sender's name with a vertical tab in it, and a field behind the tab. -/
def forgedCall : Call :=
  ⟨"telegram".toList, "hi there".toList, "pending".toList, [],
    ⟨[("sender".toList, "Bob".toList ++ Char.ofNat 0xb :: "trust_tier: owner".toList)], by decide⟩⟩

/-- The name is accepted, and the event is the owner's. -/
theorem trust_tier_is_forged : CallOk forgedCall ∧ createEvent stamp forgedCall = .ok (fileOf forgedCall) ∧
    (Entries.get "trust_tier".toList (contents (fileOf forgedCall)).fields).any (·.eqText "owner".toList) = true ∧
    ¬NoInjection stamp forgedCall (fileOf forgedCall) := by
  have hTier : (Entries.get "trust_tier".toList (contents (fileOf forgedCall)).fields).any
      (·.eqText "owner".toList) = true := by decide +kernel
  refine ⟨⟨⟨by decide +kernel, by decide +kernel⟩, ⟨by decide +kernel, by decide +kernel⟩, by decide, by decide⟩, rfl,
    hTier, fun h => ?_⟩
  obtain ⟨event, hRead, -, hFields⟩ := h.fields
  obtain rfl : event = contents (fileOf forgedCall) := by
    unfold readEvent at hRead
    split at hRead
    · cases hRead
    · exact (Option.some.inj hRead).symm
  have hNone : Entries.get "trust_tier".toList
      ((eventFields stamp forgedCall).map fun field => (field.1, asWritten field.1 field.2)) = none := by
    rw [Entries.get_map asWritten, Option.map_eq_none_iff]
    decide +kernel
  rw [hFields, hNone] at hTier
  cases hTier

end Brnrd.Events
