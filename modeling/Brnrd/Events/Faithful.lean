import Brnrd.Events.Exact

/-! The calls of `create_event` whose fields the reader gives back: what each value
must be like, field by field. -/
namespace Brnrd.Events

open Python

/-- The fields the reader is to give back as they are. -/
def ownKeys : List Text :=
  [idKey, sourceKey, statusKey, createdKey]

/-- What a field is to be read as: its text for the event's own, and the `_coerce` of
its text for the rest. -/
def asWritten (key value : Text) : Entry :=
  if key ∈ ownKeys then .text value else coerce value

def attachmentsText (call : Call) : Text :=
  [','].intercalate (attachmentNames call.attachments)

/-- A single token. -/
def Token (text : Text) : Prop :=
  text ≠ [] ∧ ∀ c ∈ text, isSpace c = false

/-- A value that the reader gives back as its `_coerce`: white space at its ends makes
no difference, no line boundary is in front of its last solid character, and it is no
block scalar's marker. -/
structure Kept (value : Text) : Prop where
  oneLine : OneLine (rstrip value)
  noMarker : strip value ∉ blockScalarMarkers
  trimmed : coerce (strip value) = coerce value

/-- A token that the reader gives back as it is. -/
structure KeptToken (token : Text) : Prop where
  noMarker : token ∉ blockScalarMarkers
  plain : coerce token = .text token

structure Faithful (call : Call) : Prop where
  source : KeptToken call.source
  status : KeptToken call.status
  keys : ∀ item ∈ call.data.items, item.1.getLast? ≠ some '\n' ∧ item.1 ∉ readerKeys
  values : ∀ item ∈ call.data.items, Kept item.2
  attachments : call.attachments = [] ∨ Kept (attachmentsText call)
  body : '\r' ∉ strip call.body

/-- What the file system and the gates give: tokens, and file names in one line. -/
structure CallOk (call : Call) : Prop where
  source : Token call.source
  status : Token call.status
  attachments : '\n' ∉ attachmentsText call ∧ '\r' ∉ attachmentsText call

/-- What a call that writes a file has passed. -/
theorem createEvent_ok {now : Now} {call : Call} {file : Text} (h : createEvent now call = .ok file) :
    file = eventText ((eventFields now call).map fieldLine) call.body ∧
      ∀ item ∈ call.data.items, item.1 ∉ parameters ∧ safeKey item.1 = true ∧ item.1 ∉ reservedMetaKeys ∧
        '\n' ∉ item.2 ∧ '\r' ∉ item.2 := by
  unfold createEvent at h
  split at h
  · cases h
  · rename_i hNone
    obtain ⟨⟨⟩, hValid, hFile⟩ := Fallible.peel h
    have hItems := Fallible.forM_eq_ok.mp hValid
    refine ⟨(Except.ok.inj hFile).symm, fun item hItem => ?_⟩
    have hParameter : item.1 ∉ parameters := by
      have hNot := List.find?_eq_none.mp hNone item hItem
      simpa using hNot
    have hItemOk : validateItem item = .ok () := hItems item hItem
    unfold validateItem at hItemOk
    split at hItemOk
    · cases hItemOk
    split at hItemOk
    · cases hItemOk
    split at hItemOk
    · cases hItemOk
    · rename_i hKey hReserved hLine
      rw [not_or] at hLine
      exact ⟨hParameter, by simpa using hKey, hReserved, hLine⟩

instance : DecidablePred IntChar := fun c => inferInstanceAs (Decidable ((digit c).isSome = true ∨ c ∈ ['_', '-', '+']))

variable {token value : Text}

theorem Token.strip (h : Token token) : strip token = token :=
  strip_solid h.2

theorem Token.oneLine (h : Token token) : OneLine token := by
  intro c hc
  cases hBreak : isLineBreak c with
  | false => rfl
  | true =>
      have hSolid := h.2 c hc
      rw [isSpace_of_isLineBreak hBreak] at hSolid
      cases hSolid

theorem oneLine_rstrip (h : OneLine value) : OneLine (rstrip value) :=
  fun c hc => h c ((List.rdropWhile_prefix _ _).subset hc)

/-- A token with a character that no number has is read as it is, if it is no word the
reader knows, no marker, and not quoted. -/
theorem keptToken_of (hToken : Token token) {c : Char} (hMem : c ∈ token) (hChar : ¬IntChar c) (hWord : token ∉ words)
    (hMarker : token ∉ blockScalarMarkers) (hQuoted : ∀ q ∈ quoteMarks, ∀ inner, token ≠ q :: (inner ++ [q])) :
    KeptToken token := by
  refine ⟨hMarker, ?_⟩
  rcases coerce_cases token with ⟨hIs, -⟩ | ⟨q, inner, hq, hText, -⟩ | ⟨n, hInt, -⟩ | hText
  · exact absurd hIs hWord
  · exact absurd hText (hQuoted q hq inner)
  · have hAll := parseInt_chars hInt
    rw [hToken.strip] at hAll
    exact absurd (hAll c hMem) hChar
  · exact hText

theorem isDigit_solid {c : Char} (h : c.isDigit = true) : isSpace c = false := by
  simp only [Char.isDigit, Bool.and_eq_true, decide_eq_true_eq] at h
  have hLow : '0'.toNat ≤ c.toNat := h.1
  have hHigh : c.toNat ≤ '9'.toNat := h.2
  have hAll : ∀ n < 10, isSpace (Char.ofNat (0x30 + n)) = false := by decide
  have hc := hAll (c.toNat - 0x30) (by
    have hNine : '9'.toNat = 0x39 := by decide
    omega)
  have hZero : '0'.toNat = 0x30 := by decide
  rwa [Nat.add_sub_cancel' (by omega), Char.ofNat_toNat] at hc

theorem digits_solid (n : Nat) : ∀ c ∈ Nat.toDigits 10 n, isSpace c = false :=
  fun _ hc => isDigit_solid (Nat.isDigit_of_mem_toDigits (by decide) (by decide) hc)

theorem padded_solid (width n : Nat) : ∀ c ∈ padded width n, isSpace c = false := by
  intro c hc
  rw [padded, List.leftpad] at hc
  rcases List.mem_append.mp hc with hc | hc
  · rw [List.eq_of_mem_replicate hc]
    decide
  · exact digits_solid n c hc

theorem generateId_token (now : Now) : Token (generateId now) := by
  have hAlphabet : ∀ d ∈ idAlphabet, isSpace d = false := by decide +kernel
  refine ⟨by simp [generateId], fun c hc => ?_⟩
  rw [generateId, List.mem_append, List.mem_append, List.mem_cons] at hc
  rcases hc with hc | hc | rfl | hc
  · have hAll : ∀ d ∈ "evt-".toList, isSpace d = false := by decide
    exact hAll c hc
  · exact digits_solid _ c hc
  · decide
  · obtain ⟨i, rfl⟩ := List.mem_ofFn.mp hc
    have hLength : (now.suffix i).val < idAlphabet.length :=
      lt_of_lt_of_le (now.suffix i).isLt (by decide +kernel)
    rw [List.getD_eq_getElem?_getD, List.getElem?_eq_getElem hLength, Option.getD_some]
    exact hAlphabet _ (List.getElem_mem hLength)

theorem generateId_kept (now : Now) : KeptToken (generateId now) := by
  have hHead : (generateId now).head? = some 'e' := rfl
  have hNot : ∀ token : Text, token.head? ≠ some 'e' → generateId now ≠ token := by
    rintro token hToken rfl
    exact hToken hHead
  refine keptToken_of (generateId_token now) (List.mem_of_head? hHead) (by decide) ?_ ?_ ?_
  · intro hMem
    have hAll : ∀ token ∈ words, token.head? ≠ some 'e' := by decide
    exact hNot _ (hAll _ hMem) rfl
  · intro hMem
    have hAll : ∀ token ∈ blockScalarMarkers, token.head? ≠ some 'e' := by decide
    exact hNot _ (hAll _ hMem) rfl
  · intro q hq inner
    have hAll : ∀ q ∈ quoteMarks, q ≠ 'e' := by decide
    exact hNot _ (by simpa using hAll q hq)

theorem createdStamp_token (now : Now) : Token (createdStamp now) := by
  have hMark : ∀ c ∈ ['-', 'T', ':', 'Z'], isSpace c = false := by decide
  refine ⟨by simp [createdStamp], fun c hc => ?_⟩
  simp only [createdStamp, List.mem_append, List.mem_cons, List.not_mem_nil, or_false] at hc
  rcases hc with hc | rfl | hc | rfl | hc | rfl | hc | rfl | hc | rfl | hc | rfl
  · exact padded_solid _ _ c hc
  · exact hMark _ (by simp)
  · exact padded_solid _ _ c hc
  · exact hMark _ (by simp)
  · exact padded_solid _ _ c hc
  · exact hMark _ (by simp)
  · exact padded_solid _ _ c hc
  · exact hMark _ (by simp)
  · exact padded_solid _ _ c hc
  · exact hMark _ (by simp)
  · exact padded_solid _ _ c hc
  · exact hMark _ (by simp)

theorem createdStamp_kept (now : Now) : KeptToken (createdStamp now) := by
  obtain ⟨front, hFront⟩ : ∃ front, createdStamp now = front ++ ['Z'] :=
    ⟨padded 4 now.year ++ '-' :: (padded 2 now.month ++ '-' :: (padded 2 now.day ++ 'T' :: (padded 2 now.hour ++ ':' ::
      (padded 2 now.minute ++ ':' :: padded 2 now.second)))), by simp [createdStamp]⟩
  have hNot : ∀ token : Text, token.getLast? ≠ some 'Z' → createdStamp now ≠ token := by
    rintro token hToken rfl
    exact hToken (by rw [hFront, List.getLast?_concat])
  refine keptToken_of (createdStamp_token now) (c := 'Z') (by simp [hFront]) (by decide) ?_ ?_ ?_
  · intro hMem
    have hAll : ∀ token ∈ words, token.getLast? ≠ some 'Z' := by decide
    exact hNot _ (hAll _ hMem) rfl
  · intro hMem
    have hAll : ∀ token ∈ blockScalarMarkers, token.getLast? ≠ some 'Z' := by decide
    exact hNot _ (hAll _ hMem) rfl
  · intro q hq inner
    have hAll : ∀ q ∈ quoteMarks, q ≠ 'Z' := by decide
    have hLast : (q :: (inner ++ [q])).getLast? = some q := by
      rw [← List.cons_append, List.getLast?_concat]
    exact hNot _ (by rw [hLast]; simpa using hAll q hq)

/-- A block scalar's marker is never read as its `_coerce`. -/
theorem noMarker_of_coerce (h : readValue (strip value) = coerce value) : strip value ∉ blockScalarMarkers := by
  intro hMarker
  rw [readValue, if_pos hMarker] at h
  rcases coerce_cases value with ⟨-, hNot⟩ | ⟨q, inner, hq, rfl, -⟩ | ⟨n, -, hInt⟩ | hText
  · exact (hNot _ 0).1 h.symm
  · have hSolid : ∀ q ∈ quoteMarks, isSpace q = false := by decide
    have hStrip : strip (q :: (inner ++ [q])) = q :: (inner ++ [q]) := by
      apply strip_eq_self
      · intro c hc
        obtain rfl : q = c := by simpa using hc
        exact hSolid q hq
      · intro c hc
        rw [← List.cons_append, List.getLast?_concat] at hc
        obtain rfl : q = c := by simpa using hc
        exact hSolid q hq
    have hAll : ∀ marker ∈ blockScalarMarkers, ∀ q ∈ quoteMarks, marker.head? ≠ some q := by decide
    rw [hStrip] at hMarker
    exact hAll _ hMarker q hq rfl
  · rw [hInt] at h
    cases h
  · rw [hText] at h
    have hAll : ∀ marker ∈ blockScalarMarkers, strip (blockText marker []) ∉ blockScalarMarkers := by decide +kernel
    have hValue : blockText (strip value) [] = value := Entry.text.inj h
    have hNot := hAll _ hMarker
    rw [hValue] at hNot
    exact hNot hMarker

theorem kept_iff : Kept value ↔ OneLine (rstrip value) ∧ readValue (strip value) = coerce value := by
  constructor
  · intro h
    exact ⟨h.oneLine, by rw [readValue, if_neg h.noMarker, h.trimmed]⟩
  · rintro ⟨hOne, hRead⟩
    have hMarker := noMarker_of_coerce hRead
    rw [readValue, if_neg hMarker] at hRead
    exact ⟨hOne, hMarker, hRead⟩

theorem keptToken_iff (hToken : Token token) : KeptToken token ↔ readValue (strip token) = .text token := by
  rw [hToken.strip]
  constructor
  · intro h
    rw [readValue, if_neg h.noMarker, h.plain]
  · intro hRead
    have hMarker : token ∉ blockScalarMarkers := by
      intro hMarker
      have hAll : ∀ marker ∈ blockScalarMarkers, blockText marker [] ≠ marker := by decide +kernel
      rw [readValue, if_pos hMarker] at hRead
      exact hAll token hMarker (Entry.text.inj hRead)
    rw [readValue, if_neg hMarker] at hRead
    exact ⟨hMarker, hRead⟩

theorem mem_eventFields {now : Now} {call : Call} {field : Text × Text} :
    field ∈ eventFields now call ↔
      field = (idKey, generateId now) ∨ field = (sourceKey, call.source) ∨ field = (statusKey, call.status) ∨
        field ∈ call.data.items ∨ call.attachments ≠ [] ∧ field = (attachmentsKey, attachmentsText call) ∨
        field = (createdKey, createdStamp now) := by
  by_cases hNone : call.attachments = [] <;> simp [eventFields, attachmentsText, hNone]

/-- Each field is read as it is to be, exactly where the call is faithful in it. -/
theorem faithful_fields (now : Now) {call : Call} (hOk : CallOk call)
    (hReserved : ∀ item ∈ call.data.items, item.1 ∉ reservedMetaKeys) :
    (∀ field ∈ eventFields now call,
        OneLine (rstrip field.2) ∧ readValue (strip field.2) = asWritten field.1 field.2) ↔
      KeptToken call.source ∧ KeptToken call.status ∧ (∀ item ∈ call.data.items, Kept item.2) ∧
        (call.attachments = [] ∨ Kept (attachmentsText call)) := by
  have hOwn : ∀ {key token : Text}, key ∈ ownKeys → Token token →
      ((OneLine (rstrip token) ∧ readValue (strip token) = asWritten key token) ↔ KeptToken token) := by
    intro key token hKey hToken
    rw [asWritten, if_pos hKey, keptToken_iff hToken]
    exact and_iff_right (oneLine_rstrip hToken.oneLine)
  have hOther : ∀ {key value : Text}, key ∉ ownKeys →
      ((OneLine (rstrip value) ∧ readValue (strip value) = asWritten key value) ↔ Kept value) := by
    intro key value hKey
    rw [asWritten, if_neg hKey, kept_iff]
  have hItem : ∀ item ∈ call.data.items, item.1 ∉ ownKeys := by
    intro item hItem hMem
    have hAll : ∀ key ∈ ownKeys, key ∈ reservedMetaKeys := by decide +kernel
    exact hReserved item hItem (hAll _ hMem)
  have hAttachments : attachmentsKey ∉ ownKeys := by decide +kernel
  have hId : idKey ∈ ownKeys := by decide +kernel
  have hSource : sourceKey ∈ ownKeys := by decide +kernel
  have hStatus : statusKey ∈ ownKeys := by decide +kernel
  have hCreated : createdKey ∈ ownKeys := by decide +kernel
  constructor
  · intro h
    have hMem : ∀ {field}, field ∈ eventFields now call →
        OneLine (rstrip field.2) ∧ readValue (strip field.2) = asWritten field.1 field.2 := fun hField => h _ hField
    refine ⟨(hOwn hSource hOk.source).mp (hMem (mem_eventFields.mpr (.inr (.inl rfl)))),
      (hOwn hStatus hOk.status).mp (hMem (mem_eventFields.mpr (.inr (.inr (.inl rfl))))),
      fun item hMeta => (hOther (hItem item hMeta)).mp
        (hMem (mem_eventFields.mpr (.inr (.inr (.inr (.inl hMeta)))))), ?_⟩
    by_cases hNone : call.attachments = []
    · exact .inl hNone
    · exact .inr ((hOther hAttachments).mp
        (hMem (mem_eventFields.mpr (.inr (.inr (.inr (.inr (.inl ⟨hNone, rfl⟩))))))))
  · rintro ⟨hKeptSource, hKeptStatus, hKeptValues, hKeptAttachments⟩ field hField
    rcases mem_eventFields.mp hField with rfl | rfl | rfl | hMeta | ⟨hSome, rfl⟩ | rfl
    · exact (hOwn hId (generateId_token now)).mpr (generateId_kept now)
    · exact (hOwn hSource hOk.source).mpr hKeptSource
    · exact (hOwn hStatus hOk.status).mpr hKeptStatus
    · exact (hOther (hItem field hMeta)).mpr (hKeptValues field hMeta)
    · exact (hOther hAttachments).mpr (hKeptAttachments.resolve_left hSome)
    · exact (hOwn hCreated (createdStamp_token now)).mpr (createdStamp_kept now)

end Brnrd.Events
