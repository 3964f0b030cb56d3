import Brnrd.Messages.Rendered

/-! One message file: what a stage call writes and what a transition makes of it, where
the texts of the call come back from the file. -/
namespace Brnrd.Messages

open Python Events

variable (repr : Fields → Text)

/-- An entry that is written and read as itself. -/
def Settled (value : Entry) : Prop :=
  shown value = true ∧ reread repr value = value

/-- A call whose source, if it names one, and whose fields, if it stages a pending
message, come back from the file. -/
structure StageOk (now : Text) (call : Staging) : Prop where
  sourceRef : call.sourceRef ≠ [] → reread repr (.text call.sourceRef) = .text call.sourceRef ∧
    truthy (reread repr (.text call.status)) = true
  fields : strOr repr (reread repr (.text call.status)) = pending →
    ∀ item ∈ stagedMeta now call, shown item.2 = true → Settled repr (reread repr item.2)

/-- A file of the store. While its message is pending, each of its fields is written
and read as itself. -/
structure FileOk (file : Text) : Prop where
  written : ∃ data body, DataOk data ∧ file = render repr data body
  settled : current repr (contents file) = pending → ∀ item ∈ (contents file).fields, Settled repr item.2

theorem stagedMeta_ok (now : Text) (call : Staging) : DataOk (stagedMeta now call) where
  distinct := by
    have hKeys : (stagedMeta now call).map Prod.fst = messageKeys.take 10 := rfl
    rw [hKeys]
    decide +kernel
  keys := by
    intro item hItem
    have hKeys : (stagedMeta now call).map Prod.fst = messageKeys.take 10 := rfl
    have hMem := List.mem_map_of_mem (f := Prod.fst) hItem
    rw [hKeys] at hMem
    exact List.mem_of_mem_take hMem
  direction := List.mem_cons_self

/-- The fields a transition sets. -/
def closedKeys (call : Closing) : List Text :=
  statusKey :: if call.status ∈ receipted then [platformGateKey, platformMessageIdKey, deliveredAtKey] else [reasonKey]

variable {key file : Text}

theorem DataOk.set {data : Fields} (h : DataOk data) (value : Entry) (hKey : key ∈ messageKeys)
    (hOther : key ≠ "direction".toList) : DataOk (Entries.set key value data) where
  distinct := Entries.nodup_set h.distinct
  keys := by
    intro item hItem
    rcases Entries.mem_set hItem with rfl | hItem
    · exact hKey
    · exact h.keys item hItem
  direction := by
    have hGet := (Entries.get_eq_some h.distinct).mpr h.direction
    apply Entries.mem_of_get
    rw [Entries.get_set, if_neg hOther, hGet]

theorem closedMeta_ok {data : Fields} (h : DataOk data) (now : Text) (call : Closing) : DataOk (closedMeta now call data) := by
  have hStatus : DataOk (Entries.set statusKey (.text call.status) data) :=
    h.set _ (by decide +kernel) (by decide +kernel)
  unfold closedMeta
  split
  · exact ((hStatus.set _ (by decide +kernel) (by decide +kernel)).set _ (by decide +kernel) (by decide +kernel)).set _
      (by decide +kernel) (by decide +kernel)
  · exact hStatus.set _ (by decide +kernel) (by decide +kernel)

theorem get_closedMeta (now : Text) (call : Closing) (data : Fields) (hKey : key ∉ closedKeys call) :
    Entries.get key (closedMeta now call data) = Entries.get key data := by
  unfold closedKeys at hKey
  unfold closedMeta
  split
  · rename_i hReceipted
    simp only [hReceipted, if_true, List.mem_cons, List.not_mem_nil, or_false, not_or] at hKey
    rw [Entries.get_set, if_neg (Ne.symm hKey.2.2.2), Entries.get_set, if_neg (Ne.symm hKey.2.2.1), Entries.get_set,
      if_neg (Ne.symm hKey.2.1), Entries.get_set, if_neg (Ne.symm hKey.1)]
  · rename_i hReceipted
    simp only [hReceipted, if_false, List.mem_cons, List.not_mem_nil, or_false, not_or] at hKey
    rw [Entries.get_set, if_neg (Ne.symm hKey.2), Entries.get_set, if_neg (Ne.symm hKey.1)]

theorem get_status_closedMeta (now : Text) (call : Closing) (data : Fields) :
    Entries.get statusKey (closedMeta now call data) = some (.text call.status) := by
  have hKeys : deliveredAtKey ≠ statusKey ∧ platformMessageIdKey ≠ statusKey ∧ platformGateKey ≠ statusKey ∧
      reasonKey ≠ statusKey := by decide +kernel
  unfold closedMeta
  split
  · rw [Entries.get_set, if_neg hKeys.1, Entries.get_set, if_neg hKeys.2.1, Entries.get_set, if_neg hKeys.2.2.1,
      Entries.get_set, if_pos rfl]
  · rw [Entries.get_set, if_neg hKeys.2.2.2, Entries.get_set, if_pos rfl]

theorem eqText_iff {entry : Entry} {text : Text} : entry.eqText text = true ↔ entry = .text text := by
  cases entry <;> simp [Entry.eqText]

/-- A terminal status is written and read as itself. -/
theorem terminal_reread {status : Text} (h : status ∈ terminal) :
    shown (.text status) = true ∧ reread repr (.text status) = .text status ∧ strOr repr (.text status) = status ∧
      truthy (.text status) = true ∧ status ≠ pending := by
  have hAll : ∀ status ∈ terminal, status ≠ [] ∧ status ≠ pending ∧ (readValue (singleSpaced status)).eqText status = true := by
    decide +kernel
  obtain ⟨hSome, hOther, hRead⟩ := hAll status h
  have hTruthy : truthy (.text status) = true := by simpa [truthy] using hSome
  have hStr : strOr repr (.text status) = status := by
    rw [strOr, if_pos hTruthy]
    rfl
  refine ⟨by simpa [shown] using hSome, ?_, hStr, hTruthy, hOther⟩
  rw [reread, clean, hStr]
  exact eqText_iff.mp hRead

/-- What a transition writes: a file whose message has the terminal status, and every
field it does not set. -/
theorem transition_file (h : FileOk repr file) (hPending : current repr (contents file) = pending) (now : Text)
    {call : Closing} (hStatus : call.status ∈ terminal) :
    FileOk repr (render repr (closedMeta now call (contents file).fields) (contents file).body) ∧
      ∃ message, read (render repr (closedMeta now call (contents file).fields) (contents file).body) = some message ∧
        current repr message = call.status ∧ Keeps (closedKeys call) (contents file) message := by
  obtain ⟨data, body, hData, hFile⟩ := h.written
  have hRead : DataOk (contents file).fields := hFile ▸ hData.contents repr body
  have hClosed := closedMeta_ok hRead now call
  obtain ⟨hShown, hAgain, hStr, hTruthy, hOther⟩ := terminal_reread repr hStatus
  have hNew : Entries.get statusKey (contents (render repr (closedMeta now call (contents file).fields)
      (contents file).body)).fields = some (.text call.status) := by
    rw [get_render repr hClosed, get_status_closedMeta, Option.filter_some_pos hShown, Option.map_some, hAgain]
  have hCurrent : current repr (contents (render repr (closedMeta now call (contents file).fields)
      (contents file).body)) = call.status := by
    rw [current, hNew]
    exact hStr
  have hReadable : read (render repr (closedMeta now call (contents file).fields) (contents file).body) =
      some (contents (render repr (closedMeta now call (contents file).fields) (contents file).body)) := by
    rw [read, hNew, Option.getD_some, hTruthy]
    rfl
  refine ⟨⟨⟨_, _, hClosed, rfl⟩, fun hAgain => ?_⟩, _, hReadable, hCurrent, ?_, fun key hKey => ?_⟩
  · exact absurd (hCurrent.symm.trans hAgain) hOther
  · rw [hFile]
    exact body_render repr hData (closedMeta_ok (hFile ▸ hRead) now call) body
  · rw [get_render repr hClosed, get_closedMeta now call _ hKey]
    cases hGet : Entries.get key (contents file).fields with
    | none => rfl
    | some value =>
        obtain ⟨hShown, hSame⟩ := h.settled hPending _ (Entries.mem_of_get hGet)
        rw [Option.filter_some_pos hShown, Option.map_some, hSame]

/-- A readable message with this source. -/
def Refers (file ref : Text) : Prop :=
  (read file).isSome = true ∧ Entries.get sourceRefKey (contents file).fields = some (.text ref)

theorem sourceRef_not_closed (call : Closing) : sourceRefKey ∉ closedKeys call := by
  have hKeys : sourceRefKey ∉ [statusKey, platformGateKey, platformMessageIdKey, deliveredAtKey, reasonKey] := by
    decide +kernel
  simp only [List.mem_cons, List.not_mem_nil, or_false, not_or] at hKeys
  unfold closedKeys
  split <;> simp [hKeys]

theorem read_eq_some {message : Event} (h : read file = some message) : message = contents file := by
  unfold read at h
  split at h
  · cases h
  · exact (Option.some.inj h).symm

/-- What a stage call writes. -/
theorem staged_file {now : Text} {call : Staging} (h : StageOk repr now call) :
    FileOk repr (render repr (stagedMeta now call) (strip call.body)) ∧
      ∀ ref, ref ≠ [] → (Refers (render repr (stagedMeta now call) (strip call.body)) ref ↔ call.sourceRef = ref) := by
  have hData := stagedMeta_ok now call
  have hStatus : Entries.get statusKey (stagedMeta now call) = some (.text call.status) :=
    (Entries.get_eq_some hData.distinct).mpr (by simp [stagedMeta])
  have hRef : Entries.get sourceRefKey (stagedMeta now call) = some (.text call.sourceRef) :=
    (Entries.get_eq_some hData.distinct).mpr (by simp [stagedMeta])
  have hGet := fun key => get_render repr hData (strip call.body) key
  refine ⟨⟨⟨_, _, hData, rfl⟩, fun hPending item hItem => ?_⟩, fun ref hSome => ⟨fun hRefers => ?_, ?_⟩⟩
  · rw [current, hGet, hStatus] at hPending
    have hShown : shown (.text call.status) = true := by
      by_contra hHidden
      have hNot : [] ≠ pending := by decide
      rw [Option.filter_some_neg (by simpa using hHidden)] at hPending
      exact hNot hPending
    rw [Option.filter_some_pos hShown, Option.map_some, Option.getD_some] at hPending
    rw [render_eq, contents_messageText (hData.fields repr)] at hItem
    obtain ⟨field, hField, rfl⟩ := List.mem_map.mp hItem
    obtain ⟨source, hSource, rfl⟩ := List.mem_map.mp hField
    obtain ⟨hSource, hShownSource⟩ := List.mem_filter.mp hSource
    exact h.fields hPending source hSource hShownSource
  · have hFound := hRefers.2
    rw [hGet, hRef] at hFound
    by_cases hNil : call.sourceRef = []
    · have hHidden : shown (.text call.sourceRef) = false := by simp [shown, hNil]
      rw [Option.filter_some_neg hHidden] at hFound
      cases hFound
    · have hShown : shown (.text call.sourceRef) = true := by simpa [shown] using hNil
      rw [Option.filter_some_pos hShown, Option.map_some, (h.sourceRef hNil).1] at hFound
      exact Entry.text.inj (Option.some.inj hFound)
  · rintro rfl
    obtain ⟨hAgain, hTruthy⟩ := h.sourceRef hSome
    have hShown : shown (.text call.sourceRef) = true := by simpa [shown] using hSome
    have hShownStatus : shown (.text call.status) = true := by
      by_contra hHidden
      have hNil : call.status = [] := by simpa [shown] using hHidden
      rw [hNil] at hTruthy
      cases hTruthy
    constructor
    · rw [read, hGet, hStatus, Option.filter_some_pos hShownStatus, Option.map_some, Option.getD_some, hTruthy]
      rfl
    · rw [hGet, hRef, Option.filter_some_pos hShown, Option.map_some, hAgain]

end Brnrd.Messages
