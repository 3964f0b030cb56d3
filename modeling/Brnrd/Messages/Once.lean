import Brnrd.Messages.Files
import Brnrd.Shuttle.Sync

/-! The store stages a source once and closes a message once, over every sequence of
calls whose texts come back from their files. -/
namespace Brnrd.Messages

open Python Events

variable (repr : Fields → Text)

/-- What holds of the directory after every sequence of such calls. -/
structure Inv (dir : Dir) : Prop where
  distinct : (dir.map Prod.fst).Nodup
  numbered : ∀ name ∈ dir.map Prod.fst, (seqOf name).isSome = true
  files : ∀ name file, Entries.get name dir = some file → FileOk repr file
  unique : ∀ name name' file file' ref, Entries.get name dir = some file → Entries.get name' dir = some file' →
    ref ≠ [] → Refers file ref → Refers file' ref → name = name'

theorem inv_nil : Inv repr [] where
  distinct := List.nodup_nil
  numbered := by simp
  files := by
    intro name file h
    cases h
  unique := by
    intro name name' file file' ref h
    cases h

variable {now ref file name path : Text} {dir : Dir}

theorem mem_listMessages {message : Event} :
    (name, message) ∈ listMessages dir ↔ ∃ file, (name, file) ∈ dir ∧ read file = some message := by
  rw [listMessages, List.mem_filterMap]
  constructor
  · rintro ⟨item, hItem, hRead⟩
    obtain ⟨message', hMessage, hPair⟩ := Option.map_eq_some_iff.mp hRead
    obtain ⟨rfl, rfl⟩ := Prod.mk.inj hPair
    exact ⟨item.2, (List.perm_insertionSort _ dir).mem_iff.mp hItem, hMessage⟩
  · rintro ⟨file, hFile, hRead⟩
    exact ⟨(name, file), (List.perm_insertionSort _ dir).mem_iff.mpr hFile, by rw [hRead]; rfl⟩

/-- The file that is found is one with the source. -/
theorem existing_some (hDistinct : (dir.map Prod.fst).Nodup) (h : existingBySource dir ref = some path) :
    ∃ file, Entries.get path dir = some file ∧ Refers file ref := by
  unfold existingBySource at h
  split at h
  · cases h
  · obtain ⟨⟨name, message⟩, hFind, rfl⟩ := Option.map_eq_some_iff.mp h
    have hMatch := List.find?_some hFind
    obtain ⟨file, hFile, hRead⟩ := mem_listMessages.mp (List.mem_of_find?_eq_some hFind)
    obtain rfl := read_eq_some hRead
    obtain ⟨entry, hEntry, hText⟩ := (Option.any_eq_true ..).mp hMatch
    refine ⟨file, (Entries.get_eq_some hDistinct).mpr hFile, by rw [hRead]; rfl, ?_⟩
    have hGet : Entries.get sourceRefKey (contents file).fields = some entry := hEntry
    rw [hGet, eqText_iff.mp hText]

/-- Where no file is found, none has the source. -/
theorem existing_none (hSome : ref ≠ []) (h : existingBySource dir ref = none) (hFile : Entries.get name dir = some file) :
    ¬Refers file ref := by
  rintro ⟨hRead, hRef⟩
  obtain ⟨message, hMessage⟩ := Option.isSome_iff_exists.mp hRead
  have hMem := mem_listMessages.mpr ⟨file, Entries.mem_of_get hFile, hMessage⟩
  rw [existingBySource, if_neg hSome, Option.map_eq_none_iff] at h
  have hNot := List.find?_eq_none.mp h _ hMem
  have hFields : Entries.get sourceRefKey message.fields = some (.text ref) := by
    rw [read_eq_some hMessage, hRef]
  simp [hFields, Entry.eqText] at hNot

/-- The number of a new file is behind those in the directory. -/
theorem seqOf_messagePath (seq : Nat) (kind : Text) : seqOf (messagePath seq kind) = some seq := by
  have hDigits : ∀ c ∈ padded 6 seq, c.isDigit = true := by
    intro c hc
    rw [padded, List.leftpad] at hc
    rcases List.mem_append.mp hc with hc | hc
    · rw [List.eq_of_mem_replicate hc]
      decide
    · exact Nat.isDigit_of_mem_toDigits (by decide) (by decide) hc
  have hAll : ∀ c ∈ padded 6 seq, decide (c ≠ '-') = true := by
    intro c hc
    refine decide_eq_true ?_
    rintro rfl
    have hDash := hDigits '-' hc
    revert hDash
    decide
  have hTake : (messagePath seq kind).takeWhile (· ≠ '-') = padded 6 seq := by
    rw [messagePath, List.takeWhile_append_of_pos hAll]
    simp
  have hSome : padded 6 seq ≠ [] := by
    rw [padded, List.leftpad]
    exact List.append_ne_nil_of_right_ne_nil _ Nat.toDigits_ne_nil
  have hValue : Nat.ofDigitChars 10 (padded 6 seq) 0 = seq :=
    (Shuttle.ofDigitChars_zeros _ _ _).mpr (Nat.ofDigitChars_toDigits (by decide) (by decide))
  rw [seqOf, hTake, if_pos ⟨hSome, List.all_eq_true.mpr hDigits⟩, hValue]

theorem messagePath_new (kind : Text) : messagePath (nextSeq dir) kind ∉ dir.map Prod.fst := by
  intro hMem
  obtain ⟨item, hItem, hName⟩ := List.mem_map.mp hMem
  have hSeq : nextSeq dir ∈ dir.filterMap fun file => seqOf file.1 :=
    List.mem_filterMap.mpr ⟨item, hItem, by rw [hName, seqOf_messagePath]⟩
  have hLess := List.le_max?_getD_of_mem (k := 0) hSeq
  rw [nextSeq] at hLess
  omega

/-- What a stage call does. -/
theorem stage_cases (now : Text) (call : Staging) (dir : Dir) :
    call.asks = false ∧ stage repr now call dir = (none, dir) ∨
      call.asks = true ∧ (∃ path, existingBySource dir call.sourceRef = some path ∧
        stage repr now call dir = (some path, dir)) ∨
      call.asks = true ∧ existingBySource dir call.sourceRef = none ∧ stage repr now call dir =
        (some (messagePath (nextSeq dir) call.kind), Entries.set (messagePath (nextSeq dir) call.kind)
          (render repr (stagedMeta now call) (strip call.body)) dir) := by
  unfold stage
  cases hAsks : call.asks with
  | false => exact .inl ⟨rfl, rfl⟩
  | true =>
      cases hExisting : existingBySource dir call.sourceRef with
      | some path => exact .inr (.inl ⟨rfl, path, rfl, rfl⟩)
      | none => exact .inr (.inr ⟨rfl, rfl, rfl⟩)

/-- What a transition does. -/
theorem transition_cases (now : Text) (call : Closing) (dir : Dir) :
    (transition repr now call dir).2 = dir ∨
      ∃ file, Entries.get call.path dir = some file ∧ current repr (contents file) = pending ∧ call.status ∈ terminal ∧
        (transition repr now call dir).2 = Entries.set call.path
          (render repr (closedMeta now call (contents file).fields) (contents file).body) dir := by
  unfold transition
  split
  · exact .inl rfl
  · rename_i hStatus
    split
    · exact .inl rfl
    · rename_i message hMessage
      obtain ⟨file, hFile, hRead⟩ := Option.bind_eq_some_iff.mp hMessage
      obtain rfl := read_eq_some hRead
      split
      · exact .inl rfl
      · split
        · exact .inl rfl
        · rename_i hPending
          exact .inr ⟨file, hFile, not_not.mp hPending, not_not.mp hStatus, rfl⟩

variable {repr}

/-- The message a path holds, as its source and the readable ones see it, after it is
closed. -/
theorem refers_closed (h : FileOk repr file) (hPending : current repr (contents file) = pending) (now : Text)
    {call : Closing} (hStatus : call.status ∈ terminal) (ref : Text) :
    Refers (render repr (closedMeta now call (contents file).fields) (contents file).body) ref ↔ Refers file ref := by
  obtain ⟨-, message, hRead, -, -, hKeeps⟩ := transition_file repr h hPending now hStatus
  obtain rfl := read_eq_some hRead
  have hSame := hKeeps sourceRefKey (sourceRef_not_closed call)
  have hReadable : (read file).isSome = true := by
    unfold read
    split
    · rename_i hFalse
      have hNone : strOr repr ((Entries.get statusKey (contents file).fields).getD .none) = [] :=
        if_neg (by simpa using hFalse)
      rw [current, hNone] at hPending
      revert hPending
      decide
    · rfl
  constructor
  · rintro ⟨-, hRef⟩
    exact ⟨hReadable, by rw [← hSame, hRef]⟩
  · rintro ⟨-, hRef⟩
    exact ⟨by rw [hRead]; rfl, by rw [hSame, hRef]⟩

variable {call : Staging}

theorem Inv.stage (h : Inv repr dir) (hOk : StageOk repr now call) : Inv repr (Messages.stage repr now call dir).2 := by
  rcases stage_cases repr now call dir with ⟨-, hSame⟩ | ⟨-, path, -, hSame⟩ | ⟨-, hNone, hNew⟩
  · rwa [hSame]
  · rwa [hSame]
  · obtain ⟨hFile, hRefers⟩ := staged_file repr hOk
    have hFresh : ∀ {name file}, Entries.get name dir = some file → messagePath (nextSeq dir) call.kind ≠ name := by
      rintro name file hGet rfl
      exact messagePath_new call.kind (List.mem_map_of_mem (f := Prod.fst) (Entries.mem_of_get hGet))
    have hGet : ∀ {name file}, Entries.get name (Messages.stage repr now call dir).2 = some file →
        name = messagePath (nextSeq dir) call.kind ∧ file = render repr (stagedMeta now call) (strip call.body) ∨
          Entries.get name dir = some file := by
      intro name file hGet
      rw [hNew, Entries.get_set] at hGet
      split at hGet
      · rename_i hName
        exact .inl ⟨hName.symm, (Option.some.inj hGet).symm⟩
      · exact .inr hGet
    -- The new file has a source that no file had.
    have hOther : ∀ {name file ref}, Entries.get name dir = some file → ref ≠ [] → Refers file ref →
        ¬Refers (render repr (stagedMeta now call) (strip call.body)) ref := by
      intro name file ref hFound hSome hOld hRef
      obtain rfl := (hRefers ref hSome).mp hRef
      exact existing_none hSome hNone hFound hOld
    refine ⟨?_, ?_, ?_, ?_⟩
    · rw [hNew]
      exact Entries.nodup_set h.distinct
    · intro name hName
      rw [hNew] at hName
      obtain ⟨item, hItem, rfl⟩ := List.mem_map.mp hName
      rcases Entries.mem_set hItem with rfl | hItem
      · rw [seqOf_messagePath]
        rfl
      · exact h.numbered _ (List.mem_map_of_mem (f := Prod.fst) hItem)
    · intro name file hFound
      rcases hGet hFound with ⟨-, rfl⟩ | hOld
      · exact hFile
      · exact h.files name file hOld
    · intro name name' file file' ref hFound hFound' hSome hRef hRef'
      rcases hGet hFound with ⟨rfl, rfl⟩ | hOld <;> rcases hGet hFound' with ⟨rfl, rfl⟩ | hOld'
      · rfl
      · exact absurd hRef (hOther hOld' hSome hRef')
      · exact absurd hRef' (hOther hOld hSome hRef)
      · exact h.unique name name' file file' ref hOld hOld' hSome hRef hRef'

theorem Inv.transition (h : Inv repr dir) (now : Text) (call : Closing) :
    Inv repr (Messages.transition repr now call dir).2 := by
  rcases transition_cases repr now call dir with hSame | ⟨file, hFile, hPending, hStatus, hNew⟩
  · rwa [hSame]
  · have hFileOk := h.files _ _ hFile
    obtain ⟨hClosed, -⟩ := transition_file repr hFileOk hPending now hStatus
    have hGet : ∀ {name new}, Entries.get name (Messages.transition repr now call dir).2 = some new →
        ∃ old, Entries.get name dir = some old ∧ (FileOk repr old → FileOk repr new) ∧
          ∀ ref, Refers new ref → Refers old ref := by
      intro name new hGet
      rw [hNew, Entries.get_set] at hGet
      split at hGet
      · rename_i hName
        obtain rfl := Option.some.inj hGet
        exact ⟨file, hName ▸ hFile, fun _ => hClosed,
          fun ref => (refers_closed hFileOk hPending now hStatus ref).mp⟩
      · exact ⟨new, hGet, id, fun _ => id⟩
    refine ⟨?_, ?_, ?_, ?_⟩
    · rw [hNew]
      exact Entries.nodup_set h.distinct
    · intro name hName
      rw [hNew] at hName
      obtain ⟨item, hItem, rfl⟩ := List.mem_map.mp hName
      rcases Entries.mem_set hItem with rfl | hItem
      · exact h.numbered _ (List.mem_map.mpr ⟨_, Entries.mem_of_get hFile, rfl⟩)
      · exact h.numbered _ (List.mem_map_of_mem (f := Prod.fst) hItem)
    · intro name new hFound
      obtain ⟨old, hOld, hOk, -⟩ := hGet hFound
      exact hOk (h.files name old hOld)
    · intro name name' new new' ref hFound hFound' hSome hRef hRef'
      obtain ⟨old, hOld, -, hBack⟩ := hGet hFound
      obtain ⟨old', hOld', -, hBack'⟩ := hGet hFound'
      exact h.unique name name' old old' ref hOld hOld' hSome (hBack ref hRef) (hBack' ref hRef')

/-- The calls of a sequence whose texts come back. -/
def Stable (repr : Fields → Text) (ops : List Op) : Prop :=
  ∀ now call, Op.stage now call ∈ ops → StageOk repr now call

theorem Inv.step (h : Inv repr dir) {op : Op} (hOk : ∀ now call, op = .stage now call → StageOk repr now call) :
    Inv repr (Messages.step repr dir op) := by
  cases op with
  | stage now call => exact h.stage (hOk now call rfl)
  | transition now call => exact h.transition now call

/-- Every sequence of such calls keeps the invariant. -/
theorem inv_foldl {ops : List Op} (hOk : Stable repr ops) (h : Inv repr dir) : Inv repr (ops.foldl (step repr) dir) := by
  induction ops generalizing dir with
  | nil => exact h
  | cons op ops ih =>
      have hFirst : Inv repr (step repr dir op) :=
        h.step fun now call hSame => hOk now call (List.mem_cons.mpr (.inl hSame.symm))
      exact ih (fun now call hMem => hOk now call (List.mem_cons_of_mem _ hMem)) hFirst

theorem inv_run {ops : List Op} (hOk : Stable repr ops) : Inv repr (run repr ops) :=
  inv_foldl hOk (inv_nil repr)

/-- A message that is not pending is not written again. -/
theorem step_closed (op : Op) (hFile : Entries.get path dir = some file) (hClosed : current repr (contents file) ≠ pending) :
    Entries.get path (step repr dir op) = some file := by
  cases op with
  | stage now call =>
      show Entries.get path (Messages.stage repr now call dir).2 = some file
      rcases stage_cases repr now call dir with ⟨-, hSame⟩ | ⟨-, other, -, hSame⟩ | ⟨-, -, hNew⟩
      · rw [hSame, hFile]
      · rw [hSame, hFile]
      · have hOther : messagePath (nextSeq dir) call.kind ≠ path := by
          rintro rfl
          exact messagePath_new call.kind (List.mem_map_of_mem (f := Prod.fst) (Entries.mem_of_get hFile))
        rw [hNew, Entries.get_set, if_neg hOther, hFile]
  | transition now call =>
      show Entries.get path (Messages.transition repr now call dir).2 = some file
      rcases transition_cases repr now call dir with hSame | ⟨other, hOld, hPending, -, hNew⟩
      · rw [hSame, hFile]
      · have hOther : call.path ≠ path := by
          rintro rfl
          rw [hFile] at hOld
          rw [← Option.some.inj hOld] at hPending
          exact hClosed hPending
        rw [hNew, Entries.get_set, if_neg hOther, hFile]

theorem foldl_closed (ops : List Op) (hFile : Entries.get path dir = some file)
    (hClosed : current repr (contents file) ≠ pending) : Entries.get path (ops.foldl (step repr) dir) = some file := by
  induction ops generalizing dir with
  | nil => exact hFile
  | cons op ops ih => exact ih (step_closed op hFile hClosed)

/-- A source stays with its path. -/
theorem step_refers (h : Inv repr dir) (op : Op) (hRef : ∃ file, Entries.get path dir = some file ∧ Refers file ref) :
    ∃ file, Entries.get path (step repr dir op) = some file ∧ Refers file ref := by
  obtain ⟨file, hFile, hRefers⟩ := hRef
  by_cases hPending : current repr (contents file) = pending
  · cases op with
    | stage now call =>
        show ∃ file, Entries.get path (Messages.stage repr now call dir).2 = some file ∧ Refers file ref
        rcases stage_cases repr now call dir with ⟨-, hSame⟩ | ⟨-, other, -, hSame⟩ | ⟨-, -, hNew⟩
        · exact ⟨file, by rw [hSame, hFile], hRefers⟩
        · exact ⟨file, by rw [hSame, hFile], hRefers⟩
        · have hOther : messagePath (nextSeq dir) call.kind ≠ path := by
            rintro rfl
            exact messagePath_new call.kind (List.mem_map_of_mem (f := Prod.fst) (Entries.mem_of_get hFile))
          exact ⟨file, by rw [hNew, Entries.get_set, if_neg hOther, hFile], hRefers⟩
    | transition now call =>
        show ∃ file, Entries.get path (Messages.transition repr now call dir).2 = some file ∧ Refers file ref
        rcases transition_cases repr now call dir with hSame | ⟨other, hOld, hOpen, hStatus, hNew⟩
        · exact ⟨file, by rw [hSame, hFile], hRefers⟩
        · by_cases hPath : call.path = path
          · subst hPath
            obtain rfl : other = file := Option.mem_unique hOld hFile
            refine ⟨_, by rw [hNew, Entries.get_set, if_pos rfl], ?_⟩
            exact (refers_closed (h.files _ _ hFile) hOpen now hStatus ref).mpr hRefers
          · exact ⟨file, by rw [hNew, Entries.get_set, if_neg hPath, hFile], hRefers⟩
  · exact ⟨file, step_closed op hFile hPending, hRefers⟩

theorem foldl_refers {ops : List Op} (hOk : Stable repr ops) (h : Inv repr dir)
    (hRef : ∃ file, Entries.get path dir = some file ∧ Refers file ref) :
    ∃ file, Entries.get path (ops.foldl (step repr) dir) = some file ∧ Refers file ref := by
  induction ops generalizing dir with
  | nil => exact hRef
  | cons op ops ih =>
      have hFirst : Inv repr (step repr dir op) :=
        h.step fun now call hSame => hOk now call (List.mem_cons.mpr (.inl hSame.symm))
      exact ih (fun now call hMem => hOk now call (List.mem_cons_of_mem _ hMem)) hFirst (step_refers h op hRef)

/-- What the store promises of a sequence of calls: a source that was staged is not
staged again, a message that has left pending keeps its status, and a transition keeps
the body and every field but those it sets, and every other file. -/
structure StoreLaws (repr : Fields → Text) (ops : List Op) : Prop where
  once : ∀ before now first between now' again after path,
    ops = before ++ .stage now first :: (between ++ .stage now' again :: after) → first.sourceRef ≠ [] →
    again.sourceRef = first.sourceRef → again.asks = true → (stage repr now first (run repr before)).1 = some path →
    stage repr now' again (run repr (before ++ .stage now first :: between)) =
      (some path, run repr (before ++ .stage now first :: between))
  closed : ∀ before after, ops = before ++ after → ∀ path message,
    (Entries.get path (run repr before)).bind read = some message → current repr message ≠ pending →
    ∃ message', (Entries.get path (run repr ops)).bind read = some message' ∧
      current repr message' = current repr message
  kept : ∀ before now call after, ops = before ++ .transition now call :: after →
    (∀ message, (Entries.get call.path (run repr before)).bind read = some message →
      ∃ message', (Entries.get call.path (transition repr now call (run repr before)).2).bind read = some message' ∧
        Keeps (closedKeys call) message message') ∧
    ∀ path, path ≠ call.path →
      Entries.get path (transition repr now call (run repr before)).2 = Entries.get path (run repr before)

theorem run_append (a b : List Op) : run repr (a ++ b) = b.foldl (step repr) (run repr a) :=
  List.foldl_append

/-- After a call that staged a source, the source is found at the path it returned. -/
theorem refers_of_stage (h : Inv repr dir) (hOk : StageOk repr now call) (hSome : call.sourceRef ≠ [])
    (hPath : (stage repr now call dir).1 = some path) :
    ∃ file, Entries.get path (stage repr now call dir).2 = some file ∧ Refers file call.sourceRef := by
  rcases stage_cases repr now call dir with ⟨-, hSame⟩ | ⟨-, other, hExisting, hSame⟩ | ⟨-, -, hNew⟩
  · rw [hSame] at hPath
    cases hPath
  · rw [hSame] at hPath ⊢
    obtain rfl : other = path := Option.some.inj hPath
    exact existing_some h.distinct hExisting
  · rw [hNew] at hPath ⊢
    obtain rfl := Option.some.inj hPath
    exact ⟨_, by rw [Entries.get_set, if_pos rfl], ((staged_file repr hOk).2 _ hSome).mpr rfl⟩

/-- A source that is in the directory is not staged again. -/
theorem stage_again (h : Inv repr dir) (now : Text) (hAsks : call.asks = true) (hSome : call.sourceRef ≠ [])
    (hRef : ∃ file, Entries.get path dir = some file ∧ Refers file call.sourceRef) :
    stage repr now call dir = (some path, dir) := by
  obtain ⟨file, hFile, hRefers⟩ := hRef
  rcases stage_cases repr now call dir with ⟨hNot, -⟩ | ⟨-, other, hExisting, hSame⟩ | ⟨-, hNone, -⟩
  · rw [hAsks] at hNot
    cases hNot
  · obtain ⟨file', hFile', hRefers'⟩ := existing_some h.distinct hExisting
    rw [hSame, h.unique other path file' file call.sourceRef hFile' hFile hSome hRefers' hRefers]
  · exact absurd hRefers (existing_none hSome hNone hFile)

/-- **Staged once, closed once.** In every sequence of calls whose sources and fields
come back from the file format, the store keeps its laws. -/
theorem store_laws_of_stable (repr : Fields → Text) {ops : List Op} (hOk : Stable repr ops) : StoreLaws repr ops where
  once := by
    intro before now first between now' again after path hOps hSome hSame hAsks hPath
    have hBefore : Stable repr before := fun n c hMem => hOk n c (by rw [hOps]; simp [hMem])
    have hFirst : StageOk repr now first := hOk now first (by rw [hOps]; simp)
    have hBetween : Stable repr between := fun n c hMem => hOk n c (by rw [hOps]; simp [hMem])
    have hInv := inv_run hBefore
    have hRef := foldl_refers hBetween (hInv.stage hFirst) (refers_of_stage hInv hFirst hSome hPath)
    have hRun : run repr (before ++ .stage now first :: between) =
        between.foldl (step repr) (stage repr now first (run repr before)).2 := by
      rw [run_append, List.foldl_cons]
      rfl
    rw [hRun]
    rw [← hSame] at hSome hRef
    exact stage_again (inv_foldl hBetween (hInv.stage hFirst)) now' hAsks hSome hRef
  closed := by
    intro before after hOps path message hMessage hClosed
    obtain ⟨file, hFile, hRead⟩ := Option.bind_eq_some_iff.mp hMessage
    have hContents := read_eq_some hRead
    rw [hContents] at hClosed
    refine ⟨message, ?_, rfl⟩
    rw [hOps, run_append, foldl_closed after hFile hClosed]
    exact hRead
  kept := by
    intro before now call after hOps
    have hBefore : Stable repr before := fun n c hMem => hOk n c (by rw [hOps]; simp [hMem])
    have hInv := inv_run hBefore
    rcases transition_cases repr now call (run repr before) with hSame | ⟨file, hFile, hPending, hStatus, hNew⟩
    · rw [hSame]
      exact ⟨fun message hMessage => ⟨message, hMessage, rfl, fun _ _ => rfl⟩, fun _ _ => rfl⟩
    · constructor
      · intro message hMessage
        rw [hFile] at hMessage
        obtain rfl := read_eq_some hMessage
        obtain ⟨-, message', hRead, -, hKeeps⟩ := transition_file repr (hInv.files _ _ hFile) hPending now hStatus
        exact ⟨message', by rw [hNew, Entries.get_set, if_pos rfl]; exact hRead, hKeeps⟩
      · intro path hPath
        rw [hNew, Entries.get_set, if_neg (Ne.symm hPath)]

/-- A dict prints as nothing here: no message has one. -/
def noDicts : Fields → Text := fun _ => []

def clock : Text := "2026-10-05T12:30:00Z".toList

def reply (sourceRef : String) : Staging where
  runId := "run-1".toList
  body := "done".toList
  kind := "terminal".toList
  targetEvent := "evt-7".toList
  targetGate := "telegram".toList
  targetThread := []
  sourceRef := sourceRef.toList
  status := pending
  reason := []
  createdAt := none
  topic := []

def delivery : Closing where
  path := messagePath 1 "terminal".toList
  status := delivered
  gate := "telegram".toList
  platformMessageId := .int 41
  reason := []
  deliveredAt := none

/-- A reply that is staged, delivered and staged again. -/
def retried (sourceRef : String) : List Op :=
  [.stage clock (reply sourceRef), .transition clock delivery, .stage clock (reply sourceRef)]

def comesBack (value : Entry) : Bool :=
  match value with
  | .text text => (reread noDicts value).eqText text
  | _ => false

theorem retried_reply_keeps_laws : StoreLaws noDicts (retried "responses/evt-7.md") := by
  have hFields : ∀ item ∈ stagedMeta clock (reply "responses/evt-7.md"), shown item.2 = true → comesBack item.2 = true := by
    decide +kernel
  refine store_laws_of_stable noDicts fun now call hMem => ?_
  obtain ⟨rfl, rfl⟩ : now = clock ∧ call = reply "responses/evt-7.md" := by
    rcases List.mem_cons.mp hMem with h | hMem
    · exact ⟨(Op.stage.inj h).1, (Op.stage.inj h).2⟩
    · rcases List.mem_cons.mp hMem with h | hMem
      · cases h
      · have h := List.mem_singleton.mp hMem
        exact ⟨(Op.stage.inj h).1, (Op.stage.inj h).2⟩
  refine ⟨fun _ => ⟨eqText_iff.mp (by decide +kernel), by decide +kernel⟩, fun _ item hItem hShown => ?_⟩
  have hBack := hFields item hItem hShown
  obtain ⟨text, hText⟩ : ∃ text, item.2 = .text text := by
    unfold comesBack at hBack
    split at hBack
    · exact ⟨_, by assumption⟩
    · cases hBack
  rw [hText] at hShown hBack ⊢
  have hAgain : reread noDicts (.text text) = .text text := eqText_iff.mp hBack
  rw [hAgain]
  exact ⟨hShown, hAgain⟩

/-- A reply that is staged two times. -/
def twice (sourceRef : String) : List Op :=
  [.stage clock (reply sourceRef), .stage clock (reply sourceRef)]

/-- A source that looks like a number is staged a second time. -/
theorem numeric_source_is_staged_twice :
    (stage noDicts clock (reply "12") (run noDicts [.stage clock (reply "12")])).1 =
        some (messagePath 2 "terminal".toList) ∧ ¬StoreLaws noDicts (twice "12") := by
  have hFirst : (stage noDicts clock (reply "12") []).1 = some (messagePath 1 "terminal".toList) := rfl
  have hSecond : (stage noDicts clock (reply "12") (run noDicts [.stage clock (reply "12")])).1 =
      some (messagePath 2 "terminal".toList) := by
    decide +kernel
  refine ⟨hSecond, fun h => ?_⟩
  have hOnce := h.once [] clock (reply "12") [] clock (reply "12") [] _ rfl (by decide +kernel) rfl (by decide +kernel)
    hFirst
  have hPath := congrArg Prod.fst hOnce
  rw [List.nil_append, hSecond] at hPath
  have hName : messagePath 2 "terminal".toList ≠ messagePath 1 "terminal".toList := by decide +kernel
  exact hName (Option.some.inj hPath)

end Brnrd.Messages
