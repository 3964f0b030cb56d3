import Brnrd.Inbox.Sound

/-! The responses to one event in any interleaving: what each step of a call records,
forwards and acknowledges. -/
namespace Brnrd.Inbox

variable {δ : Type}

/-- The post that a call answers, and the event as it has read it. -/
def Stage.answers : Stage δ → Option (Post × Event δ)
  | .reading post event | .adopted post event | .forwarded post event => some (post, event)
  | _ => none

/-- The digest that was recorded last for an event. -/
def lastOf (recorded : List (String × δ)) (eventId : String) : Option δ :=
  ((recorded.filter fun record => decide (record.1 = eventId)).getLast?).map Prod.snd

theorem lastOf_append (recorded new : List (String × δ)) (eventId : String) :
    lastOf (recorded ++ new) eventId = (lastOf new eventId).or (lastOf recorded eventId) := by
  unfold lastOf
  rw [List.filter_append, List.getLast?_append, Option.map_or]

variable {eventId : String}

theorem lastOf_eq_none {recorded : List (String × δ)} (h : ∀ record ∈ recorded, record.1 ≠ eventId) :
    lastOf recorded eventId = none := by
  have hNil : (recorded.filter fun record => decide (record.1 = eventId)) = [] :=
    List.filter_eq_nil_iff.mpr fun record hRecord => by simpa using h record hRecord
  rw [lastOf, hNil]
  rfl

theorem lastOf_eq_some {recorded : List (String × δ)} {sha : δ} (hSome : ∃ record ∈ recorded, record.1 = eventId)
    (hAll : ∀ record ∈ recorded, record.1 = eventId → record.2 = sha) : lastOf recorded eventId = some sha := by
  unfold lastOf
  cases hLast : (recorded.filter fun record => decide (record.1 = eventId)).getLast? with
  | none =>
      obtain ⟨record, hRecord, hId⟩ := hSome
      rw [List.getLast?_eq_none_iff, List.filter_eq_nil_iff] at hLast
      exact absurd (decide_eq_true hId) (hLast record hRecord)
  | some record =>
      obtain ⟨hMem, hId⟩ := List.mem_filter.mp (List.mem_of_getLast? hLast)
      rw [Option.map_some, hAll record hMem (of_decide_eq_true hId)]

theorem mem_of_lastOf {recorded : List (String × δ)} {sha : δ} (h : lastOf recorded eventId = some sha) :
    (eventId, sha) ∈ recorded := by
  obtain ⟨record, hLast, rfl⟩ := Option.map_eq_some_iff.mp h
  obtain ⟨hMem, hId⟩ := List.mem_filter.mp (List.mem_of_getLast? hLast)
  obtain rfl := of_decide_eq_true hId
  exact hMem

namespace World

/-- A response that is about to adopt a conversation, and a merge, find the conversation
of the event as they have read it. -/
def Current (w : World δ) : Action → Prop
  | .advance call _ =>
      match w.calls call with
      | some (.reading _ read) | some (.merging _ _ _ read _) =>
          ∀ row ∈ w.table, row.seq = read.seq → row.conversationId = read.conversationId
      | _ => True
  | _ => True

/-- What a step that commits no row of its own does with the rows and with what is
recorded, forwarded and acknowledged. -/
structure Hears (settings : Settings δ) (w : World δ) (action : Action) (later : World δ) (call : ℕ)
    (new : List (String × δ)) : Prop where
  table : ∀ row ∈ later.table, ∃ old ∈ w.table, Aged old row ∧
    ((∀ record ∈ new, record.1 ≠ row.eventId) ∧ row.status = old.status ∧ row.responseSha = old.responseSha ∨
      row.status = .responded ∧ ∃ sha, row.responseSha = some sha ∧ (∃ record ∈ new, record.1 = row.eventId) ∧
        ∀ record ∈ new, record.1 = row.eventId → record.2 = sha) ∧
    (w.Current action → row.conversationId = old.conversationId ∨ old.conversationId.getD "" = "")
  committed : later.committed = w.committed
  started : w.started ≤ later.started
  recorded : later.recorded = w.recorded ++ new
  source : ∀ record ∈ new, (∃ item ∈ w.committed, item.2.eventId = record.1) ∧ (record.2 = settings.sha "" ∨
    ∃ post read, w.calls call = some (.forwarded post read) ∧ record = (post.eventId, settings.sha post.body))
  forwards : w.forwards ⊆ later.forwards
  forwarded : ∀ told ∈ later.forwards, told ∈ w.forwards ∨ ∃ post read, told = (call, post, read) ∧
    w.calls call = some (.adopted post read) ∧ ¬(read.status = .responded ∧ some (settings.sha post.body) = read.responseSha)
  acked : ∀ post ∈ later.acked, post ∈ w.acked ∨ post.status = "noted" ∨ ∃ read,
    w.calls call = some (.adopted post read) ∧ some (settings.sha post.body) = read.responseSha
  others : ∀ other, other ≠ call → later.calls other = w.calls other
  stage : ∀ stage post read, later.calls call = some stage → stage.answers = some (post, read) →
    (call = w.started ∧ read ∈ w.table) ∨ ∃ old before, w.calls call = some old ∧ old.answers = some (post, before) ∧
      read.eventId = before.eventId ∧ read.status = before.status ∧ read.responseSha = before.responseSha
  told : ∀ post read, later.calls call = some (.forwarded post read) → (call, post, read) ∈ later.forwards

variable {settings : Settings δ} {w later : World δ} {action : Action}

/-- A step that writes to no row and answers to no post. -/
theorem hears_quiet {call nextSeq clock started cursor : ℕ} {drawn : List String} {poll : Option (Poll δ)}
    {returned : List (Event δ)} {stage : Option (Stage δ)} (hStarted : w.started ≤ started)
    (hStage : ∀ next, stage = some next → next.answers = none) :
    w.Hears settings action
      { w with nextSeq, clock, started, drawn, poll, cursor, returned, calls := Function.update w.calls call stage } call [] where
  table := fun row hRow => ⟨row, hRow, .refl row, .inl ⟨by simp, rfl, rfl⟩, fun _ => .inl rfl⟩
  committed := rfl
  started := hStarted
  recorded := (List.append_nil _).symm
  source := by simp
  forwards := List.Subset.refl _
  forwarded := fun _ hTold => .inl hTold
  acked := fun _ hPost => .inl hPost
  others := fun other hOther => Function.update_of_ne hOther _ _
  stage := by
    intro next post read hNext hAnswers
    have hNext : stage = some next := by simpa using hNext
    rw [hStage next hNext] at hAnswers
    cases hAnswers
  told := by
    intro post read hNext
    have hNext : stage = some (.forwarded post read) := by simpa using hNext
    cases hStage _ hNext

variable {call : ℕ}

/-- A call of a response that writes to no row. -/
theorem hears_goes {stage next : Stage δ} {post : Post} {read : Event δ} {forwards : List (ℕ × Post × Event δ)}
    (hStage : w.calls call = some stage) (hAnswers : stage.answers = some (post, read))
    (hNext : next.answers = some (post, read)) (hForwards : w.forwards ⊆ forwards)
    (hForwarded : ∀ told ∈ forwards, told ∈ w.forwards ∨ ∃ post read, told = (call, post, read) ∧ w.calls call = some (.adopted post read) ∧ ¬(read.status = .responded ∧ some (settings.sha post.body) = read.responseSha))
    (hTold : ∀ post read, next = .forwarded post read → (call, post, read) ∈ forwards) :
    w.Hears settings action { w with forwards, calls := Function.update w.calls call (some next) } call [] where
  table := fun row hRow => ⟨row, hRow, .refl row, .inl ⟨by simp, rfl, rfl⟩, fun _ => .inl rfl⟩
  committed := rfl
  started := le_rfl
  recorded := (List.append_nil _).symm
  source := by simp
  forwards := hForwards
  forwarded := hForwarded
  acked := fun _ hPost => .inl hPost
  others := fun other hOther => Function.update_of_ne hOther _ _
  stage := by
    intro after last seen hAfter hSeen
    have hAfter : next = after := by simpa using hAfter
    obtain ⟨rfl, rfl⟩ : post = last ∧ read = seen := by simpa [← hAfter, hNext] using hSeen
    exact .inr ⟨stage, read, hStage, hAnswers, rfl, rfl, rfl⟩
  told := by
    intro last seen hAfter
    exact hTold last seen (by simpa using hAfter)

/-- A call of a response that ends, with nothing forwarded. -/
theorem hears_ends {acked : List Post}
    (hAcked : ∀ post ∈ acked, post ∈ w.acked ∨ post.status = "noted" ∨ ∃ read, w.calls call = some (.adopted post read) ∧ some (settings.sha post.body) = read.responseSha) :
    w.Hears settings action { w with acked, calls := Function.update w.calls call none } call [] where
  table := fun row hRow => ⟨row, hRow, .refl row, .inl ⟨by simp, rfl, rfl⟩, fun _ => .inl rfl⟩
  committed := rfl
  started := le_rfl
  recorded := (List.append_nil _).symm
  source := by simp
  forwards := List.Subset.refl _
  forwarded := fun _ hTold => .inl hTold
  acked := hAcked
  others := fun other hOther => Function.update_of_ne hOther _ _
  stage := by
    intro after last seen hAfter
    simp at hAfter
  told := by
    intro last seen hAfter
    simp at hAfter

/-- A call that records what it has said, or closed, in the row that it has read. -/
theorem hears_records {stage : Stage δ} {post : Post} {read : Event δ} {sha : δ} {acked : List Post}
    {write : Event δ → Event δ} (hSound : w.Sound) (hStage : w.calls call = some stage)
    (hAnswers : stage.answers = some (post, read)) (hThere : ∃ row ∈ w.table, row.seq = read.seq)
    (hSha : sha = settings.sha "" ∨ ∃ before, w.calls call = some (.forwarded post before) ∧ sha = settings.sha post.body)
    (hAcked : ∀ post ∈ acked, post ∈ w.acked ∨ post.status = "noted")
    (hWrite : ∀ row, Aged read row → row.Fine w.clock → Aged row (write row) ∧ (write row).status = .responded ∧ (write row).responseSha = some sha ∧ (write row).conversationId = row.conversationId) :
    w.Hears settings action { w with
      table := w.table.map fun event => if event.seq = read.seq then write event else event
      recorded := w.recorded ++ [(read.eventId, sha)]
      acked, calls := Function.update w.calls call none } call [(read.eventId, sha)] := by
  obtain ⟨hCopied, hId⟩ : w.Copied read ∧ read.eventId = post.eventId := by
    have hHolds := (hSound.stages call stage hStage).2
    cases stage <;> simp only [Stage.answers, reduceCtorEq, Option.some.injEq, Prod.mk.injEq] at hAnswers
    all_goals
      obtain ⟨rfl, rfl⟩ := hAnswers
      exact ⟨hHolds.1, hHolds.2.2⟩
  refine ⟨fun row hRow => ?_, rfl, le_rfl, rfl, fun record hRecord => ?_, List.Subset.refl _, fun _ hTold => .inl hTold,
    fun post hPost => (hAcked post hPost).imp_right .inl, fun other hOther => Function.update_of_ne hOther _ _,
    fun _ _ _ hAfter => by simp at hAfter, fun _ _ hAfter => by simp at hAfter⟩
  · obtain ⟨event, hEvent, rfl⟩ := List.mem_map.mp hRow
    split
    · rename_i hSeq
      have hAged := hCopied.aged event hEvent hSeq
      obtain ⟨hNext, hStatus, hDigest, hConversation⟩ := hWrite event hAged (hSound.fine event hEvent)
      have hSame : (write event).eventId = read.eventId := hNext.eventId.trans hAged.eventId
      refine ⟨event, hEvent, hNext, .inr ⟨hStatus, sha, hDigest, ⟨_, List.mem_singleton_self _, hSame.symm⟩, ?_⟩, fun _ => .inl hConversation⟩
      intro record hRecord _
      rw [List.mem_singleton.mp hRecord]
    · rename_i hSeq
      refine ⟨event, hEvent, .refl event, .inl ⟨fun record hRecord hSame => hSeq ?_, rfl, rfl⟩, fun _ => .inl rfl⟩
      -- the event that was read has one row, which is there
      obtain rfl := List.mem_singleton.mp hRecord
      obtain ⟨row, hRow, hRowSeq⟩ := hThere
      rw [← hRowSeq, hSound.ids hEvent hRow (hSame.symm.trans (hCopied.aged row hRow hRowSeq).eventId.symm)]
  · obtain rfl := List.mem_singleton.mp hRecord
    obtain ⟨item, hItem, -, hSame⟩ := hCopied.source
    refine ⟨⟨item, hItem, hSame⟩, hSha.imp_right fun ⟨before, hBefore, hDigest⟩ => ⟨post, before, hBefore, ?_⟩⟩
    rw [hId, hDigest]

theorem hears_adopt {delivered : Bool} {post : Post} {read : Event δ} (hStage : w.calls call = some (.reading post read)) :
    w.Hears settings (.advance call delivered) (w.adopt call post read) call [] := by
  unfold World.adopt
  split
  · exact hears_goes hStage rfl rfl (List.Subset.refl _) (fun _ hTold => .inl hTold) fun _ _ hNext => by cases hNext
  · rename_i key hKey
    split
    · exact hears_ends fun _ hPost => .inl hPost
    · rename_i next hNext
      obtain rfl := update_eq_some hNext
      have hBlank : read.conversationId.getD "" = "" := by
        by_contra hSet
        rw [Post.adopts, if_neg hSet] at hKey
        cases hKey
      refine ⟨fun row hRow => ?_, rfl, le_rfl, (List.append_nil _).symm, by simp, List.Subset.refl _,
        fun _ hTold => .inl hTold, fun _ hPost => .inl hPost, fun other hOther => Function.update_of_ne hOther _ _,
        fun after last seen hAfter hSeen => ?_, fun _ _ hAfter => by simp [World.enter] at hAfter⟩
      · obtain ⟨event, hEvent, rfl⟩ := List.mem_map.mp hRow
        refine ⟨event, hEvent, ?_, .inl ⟨by simp, ?_, ?_⟩, fun hCurrent => ?_⟩
        · split
          · exact ⟨rfl, rfl, rfl, rfl, rfl, rfl, rfl, .inl ⟨rfl, rfl⟩, id⟩
          · exact .refl event
        · split <;> rfl
        · split <;> rfl
        · simp only [World.Current, hStage] at hCurrent
          split
          · rename_i hSeq
            exact .inr (hCurrent event hEvent hSeq ▸ hBlank)
          · exact .inl rfl
      · have hAfter : Stage.adopted post { read with conversationId := some key } = after := by
          simpa [World.enter] using hAfter
        subst hAfter
        obtain ⟨rfl, rfl⟩ := Prod.mk.inj (Option.some.inj hSeen)
        exact .inr ⟨_, read, hStage, rfl, rfl, rfl, rfl⟩

variable [DecidableEq δ]

theorem Sound.hears_answer {call : ℕ} {delivered : Bool} {post : Post} {read : Event δ} (h : w.Sound)
    (hStage : w.calls call = some (.adopted post read)) :
    ∃ new, w.Hears settings action (w.answer settings call post read delivered) call new := by
  have hFine := (h.stages call _ hStage).2.2.1
  unfold World.answer acknowledge
  split
  · rename_i hNoted
    have hAcked : ∀ other ∈ w.acked ++ [post], other ∈ w.acked ∨ other.status = "noted" := by
      intro other hOther
      rcases List.mem_append.mp hOther with hOld | hNew
      · exact .inl hOld
      · exact .inr (List.mem_singleton.mp hNew ▸ hNoted)
    split
    · exact ⟨[], hears_ends fun other hOther => (hAcked other hOther).imp_right .inl⟩
    · rename_i hOpen
      split
      · exact ⟨[], hears_ends fun _ hPost => .inl hPost⟩
      · rename_i next hNext
        have hThere := mem_of_update hNext
        obtain rfl := update_eq_some hNext
        have hQueued : read.status = .queued := by
          cases hStatus : read.status with
          | queued => rfl
          | responded => exact absurd hStatus hOpen
        exact ⟨_, hears_records h hStage rfl hThere (.inl rfl) hAcked fun row hAged _ =>
          ⟨aged_close hAged, close_status hQueued, close_sha hFine hQueued, rfl⟩⟩
  · split
    · rename_i hSame
      refine ⟨[], hears_ends fun other hOther => ?_⟩
      rcases List.mem_append.mp hOther with hOld | hNew
      · exact .inl hOld
      · obtain rfl := List.mem_singleton.mp hNew
        exact .inr (.inr ⟨read, hStage, hSame.2⟩)
    · rename_i hOther
      split
      · refine ⟨[], hears_goes hStage rfl rfl (List.subset_append_left _ _) (fun told hTold => ?_) fun last seen hNext => ?_⟩
        · rcases List.mem_append.mp hTold with hOld | hNew
          · exact .inl hOld
          · exact .inr ⟨post, read, List.mem_singleton.mp hNew, hStage, hOther⟩
        · obtain ⟨rfl, rfl⟩ := Stage.forwarded.inj hNext
          exact List.mem_append_right _ (List.mem_singleton_self _)
      · exact ⟨[], hears_ends fun _ hPost => .inl hPost⟩

theorem Sound.hears_record {call : ℕ} {post : Post} {read : Event δ} (h : w.Sound)
    (hStage : w.calls call = some (.forwarded post read))
    (hOther : ¬(read.status = .responded ∧ some (settings.sha post.body) = read.responseSha)) :
    ∃ new, w.Hears settings action (w.record settings call post read) call new := by
  have hFine := (h.stages call _ hStage).2.2.1
  unfold World.record
  split
  · exact ⟨[], hears_ends fun _ hPost => .inl hPost⟩
  · dsimp only
    split
    · exact ⟨[], hears_ends fun _ hPost => .inl hPost⟩
    · rename_i next hNext
      have hThere := mem_of_update hNext
      obtain rfl := update_eq_some hNext
      refine ⟨_, hears_records h hStage rfl hThere (.inr ⟨read, hStage, rfl⟩) (fun _ hPost => .inl hPost) fun row hAged _ => ?_⟩
      cases hStatus : read.status with
      | queued =>
          rw [if_neg (by simp)]
          exact ⟨aged_close hAged, close_status hStatus, close_sha hFine hStatus, rfl⟩
      | responded =>
          rw [if_pos rfl]
          exact ⟨aged_speak, hAged.status hStatus, speak_sha fun hSame => hOther ⟨hStatus, hSame⟩, rfl⟩

theorem Sound.hears_expire {call now : ℕ} {rows : List (Event δ)} (h : w.Sound)
    (hStage : w.calls call = some (.sweeping rows now)) :
    ∃ new, w.Hears settings action (w.expire settings call rows now) call new := by
  obtain ⟨hRows, -⟩ := (h.stages call _ hStage).2
  unfold World.expire
  split
  · rename_i hThere
    refine ⟨rows.map fun read => (read.eventId, settings.sha ""), fun row hRow => ?_, rfl, le_rfl, rfl, fun record hRecord => ?_,
      List.Subset.refl _, fun _ hTold => .inl hTold, fun _ hPost => .inl hPost,
      fun other hOther => Function.update_of_ne hOther _ _, fun after last seen hAfter hSeen => ?_,
      fun _ _ hAfter => by simp [World.enter] at hAfter⟩
    · obtain ⟨event, hEvent, rfl⟩ := List.mem_map.mp hRow
      have hAged := (@swept δ w _ rows now (settings.sha "") h hRows event hEvent).1
      split
      · rename_i read hFind
        rw [hFind] at hAged
        have hMem := List.mem_of_find?_eq_some hFind
        obtain ⟨hCopied, hFine, hQueued⟩ := hRows read hMem
        have hSeq : read.seq = event.seq := by simpa using List.find?_some hFind
        have hId := (hCopied.aged event hEvent hSeq.symm).eventId
        refine ⟨event, hEvent, hAged, .inr ⟨close_status hQueued, _, close_sha hFine hQueued, ?_, ?_⟩, fun _ => .inl rfl⟩
        · exact ⟨_, List.mem_map_of_mem hMem, hId.symm⟩
        · intro record hRecord _
          obtain ⟨other, -, rfl⟩ := List.mem_map.mp hRecord
          rfl
      · rename_i hFind
        refine ⟨event, hEvent, .refl event, .inl ⟨fun record hRecord hSame => ?_, rfl, rfl⟩, fun _ => .inl rfl⟩
        obtain ⟨read, hMem, rfl⟩ := List.mem_map.mp hRecord
        obtain ⟨row, hRow, hRowSeq⟩ := List.mem_map.mp (hThere read hMem)
        have hSameRow := h.ids hEvent hRow (hSame.symm.trans ((hRows read hMem).1.aged row hRow hRowSeq).eventId.symm)
        have hNone := List.find?_eq_none.mp hFind read hMem
        exact hNone (decide_eq_true (hSameRow ▸ hRowSeq.symm))
    · obtain ⟨read, hMem, rfl⟩ := List.mem_map.mp hRecord
      obtain ⟨item, hItem, -, hSame⟩ := (hRows read hMem).1.source
      exact ⟨⟨item, hItem, hSame⟩, .inl rfl⟩
    · have hAfter : Stage.collecting now = after := by simpa [World.enter] using hAfter
      subst hAfter
      cases hSeen
  · exact ⟨[], hears_ends fun _ hPost => .inl hPost⟩

omit [DecidableEq δ] in
theorem hears_collect (call now : ℕ) : w.Hears settings action (w.collect call now) call [] where
  table := by
    intro row hRow
    obtain ⟨event, hEvent, rfl⟩ := List.mem_map.mp hRow
    refine ⟨event, List.mem_of_mem_filter hEvent, ?_, .inl ⟨by simp, ?_, ?_⟩, fun _ => .inl ?_⟩
    · split
      · exact aged_stripped event
      · exact .refl event
    · split <;> rfl
    · split <;> rfl
    · split <;> rfl
  committed := rfl
  started := le_rfl
  recorded := (List.append_nil _).symm
  source := by simp
  forwards := List.Subset.refl _
  forwarded := fun _ hTold => .inl hTold
  acked := fun _ hPost => .inl hPost
  others := fun other hOther => Function.update_of_ne hOther _ _
  stage := by
    intro after last seen hAfter
    simp [World.collect, World.leave] at hAfter
  told := by
    intro last seen hAfter
    simp [World.collect, World.leave] at hAfter

/-- What a step is to the responses: the commit of a new row, or of one in place of
another, or what it does with the rows that are there. -/
inductive Heeds (settings : Settings δ) (w : World δ) (action : Action) (later : World δ) : Prop where
  | hears (call : ℕ) (new : List (String × δ)) (hHears : w.Hears settings action later call new)
  | mints (call : ℕ) (event : Event δ) (hStage : w.calls call = some (.minted event)) (hLater : later = w.commit call event)
  | merges (call : ℕ) (delivered : Bool) (hAction : action = .advance call delivered) (item : Item) (group : String)
      (attempts : ℕ) (existing : Event δ) (seq : ℕ) (hStage : w.calls call = some (.merging item group attempts existing seq))
      (hSwaps : w.swaps existing = true) (hLater : later = w.swap call item group attempts existing seq)

omit [DecidableEq δ] in
theorem hears_seek (call attempts : ℕ) (item : Item) (group : String) :
    w.Hears settings action (w.seek call item group attempts) call [] := by
  have hMinting : w.Hears settings action (w.enter call (.minting item)) call [] :=
    hears_quiet le_rfl fun next hNext => Option.some.inj hNext ▸ rfl
  cases attempts with
  | zero => exact hMinting
  | succ attempts =>
      dsimp only [World.seek]
      split
      · exact hMinting
      · split
        · exact hears_quiet le_rfl fun _ hNone => by cases hNone
        · exact hears_quiet le_rfl fun next hNext => Option.some.inj hNext ▸ rfl

/-- What holds of all that was recorded, forwarded and acknowledged. -/
structure Heard (settings : Settings δ) (w : World δ) : Prop where
  spoken : ∀ record ∈ w.recorded, record.2 = settings.sha "" ∨ ∃ told ∈ w.forwards,
    told.2.1.eventId = record.1 ∧ settings.sha told.2.1.body = record.2
  known : ∀ record ∈ w.recorded, ∃ item ∈ w.committed, item.2.eventId = record.1
  closed : ∀ record ∈ w.recorded, ∀ row ∈ w.table, row.eventId = record.1 → row.status = .responded
  responded : ∀ row ∈ w.table, row.status = .responded → ∃ record ∈ w.recorded, record.1 = row.eventId
  last : ∀ row ∈ w.table, row.responseSha = lastOf w.recorded row.eventId
  calls : ∀ told ∈ w.forwards, told.1 < w.started
  reads : ∀ call stage post read, w.calls call = some stage → stage.answers = some (post, read) →
    ∀ sha, read.responseSha = some sha → (read.eventId, sha) ∈ w.recorded
  told : ∀ call post read, w.calls call = some (.forwarded post read) → (call, post, read) ∈ w.forwards
  other : ∀ told ∈ w.forwards,
    ¬(told.2.2.status = .responded ∧ some (settings.sha told.2.1.body) = told.2.2.responseSha)
  acked : ∀ post ∈ w.acked, post.status = "noted" ∨ settings.sha post.body = settings.sha "" ∨
    ∃ told ∈ w.forwards, told.2.1.eventId = post.eventId ∧ settings.sha told.2.1.body = settings.sha post.body

omit [DecidableEq δ] in
theorem heard_empty : Heard settings {} where
  spoken := by simp
  known := by simp
  closed := by simp
  responded := by simp
  last := by simp
  calls := by simp
  reads := by simp
  told := by simp
  other := by simp
  acked := by simp

theorem Sound.heeds (h : w.Sound) (hHeard : w.Heard settings) (hStep : w.step settings action = some later) :
    w.Heeds settings action later := by
  have hBegin : ∀ {drawn : List String} {stage : Stage δ}, stage.answers = none →
      w.Heeds settings action (World.start { w with drawn } stage) := fun hNone =>
    .hears w.started [] (hears_quiet (Nat.le_succ _) fun next hNext => Option.some.inj hNext ▸ hNone)
  have hIdle : ∀ {clock cursor : ℕ} {poll : Option (Poll δ)} {returned : List (Event δ)},
      w.Heeds settings action { w with clock, poll, cursor, returned } := by
    intro clock cursor poll returned
    have hSame : Function.update w.calls w.started none = w.calls := by
      have hNone : w.calls w.started = none := by
        cases hStage : w.calls w.started with
        | none => rfl
        | some stage => exact absurd (h.stages w.started stage hStage).1 (lt_irrefl _)
      rw [← hNone, Function.update_eq_self]
    have hQuiet := @hears_quiet δ settings w action w.started w.nextSeq clock w.started cursor w.drawn poll returned none le_rfl
      fun _ hNone => by cases hNone
    rw [hSame] at hQuiet
    exact .hears w.started [] hQuiet
  cases action with
  | tick now =>
      dsimp only [World.step] at hStep
      split at hStep
      · obtain rfl := Option.some.inj hStep
        exact hIdle
      · cases hStep
  | enqueue item =>
      dsimp only [World.step] at hStep
      split at hStep
      · cases hStep
      · obtain rfl := Option.some.inj hStep
        refine hBegin ?_
        split <;> rfl
  | respond post =>
      obtain ⟨event, hFind, rfl⟩ := Option.map_eq_some_iff.mp hStep
      refine .hears w.started [] ⟨fun row hRow => ⟨row, hRow, .refl row, .inl ⟨by simp, rfl, rfl⟩, fun _ => .inl rfl⟩, rfl,
        Nat.le_succ _, (List.append_nil _).symm, by simp, List.Subset.refl _, fun _ hTold => .inl hTold,
        fun _ hPost => .inl hPost, fun other hOther => Function.update_of_ne hOther _ _,
        fun after last seen hAfter hSeen => .inl ⟨rfl, ?_⟩, fun _ _ hAfter => by simp [World.start, World.enter] at hAfter⟩
      have hAfter : Stage.reading post event = after := by simpa [World.start, World.enter] using hAfter
      subst hAfter
      obtain ⟨-, rfl⟩ := Prod.mk.inj (Option.some.inj hSeen)
      exact List.mem_of_find?_eq_some hFind
  | gc =>
      obtain rfl := Option.some.inj hStep
      refine hBegin ?_
      split <;> rfl
  | advance call delivered =>
      obtain ⟨stage, hStage, rfl⟩ := Option.map_eq_some_iff.mp hStep
      cases stage with
      | seeking item group attempts => exact .hears call [] (hears_seek ..)
      | merging item group attempts existing seq =>
          cases hSwaps : w.swaps existing with
          | true => exact .merges call delivered rfl item group attempts existing seq hStage hSwaps rfl
          | false =>
              dsimp only [World.advance, World.swap]
              rw [if_neg (by simp [hSwaps])]
              exact .hears call [] (hears_quiet le_rfl fun next hNext => Option.some.inj hNext ▸ rfl)
      | minting item => exact .hears call [] (hears_quiet le_rfl fun next hNext => Option.some.inj hNext ▸ rfl)
      | minted event => exact .mints call event hStage rfl
      | reading post read => exact .hears call [] (hears_adopt hStage)
      | adopted post read =>
          obtain ⟨new, hHears⟩ := @Sound.hears_answer δ settings w (.advance call delivered) _ call delivered post read h hStage
          exact .hears call new hHears
      | forwarded post read =>
          obtain ⟨new, hHears⟩ := @Sound.hears_record δ settings w (.advance call delivered) _ call post read h hStage
            (hHeard.other _ (hHeard.told call post read hStage))
          exact .hears call new hHears
      | sweeping rows now =>
          obtain ⟨new, hHears⟩ := @Sound.hears_expire δ settings w (.advance call delivered) _ call now rows h hStage
          exact .hears call new hHears
      | collecting now => exact .hears call [] (hears_collect call now)
  | drop call =>
      obtain rfl := Option.some.inj hStep
      exact .hears call [] (hears_quiet le_rfl fun _ hNone => by cases hNone)
  | poll =>
      dsimp only [World.step] at hStep
      split at hStep
      · obtain rfl := Option.some.inj hStep
        exact hIdle
      · cases hStep
  | fetch =>
      dsimp only [World.step] at hStep
      split at hStep
      · obtain rfl := Option.some.inj hStep
        exact hIdle
      · obtain rfl := Option.some.inj hStep
        exact hIdle
      · cases hStep
  | deliver =>
      dsimp only [World.step] at hStep
      split at hStep
      · obtain rfl := Option.some.inj hStep
        exact hIdle
      · cases hStep
  | lose =>
      obtain rfl := Option.some.inj hStep
      exact hIdle

end World

end Brnrd.Inbox
