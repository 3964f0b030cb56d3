import Brnrd.Inbox.Responses

/-! A response is acknowledged when it was said: the laws of `record_response` over every
interleaving of its steps with merges and with the sweep. -/
namespace Brnrd.Inbox

variable {δ : Type} [DecidableEq δ]

namespace World

variable {settings : Settings δ} {w later : World δ} {action : Action}

omit [DecidableEq δ] in
theorem Heard.hears {call : ℕ} {new : List (String × δ)} (h : w.Heard settings) (hSound : w.Sound)
    (hHears : w.Hears settings action later call new) : later.Heard settings := by
  have hId : ∀ other stage post read, w.calls other = some stage → stage.answers = some (post, read) →
      read.eventId = post.eventId := by
    intro other stage post read hStage hAnswers
    have hHolds := (hSound.stages other stage hStage).2
    cases stage <;> simp only [Stage.answers, reduceCtorEq, Option.some.injEq, Prod.mk.injEq] at hAnswers
    all_goals
      obtain ⟨rfl, rfl⟩ := hAnswers
      exact hHolds.2.2
  refine ⟨fun record hRecord => ?_, fun record hRecord => ?_, fun record hRecord row hRow hSame => ?_,
    fun row hRow hStatus => ?_, fun row hRow => ?_, fun told hTold => ?_,
    fun other stage post read hStage hAnswers sha hSha => ?_, fun other post read hStage => ?_, fun told hTold => ?_,
    fun post hPost => ?_⟩
  · rw [hHears.recorded] at hRecord
    rcases List.mem_append.mp hRecord with hOld | hNew
    · exact (h.spoken record hOld).imp_right (Exists.imp fun _ => And.imp_left fun h => hHears.forwards h)
    · refine (hHears.source record hNew).2.imp_right fun hSaid => ?_
      obtain ⟨post, read, hStage, hEq⟩ := hSaid
      exact ⟨_, hHears.forwards (h.told call post read hStage), by rw [hEq], by rw [hEq]⟩
  · rw [hHears.recorded] at hRecord
    rw [hHears.committed]
    rcases List.mem_append.mp hRecord with hOld | hNew
    · exact h.known record hOld
    · exact (hHears.source record hNew).1
  · rw [hHears.recorded] at hRecord
    obtain ⟨old, hOld, hAged, hDigest, -⟩ := hHears.table row hRow
    rcases hDigest with ⟨hNone, -⟩ | ⟨hStatus, -⟩
    · rcases List.mem_append.mp hRecord with hBefore | hNew
      · exact hAged.status (h.closed record hBefore old hOld (hAged.eventId.symm.trans hSame))
      · exact absurd hSame.symm (hNone record hNew)
    · exact hStatus
  · obtain ⟨old, hOld, hAged, hDigest, -⟩ := hHears.table row hRow
    rw [hHears.recorded]
    rcases hDigest with ⟨-, hSame, -⟩ | ⟨-, -, -, ⟨record, hRecord, hId⟩, -⟩
    · obtain ⟨record, hRecord, hId⟩ := h.responded old hOld (hSame.symm.trans hStatus)
      exact ⟨record, List.mem_append_left _ hRecord, hId.trans hAged.eventId.symm⟩
    · exact ⟨record, List.mem_append_right _ hRecord, hId⟩
  · obtain ⟨old, hOld, hAged, hDigest, -⟩ := hHears.table row hRow
    rw [hHears.recorded, lastOf_append]
    rcases hDigest with ⟨hNone, -, hSame⟩ | ⟨-, sha, hSha, hSome, hAll⟩
    · rw [lastOf_eq_none hNone, Option.none_or, hSame, h.last old hOld, hAged.eventId]
    · rw [lastOf_eq_some hSome hAll, Option.some_or, hSha]
  · rcases hHears.forwarded told hTold with hOld | ⟨post, read, rfl, hStage, -⟩
    · exact (h.calls told hOld).trans_le hHears.started
    · exact (hSound.stages call _ hStage).1.trans_le hHears.started
  · rw [hHears.recorded]
    refine List.mem_append_left _ ?_
    by_cases hOther : other = call
    · subst hOther
      rcases hHears.stage stage post read hStage hAnswers with ⟨-, hRow⟩ | ⟨old, before, hOld, hBefore, hSameId, -, hSameSha⟩
      · exact mem_of_lastOf ((h.last read hRow).symm.trans hSha)
      · rw [hSameId]
        exact h.reads other old post before hOld hBefore sha (hSameSha ▸ hSha)
    · rw [hHears.others other hOther] at hStage
      exact h.reads other stage post read hStage hAnswers sha hSha
  · by_cases hOther : other = call
    · subst hOther
      exact hHears.told post read hStage
    · rw [hHears.others other hOther] at hStage
      exact hHears.forwards (h.told other post read hStage)
  · rcases hHears.forwarded told hTold with hOld | ⟨post, read, rfl, -, hFresh⟩
    · exact h.other told hOld
    · exact hFresh
  · rcases hHears.acked post hPost with hOld | hNoted | ⟨read, hStage, hSame⟩
    · exact (h.acked post hOld).imp_right (Or.imp_right (Exists.imp fun _ => And.imp_left fun h => hHears.forwards h))
    · exact .inl hNoted
    · have hRecord := h.reads call _ post read hStage rfl _ hSame.symm
      refine .inr ((h.spoken _ hRecord).imp_right (Exists.imp fun told => And.imp (fun h => hHears.forwards h) (And.imp_left fun hEvent => ?_)))
      exact hEvent.trans (hId call _ post read hStage rfl)

omit [DecidableEq δ] in
/-- The commit of a row of an event for which nothing was recorded. -/
theorem Heard.commits {call : ℕ} {rows : List (Event δ)} {new : Event δ} (h : w.Heard settings)
    (hRows : ∀ row ∈ rows, row ∈ w.table) (hNone : ∀ record ∈ w.recorded, record.1 ≠ new.eventId)
    (hQueued : new.status = .queued) (hSha : new.responseSha = none) :
    (leave { w with table := rows ++ [new], committed := w.committed ++ [(call, new)] } call).Heard settings := by
  have hCalls : ∀ other stage, (leave { w with table := rows ++ [new], committed := w.committed ++ [(call, new)] } call).calls
      other = some stage → w.calls other = some stage := by
    intro other stage hStage
    by_cases hOther : other = call
    · subst hOther
      simp [leave] at hStage
    · simpa [leave, hOther] using hStage
  refine ⟨h.spoken, fun record hRecord => ?_, fun record hRecord row hRow hSame => ?_, fun row hRow hStatus => ?_,
    fun row hRow => ?_, h.calls, fun other stage post read hStage => h.reads other stage post read (hCalls other stage hStage),
    fun other post read hStage => h.told other post read (hCalls other _ hStage), h.other, h.acked⟩
  · obtain ⟨item, hItem, hSame⟩ := h.known record hRecord
    exact ⟨item, List.mem_append_left _ hItem, hSame⟩
  · rcases List.mem_append.mp hRow with hOld | hNew
    · exact h.closed record hRecord row (hRows row hOld) hSame
    · obtain rfl := List.mem_singleton.mp hNew
      exact absurd hSame.symm (hNone record hRecord)
  · rcases List.mem_append.mp hRow with hOld | hNew
    · exact h.responded row (hRows row hOld) hStatus
    · obtain rfl := List.mem_singleton.mp hNew
      rw [hQueued] at hStatus
      cases hStatus
  · rcases List.mem_append.mp hRow with hOld | hNew
    · exact h.last row (hRows row hOld)
    · obtain rfl := List.mem_singleton.mp hNew
      exact hSha.trans (lastOf_eq_none hNone).symm

theorem Heard.step (h : w.Heard settings) (hSound : w.Sound) (hStep : w.step settings action = some later) :
    later.Heard settings := by
  cases hSound.heeds h hStep with
  | hears call new hHears => exact h.hears hSound hHears
  | mints call event hStage hLater =>
      subst hLater
      obtain ⟨hFine, hQueued⟩ := (hSound.stages call _ hStage).2
      obtain ⟨-, hApart, -⟩ := hSound.draws call _ event.eventId hStage rfl
      refine h.commits (fun _ hRow => hRow) (fun record hRecord hSame => ?_) hQueued (hFine.queued hQueued).2.2.2.2
      obtain ⟨item, hItem, hId⟩ := h.known record hRecord
      exact (hApart item hItem).1 (hId.trans hSame)
  | merges call delivered hAction item group attempts existing seq hStage hSwaps hLater =>
      subst hLater
      obtain ⟨hCopied, hFine, hQueued, hBody⟩ := (hSound.stages call _ hStage).2
      obtain ⟨row, hRow, hAged, -, -, -, hOpen⟩ := hSound.swapped hCopied hBody hSwaps
      unfold World.swap
      rw [if_pos hSwaps]
      refine @Heard.commits δ settings w call _ (item.replacement existing seq) h
        (fun other hOther => List.mem_of_mem_filter hOther) (fun record hRecord hSame => ?_) hQueued (hFine.queued hQueued).2.2.2.2
      have hClosed := h.closed record hRecord row hRow (hAged.eventId.trans hSame.symm)
      rw [hOpen] at hClosed
      cases hClosed

/-- What the responses have come to. -/
structure Answered (w : World δ) : Prop where
  /-- What was acknowledged with nothing forwarded is a note, is empty, or was said. -/
  said : ∀ post ∈ w.acked, post.status = "noted" ∨ post.body = "" ∨
    ∃ told ∈ w.forwards, told.2.1.eventId = post.eventId ∧ told.2.1.body = post.body
  empty : ∀ row ∈ w.table, row.status = .responded → row.body = none ∧ row.attachments = []

/-- The conversation of each event that has one is what it was. -/
def Keeps (w later : World δ) : Prop :=
  ∀ row ∈ w.table, ∀ key, row.conversationId = some key → key ≠ "" → ∀ next ∈ later.table, next.eventId = row.eventId →
    next.conversationId = some key

/-- What was acknowledged with nothing forwarded is a note, is empty or was said; an event
that is closed stays closed; a post that begins while its body is the last that was
recorded for its event is not forwarded; and a conversation that is set stays as it is
where a response that adopts one, or a merge, finds it as it has read it. -/
structure Lawful (settings : Settings δ) (w : World δ) : Prop where
  answered : w.Answered
  closed : ∀ row ∈ w.table, row.status = .responded →
    ∀ final, Machine.Reach (World.step settings) (fun _ _ => True) w final →
      ∀ next ∈ final.table, next.eventId = row.eventId → next.status = .responded
  once : ∀ post later final, lastOf w.recorded post.eventId = some (settings.sha post.body) →
    w.step settings (.respond post) = some later → Machine.Reach (World.step settings) (fun _ _ => True) later final →
      ∀ told ∈ final.forwards, told.1 ≠ w.started
  keeps : ∀ action later, w.Current action → w.step settings action = some later → w.Keeps later

/-- A call that has read its event closed with the digest of its own body, and has
forwarded nothing. -/
structure Quiet (settings : Settings δ) (w : World δ) (call : ℕ) : Prop where
  silent : ∀ told ∈ w.forwards, told.1 ≠ call
  began : call < w.started
  reads : ∀ stage post read, w.calls call = some stage → stage.answers = some (post, read) →
    read.status = .responded ∧ some (settings.sha post.body) = read.responseSha

theorem Heard.keeps (h : w.Heard settings) (hSound : w.Sound) (hStep : w.step settings action = some later)
    (hCurrent : w.Current action) : w.Keeps later := by
  intro row hRow key hKey hSet next hNext hSame
  have hOnly : ∀ old ∈ w.table, old.eventId = row.eventId → old = row := fun old hOld hId => hSound.ids hOld hRow hId
  cases hSound.heeds h hStep with
  | hears call new hHears =>
      obtain ⟨old, hOld, hAged, -, hConversation⟩ := hHears.table next hNext
      obtain rfl := hOnly old hOld (hAged.eventId.symm.trans hSame)
      rcases hConversation hCurrent with hKept | hBlank
      · exact hKept.trans hKey
      · rw [hKey] at hBlank
        exact absurd hBlank hSet
  | mints call event hStage hLater =>
      subst hLater
      rcases List.mem_append.mp hNext with hOld | hNew
      · exact hOnly next hOld hSame ▸ hKey
      · obtain rfl := List.mem_singleton.mp hNew
        obtain ⟨item, hItem, -, hId⟩ := (hSound.copied row hRow).source
        exact absurd (hId.trans hSame.symm) ((hSound.draws call _ _ hStage rfl).2.1 item hItem).1
  | merges call delivered hAction item group attempts existing seq hStage hSwaps hLater =>
      subst hLater hAction
      obtain ⟨hCopied, -, -, hBody⟩ := (hSound.stages call _ hStage).2
      obtain ⟨there, hThere, hAged, hSeq, -⟩ := hSound.swapped hCopied hBody hSwaps
      simp only [Current, hStage] at hCurrent
      unfold World.swap at hNext
      rw [if_pos hSwaps] at hNext
      rcases List.mem_append.mp hNext with hOld | hNew
      · exact hOnly next (List.mem_of_mem_filter hOld) hSame ▸ hKey
      · obtain rfl := List.mem_singleton.mp hNew
        obtain rfl := hOnly there hThere (hAged.eventId.trans hSame)
        exact (hCurrent there hThere hSeq).symm.trans hKey

theorem Quiet.step {call : ℕ} (h : w.Quiet settings call) (hSound : w.Sound) (hHeard : w.Heard settings)
    (hStep : w.step settings action = some later) : later.Quiet settings call := by
  have hCommitted : ∀ other (table : List (Event δ)) committed, (leave { w with table, committed } other).Quiet settings call := by
    intro other table committed
    refine ⟨h.silent, h.began, fun stage post read hStage hAnswers => ?_⟩
    by_cases hSame : call = other
    · subst hSame
      simp [leave] at hStage
    · exact h.reads stage post read (by simpa [leave, hSame] using hStage) hAnswers
  cases hSound.heeds hHeard hStep with
  | hears other new hHears =>
      refine ⟨fun told hTold hSame => ?_, h.began.trans_le hHears.started, fun stage post read hStage hAnswers => ?_⟩
      · rcases hHears.forwarded told hTold with hOld | ⟨post, read, rfl, hStage, hFresh⟩
        · exact h.silent told hOld hSame
        · obtain rfl : other = call := hSame
          exact hFresh (h.reads _ post read hStage rfl)
      · by_cases hSame : call = other
        · subst hSame
          rcases hHears.stage stage post read hStage hAnswers with ⟨hNew, -⟩ | ⟨old, before, hOld, hBefore, -, hStatus, hSha⟩
          · exact absurd h.began (hNew ▸ lt_irrefl _)
          · rw [hStatus, hSha]
            exact h.reads old post before hOld hBefore
        · rw [hHears.others call hSame] at hStage
          exact h.reads stage post read hStage hAnswers
  | mints other event hStage hLater =>
      subst hLater
      exact hCommitted other _ _
  | merges other delivered hAction item group attempts existing seq hStage hSwaps hLater =>
      subst hLater
      unfold World.swap
      rw [if_pos hSwaps]
      exact hCommitted other _ _

/-- A post that begins while its body is the last that was recorded for its event. -/
theorem Heard.quiet {post : Post} (h : w.Heard settings)
    (hLast : lastOf w.recorded post.eventId = some (settings.sha post.body)) (hStep : w.step settings (.respond post) = some later) :
    later.Quiet settings w.started := by
  obtain ⟨event, hFind, rfl⟩ := Option.map_eq_some_iff.mp hStep
  have hMem := List.mem_of_find?_eq_some hFind
  have hSame : event.eventId = post.eventId ∧ event.repoId = post.repoId := by simpa using List.find?_some hFind
  refine ⟨fun told hTold => (h.calls told hTold).ne, Nat.lt_succ_self _, fun stage last read hStage hAnswers => ?_⟩
  have hStage : Stage.reading post event = stage := by simpa [World.start, World.enter] using hStage
  subst hStage
  obtain ⟨rfl, rfl⟩ := Prod.mk.inj (Option.some.inj hAnswers)
  refine ⟨h.closed _ (mem_of_lastOf hLast) event hMem hSame.1, ?_⟩
  rw [h.last event hMem, hSame.1, hLast]

theorem Heard.recorded_mono (h : w.Heard settings) (hSound : w.Sound) (hStep : w.step settings action = some later) :
    w.recorded ⊆ later.recorded := by
  cases hSound.heeds h hStep with
  | hears call new hHears =>
      rw [hHears.recorded]
      exact List.subset_append_left _ _
  | mints call event hStage hLater =>
      subst hLater
      exact List.Subset.refl _
  | merges call delivered hAction item group attempts existing seq hStage hSwaps hLater =>
      subst hLater
      unfold World.swap
      rw [if_pos hSwaps]
      exact List.Subset.refl _

omit [DecidableEq δ] in
theorem Heard.answered (h : w.Heard settings) (hSound : w.Sound) (hSha : Function.Injective settings.sha) : w.Answered where
  said := by
    intro post hPost
    rcases h.acked post hPost with hNoted | hEmpty | ⟨told, hTold, hEvent, hBody⟩
    · exact .inl hNoted
    · exact .inr (.inl (hSha hEmpty))
    · exact .inr (.inr ⟨told, hTold, hEvent, hSha hBody⟩)
  empty := fun row hRow hStatus => (hSound.fine row hRow).responded hStatus

end World

variable {settings : Settings δ}

theorem sound_and_heard {start w : World δ} (h : start.Sound ∧ start.Heard settings)
    (hReach : Machine.Reach (World.step settings) (fun _ _ => True) start w) : w.Sound ∧ w.Heard settings :=
  hReach.invariant (fun w => w.Sound ∧ w.Heard settings) h fun _ _ _ h _ hStep => ⟨h.1.step hStep, h.2.step h.1 hStep⟩

/-- In every interleaving of responses with each other, with merges and with the sweep. -/
theorem response_is_said (hSha : Function.Injective settings.sha) {w : World δ}
    (hReach : Machine.Reach (World.step settings) (fun _ _ => True) {} w) : w.Lawful settings := by
  obtain ⟨hSound, hHeard⟩ := sound_and_heard ⟨World.sound_empty, World.heard_empty⟩ hReach
  refine ⟨hHeard.answered hSound hSha, fun row hRow hStatus final hFinal next hNext hSame => ?_,
    fun post later final hLast hStep hFinal => ?_, fun action later hCurrent hStep => hHeard.keeps hSound hStep hCurrent⟩
  · obtain ⟨record, hRecord, hId⟩ := hHeard.responded row hRow hStatus
    have hBoth := hFinal.invariant (fun s => (s.Sound ∧ s.Heard settings) ∧ record ∈ s.recorded) ⟨⟨hSound, hHeard⟩, hRecord⟩
      fun _ _ _ h _ hStep => ⟨⟨h.1.1.step hStep, h.1.2.step h.1.1 hStep⟩, h.1.2.recorded_mono h.1.1 hStep h.2⟩
    exact hBoth.1.2.closed record hBoth.2 next hNext (hSame.trans hId.symm)
  · have hBoth := hFinal.invariant (fun s => (s.Sound ∧ s.Heard settings) ∧ s.Quiet settings w.started)
      ⟨⟨hSound.step hStep, hHeard.step hSound hStep⟩, hHeard.quiet hLast hStep⟩
      fun _ _ _ h _ hStep => ⟨⟨h.1.1.step hStep, h.1.2.step h.1.1 hStep⟩, h.2.step h.1.1 h.1.2 hStep⟩
    exact hBoth.2.silent

def replySettings : Settings String := ⟨id, ["r-1"], some 200, 0⟩

def reply (body status : String) : Post :=
  ⟨"r-1", "e-1", body, status, some "telegram:7:"⟩

/-- An event, and the calls that answer it one after the other. -/
def replies (posts : List Post) : List Action :=
  [.enqueue ⟨"r-1", "hello", "telegram", ⟨some "telegram", some "7", none, []⟩, [], none, "e-1"⟩, .advance 0 true, .advance 0 true] ++
    (posts.zipIdx 1).flatMap fun item => [.respond item.1, .advance item.2 true, .advance item.2 true, .advance item.2 true]

/-- A reply is sent, and its retry is acknowledged. -/
theorem reply_is_said : ∃ w : World String, w.Lawful replySettings ∧
    w.forwards.map (fun told => told.2.1.body) = ["hi"] ∧ w.acked = [reply "hi" "done"] := by
  have hRun : (Machine.follow (World.step replySettings) (fun _ _ => True) {}
      ((replies [reply "hi" "done", reply "hi" "done"]).dropLast)).any (fun w =>
        w.forwards.map (fun told => told.2.1.body) = ["hi"] ∧ w.acked = [reply "hi" "done"]) = true := by decide +kernel
  obtain ⟨w, hReached, hBoth⟩ := (Option.any_eq_true ..).mp hRun
  exact ⟨w, response_is_said Function.injective_id (.follow .refl hReached), of_decide_eq_true hBoth⟩

/-- A terminal reply that was recorded is forwarded again, where a continuation has spoken
in between. -/
theorem retry_is_forwarded : ∃ w later final : World String, Machine.Reach (World.step replySettings) (fun _ _ => True) {} w ∧
    ("e-1", replySettings.sha "hi") ∈ w.recorded ∧ w.step replySettings (.respond (reply "hi" "done")) = some later ∧
      Machine.Reach (World.step replySettings) (fun _ _ => True) later final ∧
        ∃ told ∈ final.forwards, told.1 = w.started ∧ told.2.1 = reply "hi" "done" := by
  have hRun : (Machine.follow (World.step replySettings) (fun _ _ => True) {}
      (replies [reply "hi" "done", reply "more" "processing"])).any (fun w =>
        ("e-1", replySettings.sha "hi") ∈ w.recorded &&
          (w.step replySettings (.respond (reply "hi" "done"))).any fun later =>
            (Machine.follow (World.step replySettings) (fun _ _ => True) later [.advance 3 true, .advance 3 true]).any fun final =>
              final.forwards.any fun told => told.1 = w.started && told.2.1 = reply "hi" "done") = true := by decide +kernel
  obtain ⟨w, hReached, hRest⟩ := (Option.any_eq_true ..).mp hRun
  rw [Bool.and_eq_true] at hRest
  obtain ⟨later, hStep, hLater⟩ := (Option.any_eq_true ..).mp hRest.2
  obtain ⟨final, hFinal, hTold⟩ := (Option.any_eq_true ..).mp hLater
  obtain ⟨told, hMem, hSame⟩ := List.any_eq_true.mp hTold
  rw [Bool.and_eq_true] at hSame
  exact ⟨w, later, final, .follow .refl hReached, of_decide_eq_true hRest.1, hStep, .follow .refl hFinal,
    told, hMem, of_decide_eq_true hSame.1, of_decide_eq_true hSame.2⟩

end Brnrd.Inbox
