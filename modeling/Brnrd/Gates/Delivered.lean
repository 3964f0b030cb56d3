import Brnrd.Gates.Passes

/-! The laws of the stream of replies over every interleaving of a run and a gate: order,
completeness and no row left behind. -/
namespace Brnrd.Gates.World

open Events (Text)

variable {ρ : Type} [DecidableEq ρ] {fenced : Bool} {w later : World ρ}

/-- A pass goes on when the rows advance and what it read still holds. -/
theorem StageOk.keep {stage : Stage} (h : w.StageOk stage) (hPartials : later.partials = w.partials) (hRows : RowsAdvance w later)
    (hFresh : ∀ pass, w.Fresh pass → later.Fresh pass) : later.StageOk stage := by
  cases stage with
  | idle => trivial
  | read pass => exact hFresh pass h
  | sending pass queue =>
      obtain ⟨hWas, hPassing⟩ := h
      refine ⟨hFresh pass hWas, hPassing.sorted, ?_, ?_, ?_⟩ <;> rw [hPartials]
      · exact hPassing.queued
      · exact fun item hItem hNot => (hPassing.closed item hItem hNot).imp_left hRows.closed
      · exact fun hDone item hItem hNot => hRows.closed (hPassing.last hDone item hItem hNot)

theorem Sound.wakes (h : w.Sound) (hPending : w.event.status = .pending) :
    ({ w with event := { w.event with status := .processing } } : World ρ).Sound := by
  have hSame : Advances w { w with event := { w.event with status := .processing } } := .refl rfl rfl rfl rfl
  refine ⟨h.disk.advance hSame, h.tried.same hSame rfl fun _ => ?_, h.covered.advance hSame (fun _ hMem => hMem) ?_ id,
    h.fenced.advance hSame rfl fun hDelivered => ?_, ⟨?_, h.ended.mark, ?_, h.ended.left⟩, ?_⟩
  · simp [hPending]
  · exact nofun
  · rw [hPending] at hDelivered
    cases hDelivered
  · rintro (hLeft | hLeft) <;> cases hLeft
  · exact nofun
  · refine StageOk.keep h.stage rfl hSame.rows fun pass hFresh => ⟨fun hDone => ?_, hFresh.suppressed⟩
    have hWas := hFresh.done hDone
    rw [hPending] at hWas
    cases hWas

/-- Steps that leave the carriers of before as they were, with their rows. -/
structure Keeps (w later : World ρ) : Prop where
  opens : ∀ c ∈ w.staged, later.isOpen c = w.isOpen c
  rows : ∀ r status, Entries.get r w.rows = some status → Entries.get r later.rows = some status
  attempts : later.attempts = w.attempts
  status : later.event.status = w.event.status
  suppressed : later.event.suppressed = w.event.suppressed
  facts : later.facts = w.facts
  stage : later.stage = w.stage
  before : later.before = w.before
  left : later.left = w.left

theorem Keeps.settled (h : Keeps w later) {c : Carrier ρ} (hSettled : w.Settled c) : later.Settled c := by
  rcases hSettled with hSent | ⟨r, hRow, status, hStatus, hNot⟩
  · exact .inl (h.attempts ▸ hSent)
  · exact .inr ⟨r, hRow, status, h.rows r status hStatus, hNot⟩

/-- What is behind a step that stages while the event is not done. -/
theorem Sound.keeps (h : w.Sound) (hKeeps : Keeps w later) (hNot : w.event.status ≠ .done) (hDisk : later.Disk)
    (hNumbers : w.staged.length ≤ later.staged.length)
    (hCarriers : ∀ c ∈ later.carriers, c ∈ w.carriers ∨ w.staged.length ≤ c.number)
    (hCovered : ∀ c ∈ later.staged, later.Settled c ∨ c ∈ later.carriers ∨ ∃ r ∈ c.row, ∃ other ∈ later.carriers, other.row = some r)
    (hSuppressed : w.event.suppressed = true → later.response = w.response)
    (hPartials : ∀ item ∈ later.partials, item ∈ w.partials ∨
      ((∀ old ∈ w.partials, old.1 < item.1) ∧ SendKey.interim (fileName item.1) ∉ w.facts))
    (hThere : ∀ item ∈ w.partials, item ∈ later.partials)
    (hTake : ∀ k ≤ w.staged.length, later.staged.take k = w.staged.take k) : later.Sound := by
  have hOld : ∀ item ∈ w.partials, later.isOpen item.2 = w.isOpen item.2 := fun item hItem =>
    hKeeps.opens item.2 (h.disk.there item.2 (mem_carriers.mpr (.inl ⟨item, hItem, rfl⟩)))
  have hFresh : ∀ {pass : Pass}, w.Fresh pass → later.Fresh pass := fun hFresh =>
    ⟨hKeeps.status ▸ hFresh.done, hKeeps.suppressed ▸ hFresh.suppressed⟩
  refine ⟨hDisk, ⟨?_, hKeeps.attempts ▸ h.tried.ordered, ?_⟩, ⟨hCovered, ?_, ?_⟩, ⟨?_, ?_⟩, ⟨?_, ?_, ?_, hKeeps.left ▸ h.ended.left⟩, ?_⟩
  · rw [hKeeps.attempts]
    exact fun attempt hAttempt => (h.tried.numbers attempt hAttempt).trans_le hNumbers
  · rw [hKeeps.attempts, hKeeps.status]
    intro hActive attempt hAttempt c hC hOpen
    rcases hCarriers c hC with hWas | hNew
    · rw [hKeeps.opens c (h.disk.there c hWas)] at hOpen
      exact h.tried.ahead hActive attempt hAttempt c hWas hOpen
    · have hLess := (h.tried.numbers attempt hAttempt).trans_le hNew
      exact ⟨Nat.le_of_lt hLess, fun _ => hLess⟩
  · rw [hKeeps.status]
    exact fun hDone => absurd hDone hNot
  · rw [hKeeps.suppressed]
    intro hFlag c hC
    rw [hSuppressed hFlag] at hC
    rw [hKeeps.opens c (h.disk.there c (mem_carriers.mpr (.inr hC)))]
    exact h.covered.suppressed hFlag c hC
  · rw [hKeeps.facts]
    intro item hItem hOpen
    rcases hPartials item hItem with hWas | ⟨-, hNew⟩
    · rw [hOld item hWas] at hOpen
      exact h.fenced.interim item hWas hOpen
    · exact hNew
  · rw [hKeeps.facts, hKeeps.status]
    exact h.fenced.terminal
  · rw [hKeeps.status, hKeeps.stage]
    exact h.ended.idle
  · rw [hKeeps.before]
    exact fun k hK => (h.ended.mark k hK).trans hNumbers
  · rw [hKeeps.status, hKeeps.before]
    intro hDelivered k hK c hC
    rw [hTake k (h.ended.mark k hK)] at hC
    exact hKeeps.settled (h.ended.whole hDelivered k hK c hC)
  · have hOk := h.stage
    rw [hKeeps.stage]
    revert hOk
    cases w.stage with
    | idle => exact fun _ => trivial
    | read pass => exact fun hOk => hFresh hOk
    | sending pass queue =>
        rintro ⟨hWas, hPassing⟩
        have hQueued : ∀ seq ∈ queue, ∃ item ∈ w.partials, item.1 = seq := fun seq hSeq => by
          simpa using hPassing.queued seq hSeq
        refine ⟨hFresh hWas, hPassing.sorted, fun seq hSeq => ?_, fun item hItem hFree => ?_, fun hDone => ?_⟩
        · obtain ⟨item, hItem, rfl⟩ := hQueued seq hSeq
          exact List.mem_map_of_mem (hThere item hItem)
        · rcases hPartials item hItem with hMem | ⟨hNew, -⟩
          · rw [hOld item hMem]
            exact hPassing.closed item hMem hFree
          · refine .inr fun seq hSeq => ?_
            obtain ⟨old, hOldItem, rfl⟩ := hQueued seq hSeq
            exact hNew old hOldItem
        · exact absurd (hWas.done hDone) hNot

theorem Sound.stages (h : w.Sound) {row : ρ} (hNew : Entries.get row w.rows = none) (hNot : w.event.status ≠ .done) :
    ({ w with rows := w.rows ++ [(row, .pending)] } : World ρ).Sound := by
  have hGet : ∀ r, Entries.get r (w.rows ++ [(row, .pending)]) = if row = r then some .pending else Entries.get r w.rows := by
    intro r
    rw [← Entries.set_new hNew, Entries.get_set]
  have hOther : ∀ c ∈ w.staged, c.row ≠ some row := by
    intro c hC hRow
    have hSome := h.disk.rowed c hC row hRow
    simp [hNew] at hSome
  have hRows : ∀ r status, Entries.get r w.rows = some status →
      Entries.get r (w.rows ++ [(row, RowStatus.pending)]) = some status := by
    intro r status hStatus
    rw [hGet, if_neg]
    · exact hStatus
    · rintro rfl
      rw [hNew] at hStatus
      cases hStatus
  have hKeeps : Keeps w { w with rows := w.rows ++ [(row, .pending)] } := by
    refine ⟨fun c hC => ?_, hRows, rfl, rfl, rfl, rfl, rfl, rfl, rfl⟩
    have hNe := hOther c hC
    simp only [isOpen, hGet]
    cases hRow : c.row with
    | none => rfl
    | some r =>
        have hDiffer : row ≠ r := fun hSame => hNe (by rw [hRow, hSame])
        simp [hDiffer]
  refine h.keeps hKeeps hNot ⟨h.disk.order, h.disk.small, h.disk.texts, h.disk.response, h.disk.staged, h.disk.there, ?_⟩
    (Nat.le_refl _) (fun c hC => .inl hC) (fun c hC => (h.covered.carriers c hC).imp_left hKeeps.settled) (fun _ => rfl)
    (fun item hItem => .inl hItem) (fun item hItem => hItem) fun k _ => rfl
  intro c hC r hRow
  obtain ⟨status, hStatus⟩ := Option.isSome_iff_exists.mp (h.disk.rowed c hC r hRow)
  rw [hRows r status hStatus]
  rfl

theorem Sound.writesPartial (h : w.Sound) {text : Text} {row : Option ρ} (hAllowed : w.Allowed fenced (.writePartial text row)) :
    (w.writePartial text row).Sound := by
  obtain ⟨hNot, hText, hNone, hRow, hSmall, hFact⟩ := hAllowed
  have hCarriers : ∀ c, c ∈ (w.writePartial text row).carriers ↔ c ∈ w.carriers ∨ c = ⟨w.staged.length, text, row⟩ := by
    intro c
    simp [carriers, World.writePartial, hNone]
  have hStaged : (w.writePartial text row).staged = w.staged ++ [⟨w.staged.length, text, row⟩] := rfl
  have hKeeps : Keeps w (w.writePartial text row) := ⟨fun _ _ => rfl, fun _ _ hStatus => hStatus, rfl, rfl, rfl, rfl, rfl, rfl, rfl⟩
  have hMem : ∀ {item : ℕ × Carrier ρ}, item ∈ (w.writePartial text row).partials →
      item ∈ w.partials ∨ item = (nextSeq w.partials, ⟨w.staged.length, text, row⟩) := fun hItem =>
    (List.mem_append.mp hItem).imp_right List.mem_singleton.mp
  have hNumber : ∀ item ∈ w.partials, item.2.number < w.staged.length := fun item hItem =>
    h.disk.staged item.2 (h.disk.there item.2 (mem_carriers.mpr (.inl ⟨item, hItem, rfl⟩)))
  refine h.keeps hKeeps hNot ⟨?_, ?_, ?_, ?_, ?_, ?_, ?_⟩ (by simp [hStaged]) (fun c hC => ?_) (fun c hC => ?_) (fun _ => rfl)
    (fun item hItem => ?_) (fun item hItem => List.mem_append_left _ hItem) fun k hK => ?_
  · refine List.pairwise_append.mpr ⟨h.disk.order, List.pairwise_singleton .., fun old hOld new hNew => ?_⟩
    rw [List.mem_singleton.mp hNew]
    exact ⟨lt_nextSeq hOld, hNumber old hOld⟩
  · intro item hItem
    rcases hMem hItem with hWas | rfl
    · exact h.disk.small item hWas
    · exact hSmall
  · intro item hItem
    rcases hMem hItem with hWas | rfl
    · exact h.disk.texts item hWas
    · exact hText
  · intro c hC
    have hResponse : (w.writePartial text row).response = none := hNone
    rw [hResponse] at hC
    cases hC
  · rw [hStaged]
    intro c hC
    rw [List.length_append, List.length_singleton]
    rcases List.mem_append.mp hC with hOld | hNew
    · exact Nat.lt_succ_of_lt (h.disk.staged c hOld)
    · rw [List.mem_singleton.mp hNew]
      exact Nat.lt_succ_self _
  · rw [hStaged]
    intro c hC
    rcases (hCarriers c).mp hC with hOld | rfl
    · exact List.mem_append_left _ (h.disk.there c hOld)
    · simp
  · rw [hStaged]
    intro c hC
    rcases List.mem_append.mp hC with hOld | hNew
    · exact h.disk.rowed c hOld
    · rw [List.mem_singleton.mp hNew]
      exact hRow
  · exact ((hCarriers c).mp hC).imp_right fun hNew => by rw [hNew]
  · rw [hStaged] at hC
    rcases List.mem_append.mp hC with hOld | hNew
    · refine (h.covered.carriers c hOld).imp hKeeps.settled fun hRest => hRest.imp (fun hThere => (hCarriers c).mpr (.inl hThere)) ?_
      rintro ⟨r, hR, other, hThere, hSame⟩
      exact ⟨r, hR, other, (hCarriers other).mpr (.inl hThere), hSame⟩
    · exact .inr (.inl ((hCarriers c).mpr (.inr (List.mem_singleton.mp hNew))))
  · rcases hMem hItem with hWas | rfl
    · exact .inl hWas
    · exact .inr ⟨fun old hOld => lt_nextSeq hOld, hFact⟩
  · rw [hStaged, List.take_append_of_le_length hK]

theorem Sound.writesResponse (h : w.Sound) {text : Text} {row : Option ρ} (hAllowed : w.Allowed fenced (.writeResponse text row)) :
    (w.writeResponse text row).Sound := by
  obtain ⟨hNot, hPlain, hRow, hOld⟩ := hAllowed
  have hCarriers : ∀ c, c ∈ (w.writeResponse text row).carriers ↔ (∃ item ∈ w.partials, item.2 = c) ∨ c = ⟨w.staged.length, text, row⟩ := by
    intro c
    simp [carriers, World.writeResponse]
  have hStaged : (w.writeResponse text row).staged = w.staged ++ [⟨w.staged.length, text, row⟩] := rfl
  have hKeeps : Keeps w (w.writeResponse text row) := ⟨fun _ _ => rfl, fun _ _ hStatus => hStatus, rfl, rfl, rfl, rfl, rfl, rfl, rfl⟩
  -- the row of a response that is replaced is settled, or it is the new one's
  have hReplaced : ∀ old ∈ w.response, ∀ r, old.row = some r →
      (∀ c : Carrier ρ, c.row = some r → w.Settled c) ∨ row = some r := by
    intro old hMem r hR
    obtain ⟨own, hOwn, hCase⟩ := hOld old hMem
    obtain rfl := Option.mem_unique hR hOwn
    refine hCase.imp (fun hDone c hC => ?_) id
    obtain ⟨status, hStatus⟩ := Option.isSome_iff_exists.mp (h.disk.rowed old (h.disk.there old (mem_carriers.mpr (.inr hMem))) r hR)
    refine .inr ⟨r, hC, status, hStatus, fun hPending => hDone ?_⟩
    rw [hStatus, hPending]
  have hRow' : ∀ c : Carrier ρ, (∃ r ∈ c.row, ∃ other ∈ w.carriers, other.row = some r) →
      w.Settled c ∨ ∃ r ∈ c.row, ∃ other ∈ (w.writeResponse text row).carriers, other.row = some r := by
    rintro c ⟨r, hR, other, hThere, hSame⟩
    rcases mem_carriers.mp hThere with hPartial | hResponse
    · exact .inr ⟨r, hR, other, (hCarriers other).mpr (.inl hPartial), hSame⟩
    · rcases hReplaced other hResponse r hSame with hSettled | hNew
      · exact .inl (hSettled c hR)
      · exact .inr ⟨r, hR, _, (hCarriers _).mpr (.inr rfl), hNew⟩
  refine h.keeps hKeeps hNot ⟨h.disk.order, h.disk.small, h.disk.texts, ?_, ?_, ?_, ?_⟩ (by simp [hStaged]) (fun c hC => ?_) (fun c hC => ?_)
    (fun hFlag => ?_) (fun item hItem => .inl hItem) (fun item hItem => hItem) fun k hK => ?_
  · intro c hC item hItem
    obtain rfl := Option.some.inj hC
    exact h.disk.staged item.2 (h.disk.there item.2 (mem_carriers.mpr (.inl ⟨item, hItem, rfl⟩)))
  · rw [hStaged]
    intro c hC
    rw [List.length_append, List.length_singleton]
    rcases List.mem_append.mp hC with hWas | hNew
    · exact Nat.lt_succ_of_lt (h.disk.staged c hWas)
    · rw [List.mem_singleton.mp hNew]
      exact Nat.lt_succ_self _
  · rw [hStaged]
    intro c hC
    rcases (hCarriers c).mp hC with hWas | rfl
    · exact List.mem_append_left _ (h.disk.there c (mem_carriers.mpr (.inl hWas)))
    · simp
  · rw [hStaged]
    intro c hC
    rcases List.mem_append.mp hC with hWas | hNew
    · exact h.disk.rowed c hWas
    · rw [List.mem_singleton.mp hNew]
      exact hRow
  · exact ((hCarriers c).mp hC).imp (fun hWas => mem_carriers.mpr (.inl hWas)) fun hNew => by rw [hNew]
  · rw [hStaged] at hC
    rcases List.mem_append.mp hC with hWas | hNew
    · rcases h.covered.carriers c hWas with hDone | hThere | hShared
      · exact .inl (hKeeps.settled hDone)
      · rcases mem_carriers.mp hThere with hPartial | hResponse
        · exact .inr (.inl ((hCarriers c).mpr (.inl hPartial)))
        · obtain ⟨r, hR, -⟩ := hOld c hResponse
          exact (hRow' c ⟨r, hR, c, hThere, hR⟩).imp hKeeps.settled .inr
      · exact (hRow' c hShared).imp hKeeps.settled .inr
    · exact .inr (.inl ((hCarriers c).mpr (.inr (List.mem_singleton.mp hNew))))
  · rw [hPlain] at hFlag
    cases hFlag
  · rw [hStaged, List.take_append_of_le_length hK]

theorem Sound.suppresses (h : w.Sound) (hAllowed : w.Allowed fenced .suppress) :
    ({ w with
      rows := settle (w.response.bind Carrier.row) .carried w.rows
      event := { w.event with suppressed := true } } : World ρ).Sound := by
  have hAdvances : Advances w
      { w with
        rows := settle (w.response.bind Carrier.row) .carried w.rows
        event := { w.event with suppressed := true } } := ⟨rfl, rfl, rfl, advances_settle w _ (by decide)⟩
  refine ⟨h.disk.advance hAdvances, h.tried.same hAdvances rfl id, ⟨?_, ?_, fun _ c hC => ?_⟩, h.fenced.advance hAdvances rfl id,
    ⟨h.ended.idle, h.ended.mark, fun hStatus k hK c hC => ?_, h.ended.left⟩, ?_⟩
  · exact fun c hC => (h.covered.carriers c hC).imp_left (hAdvances.rows.settled fun _ hMem => hMem)
  · exact fun hDone r hPending => h.covered.rows hDone r (hAdvances.rows.pending hPending)
  · have hC : w.response = some c := hC
    have hSome : (w.response.bind Carrier.row).isSome = true := hAllowed
    obtain ⟨r, hRow⟩ := Option.isSome_iff_exists.mp hSome
    have hOwn : c.row = some r := by simpa [hC] using hRow
    obtain ⟨status, hStatus⟩ := Option.isSome_iff_exists.mp
      (h.disk.rowed c (h.disk.there c (mem_carriers.mpr (.inr hC))) r hOwn)
    apply Bool.eq_false_iff.mpr
    intro hOpen
    have hPending := isOpen_iff.mp hOpen r hOwn
    simp only [hRow, get_settle, hStatus] at hPending
    by_cases hWas : status = .pending
    · cases hPending .carried (by simp [hWas])
    · exact hWas (hPending status (by simp [hWas]))
  · exact hAdvances.rows.settled (fun _ hMem => hMem) (h.ended.whole hStatus k hK c hC)
  · exact StageOk.keep h.stage rfl hAdvances.rows fun pass hFresh => ⟨hFresh.done, fun _ => rfl⟩

theorem Sound.finishes (h : w.Sound) (hProcessing : w.event.status = .processing) (hAllowed : w.Allowed fenced .done) :
    ({ w with event := { w.event with status := .done }, before := some w.staged.length } : World ρ).Sound := by
  have hSame : Advances w { w with event := { w.event with status := .done }, before := some w.staged.length } := .refl rfl rfl rfl rfl
  refine ⟨h.disk.advance hSame, h.tried.same hSame rfl fun _ => ?_, ⟨h.covered.carriers, fun _ => hAllowed, h.covered.suppressed⟩,
    h.fenced.advance hSame rfl fun hDelivered => ?_, ⟨?_, fun k hK => ?_, nofun, h.ended.left⟩, ?_⟩
  · simp [hProcessing]
  · rw [hProcessing] at hDelivered
    cases hDelivered
  · rintro (hLeft | hLeft) <;> cases hLeft
  · rw [← Option.some.inj hK]
  · exact StageOk.keep h.stage rfl hSame.rows fun pass hFresh => ⟨fun _ => rfl, hFresh.suppressed⟩

/-- The queue of a pass is the directory in order. -/
theorem Sound.lists (h : w.Sound) {pass : Pass} (hStage : w.stage = .read pass) :
    ({ w with stage := .sending pass (listPartials w.partials) } : World ρ).Sound := by
  have hFresh : w.Fresh pass := by
    have hOk := h.stage
    rwa [hStage] at hOk
  have hSorted : (w.partials.map Prod.fst).Pairwise (· < ·) := by
    rw [List.pairwise_map]
    exact h.disk.order.imp fun hLess => hLess.1
  have hList := listPartials_sorted hSorted h.disk.small
  have hNone : ∀ item ∈ w.partials, item.1 ∉ listPartials w.partials → False := by
    rw [hList]
    exact fun item hItem hNot => hNot (List.mem_map_of_mem hItem)
  have hPassing : w.Passing pass (listPartials w.partials) := by
    refine ⟨hList ▸ hSorted, fun seq hSeq => hList ▸ hSeq, fun item hItem hNot => (hNone item hItem hNot).elim,
      fun _ item hItem hNot => (hNone item hItem hNot).elim⟩
  have hActive := h.ended.active (by simp [hStage])
  exact @Sound.moves ρ _ w h w.retry _ ⟨hFresh, hPassing⟩ fun hLeft => absurd hLeft (by simp [hActive])

theorem Sound.polls (h : w.Sound) {now : ℚ} (hDeliverable : w.deliverable = true) :
    ({ w with stage := .read ⟨now, w.event.status, w.event.suppressed⟩ } : World ρ).Sound := by
  refine @Sound.moves ρ _ w h w.retry _ ⟨fun hDone => hDone, fun hFlag => hFlag⟩ fun hLeft => ?_
  rcases hLeft with hLeft | hLeft <;> simp [deliverable, hLeft] at hDeliverable

/-- Each step that is made as it may be keeps what is known of the event. -/
theorem Sound.step (h : w.Sound) {action : Action ρ} (hAllowed : w.Allowed fenced action) (hStep : w.step fenced action = some later) :
    later.Sound := by
  cases action with
  | wake =>
      simp only [World.step] at hStep
      split_ifs at hStep with hPending
      obtain rfl := Option.some.inj hStep
      exact h.wakes hPending
  | stage row =>
      obtain rfl := Option.some.inj hStep
      split_ifs with hSome
      · exact h
      · exact h.stages (by simpa using hSome) hAllowed
  | writePartial text row =>
      obtain rfl := Option.some.inj hStep
      exact h.writesPartial hAllowed
  | writeResponse text row =>
      obtain rfl := Option.some.inj hStep
      exact h.writesResponse hAllowed
  | suppress =>
      obtain rfl := Option.some.inj hStep
      exact h.suppresses hAllowed
  | done =>
      simp only [World.step] at hStep
      split_ifs at hStep with hProcessing
      obtain rfl := Option.some.inj hStep
      exact h.finishes hProcessing hAllowed
  | poll now =>
      simp only [World.step] at hStep
      split at hStep
      · obtain rfl := Option.some.inj hStep
        split_ifs with hDue
        · exact h.polls (Bool.and_eq_true_iff.mp hDue).1
        · exact h
      · cases hStep
  | list =>
      simp only [World.step] at hStep
      split at hStep
      · rename_i pass hStage
        obtain rfl := Option.some.inj hStep
        exact h.lists hStage
      · cases hStep
  | deliver outcome =>
      simp only [World.step] at hStep
      split at hStep
      · rename_i pass queue hStage
        obtain rfl := Option.some.inj hStep
        exact h.deliver hStage hAllowed
      · cases hStep
  | restart =>
      simp only [World.step] at hStep
      split at hStep
      · rename_i hStage
        obtain rfl := Option.some.inj hStep
        exact @Sound.moves ρ _ w h none w.stage h.stage h.ended.idle
      · cases hStep

/-- An event for which nothing is staged, new or kept for a resource hold. -/
def start (held : Bool) : World ρ where
  event := ⟨.pending, false, held⟩
  partials := []
  response := none
  rows := []
  facts := []
  retry := none
  stage := .idle
  staged := []
  attempts := []
  before := none
  left := none

theorem sound_start (held : Bool) : (start held : World ρ).Sound where
  disk := ⟨.nil, nofun, nofun, nofun, nofun,
    nofun, nofun⟩
  tried := ⟨nofun, .nil, nofun⟩
  covered := ⟨nofun, nofun, nofun⟩
  fenced := ⟨nofun, nofun⟩
  ended := ⟨fun _ => rfl, nofun, nofun, nofun⟩
  stage := trivial

/-- Sends are in the order of staging and none that was confirmed is made again; a delivered
event has every carrier that was staged before its done status sent or settled; and no row
was pending when the event left the active set. -/
structure Delivered (w : World ρ) : Prop where
  order : w.attempts.Pairwise Follows
  whole : w.event.status = .delivered → ∀ k ∈ w.before, ∀ c ∈ w.staged.take k, w.Settled c
  left : ∀ rows ∈ w.left, rows = []

/-- In every run whose steps are made as they may be, the replies are delivered. -/
theorem stream_delivers (held : Bool) (h : Machine.Reach (World.step fenced) (World.Allowed fenced) (start held) w) :
    w.Delivered := by
  have hSound : w.Sound := h.invariant World.Sound (sound_start held) fun _ _ _ hSound hAllowed hStep => hSound.step hAllowed hStep
  exact ⟨hSound.tried.ordered, hSound.ended.whole, hSound.ended.left⟩

/-- Two messages and a response, a send that fails and a daemon that restarts. -/
def ordinary : List (Action String) :=
  [.wake, .stage "m-1", .writePartial "one".toList (some "m-1"), .poll 0, .list, .deliver .failed, .restart,
    .stage "m-2", .writePartial "two".toList (some "m-2"), .poll 5, .list, .deliver .sent, .deliver .sent, .deliver .sent,
    .stage "m-3", .writeResponse "done".toList (some "m-3"), .done, .poll 30, .list, .deliver .sent, .deliver .sent, .deliver .sent]

theorem ordinary_is_delivered :
    ∃ w : World String, w.Delivered ∧ w.event.status = .delivered ∧
      w.attempts = [(0, false), (0, true), (1, true), (2, true)] := by
  have hRun : (Machine.follow (World.step false) (World.Allowed false) (start false) ordinary).any
      (fun w => w.event.status = .delivered ∧ w.attempts = [(0, false), (0, true), (1, true), (2, true)]) = true := by
    decide +kernel
  obtain ⟨w, hReached, hEnd⟩ := (Option.any_eq_true ..).mp hRun
  exact ⟨w, stream_delivers false (.follow .refl hReached), of_decide_eq_true hEnd⟩

/-- Two messages, the first of which can never be delivered. -/
def refused : List (Action String) :=
  [.wake, .stage "m-1", .writePartial "one".toList (some "m-1"), .stage "m-2", .writePartial "two".toList (some "m-2"),
    .poll 0, .list, .deliver .impossible]

/-- Two messages without rows, behind the fence. -/
def reused : List (Action String) :=
  [.wake, .writePartial "one".toList none, .poll 0, .list, .deliver .sent, .deliver .sent,
    .writePartial "two".toList none, .poll 5, .list, .deliver .sent, .deliver .sent, .done, .poll 30, .list, .deliver .sent]

/-- An event that is given up leaves the other message pending; and a second message under
the first one's name is taken for sent by the fence, which never sent it. -/
theorem stream_leaves_messages :
    (∃ w : World String, Machine.Reach (World.step false) (fun _ _ => True) (start false) w ∧ w.left = some ["m-2"] ∧ ¬w.Delivered) ∧
      ∃ w : World String, Machine.Reach (World.step true) (fun _ _ => True) (start false) w ∧ w.attempts = [(0, true)] ∧ ¬w.Delivered := by
  constructor
  · have hRun : (Machine.follow (World.step false) (fun _ _ => True) (start false) refused).any (fun w => w.left = some ["m-2"]) = true := by
      decide +kernel
    obtain ⟨w, hReached, hLeft⟩ := (Option.any_eq_true ..).mp hRun
    have hLeft := of_decide_eq_true hLeft
    refine ⟨w, .follow .refl hReached, hLeft, fun h => ?_⟩
    cases h.left _ hLeft
  · have hRun : (Machine.follow (World.step true) (fun _ _ => True) (start false) reused).any (fun w => w.event.status = .delivered ∧
        w.before = some 2 ∧ w.staged = [⟨0, "one".toList, none⟩, ⟨1, "two".toList, none⟩] ∧ w.attempts = [(0, true)]) = true := by
      decide +kernel
    obtain ⟨w, hReached, hEnd⟩ := (Option.any_eq_true ..).mp hRun
    obtain ⟨hStatus, hBefore, hStaged, hAttempts⟩ := of_decide_eq_true hEnd
    refine ⟨w, .follow .refl hReached, hAttempts, fun h => ?_⟩
    have hSettled := h.whole hStatus 2 hBefore ⟨1, "two".toList, none⟩ (by rw [hStaged]; simp)
    rcases hSettled with hSent | ⟨r, hRow, -⟩
    · rw [hAttempts] at hSent
      simp at hSent
    · cases hRow

end Brnrd.Gates.World
