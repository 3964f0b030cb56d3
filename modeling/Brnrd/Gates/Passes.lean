import Brnrd.Gates.Sound

/-! The steps of a gate: what a pass does with its next carrier, and that it keeps what is
known of the event. -/
namespace Brnrd.Gates.World

variable {ρ : Type} [DecidableEq ρ] {fenced : Bool} {w later : World ρ} {pass : Pass}

/-- Partials are as far apart in the directory as they are in time. -/
theorem Disk.compare (h : w.Disk) {a b : ℕ × Carrier ρ} (ha : a ∈ w.partials) (hb : b ∈ w.partials) :
    a = b ∨ (a.1 < b.1 ∧ a.2.number < b.2.number) ∨ (b.1 < a.1 ∧ b.2.number < a.2.number) := by
  have hBack : w.partials.Pairwise fun a b => b = a ∨ (b.1 < a.1 ∧ b.2.number < a.2.number) ∨ (a.1 < b.1 ∧ a.2.number < b.2.number) :=
    h.order.imp fun hLess => .inr (.inr hLess)
  exact List.Pairwise.forall_of_forall_of_flip (fun _ _ => .inl rfl) (h.order.imp fun hLess => .inr (.inl hLess)) hBack ha hb

theorem Disk.unique (h : w.Disk) {a b : ℕ × Carrier ρ} (ha : a ∈ w.partials) (hb : b ∈ w.partials) (hSame : a.1 = b.1) :
    a = b := by
  rcases h.compare ha hb with hEq | hLess | hMore
  · exact hEq
  · omega
  · omega

omit [DecidableEq ρ] in
theorem mem_carriers {c : Carrier ρ} : c ∈ w.carriers ↔ (∃ item ∈ w.partials, item.2 = c) ∨ c ∈ w.response := by
  simp [carriers]

/-- A carrier is sent before all that are open behind it. -/
theorem Sound.first_partial (h : w.Sound) {seq : ℕ} {rest : List ℕ} {c : Carrier ρ} (hPassing : w.Passing pass (seq :: rest))
    (hItem : (seq, c) ∈ w.partials) (hOpen : w.isOpen c = true) : w.First c where
  there := mem_carriers.mpr (.inl ⟨_, hItem, rfl⟩)
  isOpen := hOpen
  front := by
    intro other hOther hOtherOpen
    rcases mem_carriers.mp hOther with ⟨item, hMember, rfl⟩ | hResponse
    · rcases h.disk.compare hMember hItem with hSame | ⟨hLess, -⟩ | ⟨-, hMore⟩
      · exact .inl (congrArg Prod.snd hSame)
      · have hNot : item.1 ∉ seq :: rest := by
          intro hQueue
          rcases List.mem_cons.mp hQueue with hSame | hRest
          · exact absurd hLess (by simp [hSame])
          · have hAfter := (List.pairwise_cons.mp hPassing.sorted).1 item.1 hRest
            have hBefore : item.1 < seq := hLess
            omega
        rcases hPassing.closed item hMember hNot with hClosed | hBehind
        · rw [hClosed] at hOtherOpen
          cases hOtherOpen
        · have hBefore : item.1 < seq := hLess
          have hAfter := hBehind seq (by simp)
          omega
      · exact .inr hMore
    · exact .inr (h.disk.response other hResponse _ hItem)

/-- The terminal carrier is sent when no other is open. -/
theorem first_terminal {c : Carrier ρ} (hPassing : w.Passing pass []) (hDone : pass.status = .done)
    (hResponse : w.response = some c) (hOpen : w.isOpen c = true) :
    w.First c ∧ ∀ other ∈ w.carriers, w.isOpen other = true → other = c := by
  have hOnly : ∀ other ∈ w.carriers, w.isOpen other = true → other = c := by
    intro other hOther hOtherOpen
    rcases mem_carriers.mp hOther with ⟨item, hMember, rfl⟩ | hSame
    · rw [hPassing.last hDone item hMember List.not_mem_nil] at hOtherOpen
      cases hOtherOpen
    · exact Option.mem_unique hSame hResponse
  exact ⟨⟨mem_carriers.mpr (.inr hResponse), hOpen, fun other hOther hOtherOpen => .inl (hOnly other hOther hOtherOpen)⟩, hOnly⟩

/-- What a pass does with its next carrier. -/
inductive Delivers (fenced : Bool) (w : World ρ) (pass : Pass) (outcome : Outcome) : List ℕ → World ρ → Prop
  | skips {seq rest c} (hItem : (seq, c) ∈ w.partials) (hClosed : w.isOpen c = false) :
      Delivers fenced w pass outcome (seq :: rest) { w with stage := .sending pass rest }
  | sends {seq rest c} (hItem : (seq, c) ∈ w.partials) (hFirst : w.First c) :
      Delivers fenced w pass outcome (seq :: rest)
        { ({ w with attempts := w.attempts ++ [(c.number, true)]
                    facts := if fenced then w.facts ++ [.interim (fileName seq)] else w.facts } : World ρ).recordSent seq c with
          stage := .sending pass rest }
  | fails {queue c} (retry : Option (ℕ × ℚ)) (hFirst : w.First c) :
      Delivers fenced w pass outcome queue
        { w with attempts := w.attempts ++ [(c.number, false)], retry := retry, stage := .idle }
  | givesUp {queue c} (hFirst : w.First c) (hGivesUp : w.givesUp outcome) (hFlight : w.inFlight fenced = some (pass, c.row)) :
      Delivers fenced w pass outcome queue
        (({ w with attempts := w.attempts ++ [(c.number, false)] } : World ρ).abandon pass c.row)
  | leaves (hNot : pass.status ≠ .done) : Delivers fenced w pass outcome [] { w with retry := none, stage := .idle }
  | closes (hDone : pass.status = .done) (hClosed : ∀ c ∈ w.response, w.isOpen c = false) :
      Delivers fenced w pass outcome [] (w.close pass)
  | answers {c} (hDone : pass.status = .done) (hResponse : w.response = some c) (hOpen : w.isOpen c = true) :
      Delivers fenced w pass outcome []
        (({ w with attempts := w.attempts ++ [(c.number, true)]
                   facts := if fenced then w.facts ++ [.terminal] else w.facts
                   rows := settle c.row .delivered w.rows } : World ρ).close pass)

/-- The end of a send that was not confirmed. -/
theorem Delivers.unsent {queue : List ℕ} {outcome : Outcome} {c : Carrier ρ} (hFirst : w.First c) (hNot : outcome ≠ .sent)
    (hFlight : w.inFlight fenced = some (pass, c.row)) :
    Delivers fenced w pass outcome queue (match outcome with
      | .impossible => ({ w with attempts := w.attempts ++ [(c.number, false)] } : World ρ).abandon pass c.row
      | _ => ({ w with attempts := w.attempts ++ [(c.number, false)] } : World ρ).fail pass c.row) := by
  cases outcome with
  | sent => exact absurd rfl hNot
  | impossible => exact .givesUp hFirst (.inl rfl) hFlight
  | failed =>
      simp only [fail]
      split_ifs with hCeiling
      · exact .givesUp hFirst (.inr ⟨rfl, hCeiling⟩) hFlight
      · exact .fails _ hFirst

theorem Sound.delivers (h : w.Sound) {queue : List ℕ} (hStage : w.stage = .sending pass queue) (outcome : Outcome) :
    Delivers fenced w pass outcome queue (w.deliver fenced pass queue outcome) := by
  obtain ⟨hFresh, hPassing⟩ : w.Fresh pass ∧ w.Passing pass queue := by
    have hOk := h.stage
    rwa [hStage] at hOk
  cases queue with
  | nil =>
      simp only [deliver]
      split_ifs with hDone
      · have hActive : SendKey.terminal ∉ w.facts := by
          intro hKnown
          have hDelivered := h.fenced.terminal hKnown
          rw [hFresh.done hDone] at hDelivered
          cases hDelivered
        simp only [deliverTerminal]
        cases hResponse : w.response with
        | none => exact .closes hDone fun c hC => by simp [hResponse] at hC
        | some c =>
            dsimp only
            split_ifs with hSilent
            · refine .closes hDone fun other hOther => ?_
              rw [hResponse] at hOther
              obtain rfl := Option.some.inj hOther
              rcases Bool.or_eq_true_iff.mp hSilent with hSuppressed | hClosed
              · exact h.covered.suppressed (hFresh.suppressed hSuppressed) c hResponse
              · simpa using hClosed
            · simp only [Bool.or_eq_true, Bool.not_eq_true', not_or, Bool.not_eq_false, Bool.not_eq_true] at hSilent
              obtain ⟨hFirst, -⟩ := first_terminal hPassing hDone hResponse hSilent.2
              have hFlight : w.inFlight fenced = some (pass, c.row) := by
                simp [inFlight, hStage, hDone, hResponse, hSilent.1, hSilent.2, hActive]
              have hUnsent := fun hNot => @Delivers.unsent ρ _ fenced w pass [] outcome c hFirst hNot hFlight
              simp only [send, hActive, and_false, if_false]
              cases outcome with
              | sent => exact .answers hDone hResponse hSilent.2
              | failed => exact hUnsent (by decide)
              | impossible => exact hUnsent (by decide)
      · exact .leaves hDone
  | cons seq rest =>
      obtain ⟨item, hItem, rfl⟩ := List.mem_map.mp (hPassing.queued seq (by simp))
      obtain ⟨seq, c⟩ := item
      have hKeys : (w.partials.map Prod.fst).Nodup := by
        rw [List.Nodup, List.pairwise_map]
        exact h.disk.order.imp fun hLess => Nat.ne_of_lt hLess.1
      have hGet : Entries.get seq w.partials = some c := (Entries.get_eq_some hKeys).mpr hItem
      simp only [deliver, deliverPartial, hGet]
      split_ifs with hClosed hEmpty
      · exact .skips hItem (by simpa using hClosed)
      · exact absurd hEmpty (h.disk.texts _ hItem)
      · have hOpen : w.isOpen c = true := by simpa using hClosed
        have hFirst := h.first_partial hPassing hItem hOpen
        have hNew := h.fenced.interim _ hItem hOpen
        have hFlight : w.inFlight fenced = some (pass, c.row) := by
          simp [inFlight, hStage, hGet, hOpen, hEmpty, hNew]
        have hUnsent := fun hNot => @Delivers.unsent ρ _ fenced w pass (seq :: rest) outcome c hFirst hNot hFlight
        simp only [send, hNew, and_false, if_false]
        cases outcome with
        | sent => exact .sends hItem hFirst
        | failed => exact hUnsent (by decide)
        | impossible => exact hUnsent (by decide)

theorem Ended.active (h : w.Ended) (hStage : w.stage ≠ .idle) : w.event.status ≠ .delivered ∧ w.event.status ≠ .error :=
  ⟨fun hStatus => hStage (h.idle (.inl hStatus)), fun hStatus => hStage (h.idle (.inr hStatus))⟩

theorem settled_of_closed {c : Carrier ρ} (hClosed : w.isOpen c = false) : w.Settled c := by
  by_contra hNot
  refine Bool.eq_false_iff.mp hClosed (isOpen_iff.mpr fun r hRow status hStatus => ?_)
  by_contra hOther
  exact hNot (.inr ⟨r, hRow, status, hStatus, hOther⟩)

theorem Advances.refl (hPartials : later.partials = w.partials) (hResponse : later.response = w.response)
    (hStaged : later.staged = w.staged) (hRows : later.rows = w.rows) : Advances w later :=
  ⟨hPartials, hResponse, hStaged, fun r => .inl (by rw [hRows])⟩

theorem Passing.tail {seq : ℕ} {rest : List ℕ} (h : w.Passing pass (seq :: rest))
    (hThere : ∀ item ∈ later.partials, item ∈ w.partials)
    (hKeeps : ∀ other ∈ w.partials.map Prod.fst, other ≠ seq → other ∈ later.partials.map Prod.fst)
    (hClosed : ∀ item ∈ later.partials, w.isOpen item.2 = false ∨ item.1 = seq → later.isOpen item.2 = false) :
    later.Passing pass rest := by
  obtain ⟨hLess, hSorted⟩ := List.pairwise_cons.mp h.sorted
  have hNot : ∀ item : ℕ × Carrier ρ, item.1 ∉ rest → item.1 ≠ seq → item.1 ∉ seq :: rest := by
    intro item hRest hSeq hMem
    rcases List.mem_cons.mp hMem with hSame | hMem
    · exact hSeq hSame
    · exact hRest hMem
  refine ⟨hSorted, fun other hOther => hKeeps other (h.queued other (List.mem_cons_of_mem _ hOther)) (Nat.ne_of_gt (hLess other hOther)),
    fun item hItem hRest => ?_, fun hDone item hItem hRest => ?_⟩
  · by_cases hSeq : item.1 = seq
    · exact .inl (hClosed item hItem (.inr hSeq))
    · rcases h.closed item (hThere item hItem) (hNot item hRest hSeq) with hShut | hBehind
      · exact .inl (hClosed item hItem (.inl hShut))
      · exact .inr fun other hOther => hBehind other (List.mem_cons_of_mem _ hOther)
  · by_cases hSeq : item.1 = seq
    · exact hClosed item hItem (.inr hSeq)
    · exact hClosed item hItem (.inl (h.last hDone item (hThere item hItem) (hNot item hRest hSeq)))

/-- A step that changes the backoff and the stage alone. -/
theorem Sound.moves (h : w.Sound) {retry : Option (ℕ × ℚ)} {stage : Stage} (hStage : w.StageOk stage)
    (hIdle : w.event.status = .delivered ∨ w.event.status = .error → stage = .idle) :
    ({ w with retry := retry, stage := stage } : World ρ).Sound := by
  have hSame : Advances w { w with retry := retry, stage := stage } := .refl rfl rfl rfl rfl
  refine ⟨h.disk.advance hSame, h.tried.same hSame rfl id, h.covered.advance hSame (fun _ hMem => hMem) id id,
    h.fenced.advance hSame rfl id, ⟨hIdle, h.ended.mark, h.ended.whole, h.ended.left⟩, ?_⟩
  cases stage with
  | idle => trivial
  | read pass => exact ⟨hStage.done, hStage.suppressed⟩
  | sending pass queue =>
      exact ⟨⟨hStage.1.done, hStage.1.suppressed⟩, hStage.2.sorted, hStage.2.queued, hStage.2.closed, hStage.2.last⟩

theorem Sound.skips (h : w.Sound) {seq : ℕ} {rest : List ℕ} {c : Carrier ρ} (hStage : w.stage = .sending pass (seq :: rest))
    (hItem : (seq, c) ∈ w.partials) (hClosed : w.isOpen c = false) :
    ({ w with stage := .sending pass rest } : World ρ).Sound := by
  obtain ⟨hFresh, hPassing⟩ : w.Fresh pass ∧ w.Passing pass (seq :: rest) := by
    have hOk := h.stage
    rwa [hStage] at hOk
  have hTail : w.Passing pass rest := hPassing.tail (fun _ hMem => hMem) (fun _ hMem _ => hMem) fun item hMember hCase => by
    rcases hCase with hShut | hSame
    · exact hShut
    · rw [h.disk.unique hMember hItem hSame]
      exact hClosed
  have hActive := h.ended.active (by simp [hStage])
  exact @Sound.moves ρ _ w h w.retry _ ⟨hFresh, hTail⟩ fun hLeft => absurd hLeft (by simp [hActive])

/-- A send that was not confirmed, and is tried again. -/
theorem Sound.fails (h : w.Sound) {queue : List ℕ} {c : Carrier ρ} {retry : Option (ℕ × ℚ)} (hStage : w.stage = .sending pass queue)
    (hFirst : w.First c) :
    ({ w with attempts := w.attempts ++ [(c.number, false)], retry := retry, stage := .idle } : World ρ).Sound := by
  have hActive := h.ended.active (by simp [hStage])
  have hSame : Advances w { w with attempts := w.attempts ++ [(c.number, false)], retry := retry, stage := .idle } := .refl rfl rfl rfl rfl
  exact ⟨h.disk.advance hSame, h.tried.fails h.disk hSame hFirst hActive.1 rfl,
    h.covered.advance hSame (fun _ hMem => List.mem_append_left _ hMem) id id, h.fenced.advance hSame rfl id,
    ⟨fun _ => rfl, h.ended.mark, fun hStatus => absurd hStatus hActive.1, h.ended.left⟩, trivial⟩

/-- A pass that gives the event up. -/
theorem Sound.givesUp (h : w.Sound) {queue : List ℕ} {c : Carrier ρ} {outcome : Outcome} (hStage : w.stage = .sending pass queue)
    (hFirst : w.First c) (hGivesUp : w.givesUp outcome) (hFlight : w.inFlight fenced = some (pass, c.row))
    (hAllowed : w.Allowed fenced (.deliver outcome)) :
    (({ w with attempts := w.attempts ++ [(c.number, false)] } : World ρ).abandon pass c.row).Sound := by
  have hActive := h.ended.active (by simp [hStage])
  have hNone : pass.status = w.event.status → pendingRows (settle c.row .undeliverable w.rows) = [] := by
    intro hStatus
    rw [List.eq_nil_iff_forall_not_mem]
    intro r hPending
    rw [mem_pendingRows, get_settle] at hPending
    split_ifs at hPending with hOwn
    · cases hPending
    · exact hOwn ⟨hAllowed hGivesUp _ hFlight hStatus r (mem_pendingRows.mpr hPending), hPending⟩
  unfold abandon setStatus
  split_ifs with hStatus
  all_goals
    refine ⟨h.disk.advance ?_, h.tried.fails h.disk ?_ hFirst hActive.1 rfl,
      h.covered.advance ?_ (fun _ hMem => List.mem_append_left _ hMem) ?_ ?_, h.fenced.advance ?_ rfl ?_,
      ⟨fun _ => rfl, h.ended.mark, ?_, ?_⟩, trivial⟩
    all_goals first
      | exact ⟨rfl, rfl, rfl, advances_settle w c.row (by decide)⟩
      | skip
  · simp
  · exact fun hSuppressed => hSuppressed
  · exact fun hDelivered => absurd hDelivered hActive.1
  · simp
  · intro rows hRows
    rw [← Option.some.inj hRows]
    exact hNone hStatus.symm
  · exact fun hDone => hDone
  · exact fun hSuppressed => hSuppressed
  · exact fun hDelivered => absurd hDelivered hActive.1
  · exact fun hDelivered => absurd hDelivered hActive.1
  · exact h.ended.left

/-- What the record of a confirmed partial makes of the event. -/
structure Sent (fenced : Bool) (w later : World ρ) (seq : ℕ) (c : Carrier ρ) : Prop where
  there : ∀ item ∈ later.partials, item ∈ w.partials
  keeps : ∀ item ∈ w.partials, item ∈ later.partials ∨ (item.1 = seq ∧ c.row = none)
  shut : ∀ item ∈ later.partials, item.1 = seq → later.isOpen item.2 = false
  order : later.partials.Sublist w.partials
  response : later.response = w.response
  staged : later.staged = w.staged
  before : later.before = w.before
  left : later.left = w.left
  event : later.event = w.event
  rows : RowsAdvance w later
  attempts : later.attempts = w.attempts ++ [(c.number, true)]
  facts : ∀ key ∈ later.facts, key ∈ w.facts ∨ key = .interim (fileName seq)

theorem Sound.sent (h : w.Sound) {seq : ℕ} {c : Carrier ρ} (hItem : (seq, c) ∈ w.partials) (stage : Stage) :
    Sent fenced w { ({ w with attempts := w.attempts ++ [(c.number, true)]
                              facts := if fenced then w.facts ++ [.interim (fileName seq)] else w.facts } : World ρ).recordSent seq c with
      stage := stage } seq c := by
  have hFacts : ∀ key ∈ (if fenced then w.facts ++ [.interim (fileName seq)] else w.facts : List SendKey),
      key ∈ w.facts ∨ key = .interim (fileName seq) := by
    intro key hKey
    split_ifs at hKey
    · exact (List.mem_append.mp hKey).imp_right List.mem_singleton.mp
    · exact .inl hKey
  unfold recordSent
  cases hRow : c.row with
  | none =>
      refine ⟨fun item hMem => List.mem_of_mem_filter hMem, fun item hMem => ?_, fun item hMem hSeq => ?_, List.filter_sublist,
        rfl, rfl, rfl, rfl, rfl, fun r => .inl rfl, rfl, hFacts⟩
      · by_cases hSeq : item.1 = seq
        · exact .inr ⟨hSeq, hRow⟩
        · exact .inl (List.mem_filter.mpr ⟨hMem, by simpa using hSeq⟩)
      · have hOther := (List.mem_filter.mp hMem).2
        simp [hSeq] at hOther
  | some r =>
      have hAdvance : RowsAdvance w { w with rows := (transition r .delivered w.rows).2 } :=
        advances_settle w (some r) (by decide)
      refine ⟨fun item hMem => hMem, fun item hMem => .inl hMem, fun item hMem hSeq => ?_, List.Sublist.refl _,
        rfl, rfl, rfl, rfl, rfl, hAdvance, rfl, hFacts⟩
      have hSame : item = (seq, c) := h.disk.unique hMem hItem hSeq
      apply Bool.eq_false_iff.mpr
      rw [hSame]
      intro hOpen
      obtain ⟨status, hStatus⟩ := Option.isSome_iff_exists.mp
        (h.disk.rowed c (h.disk.there c (mem_carriers.mpr (.inl ⟨_, hItem, rfl⟩))) r hRow)
      have hSettled := get_settle (some r) .delivered w.rows r
      have hPending := fun other => isOpen_iff.mp hOpen r hRow other
      simp only [settle] at hSettled
      by_cases hWas : status = .pending
      · rw [hStatus, hWas, if_pos ⟨trivial, rfl⟩] at hSettled
        cases hPending _ hSettled
      · rw [hStatus, if_neg fun hBoth => hWas (Option.some.inj hBoth.2)] at hSettled
        exact hWas (hPending _ hSettled)

/-- A confirmed partial. -/
theorem Sound.sends (h : w.Sound) {seq : ℕ} {rest : List ℕ} {c : Carrier ρ} (hStage : w.stage = .sending pass (seq :: rest))
    (hItem : (seq, c) ∈ w.partials) (hFirst : w.First c) (hSent : Sent fenced w later seq c)
    (hLater : later.stage = .sending pass rest) : later.Sound := by
  obtain ⟨hFresh, hPassing⟩ : w.Fresh pass ∧ w.Passing pass (seq :: rest) := by
    have hOk := h.stage
    rwa [hStage] at hOk
  have hActive := h.ended.active (by simp [hStage])
  have hCarriers : ∀ other ∈ later.carriers, other ∈ w.carriers := by
    intro other hOther
    rcases mem_carriers.mp hOther with ⟨item, hMem, rfl⟩ | hResponse
    · exact mem_carriers.mpr (.inl ⟨item, hSent.there item hMem, rfl⟩)
    · exact mem_carriers.mpr (.inr (hSent.response ▸ hResponse))
  have hKept : ∀ other ∈ w.carriers, other ∈ later.carriers ∨ (other = c ∧ c.row = none) := by
    intro other hOther
    rcases mem_carriers.mp hOther with ⟨item, hMem, rfl⟩ | hResponse
    · rcases hSent.keeps item hMem with hKeeps | ⟨hSeq, hNone⟩
      · exact .inl (mem_carriers.mpr (.inl ⟨item, hKeeps, rfl⟩))
      · exact .inr ⟨congrArg Prod.snd (h.disk.unique hMem hItem hSeq), hNone⟩
    · exact .inl (mem_carriers.mpr (.inr (hSent.response.symm ▸ hResponse)))
  have hRowed : ∀ other ∈ w.carriers, ∀ r, other.row = some r → other ∈ later.carriers := by
    intro other hOther r hRow
    rcases hKept other hOther with hThere | ⟨rfl, hNone⟩
    · exact hThere
    · rw [hRow] at hNone
      cases hNone
  have hFront : ∀ other ∈ later.carriers, later.isOpen other = true → c.number < other.number := by
    intro other hOther hOpen
    rcases hFirst.front other (hCarriers other hOther) (hSent.rows.isOpen hOpen) with rfl | hLess
    · rcases mem_carriers.mp hOther with ⟨item, hMem, rfl⟩ | hResponse
      · rcases h.disk.compare (hSent.there item hMem) hItem with hSame | ⟨-, hLess⟩ | ⟨-, hLess⟩
        · rw [hSent.shut item hMem (congrArg Prod.fst hSame)] at hOpen
          cases hOpen
        · exact absurd hLess (Nat.lt_irrefl _)
        · exact absurd hLess (Nat.lt_irrefl _)
      · exact absurd (h.disk.response other (hSent.response ▸ hResponse) _ hItem) (Nat.lt_irrefl _)
    · exact hLess
  have hAttempts : ∀ attempt ∈ w.attempts, attempt ∈ later.attempts := by
    rw [hSent.attempts]
    exact fun attempt hMem => List.mem_append_left _ hMem
  have hSettled : ∀ other ∈ w.staged, w.Settled other → later.Settled other := fun other _ hSettled =>
    hSent.rows.settled hAttempts hSettled
  have hOwn : later.Settled c := .inl (by rw [hSent.attempts]; simp)
  refine ⟨⟨h.disk.order.sublist hSent.order, fun item hMem => h.disk.small item (hSent.there item hMem),
    fun item hMem => h.disk.texts item (hSent.there item hMem), ?_, ?_, ?_, ?_⟩, ⟨?_, ?_, ?_⟩, ⟨?_, ?_, ?_⟩, ⟨?_, ?_⟩,
    ⟨?_, ?_, ?_, ?_⟩, ?_⟩
  · rw [hSent.response]
    exact fun other hOther item hMem => h.disk.response other hOther item (hSent.there item hMem)
  · exact hSent.staged ▸ h.disk.staged
  · rw [hSent.staged]
    exact fun other hOther => h.disk.there other (hCarriers other hOther)
  · rw [hSent.staged]
    exact fun other hOther r hRow => hSent.rows.isSome (h.disk.rowed other hOther r hRow)
  · rw [hSent.attempts, hSent.staged]
    intro attempt hAttempt
    rcases List.mem_append.mp hAttempt with hOld | hNew
    · exact h.tried.numbers attempt hOld
    · rw [List.mem_singleton.mp hNew]
      exact h.disk.staged c (h.disk.there c hFirst.there)
  · rw [hSent.attempts, List.pairwise_append]
    refine ⟨h.tried.ordered, List.pairwise_singleton .., fun old hOld new hNew => ?_⟩
    rw [List.mem_singleton.mp hNew]
    exact h.tried.ahead hActive.1 old hOld c hFirst.there hFirst.isOpen
  · rw [hSent.attempts]
    intro _ attempt hAttempt other hOther hOpen
    rcases List.mem_append.mp hAttempt with hOld | hNew
    · exact h.tried.ahead hActive.1 attempt hOld other (hCarriers other hOther) (hSent.rows.isOpen hOpen)
    · rw [List.mem_singleton.mp hNew]
      have hLess := hFront other hOther hOpen
      exact ⟨Nat.le_of_lt hLess, fun _ => hLess⟩
  · rw [hSent.staged]
    intro other hOther
    rcases h.covered.carriers other hOther with hDone | hThere | ⟨r, hRow, kept, hKeptThere, hKeptRow⟩
    · exact .inl (hSettled other hOther hDone)
    · rcases hKept other hThere with hStays | ⟨rfl, -⟩
      · exact .inr (.inl hStays)
      · exact .inl hOwn
    · exact .inr (.inr ⟨r, hRow, kept, hRowed kept hKeptThere r hKeptRow, hKeptRow⟩)
  · rw [hSent.event]
    intro hDone r hPending
    obtain ⟨kept, hThere, hRow⟩ := h.covered.rows hDone r (hSent.rows.pending hPending)
    exact ⟨kept, hRowed kept hThere r hRow, hRow⟩
  · rw [hSent.event, hSent.response]
    exact fun hFlag other hOther => hSent.rows.closed (h.covered.suppressed hFlag other hOther)
  · intro item hMem hOpen hKnown
    rcases hSent.facts _ hKnown with hOld | hNew
    · exact h.fenced.interim item (hSent.there item hMem) (hSent.rows.isOpen hOpen) hOld
    · rw [hSent.shut item hMem (fileName_injective (SendKey.interim.inj hNew))] at hOpen
      cases hOpen
  · intro hKnown
    rw [hSent.event]
    rcases hSent.facts _ hKnown with hOld | hNew
    · exact h.fenced.terminal hOld
    · cases hNew
  · rw [hSent.event]
    exact fun hLeft => absurd hLeft (by simp [hActive])
  · rw [hSent.before, hSent.staged]
    exact h.ended.mark
  · rw [hSent.event]
    exact fun hStatus => absurd hStatus hActive.1
  · exact hSent.left ▸ h.ended.left
  · rw [hLater]
    refine ⟨⟨hSent.event ▸ hFresh.done, hSent.event ▸ hFresh.suppressed⟩, hPassing.tail hSent.there ?_ ?_⟩
    · intro other hOther hNot
      obtain ⟨item, hMem, rfl⟩ := List.mem_map.mp hOther
      rcases hSent.keeps item hMem with hKeeps | ⟨hSeq, -⟩
      · exact List.mem_map_of_mem hKeeps
      · exact absurd hSeq hNot
    · rintro item hMem (hShut | hSeq)
      · exact hSent.rows.closed hShut
      · exact hSent.shut item hMem hSeq

/-- An event is closed when every carrier is settled: then no row is pending. -/
theorem Sound.closed (h : w.Sound) {queue : List ℕ} (hStage : w.stage = .sending pass queue) (hDone : pass.status = .done)
    (hAdvances : Advances w later) (hAttempts : ∀ attempt ∈ w.attempts, attempt ∈ later.attempts)
    (hSettled : ∀ c ∈ w.carriers, later.Settled c)
    (hShut : ∀ c ∈ w.carriers, ∀ r ∈ c.row, Entries.get r later.rows ≠ some .pending)
    (hNumbers : ∀ attempt ∈ later.attempts, attempt.1 < w.staged.length) (hOrdered : later.attempts.Pairwise Follows)
    (hFacts : ∀ key ∈ later.facts, key ∈ w.facts ∨ key = .terminal) (hEvent : later.event = w.event)
    (hBefore : later.before = w.before) : (later.close pass).Sound := by
  have hFresh : w.Fresh pass := by
    have hOk := h.stage
    rw [hStage] at hOk
    exact hOk.1
  have hActive := h.ended.active (by simp [hStage])
  have hStatus : later.event.status = pass.status := by rw [hEvent, hFresh.done hDone, hDone]
  have hClose : later.close pass =
      { later with
        event := { later.event with status := .delivered }
        left := some (pendingRows later.rows)
        retry := none
        stage := .idle } := by
    rw [close, setStatus, if_pos hStatus]
  have hAll : ∀ c ∈ w.staged, later.Settled c := by
    intro c hC
    rcases h.covered.carriers c hC with hWas | hThere | ⟨r, hRow, kept, hThere, hKept⟩
    · exact hAdvances.rows.settled hAttempts hWas
    · exact hSettled c hThere
    · obtain ⟨status, hGet⟩ := Option.isSome_iff_exists.mp (hAdvances.rows.isSome (h.disk.rowed c hC r hRow))
      refine .inr ⟨r, hRow, status, hGet, fun hPending => hShut kept hThere r hKept ?_⟩
      rw [hGet, hPending]
  rw [hClose]
  have hSame : Advances w
      { later with
        event := { later.event with status := .delivered }
        left := some (pendingRows later.rows)
        retry := none
        stage := .idle } := ⟨hAdvances.partials, hAdvances.response, hAdvances.staged, hAdvances.rows⟩
  have hFlag : later.event.suppressed = true → w.event.suppressed = true := fun hSet => hEvent ▸ hSet
  refine ⟨h.disk.advance hSame, ⟨?_, hOrdered, fun hNot => absurd rfl hNot⟩,
    h.covered.advance hSame hAttempts nofun hFlag, ⟨?_, fun _ => rfl⟩, ⟨fun _ => rfl, ?_, ?_, ?_⟩, trivial⟩
  · rw [hSame.staged]
    exact hNumbers
  · rw [hSame.partials]
    intro item hItem hOpen hKnown
    rcases hFacts _ hKnown with hOld | hNew
    · exact h.fenced.interim item hItem (hSame.rows.isOpen hOpen) hOld
    · cases hNew
  · rw [hSame.staged]
    exact hBefore ▸ h.ended.mark
  · rw [hSame.staged]
    exact fun _ k _ c hC => hAll c (List.mem_of_mem_take hC)
  · intro rows hRows
    rw [← Option.some.inj hRows, List.eq_nil_iff_forall_not_mem]
    intro r hPending
    obtain ⟨c, hThere, hRow⟩ := h.covered.rows (hFresh.done hDone) r (hAdvances.rows.pending hPending)
    exact hShut c hThere r hRow (mem_pendingRows.mp hPending)

theorem not_pending_of_closed {c : Carrier ρ} (hClosed : w.isOpen c = false) {r : ρ} (hRow : c.row = some r) :
    Entries.get r w.rows ≠ some .pending := by
  intro hPending
  refine Bool.eq_false_iff.mp hClosed (isOpen_iff.mpr fun other hOther status hStatus => ?_)
  obtain rfl := Option.mem_unique hRow hOther
  exact Option.mem_unique hStatus hPending

/-- A pass that ends without a terminal to send. -/
theorem Sound.closes (h : w.Sound) (hStage : w.stage = .sending pass []) (hDone : pass.status = .done)
    (hClosed : ∀ c ∈ w.response, w.isOpen c = false) : (w.close pass).Sound := by
  obtain ⟨-, hPassing⟩ : w.Fresh pass ∧ w.Passing pass [] := by
    have hOk := h.stage
    rwa [hStage] at hOk
  have hShut : ∀ c ∈ w.carriers, w.isOpen c = false := by
    intro c hC
    rcases mem_carriers.mp hC with ⟨item, hItem, rfl⟩ | hResponse
    · exact hPassing.last hDone item hItem List.not_mem_nil
    · exact hClosed c hResponse
  exact h.closed hStage hDone (.refl rfl rfl rfl rfl) (fun _ hMem => hMem) (fun c hC => settled_of_closed (hShut c hC))
    (fun c hC r hRow => not_pending_of_closed (hShut c hC) hRow) h.tried.numbers h.tried.ordered (fun _ hKey => .inl hKey) rfl rfl

/-- A confirmed terminal. -/
theorem Sound.answers (h : w.Sound) {c : Carrier ρ} (hStage : w.stage = .sending pass []) (hDone : pass.status = .done)
    (hResponse : w.response = some c) (hOpen : w.isOpen c = true) :
    (({ w with attempts := w.attempts ++ [(c.number, true)]
               facts := if fenced then w.facts ++ [.terminal] else w.facts
               rows := settle c.row .delivered w.rows } : World ρ).close pass).Sound := by
  obtain ⟨-, hPassing⟩ : w.Fresh pass ∧ w.Passing pass [] := by
    have hOk := h.stage
    rwa [hStage] at hOk
  have hActive := h.ended.active (by simp [hStage])
  obtain ⟨hFirst, hOnly⟩ := first_terminal hPassing hDone hResponse hOpen
  have hAdvance : RowsAdvance w { w with rows := settle c.row .delivered w.rows } := advances_settle w c.row (by decide)
  have hOthers : ∀ other ∈ w.carriers, other = c ∨ w.isOpen other = false := by
    intro other hOther
    cases hOtherOpen : w.isOpen other with
    | false => exact .inr rfl
    | true => exact .inl (hOnly other hOther hOtherOpen)
  refine h.closed hStage hDone ⟨rfl, rfl, rfl, hAdvance⟩ (fun _ hMem => List.mem_append_left _ hMem) (fun other hOther => ?_)
    (fun other hOther r hRow hPending => ?_) (fun attempt hAttempt => ?_) ?_ (fun key hKey => ?_) rfl rfl
  · rcases hOthers other hOther with rfl | hShut
    · exact .inl (by simp)
    · exact (settled_of_closed (hAdvance.closed hShut)).imp_left fun hSent => List.mem_append_left _ hSent
  · rcases hOthers other hOther with rfl | hShut
    · dsimp only at hPending
      rw [get_settle] at hPending
      split_ifs at hPending with hOwn
      · cases hPending
      · exact hOwn ⟨hRow, hPending⟩
    · exact not_pending_of_closed (hAdvance.closed hShut) hRow hPending
  · rcases List.mem_append.mp hAttempt with hOld | hNew
    · exact h.tried.numbers attempt hOld
    · rw [List.mem_singleton.mp hNew]
      exact h.disk.staged c (h.disk.there c hFirst.there)
  · rw [List.pairwise_append]
    refine ⟨h.tried.ordered, List.pairwise_singleton .., fun old hOld new hNew => ?_⟩
    rw [List.mem_singleton.mp hNew]
    exact h.tried.ahead hActive.1 old hOld c hFirst.there hFirst.isOpen
  · dsimp only at hKey
    split_ifs at hKey
    · exact (List.mem_append.mp hKey).imp_right List.mem_singleton.mp
    · exact .inl hKey

/-- Each step of a pass keeps what is known of the event. -/
theorem Sound.deliver (h : w.Sound) {queue : List ℕ} {outcome : Outcome} (hStage : w.stage = .sending pass queue)
    (hAllowed : w.Allowed fenced (.deliver outcome)) : (w.deliver fenced pass queue outcome).Sound := by
  have hDelivers := @Sound.delivers ρ _ fenced w pass h queue hStage outcome
  revert hDelivers
  generalize w.deliver fenced pass queue outcome = later
  rintro (⟨hItem, hClosed⟩ | ⟨hItem, hFirst⟩ | ⟨retry, hFirst⟩ | ⟨hFirst, hGivesUp, hFlight⟩ | hNot | ⟨hDone, hClosed⟩ |
    ⟨hDone, hResponse, hOpen⟩)
  · exact h.skips hStage hItem hClosed
  · exact h.sends hStage hItem hFirst (h.sent hItem _) rfl
  · exact h.fails hStage hFirst
  · exact h.givesUp hStage hFirst hGivesUp hFlight hAllowed
  · exact h.moves trivial fun _ => rfl
  · exact h.closes hStage hDone hClosed
  · exact h.answers hStage hDone hResponse hOpen

end Brnrd.Gates.World
