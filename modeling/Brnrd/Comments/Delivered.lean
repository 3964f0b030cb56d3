import Brnrd.Comments.Poll
import Mathlib.Data.List.MinMax

/-! The steps of a poll keep what the cursor has behind it, and a run of polls
therefore loses no comment and no review; and the poll that does. -/
namespace Brnrd.Comments

variable {marked : String → Bool} {n : Nat}

variable {w : World}

theorem listing_subset (h : w.Holds marked n) (since : Int) :
    (∀ c ∈ w.server.listing (.pulls since), c.updated ≤ w.clock) ∧
      ∀ c ∈ w.server.listing (.issues since), c.updated ≤ w.clock :=
  ⟨fun c hc => h.past .reviewComment c (.inl ⟨rfl, (List.mem_filter.mp hc).1⟩),
    fun c hc => h.past .comment c (.inr ⟨rfl, (List.mem_filter.mp hc).1⟩)⟩

/-- The row a poll starts from has nothing new behind it. -/
theorem World.Holds.cursor (h : w.Holds marked n) (hIdle : w.phase = .idle) (now : Int) :
    (w.cursor now).since ≤ max w.clock (w.cursor now).floor ∧ Covered marked n w.server (w.cursor now) w.Returned := by
  unfold World.cursor
  split
  · rename_i row hMemory
    refine ⟨h.bounded row (.inl hMemory), (h.memory row hMemory).mono fun r hr => hr.resolve_right ?_⟩
    simp [hIdle, Phase.found]
  · rename_i row _ hStored
    have hBack : row.since - overlap ≤ row.since := Int.sub_le_self _ (by decide)
    exact ⟨hBack.trans (h.bounded row (.inr hStored)), fun kind c hc hWanted hLow hHigh =>
      h.stored row hStored kind c hc hWanted hLow (hHigh.trans_le hBack)⟩
  · exact ⟨le_max_right _ _, fun kind c hc hWanted hLow hHigh => absurd hHigh (not_lt.mpr hLow)⟩

theorem Args.todo_claimed {args : Args} {number : Nat} (h : number ∈ args.todo) : (args.owners number).isSome := by
  simpa using (List.mem_filter.mp h).2

variable {answers : Nat → Answer}

theorem World.Holds.begin (h : w.Holds marked n) {args : Args} {now : Int} (hIdle : w.phase = .idle)
    (hClaimed : (args.owners n).isSome) (hHonest : w.Honest (.pulls (w.cursor now).since) answers) :
    (w.begin args now answers).Holds marked n := by
  obtain ⟨hBound, hCovered⟩ := h.cursor hIdle now
  have hBounded : ∀ row, some (w.cursor now) = some row ∨ w.stored = some row → row.since ≤ max w.clock row.floor := by
    rintro row (hRow | hRow)
    · cases hRow
      exact hBound
    · exact h.bounded row (.inr hRow)
  have hMemory : ∀ row, some (w.cursor now) = some row → Covered marked n w.server row w.Returned := by
    rintro row hRow
    cases hRow
    exact hCovered
  unfold World.begin
  dsimp only
  split
  · rename_i etags pulls hRead
    obtain ⟨hPulls, -⟩ := read_eq hHonest (congrArg Prod.snd hRead)
    refine ⟨h.past, hBounded, fun row hRow => (hMemory row hRow).mono fun r => .inl, h.stored, ?_, ?_, h.owed⟩
    · rintro args' pulls' hPhase
      obtain ⟨rfl, rfl⟩ := Phase.issues.inj hPhase
      refine ⟨⟨hClaimed, rfl⟩, fun c hc => (listing_subset h (w.cursor now).since).1 c ?_⟩
      rw [hPulls] at hc
      exact List.mem_of_mem_take hc
    · rintro args' todo found due hPhase
      cases hPhase
  · refine ⟨h.past, hBounded, fun row hRow => (hMemory row hRow).mono fun r => .inl, h.stored, ?_, ?_, h.owed⟩
    · rintro args' pulls' hPhase
      cases hPhase
    · rintro args' todo found due hPhase
      obtain ⟨rfl, rfl, rfl, rfl⟩ := Phase.reviews.inj hPhase
      exact ⟨⟨hClaimed, rfl⟩, fun number => Args.todo_claimed, by simp⟩

theorem mem_commentRows {kind : Kind} {raws : List Raw} {row : Row} {updated : Int} :
    (row, updated) ∈ commentRows marked kind raws ↔
      ∃ c ∈ raws, ∃ number, c.number = some number ∧ row = c.row marked number kind ∧ updated = c.updated := by
  simp only [commentRows, List.mem_filterMap, Option.map_eq_some_iff, Prod.mk.injEq]
  constructor
  · rintro ⟨c, hc, number, hNumber, rfl, rfl⟩
    exact ⟨c, hc, number, hNumber, rfl, rfl⟩
  · rintro ⟨c, hc, number, hNumber, rfl, rfl⟩
    exact ⟨c, hc, number, hNumber, rfl, rfl⟩

/-- The cursor moves to the newest of the rows, or stays. -/
theorem CursorRow.move_cases (row : CursorRow) (updated : List Int) :
    (row.move updated).floor = row.floor ∧
      (row.move updated = row ∨ ∃ newest ∈ updated, (row.move updated).since = newest) := by
  unfold CursorRow.move
  split
  · rename_i newest hMax
    split
    · exact ⟨rfl, .inr ⟨newest, List.max?_mem hMax, rfl⟩⟩
    · exact ⟨rfl, .inl rfl⟩
  · exact ⟨rfl, .inl rfl⟩

/-- Behind both lists the cursor stands where it was, or at a comment the poll got. -/
theorem moved_cases (marked : String → Bool) (row : CursorRow) (pulls issues : List Raw) :
    let rows := commentRows marked .reviewComment pulls ++ commentRows marked .comment issues
    (row.move (rows.map Prod.snd)).floor = row.floor ∧ (row.move (rows.map Prod.snd) = row ∨
      ∃ d ∈ pulls ++ issues, d.number.isSome ∧ (row.move (rows.map Prod.snd)).since = d.updated) := by
  intro rows
  obtain ⟨hFloor, hMoved⟩ := row.move_cases (rows.map Prod.snd)
  refine ⟨hFloor, hMoved.imp id ?_⟩
  rintro ⟨newest, hMem, hSince⟩
  obtain ⟨⟨r, updated⟩, hPair, rfl⟩ := List.mem_map.mp hMem
  rcases List.mem_append.mp hPair with hPair | hPair
  · obtain ⟨d, hd, number, hNumber, -, rfl⟩ := mem_commentRows.mp hPair
    exact ⟨d, List.mem_append_left _ hd, by simp [hNumber], hSince⟩
  · obtain ⟨d, hd, number, hNumber, -, rfl⟩ := mem_commentRows.mp hPair
    exact ⟨d, List.mem_append_right _ hd, by simp [hNumber], hSince⟩

theorem World.Holds.readIssues (h : w.Holds marked n) (hReal : Step.Real n w (.issues answers))
    (hMeets : Step.Meets marked n w (.issues answers)) :
    (w.readIssues marked answers).Holds marked n := by
  unfold World.readIssues
  split
  · rename_i args pulls row hPhase hMemory
    obtain ⟨⟨hClaimed, -⟩, hPast⟩ := h.between args pulls hPhase
    have hOld : Covered marked n w.server row w.Returned := (h.memory row hMemory).mono fun r hr =>
      hr.resolve_right (by simp [hPhase, Phase.found])
    split
    · rename_i etags issues hRead
      obtain ⟨hIssues, hLands⟩ := read_eq (hReal row hMemory) (congrArg Prod.snd hRead)
      have hOrder := hMeets args pulls row hPhase hMemory hLands
      rw [← hIssues] at hOrder
      obtain ⟨hFloor, hNewest⟩ := moved_cases marked row pulls issues
      dsimp only
      generalize hRow' : row.move ((commentRows marked .reviewComment pulls ++
        commentRows marked .comment issues).map Prod.snd) = row' at hFloor hNewest ⊢
      have hGotPast : ∀ d ∈ pulls ++ issues, d.updated ≤ w.clock := by
        intro d hd
        rcases List.mem_append.mp hd with hd | hd
        · exact hPast d hd
        · rw [hIssues] at hd
          exact (listing_subset h row.since).2 d (List.mem_of_mem_take hd)
      refine ⟨h.past, ?_, ?_, h.stored, ?_, ?_, h.owed⟩
      · rintro r (hr | hr)
        · obtain rfl := Option.some.inj hr
          rcases hNewest with rfl | ⟨d, hd, -, hSince⟩
          · exact h.bounded _ (.inl hMemory)
          · exact hSince ▸ (hGotPast d hd).trans (le_max_left _ _)
        · exact h.bounded r (.inr hr)
      · intro r hr
        obtain rfl := Option.some.inj hr
        intro kind c hc hWanted hLow hHigh
        rw [hFloor] at hLow
        by_cases hBelow : c.updated < row.since
        · exact .inl (hOld kind c hc hWanted hLow hBelow)
        -- a comment the cursor has passed in this poll is one of those it got
        · have hPassed : ¬∀ d ∈ pulls ++ issues, d.number.isSome → d.updated ≤ c.updated := by
            intro hAll
            rcases hNewest with rfl | ⟨d, hd, hNumber, hSince⟩
            · exact hBelow hHigh
            · exact absurd (hSince ▸ hHigh) (not_lt.mpr (hAll d hd hNumber))
          have hAbove : decide (row.since ≤ c.updated) = true := decide_eq_true (not_lt.mp hBelow)
          refine .inr (List.mem_map.mpr ⟨(c.row marked n kind, c.updated), ?_, rfl⟩)
          rcases hc with ⟨rfl, hc⟩ | ⟨rfl, hc⟩
          · have hMem : c ∈ pulls := by
              by_contra hNot
              exact hPassed (hOrder c hWanted (.inl ⟨List.mem_filter.mpr ⟨hc, hAbove⟩, hNot⟩))
            exact List.mem_append_left _ (mem_commentRows.mpr ⟨c, hMem, n, hWanted.1, rfl, rfl⟩)
          · have hListed : c ∈ w.server.listing (.issues row.since) := List.mem_filter.mpr ⟨hc, hAbove⟩
            have hMem : c ∈ issues := by
              by_contra hNot
              refine hPassed (hOrder c hWanted (.inr ?_))
              rw [← List.take_append_drop (readTo (w.server.listing (.issues row.since)) answers)
                (w.server.listing (.issues row.since)), ← hIssues] at hListed
              exact (List.mem_append.mp hListed).resolve_left hNot
            exact List.mem_append_right _ (mem_commentRows.mpr ⟨c, hMem, n, hWanted.1, rfl, rfl⟩)
      · rintro args' pulls' hNext
        cases hNext
      · rintro args' todo found due hNext
        obtain ⟨rfl, rfl, rfl, rfl⟩ := Phase.reviews.inj hNext
        exact ⟨⟨hClaimed, rfl⟩, fun number => Args.todo_claimed, by simp⟩
    · refine ⟨h.past, h.bounded, fun r hr => ?_, h.stored, ?_, ?_, h.owed⟩
      · obtain rfl := Option.mem_unique hMemory hr
        exact hOld.mono fun r => .inl
      · rintro args' pulls' hNext
        cases hNext
      · rintro args' todo found due hNext
        obtain ⟨rfl, rfl, rfl, rfl⟩ := Phase.reviews.inj hNext
        exact ⟨⟨hClaimed, by simp [hMemory]⟩, fun number => Args.todo_claimed, by simp⟩
  · exact h

theorem World.Holds.readReviews (h : w.Holds marked n) (hReal : Step.Real n w (.reviews answers))
    (hMeets : Step.Meets marked n w (.reviews answers)) :
    (w.readReviews marked answers).Holds marked n := by
  unfold World.readReviews
  split
  · rename_i args number todo found due row hPhase hMemory
    obtain ⟨⟨hClaimed, -⟩, hTodo, hDue⟩ := h.reading args (number :: todo) found due hPhase
    have hFound : ∀ r, r ∈ w.phase.found ↔ r ∈ found := fun r => by simp [hPhase, Phase.found]
    split
    · rename_i etags raws hRead
      obtain ⟨hRaws, -⟩ := read_eq (hReal args number todo found due hPhase) (congrArg Prod.snd hRead)
      -- a list that is read to its end is read whole
      have hWhole : raws = w.server.reviews number := by
        rw [hRaws]
        exact List.take_of_length_le (hMeets args number todo found due hPhase)
      subst hWhole
      refine ⟨h.past, h.bounded, fun r hr => (h.memory r hr).mono fun r' hr' => ?_, h.stored, ?_, ?_, h.owed⟩
      · exact hr'.imp id fun hr' => List.mem_append_left _ ((hFound r').mp hr')
      · rintro args' pulls' hNext
        cases hNext
      · rintro args' todo' found' due' hNext
        obtain ⟨rfl, rfl, rfl, rfl⟩ := Phase.reviews.inj hNext
        refine ⟨⟨hClaimed, by simp [hMemory]⟩, fun k hk => hTodo k (List.mem_cons_of_mem _ hk), fun r hr => ?_⟩
        rcases List.mem_append.mp hr with hr | hr
        · obtain ⟨hMem, hRest⟩ := hDue r hr
          exact ⟨List.mem_append_left _ hMem, hRest⟩
        · obtain ⟨hMem, hKept⟩ := List.mem_filter.mp hr
          obtain ⟨raw, -, rfl⟩ := List.mem_map.mp (List.mem_filter.mp hMem).1
          obtain ⟨hBot, hUrl⟩ : (raw.row marked number .review).bot = false ∧ (raw.row marked number .review).url ≠ "" := by
            simpa using hKept
          exact ⟨List.mem_append_right _ hMem, hTodo number (by simp), hBot, hUrl⟩
    · refine ⟨h.past, h.bounded, fun r hr => (h.memory r hr).mono fun r' hr' => ?_, h.stored, ?_, ?_, h.owed⟩
      · exact hr'.imp id (hFound r').mp
      · rintro args' pulls' hNext
        cases hNext
      · rintro args' todo' found' due' hNext
        obtain ⟨rfl, rfl, rfl, rfl⟩ := Phase.reviews.inj hNext
        exact ⟨⟨hClaimed, by simp [hMemory]⟩, fun k hk => hTodo k (List.mem_cons_of_mem _ hk), hDue⟩
  · exact h

/-- A row found on a claimed pull request is kept, unless it is a bot's or has no address. -/
theorem mem_keep {owners : Nat → Option String} {found : List Row} {r : Row} (hMem : r ∈ found)
    (hClaimed : (owners r.number).isSome) (hBot : r.bot = false) (hUrl : r.url ≠ "") :
    ∃ thread, ⟨r, thread⟩ ∈ keep owners found := by
  obtain ⟨thread, hThread⟩ := Option.isSome_iff_exists.mp hClaimed
  exact ⟨thread, List.mem_filterMap.mpr ⟨r, hMem, by simp [hThread, hBot, hUrl]⟩⟩

theorem World.Holds.finish (h : w.Holds marked n) (saved : Bool) : (w.finish saved).Holds marked n := by
  unfold World.finish
  split
  · rename_i args found due hPhase
    obtain ⟨⟨hClaimed, -⟩, -, hDue⟩ := h.reading args [] found due hPhase
    have hGrown : ∀ r, w.Returned r → ∃ thread, ⟨r, thread⟩ ∈ w.returned ++ keep args.owners found :=
      fun r ⟨thread, hr⟩ => ⟨thread, List.mem_append_left _ hr⟩
    have hKept : ∀ r ∈ found, (args.owners r.number).isSome → r.bot = false → r.url ≠ "" →
        ∃ thread, ⟨r, thread⟩ ∈ w.returned ++ keep args.owners found := fun r hr hOwner hBot hUrl =>
      (mem_keep hr hOwner hBot hUrl).imp fun thread => List.mem_append_right _
    have hMemory : ∀ row, w.memory = some row → Covered marked n w.server row fun r =>
        ∃ thread, ⟨r, thread⟩ ∈ w.returned ++ keep args.owners found := by
      intro row hRow kind c hc hWanted hLow hHigh
      rcases h.memory row hRow kind c hc hWanted hLow hHigh with hTold | hFound
      · exact hGrown _ hTold
      · rw [hPhase] at hFound
        obtain ⟨hNumber, hUser, hMark, hUrl⟩ := hWanted
        exact hKept _ hFound hClaimed (by simp [Raw.row, hUser, hMark]) hUrl
    refine ⟨h.past, ?_, fun row hRow => (hMemory row hRow).mono fun r => .inl, ?_, ?_, ?_, ?_⟩
    · rintro row (hRow | hRow)
      · exact h.bounded row (.inl hRow)
      · cases saved with
        | true => exact h.bounded row (.inl hRow)
        | false => exact h.bounded row (.inr hRow)
    · intro row hRow
      cases saved with
      | true => exact hMemory row hRow
      | false => exact (h.stored row hRow).mono hGrown
    · rintro args' pulls' hNext
      cases hNext
    · rintro args' todo' found' due' hNext
      cases hNext
    · intro r hr
      rcases List.mem_append.mp hr with hr | hr
      · exact hGrown r (h.owed r hr)
      · obtain ⟨hMem, hOwner, hBot, hUrl⟩ := hDue r hr
        exact hKept r hMem hOwner hBot hUrl
  · exact h

theorem World.Reach.holds (h : w.Reach marked n (Step.Meets marked n)) : w.Holds marked n := by
  induction h with
  | start hServer => exact World.start_holds hServer
  | @step w prior step hReal hCond ih =>
      cases step with
      | serve clock server =>
          obtain ⟨hClock, hProper, hNew⟩ := hReal
          exact ih.serve hClock hProper hNew
      | restart => exact ih.restart
      | begin args now answers =>
          obtain ⟨hIdle, hClaimed, hHonest⟩ := hReal
          refine ih.begin ?_ hClaimed hHonest
          revert hIdle
          cases w.phase <;> simp
      | issues answers => exact ih.readIssues hReal hCond
      | reviews answers => exact ih.readReviews hReal hCond
      | finish saved => exact ih.finish saved

end Brnrd.Comments
