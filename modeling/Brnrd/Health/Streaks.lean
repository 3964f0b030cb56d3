import Brnrd.Events.Rewrites
import Brnrd.Health.Loop

/-! What one call of the guard does to the degraded and the recovered facts of a step: a
streak opens, or the open one closes, and the loop's memory knows which. -/
namespace Brnrd.Health

variable {host : Host} {install own : Install} {step other named : Text} {since : Stamp} {ledger rows : List Row}
  {row back : Row} {mark : Mark} {l : List Mark} {o kept : Option Stamp} {m : Memory} {reply : Row → Reply}

section Ids

theorem streakId_inj {kind named : Text} {since' : Stamp}
    (h : streakId kind install step since = streakId kind own named since') :
    install = own ∧ step = named ∧ since = since' := by
  simp only [streakId, List.append_assoc, List.cons_append] at h
  have hRest := (List.cons.inj (List.append_cancel_left h)).2
  obtain ⟨hOwn, hRest⟩ := List.append_inj hRest (install.length_text.trans own.length_text.symm)
  obtain ⟨hStep, hSince⟩ := List.append_inj' (List.cons.inj hRest).2 (by simp [since.length_text, since'.length_text])
  refine ⟨?_, hStep, ?_⟩
  · cases install
    cases own
    simpa using hOwn
  · cases since
    cases since'
    simpa using (List.cons.inj hSince).2

theorem degraded_ne_recovered {named : Text} {since' : Stamp} :
    streakId "loom.degraded".toList install step since ≠ streakId "loom.recovered".toList own named since' := by
  intro h
  simp [streakId] at h

theorem noticeId_ne {kind kind' subject : Text} (h : kind = "loom.degraded".toList ∨ kind = "loom.recovered".toList) :
    noticeId host kind' subject ≠ streakId kind install step since := by
  rintro hSame
  rcases h with rfl | rfl <;> simp [streakId, noticeId] at hSame

/-- What a row is to a step is in its id. -/
theorem mark_of_id (hMark : row.mark install step = some mark) (hId : back.id host = row.id host) :
    back.mark install step = some mark := by
  cases row with
  | degraded own named error frame since episode dips =>
      simp only [Row.mark, Option.ite_none_right_eq_some, Option.some.injEq] at hMark
      obtain ⟨⟨rfl, rfl⟩, rfl⟩ := hMark
      cases back with
      | degraded own' named' error' frame' since' episode' dips' =>
          obtain ⟨rfl, rfl, rfl⟩ := streakId_inj hId
          simp [Row.mark]
      | recovered => exact absurd hId.symm degraded_ne_recovered
      | notice => exact absurd hId (noticeId_ne (.inl rfl))
  | recovered own named since count last episode told grade up =>
      simp only [Row.mark, Option.ite_none_right_eq_some, Option.some.injEq] at hMark
      obtain ⟨⟨rfl, rfl⟩, rfl⟩ := hMark
      cases back with
      | degraded => exact absurd hId degraded_ne_recovered
      | recovered own' named' since' =>
          obtain ⟨rfl, rfl, rfl⟩ := streakId_inj hId
          simp [Row.mark]
      | notice => exact absurd hId (noticeId_ne (.inr rfl))
  | notice => cases hMark

/-- Two rows that are one thing to a step have one id. -/
theorem id_of_mark (hMark : row.mark install step = some mark) (hBack : back.mark install step = some mark) :
    back.id host = row.id host := by
  cases row with
  | degraded own named error frame since episode dips =>
      simp only [Row.mark, Option.ite_none_right_eq_some, Option.some.injEq] at hMark
      obtain ⟨⟨rfl, rfl⟩, rfl⟩ := hMark
      cases back with
      | degraded =>
          simp only [Row.mark, Option.ite_none_right_eq_some, Option.some.injEq, Mark.down.injEq] at hBack
          obtain ⟨⟨rfl, rfl⟩, rfl⟩ := hBack
          rfl
      | recovered => simp [Row.mark] at hBack
      | notice => cases hBack
  | recovered own named since count last episode told grade up =>
      simp only [Row.mark, Option.ite_none_right_eq_some, Option.some.injEq] at hMark
      obtain ⟨⟨rfl, rfl⟩, rfl⟩ := hMark
      cases back with
      | degraded => simp [Row.mark] at hBack
      | recovered =>
          simp only [Row.mark, Option.ite_none_right_eq_some, Option.some.injEq, Mark.back.injEq] at hBack
          obtain ⟨⟨rfl, rfl⟩, rfl⟩ := hBack
          rfl
      | notice => cases hBack
  | notice => cases hMark

/-- A mark that is not there yet, behind the others. -/
def note (l : List Mark) (mark : Mark) : List Mark :=
  if mark ∈ l then l else l ++ [mark]

theorem mem_marks (hMark : row.mark install step = some mark) :
    mark ∈ marks install step ledger ↔ row.id host ∈ ledger.map (Row.id host) := by
  rw [marks, List.mem_filterMap, List.mem_map]
  exact ⟨fun ⟨other, hOther, hIs⟩ => ⟨other, hOther, id_of_mark hMark hIs⟩,
    fun ⟨other, hOther, hId⟩ => ⟨other, hOther, mark_of_id hMark hId⟩⟩

/-- The ledger takes a row as its step takes the mark. -/
theorem marks_put (ledger : List Row) (row : Row) : marks install step (put host ledger row) =
    (row.mark install step).toList.foldl note (marks install step ledger) := by
  unfold put
  cases hMark : row.mark install step with
  | none =>
      split
      · rfl
      · simp [marks, hMark]
  | some mark =>
      rw [Option.toList_some, List.foldl_cons, List.foldl_nil, note]
      by_cases hIn : mark ∈ marks install step ledger
      · rw [if_pos hIn, if_pos ((mem_marks hMark).mp hIn)]
      · rw [if_neg hIn, if_neg fun h => hIn ((mem_marks hMark).mpr h)]
        simp [marks, hMark]

theorem marks_foldl_put (rows ledger : List Row) : marks install step (rows.foldl (put host) ledger) =
    (marks install step rows).foldl note (marks install step ledger) := by
  induction rows generalizing ledger with
  | nil => rfl
  | cons row rows ih =>
      rw [List.foldl_cons, ih, marks_put, ← List.foldl_append]
      cases hMark : row.mark install step <;> simp [marks, hMark]

end Ids

section Paired

/-- Streaks one after the other, with the one that is open at the end. -/
inductive Paired : List Mark → Option Stamp → Prop where
  | nil : Paired [] none
  | down {l : List Mark} {since : Stamp} (h : Paired l none) (hNew : .down since ∉ l) : Paired (l ++ [.down since]) (some since)
  | back {l : List Mark} {since : Stamp} (h : Paired l (some since)) : Paired (l ++ [.back since]) none

theorem alternates_append (h : Paired l o) : ∀ rest : List Mark,
    (o = none → Alternates rest = true → Alternates (l ++ rest) = true) ∧
      ∀ since, o = some since → (rest = [] ∨ ∃ tail, rest = .back since :: tail ∧ Alternates tail = true) →
        Alternates (l ++ rest) = true := by
  induction h with
  | nil => exact fun rest => ⟨fun _ hRest => hRest, fun since h => absurd h (by simp)⟩
  | @down l since h hNew ih =>
      refine fun rest => ⟨fun h => absurd h (by simp), fun other hOther hRest => ?_⟩
      obtain rfl := Option.some.inj hOther
      rw [List.append_assoc]
      refine (ih _).1 rfl ?_
      rcases hRest with rfl | ⟨tail, rfl, hTail⟩
      · rfl
      · simpa [Alternates] using hTail
  | @back l since h ih =>
      refine fun rest => ⟨fun _ hRest => ?_, fun _ h => absurd h (by simp)⟩
      rw [List.append_assoc]
      exact (ih _).2 since rfl (.inr ⟨rest, rfl, hRest⟩)

theorem Paired.alternates (h : Paired l o) : Alternates l = true := by
  have hAll := alternates_append h []
  rw [List.append_nil] at hAll
  cases o with
  | none => exact hAll.1 rfl rfl
  | some since => exact hAll.2 since rfl (.inl rfl)

/-- A streak is open, or it opened and closed, or it is none. -/
theorem Paired.spec (h : Paired l o) (since : Stamp) :
    (o = some since ∧ .down since ∈ l ∧ .back since ∉ l) ∨
      (o ≠ some since ∧ (.down since ∈ l ↔ .back since ∈ l)) := by
  induction h with
  | nil => exact .inr ⟨by simp, by simp⟩
  | @down l opened h hNew ih =>
      obtain ⟨-, hSame⟩ := ih.resolve_left fun h => nomatch h.1
      by_cases hIs : opened = since
      · subst hIs
        exact .inl ⟨rfl, by simp, by simpa using hSame.not.mp hNew⟩
      · refine .inr ⟨fun h => hIs (Option.some.inj h), ?_⟩
        simpa [Ne.symm hIs] using hSame
  | @back l opened h ih =>
      refine .inr ⟨by simp, ?_⟩
      rcases ih with ⟨hOpen, hDown, -⟩ | ⟨hOther, hSame⟩
      · obtain rfl := Option.some.inj hOpen
        simpa using hDown
      · have hIs : since ≠ opened := fun h => hOther (congrArg some h.symm)
        simpa [hIs] using hSame

/-- The streak that a memory holds open for a step is open among the step's marks, or is
one of the same instant, which is closed there. -/
inductive Holds : List Mark → Option Stamp → Prop where
  | same {l : List Mark} {kept : Option Stamp} (h : Paired l kept) : Holds l kept
  | closed {l : List Mark} {since : Stamp} (h : Paired l none) (hDown : .down since ∈ l) : Holds l (some since)

theorem Holds.paired (h : Holds l kept) : ∃ o, Paired l o := by
  cases h with
  | same h => exact ⟨_, h⟩
  | closed h => exact ⟨_, h⟩

/-- What a call of the guard does to one step: nothing, or a streak opens, or the open one
closes. -/
inductive Goes : Option Stamp → List Mark → Option Stamp → Prop where
  | stays {kept : Option Stamp} : Goes kept [] kept
  | opens {since : Stamp} : Goes none [.down since] (some since)
  | closes {since : Stamp} : Goes (some since) [.back since] none

theorem Holds.goes {marked : List Mark} {kept' : Option Stamp} (h : Holds l kept) (hGoes : Goes kept marked kept') :
    Holds (marked.foldl note l) kept' := by
  cases hGoes with
  | stays => exact h
  | @opens since =>
      rw [List.foldl_cons, List.foldl_nil, note]
      generalize hKept : (none : Option Stamp) = kept at h
      cases h with
      | same h =>
          subst hKept
          split
          · rename_i hIn
            exact .closed h hIn
          · rename_i hNew
            exact .same (.down h hNew)
      | closed => cases hKept
  | @closes since =>
      rw [List.foldl_cons, List.foldl_nil, note]
      cases h with
      | same h =>
          obtain ⟨-, -, hBack⟩ := (h.spec since).resolve_right fun h => h.1 rfl
          rw [if_neg hBack]
          exact .same (.back h)
      | closed h hDown =>
          obtain ⟨-, hSame⟩ := (h.spec since).resolve_left fun h => nomatch h.1
          rw [if_pos (hSame.mp hDown)]
          exact .same h

end Paired

section Acts

/-- The streak that a memory holds open for a step. -/
def Memory.held (m : Memory) (step : Text) : Option Stamp :=
  (Entries.get step m.streaks).map Streak.since

@[simp] theorem held_withStreak (m : Memory) (step other : Text) (streak : Streak) :
    (m.withStreak step streak).held other = if step = other then some streak.since else m.held other := by
  unfold Memory.held Memory.withStreak
  rw [Entries.get_set]
  split <;> rfl

@[simp] theorem held_withEpisode (m : Memory) (step other : Text) (episode : Episode) :
    (m.withEpisode step episode).held other = m.held other :=
  rfl

theorem mark_step (h : row.mark install step = some mark) : row.step = some step := by
  cases row with
  | degraded =>
      simp only [Row.mark, Option.ite_none_right_eq_some] at h
      exact congrArg some h.1.2
  | recovered =>
      simp only [Row.mark, Option.ite_none_right_eq_some] at h
      exact congrArg some h.1.2
  | notice => cases h

theorem mark_letter (h : row.isStreak = false) : row.mark install step = none := by
  cases row with
  | degraded => cases h
  | recovered => cases h
  | notice => rfl

/-- What a part of the guard does: one streak's row at most, before what it tells, of one
step, with what its memory then holds open. -/
structure Acts (install : Install) (step : Text) (m : Memory) (done : Memory × List Row) : Prop where
  goes : Goes (m.held step) (marks install step done.2) (done.1.held step)
  others : ∀ other, other ≠ step → done.1.held other = m.held other
  led : ∃ (first : Option Row) (letters : List Row), done.2 = first.toList ++ letters ∧
    (∀ row ∈ first, row.step = some step) ∧ ∀ row ∈ letters, row.isStreak = false

theorem Acts.refl (m : Memory) : Acts install step m (m, []) :=
  ⟨.stays, fun _ _ => rfl, none, [], rfl, nofun, nofun⟩

/-- A part of the guard writes nothing of another step. -/
theorem Acts.silent {done : Memory × List Row} (h : Acts install step m done) (hOther : other ≠ step) :
    ∀ row ∈ done.2, row.mark install other = none := by
  obtain ⟨first, letters, hRows, hFirst, hLetters⟩ := h.led
  intro row hRow
  rw [hRows, List.mem_append, Option.mem_toList] at hRow
  cases hMark : row.mark install other with
  | none => rfl
  | some mark =>
      rcases hRow with hRow | hRow
      · have hIs := (mark_step hMark).symm.trans (hFirst row hRow)
        exact absurd (Option.some.inj hIs) hOther
      · rw [mark_letter (hLetters row hRow)] at hMark
        cases hMark

theorem telling_held (exc : Raised) (now : ℚ) (streak : Streak) (other : Text) :
    (telling host install step exc now streak m).1.held other = if step = other then some streak.since else m.held other := by
  unfold telling
  dsimp only
  split_ifs <;> simp_all

theorem telling_letters (exc : Raised) (now : ℚ) (streak : Streak) :
    ∀ row ∈ (telling host install step exc now streak m).2, row.isStreak = false := by
  unfold telling
  dsimp only
  split
  · split
    · exact fun row hRow => List.mem_singleton.mp hRow ▸ rfl
    · exact fun row hRow => (by cases hRow)
  · exact fun row hRow => (by cases hRow)

theorem marks_letters (h : ∀ row ∈ rows, row.isStreak = false) : marks install step rows = [] :=
  List.filterMap_eq_nil_iff.mpr fun row hRow => mark_letter (h row hRow)

@[simp] theorem since_paced (streak : Streak) (backoff : Bool) : (streak.paced backoff).since = streak.since := by
  unfold Streak.paced
  split <;> rfl

theorem failed_acts (exc : Raised) (backoff : Bool) (now : ℚ) :
    Acts install step m (failed host install step exc backoff now m) := by
  unfold failed
  cases hStreak : Entries.get step m.streaks with
  | some streak =>
      dsimp only
      refine ⟨?_, fun other hOther => ?_, none, _, rfl, nofun, telling_letters _ _ _⟩
      · rw [marks_letters (telling_letters _ _ _), telling_held, if_pos rfl, since_paced]
        have hHeld : m.held step = some streak.since := by rw [Memory.held, hStreak]; rfl
        rw [hHeld]
        exact .stays
      · rw [telling_held, if_neg (Ne.symm hOther)]
  | none =>
      dsimp only
      refine ⟨?_, fun other hOther => ?_, some _, _, rfl, fun row hRow => ?_, telling_letters _ _ _⟩
      · have hHeld : m.held step = none := by rw [Memory.held, hStreak]; rfl
        rw [hHeld, marks, List.filterMap_cons, ← marks, marks_letters (telling_letters _ _ _), telling_held, if_pos rfl,
          since_paced]
        simpa [Row.mark] using Goes.opens
      · rw [telling_held, if_neg (Ne.symm hOther), held_withEpisode]
      · obtain rfl := Option.some.inj hRow
        rfl

theorem passed_acts {streak : Streak} (up : ℚ) (hStreak : Entries.get step m.streaks = some streak) :
    Acts install step m (passed host install step streak up m) := by
  unfold passed
  dsimp only
  refine ⟨?_, fun other hOther => ?_, some _, [], rfl, fun row hRow => ?_, nofun⟩
  · have hHeld : m.held step = some streak.since := by rw [Memory.held, hStreak]; rfl
    have hGone : Entries.get step (m.streaks.filter fun item => item.1 ≠ step) = none :=
      Entries.get_filter_of_neg fun item hKey => by simp [hKey]
    rw [hHeld, held_withEpisode, Memory.held, hGone]
    simpa [marks, Row.mark] using Goes.closes
  · rw [held_withEpisode, Memory.held, Entries.get_filter_of_pos fun item hKey => by simp [hKey, hOther]]
    rfl
  · obtain rfl := Option.some.inj hRow
    rfl

theorem rested_acts (now : ℚ) : Acts install step m (rested host step now m) := by
  have hLetters : ∀ row ∈ (rested host step now m).2, row.isStreak = false := by
    unfold rested
    split
    · split
      · dsimp only
        split
        · exact fun row hRow => (by cases hRow)
        · exact fun row hRow => List.mem_singleton.mp hRow ▸ rfl
      · exact fun row hRow => (by cases hRow)
    · exact fun row hRow => (by cases hRow)
  have hHeld : ∀ other, (rested host step now m).1.held other = m.held other := by
    unfold rested
    intro other
    split
    · split_ifs <;> rfl
    · rfl
  refine ⟨?_, fun other _ => hHeld other, none, _, rfl, nofun, hLetters⟩
  rw [marks_letters hLetters, hHeld]
  exact .stays

end Acts

section Call

theorem mem_written (h : row ∈ written reply rows) : row ∈ rows :=
  (List.takeWhile_prefix _).subset (List.mem_of_mem_filter h)

variable {done : Memory × List Row}

/-- Of what a part of the guard writes nothing is lost that its step sees, or it is stopped
before that. -/
theorem Acts.lands (h : Acts install step m done) (hKept : ∀ row ∈ done.2, row.isStreak = true → reply row ≠ .refuses) :
    marks install step (written reply done.2) = marks install step done.2 ∨
      marks install step (written reply done.2) = [] ∧ ∃ row ∈ done.2, row.isStreak = true ∧ reply row = .stops := by
  obtain ⟨first, letters, hRows, -, hLetters⟩ := h.led
  rw [hRows] at hKept ⊢
  cases first with
  | none =>
      refine .inl ?_
      rw [Option.toList_none, List.nil_append, marks_letters hLetters,
        marks_letters fun row hRow => hLetters row (mem_written hRow)]
  | some row =>
      rw [Option.toList_some, List.singleton_append] at hKept ⊢
      cases hStreak : row.isStreak with
      | false =>
          have hAll : ∀ other ∈ row :: letters, other.isStreak = false := List.forall_mem_cons.mpr ⟨hStreak, hLetters⟩
          exact .inl ((marks_letters fun other hOther => hAll other (mem_written hOther)).trans (marks_letters hAll).symm)
      | true =>
          cases hReply : reply row with
          | takes =>
              have hWritten : written reply (row :: letters) = row :: written reply letters := by
                simp [written, hReply]
              refine .inl ?_
              rw [hWritten, marks, List.filterMap_cons, ← marks,
                marks_letters fun other hOther => hLetters other (mem_written hOther), marks, List.filterMap_cons, ← marks,
                marks_letters hLetters]
          | refuses => exact absurd hReply (hKept row List.mem_cons_self hStreak)
          | stops => exact .inr ⟨by simp [written, hReply, marks], row, List.mem_cons_self, hStreak, hReply⟩

theorem late_ne (step : Text) : late step ≠ step := by
  intro h
  have hLength := congrArg List.length h
  simp [late] at hLength

theorem late_ne_lease (step : Text) : late step ≠ leaseStep := by
  intro h
  have hLast := congrArg List.getLast? h
  simp [late, leaseStep] at hLast

/-- A failing step holds a streak. -/
theorem failed_held (exc : Raised) (backoff : Bool) (now : ℚ) :
    ((failed host install step exc backoff now m).1.held step).isSome := by
  unfold failed
  cases Entries.get step m.streaks with
  | some streak => simp [telling_held]
  | none => simp [telling_held]

/-- A call of the guard acts on its step, and then on the step of its watchdog; the streak
that the watchdog opens is closed at the end. -/
theorem guard_acts (call : Call) (m : Memory) : ∃ first second,
    Acts install call.step m (first, (guard host install call m).outcome) ∧
      Acts install (late call.step) first (second, (guard host install call m).watchdog) ∧
      Acts install (late call.step) second ((guard host install call m).memory, (guard host install call m).ended) ∧
      ((∃ row ∈ (guard host install call m).watchdog, row.isStreak = true) → (guard host install call m).ended ≠ []) := by
  have hRun : ∃ first second,
      Acts install call.step m (first, (guard.run host install call m).outcome) ∧
        Acts install (late call.step) first (second, (guard.run host install call m).watchdog) ∧
        Acts install (late call.step) second ((guard.run host install call m).memory, (guard.run host install call m).ended) ∧
        ((∃ row ∈ (guard.run host install call m).watchdog, row.isStreak = true) →
          (guard.run host install call m).ended ≠ []) := by
    refine ⟨(settled host install call m).1, (watched host install call (settled host install call m).1).1, ?_, ?_, ?_, ?_⟩
    · change Acts install call.step m (settled host install call m)
      unfold settled
      split
      · exact .refl m
      · exact failed_acts _ _ _
      · exact passed_acts _ ‹_›
      · exact rested_acts _
    · change Acts install (late call.step) _ (watched host install call _)
      unfold watched
      split
      · exact failed_acts _ _ _
      · exact .refl _
    · change Acts install (late call.step) _ (unwatched host install call _)
      unfold unwatched
      split
      · exact passed_acts _ ‹_›
      · exact .refl _
    · change (∃ row ∈ (watched host install call (settled host install call m).1).2, row.isStreak = true) →
        (unwatched host install call (watched host install call (settled host install call m).1).1).2 ≠ []
      unfold watched
      cases hOverrun : call.overrun with
      | none => simp
      | some overrun =>
          cases hFired : overrun.fired with
          | none => simp [hFired]
          | some fired =>
              intro _
              have hHeld := @failed_held host install (late call.step) (settled host install call m).1
                (stillRunning call.step overrun.limit) false fired
              simp only [Option.bind_some, hFired, Option.map_some, unwatched, hOverrun]
              rw [Memory.held, Option.isSome_map] at hHeld
              obtain ⟨streak, hStreak⟩ := Option.isSome_iff_exists.mp hHeld
              rw [hStreak]
              simp [passed]
  unfold guard
  split
  · split
    · rename_i streak hStreak _
      refine ⟨_, _, ⟨?_, fun other hOther => ?_, none, [], rfl, by simp, by simp⟩,
        .refl _, .refl _, by simp⟩
      · have hHeld : m.held call.step = some streak.since := by rw [Memory.held, hStreak]; rfl
        rw [held_withStreak, if_pos rfl, hHeld]
        exact .stays
      · rw [held_withStreak, if_neg (Ne.symm hOther)]
    · exact hRun
  · exact hRun

/-- The marks of a step after a call of the guard. -/
theorem marks_ledger {done : Done} (order : List Bool) (ledger : List Row)
    (hOne : (∀ row ∈ done.outcome, row.mark install step = none) ∨ ∀ row ∈ done.watchdog, row.mark install step = none) :
    marks install step (done.ledger host order reply ledger) =
      (marks install step (written reply done.outcome) ++ marks install step (written reply done.watchdog) ++
        marks install step (written reply done.ended)).foldl note (marks install step ledger) := by
  unfold Done.ledger
  rw [marks_foldl_put]
  congr 1
  rw [marks, List.filterMap_append, ← marks, ← marks]
  congr 1
  rcases hOne with hNone | hNone
  · have hEmpty : marks install step (written reply done.outcome) = [] :=
      List.filterMap_eq_nil_iff.mpr fun row hRow => hNone row (mem_written hRow)
    rw [hEmpty, List.nil_append]
    exact Interleaved.filterMap_right fun row hRow => hNone row (mem_written hRow)
  · have hEmpty : marks install step (written reply done.watchdog) = [] :=
      List.filterMap_eq_nil_iff.mpr fun row hRow => hNone row (mem_written hRow)
    rw [hEmpty, List.append_nil]
    exact Interleaved.filterMap_left fun row hRow => hNone row (mem_written hRow)

/-- The marks of a part of the guard, and what its memory holds, unless it is stopped. -/
theorem Acts.holds (h : Acts install step m done) (hTakes : ∀ row ∈ done.2, row.isStreak = true → reply row ≠ .refuses)
    (hHolds : Holds l (m.held step)) :
    Holds ((marks install step (written reply done.2)).foldl note l) (done.1.held step) ∨
      (marks install step (written reply done.2)).foldl note l = l ∧
        ∃ row ∈ done.2, row.isStreak = true ∧ reply row = .stops := by
  rcases h.lands hTakes with hAll | ⟨hNone, hStops⟩
  · exact .inl (hAll ▸ hHolds.goes h.goes)
  · exact .inr ⟨by rw [hNone]; rfl, hStops⟩

theorem Acts.no_marks (h : Acts install step m done) (hOther : other ≠ step) :
    marks install other (written reply done.2) = [] :=
  List.filterMap_eq_nil_iff.mpr fun row hRow => h.silent hOther row (mem_written hRow)

section Done

variable (host) {call : Call} {first second : Memory} {done : Done} (order : List Bool)
  (hOutcome : Acts install call.step m (first, done.outcome))
  (hWatchdog : Acts install (late call.step) first (second, done.watchdog))
  (hEnded : Acts install (late call.step) second (done.memory, done.ended))
  (hTakes : ∀ row ∈ done.outcome ++ done.watchdog ++ done.ended, row.isStreak = true → reply row ≠ .refuses)

include hOutcome hWatchdog hEnded hTakes

/-- The step of a call. -/
theorem outcome_holds (hHolds : Holds (marks install call.step ledger) (m.held call.step)) :
    Holds (marks install call.step (done.ledger host order reply ledger)) (done.memory.held call.step) ∨
      (∃ o, Paired (marks install call.step (done.ledger host order reply ledger)) o) ∧ isStopped reply done.outcome = true := by
  have hNot := (late_ne call.step).symm
  rw [marks_ledger order ledger (.inr (hWatchdog.silent hNot)), hWatchdog.no_marks hNot, hEnded.no_marks hNot,
    List.append_nil, List.append_nil, hEnded.others _ hNot, hWatchdog.others _ hNot]
  refine (hOutcome.holds (fun row hRow => hTakes row (by simp [hRow])) hHolds).imp_right ?_
  rintro ⟨hSame, row, hRow, -, hStops⟩
  dsimp only at hSame
  exact ⟨by rw [hSame]; exact hHolds.paired, List.any_eq_true.mpr ⟨row, hRow, by simpa using hStops⟩⟩

/-- The step of a call's watchdog. -/
theorem late_holds (hClosed : (∃ row ∈ done.watchdog, row.isStreak = true) → done.ended ≠ [])
    (hLate : ∀ row ∈ done.watchdog, row.isStreak = true → reply row = .stops → ∀ last ∈ done.ended, reply last = .stops)
    (hHolds : Holds (marks install (late call.step) ledger) (m.held (late call.step))) :
    Holds (marks install (late call.step) (done.ledger host order reply ledger)) (done.memory.held (late call.step)) ∨
      (∃ o, Paired (marks install (late call.step) (done.ledger host order reply ledger)) o) ∧
        isStopped reply done.ended = true := by
  have hNot := late_ne call.step
  rw [marks_ledger order ledger (.inl (hOutcome.silent hNot)), hOutcome.no_marks hNot, List.nil_append, List.foldl_append]
  rw [← hOutcome.others _ hNot] at hHolds
  have hEndedTakes : ∀ row ∈ done.ended, row.isStreak = true → reply row ≠ .refuses := fun row hRow =>
    hTakes row (by simp [hRow])
  rcases hWatchdog.holds (fun row hRow => hTakes row (by simp [hRow])) hHolds with hFirst | ⟨hSame, row, hRow, hStreak, hStops⟩
  · refine (hEnded.holds hEndedTakes hFirst).imp_right ?_
    rintro ⟨hSame, row, hRow, -, hStops⟩
    dsimp only at hSame
    exact ⟨by rw [hSame]; exact hFirst.paired, List.any_eq_true.mpr ⟨row, hRow, by simpa using hStops⟩⟩
  · have hAll := hLate row hRow hStreak hStops
    obtain ⟨last, hLast⟩ := List.exists_mem_of_ne_nil _ (hClosed ⟨row, hRow, hStreak⟩)
    have hNone : written reply done.ended = [] := by
      refine List.eq_nil_iff_forall_not_mem.mpr fun row hRow => ?_
      have hTaken := (List.mem_filter.mp hRow).2
      rw [hAll row (mem_written hRow)] at hTaken
      exact absurd hTaken (by decide)
    refine .inr ⟨?_, List.any_eq_true.mpr ⟨last, hLast, by simpa using hAll last hLast⟩⟩
    rw [hSame, hNone]
    exact hHolds.paired

omit hTakes in
/-- Any other step. -/
theorem marks_other (hStep : step ≠ call.step) (hLate : step ≠ late call.step) :
    marks install step (done.ledger host order reply ledger) = marks install step ledger ∧
      done.memory.held step = m.held step := by
  rw [marks_ledger order ledger (.inl (hOutcome.silent hStep)), hOutcome.no_marks hStep, hWatchdog.no_marks hLate,
    hEnded.no_marks hLate, hEnded.others _ hLate, hWatchdog.others _ hLate, hOutcome.others _ hStep]
  exact ⟨rfl, rfl⟩

end Done

/-- A call of the guard keeps the streaks of each step paired, and its memory true to them
while the loop runs on. -/
theorem call_holds {call : Call} (hStep : call.step ≠ leaseStep)
    (hPaired : ∀ step, ∃ o, Paired (marks install step ledger) o)
    (hHolds : ∀ step, step ≠ leaseStep → Holds (marks install step ledger) (m.held step))
    (hTakes : ∀ row ∈ (guard host install call m).outcome ++ (guard host install call m).watchdog ++
      (guard host install call m).ended, row.isStreak = true → reply row ≠ .refuses)
    (hLate : ∀ row ∈ (guard host install call m).watchdog, row.isStreak = true → reply row = .stops →
      ∀ last ∈ (guard host install call m).ended, reply last = .stops) :
    (∀ step, ∃ o, Paired (marks install step ((guard host install call m).ledger host call.order reply ledger)) o) ∧
      ((guard host install call m).ends call reply = false → ∀ step, step ≠ leaseStep →
        Holds (marks install step ((guard host install call m).ledger host call.order reply ledger))
          ((guard host install call m).memory.held step)) := by
  obtain ⟨first, second, hOutcome, hWatchdog, hEnded, hClosed⟩ := @guard_acts host install call m
  generalize guard host install call m = done at *
  have hOwn := outcome_holds host call.order hOutcome hWatchdog hEnded hTakes (hHolds _ hStep)
  have hDog := late_holds host call.order hOutcome hWatchdog hEnded hTakes hClosed hLate
    (hHolds _ (late_ne_lease call.step))
  constructor
  · intro step
    by_cases hIs : step = call.step
    · subst hIs
      exact hOwn.elim Holds.paired And.left
    by_cases hIsLate : step = late call.step
    · subst hIsLate
      exact hDog.elim Holds.paired And.left
    rw [(marks_other host call.order hOutcome hWatchdog hEnded hIs hIsLate).1]
    exact hPaired step
  · intro hRuns step hNot
    simp only [Done.ends, Bool.or_eq_false_iff] at hRuns
    by_cases hIs : step = call.step
    · subst hIs
      exact hOwn.resolve_right fun h => by simp [hRuns.1.2] at h
    by_cases hIsLate : step = late call.step
    · subst hIsLate
      exact hDog.resolve_right fun h => by simp [hRuns.2] at h
    obtain ⟨hMarks, hHeld⟩ := @marks_other host install step ledger m reply call first second done call.order
      hOutcome hWatchdog hEnded hIs hIsLate
    rw [hMarks, hHeld]
    exact hHolds step hNot

end Call

end Brnrd.Health
