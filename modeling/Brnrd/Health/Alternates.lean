import Brnrd.Health.Streaks

/-! Over every run of the loop the degraded and the recovered facts of a step alternate,
one streak of it is open at a time, and one notice is written for each cause and grade of
an episode. -/
namespace Brnrd.Health

variable {host : Host} {install own : Install} {step named : Text} {since : Stamp} {ledger : List Row} {row back : Row}
  {mark : Mark} {o : Option Stamp} {m : Memory}

section Open

/-- The id of the degraded row that a recovered row closes. -/
theorem opener_recovered (named : Text) (since : Stamp) (count : ℕ) (last : Text) (episode : Option Stamp) (told : Option Text)
    (grade : Option ℤ) (up : Stamp) : (Row.recovered own named since count last episode told grade up).opener host =
      streakId "loom.degraded".toList own named since := by
  have hId : (Row.recovered own named since count last episode told grade up).id host =
      "loom.recovered:".toList ++ (own.text ++ ':' :: named ++ ':' :: since.text) := by
    simp [Row.id, streakId]
  rw [Row.opener, Events.replaceFirst, hId, Events.partition_here (by simp)]
  simp [streakId]

/-- A streak's row is open where no row closes its step's streak of that instant. -/
theorem mem_openStreaks : row ∈ openStreaks host install ledger ↔
    row ∈ ledger ∧ ∃ step since, row.mark install step = some (.down since) ∧ .back since ∉ marks install step ledger := by
  unfold openStreaks
  rw [List.mem_filter]
  refine and_congr_right fun hRow => ?_
  cases row with
  | degraded own named error frame since episode dips =>
      generalize hList : List.filterMap _ ledger = closed
      have hClosed : own = install → ((Row.degraded own named error frame since episode dips).id host ∈ closed ↔
          .back since ∈ marks install named ledger) := by
        rintro rfl
        rw [← hList, marks, List.mem_filterMap, List.mem_filterMap]
        refine exists_congr fun back => and_congr_right fun _ => ?_
        cases back with
        | degraded => simp [Row.mark]
        | recovered own' named' since' =>
            simp only [opener_recovered, Option.some.injEq, Row.mark, Option.ite_none_right_eq_some, Mark.back.injEq]
            constructor
            · intro hId
              obtain ⟨rfl, rfl, rfl⟩ := streakId_inj hId
              exact ⟨⟨rfl, rfl⟩, rfl⟩
            · rintro ⟨⟨rfl, rfl⟩, rfl⟩
              rfl
        | notice => simp [Row.mark]
      simp only [Bool.and_eq_true, decide_eq_true_eq]
      constructor
      · rintro ⟨hOpen, rfl⟩
        exact ⟨named, since, by simp [Row.mark], fun h => hOpen ((hClosed rfl).mpr h)⟩
      · rintro ⟨step, since', hMark, hOpen⟩
        simp only [Row.mark, Option.ite_none_right_eq_some, Option.some.injEq, Mark.down.injEq] at hMark
        obtain ⟨⟨rfl, rfl⟩, rfl⟩ := hMark
        exact ⟨fun h => hOpen ((hClosed rfl).mp h), rfl⟩
  | recovered => simp [Row.mark]
  | notice => simp [Row.mark]

theorem openAt_mem (hPaired : Paired (marks install step ledger) o) (hRow : row ∈ openStreaks host install ledger)
    (hStep : row.step = some step) : ∃ since, o = some since ∧ row.mark install step = some (.down since) := by
  obtain ⟨hIn, named, since, hMark, hOpen⟩ := mem_openStreaks.mp hRow
  obtain rfl := Option.some.inj ((mark_step hMark).symm.trans hStep)
  refine ⟨since, ?_, hMark⟩
  by_contra hOther
  obtain ⟨-, hSame⟩ := (hPaired.spec since).resolve_left fun h => hOther h.1
  exact hOpen (hSame.mp (List.mem_filterMap.mpr ⟨row, hIn, hMark⟩))

/-- Where the marks of a step are paired, its open rows are of the streak that is open. -/
theorem openAt_of_open (host : Host) (hPaired : Paired (marks install step ledger) (some since)) :
    ∃ row ∈ openAt host install step ledger, row.mark install step = some (.down since) := by
  obtain ⟨-, hDown, hBack⟩ := (hPaired.spec since).resolve_right fun h => h.1 rfl
  obtain ⟨row, hRow, hMark⟩ := List.mem_filterMap.mp hDown
  refine ⟨row, List.mem_filter.mpr ⟨mem_openStreaks.mpr ⟨hRow, step, since, hMark, hBack⟩, ?_⟩, hMark⟩
  simpa using mark_step hMark

theorem nodup_openAt (hIds : (ledger.map (Row.id host)).Nodup) :
    ((openAt host install step ledger).map (Row.id host)).Nodup :=
  hIds.sublist ((List.filter_sublist.trans List.filter_sublist).map _)

/-- One streak of a step is open at a time. -/
theorem openAt_length (hIds : (ledger.map (Row.id host)).Nodup) (hPaired : Paired (marks install step ledger) o) :
    (openAt host install step ledger).length ≤ 1 := by
  have hSame : ∀ row ∈ openAt host install step ledger, ∀ other ∈ openAt host install step ledger,
      row.id host = other.id host := by
    intro row hRow other hOther
    obtain ⟨hRow, hStep⟩ := List.mem_filter.mp hRow
    obtain ⟨hOther, hStep'⟩ := List.mem_filter.mp hOther
    obtain ⟨since, hOpen, hMark⟩ := openAt_mem hPaired hRow (by simpa using hStep)
    obtain ⟨since', hOpen', hMark'⟩ := openAt_mem hPaired hOther (by simpa using hStep')
    obtain rfl := Option.mem_unique hOpen hOpen'
    exact id_of_mark hMark' hMark
  have hNodup := @nodup_openAt host install step ledger hIds
  match h : openAt host install step ledger with
  | [] => simp
  | [_] => simp
  | first :: second :: rest =>
      rw [h] at hSame hNodup
      have hTwo := hSame first (by simp) second (by simp)
      simp [hTwo] at hNodup

theorem step_streak {item : Text × Streak} (h : row.streak = some item) : row.step = some item.1 := by
  cases row with
  | degraded => exact Option.some.inj h ▸ rfl
  | recovered => cases h
  | notice => cases h

theorem since_streak {item : Text × Streak} (h : row.streak = some item) (hMark : row.mark install step = some (.down since)) :
    item.2.since = since := by
  cases row with
  | degraded =>
      simp only [Row.mark, Option.ite_none_right_eq_some, Option.some.injEq, Mark.down.injEq] at hMark
      obtain rfl := Option.some.inj h
      exact hMark.2
  | recovered => cases h
  | notice => cases h

theorem streak_of_down (hMark : row.mark install step = some (.down since)) :
    ∃ item, row.streak = some item ∧ item.1 = step := by
  cases row with
  | degraded =>
      simp only [Row.mark, Option.ite_none_right_eq_some] at hMark
      exact ⟨_, rfl, hMark.1.2⟩
  | recovered => simp [Row.mark] at hMark
  | notice => cases hMark

/-- A start of the loop holds the streaks that are open in the ledger. -/
theorem start_holds (now : ℚ) (hPaired : Paired (marks install step ledger) o) :
    Holds (marks install step ledger) ((start host install now ledger).held step) := by
  have hHeld : (start host install now ledger).held step = o := by
    unfold Memory.held start
    dsimp only
    rw [Entries.get_foldl_set]
    generalize hItems : (((openStreaks host install ledger).filterMap Row.streak).filter fun item => item.1 = step) = items
    have hAll : ∀ item ∈ items, o = some item.2.since := by
      intro item hItem
      rw [← hItems, List.mem_filter, List.mem_filterMap] at hItem
      obtain ⟨⟨row, hRow, hStreak⟩, hStep⟩ := hItem
      have hIs : row.step = some step := by rw [step_streak hStreak, ← of_decide_eq_true hStep]
      obtain ⟨since, hOpen, hMark⟩ := openAt_mem hPaired hRow hIs
      rw [hOpen, since_streak hStreak hMark]
    cases hLast : items.getLast? with
    | some item => exact (hAll item (List.mem_of_getLast? hLast)).symm
    | none =>
        rw [List.getLast?_eq_none_iff] at hLast
        cases o with
        | none => rfl
        | some since =>
            obtain ⟨row, hRow, hMark⟩ := openAt_of_open host hPaired
            obtain ⟨item, hStreak, hStep⟩ := streak_of_down hMark
            have hItem : item ∈ items := by
              rw [← hItems]
              exact List.mem_filter.mpr ⟨List.mem_filterMap.mpr ⟨row, List.mem_of_mem_filter hRow, hStreak⟩, by simpa using hStep⟩
            rw [hLast] at hItem
            cases hItem
  exact hHeld ▸ .same hPaired

end Open

section Runs

/-- What holds of the home: no id stands twice, the streaks of each step of the install are
paired, and a running loop's memory is true to those of the steps it guards. -/
structure Inv (host : Host) (install : Install) (w : World) : Prop where
  ids : (w.ledger.map (Row.id host)).Nodup
  paired : ∀ step, ∃ o, Paired (marks install step w.ledger) o
  held : ∀ m, w.memory = some m → ∀ step, step ≠ leaseStep → Holds (marks install step w.ledger) (m.held step)

theorem nodup_put (ledger : List Row) (row : Row) (hIds : (ledger.map (Row.id host)).Nodup) :
    ((put host ledger row).map (Row.id host)).Nodup := by
  unfold put
  split
  · exact hIds
  · rename_i hNew
    rw [List.map_append, List.map_singleton]
    exact List.nodup_append.mpr ⟨hIds, List.nodup_singleton _, fun a ha b hb h => hNew (List.mem_singleton.mp hb ▸ h ▸ ha)⟩

theorem nodup_foldl_put (rows ledger : List Row) (hIds : (ledger.map (Row.id host)).Nodup) :
    ((rows.foldl (put host) ledger).map (Row.id host)).Nodup := by
  induction rows generalizing ledger with
  | nil => exact hIds
  | cons row rows ih => exact ih _ (nodup_put ledger row hIds)

theorem mark_foreign (h : row.foreign install = true) : row.mark install step = none := by
  cases row with
  | degraded => simp_all [Row.foreign, Row.mark]
  | recovered => simp_all [Row.foreign, Row.mark]
  | notice => rfl

/-- The router's streak, where one row more is written that opens it or closes the open one. -/
theorem Inv.lease {w : World} (h : Inv host install w) (hStep : row.step = some leaseStep)
    (hOwn : row.mark install leaseStep = some mark) (hGoes : ∀ o, Paired (marks install leaseStep w.ledger) o → ∃ o', Goes o [mark] o') :
    Inv host install { w with ledger := put host w.ledger row } where
  ids := nodup_put _ _ h.ids
  paired := by
    intro step
    rw [marks_put]
    by_cases hIs : step = leaseStep
    · subst hIs
      obtain ⟨o, hPaired⟩ := h.paired leaseStep
      obtain ⟨o', hGo⟩ := hGoes o hPaired
      rw [hOwn]
      exact ((Holds.same hPaired).goes hGo).paired
    · have hNone : row.mark install step = none := by
        cases hMark : row.mark install step with
        | none => rfl
        | some _ => exact absurd (Option.some.inj ((mark_step hMark).symm.trans hStep)) hIs
      rw [hNone]
      exact h.paired step
  held := by
    intro m hMemory step hNot
    have hNone : row.mark install step = none := by
      cases hMark : row.mark install step with
      | none => rfl
      | some _ => exact absurd (Option.some.inj ((mark_step hMark).symm.trans hStep)) hNot
    rw [marks_put, hNone]
    exact h.held m hMemory step hNot

theorem leaseStreak_none (h : leaseStreak host install ledger = none) (hPaired : Paired (marks install leaseStep ledger) o) :
    o = none := by
  cases o with
  | none => rfl
  | some since =>
      obtain ⟨row, hRow, -⟩ := openAt_of_open host hPaired
      obtain ⟨hOpen, hStep⟩ := List.mem_filter.mp hRow
      exact absurd hStep (List.find?_eq_none.mp h row hOpen)

theorem leaseStreak_some (h : leaseStreak host install ledger = some row) (hPaired : Paired (marks install leaseStep ledger) o) :
    ∃ since, o = some since ∧ row.mark install leaseStep = some (.down since) := by
  unfold leaseStreak at h
  exact openAt_mem hPaired (List.mem_of_find?_eq_some h) (by simpa using List.find?_some h)

theorem retakeRow_mark {now : ℚ} (hMark : row.mark install leaseStep = some (.down since))
    (hBack : retakeRow host install now row = some back) : back.mark install leaseStep = some (.back since) := by
  cases row with
  | degraded =>
      simp only [Row.mark, Option.ite_none_right_eq_some, Option.some.injEq, Mark.down.injEq] at hMark
      obtain ⟨-, rfl⟩ := hMark
      obtain rfl := Option.some.inj hBack
      simp [Row.mark]
  | recovered => cases hBack
  | notice => cases hBack

/-- What happens keeps the home so, where the ledger takes what the guard writes. -/
theorem Inv.next {w w' : World} (act : Act) (h : Inv host install w) (hKept : Kept host install w act)
    (hStep : w.step host install act = some w') : Inv host install w' := by
  cases act with
  | start now =>
      simp only [World.step, Option.ite_none_right_eq_some] at hStep
      obtain ⟨-, hStep⟩ := hStep
      obtain rfl := Option.some.inj hStep
      refine ⟨h.ids, h.paired, fun m hMemory step _ => ?_⟩
      obtain rfl := Option.some.inj hMemory
      obtain ⟨o, hPaired⟩ := h.paired step
      exact start_holds now hPaired
  | stop =>
      obtain rfl := Option.some.inj hStep
      exact ⟨h.ids, h.paired, fun m hMemory => nomatch hMemory⟩
  | call call reply =>
      obtain ⟨m, hMemory, hStep⟩ := Option.bind_eq_some_iff.mp hStep
      split at hStep
      · cases hStep
      · rename_i hNot
        obtain rfl := Option.some.inj hStep
        obtain ⟨hTakes, hLate⟩ := hKept m hMemory
        obtain ⟨hPaired, hHolds⟩ := call_holds hNot h.paired (h.held m hMemory) hTakes hLate
        refine ⟨nodup_foldl_put _ _ h.ids, hPaired, fun m' hMemory' => ?_⟩
        dsimp only at hMemory'
        split at hMemory'
        · cases hMemory'
        · rename_i hRuns
          obtain rfl := Option.some.inj hMemory'
          exact hHolds (by simpa using hRuns)
  | fence error now takes =>
      simp only [World.step] at hStep
      split at hStep
      · exact Option.some.inj hStep ▸ h
      · rename_i hNone
        obtain rfl := Option.some.inj hStep
        split
        · have hMark : (fenceRow host install error now).mark install leaseStep = some (.down (host.iso now)) := by
            simp [fenceRow, Row.mark]
          refine h.lease rfl hMark fun o hPaired => ?_
          obtain rfl := leaseStreak_none hNone hPaired
          exact ⟨_, .opens⟩
        · exact h
  | retake now takes =>
      simp only [World.step] at hStep
      split at hStep
      · rename_i back hBack
        obtain ⟨row, hRow, hBack⟩ := Option.bind_eq_some_iff.mp hBack
        obtain rfl := Option.some.inj hStep
        split
        · obtain ⟨o, hPaired⟩ := h.paired leaseStep
          obtain ⟨since, -, hMark⟩ := leaseStreak_some hRow hPaired
          have hIs := retakeRow_mark hMark hBack
          refine h.lease (mark_step hIs) hIs fun o hPaired => ?_
          obtain ⟨since', rfl, hMark'⟩ := leaseStreak_some hRow hPaired
          obtain rfl := Mark.down.inj (Option.mem_unique hMark hMark')
          exact ⟨_, .closes⟩
        · exact h
      · exact Option.some.inj hStep ▸ h
  | arrive place row =>
      simp only [World.step, Option.ite_none_right_eq_some] at hStep
      obtain ⟨hForeign, hStep⟩ := hStep
      obtain rfl := Option.some.inj hStep
      split
      · exact h
      · rename_i hNew
        have hMarks : ∀ step, marks install step (w.ledger.take place ++ row :: w.ledger.drop place) =
            marks install step w.ledger := fun step => by
          rw [marks, List.filterMap_append, List.filterMap_cons, mark_foreign hForeign, ← List.filterMap_append,
            List.take_append_drop, ← marks]
        refine ⟨?_, fun step => hMarks step ▸ h.paired step, fun m hMemory step hNot => ?_⟩
        · have hPerm : (w.ledger.take place ++ row :: w.ledger.drop place).Perm (row :: w.ledger) := by
            refine List.perm_middle.trans ?_
            rw [List.take_append_drop]
          rw [(hPerm.map _).nodup_iff, List.map_cons, List.nodup_cons]
          exact ⟨hNew, h.ids⟩
        · rw [hMarks]
          exact h.held m hMemory step hNot

theorem Inv.first : Inv host install .first :=
  ⟨List.nodup_nil, fun _ => ⟨none, .nil⟩, nofun⟩

/-- The notices of one cause and grade of an episode have one id. -/
theorem told_length {episode : Stamp} {said : Text} {grade : ℤ} (hIds : (ledger.map (Row.id host)).Nodup) :
    (told step episode said grade ledger).length ≤ 1 := by
  have hSame : ∀ row ∈ told step episode said grade ledger, row.id host =
      noticeId host "degraded".toList (step ++ ':' :: episode.text ++ ':' :: said ++ ':' :: shown grade) := by
    intro row hRow
    have hIs := (List.mem_filter.mp hRow).2
    cases row with
    | degraded => cases hIs
    | recovered => cases hIs
    | notice =>
        simp only [Bool.and_eq_true, decide_eq_true_eq] at hIs
        rw [Row.id, hIs.1, hIs.2]
  have hNodup : ((told step episode said grade ledger).map (Row.id host)).Nodup :=
    hIds.sublist (List.filter_sublist.map _)
  match h : told step episode said grade ledger with
  | [] => simp
  | [_] => simp
  | first :: second :: rest =>
      rw [h] at hSame hNodup
      have hTwo := (hSame first (by simp)).trans (hSame second (by simp)).symm
      simp [hTwo] at hNodup

/-- In every run in which the ledger takes the rows that the guard writes, the degraded and
the recovered facts of each step alternate, one streak of it is open at most, and one notice
at most is there for each episode, cause and grade. -/
theorem streaks_alternate {w : World} (h : Machine.Reach (World.step host install) (Kept host install) .first w) :
    (∀ step, Alternates (marks install step w.ledger) = true ∧ (openAt host install step w.ledger).length ≤ 1) ∧
      ∀ step episode said grade, (told step episode said grade w.ledger).length ≤ 1 := by
  have hInv : Inv host install w := h.invariant (Inv host install) .first fun _ act _ hInv hKept hStep =>
    hInv.next act hKept hStep
  refine ⟨fun step => ?_, fun _ _ _ _ => told_length hInv.ids⟩
  obtain ⟨o, hPaired⟩ := hInv.paired step
  exact ⟨hPaired.alternates, openAt_length hInv.ids hPaired⟩

end Runs

section Instance

instance (host : Host) (install : Install) (w : World) (act : Act) : Decidable (Kept host install w act) :=
  match act, w with
  | .call .., ⟨none, _⟩ => isTrue nofun
  | .call call reply, ⟨some m, _⟩ =>
      let done := guard host install call m
      decidable_of_iff ((∀ row ∈ done.outcome ++ done.watchdog ++ done.ended, row.isStreak = true → reply row ≠ .refuses) ∧
        ∀ row ∈ done.watchdog, row.isStreak = true → reply row = .stops → ∀ last ∈ done.ended, reply last = .stops)
        ⟨fun h _ hIs => Option.some.inj hIs ▸ h, fun h => h m rfl⟩
  | .start .., _ => isTrue trivial
  | .stop, _ => isTrue trivial
  | .fence .., _ => isTrue trivial
  | .retake .., _ => isTrue trivial
  | .arrive .., _ => isTrue trivial

/-- The two last digits of a number. -/
def twoDigits (n : ℕ) : Text :=
  [Nat.digitChar (n / 10 % 10), Nat.digitChar (n % 10)]

/-- A host whose instants are of the first day. -/
def dayHost : Host where
  iso now :=
    let n := now.floor.toNat
    ⟨"1970-01-01T".toList ++ twoDigits (n / 3600) ++ ':' :: twoDigits (n / 60 % 60) ++ ':' :: twoDigits (n % 60) ++
      ".000Z".toList, rfl⟩
  seconds stamp :=
    let digit := fun i => ((stamp.text.getD i '0').toNat - 48 : ℕ)
    ((digit 11 * 10 + digit 12) * 3600 + (digit 14 * 10 + digit 15) * 60 + (digit 17 * 10 + digit 18) : ℕ)
  digest subject := subject

/-- An install. -/
def oneInstall : Install :=
  ⟨"a1b2".toList, rfl⟩

/-- A full disk. -/
def diskFull : Raised :=
  ⟨"DiskFull".toList, "3 GB free".toList, "loom/runtime/reap.py:40".toList, some 1⟩

/-- A call of the disk's step. -/
def diskCall (outcome : Outcome) (now : ℚ) : Call :=
  ⟨"disk".toList, false, outcome, now, none, []⟩

/-- A ledger that takes every row. -/
def takesAll (_ : Row) : Reply :=
  .takes

/-- The marks of the disk's step after some of what happens. -/
def diskMarks (w : World) : List Mark :=
  marks oneInstall "disk".toList w.ledger

theorem streaks_alternate_restarted : ∃ w : World,
    diskMarks w = [.down (dayHost.iso 10), .back (dayHost.iso 10), .down (dayHost.iso 700)] ∧
      Alternates (diskMarks w) = true ∧ (openAt dayHost oneInstall "disk".toList w.ledger).length ≤ 1 := by
  have hRun : (Machine.follow (World.step dayHost oneInstall) (Kept dayHost oneInstall) .first
      [.start 1, .call (diskCall (.raises diskFull) 10) takesAll, .stop, .start 20,
        .call (diskCall (.raises diskFull) 400) takesAll, .call (diskCall .returns 500) takesAll,
        .call (diskCall (.raises diskFull) 700) takesAll]).map (fun w => (w.memory.isSome, diskMarks w)) =
      some (true, [.down (dayHost.iso 10), .back (dayHost.iso 10), .down (dayHost.iso 700)]) := by
    decide +kernel
  obtain ⟨w, hFollow, hMarks⟩ := Option.map_eq_some_iff.mp hRun
  obtain ⟨hAll, -⟩ := streaks_alternate (Machine.Reach.refl.follow hFollow)
  exact ⟨w, congrArg Prod.snd hMarks, hAll "disk".toList⟩

/-- A ledger that refuses what is recovered. -/
def refusesBack (row : Row) : Reply :=
  match row with
  | .recovered .. => .refuses
  | _ => .takes

/-- A recovered row that is refused is not written again: the next streak opens beside
the last. -/
theorem refused_recovery_opens_two : ¬ ∀ (host : Host) (install : Install) (w : World),
    Machine.Reach (World.step host install) (fun _ _ => True) .first w →
      ∀ step, Alternates (marks install step w.ledger) = true ∧ (openAt host install step w.ledger).length ≤ 1 := by
  intro h
  have hRun : (Machine.follow (World.step dayHost oneInstall) (fun _ _ => True) .first
      [.start 1, .call (diskCall (.raises diskFull) 10) takesAll, .call (diskCall .returns 20) refusesBack,
        .call (diskCall (.raises diskFull) 30) takesAll]).map
        (fun w => (Alternates (diskMarks w), (openAt dayHost oneInstall "disk".toList w.ledger).length)) =
      some (false, 2) := by
    decide +kernel
  obtain ⟨w, hFollow, hIs⟩ := Option.map_eq_some_iff.mp hRun
  have hAll := (h dayHost oneInstall w (Machine.Reach.refl.follow hFollow) "disk".toList).1
  rw [show Alternates (marks oneInstall "disk".toList w.ledger) = false from congrArg Prod.fst hIs] at hAll
  cases hAll

end Instance

end Brnrd.Health
