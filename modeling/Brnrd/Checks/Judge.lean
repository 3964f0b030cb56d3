import Brnrd.Python.Value

/-! What a commit's check runs say of it: green, red, or not yet. -/
namespace Brnrd.Checks

abbrev Text := List Char

/-- A check run, as the forge lists it. A text that is absent is empty. -/
structure CheckRun where
  name : Option Text
  status : Text
  conclusion : Text
  startedAt : Text
  completedAt : Text

inductive Verdict where
  | green
  | red
  | pending
  deriving DecidableEq

/-- `PASSED`. -/
def PASSED : List Text :=
  ["success".toList, "neutral".toList, "skipped".toList]

/-- `RERUN_GRACE`. -/
def RERUN_GRACE : ℚ := 120

/-- The runs of the gates, all where there are none. -/
def gated (gates : Option (List Text)) (runs : List CheckRun) : List CheckRun :=
  match gates with
  | none => runs
  | some gates => runs.filter fun run => run.name.any (· ∈ gates)

/-- Whether a time of a run is before the park. -/
def before (moment : Text → Option ℚ) (parked : ℚ) (at_ : Text) : Bool :=
  at_ ≠ [] && (moment at_).any (· < parked)

/-- The time of the park, where there is one that can be read. -/
def parkedAt (moment : Text → Option ℚ) (since : Option Text) : Option ℚ :=
  since.bind fun since => if since = [] then none else moment since

/-- Whether the judgment waits for a rerun that may not be registered yet. -/
def inGrace (moment : Text → Option ℚ) (runs : List CheckRun) (since : Option Text) (now : ℚ) : Bool :=
  match parkedAt moment since with
  | none => false
  | some parked => runs.all (fun run => before moment parked run.startedAt) && decide (now - parked < RERUN_GRACE)

/-- The runs that count: those that had concluded before the park do not, once any run
has started since. -/
def counted (moment : Text → Option ℚ) (runs : List CheckRun) (since : Option Text) : List CheckRun :=
  match parkedAt moment since with
  | none => runs
  | some parked =>
      if runs.any fun run => !before moment parked run.startedAt then
        runs.filter fun run => !before moment parked run.completedAt
      else runs

/-- A run with a conclusion is done, even when the forge left its status in progress. -/
def isDone (run : CheckRun) : Bool :=
  run.status = "completed".toList || run.conclusion ≠ []

/-- When the runs that are not done have started. -/
def live (runs : List CheckRun) : List Text :=
  (runs.filter fun run => !isDone run).map fun run => if run.startedAt = [] then ['~'] else run.startedAt

/-- Whether a run has failed, and no live run has started since. -/
def isRed (runs : List CheckRun) (run : CheckRun) : Bool :=
  isDone run && run.conclusion ∉ PASSED &&
    !(run.completedAt ≠ [] && (live runs).any fun start => decide (run.completedAt < start))

/-- `GitHubChecks.judge`, of the runs that the forge has listed. -/
def judge (moment : Text → Option ℚ) (listed : List CheckRun) (gates : Option (List Text)) (since : Option Text) (now : ℚ) :
    Verdict × Text :=
  let runs := gated gates listed
  if inGrace moment runs since now then (.pending, [])
  else
    let runs := counted moment runs since
    match runs.find? (isRed runs) with
    | some run => (.red, (run.name.filter (· ≠ [])).getD ['?'])
    | none => if runs = [] ∨ (runs.filter isDone).length < runs.length then (.pending, []) else (.green, [])

variable (moment : Text → Option ℚ) (listed : List CheckRun) (gates : Option (List Text)) (since : Option Text) (now : ℚ)

/-- Every run that counts has passed. -/
def Passed (runs : List CheckRun) : Prop :=
  runs ≠ [] ∧ ∀ run ∈ runs, isDone run = true ∧ run.conclusion ∈ PASSED

/-- A run has failed, and no run that is live has started after it did. -/
def Failed (runs : List CheckRun) : Prop :=
  ∃ run ∈ runs, isDone run = true ∧ run.conclusion ∉ PASSED ∧
    ¬(run.completedAt ≠ [] ∧ ∃ start ∈ live runs, run.completedAt < start)

variable {runs : List CheckRun}

theorem live_nil (h : ∀ run ∈ runs, isDone run = true) : live runs = [] := by
  rw [live, List.map_eq_nil_iff, List.filter_eq_nil_iff]
  intro run hRun
  simp [h run hRun]

theorem exists_isRed : (∃ run ∈ runs, isRed runs run = true) ↔ Failed runs := by
  simp [isRed, Failed, and_assoc, or_iff_not_imp_left]

theorem length_filter_lt : (runs.filter isDone).length < runs.length ↔ ¬∀ run ∈ runs, isDone run = true := by
  rw [← List.length_filter_eq_length_iff]
  have hLe := List.length_filter_le isDone runs
  omega

/-- No run has failed for good: all that are done have passed where all are done. -/
theorem passed_of_all_done (hRed : ¬Failed runs) (hDone : ∀ run ∈ runs, isDone run = true) :
    ∀ run ∈ runs, run.conclusion ∈ PASSED := by
  intro run hRun
  by_contra hNot
  refine hRed ⟨run, hRun, hDone run hRun, hNot, ?_⟩
  rw [live_nil hDone]
  simp

theorem Passed.not_failed (h : Passed runs) : ¬Failed runs := by
  rintro ⟨run, hRun, -, hNot, -⟩
  exact hNot (h.2 run hRun).2

/-- What the runs that count make of the verdict. -/
theorem judge_counted (hGrace : inGrace moment (gated gates listed) since now = false) :
    ((judge moment listed gates since now).1 = .green ↔ Passed (counted moment (gated gates listed) since)) ∧
      ((judge moment listed gates since now).1 = .red ↔ Failed (counted moment (gated gates listed) since)) := by
  unfold judge
  dsimp only
  rw [if_neg (by simp [hGrace])]
  generalize counted moment (gated gates listed) since = runs
  cases hFind : runs.find? (isRed runs) with
  | some run =>
      have hFailed : Failed runs := exists_isRed.mp ⟨run, List.mem_of_find?_eq_some hFind, List.find?_some hFind⟩
      exact ⟨iff_of_false nofun fun h => h.not_failed hFailed, iff_of_true rfl hFailed⟩
  | none =>
      have hNot : ¬Failed runs := fun h => by
        obtain ⟨run, hRun, hRed⟩ := exists_isRed.mpr h
        exact List.find?_eq_none.mp hFind run hRun hRed
      dsimp only
      split
      · rename_i hOpen
        refine ⟨iff_of_false nofun fun h => ?_, iff_of_false nofun hNot⟩
        rcases hOpen with hNil | hLess
        · exact h.1 hNil
        · exact length_filter_lt.mp hLess fun run hRun => (h.2 run hRun).1
      · rename_i hShut
        rw [length_filter_lt, not_or, not_not] at hShut
        refine ⟨iff_of_true rfl ⟨hShut.1, fun run hRun => ⟨hShut.2 run hRun, ?_⟩⟩, iff_of_false nofun hNot⟩
        exact passed_of_all_done hNot hShut.2 run hRun

theorem judge_inGrace (hGrace : inGrace moment (gated gates listed) since now = true) :
    (judge moment listed gates since now).1 = .pending := by
  unfold judge
  dsimp only
  rw [if_pos hGrace]

/-- A run of the gates that does not count had concluded before the park, and a run of
the gates has started since. -/
theorem not_counted {run : CheckRun} (hRun : run ∈ runs) (h : run ∉ counted moment runs since) :
    ∃ parked, parkedAt moment since = some parked ∧ before moment parked run.completedAt = true ∧
      ∃ later ∈ runs, before moment parked later.startedAt = false := by
  unfold counted at h
  split at h
  · exact absurd hRun h
  · rename_i parked hParked
    split at h
    · rename_i hLater
      obtain ⟨later, hMem, hStarted⟩ := List.any_eq_true.mp hLater
      refine ⟨parked, hParked, ?_, later, hMem, by simpa using hStarted⟩
      by_contra hAfter
      exact h (List.mem_filter.mpr ⟨hRun, by simpa using hAfter⟩)
    · exact absurd hRun h

/-- The commit is green exactly where there is a run that counts and each of them has
passed; it is red exactly where one of them has failed and none of them that is live has
started since; and it is pending otherwise, as it is while a rerun may not be registered.
A run of the gates counts unless it had concluded before the park and one of them has
started since. -/
theorem judge_verdict :
    ((judge moment listed gates since now).1 = .green ↔
      inGrace moment (gated gates listed) since now = false ∧ Passed (counted moment (gated gates listed) since)) ∧
    ((judge moment listed gates since now).1 = .red ↔
      inGrace moment (gated gates listed) since now = false ∧ Failed (counted moment (gated gates listed) since)) ∧
    ∀ run ∈ gated gates listed, run ∉ counted moment (gated gates listed) since →
      ∃ parked, parkedAt moment since = some parked ∧ before moment parked run.completedAt = true ∧
        ∃ later ∈ gated gates listed, before moment parked later.startedAt = false := by
  refine ⟨?_, ?_, fun run hRun h => not_counted moment since hRun h⟩
  · cases hGrace : inGrace moment (gated gates listed) since now with
    | true => rw [judge_inGrace moment listed gates since now hGrace]; simp
    | false => rw [(judge_counted moment listed gates since now hGrace).1]; simp
  · cases hGrace : inGrace moment (gated gates listed) since now with
    | true => rw [judge_inGrace moment listed gates since now hGrace]; simp
    | false => rw [(judge_counted moment listed gates since now hGrace).2]; simp

/-- The one run of a check that has concluded before a park at 5. -/
def plainRun (name conclusion startedAt completedAt : Char) : CheckRun where
  name := some [name]
  status := "completed".toList
  conclusion := if conclusion = 's' then "success".toList else "failure".toList
  startedAt := [startedAt]
  completedAt := [completedAt]

def plainMoment (text : Text) : Option ℚ :=
  text.head?.map fun c => (c.toNat - '0'.toNat : ℕ)

/-- The one run of `a` has failed, and `b` alone was run again: the commit is green. -/
theorem judge_drops_red :
    (judge plainMoment [plainRun 'a' 'f' '1' '2', plainRun 'b' 's' '6' '7'] none (some ['5']) 9).1 = .green ∧
      (plainRun 'a' 'f' '1' '2').conclusion ∉ PASSED := by
  decide +kernel

end Brnrd.Checks
