import Brnrd.Python.Value

/-! What a resident has spent in its quota window: a meter that only grows, less what it read
when the window was first seen, where the reading and the reset clock may each be missing. -/
namespace Brnrd.Allowance

open Python

/-- `DEFAULT_RESIDENT_ALLOWANCE_TOKENS`. -/
def defaultResidentAllowanceTokens : ℕ :=
  20000000

/-- `resident_ceiling_state`: the ceiling, and whether the configuration sets it. -/
def residentCeilingState (parseTokens : Value → Option ℕ) (raw : Option Value) : ℕ × Bool :=
  match raw.bind parseTokens with
  | some tokens => (tokens, true)
  | none => (defaultResidentAllowanceTokens, false)

/-- `resident_window_key`: the whole seconds of the reset instant. -/
def residentWindowKey (resetEpoch : Option ℚ) : Option String :=
  resetEpoch.map fun instant => toString (instant.num.tdiv instant.den)

/-- What a run carries of its allowance. -/
structure Meta where
  tokens : Option ℕ
  spent : Option ℤ
  window : Option String
  baseline : Option ℤ

/-- A run that is not metered yet. -/
def Meta.fresh : Meta :=
  ⟨none, none, none, none⟩

/-- What a heartbeat reports. -/
structure Report where
  tokens : ℕ
  spent : Option ℤ
  scope : String
  explicit : Bool

/-- The baseline is captured anew: there is none, or another window is seen. -/
def Meta.Rolls (stored : Meta) (windowKey : Option String) : Prop :=
  stored.baseline = none ∨ windowKey ≠ none ∧ windowKey ≠ stored.window
deriving Decidable

/-- `resident_allowance_state`. -/
def residentAllowanceState (parseTokens : Value → Option ℕ) (stored : Meta) (cfg : Option Value) (resetEpoch : Option ℚ)
    (liveSpent : Option ℤ) : Meta × Report :=
  let ceiling := residentCeilingState parseTokens cfg
  match liveSpent with
  | none =>
      ({ stored with tokens := some ceiling.1, spent := none }, ⟨ceiling.1, none, "resident", ceiling.2⟩)
  | some live =>
      let windowKey := residentWindowKey resetEpoch
      let window := if stored.Rolls windowKey then windowKey else stored.window
      let baseline := if stored.Rolls windowKey then live else stored.baseline.getD live
      let spent := max 0 (live - baseline)
      (⟨some ceiling.1, some spent, window, some baseline⟩, ⟨ceiling.1, some spent, "resident", ceiling.2⟩)

/-- A heartbeat: the quota window that is open, the reset instant and the meter where they
can be read, and the ceiling that is configured. -/
structure Beat where
  window : ℕ
  reset : Option ℚ
  live : Option ℤ
  cfg : Option Value

variable (parseTokens : Value → Option ℕ)

/-- What a run carries after some heartbeats. -/
def metaAfter (beats : List Beat) : Meta :=
  beats.foldl (fun stored beat => (residentAllowanceState parseTokens stored beat.cfg beat.reset beat.live).1) Meta.fresh

/-- The spend that a heartbeat reports after others. -/
def spentAt (earlier : List Beat) (beat : Beat) : Option ℤ :=
  (residentAllowanceState parseTokens (metaAfter parseTokens earlier) beat.cfg beat.reset beat.live).2.spent

/-- The meter at the first metered heartbeat of a window of some kind. -/
def firstMeter (kind : Beat → Bool) (window : ℕ) (beats : List Beat) : Option ℤ :=
  beats.findSome? fun beat => if beat.window = window ∧ kind beat then beat.live else none

/-- The reset instant is read. -/
def Beat.shown (beat : Beat) : Bool :=
  beat.reset.isSome

/-- The heartbeats of a run: windows open one after another, the meter never decreases, and a
reset instant that is read is the one of the window that is open, which no other window has. -/
structure Honest (resetOf : ℕ → ℚ) (beats : List Beat) : Prop where
  windows : beats.Pairwise fun first later => first.window ≤ later.window
  meter : beats.Pairwise fun first later => ∀ low ∈ first.live, ∀ high ∈ later.live, low ≤ high
  resets : ∀ beat ∈ beats, ∀ instant ∈ beat.reset, instant = resetOf beat.window
  keys : ∀ first ∈ beats, ∀ later ∈ beats,
    residentWindowKey (some (resetOf first.window)) = residentWindowKey (some (resetOf later.window)) → first.window = later.window

/-- From the first metered heartbeat of a kind on, each one reports what the meter has grown by
in its window since. -/
def Windowed (kind : Beat → Bool) (beats : List Beat) : Prop :=
  ∀ earlier beat later, beats = earlier ++ beat :: later → ∀ live ∈ beat.live,
    ∀ base ∈ firstMeter kind beat.window (earlier ++ [beat]), spentAt parseTokens earlier beat = some (live - base)

/-- From that heartbeat on, the spend that is reported in its window never decreases. -/
def NeverFalls (kind : Beat → Bool) (beats : List Beat) : Prop :=
  ∀ earlier first between second later, beats = earlier ++ first :: (between ++ second :: later) →
    first.window = second.window → firstMeter kind first.window (earlier ++ [first]) ≠ none →
      ∀ low ∈ spentAt parseTokens earlier first, ∀ high ∈ spentAt parseTokens (earlier ++ first :: between) second, low ≤ high

variable {parseTokens} {kind : Beat → Bool} {earlier later beats : List Beat} {beat : Beat} {window : ℕ} {live base : ℤ}
  {resetOf : ℕ → ℚ}

theorem metaAfter_concat : metaAfter parseTokens (earlier ++ [beat]) =
    (residentAllowanceState parseTokens (metaAfter parseTokens earlier) beat.cfg beat.reset beat.live).1 := by
  rw [metaAfter, List.foldl_append, List.foldl_cons, List.foldl_nil]
  rfl

/-- A heartbeat that is not metered leaves the stamps. -/
theorem stamps_unmetered (hLive : beat.live = none) :
    (metaAfter parseTokens (earlier ++ [beat])).baseline = (metaAfter parseTokens earlier).baseline ∧
      (metaAfter parseTokens (earlier ++ [beat])).window = (metaAfter parseTokens earlier).window := by
  rw [metaAfter_concat, hLive]
  exact ⟨rfl, rfl⟩

theorem spentAt_metered (hLive : beat.live = some live)
    (hBase : (metaAfter parseTokens (earlier ++ [beat])).baseline = some base) :
    spentAt parseTokens earlier beat = some (max 0 (live - base)) := by
  rw [metaAfter_concat, hLive] at hBase
  rw [spentAt, hLive, ← Option.some.inj hBase]
  rfl

/-- A metered heartbeat that captures the baseline anew. -/
theorem stamps_rolled (hLive : beat.live = some live)
    (hRolls : (metaAfter parseTokens earlier).Rolls (residentWindowKey beat.reset)) :
    (metaAfter parseTokens (earlier ++ [beat])).baseline = some live ∧
      (metaAfter parseTokens (earlier ++ [beat])).window = residentWindowKey beat.reset := by
  rw [metaAfter_concat, hLive]
  exact ⟨congrArg some (if_pos hRolls), if_pos hRolls⟩

/-- One that keeps it. -/
theorem stamps_kept (hLive : beat.live = some live)
    (hKept : ¬ (metaAfter parseTokens earlier).Rolls (residentWindowKey beat.reset)) :
    (metaAfter parseTokens (earlier ++ [beat])).baseline = (metaAfter parseTokens earlier).baseline ∧
      (metaAfter parseTokens (earlier ++ [beat])).window = (metaAfter parseTokens earlier).window := by
  obtain ⟨base, hBase⟩ := Option.ne_none_iff_exists'.mp fun hFresh => hKept (.inl hFresh)
  rw [metaAfter_concat, hLive, hBase]
  exact ⟨congrArg some ((if_neg hKept).trans (by rw [hBase]; rfl)), if_neg hKept⟩

theorem firstMeter_concat : firstMeter kind window (earlier ++ [beat]) =
    (firstMeter kind window earlier).or (if beat.window = window ∧ kind beat then beat.live else none) := by
  rw [firstMeter, firstMeter, List.findSome?_append, List.findSome?_cons, List.findSome?_nil]
  cases hMeter : if beat.window = window ∧ kind beat then beat.live else none <;> rfl

theorem firstMeter_append (h : firstMeter kind window earlier = some base) (more : List Beat) :
    firstMeter kind window (earlier ++ more) = some base := by
  rw [firstMeter, List.findSome?_append, ← firstMeter, h, Option.some_or]

theorem firstMeter_mem (h : firstMeter kind window beats = some base) :
    ∃ beat ∈ beats, beat.window = window ∧ beat.live = some base := by
  obtain ⟨beat, hBeat, hMeter⟩ := List.exists_of_findSome?_eq_some h
  split at hMeter
  · rename_i hWindow
    exact ⟨beat, hBeat, hWindow.1, hMeter⟩
  · cases hMeter

/-- A window that is not open yet is not metered. -/
theorem firstMeter_unopened (hWindows : ∀ first ∈ earlier, first.window ≤ beat.window) (hLater : beat.window < window) :
    firstMeter kind window (earlier ++ [beat]) = none := by
  refine Option.eq_none_iff_forall_ne_some.mpr fun base hFirst => ?_
  obtain ⟨metered, hIn, rfl, -⟩ := firstMeter_mem hFirst
  rcases List.mem_append.mp hIn with hOld | hNew
  · exact absurd (hWindows metered hOld) (by omega)
  · rw [List.mem_singleton.mp hNew] at hLater
    omega

theorem Honest.older (hHonest : Honest resetOf beats) (hSplit : beats = earlier ++ beat :: later) :
    ∀ first ∈ earlier, first.window ≤ beat.window ∧ ∀ low ∈ first.live, ∀ high ∈ beat.live, low ≤ high := by
  intro first hFirst
  have hWindows := hSplit ▸ hHonest.windows
  have hMeter := hSplit ▸ hHonest.meter
  exact ⟨(List.pairwise_append.mp hWindows).2.2 first hFirst beat List.mem_cons_self,
    (List.pairwise_append.mp hMeter).2.2 first hFirst beat List.mem_cons_self⟩

/-- The first reading of a window is not above the one that is metered now. -/
theorem firstMeter_le (hHonest : Honest resetOf beats) (hSplit : beats = earlier ++ beat :: later) (hLive : beat.live = some live)
    (hFirst : firstMeter kind window (earlier ++ [beat]) = some base) : base ≤ live := by
  obtain ⟨metered, hIn, -, hReading⟩ := firstMeter_mem hFirst
  rcases List.mem_append.mp hIn with hOld | hNew
  · exact (hHonest.older hSplit metered hOld).2 base hReading live hLive
  · rw [List.mem_singleton.mp hNew, hLive] at hReading
    exact (Option.some.inj hReading).ge

/-- What is stamped for the newest window: its own name from its first metered heartbeat that
reads the reset instant on, and the baseline of that one. -/
structure Stamped (parseTokens : Value → Option ℕ) (resetOf : ℕ → ℚ) (beats earlier : List Beat) : Prop where
  window : ∀ next ∈ beats, (∀ beat ∈ earlier, beat.window ≤ next.window) →
    ((metaAfter parseTokens earlier).window = residentWindowKey (some (resetOf next.window)) ↔
      firstMeter Beat.shown next.window earlier ≠ none)
  baseline : ∀ next ∈ beats, (∀ beat ∈ earlier, beat.window ≤ next.window) →
    ∀ base ∈ firstMeter Beat.shown next.window earlier, (metaAfter parseTokens earlier).baseline = some base

theorem Stamped.nil : Stamped parseTokens resetOf beats [] :=
  ⟨fun _ _ _ => iff_of_false nofun (by simp [firstMeter]), fun _ _ _ _ hBase => by cases hBase⟩

section Beat

variable (hStamped : Stamped parseTokens resetOf beats earlier) (hIn : beat ∈ beats)
  (hWindows : ∀ first ∈ earlier, first.window ≤ beat.window)
  (hReset : ∀ instant ∈ beat.reset, instant = resetOf beat.window) (hLive : beat.live = some live)

include hStamped hIn hWindows hReset hLive

/-- A window whose reset instant was read, now or before, is stamped with its first reading. -/
theorem stamps_seen (hFirst : firstMeter Beat.shown beat.window (earlier ++ [beat]) = some base) :
    (metaAfter parseTokens (earlier ++ [beat])).baseline = some base ∧
      (metaAfter parseTokens (earlier ++ [beat])).window = residentWindowKey (some (resetOf beat.window)) := by
  have hName := hStamped.window beat hIn hWindows
  rw [firstMeter_concat] at hFirst
  cases hOld : firstMeter Beat.shown beat.window earlier with
  | none =>
      rw [hOld, Option.none_or, hLive] at hFirst
      split at hFirst
      · rename_i hShown
        obtain rfl := Option.some.inj hFirst
        obtain ⟨instant, hSeen⟩ := Option.isSome_iff_exists.mp hShown.2
        obtain rfl := hReset instant hSeen
        have hRolls : (metaAfter parseTokens earlier).Rolls (residentWindowKey beat.reset) :=
          .inr ⟨by simp [hSeen, residentWindowKey], fun hSame => hName.mp (by rw [← hSame, hSeen]) hOld⟩
        rw [← hSeen]
        exact stamps_rolled hLive hRolls
      · cases hFirst
  | some first =>
      rw [hOld, Option.some_or] at hFirst
      obtain rfl := Option.some.inj hFirst
      have hStored := hName.mpr (by simp [hOld])
      have hBase := hStamped.baseline beat hIn hWindows first hOld
      have hKept : ¬ (metaAfter parseTokens earlier).Rolls (residentWindowKey beat.reset) := by
        rintro (hFresh | ⟨hKnown, hOther⟩)
        · rw [hBase] at hFresh
          cases hFresh
        · cases hSeen : beat.reset with
          | none => exact hKnown (by rw [hSeen]; rfl)
          | some instant =>
              rw [hSeen, hReset instant hSeen] at hOther
              exact hOther hStored.symm
      rw [(stamps_kept hLive hKept).1, (stamps_kept hLive hKept).2]
      exact ⟨hBase, hStored⟩

omit hStamped hIn hWindows hReset in
/-- Before that the window is not named by a heartbeat. -/
theorem stamps_unseen (hFirst : firstMeter Beat.shown beat.window (earlier ++ [beat]) = none) :
    (metaAfter parseTokens (earlier ++ [beat])).window = none ∨
      (metaAfter parseTokens (earlier ++ [beat])).window = (metaAfter parseTokens earlier).window := by
  have hHidden : beat.reset = none := by
    rw [firstMeter_concat, Option.or_eq_none_iff, hLive] at hFirst
    by_contra hSeen
    rw [if_pos ⟨rfl, Option.isSome_iff_ne_none.mpr hSeen⟩] at hFirst
    cases hFirst.2
  by_cases hRolls : (metaAfter parseTokens earlier).Rolls (residentWindowKey beat.reset)
  · rw [(stamps_rolled hLive hRolls).2, hHidden]
    exact .inl rfl
  · exact .inr (stamps_kept hLive hRolls).2

end Beat

/-- A heartbeat keeps the stamps. -/
theorem Stamped.concat (h : Stamped parseTokens resetOf beats earlier) (hHonest : Honest resetOf beats) (hIn : beat ∈ beats)
    (hWindows : ∀ first ∈ earlier, first.window ≤ beat.window) : Stamped parseTokens resetOf beats (earlier ++ [beat]) := by
  have hReset := hHonest.resets beat hIn
  have hOlder : ∀ {window}, (∀ first ∈ earlier ++ [beat], first.window ≤ window) → ∀ first ∈ earlier, first.window ≤ window :=
    fun hNewest first hFirst => hNewest first (List.mem_append_left _ hFirst)
  cases hLive : beat.live with
  | none =>
      have hSame : ∀ window, firstMeter Beat.shown window (earlier ++ [beat]) = firstMeter Beat.shown window earlier := fun window => by
        rw [firstMeter_concat, hLive, ite_self, Option.or_none]
      refine ⟨fun next hNext hNewest => ?_, fun next hNext hNewest => ?_⟩
      · rw [hSame, (stamps_unmetered hLive).2]
        exact h.window next hNext (hOlder hNewest)
      · rw [hSame, (stamps_unmetered hLive).1]
        exact h.baseline next hNext (hOlder hNewest)
  | some live =>
      have hSeen := fun base => @stamps_seen parseTokens earlier beats beat live base resetOf h hIn hWindows hReset hLive
      refine ⟨fun next hNext hNewest => ?_, fun next hNext hNewest base hFirst => ?_⟩
      · rcases (hNewest beat (by simp)).eq_or_lt with hOpen | hLater
        · rw [← hOpen]
          cases hFirst : firstMeter Beat.shown beat.window (earlier ++ [beat]) with
          | some base => exact iff_of_true (hSeen base hFirst).2 (by simp)
          | none =>
              refine iff_of_false (fun hNamed => ?_) (by simp)
              rcases stamps_unseen hLive hFirst with hNone | hKept
              · rw [hNone] at hNamed
                cases hNamed
              · rw [firstMeter_concat, Option.or_eq_none_iff] at hFirst
                exact (h.window beat hIn hWindows).mp (hKept ▸ hNamed) hFirst.1
        · have hUnopened : firstMeter Beat.shown next.window (earlier ++ [beat]) = none := firstMeter_unopened hWindows hLater
          refine iff_of_false (fun hNamed => ?_) (not_not.mpr hUnopened)
          cases hFirst : firstMeter Beat.shown beat.window (earlier ++ [beat]) with
          | some base =>
              rw [(hSeen base hFirst).2] at hNamed
              exact hLater.ne (hHonest.keys beat hIn next hNext hNamed)
          | none =>
              rcases stamps_unseen hLive hFirst with hNone | hKept
              · rw [hNone] at hNamed
                cases hNamed
              · rw [firstMeter_concat, Option.or_eq_none_iff] at hUnopened
                exact (h.window next hNext (hOlder hNewest)).mp (hKept ▸ hNamed) hUnopened.1
      · rcases (hNewest beat (by simp)).eq_or_lt with hOpen | hLater
        · exact (hSeen base (hOpen ▸ hFirst)).1
        · rw [firstMeter_unopened hWindows hLater] at hFirst
          cases hFirst

/-- Every run keeps the stamps. -/
theorem stamped_run (hHonest : Honest resetOf beats) (hSplit : beats = earlier ++ later) :
    Stamped parseTokens resetOf beats earlier := by
  induction earlier using List.reverseRecOn generalizing later with
  | nil => exact .nil
  | append_singleton earlier beat ih =>
      rw [List.append_assoc, List.singleton_append] at hSplit
      exact (ih hSplit).concat hHonest (by simp [hSplit]) fun first hFirst => (hHonest.older hSplit first hFirst).1

/-- Where all metered heartbeats of a window count from one reading, what they report grows with
the meter. -/
theorem Windowed.neverFalls (h : Windowed parseTokens kind beats) (hHonest : Honest resetOf beats) :
    NeverFalls parseTokens kind beats := by
  have hMetered : ∀ {earlier beat} {spent : ℤ}, spentAt parseTokens earlier beat = some spent → ∃ live, beat.live = some live := by
    intro earlier beat spent hSpent
    refine Option.ne_none_iff_exists'.mp fun hLive => ?_
    rw [spentAt, hLive] at hSpent
    cases hSpent
  intro earlier first between second later hSplit hWindow hSeen low hLow high hHigh
  obtain ⟨base, hBase⟩ := Option.ne_none_iff_exists'.mp hSeen
  obtain ⟨live, hLive⟩ := hMetered hLow
  obtain ⟨next, hNext⟩ := hMetered hHigh
  have hAgain : beats = (earlier ++ first :: between) ++ second :: later := by simpa using hSplit
  have hSame : firstMeter kind second.window ((earlier ++ first :: between) ++ [second]) = some base := by
    simpa [hWindow] using firstMeter_append hBase (between ++ [second])
  obtain rfl := Option.some.inj (hLow.symm.trans (h earlier first _ hSplit live hLive base hBase))
  obtain rfl := Option.some.inj (hHigh.symm.trans (h _ second later hAgain next hNext base hSame))
  have hGrown := (hHonest.older hAgain first (by simp)).2 live hLive next hNext
  omega

/-- In each window, from the first metered heartbeat that reads its reset instant on, the spend
is what the meter has grown by since, and it never falls. -/
theorem spend_windowed (parseTokens : Value → Option ℕ) (hHonest : Honest resetOf beats) :
    Windowed parseTokens Beat.shown beats ∧ NeverFalls parseTokens Beat.shown beats := by
  have hSpent : Windowed parseTokens Beat.shown beats := by
    intro earlier beat later hSplit live hLive base hFirst
    have hIn : beat ∈ beats := by simp [hSplit]
    have hWindows := fun first hFirst => (hHonest.older hSplit first hFirst).1
    have hStamped : Stamped parseTokens resetOf beats earlier := stamped_run hHonest hSplit
    have hStamps := stamps_seen hStamped hIn hWindows (hHonest.resets beat hIn) hLive hFirst
    have hLow := firstMeter_le hHonest hSplit hLive hFirst
    rw [spentAt_metered hLive hStamps.1, max_eq_right (by omega)]
  exact ⟨hSpent, hSpent.neverFalls hHonest⟩

/-- The reset instants of windows of five hours. -/
def fiveHours (window : ℕ) : ℚ :=
  18000 * (window + 1)

/-- A run whose reset instant is read late, and one whose next window opens unread. -/
def lateReset : List Beat :=
  [⟨0, none, some 10, none⟩, ⟨0, none, some 15, none⟩, ⟨0, some 18000, some 16, none⟩, ⟨0, none, some 18, none⟩]

def unreadReset : List Beat :=
  [⟨0, some 18000, some 10, none⟩, ⟨1, none, some 30, none⟩]

theorem lateReset_honest : Honest fiveHours lateReset :=
  ⟨by decide +kernel, by simp [lateReset], by decide +kernel, by decide +kernel⟩

theorem spend_windowed_late : spentAt (fun _ => none)
    [⟨0, none, some 10, none⟩, ⟨0, none, some 15, none⟩, ⟨0, some 18000, some 16, none⟩] ⟨0, none, some 18, none⟩ = some 2 :=
  (spend_windowed (fun _ => none) lateReset_honest).1 _ _ [] rfl 18 rfl 16 rfl

/-- A window that is first metered without its reset instant is captured again when the instant
is read, and one that opens unread is charged for the window before. -/
theorem spend_falls :
    (Honest fiveHours lateReset ∧ ¬ Windowed (fun _ => none) (fun _ => true) lateReset ∧
      ¬ NeverFalls (fun _ => none) (fun _ => true) lateReset) ∧
      Honest fiveHours unreadReset ∧ ¬ Windowed (fun _ => none) (fun _ => true) unreadReset := by
  have hFive : spentAt (fun _ => none) [⟨0, none, some 10, none⟩] ⟨0, none, some 15, none⟩ = some 5 := by decide +kernel
  have hZero : spentAt (fun _ => none) [⟨0, none, some 10, none⟩, ⟨0, none, some 15, none⟩] ⟨0, some 18000, some 16, none⟩ =
      some 0 := by decide +kernel
  have hCharged : spentAt (fun _ => none) [⟨0, some 18000, some 10, none⟩] ⟨1, none, some 30, none⟩ = some 20 := by decide +kernel
  refine ⟨⟨lateReset_honest, fun h => ?_, fun h => ?_⟩,
    ⟨by decide +kernel, by simp [unreadReset], by decide +kernel, by decide +kernel⟩, fun h => ?_⟩
  · have hSix := h [⟨0, none, some 10, none⟩, ⟨0, none, some 15, none⟩] _ _ rfl 16 rfl 10 rfl
    rw [hZero] at hSix
    cases hSix
  · have hGrows := h [⟨0, none, some 10, none⟩] _ [] _ _ rfl rfl (by decide) 5 hFive 0 hZero
    omega
  · have hFresh := h [⟨0, some 18000, some 10, none⟩] _ [] rfl 30 rfl 30 rfl
    rw [hCharged] at hFresh
    cases hFresh

end Brnrd.Allowance
