import Brnrd.Machine.Reach
import Brnrd.Schedule.Runs
import Brnrd.Schedule.Tiers

/-! The tick and the runs that record tiers over one state file: each of them reads it,
changes its copy and writes it back. -/
namespace Brnrd.Schedule

open Events (Text)

/-- Where a tick stands. -/
inductive Phase where
  | idle
  /-- It has read the schedule. -/
  | read (entries : List ScheduleEntry)
  /-- It has loaded a state without the marker and stamped it. -/
  | granted (entries : List ScheduleEntry) (state : StateFile)
  /-- It goes on with what it has loaded, or has saved. -/
  | loaded (entries : List ScheduleEntry) (state : StateFile)
  /-- It has fired, and has a state to save. -/
  | fired (loaded new : StateFile)

/-- A run in `record_entry_tiers`, with the state it has loaded. -/
structure Pending where
  run : Run
  state : StateFile

/-- The schedule and the state file, the tick and the runs that are recording, and what
has happened: the runs that came to record, the passes that were saved, the answers. -/
structure World where
  schedule : Text
  file : StateFile
  tick : Phase := .idle
  pending : List Pending := []
  runs : List Run := []
  passes : List (List ScheduleEntry) := []
  answers : List Answer := []

inductive Action where
  | edit (text : Text)
  | readSchedule
  | loadState
  | saveGrandfathered
  | fire (env : Env)
  | saveFired
  /-- The tick ends, by an exception or with the daemon. -/
  | skip
  | loadRecord (run : Run)
  | saveRecord (i : ℕ)
  | dropRecord (i : ℕ)

variable (calls : Calls) (digest : List Text → Text)

/-- One read, one write or one edit, where it can be made. -/
def World.step (w : World) : Action → Option World
  | .edit text => some { w with schedule := text }
  | .readSchedule =>
      match w.tick with
      | .idle => some { w with tick := .read (parseScheduleText calls w.schedule) }
      | _ => none
  | .loadState =>
      match w.tick with
      | .read entries =>
          match grandfatherEntryTiers (fingerprints digest entries) w.file with
          | some stamped => some { w with tick := .granted entries stamped }
          | none => some { w with tick := .loaded entries w.file }
      | _ => none
  | .saveGrandfathered =>
      match w.tick with
      | .granted entries state =>
          some { w with file := state, tick := .loaded entries state, passes := w.passes ++ [entries] }
      | _ => none
  | .fire env =>
      match w.tick with
      | .loaded entries state =>
          if entries = [] then some { w with tick := .idle }
          else
            let (answers, new) := fireDue digest entries state env
            some { w with tick := .fired state new, answers := w.answers ++ answers }
      | _ => none
  | .saveFired =>
      match w.tick with
      | .fired loaded new => some { w with file := if new ≠ loaded then new else w.file, tick := .idle }
      | _ => none
  | .skip => some { w with tick := .idle }
  | .loadRecord run =>
      if run.touched calls digest = [] ∨ run.tier = [] then none
      else some { w with pending := w.pending ++ [⟨run, w.file⟩], runs := w.runs ++ [run] }
  | .saveRecord i =>
      match w.pending[i]? with
      | some pending =>
          some { w with
            file := recordEntryTiers (pending.run.touched calls digest) pending.run.tier pending.state
            pending := w.pending.eraseIdx i }
      | none => none
  | .dropRecord i => some { w with pending := w.pending.eraseIdx i }

/-- A state file from before there were records, and nobody at it. -/
structure World.Fresh (w : World) : Prop where
  tiers : w.file.tiers = []
  marker : w.file.grandfathered = false
  tick : w.tick = .idle
  pending : w.pending = []
  runs : w.runs = []
  passes : w.passes = []
  answers : w.answers = []

/-- A commit has put an entry of the id there with a text that none of the id had. -/
def Introduces (commit : Text × Text) (id fp : Text) : Prop :=
  (∃ entry ∈ parseScheduleText calls commit.2, entry.id = id ∧ entryFingerprint digest entry = fp) ∧
    ∀ entry ∈ parseScheduleText calls commit.1, entry.id = id → entryFingerprint digest entry ≠ fp

/-- A text under an id is an owner's: an owner's run has introduced it in a commit, or
a pass has found it there. -/
def Owned (runs : List Run) (passes : List (List ScheduleEntry)) (id fp : Text) : Prop :=
  (∃ run ∈ runs, run.tier = ownerTier ∧ ∃ commit ∈ run.commits, Introduces calls digest commit id fp) ∨
    ∃ pass ∈ passes, ∃ entry ∈ pass, entry.id = id ∧ entryFingerprint digest entry = fp

/-- The tier fails closed: there has been one pass at most, and who was answered to be
an owner's is one. -/
structure World.FailsClosed (w : World) : Prop where
  once : w.passes.length ≤ 1
  owned : ∀ answer ∈ w.answers, answer.2 = some ownerTier →
    Owned calls digest w.runs w.passes answer.1.id (entryFingerprint digest answer.1)

/-- What a step must not do: read a schedule in which one slug has two texts, record for
an owner a commit on top of such a schedule, or save over the marker a state that was
loaded before it. -/
def World.Keeps (w : World) : Action → Prop
  | .readSchedule => Uniform digest (parseScheduleText calls w.schedule)
  | .loadRecord run => run.tier = ownerTier → ∀ commit ∈ run.commits, Uniform digest (parseScheduleText calls commit.1)
  | .saveRecord i => ∀ pending, w.pending[i]? = some pending → w.file.grandfathered = true →
      pending.state.grandfathered = true
  | _ => True

/-- Each owner record of a copy of the state is of a text that is an owner's. -/
def Backed (runs : List Run) (passes : List (List ScheduleEntry)) (tiers : Tiers) : Prop :=
  ∀ item ∈ tiers, item.2.tier = ownerTier → Owned calls digest runs passes item.1 item.2.fp

/-- What holds where a tick stands. -/
def Phase.Good (runs : List Run) (passes : List (List ScheduleEntry)) : Phase → Prop
  | .idle => True
  | .read entries => Uniform digest entries
  | .granted entries state =>
      Uniform digest entries ∧ passes = [] ∧ state.grandfathered = true ∧ Backed calls digest runs [entries] state.tiers
  | .loaded entries state =>
      Uniform digest entries ∧ passes ≠ [] ∧ state.grandfathered = true ∧ Backed calls digest runs passes state.tiers
  | .fired _ new => passes ≠ [] ∧ new.grandfathered = true ∧ Backed calls digest runs passes new.tiers

/-- What holds in every world reached. -/
structure World.Inv (w : World) : Prop where
  file : Backed calls digest w.runs w.passes w.file.tiers
  marked : w.passes ≠ [] ↔ w.file.grandfathered = true
  once : w.passes.length ≤ 1
  tick : w.tick.Good calls digest w.runs w.passes
  pending : ∀ p ∈ w.pending, p.run ∈ w.runs ∧ Backed calls digest w.runs w.passes p.state.tiers ∧
    (p.state.grandfathered = true → w.passes ≠ [])
  commits : ∀ run ∈ w.runs, run.tier = ownerTier → ∀ commit ∈ run.commits,
    Uniform digest (parseScheduleText calls commit.1)
  owned : ∀ answer ∈ w.answers, answer.2 = some ownerTier →
    Owned calls digest w.runs w.passes answer.1.id (entryFingerprint digest answer.1)

variable {calls digest}

variable {passes passes' : List (List ScheduleEntry)} {runs runs' : List Run}

theorem Owned.mono {id fp : Text} (h : Owned calls digest runs passes id fp) (hRuns : runs ⊆ runs')
    (hPasses : passes ⊆ passes') :
    Owned calls digest runs' passes' id fp := by
  rcases h with ⟨run, hRun, h⟩ | ⟨pass, hPass, h⟩
  · exact .inl ⟨run, hRuns hRun, h⟩
  · exact .inr ⟨pass, hPasses hPass, h⟩

theorem Backed.mono {tiers : Tiers} (h : Backed calls digest runs passes tiers) (hRuns : runs ⊆ runs')
    (hPasses : passes ⊆ passes') :
    Backed calls digest runs' passes' tiers :=
  fun item hItem hOwner => (h item hItem hOwner).mono hRuns hPasses

/-- One more run leaves a tick where it stands. -/
theorem Phase.Good.more {tick : Phase} (h : tick.Good calls digest runs passes) (hRuns : runs ⊆ runs') :
    tick.Good calls digest runs' passes := by
  cases tick with
  | idle => trivial
  | read entries => exact h
  | granted entries state => exact ⟨h.1, h.2.1, h.2.2.1, h.2.2.2.mono hRuns (List.Subset.refl _)⟩
  | loaded entries state => exact ⟨h.1, h.2.1, h.2.2.1, h.2.2.2.mono hRuns (List.Subset.refl _)⟩
  | fired loaded new => exact ⟨h.1, h.2.1, h.2.2.mono hRuns (List.Subset.refl _)⟩

/-- A pass stamps what it has found, and leaves what has a record. -/
theorem backed_stamps {entries : List ScheduleEntry} {tiers : Tiers} (hTiers : Backed calls digest runs [] tiers) :
    Backed calls digest runs [entries] ((fingerprints digest entries).foldl stamp tiers) := by
  intro item hItem hOwner
  rcases mem_stamps hItem with hOld | ⟨text, hText, rfl⟩
  · exact (hTiers item hOld hOwner).mono (List.Subset.refl _) (List.nil_subset _)
  · obtain ⟨entry, hEntry, hId, hFp⟩ := mem_fingerprints hText
    exact .inr ⟨entries, List.mem_singleton_self _, entry, hEntry, hId, hFp⟩

/-- What a run records, its commits have introduced. -/
theorem backed_recorded {run : Run} {state : StateFile} (hState : Backed calls digest runs passes state.tiers)
    (hRun : run ∈ runs)
    (hCommits : run.tier = ownerTier → ∀ commit ∈ run.commits, Uniform digest (parseScheduleText calls commit.1)) :
    Backed calls digest runs passes (recordEntryTiers (run.touched calls digest) run.tier state).tiers := by
  intro item hItem hOwner
  rcases mem_recordEntryTiers hItem with hOld | ⟨text, hText, rfl⟩
  · exact hState item hOld hOwner
  · obtain ⟨commit, hCommit, hAfter, hNew⟩ := mem_touched hText
    obtain ⟨entry, hEntry, hId, hFp⟩ := mem_fingerprints hAfter
    refine .inl ⟨run, hRun, hOwner, commit, hCommit, ⟨entry, hEntry, hId, hFp⟩, fun before hBefore hSame hBoth => hNew ?_⟩
    have hGet := (hCommits hOwner commit hCommit).get hBefore
    rw [hSame, hBoth] at hGet
    exact hGet

variable {w next : World}

theorem World.Fresh.inv (h : w.Fresh) : w.Inv calls digest where
  file := by simp [Backed, h.tiers]
  marked := by simp [h.passes, h.marker]
  once := by simp [h.passes]
  tick := by
    rw [h.tick]
    trivial
  pending := by simp [h.pending]
  commits := by simp [h.runs]
  owned := by simp [h.answers]

theorem World.Inv.readSchedule (h : w.Inv calls digest) (hKeeps : w.Keeps calls digest .readSchedule)
    (hStep : w.step calls digest .readSchedule = some next) : next.Inv calls digest := by
  unfold World.step at hStep
  dsimp only at hStep
  split at hStep
  · obtain rfl := Option.some.inj hStep
    exact { h with tick := hKeeps }
  · cases hStep

/-- A state without the marker is stamped in a world without a pass. -/
theorem World.Inv.loadState (h : w.Inv calls digest) (hStep : w.step calls digest .loadState = some next) :
    next.Inv calls digest := by
  have hTick := h.tick
  unfold World.step at hStep
  dsimp only at hStep
  split at hStep
  · rename_i entries hRead
    rw [hRead] at hTick
    split at hStep
    · rename_i stamped hStamped
      obtain rfl := Option.some.inj hStep
      obtain ⟨hUnmarked, rfl⟩ := grandfatherEntryTiers_eq_some.mp hStamped
      have hPasses : w.passes = [] := by
        by_contra hSome
        rw [h.marked.mp hSome] at hUnmarked
        cases hUnmarked
      exact { h with tick := ⟨hTick, hPasses, rfl, backed_stamps (hPasses ▸ h.file)⟩ }
    · rename_i hRan
      obtain rfl := Option.some.inj hStep
      have hMarked := grandfatherEntryTiers_eq_none.mp hRan
      exact { h with tick := ⟨hTick, h.marked.mpr hMarked, hMarked, h.file⟩ }
  · cases hStep

/-- The first write of a tick is the pass. -/
theorem World.Inv.saveGrandfathered (h : w.Inv calls digest) (hStep : w.step calls digest .saveGrandfathered = some next) :
    next.Inv calls digest := by
  have hTick := h.tick
  unfold World.step at hStep
  dsimp only at hStep
  split at hStep
  · rename_i entries state hGranted
    rw [hGranted] at hTick
    obtain ⟨hUniform, hNone, hMarked, hBacked⟩ := hTick
    obtain rfl := Option.some.inj hStep
    have hPasses : Backed calls digest w.runs (w.passes ++ [entries]) state.tiers := by
      rw [hNone, List.nil_append]
      exact hBacked
    have hMore : w.passes ⊆ w.passes ++ [entries] := List.subset_append_left _ _
    refine { file := hPasses, marked := ?_, once := ?_, tick := ⟨hUniform, by simp, hMarked, hPasses⟩, pending := ?_,
             commits := h.commits, owned := ?_ }
    · simp [hMarked]
    · simp [hNone]
    · intro p hp
      obtain ⟨hRun, hState, -⟩ := h.pending p hp
      exact ⟨hRun, hState.mono (List.Subset.refl _) hMore, fun _ => by simp⟩
    · intro answer hAnswer hOwner
      exact (h.owned answer hAnswer hOwner).mono (List.Subset.refl _) hMore
  · cases hStep

/-- What a tick answers is out of the records it has loaded, under the fingerprint of
the entry itself where one slug has one text. -/
theorem World.Inv.fire {env : Env} (h : w.Inv calls digest) (hStep : w.step calls digest (.fire env) = some next) :
    next.Inv calls digest := by
  have hTick := h.tick
  unfold World.step at hStep
  dsimp only at hStep
  split at hStep
  · rename_i entries state hLoaded
    rw [hLoaded] at hTick
    obtain ⟨hUniform, hSome, hMarked, hBacked⟩ := hTick
    split at hStep
    · obtain rfl := Option.some.inj hStep
      exact { h with tick := trivial }
    · obtain rfl := Option.some.inj hStep
      obtain ⟨hTiers, hMark⟩ := @fireDue_state digest entries state env
      refine { h with tick := ⟨hSome, hMark.trans hMarked, fun item hItem => hBacked item (hTiers item hItem)⟩, owned := ?_ }
      intro answer hAnswer hOwner
      rcases List.mem_append.mp hAnswer with hOld | hNew
      · exact h.owned answer hOld hOwner
      · obtain ⟨entry, hEntry, hPaced, fp, hFp, hRecord⟩ := fireDue_answer hNew hOwner
        rw [hUniform.get hEntry] at hFp
        obtain rfl := Option.some.inj hFp
        have hOwned := hBacked _ hRecord rfl
        rwa [hPaced, paced_id, fingerprint_paced]
  · cases hStep

theorem World.Inv.saveFired (h : w.Inv calls digest) (hStep : w.step calls digest .saveFired = some next) :
    next.Inv calls digest := by
  have hTick := h.tick
  unfold World.step at hStep
  dsimp only at hStep
  split at hStep
  · rename_i loaded new hFired
    rw [hFired] at hTick
    obtain ⟨hSome, hMarked, hBacked⟩ := hTick
    obtain rfl := Option.some.inj hStep
    refine { h with file := ?_, marked := ?_, tick := trivial }
    · dsimp only
      split
      · exact hBacked
      · exact h.file
    · dsimp only
      split
      · exact ⟨fun _ => hMarked, fun _ => hSome⟩
      · exact h.marked
  · cases hStep

theorem World.Inv.loadRecord {run : Run} (h : w.Inv calls digest) (hKeeps : w.Keeps calls digest (.loadRecord run))
    (hStep : w.step calls digest (.loadRecord run) = some next) :
    next.Inv calls digest := by
  unfold World.step at hStep
  dsimp only at hStep
  split at hStep
  · cases hStep
  · obtain rfl := Option.some.inj hStep
    have hMore : w.runs ⊆ w.runs ++ [run] := List.subset_append_left _ _
    refine { file := h.file.mono hMore (List.Subset.refl _), marked := h.marked, once := h.once, tick := h.tick.more hMore,
             pending := ?_, commits := ?_, owned := ?_ }
    · intro p hp
      rcases List.mem_append.mp hp with hp | hp
      · obtain ⟨hRun, hState, hMarked⟩ := h.pending p hp
        exact ⟨hMore hRun, hState.mono hMore (List.Subset.refl _), hMarked⟩
      · obtain rfl := List.mem_singleton.mp hp
        exact ⟨by simp, h.file.mono hMore (List.Subset.refl _), h.marked.mpr⟩
    · intro other hOther
      rcases List.mem_append.mp hOther with hOther | hOther
      · exact h.commits other hOther
      · obtain rfl := List.mem_singleton.mp hOther
        exact hKeeps
    · intro answer hAnswer hOwner
      exact (h.owned answer hAnswer hOwner).mono hMore (List.Subset.refl _)

/-- A run writes back the copy that it has loaded, which still has the marker. -/
theorem World.Inv.saveRecord {i : ℕ} (h : w.Inv calls digest) (hKeeps : w.Keeps calls digest (.saveRecord i))
    (hStep : w.step calls digest (.saveRecord i) = some next) :
    next.Inv calls digest := by
  unfold World.step at hStep
  dsimp only at hStep
  split at hStep
  · rename_i p hp
    obtain rfl := Option.some.inj hStep
    obtain ⟨hRun, hState, hMarked⟩ := h.pending p (List.mem_of_getElem? hp)
    refine { h with file := backed_recorded hState hRun (h.commits p.run hRun), marked := ?_, pending := ?_ }
    · exact ⟨fun hSome => hKeeps p hp (h.marked.mp hSome), hMarked⟩
    · exact fun other hOther => h.pending other (List.mem_of_mem_eraseIdx hOther)
  · cases hStep

/-- One step. -/
theorem World.Inv.step {action : Action} (h : w.Inv calls digest) (hKeeps : w.Keeps calls digest action)
    (hStep : w.step calls digest action = some next) : next.Inv calls digest := by
  cases action with
  | edit text =>
      obtain rfl := Option.some.inj hStep
      exact { h with }
  | readSchedule => exact h.readSchedule hKeeps hStep
  | loadState => exact h.loadState hStep
  | saveGrandfathered => exact h.saveGrandfathered hStep
  | fire env => exact h.fire hStep
  | saveFired => exact h.saveFired hStep
  | skip =>
      obtain rfl := Option.some.inj hStep
      exact { h with tick := trivial }
  | loadRecord run => exact h.loadRecord hKeeps hStep
  | saveRecord i => exact h.saveRecord hKeeps hStep
  | dropRecord i =>
      obtain rfl := Option.some.inj hStep
      exact { h with pending := fun p hp => h.pending p (List.mem_of_mem_eraseIdx hp) }

/-- In every interleaving in which no such schedule is read or committed upon and no run
saves over the marker, the tier fails closed. -/
theorem tier_fails_closed {w reached : World} (hFresh : w.Fresh)
    (hReach : Machine.Reach (World.step calls digest) (World.Keeps calls digest) w reached) :
    reached.FailsClosed calls digest :=
  have hInv := hReach.invariant (World.Inv calls digest) hFresh.inv fun _ _ _ h hKeeps hStep => h.step hKeeps hStep
  ⟨hInv.once, hInv.owned⟩

instance (w : World) : DecidablePred (w.Keeps calls digest)
  | .readSchedule => inferInstanceAs (Decidable (∀ entry ∈ _, ∀ other ∈ _, _ → _))
  | .loadRecord run => inferInstanceAs (Decidable (_ → ∀ commit ∈ run.commits, ∀ entry ∈ _, ∀ other ∈ _, _ → _))
  | .saveRecord i =>
      decidable_of_iff ((w.pending[i]?).all fun p => !w.file.grandfathered || p.state.grandfathered) <| by
        simp only [World.Keeps]
        cases w.pending[i]? <;> cases w.file.grandfathered <;> simp
  | .edit _ | .loadState | .saveGrandfathered | .fire _ | .saveFired | .skip | .dropRecord _ => isTrue trivial

/-- The texts of an entry in one line, for a digest. -/
def joinedTexts (texts : List Text) : Text :=
  ['|'].intercalate texts

/-- A tick at the first instant of a year, without signals or pacing. -/
def yearEnv : Env := ⟨[], 1767225600, 604800, fun _ => none, [], []⟩

def emptyWorld : World := { schedule := [], file := {} }

def wireLetter : Text := "## Wire\nat: 2026-01-01T00:00:00Z\nSend it.\n".toList

/-- An owner's run writes a letter into an empty schedule; the letter is an owner's. -/
theorem committed_letter_fails_closed : ∃ reached : World, reached.FailsClosed asciiCalls joinedTexts ∧
    reached.answers.any (fun answer => answer.2 = some ownerTier) = true := by
  let actions : List Action :=
    [.readSchedule, .loadState, .saveGrandfathered, .skip, .edit yearLetter,
      .loadRecord ⟨ownerTier, [([], yearLetter)]⟩, .saveRecord 0, .readSchedule, .loadState, .fire yearEnv, .saveFired]
  have hRun : (Machine.follow (World.step asciiCalls joinedTexts) (World.Keeps asciiCalls joinedTexts) emptyWorld
      actions).any (fun reached => reached.answers.any fun answer => answer.2 = some ownerTier) = true := by
    decide +kernel
  obtain ⟨reached, hReached, hOwner⟩ := (Option.any_eq_true ..).mp hRun
  exact ⟨reached, tier_fails_closed ⟨rfl, rfl, rfl, rfl, rfl, rfl, rfl⟩ (.follow .refl hReached), hOwner⟩

/-- A run loads the state before the pass and saves it behind. The marker is gone, and a
second pass takes a letter that nobody has committed for an owner's. -/
theorem marker_is_saved_over : ∃ reached : World,
    Machine.Reach (World.step asciiCalls joinedTexts) (fun _ _ => True) emptyWorld reached ∧
      ¬reached.FailsClosed asciiCalls joinedTexts ∧
      reached.answers.any (fun answer => answer.1.body = "Send it.".toList ∧ answer.2 = some ownerTier) = true := by
  let actions : List Action :=
    [.edit yearLetter, .loadRecord ⟨"collaborator".toList, [([], yearLetter)]⟩, .readSchedule, .loadState,
      .saveGrandfathered, .skip, .saveRecord 0, .edit wireLetter, .readSchedule, .loadState, .saveGrandfathered,
      .fire yearEnv, .saveFired]
  have hRun : (Machine.follow (World.step asciiCalls joinedTexts) (fun _ _ => True) emptyWorld actions).any (fun reached =>
      reached.passes.length = 2 && reached.answers.any fun answer =>
        answer.1.body = "Send it.".toList ∧ answer.2 = some ownerTier) = true := by decide +kernel
  obtain ⟨reached, hReached, hBoth⟩ := (Option.any_eq_true ..).mp hRun
  obtain ⟨hTwice, hOwner⟩ := Bool.and_eq_true_iff.mp hBoth
  refine ⟨reached, .follow .refl hReached, fun hClosed => ?_, hOwner⟩
  have hOnce := hClosed.once
  have hTwo : reached.passes.length = 2 := of_decide_eq_true hTwice
  omega

end Brnrd.Schedule
