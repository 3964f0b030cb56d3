import Brnrd.Board.Synced
import Mathlib.Tactic.FinCases
import Mathlib.Tactic.IntervalCases

/-! Runs of the board's client and its server: once a sync has finished and the server has
not moved since it read the index, the store has the server's parts, where each answer is
filed in time. -/
namespace Brnrd.Board

variable {ι J δ : Type} [DecidableEq ι] [DecidableEq J] [DecidableEq δ] [LT ι] [DecidableLT ι]

section Statement

variable (digest : Part ι J → δ) (maps : Set (ι → Option J))

/-- The store has the server's parts: its beads, if it has loaded them, a stretch of the
newest letters of each thread that it has, and the topics and the unthreaded wishes. -/
structure Store.Good (store : Store ι J δ) (server : Server ι J δ) : Prop where
  beads : ∀ rows ∈ store.beads, ∀ id, Entries.get id rows = Entries.get id server.parts.beads
  threads : ∀ name, ∀ part ∈ Entries.get name store.threads,
    ∃ thread, Entries.get name server.parts.threads = some thread ∧ part.Of thread
  topics : store.topics = server.parts.topics
  unthreaded : store.unthreaded = server.parts.unthreaded

/-- A stage after the beads. -/
def Stage.pastBeads : Stage ι J δ → Bool
  | .patched | .topics _ | .unthreaded _ => true
  | _ => false

/-- A sync is past the beads with the index that the server still has, or has ended with it. -/
def World.PastBeads (w : World ι J δ) : Prop :=
  w.moves ∈ w.finished ∨ ∃ item ∈ w.syncs, match item.2 with
    | .going version _ stage => version = w.moves ∧ stage.pastBeads = true
    | .asking => False

/-- A sync goes on in time: with the index that was taken last, none newer taken before
it takes its own; what it ends with at once is all filed under its index; and what it files
is the server's where it is filed under a hash that the server has. -/
def World.Resumes (w : World ι J δ) (version : ℕ) (index : Index ι J δ) : Stage ι J δ → Prop
  | .index => (∀ taken ∈ w.taken, taken.1 ≤ version) ∧
      (w.store.index = some index → version = w.moves → w.store.Has index)
  | stage => (∃ taken ∈ w.taken, taken.2 = index) ∧ w.store.Files digest w.server index stage

/-- When a step is in time. -/
def World.InTime (w : World ι J δ) : Action ι J → Prop
  | .server m => (w.move digest m).server.rows ∈ maps ∧ w.store.Filed digest (w.move digest m).server w.origins
  | .resume k => ∀ sync ∈ Entries.get k w.syncs, match sync with
      | .going version index stage => w.Resumes digest version index stage
      | .asking => True
  | .resumeLoad => ∀ load ∈ w.loading, ∀ rows ∈ load.2,
      (w.server.beadsHash digest = load.1 → w.server.Reads rows) ∧ (w.PastBeads → w.server.Reads rows)
  | .answerOlder k => ∀ older ∈ Entries.get k w.olders, ∀ thread ∈ Entries.get older.thread w.server.parts.threads,
      older.Reads thread
  | .resumeOlder k => ∀ older ∈ Entries.get k w.olders, Entries.get older.thread w.store.threads = some older.part ∧
      Entries.get older.thread w.origins = some older.origin
  | _ => True

/-- What holds of a sync under way. -/
structure World.Runs (w : World ι J δ) (version : ℕ) (index : Index ι J δ) (stage : Stage ι J δ) : Prop where
  earlier : version ≤ w.moves
  now : version = w.moves → index = w.server.index digest
  sound : index.Sound digest maps
  beads : ∃ was ∈ maps, digest (.beads was) = index.beads
  fit : stage.Fit digest maps index
  upto : version = w.moves → stage ≠ .index → w.taken = some (version, index) ∧
    w.store.Upto w.server w.origins index stage

/-- What holds in every run in time. -/
structure World.Inv (w : World ι J δ) : Prop where
  server : w.server.Sound digest maps
  held : w.store.Held digest w.server w.origins maps
  syncs : ∀ k version index stage, Entries.get k w.syncs = some (.going version index stage) →
    w.Runs digest maps version index stage
  taken : ∀ taken ∈ w.taken, taken.1 ≤ w.moves ∧ (taken.1 = w.moves → taken.2 = w.server.index digest)
  finished : ∀ version ∈ w.finished, version ≤ w.moves
  done : w.moves ∈ w.finished → (∃ index, w.taken = some (w.moves, index)) ∧ w.store.Done w.server w.origins
  loading : ∀ load ∈ w.loading, (∃ was ∈ maps, digest (.beads was) = load.1) ∧
    ∀ rows ∈ load.2, (fun id => Entries.get id rows) ∈ maps
  olders : ∀ k older, Entries.get k w.olders = some older → older.part.Of older.origin ∧
    ∀ cut ∈ older.got, (lengthen older.part cut).Of older.origin

end Statement

variable {digest : Part ι J → δ} {maps : Set (ι → Option J)} {w w' : World ι J δ} {version k : ℕ} {index : Index ι J δ}
  {stage : Stage ι J δ}

omit [LT ι] [DecidableLT ι] [DecidableEq J] [DecidableEq δ] in
theorem World.Inv.good (h : w.Inv digest maps) (hDone : w.moves ∈ w.finished) : w.store.Good w.server := by
  obtain ⟨-, hThreads, hBeads, hTopics, hUnthreaded⟩ := h.done hDone
  refine ⟨hBeads, fun name part hPart => ?_, hTopics, hUnthreaded⟩
  obtain ⟨thread, hThread, hOrigin⟩ := hThreads name part hPart
  obtain ⟨-, origin, hIs, hOf⟩ := h.held.cut name part hPart
  obtain rfl := Option.mem_unique hOrigin hIs
  exact ⟨thread, hThread, hOf⟩

section Go

variable {origins' : List (ι × Thread ι J)} {taken' : Option (ℕ × Index ι J δ)} {before : Prop}
  {out : Store ι J δ × Option (Stage ι J δ)}

omit [LT ι] [DecidableLT ι] [DecidableEq J] [DecidableEq δ] in
/-- A sync that goes on keeps what holds, where the index it goes on with is the server's
if one of the syncs before it had the server's. -/
theorem World.Inv.go (h : w.Inv digest maps) (hRuns : w.Runs digest maps version index stage)
    (hGoes : Goes digest maps w.server w.origins index before w.store origins' out) (hBefore : version = w.moves → before)
    (hTaken : ∀ taken ∈ taken', taken.1 ≤ w.moves ∧ (taken.1 = w.moves → taken.2 = w.server.index digest))
    (hStays : ∀ other, w.taken = some (w.moves, other) → taken' = some (w.moves, other) ∧ index = w.server.index digest)
    (hOwn : version = w.moves → taken' = some (version, index)) :
    (({ w with taken := taken', origins := origins' } : World ι J δ).go k version index out).Inv digest maps := by
  have hOthers : ∀ {version' : ℕ} {index' : Index ι J δ} {stage' : Stage ι J δ}, w.Runs digest maps version' index' stage' →
      version' = w.moves → stage' ≠ .index → taken' = some (version', index') ∧
        out.1.Upto w.server origins' index' stage' := by
    intro version' index' stage' hOther hNow hStage
    obtain ⟨hTook, hUpto⟩ := hOther.upto hNow hStage
    obtain ⟨hSame, hIs⟩ := hStays index' (hNow ▸ hTook)
    refine ⟨hNow.symm ▸ hSame, ?_⟩
    rw [hOther.now hNow] at hUpto ⊢
    exact (hGoes.onward hIs).upto hUpto
  have hDone : w.moves ∈ w.finished → (∃ other, taken' = some (w.moves, other)) ∧ out.1.Done w.server origins' := by
    intro hIn
    obtain ⟨⟨other, hTook⟩, hAll⟩ := h.done hIn
    obtain ⟨hSame, hIs⟩ := hStays other hTook
    exact ⟨⟨other, hSame⟩, (hGoes.onward hIs).done hAll⟩
  have hReached : version = w.moves → Reached w.server origins' index out := fun hNow =>
    hGoes.reached (hRuns.now hNow) (hBefore hNow)
  unfold World.go
  obtain ⟨store, next⟩ := out
  cases next with
  | some stage' =>
      refine ⟨h.server, hGoes.held, fun k' version' index' stage'' hGet => ?_, hTaken, h.finished, hDone, h.loading, h.olders⟩
      dsimp only at hGet
      rw [Entries.get_set] at hGet
      split at hGet
      · obtain ⟨rfl, rfl, rfl⟩ := Sync.going.inj (Option.some.inj hGet)
        exact ⟨hRuns.earlier, hRuns.now, hRuns.sound, hRuns.beads, hGoes.fit _ rfl, fun hNow _ => ⟨hOwn hNow, hReached hNow⟩⟩
      · have hOther := h.syncs k' version' index' stage'' hGet
        exact ⟨hOther.earlier, hOther.now, hOther.sound, hOther.beads, hOther.fit, hOthers hOther⟩
  | none =>
      refine ⟨h.server, hGoes.held, fun k' version' index' stage'' hGet => ?_, hTaken,
        List.forall_mem_cons.mpr ⟨hRuns.earlier, h.finished⟩, fun hIn => ?_, h.loading, h.olders⟩
      · dsimp only at hGet
        rw [get_dropped] at hGet
        split at hGet
        · cases hGet
        · have hOther := h.syncs k' version' index' stage'' hGet
          exact ⟨hOther.earlier, hOther.now, hOther.sound, hOther.beads, hOther.fit, hOthers hOther⟩
      · rcases List.mem_cons.mp hIn with hNow | hOld
        · exact ⟨⟨index, hNow ▸ hOwn hNow.symm⟩, hReached hNow.symm⟩
        · exact hDone hOld

end Go

section Step

variable (hDigest : Set.InjOn (fun rows => digest (.beads rows)) maps)

include hDigest in
/-- A sync that goes on in time. -/
theorem World.Inv.resume (h : w.Inv digest maps) (hRuns : w.Runs digest maps version index stage)
    (hTime : w.Resumes digest version index stage) (hStep : w.resume k version index stage = some w') :
    w'.Inv digest maps := by
  have hServer := h.server.rows
  have hLast : stage ≠ .index → (∃ taken ∈ w.taken, taken.2 = index) →
      (∀ other, w.taken = some (w.moves, other) → w.taken = some (w.moves, other) ∧ index = w.server.index digest) ∧
        (version = w.moves → w.taken = some (version, index)) := by
    rintro hStage ⟨taken, hTook, hIs⟩
    refine ⟨fun other hOther => ⟨hOther, ?_⟩, fun hNow => (hRuns.upto hNow hStage).1⟩
    obtain rfl := Option.mem_unique hTook hOther
    exact hIs.symm.trans ((h.taken _ hOther).2 rfl)
  cases stage with
  | index =>
      obtain ⟨hNewer, hHas⟩ := hTime
      obtain rfl := Option.some.inj hStep
      refine h.go hRuns (syncIndex_goes h.held) (fun hNow hSame => hHas hSame hNow) (fun taken hTook => ?_) (fun other hOther => ?_)
        fun _ => rfl
      · obtain rfl := Option.some.inj hTook
        exact ⟨hRuns.earlier, hRuns.now⟩
      · have hNow : version = w.moves := Nat.le_antisymm hRuns.earlier (hNewer _ hOther)
        have hIs := hRuns.now hNow
        have hThat : other = w.server.index digest := (h.taken _ hOther).2 rfl
        exact ⟨by rw [hNow, hIs, hThat], hIs⟩
  | threads drop got =>
      obtain ⟨hStays, hOwn⟩ := hLast (by simp) hTime.1
      obtain ⟨rows, hRows, rfl⟩ := Option.map_eq_some_iff.mp hStep
      exact h.go hRuns (threads_goes hRuns.beads hDigest hServer hRuns.sound h.held hRuns.fit hRows hTime.2)
        (fun hNow => (hRuns.upto hNow (by simp)).2) h.taken hStays hOwn
  | beads since got =>
      obtain ⟨hStays, hOwn⟩ := hLast (by simp) hTime.1
      obtain ⟨answer, rfl, rfl⟩ := Option.map_eq_some_iff.mp hStep
      exact h.go hRuns (beads_goes hRuns.beads hDigest hServer h.held hRuns.fit hTime.2)
        (fun hNow => (hRuns.upto hNow (by simp)).2) h.taken hStays hOwn
  | patched =>
      obtain ⟨hStays, hOwn⟩ := hLast (by simp) hTime.1
      obtain rfl := Option.some.inj hStep
      exact h.go hRuns (syncTopics_goes hRuns.beads h.held) (fun hNow => (hRuns.upto hNow (by simp)).2) h.taken hStays hOwn
  | topics got =>
      obtain ⟨hStays, hOwn⟩ := hLast (by simp) hTime.1
      obtain ⟨rows, rfl, rfl⟩ := Option.map_eq_some_iff.mp hStep
      exact h.go hRuns (topics_goes hRuns.beads h.held hTime.2) (fun hNow => (hRuns.upto hNow (by simp)).2) h.taken hStays hOwn
  | unthreaded got =>
      obtain ⟨hStays, hOwn⟩ := hLast (by simp) hTime.1
      obtain ⟨rows, rfl, rfl⟩ := Option.map_eq_some_iff.mp hStep
      exact h.go hRuns (unthreaded_goes hRuns.beads h.held hTime.2) (fun hNow => (hRuns.upto hNow (by simp)).2) h.taken
        hStays hOwn

omit [LT ι] [DecidableLT ι] in
/-- A step of the server. -/
theorem World.Inv.move (h : w.Inv digest maps) (m : Move ι J) (hRows : (w.move digest m).server.rows ∈ maps)
    (hFiled : w.store.Filed digest (w.move digest m).server w.origins) : (w.move digest m).Inv digest maps := by
  have hSound : (w.move digest m).server.Sound digest maps := by
    have hSame : (w.move digest m).server = w.server.step digest m := by
      unfold World.move Server.step
      split <;> rfl
    rw [hSame] at hRows ⊢
    exact h.server.step m hRows
  unfold World.move at hSound hFiled ⊢
  split at hSound
  · rename_i hMoved
    rw [if_pos hMoved] at hFiled ⊢
    refine ⟨hSound, ⟨hFiled, h.held.cut, h.held.within⟩, fun k version index stage hGet => ?_, fun taken hTook => ?_,
      fun version hIn => ?_, fun hIn => ?_, h.loading, h.olders⟩
    · have hRuns := h.syncs k version index stage hGet
      have hOld : version ≠ w.moves + 1 := Nat.ne_of_lt (Nat.lt_succ_of_le hRuns.earlier)
      exact ⟨Nat.le_succ_of_le hRuns.earlier, fun hNow => absurd hNow hOld, hRuns.sound, hRuns.beads, hRuns.fit,
        fun hNow => absurd hNow hOld⟩
    · have hOld := (h.taken taken hTook).1
      exact ⟨Nat.le_succ_of_le hOld, fun hNow => absurd hNow (Nat.ne_of_lt (Nat.lt_succ_of_le hOld))⟩
    · exact Nat.le_succ_of_le (h.finished version hIn)
    · exact absurd (h.finished _ hIn) (Nat.not_succ_le_self _)
  · rename_i hSame
    rw [if_neg hSame]
    exact h

omit [DecidableEq J] [DecidableEq δ] [LT ι] [DecidableLT ι] in
/-- What a sync waits for is answered. -/
theorem World.Inv.setSync (h : w.Inv digest maps) {sync : Sync ι J δ}
    (hSync : ∀ version index stage, sync = .going version index stage → w.Runs digest maps version index stage) :
    ({ w with syncs := Entries.set k sync w.syncs } : World ι J δ).Inv digest maps := by
  refine ⟨h.server, h.held, fun k' version index stage hGet => ?_, h.taken, h.finished, h.done, h.loading, h.olders⟩
  have hRuns : w.Runs digest maps version index stage := by
    dsimp only at hGet
    rw [Entries.get_set] at hGet
    split at hGet
    · exact hSync version index stage (Option.some.inj hGet)
    · exact h.syncs k' version index stage hGet
  exact ⟨hRuns.earlier, hRuns.now, hRuns.sound, hRuns.beads, hRuns.fit, hRuns.upto⟩

omit [DecidableEq J] [DecidableEq δ] [LT ι] [DecidableLT ι] in
theorem World.Inv.dropSync (h : w.Inv digest maps) (k : ℕ) :
    ({ w with syncs := w.syncs.filter fun item => item.1 ≠ k } : World ι J δ).Inv digest maps := by
  refine ⟨h.server, h.held, fun k' version index stage hGet => ?_, h.taken, h.finished, h.done, h.loading, h.olders⟩
  dsimp only at hGet
  rw [get_dropped] at hGet
  split at hGet
  · cases hGet
  · have hRuns := h.syncs k' version index stage hGet
    exact ⟨hRuns.earlier, hRuns.now, hRuns.sound, hRuns.beads, hRuns.fit, hRuns.upto⟩

omit [DecidableEq J] [LT ι] [DecidableLT ι] in
include hDigest in
/-- What the server answers a sync is of what it has. -/
theorem World.Runs.answered {stage' : Stage ι J δ} (hRuns : w.Runs digest maps version index stage)
    (hServer : w.server.Sound digest maps) (hAnswer : w.server.answer digest stage = some stage') :
    w.Runs digest maps version index stage' := by
  cases stage with
  | beads since got =>
      cases got with
      | some => cases hAnswer
      | none =>
          obtain rfl := Option.some.inj hAnswer
          refine ⟨hRuns.earlier, hRuns.now, hRuns.sound, hRuns.beads, ⟨hRuns.fit.1, fun answer hIs => ?_⟩,
            fun hNow _ => hRuns.upto hNow (by simp)⟩
          obtain rfl := Option.some.inj hIs
          unfold Server.beadsSince
          obtain ⟨was, hWas, rfl⟩ := hRuns.fit.1
          cases hDelta : compose_deltas w.server.beadDeltas (digest (.beads was)) (w.server.beadsHash digest) with
          | some delta => exact (compose_deltas_sound hDigest hServer.deltas hWas hDelta).2.2
          | none => exact hServer.rows
  | topics got =>
      cases got with
      | some => cases hAnswer
      | none =>
          obtain rfl := Option.some.inj hAnswer
          exact ⟨hRuns.earlier, hRuns.now, hRuns.sound, hRuns.beads, trivial, fun hNow _ => hRuns.upto hNow (by simp)⟩
  | unthreaded got =>
      cases got with
      | some => cases hAnswer
      | none =>
          simp only [Server.answer, Option.ite_none_left_eq_some] at hAnswer
          obtain rfl := Option.some.inj hAnswer.2
          exact ⟨hRuns.earlier, hRuns.now, hRuns.sound, hRuns.beads, trivial, fun hNow _ => hRuns.upto hNow (by simp)⟩
  | index => cases hAnswer
  | threads => cases hAnswer
  | patched => cases hAnswer

omit [DecidableEq J] [DecidableEq δ] [LT ι] [DecidableLT ι] in
theorem World.Runs.answeredThread {stage' : Stage ι J δ} {name : ι} (hRuns : w.Runs digest maps version index stage)
    (hAnswer : w.server.answerThread name stage = some stage') : w.Runs digest maps version index stage' := by
  cases stage with
  | threads drop got =>
      simp only [Server.answerThread] at hAnswer
      split at hAnswer
      · rename_i thread hAsked _
        obtain rfl := Option.some.inj hAnswer
        refine ⟨hRuns.earlier, hRuns.now, hRuns.sound, hRuns.beads, fun item hItem => ?_, fun hNow _ => ?_⟩
        · rcases Entries.mem_set hItem with rfl | hOld
          · refine ⟨(hRuns.fit _ (Entries.mem_of_get hAsked)).1, fun answer hIs => ?_⟩
            obtain rfl := Option.some.inj hIs
            exact window_of thread
          · exact hRuns.fit item hOld
        · obtain ⟨hTook, hPending⟩ := hRuns.upto hNow (by simp)
          refine ⟨hTook, fun other part hPart => (hPending other part hPart).imp_left fun hIn => ?_⟩
          by_contra hNot
          have hNone := Entries.get_eq_none.mpr hNot
          rw [Entries.get_set] at hNone
          split at hNone
          · cases hNone
          · exact Entries.get_eq_none.mp hNone hIn
      · cases hAnswer
  | index => cases hAnswer
  | beads => cases hAnswer
  | patched => cases hAnswer
  | topics => cases hAnswer
  | unthreaded => cases hAnswer

omit [DecidableEq J] [DecidableEq δ] [LT ι] [DecidableLT ι] in
/-- The whole beads of a load, filed. -/
theorem World.Inv.loaded (h : w.Inv digest maps) {hash : δ} {rows : List (ι × J)} (hLoad : w.loading = some (hash, some rows))
    (hFiled : w.server.beadsHash digest = hash → w.server.Reads rows) (hPast : w.PastBeads → w.server.Reads rows) :
    ({ w with
      store := { w.store with beads := some rows, held := { w.store.held with beads := some hash } }
      loading := none } : World ι J δ).Inv digest maps := by
  obtain ⟨hHash, hRows⟩ := h.loading _ hLoad
  have hBeads : w.PastBeads → Store.BeadsDone w.server
      { w.store with beads := some rows, held := { w.store.held with beads := some hash } } :=
    fun hIs other hOther => Option.some.inj hOther ▸ hPast hIs
  refine ⟨h.server, whole_held h.held (hRows rows rfl) hHash hFiled, fun k version index stage hGet => ?_, h.taken, h.finished,
    fun hIn => ?_, nofun, h.olders⟩
  · have hRuns := h.syncs k version index stage hGet
    refine ⟨hRuns.earlier, hRuns.now, hRuns.sound, hRuns.beads, hRuns.fit, fun hNow hStage => ?_⟩
    obtain ⟨hTook, hUpto⟩ := hRuns.upto hNow hStage
    have hIs : stage.pastBeads = true → w.PastBeads := fun hPast =>
      .inr ⟨_, Entries.mem_of_get hGet, hNow, hPast⟩
    refine ⟨hTook, ?_⟩
    cases stage with
    | index => trivial
    | threads => exact hUpto
    | beads => exact hUpto
    | patched => exact ⟨hUpto.1, hBeads (hIs rfl)⟩
    | topics => exact ⟨hUpto.1, hBeads (hIs rfl)⟩
    | unthreaded => exact ⟨hUpto.1, hBeads (hIs rfl), hUpto.2.2⟩
  · obtain ⟨hTook, hDone⟩ := h.done hIn
    exact ⟨hTook, hDone.threads, hBeads (.inl hIn), hDone.topics, hDone.unthreaded⟩

omit [DecidableEq J] [DecidableEq δ] [LT ι] [DecidableLT ι] in
/-- Older letters put in front of a part that is as it was when they were asked for. -/
theorem World.Inv.lengthened (h : w.Inv digest maps) {older : Older ι J} {cut : ThreadPart ι J}
    (hOlder : Entries.get k w.olders = some older) (hCut : older.got = some cut)
    (hPart : Entries.get older.thread w.store.threads = some older.part)
    (hOrigin : Entries.get older.thread w.origins = some older.origin) :
    ({ w with
      store := { w.store with threads := Entries.set older.thread (lengthen older.part cut) w.store.threads }
      olders := w.olders.filter fun item => item.1 ≠ k } : World ι J δ).Inv digest maps := by
  have hWas : ∀ {name part}, Entries.get name (Entries.set older.thread (lengthen older.part cut) w.store.threads) = some part →
      ∃ part, Entries.get name w.store.threads = some part := by
    intro name part hGet
    rw [Entries.get_set] at hGet
    split at hGet
    · rename_i hIs
      exact ⟨_, hIs ▸ hPart⟩
    · exact ⟨_, hGet⟩
  have hThreads : w.store.ThreadsDone w.server w.origins → Store.ThreadsDone w.server w.origins
      { w.store with threads := Entries.set older.thread (lengthen older.part cut) w.store.threads } := by
    intro hDone name part hGet
    obtain ⟨part, hGet⟩ := hWas hGet
    exact hDone name part hGet
  refine ⟨h.server, ⟨⟨h.held.filed.threads, h.held.filed.beads, h.held.filed.topics, h.held.filed.unthreaded⟩,
    fun name part hGet => ?_, h.held.within.rows, h.held.within.hash, h.held.within.index, h.held.within.filed⟩,
    fun k version index stage hGet => ?_, h.taken, h.finished, fun hIn => ?_, h.loading, fun k' other hGet => ?_⟩
  · dsimp only at hGet
    rw [Entries.get_set] at hGet
    split at hGet
    · rename_i hIs
      subst hIs
      obtain rfl := Option.some.inj hGet
      exact ⟨(h.held.cut _ _ hPart).1, older.origin, hOrigin, (h.olders k older hOlder).2 cut hCut⟩
    · exact h.held.cut name part hGet
  · have hRuns := h.syncs k version index stage hGet
    refine ⟨hRuns.earlier, hRuns.now, hRuns.sound, hRuns.beads, hRuns.fit, fun hNow hStage => ?_⟩
    obtain ⟨hTook, hUpto⟩ := hRuns.upto hNow hStage
    refine ⟨hTook, ?_⟩
    cases stage with
    | index => trivial
    | threads drop got =>
        intro name part hGet
        obtain ⟨part, hGet⟩ := hWas hGet
        exact hUpto name part hGet
    | beads => exact hThreads hUpto
    | patched => exact ⟨hThreads hUpto.1, hUpto.2⟩
    | topics => exact ⟨hThreads hUpto.1, hUpto.2⟩
    | unthreaded => exact ⟨hThreads hUpto.1, hUpto.2⟩
  · obtain ⟨hTook, hDone⟩ := h.done hIn
    exact ⟨hTook, hThreads hDone.threads, hDone.beads, hDone.topics, hDone.unthreaded⟩
  · dsimp only at hGet
    rw [get_dropped] at hGet
    split at hGet
    · cases hGet
    · exact h.olders k' other hGet

omit [DecidableEq J] [DecidableEq δ] [LT ι] [DecidableLT ι] in
theorem World.Inv.setLoading (h : w.Inv digest maps) {load : Option (δ × Option (List (ι × J)))}
    (hLoad : ∀ item ∈ load, (∃ was ∈ maps, digest (.beads was) = item.1) ∧ ∀ rows ∈ item.2, (fun id => Entries.get id rows) ∈ maps) :
    ({ w with loading := load } : World ι J δ).Inv digest maps :=
  ⟨h.server, h.held, fun k version index stage hGet =>
    have hRuns := h.syncs k version index stage hGet
    ⟨hRuns.earlier, hRuns.now, hRuns.sound, hRuns.beads, hRuns.fit, hRuns.upto⟩,
    h.taken, h.finished, h.done, hLoad, h.olders⟩

omit [DecidableEq J] [DecidableEq δ] [LT ι] [DecidableLT ι] in
theorem World.Inv.setOlders (h : w.Inv digest maps) {olders : List (ℕ × Older ι J)}
    (hOlders : ∀ k older, Entries.get k olders = some older → older.part.Of older.origin ∧
      ∀ cut ∈ older.got, (lengthen older.part cut).Of older.origin) :
    ({ w with olders := olders } : World ι J δ).Inv digest maps :=
  ⟨h.server, h.held, fun k version index stage hGet =>
    have hRuns := h.syncs k version index stage hGet
    ⟨hRuns.earlier, hRuns.now, hRuns.sound, hRuns.beads, hRuns.fit, hRuns.upto⟩,
    h.taken, h.finished, h.done, h.loading, hOlders⟩

include hDigest in
/-- What holds in every run in time is kept by every step in time. -/
theorem World.Inv.step (h : w.Inv digest maps) (action : Action ι J) (hTime : w.InTime digest maps action)
    (hStep : w.step digest action = some w') : w'.Inv digest maps := by
  cases action with
  | server m =>
      obtain rfl := Option.some.inj hStep
      exact h.move m hTime.1 hTime.2
  | sync k =>
      simp only [World.step] at hStep
      split at hStep
      · obtain rfl := Option.some.inj hStep
        exact h.setSync (by simp)
      · cases hStep
  | answer k =>
      simp only [World.step] at hStep
      split at hStep
      · obtain rfl := Option.some.inj hStep
        refine h.setSync fun version index stage hSync => ?_
        obtain ⟨rfl, rfl, rfl⟩ := Sync.going.inj hSync
        exact ⟨Nat.le_refl _, fun _ => rfl, h.server.index, ⟨_, h.server.rows, rfl⟩, trivial, fun _ hStage => absurd rfl hStage⟩
      · rename_i version index stage hGet
        obtain ⟨stage', hAnswer, rfl⟩ := Option.map_eq_some_iff.mp hStep
        refine h.setSync fun _ _ _ hSync => ?_
        obtain ⟨rfl, rfl, rfl⟩ := Sync.going.inj hSync
        exact (h.syncs k _ _ _ hGet).answered hDigest h.server hAnswer
      · cases hStep
  | answerThread k name =>
      simp only [World.step] at hStep
      split at hStep
      · rename_i version index stage hGet
        obtain ⟨stage', hAnswer, rfl⟩ := Option.map_eq_some_iff.mp hStep
        refine h.setSync fun _ _ _ hSync => ?_
        obtain ⟨rfl, rfl, rfl⟩ := Sync.going.inj hSync
        exact (h.syncs k _ _ _ hGet).answeredThread hAnswer
      · cases hStep
  | resume k =>
      simp only [World.step] at hStep
      split at hStep
      · rename_i version index stage hGet
        exact h.resume hDigest (h.syncs k _ _ _ hGet) (hTime _ hGet) hStep
      · cases hStep
  | fail k =>
      obtain rfl := Option.some.inj hStep
      exact h.dropSync k
  | load =>
      simp only [World.step] at hStep
      split at hStep
      · rename_i index _ _ hIndex
        obtain rfl := Option.some.inj hStep
        refine h.setLoading fun item hItem => ?_
        obtain rfl := Option.some.inj hItem
        exact ⟨h.held.within.index index hIndex, by simp⟩
      · exact Option.some.inj hStep ▸ h
  | answerLoad =>
      simp only [World.step] at hStep
      split at hStep
      · rename_i hash hLoad
        obtain rfl := Option.some.inj hStep
        refine h.setLoading fun item hItem => ?_
        obtain rfl := Option.some.inj hItem
        exact ⟨(h.loading _ hLoad).1, fun rows hRows => Option.some.inj hRows ▸ h.server.rows⟩
      · cases hStep
  | resumeLoad =>
      simp only [World.step] at hStep
      split at hStep
      · rename_i hash rows hLoad
        obtain rfl := Option.some.inj hStep
        obtain ⟨hFiled, hPast⟩ := hTime _ hLoad rows rfl
        exact h.loaded hLoad hFiled hPast
      · cases hStep
  | failLoad =>
      obtain rfl := Option.some.inj hStep
      exact h.setLoading (by simp)
  | older k thread target =>
      simp only [World.step] at hStep
      split at hStep
      · rename_i part origin _ hPart hOrigin
        split at hStep
        · obtain rfl := Option.some.inj hStep
          refine h.setOlders fun k' older hGet => ?_
          rw [Entries.get_set] at hGet
          split at hGet
          · obtain rfl := Option.some.inj hGet
            obtain ⟨-, origin', hIs, hOf⟩ := h.held.cut thread part hPart
            obtain rfl := Option.mem_unique hIs hOrigin
            exact ⟨hOf, by simp⟩
          · exact h.olders k' older hGet
        · exact Option.some.inj hStep ▸ h
      · exact Option.some.inj hStep ▸ h
      · cases hStep
  | answerOlder k =>
      simp only [World.step] at hStep
      split at hStep
      · rename_i older hOlder
        split at hStep
        · rename_i thread _ hThread
          obtain rfl := Option.some.inj hStep
          refine h.setOlders fun k' other hGet => ?_
          rw [Entries.get_set] at hGet
          split at hGet
          · obtain rfl := Option.some.inj hGet
            have hPart := (h.olders k older hOlder).1
            refine ⟨hPart, fun cut hCut => ?_⟩
            obtain rfl := Option.some.inj hCut
            obtain ⟨hLength, hReach, hSame, hFresh, hHeld⟩ := hTime older hOlder thread hThread
            exact lengthen_of hPart ⟨hLength, hReach, hSame, hFresh, hHeld⟩
          · exact h.olders k' other hGet
        · cases hStep
      · cases hStep
  | resumeOlder k =>
      simp only [World.step] at hStep
      split at hStep
      · rename_i older hOlder
        obtain ⟨cut, hCut, rfl⟩ := Option.map_eq_some_iff.mp hStep
        obtain ⟨hPart, hOrigin⟩ := hTime older hOlder
        exact h.lengthened hOlder hCut hPart hOrigin
      · cases hStep
  | failOlder k =>
      obtain rfl := Option.some.inj hStep
      refine h.setOlders fun k' older hGet => ?_
      rw [get_dropped] at hGet
      split at hGet
      · cases hGet
      · exact h.olders k' older hGet

omit [DecidableEq J] [DecidableEq δ] [LT ι] [DecidableLT ι] in
theorem World.Inv.start {parts : Parts ι J} (hParts : (fun id => Entries.get id parts.beads) ∈ maps) :
    (World.start parts : World ι J δ).Inv digest maps where
  server := Server.start_sound digest hParts
  held := ⟨⟨nofun, nofun, nofun, nofun⟩,
    nofun, nofun, nofun, nofun, nofun⟩
  syncs := nofun
  taken := nofun
  finished := nofun
  done := nofun
  loading := nofun
  olders := nofun

include hDigest in
/-- In a run in time, once a sync has finished and the server has not moved since it read
the index, the store has the server's parts. -/
theorem sync_converges {parts : Parts ι J} (hParts : (fun id => Entries.get id parts.beads) ∈ maps)
    (h : Machine.Reach (fun w action => w.step digest action) (World.InTime digest maps) (.start parts) w) (hDone : w.moves ∈ w.finished) :
    w.store.Good w.server :=
  (h.invariant (World.Inv digest maps) (.start hParts) fun _ action _ hInv hTime hStep =>
    hInv.step hDigest action hTime hStep).good hDone

end Step

section Instance

section Decidable

variable [Fintype ι] (digest : Part ι J → δ) (server : Server ι J δ) (origins : List (ι × Thread ι J)) (store : Store ι J δ)
  (index : Index ι J δ) (w : World ι J δ)

instance (rows : List (ι × J)) : Decidable (server.Reads rows) :=
  inferInstanceAs (Decidable (∀ _, _))

instance (name : ι) (hash : δ) (origin : Thread ι J) : Decidable (server.Names digest name hash origin) :=
  inferInstanceAs (Decidable (∀ thread ∈ _, _))

instance : Decidable (store.Filed digest server origins) :=
  decidable_of_iff (_ ∧ _ ∧ _ ∧ _) ⟨fun h => ⟨h.1, h.2.1, h.2.2.1, h.2.2.2⟩,
    fun h => ⟨h.threads, h.beads, h.topics, h.unthreaded⟩⟩

instance : Decidable (store.Has index) :=
  decidable_of_iff (_ ∧ _ ∧ _ ∧ _ ∧ _) ⟨fun h => ⟨h.1, h.2.1, h.2.2.1, h.2.2.2.1, h.2.2.2.2⟩,
    fun h => ⟨h.threads, h.beads, h.topics, h.unthreaded, h.none⟩⟩

instance (delta : BeadsDelta ι J δ) : Decidable (store.Takes digest delta) :=
  inferInstanceAs (Decidable (∀ rows ∈ _, _ ∨ _))

instance decidableJoined (store : Store ι J δ) : (got : List (ι × ThreadPart ι J × Thread ι J)) →
    Decidable (Joined digest server index store got)
  | [] => isTrue trivial
  | item :: got =>
      have := decidableJoined (store.fileThread index item) got
      inferInstanceAs (Decidable (_ ∧ _))

instance : (stage : Stage ι J δ) → Decidable (store.Files digest server index stage)
  | .index => isTrue trivial
  | .threads .. => inferInstanceAs (Decidable (_ ∧ _))
  | .beads _ none => isTrue nofun
  | .beads _ (some (.delta delta)) =>
      decidable_of_iff (store.Takes digest delta ∧ (server.beadsHash digest = index.beads → delta.hash = index.beads))
        ⟨fun h _ hIs => Option.some.inj hIs ▸ h, fun h => h _ rfl⟩
  | .beads _ (some (.whole rows)) =>
      decidable_of_iff (server.beadsHash digest = index.beads → server.Reads rows)
        ⟨fun h _ hIs => Option.some.inj hIs ▸ h, fun h => h _ rfl⟩
  | .patched => isTrue trivial
  | .topics _ => inferInstanceAs (Decidable (∀ rows ∈ _, _))
  | .unthreaded _ => inferInstanceAs (Decidable (∀ rows ∈ _, _))

instance (version : ℕ) : (stage : Stage ι J δ) → Decidable (w.Resumes digest version index stage)
  | .index => inferInstanceAs (Decidable (_ ∧ _))
  | .threads .. => inferInstanceAs (Decidable ((∃ taken ∈ _, _) ∧ _))
  | .beads .. => inferInstanceAs (Decidable ((∃ taken ∈ _, _) ∧ _))
  | .patched => inferInstanceAs (Decidable ((∃ taken ∈ _, _) ∧ _))
  | .topics _ => inferInstanceAs (Decidable ((∃ taken ∈ _, _) ∧ _))
  | .unthreaded _ => inferInstanceAs (Decidable ((∃ taken ∈ _, _) ∧ _))

instance (older : Older ι J) (thread : Thread ι J) : Decidable (older.Reads thread) :=
  decidable_of_iff (_ ∧ _ ∧ _ ∧ _ ∧ _) ⟨fun h => ⟨h.1, h.2.1, h.2.2.1, h.2.2.2.1, h.2.2.2.2⟩,
    fun h => ⟨h.length, h.reach, h.same, h.fresh, h.held⟩⟩

instance : Decidable w.PastBeads :=
  have : ∀ item : ℕ × Sync ι J δ, Decidable (match item.2 with
      | .going version _ stage => version = w.moves ∧ stage.pastBeads = true
      | .asking => False) := fun item => match item with
    | (_, .going ..) => inferInstanceAs (Decidable (_ ∧ _))
    | (_, .asking) => isFalse id
  inferInstanceAs (Decidable (_ ∨ ∃ item ∈ _, _))

/-- Where no beads are left out, every run's steps can be tried. -/
instance decidableInTime : (action : Action ι J) → Decidable (w.InTime digest Set.univ action)
  | .server m => decidable_of_iff (w.store.Filed digest (w.move digest m).server w.origins)
      ⟨fun h => ⟨Set.mem_univ _, h⟩, And.right⟩
  | .resume k => match h : Entries.get k w.syncs with
      | some (.going version index stage) => decidable_of_iff (w.Resumes digest version index stage)
          ⟨fun hIs sync hSync => by obtain rfl := Option.mem_unique h hSync; exact hIs, fun hIs => hIs _ h⟩
      | some .asking => isTrue fun sync hSync => by obtain rfl := Option.mem_unique h hSync; trivial
      | none => isTrue fun sync hSync => by cases h.symm.trans hSync
  | .resumeLoad => inferInstanceAs (Decidable (∀ load ∈ _, ∀ rows ∈ _, _ ∧ _))
  | .answerOlder _ => inferInstanceAs (Decidable (∀ older ∈ _, ∀ thread ∈ _, _))
  | .resumeOlder _ => inferInstanceAs (Decidable (∀ older ∈ _, _ ∧ _))
  | .sync _ => isTrue trivial
  | .answer _ => isTrue trivial
  | .answerThread .. => isTrue trivial
  | .fail _ => isTrue trivial
  | .load => isTrue trivial
  | .answerLoad => isTrue trivial
  | .failLoad => isTrue trivial
  | .older .. => isTrue trivial
  | .failOlder _ => isTrue trivial

end Decidable

/-- A digest that keeps what it digests. -/
inductive Kept where
  | thread (thread : Thread (Fin 3) ℕ)
  | beads (rows : List (Option ℕ))
  | rows (rows : List ℕ)
deriving DecidableEq

def keptDigest : Part (Fin 3) ℕ → Kept
  | .thread thread => .thread thread
  | .beads rows => .beads [rows 0, rows 1, rows 2]
  | .rows rows => .rows rows

theorem keptDigest_injective : Function.Injective fun rows => keptDigest (.beads rows) := by
  intro a b h
  simp only [keptDigest, Kept.beads.injEq, List.cons.injEq] at h
  funext id
  fin_cases id
  · exact h.1
  · exact h.2.1
  · exact h.2.2.1

/-- One thread of some letters, beads of the same ids. -/
def someParts (n : ℕ) (topic : ℕ) (h : n ≤ 3) : Parts (Fin 3) ℕ where
  head := 0
  fuel := 0
  threads := [(0, ⟨((List.finRange 3).take n).map fun id => ⟨id, id, 7⟩, topic, 0⟩)]
  beads := ((List.finRange 3).take n).map fun id => (id, 7)
  topics := [topic]
  unthreaded := []
  distinct := by
    rw [List.map_map]
    interval_cases n <;> decide

/-- A sync, and a load of the beads; then the server moves, and a sync patches them. -/
def patched : List (Action (Fin 3) ℕ) :=
  [.sync 0, .answer 0, .resume 0, .answerThread 0 0, .resume 0, .answer 0, .resume 0,
    .load, .answerLoad, .resumeLoad, .server (.recompute (someParts 2 4 (by decide))),
    .sync 1, .answer 1, .resume 1, .answerThread 1 0, .resume 1, .resume 1, .answer 1, .resume 1]

theorem sync_converges_patched : ∃ w : World (Fin 3) ℕ Kept, w.store.beads = some [(0, 7), (1, 7)] ∧ w.store.topics = [4] ∧
    w.store.Good w.server := by
  have hRun : (Machine.follow (fun w action => World.step keptDigest w action) (World.InTime keptDigest Set.univ)
      (.start (someParts 1 3 (by decide))) patched).map
        (fun w => (decide (w.moves ∈ w.finished), w.store.beads, w.store.topics)) =
      some (true, some [(0, 7), (1, 7)], [4]) := by
    decide +kernel
  obtain ⟨w, hFollow, hIs⟩ := Option.map_eq_some_iff.mp hRun
  simp only [Prod.mk.injEq, decide_eq_true_eq] at hIs
  exact ⟨w, hIs.2.1, hIs.2.2, sync_converges keptDigest_injective.injOn (Set.mem_univ _) (Machine.Reach.refl.follow hFollow) hIs.1⟩

/-- A load that goes on after a sync that read a newer index. -/
def lateLoad : List (Action (Fin 3) ℕ) :=
  [.sync 0, .answer 0, .resume 0, .answerThread 0 0, .resume 0, .answer 0, .resume 0,
    .load, .answerLoad, .server (.recompute (someParts 2 4 (by decide))),
    .sync 1, .answer 1, .resume 1, .answerThread 1 0, .resume 1, .answer 1, .resume 1, .resumeLoad]

theorem late_load_diverges : ¬ ∀ w : World (Fin 3) ℕ Kept,
    Machine.Reach (fun w action => w.step keptDigest action) (fun _ _ => True) (.start (someParts 1 3 (by decide))) w →
      w.moves ∈ w.finished → w.store.Good w.server := by
  intro h
  have hRun : (Machine.follow (fun w action => World.step keptDigest w action) (fun _ _ => True)
      (.start (someParts 1 3 (by decide))) lateLoad).map
        (fun w => (decide (w.moves ∈ w.finished), w.store.beads, Entries.get 1 w.server.parts.beads)) =
      some (true, some [(0, 7)], some 7) := by
    decide +kernel
  obtain ⟨w, hFollow, hIs⟩ := Option.map_eq_some_iff.mp hRun
  simp only [Prod.mk.injEq, decide_eq_true_eq] at hIs
  have hBeads := (h w (Machine.Reach.refl.follow hFollow) hIs.1).beads _ hIs.2.1 1
  rw [hIs.2.2] at hBeads
  cases hBeads

end Instance

end Brnrd.Board
