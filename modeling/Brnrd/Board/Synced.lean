import Brnrd.Board.Filed

/-! One leg of a sync, from where it waited to where it waits next: what it keeps of the
store, and how far it has brought it when it goes on with the server's own index. -/
namespace Brnrd.Board

variable {ι J δ : Type} [DecidableEq ι] [DecidableEq δ]

section Goes

variable (digest : Part ι J → δ) (maps : Set (ι → Option J)) (server : Server ι J δ)

/-- What a store has of the server's parts, a later one has too. -/
structure Onward (origins : List (ι × Thread ι J)) (store : Store ι J δ) (origins' : List (ι × Thread ι J))
    (store' : Store ι J δ) : Prop where
  threads : store.ThreadsDone server origins → store'.ThreadsDone server origins'
  beads : store.BeadsDone server → store'.BeadsDone server
  topics : store.TopicsDone server → store'.TopicsDone server
  unthreaded : store.UnthreadedDone server → store'.UnthreadedDone server
  pending : ∀ names drop, store.Pending (server.index digest) names drop → store'.Pending (server.index digest) names drop

/-- What a sync has in hand where it waits: answers of threads that the index has, each a
stretch of the version it was cut from, and beads or a patch in question. -/
def Stage.Fit (index : Index ι J δ) : Stage ι J δ → Prop
  | .threads _ got => ∀ item ∈ got, (Entries.get item.1 index.threads).isSome ∧ ∀ answer ∈ item.2, answer.1.Of answer.2
  | .beads since got => (∃ was ∈ maps, digest (.beads was) = since) ∧ ∀ answer ∈ got, match answer with
      | .delta delta => delta.Sound digest maps
      | .whole rows => (fun id => Entries.get id rows) ∈ maps
  | _ => True

/-- What a sync has brought the store to where it waits, or at its end. -/
def Reached (origins : List (ι × Thread ι J)) (index : Index ι J δ) (out : Store ι J δ × Option (Stage ι J δ)) : Prop :=
  match out.2 with
  | some stage => out.1.Upto server origins index stage
  | none => out.1.Done server origins

/-- A leg of a sync, after what it starts with. -/
structure Goes (origins : List (ι × Thread ι J)) (index : Index ι J δ) (before : Prop) (store : Store ι J δ)
    (origins' : List (ι × Thread ι J)) (out : Store ι J δ × Option (Stage ι J δ)) : Prop where
  held : out.1.Held digest server origins' maps
  fit : ∀ stage ∈ out.2, stage.Fit digest maps index
  onward : index = server.index digest → Onward digest server origins store origins' out.1
  reached : index = server.index digest → before → Reached server origins' index out

end Goes

variable {digest : Part ι J → δ} {maps : Set (ι → Option J)} {server : Server ι J δ} {origins origins' : List (ι × Thread ι J)}
  {store store' : Store ι J δ} {index : Index ι J δ} {before before' : Prop} {out : Store ι J δ × Option (Stage ι J δ)}

section Onward

omit [DecidableEq δ]

theorem Onward.refl : Onward digest server origins store origins store :=
  ⟨id, id, id, id, fun _ _ => id⟩

theorem Onward.trans {origins'' : List (ι × Thread ι J)} {store'' : Store ι J δ}
    (h : Onward digest server origins store origins' store')
    (h' : Onward digest server origins' store' origins'' store'') : Onward digest server origins store origins'' store'' :=
  ⟨h'.threads ∘ h.threads, h'.beads ∘ h.beads, h'.topics ∘ h.topics, h'.unthreaded ∘ h.unthreaded,
    fun names drop => h'.pending names drop ∘ h.pending names drop⟩

theorem Onward.upto {stage : Stage ι J δ} (h : Onward digest server origins store origins' store')
    (hUpto : store.Upto server origins (server.index digest) stage) :
    store'.Upto server origins' (server.index digest) stage := by
  cases stage with
  | index => trivial
  | threads drop got => exact h.pending _ _ hUpto
  | beads => exact h.threads hUpto
  | patched => exact hUpto.imp h.threads h.beads
  | topics => exact hUpto.imp h.threads h.beads
  | unthreaded => exact hUpto.imp h.threads (And.imp h.beads h.topics)

theorem Onward.done (h : Onward digest server origins store origins' store') (hDone : store.Done server origins) :
    store'.Done server origins' :=
  ⟨h.threads hDone.threads, h.beads hDone.beads, h.topics hDone.topics, h.unthreaded hDone.unthreaded⟩

/-- A leg after a first piece of it. -/
theorem Goes.after (h : Goes digest maps server origins' index before' store' origins' out)
    (hFirst : index = server.index digest → Onward digest server origins store origins' store')
    (hBefore : index = server.index digest → before → before') :
    Goes digest maps server origins index before store origins' out :=
  ⟨h.held, h.fit, fun hIs => (hFirst hIs).trans (h.onward hIs), fun hIs hStart => h.reached hIs (hBefore hIs hStart)⟩

end Onward

section Legs

variable (hIndex : ∃ was ∈ maps, digest (.beads was) = index.beads)

include hIndex in
omit [DecidableEq δ] in
theorem finish_goes (h : store.Held digest server origins maps) :
    Goes digest maps server origins index (store.Done server origins) store origins (store.finish index) :=
  ⟨finish_held h hIndex, nofun, fun _ => ⟨id, id, id, id, fun _ _ => id⟩,
    fun _ hDone => ⟨hDone.threads, hDone.beads, hDone.topics, hDone.unthreaded⟩⟩

omit [DecidableEq ι] [DecidableEq δ] in
theorem unthreaded_of_none (h : server.unthreadedHash digest = none) : server.parts.unthreaded = [] := by
  unfold Server.unthreadedHash at h
  split at h
  · assumption
  · cases h

include hIndex in
theorem syncUnthreaded_goes (h : store.Held digest server origins maps) :
    Goes digest maps server origins index
      (store.ThreadsDone server origins ∧ store.BeadsDone server ∧ store.TopicsDone server) store origins
      (store.syncUnthreaded index) := by
  unfold Store.syncUnthreaded
  split
  · rename_i hNone
    have hEmpty : index = server.index digest → ([] : List J) = server.parts.unthreaded := fun hIs =>
      (unthreaded_of_none ((congrArg Index.unthreaded hIs).symm.trans hNone)).symm
    refine (finish_goes hIndex (unthreaded_held h fun hHash => (unthreaded_of_none hHash).symm)).after
      (fun hIs => ⟨id, id, id, fun _ => hEmpty hIs, fun _ _ => id⟩) fun hIs hDone => ⟨hDone.1, hDone.2.1, hDone.2.2, hEmpty hIs⟩
  · rename_i hash hSome
    split
    · rename_i hSame
      refine (finish_goes hIndex h).after (fun _ => .refl) fun hIs hDone => ⟨hDone.1, hDone.2.1, hDone.2.2, ?_⟩
      exact h.filed.unthreaded hash hSame ((congrArg Index.unthreaded hIs).symm.trans hSome)
    · exact ⟨h, fun _ hStage => Option.some.inj hStage ▸ trivial, fun _ => .refl, fun _ hDone => hDone⟩

include hIndex in
theorem syncTopics_goes (h : store.Held digest server origins maps) :
    Goes digest maps server origins index (store.ThreadsDone server origins ∧ store.BeadsDone server) store origins
      (store.syncTopics index) := by
  unfold Store.syncTopics
  split
  · rename_i hNone
    have hTopics : index ≠ server.index digest := fun hIs => by
      have hSome : index.topics = server.topicsHash digest := congrArg Index.topics hIs
      rw [hNone] at hSome
      cases hSome
    have hHeld : Store.Held digest server origins
        { store with topics := [], held := { store.held with topics := none } } maps :=
      topics_held h nofun
    exact (syncUnthreaded_goes hIndex hHeld).after (fun hIs => absurd hIs hTopics) fun hIs => absurd hIs hTopics
  · rename_i hash hSome
    split
    · rename_i hSame
      refine (syncUnthreaded_goes hIndex h).after (fun _ => .refl) fun hIs hDone => ⟨hDone.1, hDone.2, ?_⟩
      exact h.filed.topics hash hSame ((congrArg Index.topics hIs).symm.trans hSome)
    · exact ⟨h, fun _ hStage => Option.some.inj hStage ▸ trivial, fun _ => .refl, fun _ hDone => hDone⟩

variable (hDigest : Set.InjOn (fun rows => digest (.beads rows)) maps) (hServer : server.rows ∈ maps)

include hDigest hServer in
omit [DecidableEq δ] in
theorem patch_goes {delta : BeadsDelta ι J δ} (h : store.Held digest server origins maps) (hSound : delta.Sound digest maps)
    (hTakes : store.Takes digest delta) (hHash : index = server.index digest → delta.hash = server.beadsHash digest) :
    Goes digest maps server origins index (store.ThreadsDone server origins) store origins
      (store.patch delta, some .patched) := by
  have hDone : index = server.index digest → (store.patch delta).BeadsDone server := fun hIs =>
    patch_done hDigest hServer h.within hSound hTakes (hHash hIs)
  exact ⟨patch_held hDigest hServer h hSound hTakes, fun _ hStage => Option.some.inj hStage ▸ trivial,
    fun hIs => ⟨id, fun _ => hDone hIs, id, id, fun _ _ => id⟩, fun hIs hThreads => ⟨hThreads, hDone hIs⟩⟩

include hIndex hDigest hServer in
theorem syncBeads_goes (hSound : index.Sound digest maps) (h : store.Held digest server origins maps)
    (hTakes : ∀ delta ∈ index.beadsDelta, store.held.beads = some delta.1.since → store.Takes digest delta.1) :
    Goes digest maps server origins index (store.ThreadsDone server origins) store origins (store.syncBeads index) := by
  unfold Store.syncBeads
  split
  · rename_i hMoved
    unfold Store.patchBeads
    split
    · rename_i hNone
      have hSome := h.within.filed hMoved.1
      rw [hNone] at hSome
      cases hSome
    · rename_i since hSince
      have hAsks : Goes digest maps server origins index (store.ThreadsDone server origins) store origins
          (store, some (.beads since none)) :=
        ⟨h, fun _ hStage => Option.some.inj hStage ▸ ⟨h.within.hash since hSince, nofun⟩,
          fun _ => .refl, fun _ hThreads => hThreads⟩
      split
      · rename_i delta others hDelta
        split
        · rename_i hFrom
          obtain ⟨hPatch, hHash⟩ := hSound _ hDelta
          exact patch_goes hDigest hServer h hPatch (hTakes _ hDelta (hFrom ▸ hSince)) fun hIs => hHash.trans (hIs ▸ rfl)
        · exact hAsks
      · exact hAsks
  · rename_i hSame
    refine (syncTopics_goes hIndex h).after (fun _ => .refl) fun hIs hThreads => ⟨hThreads, fun rows hRows => ?_⟩
    have hHeld : store.held.beads = some index.beads := by
      by_contra hOther
      exact hSame ⟨by rw [Option.mem_def.mp hRows]; rfl, hOther⟩
    exact h.filed.beads rows hRows _ hHeld (hIs ▸ rfl)

/-- Each part held is filed under the index's hash. -/
structure Store.Has (store : Store ι J δ) (index : Index ι J δ) : Prop where
  threads : ∀ name ∈ store.threads.map Prod.fst, Entries.get name store.held.threads = Entries.get name index.threads
  beads : store.beads.isSome → store.held.beads = some index.beads
  topics : store.held.topics = index.topics
  unthreaded : store.held.unthreaded = index.unthreaded
  none : index.unthreaded = none → store.unthreaded = []

omit [DecidableEq δ] in
theorem Store.Has.done (hHas : store.Has (server.index digest)) (h : store.Held digest server origins maps) :
    store.Done server origins := by
  refine ⟨Store.Pending.done (fun name part hPart => .inr (.inr ?_)) h, fun rows hRows => ?_, ?_, ?_⟩
  · have hSame := hHas.threads name (List.mem_map.mpr ⟨_, Entries.mem_of_get hPart, rfl⟩)
    exact ⟨hSame, hSame ▸ (h.cut name part hPart).1⟩
  · exact h.filed.beads rows hRows _ (hHas.beads (by rw [Option.mem_def.mp hRows]; rfl)) rfl
  · exact h.filed.topics _ hHas.topics rfl
  · cases hHash : server.unthreadedHash digest with
    | none => exact (hHas.none hHash).trans (unthreaded_of_none hHash).symm
    | some hash => exact h.filed.unthreaded hash (hHas.unthreaded.trans hHash) hHash

theorem syncIndex_goes [DecidableEq J] (h : store.Held digest server origins maps) :
    Goes digest maps server origins index (store.index = some index → store.Has index) store origins
      (store.syncIndex index) := by
  unfold Store.syncIndex
  split
  · rename_i hSame
    exact ⟨h, nofun, fun _ => .refl, fun hIs hHas => (hIs ▸ hHas hSame).done h⟩
  · refine ⟨h, fun stage hStage => ?_, fun _ => .refl, fun _ _ name part hPart => ?_⟩
    · obtain rfl := Option.some.inj hStage
      intro item hItem
      obtain ⟨name, hName, rfl⟩ := List.mem_map.mp hItem
      refine ⟨?_, nofun⟩
      by_contra hNone
      exact Entries.get_eq_none.mp (by simpa using hNone) (List.mem_filter.mp hName).1
    · obtain ⟨hash, hHash⟩ := Option.isSome_iff_exists.mp (h.cut name part hPart).1
      rw [List.map_map]
      cases hIn : Entries.get name index.threads with
      | none =>
          refine .inr (.inl (List.mem_filter.mpr ⟨List.mem_map.mpr ⟨_, Entries.mem_of_get hHash, rfl⟩, ?_⟩))
          rw [hIn]
          rfl
      | some other =>
          by_cases hSame : Entries.get name store.held.threads = some other
          · exact .inr (.inr ⟨hSame, rfl⟩)
          · refine .inl (List.mem_map.mpr ⟨name, List.mem_filter.mpr ⟨List.mem_map.mpr ⟨_, Entries.mem_of_get hIn, rfl⟩, ?_⟩, rfl⟩)
            simpa [hIn] using hSame

section Threads

variable [LT ι] [DecidableLT ι]

variable {rows : List (ι × ThreadPart ι J × Thread ι J)} {got : List (ι × Option (ThreadPart ι J × Thread ι J))}

omit [DecidableEq ι] [DecidableEq δ] [LT ι] [DecidableLT ι] in
theorem answers_eq_some (h : answers got = some rows) :
    rows.map Prod.fst = got.map Prod.fst ∧ ∀ item ∈ rows, (item.1, some item.2) ∈ got := by
  induction got generalizing rows with
  | nil =>
      obtain rfl := Option.some.inj h
      exact ⟨rfl, nofun⟩
  | cons first got ih =>
      unfold answers at h
      rw [List.mapM_cons] at h
      obtain ⟨item, hItem, h⟩ := Option.bind_eq_some_iff.mp h
      obtain ⟨rest, hRest, h⟩ := Option.bind_eq_some_iff.mp h
      obtain rfl := Option.some.inj h
      obtain ⟨answer, hAnswer, rfl⟩ := Option.map_eq_some_iff.mp hItem
      obtain ⟨hNames, hIn⟩ := ih hRest
      refine ⟨by rw [List.map_cons, List.map_cons, hNames], List.forall_mem_cons.mpr ⟨?_, fun other hOther => ?_⟩⟩
      · exact hAnswer ▸ List.mem_cons_self
      · exact List.mem_cons_of_mem _ (hIn other hOther)

/-- What a store has besides its threads. -/
def Store.rest (store : Store ι J δ) : Option (List (ι × J)) × Option δ × List J × List J :=
  (store.beads, store.held.beads, store.topics, store.unthreaded)

variable (store index) in
omit [DecidableEq δ] in
/-- What a sync files of its threads is nothing else. -/
theorem rest_fileThreads (drop : List ι) (got : List (ι × ThreadPart ι J × Thread ι J)) :
    (store.fileThreads index drop got).rest = store.rest := by
  have hFile : (got.foldl (fun store item => store.fileThread index item) store).rest = store.rest := by
    induction got generalizing store with
    | nil => rfl
    | cons item got ih =>
        rw [List.foldl_cons, ih]
        unfold Store.fileThread
        split <;> rfl
  rw [← hFile, Store.fileThreads]
  generalize got.foldl (fun store item => store.fileThread index item) store = filed
  induction drop generalizing filed with
  | nil => rfl
  | cons name drop ih => exact ih _

variable (hDigest : Set.InjOn (fun rows => digest (.beads rows)) maps) (hServer : server.rows ∈ maps)

include hIndex hDigest hServer in
theorem threads_goes {drop : List ι} (hSound : index.Sound digest maps) (h : store.Held digest server origins maps)
    (hFit : (Stage.threads drop got).Fit digest maps index) (hRows : answers got = some rows)
    (hFiles : store.Files digest server index (.threads drop got)) :
    Goes digest maps server origins index (store.Pending index (got.map Prod.fst) drop) store (cutFrom origins rows)
      ((store.fileThreads index drop rows).syncBeads index) := by
  obtain ⟨hNames, hIn⟩ := answers_eq_some hRows
  obtain ⟨hJoined, hTakes⟩ := hFiles
  have hAnswered : Answered index rows := fun item hItem =>
    ⟨(hFit _ (hIn item hItem)).1, (hFit _ (hIn item hItem)).2 _ rfl⟩
  have hRest := rest_fileThreads store index drop rows
  simp only [Store.rest, Prod.mk.injEq] at hRest
  obtain ⟨hBeads, hHeldBeads, hTopics, hUnthreaded⟩ := hRest
  have hHeld : (store.fileThreads index drop rows).Held digest server (cutFrom origins rows) maps :=
    fileThreads_held h hAnswered (hJoined rows hRows)
  refine (syncBeads_goes hIndex hDigest hServer hSound hHeld fun delta hDelta hSince => ?_).after (fun hIs => ?_) fun hIs hPending => ?_
  · rw [hHeldBeads] at hSince
    have hTake := hTakes delta hDelta hSince
    unfold Store.Takes at hTake ⊢
    rwa [hBeads]
  · subst hIs
    refine ⟨fun hDone => ?_, fun hDone => ?_, fun hDone => ?_, fun hDone => ?_, fun names others hPending => ?_⟩
    · exact foldl_dropThread_done (foldl_fileThread_done hDone hAnswered (hJoined rows hRows)) drop
    · unfold Store.BeadsDone at hDone ⊢
      rwa [hBeads]
    · exact hTopics.trans hDone
    · exact hUnthreaded.trans hDone
    · refine foldl_dropThread_pending others ?_
      refine foldl_fileThread_pending_same (fun name part hPart => ?_) hAnswered
      exact (hPending name part hPart).imp_right (Or.imp_left (List.mem_append_right _))
  · subst hIs
    exact fileThreads_done h hAnswered (hJoined rows hRows) (hNames ▸ hPending)

include hIndex hDigest hServer in
omit [DecidableEq δ] in
theorem beads_goes {since : δ} {answer : BeadsAnswer ι J δ} (h : store.Held digest server origins maps)
    (hFit : (Stage.beads since (some answer)).Fit digest maps index)
    (hFiles : store.Files digest server index (.beads since (some answer))) :
    Goes digest maps server origins index (store.ThreadsDone server origins) store origins
      (store.fileBeads index answer, some .patched) := by
  have hAnswer := hFit.2 answer rfl
  have hTo := hFiles answer rfl
  cases answer with
  | delta delta =>
      refine patch_goes hDigest hServer h hAnswer hTo.1 fun hIs => ?_
      have hHash : index.beads = server.beadsHash digest := congrArg Index.beads hIs
      exact (hTo.2 hHash.symm).trans hHash
  | whole rows =>
      have hDone : index = server.index digest → server.Reads rows := fun hIs =>
        hTo (congrArg Index.beads hIs).symm
      refine ⟨whole_held h hAnswer hIndex hTo, fun _ hStage => Option.some.inj hStage ▸ trivial, fun hIs => ?_, fun hIs hThreads => ?_⟩
      · exact ⟨id, fun _ rows' hRows' => Option.some.inj hRows' ▸ hDone hIs, id, id, fun _ _ => id⟩
      · exact ⟨hThreads, fun rows' hRows' => Option.some.inj hRows' ▸ hDone hIs⟩

include hIndex in
theorem topics_goes {rows : List J} (h : store.Held digest server origins maps)
    (hFiles : store.Files digest server index (.topics (some rows))) :
    Goes digest maps server origins index (store.ThreadsDone server origins ∧ store.BeadsDone server) store origins
      (({ store with topics := rows, held := { store.held with topics := index.topics } } : Store ι J δ).syncUnthreaded index) := by
  have hDone : index = server.index digest → rows = server.parts.topics := fun hIs =>
    hFiles rows rfl (congrArg Index.topics hIs).symm
  exact (syncUnthreaded_goes hIndex (topics_held h (hFiles rows rfl))).after
    (fun hIs => ⟨id, id, fun _ => hDone hIs, id, fun _ _ => id⟩) fun hIs hStart => ⟨hStart.1, hStart.2, hDone hIs⟩

include hIndex in
omit [DecidableEq δ] in
theorem unthreaded_goes {rows : List J} (h : store.Held digest server origins maps)
    (hFiles : store.Files digest server index (.unthreaded (some rows))) :
    Goes digest maps server origins index
      (store.ThreadsDone server origins ∧ store.BeadsDone server ∧ store.TopicsDone server) store origins
      (({ store with unthreaded := rows, held := { store.held with unthreaded := index.unthreaded } } : Store ι J δ).finish index) := by
  have hDone : index = server.index digest → rows = server.parts.unthreaded := fun hIs =>
    hFiles rows rfl (congrArg Index.unthreaded hIs).symm
  exact (finish_goes hIndex (unthreaded_held h (hFiles rows rfl))).after
    (fun hIs => ⟨id, id, id, fun _ => hDone hIs, fun _ _ => id⟩)
    fun hIs hStart => ⟨hStart.1, hStart.2.1, hStart.2.2, hDone hIs⟩

end Threads

end Legs

end Brnrd.Board
