import Brnrd.Placement.Publish

/-! When a publication keeps all work of a clone that it removes. -/
namespace Brnrd.Placement

variable {C : Type} [DecidableEq C] (history : History C)

/-- A commit that a ref of the clone reaches and the seed does not. -/
def Clone.Work (clone : Clone C) (seed : Option C) (c : C) : Prop :=
  (∃ ref ∈ clone.refs, c ∈ history.ancestors ref.2) ∧ ∀ s ∈ seed, c ∉ history.ancestors s

/-- A ref of the remote reaches the commit. -/
def Remote.Has (remote : Remote C) (c : C) : Prop :=
  ∃ ref ∈ remote.refs, c ∈ history.ancestors ref.2

/-- `default_remote(repo_root)`. -/
def Host.remote (host : Host C) : Option (Remote C) :=
  host.origin.or host.remotes.head?

/-- A clone is removed only if it is clean, and the host and its remote have all of its
work. -/
def After.Keeps (clone : Clone C) (seed : Option C) (after : After C) : Prop :=
  after.removed = true → clone.dirty = false ∧ ∀ c, clone.Work history seed c →
    c ∈ after.host.objects ∧ ∀ remote ∈ after.host.remote, remote.Has history c

/-- The commits that the fetch of a branch brings. -/
def Clone.brought (clone : Clone C) (branch : String) : List C :=
  ((clone.fetched branch).map history.ancestors).getD []

/-- The branch of the clone can be landed: the host gets its commit, which its own branch
is behind, and no other worktree has the branch. -/
structure Landable (host : Host C) (clone : Clone C) (branch : String) (source : C) : Prop where
  own : Entries.get (branchRef branch) clone.refs = some source
  brought : source ∈ host.objects ++ clone.brought history branch
  forward : ∀ old ∈ Entries.get (branchRef branch) host.refs, old ∈ history.ancestors source
  free : host.current = some branch ∨ branch ∉ host.elsewhere

/-- The branch can be pushed: no tag has its name, and that of the remote is behind. -/
structure Pushable (host : Host C) (origin : Remote C) (branch : String) (source : C) : Prop where
  plain : Entries.get (tagRef branch) host.refs = none
  forward : ∀ old ∈ Entries.get (branchRef branch) origin.refs, old ∈ history.ancestors source

/-- The condition: where the clone is clean and on a branch that has no commits past the
seed, the host and its remote have all of its work already; where the branch has and can be
landed and pushed, they have what the fetch does not bring, and what a remote named
`origin` does not get with the branch. -/
def Covered (host : Host C) (clone : Clone C) (seed : Option C) : Prop :=
  ∀ branch, clone.head = .branch branch → clone.dirty = false →
    if clone.noCommitsPast history seed = true then
      ∀ c, clone.Work history seed c → c ∈ host.objects ∧ ∀ remote ∈ host.remote, remote.Has history c
    else ∀ source, Landable history host clone branch source →
      (∀ origin ∈ host.origin, Pushable history host origin branch source) → ∀ c, clone.Work history seed c →
        (c ∈ host.objects ∨ c ∈ clone.brought history branch) ∧ ∀ remote ∈ host.remote, remote.Has history c ∨
          host.origin.isSome = true ∧ c ∈ history.ancestors source

/-- The host behind the landing, and behind the push. -/
def Host.landed (host : Host C) (clone : Clone C) (branch : String) (source : C) : Host C :=
  { host with
    objects := host.objects ++ clone.brought history branch
    refs := Entries.set (branchRef branch) source host.refs }

def Remote.advanced (branch : String) (source : C) (remote : Remote C) : Remote C :=
  if remote.name = "origin" then { remote with refs := Entries.set (branchRef branch) source remote.refs } else remote

def Host.pushed (host : Host C) (branch : String) (source : C) : Host C :=
  { host with remotes := host.remotes.map (Remote.advanced branch source) }

variable {history} {host host' : Host C} {clone : Clone C} {seed : Option C} {branch : String} {source : C} {o : Outcome}

theorem any_notMem {old : Option C} {commits : List C} : old.any (· ∉ commits) = true ↔ ¬ ∀ c ∈ old, c ∈ commits := by
  cases old <;> simp

theorem fastForward_none : host.fastForward history branch source o = (host', none) ↔
    source ∈ host.objects ∧ (∀ old ∈ Entries.get (branchRef branch) host.refs, old ∈ history.ancestors source) ∧
      (host.current = some branch ∨ branch ∉ host.elsewhere) ∧ o.update = true ∧
      host' = { host with refs := Entries.set (branchRef branch) source host.refs } := by
  have hElsewhere : (host.current ≠ some branch ∧ branch ∈ host.elsewhere) ↔
      ¬ (host.current = some branch ∨ branch ∉ host.elsewhere) := by
    rw [not_or, not_not]
  unfold Host.fastForward
  simp only [any_notMem, hElsewhere]
  split_ifs with hSource hForward hFree hUpdate
  · simp only [Prod.mk.injEq, and_true]
    exact ⟨fun h => ⟨hSource, hForward, hFree, hUpdate, h.symm⟩, fun h => h.2.2.2.2.symm⟩
  · exact iff_of_false (by simp) fun h => hUpdate h.2.2.2.1
  · exact iff_of_false (by simp) fun h => hFree h.2.2.1
  · exact iff_of_false (by simp) fun h => hForward h.2.1
  · exact iff_of_false (by simp) fun h => hSource h.1

/-- A landing succeeds where the branch can be landed and no command fails. -/
theorem landCloneBranch_none : landCloneBranch history clone host branch o = (host', none) ↔
    o.fetch = true ∧ o.update = true ∧
      ∃ source, Landable history host clone branch source ∧ host' = host.landed history clone branch source := by
  unfold landCloneBranch
  cases hFetch : o.fetch with
  | false => simp
  | true =>
      cases hFetched : clone.fetched branch with
      | none =>
          have hNone : Entries.get (branchRef branch) clone.refs = none := by
            unfold Clone.fetched at hFetched
            exact (Option.or_eq_none_iff.mp hFetched).2
          refine iff_of_false (by simp) ?_
          rintro ⟨-, -, source, hLandable, -⟩
          rw [hLandable.own] at hNone
          cases hNone
      | some commit =>
          have hBrought : clone.brought history branch = history.ancestors commit := by
            rw [Clone.brought, hFetched]
            rfl
          dsimp only
          cases hOwn : Entries.get (branchRef branch) clone.refs with
          | none =>
              refine iff_of_false (by simp) ?_
              rintro ⟨-, -, source, hLandable, -⟩
              rw [hLandable.own] at hOwn
              cases hOwn
          | some source =>
              simp only [if_true, fastForward_none]
              constructor
              · rintro ⟨hSource, hForward, hFree, hUpdate, rfl⟩
                exact ⟨trivial, hUpdate, source, ⟨hOwn, hBrought ▸ hSource, hForward, hFree⟩, by rw [Host.landed, hBrought]⟩
              · rintro ⟨-, hUpdate, source', hLandable, rfl⟩
                obtain rfl := Option.some.inj (hOwn.symm.trans hLandable.own)
                exact ⟨hBrought ▸ hLandable.brought, hLandable.forward, hLandable.free, hUpdate, by rw [Host.landed, hBrought]⟩

variable {origin remote : Remote C}

/-- A push of the branch that was landed succeeds where it can be pushed and does not fail. -/
theorem push_true :
    (host.landed history clone branch source).push history origin branch o = (host', true) ↔
      o.push = true ∧ Entries.get (tagRef branch) (host.landed history clone branch source).refs = none ∧
        (∀ old ∈ Entries.get (branchRef branch) origin.refs, old ∈ history.ancestors source) ∧
        host' = (host.landed history clone branch source).pushed branch source := by
  have hTip : Entries.get (branchRef branch) (host.landed history clone branch source).refs = some source := by
    simp [Host.landed]
  have hPushed : (host.landed history clone branch source).pushed branch source = { host.landed history clone branch source with
      remotes := (host.landed history clone branch source).remotes.map fun remote => if remote.name = "origin" then
        { remote with refs := Entries.set (branchRef branch) source remote.refs } else remote } := rfl
  unfold Host.push
  rw [hTip]
  simp only [any_notMem, hPushed]
  split_ifs with hBlocked hPush
  · refine iff_of_false (by simp) fun h => ?_
    rcases hBlocked with hTag | hForward
    · rw [h.2.1] at hTag
      cases hTag
    · exact hForward h.2.2.1
  · obtain ⟨hTag, hForward⟩ := not_or.mp hBlocked
    simp only [Prod.mk.injEq, and_true, hPush, true_and]
    exact ⟨fun h => ⟨Option.not_isSome_iff_eq_none.mp hTag, not_not.mp hForward, h.symm⟩, fun h => h.2.2.symm⟩
  · exact iff_of_false (by simp) fun h => hPush h.1

theorem branchRef_ne_tagRef (branch other : String) : branchRef branch ≠ tagRef other := by
  intro h
  have hChars := congrArg (fun name : String => name.toList.drop 5) h
  simp [branchRef, tagRef] at hChars

omit [DecidableEq C] in
theorem pushable_landed : Pushable history (host.landed history clone branch source) origin branch source ↔
    Pushable history host origin branch source := by
  have hTag : Entries.get (tagRef branch) (host.landed history clone branch source).refs =
      Entries.get (tagRef branch) host.refs := by
    rw [Host.landed, Entries.get_set, if_neg (branchRef_ne_tagRef branch branch)]
  exact ⟨fun h => ⟨hTag ▸ h.plain, h.forward⟩, fun h => ⟨hTag.trans h.plain, h.forward⟩⟩

omit [DecidableEq C] in
theorem advanced_name (remote : Remote C) : (remote.advanced branch source).name = remote.name := by
  unfold Remote.advanced
  split <;> rfl

omit [DecidableEq C] in
/-- The remote that is asked for is the same one, advanced if it is `origin`. -/
theorem pushed_remote : (host.pushed branch source).remote = host.remote.map (Remote.advanced branch source) := by
  have hOrigin : (host.pushed branch source).origin = host.origin.map (Remote.advanced branch source) := by
    unfold Host.origin Host.pushed
    rw [List.find?_map]
    congr 2
    funext remote
    simp [advanced_name]
  unfold Host.remote
  rw [hOrigin]
  cases hFound : host.origin with
  | some origin => rfl
  | none => simp [Host.pushed]

omit [DecidableEq C] in
/-- A remote that is a fast-forward behind has what it had and what the branch reaches. -/
theorem advanced_has (hForward : ∀ old ∈ Entries.get (branchRef branch) remote.refs, old ∈ history.ancestors source) (c : C) :
    (remote.advanced branch source).Has history c ↔
      remote.Has history c ∨ remote.name = "origin" ∧ c ∈ history.ancestors source := by
  unfold Remote.advanced
  split
  · rename_i hName
    have hNew : (branchRef branch, source) ∈ Entries.set (branchRef branch) source remote.refs :=
      Entries.mem_of_get (by simp)
    simp only [hName, true_and]
    constructor
    · rintro ⟨ref, hRef, hc⟩
      rcases Entries.mem_set hRef with rfl | hOld
      · exact .inr hc
      · exact .inl ⟨ref, hOld, hc⟩
    · rintro (⟨ref, hRef, hc⟩ | hc)
      · rcases Entries.mem_set_of_mem (branchRef branch) source hRef with hStays | ⟨hKey, hGet⟩
        · exact ⟨ref, hStays, hc⟩
        · exact ⟨_, hNew, history.closed source _ (hForward _ hGet) hc⟩
      · exact ⟨_, hNew, hc⟩
  · rename_i hName
    simp [hName]

omit [DecidableEq C] in
/-- The remote is `origin` where there is one. -/
theorem origin_iff (h : remote ∈ host.remote) :
    (remote.name = "origin" ↔ host.origin.isSome = true) ∧ (remote.name = "origin" → remote ∈ host.origin) := by
  unfold Host.remote at h
  cases hOrigin : host.origin with
  | some origin =>
      rw [hOrigin] at h
      obtain rfl := Option.some.inj h
      have hName : origin.name = "origin" := by simpa using List.find?_some hOrigin
      exact ⟨iff_of_true hName rfl, fun _ => rfl⟩
  | none =>
      rw [hOrigin] at h
      have hMem : remote ∈ host.remotes := List.mem_of_mem_head? h
      have hName : ¬ remote.name = "origin" := by simpa using List.find?_eq_none.mp hOrigin remote hMem
      exact ⟨iff_of_false hName (by simp), fun hSame => absurd hSame hName⟩

omit [DecidableEq C] in
theorem pushed_of_none (h : host.origin = none) : host.pushed branch source = host := by
  have hSame : host.remotes.map (Remote.advanced branch source) = host.remotes := by
    calc host.remotes.map (Remote.advanced branch source)
        = host.remotes.map id := List.map_congr_left fun remote hRemote => by
          have hName : ¬ remote.name = "origin" := by simpa using List.find?_eq_none.mp h remote hRemote
          rw [Remote.advanced, if_neg hName, id]
      _ = host.remotes := List.map_id _
  rw [Host.pushed, hSame]

omit [DecidableEq C] in
theorem currentBranch_some : clone.currentBranch = .ok (some branch) ↔ clone.head = .branch branch := by
  unfold Clone.currentBranch
  cases clone.head <;> simp

omit [DecidableEq C] in
theorem origin_landed : (host.landed history clone branch source).origin = host.origin := rfl

/-- Behind a landing the clone is removed if the push, where there is a remote named
`origin`, succeeds. -/
theorem publish_landing (hHead : clone.head = .branch branch) (hStatus : o.status = true) (hClean : clone.dirty = false)
    (hPast : clone.noCommitsPast history seed = false) (hRaises : o.raises = false) :
    (publish history host clone seed o).removed = true ∧ (publish history host clone seed o).host = host' ↔
      ∃ landed, landCloneBranch history clone host branch o = (landed, none) ∧ match landed.origin with
        | some origin => landed.push history origin branch o = (host', true)
        | none => host' = landed := by
  unfold publish
  rw [currentBranch_some.mpr hHead]
  simp only [hStatus, hClean, hPast, hRaises, Bool.not_true, Bool.or_false, Bool.not_false, Bool.and_false, if_false,
    Bool.false_eq_true]
  rcases landCloneBranch history clone host branch o with ⟨landed, _ | why⟩
  · simp only [Prod.mk.injEq, and_true, exists_eq_left']
    cases hOrigin : landed.origin with
    | none => simp [eq_comm]
    | some origin =>
        dsimp only
        rcases landed.push history origin branch o with ⟨pushed, _ | _⟩
        · simp
        · simp
  · simp

/-- A clone that is removed is on a branch and clean, and its branch has nothing past the
seed or has been landed and pushed. -/
theorem publish_removed (hRemoved : (publish history host clone seed o).removed = true) :
    ∃ branch, clone.head = .branch branch ∧ o.status = true ∧ clone.dirty = false ∧
      (clone.noCommitsPast history seed = true ∨ clone.noCommitsPast history seed = false ∧ o.raises = false) := by
  unfold publish at hRemoved
  cases hHead : clone.currentBranch with
  | error e =>
      rw [hHead] at hRemoved
      cases hRemoved
  | ok current =>
      cases current with
      | none =>
          rw [hHead] at hRemoved
          cases hRemoved
      | some branch =>
          rw [hHead] at hRemoved
          dsimp only at hRemoved
          have hClean : (!o.status || clone.dirty) = false := by
            by_contra hDirty
            rw [Bool.not_eq_false] at hDirty
            simp only [hDirty, Bool.not_true, Bool.false_and, Bool.false_eq_true, if_false, if_true] at hRemoved
            repeat' split at hRemoved
            all_goals cases hRemoved
          rw [Bool.or_eq_false_iff, Bool.not_eq_false'] at hClean
          refine ⟨branch, currentBranch_some.mp hHead, hClean.1, hClean.2, ?_⟩
          cases hPast : clone.noCommitsPast history seed with
          | true => exact .inl rfl
          | false =>
              refine .inr ⟨rfl, ?_⟩
              by_contra hRaises
              rw [Bool.not_eq_false] at hRaises
              simp [hPast, hRaises] at hRemoved

/-- A removed clone with nothing past the seed leaves the host as it was. -/
theorem publish_past (hHead : clone.head = .branch branch) (hStatus : o.status = true) (hClean : clone.dirty = false)
    (hPast : clone.noCommitsPast history seed = true) :
    publish history host clone seed o = ⟨.ok ⟨branch, false, false, true, .empty, true⟩, host, true⟩ := by
  unfold publish
  rw [currentBranch_some.mpr hHead]
  simp [hStatus, hClean, hPast]

/-- A clone with commits past the seed is removed where its branch can be landed and pushed
and no command fails. -/
theorem publish_landed (hHead : clone.head = .branch branch) (hStatus : o.status = true) (hClean : clone.dirty = false)
    (hPast : clone.noCommitsPast history seed = false) (hRaises : o.raises = false) :
    (publish history host clone seed o).removed = true ∧ (publish history host clone seed o).host = host' ↔
      o.fetch = true ∧ o.update = true ∧ ∃ source, Landable history host clone branch source ∧
        (∀ origin ∈ host.origin, o.push = true ∧ Pushable history host origin branch source) ∧
          host' = (host.landed history clone branch source).pushed branch source := by
  rw [publish_landing hHead hStatus hClean hPast hRaises]
  simp only [landCloneBranch_none]
  constructor
  · rintro ⟨landed, ⟨hFetch, hUpdate, source, hLandable, rfl⟩, hPush⟩
    refine ⟨hFetch, hUpdate, source, hLandable, ?_⟩
    rw [origin_landed] at hPush
    cases hOrigin : host.origin with
    | none =>
        rw [hOrigin] at hPush
        exact ⟨by simp, hPush.trans (pushed_of_none (origin_landed.trans hOrigin)).symm⟩
    | some origin =>
        rw [hOrigin] at hPush
        obtain ⟨hGoes, hTag, hForward, rfl⟩ := push_true.mp hPush
        refine ⟨fun other hOther => ?_, rfl⟩
        obtain rfl := Option.some.inj hOther
        exact ⟨hGoes, pushable_landed.mp ⟨hTag, hForward⟩⟩
  · rintro ⟨hFetch, hUpdate, source, hLandable, hPush, rfl⟩
    refine ⟨_, ⟨hFetch, hUpdate, source, hLandable, rfl⟩, ?_⟩
    rw [origin_landed]
    cases hOrigin : host.origin with
    | none => exact pushed_of_none hOrigin
    | some origin =>
        obtain ⟨hGoes, hPushable⟩ := hPush origin hOrigin
        have hThere : Pushable history (host.landed history clone branch source) origin branch source :=
          pushable_landed.mpr hPushable
        exact push_true.mpr ⟨hGoes, hThere.plain, hThere.forward, rfl⟩

omit [DecidableEq C] in
/-- Behind the push the host and its remote have a commit where they had it, the fetch
brings it, or it goes to `origin` with the branch. -/
theorem pushed_has (hPush : ∀ origin ∈ host.origin, Pushable history host origin branch source) (c : C) :
    (c ∈ ((host.landed history clone branch source).pushed branch source).objects ∧
        ∀ remote ∈ ((host.landed history clone branch source).pushed branch source).remote, remote.Has history c) ↔
      (c ∈ host.objects ∨ c ∈ clone.brought history branch) ∧
        ∀ remote ∈ host.remote, remote.Has history c ∨ host.origin.isSome = true ∧ c ∈ history.ancestors source := by
  have hAdvanced : ∀ remote ∈ host.remote, ((remote.advanced branch source).Has history c ↔
      remote.Has history c ∨ host.origin.isSome = true ∧ c ∈ history.ancestors source) := by
    intro remote hRemote
    obtain ⟨hName, hOrigin⟩ := origin_iff hRemote
    rw [← hName]
    by_cases hHere : remote.name = "origin"
    · exact advanced_has (hPush remote (hOrigin hHere)).forward c
    · simp [Remote.advanced, hHere]
  have hRemote : (host.landed history clone branch source).remote = host.remote := rfl
  rw [pushed_remote, hRemote]
  refine and_congr List.mem_append ?_
  cases hDefault : host.remote with
  | none => simp
  | some remote => simpa using hAdvanced remote hDefault

/-- Each removal keeps the clone's work if and only if the condition holds. -/
theorem publish_keeps (host : Host C) (clone : Clone C) (seed : Option C) :
    (∀ o, (publish history host clone seed o).Keeps history clone seed) ↔ Covered history host clone seed := by
  constructor
  · intro h branch hHead hClean
    have hRun := h ⟨true, false, true, true, true⟩
    cases hPast : clone.noCommitsPast history seed with
    | true =>
        rw [if_pos rfl]
        rw [publish_past hHead rfl hClean hPast] at hRun
        exact (hRun rfl).2
    | false =>
        rw [if_neg (by simp)]
        intro source hLandable hPush c hWork
        obtain ⟨hRemoved, hHost⟩ := (publish_landed (o := ⟨true, false, true, true, true⟩) hHead rfl hClean hPast rfl).mpr
          ⟨rfl, rfl, source, hLandable, fun origin hOrigin => ⟨rfl, hPush origin hOrigin⟩, rfl⟩
        have hKept := (hRun hRemoved).2 c hWork
        rw [hHost] at hKept
        exact (pushed_has hPush c).mp hKept
  · intro h o hRemoved
    obtain ⟨branch, hHead, hStatus, hClean, hPast | ⟨hPast, hRaises⟩⟩ := publish_removed hRemoved
    · refine ⟨hClean, fun c hWork => ?_⟩
      have hCovered := h branch hHead hClean
      rw [if_pos hPast] at hCovered
      rw [publish_past hHead hStatus hClean hPast]
      exact hCovered c hWork
    · refine ⟨hClean, fun c hWork => ?_⟩
      have hCovered := h branch hHead hClean
      rw [if_neg (by simp [hPast])] at hCovered
      obtain ⟨-, -, source, hLandable, hPush, hHost⟩ :=
        (publish_landed hHead hStatus hClean hPast hRaises).mp ⟨hRemoved, rfl⟩
      have hPushable := fun origin hOrigin => (hPush origin hOrigin).2
      rw [hHost]
      exact (pushed_has hPushable c).mpr (hCovered source hLandable hPushable c hWork)

/-- Commits by number, each after those before it. -/
def numbered : History Nat where
  ancestors c := List.range (c + 1)
  self c := by simp
  closed c a ha := by
    intro b hb
    simp only [List.mem_range] at ha hb ⊢
    omega

/-- A clean clone on a branch at its seed, with a commit on another branch. -/
def sideBranch : Clone Nat where
  head := .branch "brr/run"
  refs := [(branchRef "brr/run", 3), (branchRef "fix", 4)]
  dirty := false

def bareHost : Host Nat where
  objects := [0, 1, 2, 3]
  refs := [(branchRef "main", 3)]
  current := some "main"
  elsewhere := []
  remotes := []

/-- The commit on the other branch is gone with the clone. -/
theorem side_branch_lost : ¬ ∀ (host : Host Nat) clone seed o, (publish numbered host clone seed o).Keeps numbered clone seed := by
  intro h
  have hWork : sideBranch.Work numbered (some 3) 4 :=
    ⟨⟨(branchRef "fix", 4), by simp [sideBranch], by simp [numbered]⟩, by simp [numbered]⟩
  have hPast : sideBranch.noCommitsPast numbered (some 3) = true := by decide
  have hKept := h bareHost sideBranch (some 3) ⟨true, false, true, true, true⟩
  rw [publish_past rfl rfl rfl hPast] at hKept
  have hThere : (4 : Nat) ∈ bareHost.objects := ((hKept rfl).2 4 hWork).1
  simp [bareHost] at hThere

end Brnrd.Placement
