import Brnrd.Schedule.Firing

/-! The trust tiers of the entries: the records of who wrote which text, the pass over
the texts that were there before there were records, and the tick that reads them. -/
namespace Brnrd.Schedule

open Events (Text)

/-- `trust.OWNER`. -/
def ownerTier : Text := "owner".toList

/-- A record of `_tier_by_entry`. -/
structure TierRecord where
  tier : Text
  fp : Text
deriving DecidableEq

abbrev Tiers := List (Text × TierRecord)

/-- The state file: the firing records, and under keys that no slug can be
`_tier_by_entry`, `_noticed_untiered`, `_tier_grandfathered` and `_pacing`. -/
structure StateFile where
  firing : State := []
  tiers : Tiers := []
  noticed : List Text := []
  grandfathered : Bool := false
  pacing : Option Text := none
deriving DecidableEq

/-- What a fingerprint covers of an entry. -/
def fingerprinted (entry : ScheduleEntry) : List Text :=
  [match entry.kind with
    | .atTime => "at".toList
    | .every => "every".toList,
    entry.rawWhen, entry.conversationKey.getD [], entry.resetOn.getD [], entry.shell.getD [], entry.core.getD [],
    entry.runner.getD [], entry.body]

variable (calls : Calls) (digest : List Text → Text)

/-- `entry_fingerprint`: the first digits of the digest of the texts, which are dumped
as one array. -/
def entryFingerprint (entry : ScheduleEntry) : Text :=
  digest (fingerprinted entry)

/-- `{e.id: entry_fingerprint(e) for e in entries}`. -/
def fingerprints (entries : List ScheduleEntry) : List (Text × Text) :=
  entries.foldl (fun found entry => Entries.set entry.id (entryFingerprint digest entry) found) []

/-- `fingerprints_from_text`. -/
def fingerprintsFromText (text : Text) : List (Text × Text) :=
  fingerprints digest (parseScheduleText calls text)

/-- `tier_for_entry`. -/
def tierForEntry (tiers : Tiers) (id fingerprint : Text) : Option Text :=
  match Entries.get id tiers with
  | none => none
  | some record =>
      if record.tier ≠ [] ∧ record.fp ≠ [] ∧ record.fp = fingerprint then some record.tier else none

/-- What `record_entry_tiers` makes of the state it has loaded. -/
def recordEntryTiers (touched : List (Text × Text)) (tier : Text) (state : StateFile) : StateFile :=
  { state with tiers := touched.foldl (fun tiers item => Entries.set item.1 ⟨tier, item.2⟩ tiers) state.tiers }

/-- The stamp of one entry in `grandfather_entry_tiers`. -/
def stamp (tiers : Tiers) (item : Text × Text) : Tiers :=
  if (Entries.get item.1 tiers).isSome then tiers else Entries.set item.1 ⟨ownerTier, item.2⟩ tiers

/-- `grandfather_entry_tiers`: none where the pass has run. -/
def grandfatherEntryTiers (found : List (Text × Text)) (state : StateFile) : Option StateFile :=
  if state.grandfathered then none
  else some { state with tiers := found.foldl stamp state.tiers, grandfathered := true }

/-- `prune_entry_records`. -/
def pruneEntryRecords (present : List Text) (state : StateFile) : StateFile :=
  { state with
    tiers := state.tiers.filter fun item => decide (item.1 ∈ present)
    noticed := state.noticed.filter fun id => decide (id ∈ present) }

/-- What a tick finds besides the schedule and the state: the signals, the clock, the
grace, the factors of the pacing with what is told of them, and the entries that have
a firing pending. -/
structure Env where
  signals : Signals
  now : ℚ
  staleGrace : ℚ
  factor : ScheduleEntry → Option ℚ
  pacing : Text
  unclaimed : List Text

/-- The entry with the interval that the quota leaves it. -/
def Env.paced (env : Env) (entry : ScheduleEntry) : ScheduleEntry :=
  match entry.kind, env.factor entry with
  | .every, some factor => { entry with interval := some (entry.interval.getD 0 * factor) }
  | _, _ => entry

/-- What `tier_for_entry` has answered for an entry. -/
abbrev Answer := ScheduleEntry × Option Text

/-- One due entry: the answer, and the notice of an entry that has none. -/
def askTier (found : List (Text × Text)) (told : List Answer × StateFile) (entry : ScheduleEntry) :
    List Answer × StateFile :=
  let tier := tierForEntry told.2.tiers entry.id ((Entries.get entry.id found).getD [])
  (told.1 ++ [(entry, tier)],
    if tier = none ∧ entry.id ∉ told.2.noticed then { told.2 with noticed := told.2.noticed ++ [entry.id] } else told.2)

/-- `_fire_due_schedules` behind its load: the answers for the entries that fire, and
the state it would save. -/
def fireDue (entries : List ScheduleEntry) (loaded : StateFile) (env : Env) : List Answer × StateFile :=
  let reset := applyResetSignals entries loaded.firing env.signals env.now
  let (due, firing) := dueEntries (entries.map env.paced) reset env.now env.staleGrace
  let carried := pruneEntryRecords (entries.map (·.id)) { loaded with firing, pacing := some env.pacing }
  let fires := due.filter fun entry => ¬(entry.kind = .every ∧ entry.id ∈ env.unclaimed)
  fires.foldl (askTier (fingerprints digest entries)) ([], carried)

/-- A run that has committed: its tier, and the schedule before and after each of its
commits. -/
structure Run where
  tier : Text
  commits : List (Text × Text)

/-- `_schedule_entries_touched_by_run`. -/
def Run.touched (run : Run) : List (Text × Text) :=
  let changed := run.commits.flatMap fun commit =>
    (fingerprintsFromText calls digest commit.2).filter fun item =>
      Entries.get item.1 (fingerprintsFromText calls digest commit.1) ≠ some item.2
  changed.foldl (fun touched item => Entries.set item.1 item.2 touched) []

variable {calls digest}

variable {entries : List ScheduleEntry}

theorem mem_fingerprints {item : Text × Text} (h : item ∈ fingerprints digest entries) :
    ∃ entry ∈ entries, entry.id = item.1 ∧ entryFingerprint digest entry = item.2 := by
  rcases Entries.mem_foldl_set h with h | ⟨entry, hEntry, rfl⟩
  · cases h
  · exact ⟨entry, hEntry, rfl, rfl⟩

theorem get_fingerprints_isSome {entry : ScheduleEntry} (h : entry ∈ entries) :
    (Entries.get entry.id (fingerprints digest entries)).isSome := by
  have hKeep : ∀ (later : List ScheduleEntry) (found : List (Text × Text)), (Entries.get entry.id found).isSome →
      (Entries.get entry.id (later.foldl (fun found e => Entries.set e.id (entryFingerprint digest e) found) found)).isSome := by
    intro later
    induction later with
    | nil => exact fun _ h => h
    | cons other later ih =>
        intro found h
        refine ih _ ?_
        rw [Entries.get_set]
        split
        · rfl
        · exact h
  obtain ⟨before, after, rfl⟩ := List.append_of_mem h
  rw [fingerprints, List.foldl_append, List.foldl_cons]
  exact hKeep after _ (by simp)

/-- A fingerprint that stands for an id is of one of its entries. -/
theorem get_fingerprints {id fp : Text} (h : Entries.get id (fingerprints digest entries) = some fp) :
    ∃ entry ∈ entries, entry.id = id ∧ entryFingerprint digest entry = fp :=
  mem_fingerprints (Entries.mem_of_get h)

variable (digest)

/-- No two entries share an id and differ in what is fingerprinted. -/
def Uniform (entries : List ScheduleEntry) : Prop :=
  ∀ entry ∈ entries, ∀ other ∈ entries, entry.id = other.id → entryFingerprint digest entry = entryFingerprint digest other

variable {digest}

theorem Uniform.get (hUniform : Uniform digest entries) {entry : ScheduleEntry} (h : entry ∈ entries) :
    Entries.get entry.id (fingerprints digest entries) = some (entryFingerprint digest entry) := by
  obtain ⟨fp, hFp⟩ := Option.isSome_iff_exists.mp (@get_fingerprints_isSome digest _ _ h)
  obtain ⟨other, hOther, hId, rfl⟩ := get_fingerprints hFp
  rw [hFp, hUniform entry h other hOther hId.symm]

theorem mem_recordEntryTiers {touched : List (Text × Text)} {tier : Text} {state : StateFile} {item : Text × TierRecord}
    (h : item ∈ (recordEntryTiers touched tier state).tiers) :
    item ∈ state.tiers ∨ ∃ text ∈ touched, item = (text.1, ⟨tier, text.2⟩) :=
  Entries.mem_foldl_set h

variable {found : List (Text × Text)}

theorem mem_stamps {tiers : Tiers} {item : Text × TierRecord} (h : item ∈ found.foldl stamp tiers) :
    item ∈ tiers ∨ ∃ text ∈ found, item = (text.1, ⟨ownerTier, text.2⟩) := by
  induction found generalizing tiers with
  | nil => exact .inl h
  | cons text found ih =>
      rcases ih h with h | ⟨other, hOther, rfl⟩
      · unfold stamp at h
        split at h
        · exact .inl h
        · rcases Entries.mem_set h with rfl | h
          · exact .inr ⟨text, List.mem_cons_self .., rfl⟩
          · exact .inl h
      · exact .inr ⟨other, List.mem_cons_of_mem _ hOther, rfl⟩

theorem grandfatherEntryTiers_eq_none {state : StateFile} :
    grandfatherEntryTiers found state = none ↔ state.grandfathered = true := by
  unfold grandfatherEntryTiers
  split <;> simp_all

theorem grandfatherEntryTiers_eq_some {state stamped : StateFile} :
    grandfatherEntryTiers found state = some stamped ↔ state.grandfathered = false ∧
      { state with tiers := found.foldl stamp state.tiers, grandfathered := true } = stamped := by
  unfold grandfatherEntryTiers
  split <;> simp_all

/-- An answer is the tier of a record that stands under the id with the fingerprint. -/
theorem tierForEntry_eq_some {tiers : Tiers} {id fingerprint tier : Text}
    (h : tierForEntry tiers id fingerprint = some tier) : (id, ⟨tier, fingerprint⟩) ∈ tiers := by
  unfold tierForEntry at h
  split at h
  · cases h
  · rename_i record hRecord
    split at h
    · rename_i hUsable
      obtain rfl := Option.some.inj h
      obtain ⟨-, -, rfl⟩ := hUsable
      exact Entries.mem_of_get hRecord
    · cases h

/-- What a run has touched, one of its commits has changed. -/
theorem mem_touched {run : Run} {item : Text × Text} (h : item ∈ run.touched calls digest) :
    ∃ commit ∈ run.commits, item ∈ fingerprintsFromText calls digest commit.2 ∧
      Entries.get item.1 (fingerprintsFromText calls digest commit.1) ≠ some item.2 := by
  rcases Entries.mem_foldl_set h with h | ⟨changed, hChanged, rfl⟩
  · cases h
  · obtain ⟨commit, hCommit, hItem⟩ := List.mem_flatMap.mp hChanged
    obtain ⟨hItem, hNew⟩ := List.mem_filter.mp hItem
    exact ⟨commit, hCommit, hItem, by simpa using hNew⟩

theorem paced_id (env : Env) (entry : ScheduleEntry) : (env.paced entry).id = entry.id := by
  unfold Env.paced
  split <;> rfl

/-- The pacing leaves the fingerprint as it is. -/
theorem fingerprint_paced (env : Env) (entry : ScheduleEntry) :
    entryFingerprint digest (env.paced entry) = entryFingerprint digest entry := by
  unfold Env.paced
  split <;> rfl

/-- Asking for tiers changes no record, and each answer is out of the records. -/
theorem askTier_run (found : List (Text × Text)) (fires : List ScheduleEntry) (told : List Answer × StateFile) :
    (fires.foldl (askTier found) told).2.tiers = told.2.tiers ∧
      (fires.foldl (askTier found) told).2.grandfathered = told.2.grandfathered ∧
      ∀ answer ∈ (fires.foldl (askTier found) told).1, answer ∈ told.1 ∨ answer.1 ∈ fires ∧
        answer.2 = tierForEntry told.2.tiers answer.1.id ((Entries.get answer.1.id found).getD []) := by
  induction fires generalizing told with
  | nil => exact ⟨rfl, rfl, fun _ h => .inl h⟩
  | cons entry fires ih =>
      have hTiers : (askTier found told entry).2.tiers = told.2.tiers := by
        unfold askTier
        dsimp only
        split <;> rfl
      have hMark : (askTier found told entry).2.grandfathered = told.2.grandfathered := by
        unfold askTier
        dsimp only
        split <;> rfl
      obtain ⟨hTiersRest, hMarkRest, hAnswers⟩ := ih (askTier found told entry)
      refine ⟨hTiersRest.trans hTiers, hMarkRest.trans hMark, fun answer hAnswer => ?_⟩
      rcases hAnswers answer hAnswer with hOld | ⟨hFires, hTier⟩
      · rcases List.mem_append.mp hOld with hOld | hNew
        · exact .inl hOld
        · obtain rfl := List.mem_singleton.mp hNew
          exact .inr ⟨List.mem_cons_self .., rfl⟩
      · exact .inr ⟨List.mem_cons_of_mem _ hFires, by rw [hTier, hTiers]⟩

/-- What a tick saves has no record that it has not loaded, and keeps the marker. -/
theorem fireDue_state (entries : List ScheduleEntry) (loaded : StateFile) (env : Env) :
    (∀ item ∈ (fireDue digest entries loaded env).2.tiers, item ∈ loaded.tiers) ∧
      (fireDue digest entries loaded env).2.grandfathered = loaded.grandfathered := by
  obtain ⟨hTiers, hMark, -⟩ := askTier_run (fingerprints digest entries) _ _
  refine ⟨fun item hItem => ?_, hMark⟩
  exact (List.mem_filter.mp (hTiers ▸ hItem)).1

/-- What a tick answers for an entry is a record it has loaded, with the fingerprint
that stands for the id. -/
theorem fireDue_answer {loaded : StateFile} {env : Env} {answer : Answer} {tier : Text}
    (h : answer ∈ (fireDue digest entries loaded env).1) (hTier : answer.2 = some tier) :
    ∃ entry ∈ entries, answer.1 = env.paced entry ∧ ∃ fp, Entries.get entry.id (fingerprints digest entries) = some fp ∧
      (entry.id, ⟨tier, fp⟩) ∈ loaded.tiers := by
  obtain ⟨-, -, hAnswers⟩ := askTier_run (fingerprints digest entries) _ _
  rcases hAnswers answer h with hOld | ⟨hFires, hAsked⟩
  · cases hOld
  · have hDue := mem_of_visitAll (List.mem_filter.mp hFires).1
    obtain ⟨entry, hEntry, hPaced⟩ := List.mem_map.mp hDue
    have hId : answer.1.id = entry.id := by rw [← hPaced, paced_id]
    obtain ⟨fp, hFp⟩ := Option.isSome_iff_exists.mp (@get_fingerprints_isSome digest _ _ hEntry)
    rw [hTier, hId, hFp, Option.getD_some] at hAsked
    have hRecord := tierForEntry_eq_some hAsked.symm
    exact ⟨entry, hEntry, hPaced.symm, fp, hFp, (List.mem_filter.mp hRecord).1⟩

end Brnrd.Schedule
