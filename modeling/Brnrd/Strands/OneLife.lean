import Brnrd.Machine.Reach
import Brnrd.Strands.Children

/-! Calls on one ask's children that read in one transaction and record in another,
in every interleaving. -/
namespace Brnrd.Strands

open Python Facts
open Stores (Recording)

/-- The ask's file, and what the calls under way have decided to record. -/
structure World where
  facts : List Fact
  drafts : List Draft
  deriving DecidableEq

def World.empty : World := ⟨[], []⟩

/-- What the clock and `uuid4` give a `record`. -/
structure Stamp where
  physical : Int
  at_ : String
  id : String

/-- A call reads the children and makes its check, a call under way records, or a
fact of another kind is recorded. -/
inductive Action where
  | check (call : Call)
  | record (call : Nat) (stamp : Stamp)
  | other (kind by_ : String) (data : Dict) (stamp : Stamp)

def Draft.recording (draft : Draft) (stamp : Stamp) : Recording :=
  ⟨draft.kind, draft.by_, some draft.data, [], stamp.physical, stamp.at_, stamp.id⟩

/-- The kinds that `children` folds. -/
def folded : List String := ["child_started", "child_returned", "child_stopped", "child_completed"]

/-- `facts.record("asks", ask, …)`, where `uuid4` gives a new id. -/
def World.append (s : World) (r : Recording) : Option World :=
  if r.id ∈ s.facts.map Fact.id then none else some { s with facts := s.facts ++ [r.fact s.facts] }

def step (host : Host) (ask : String) (s : World) : Action → Option World
  | .check call => match (children host ask s.facts >>= call.check ask) with
      | .ok (some draft) => some { s with drafts := s.drafts ++ [draft] }
      | _ => some s
  | .record call stamp => match s.drafts[call]? with
      | some draft => { s with drafts := s.drafts.eraseIdx call }.append (draft.recording stamp)
      | none => none
  | .other kind by_ data stamp =>
      if kind ∈ folded then none else s.append ⟨kind, by_, some data, [], stamp.physical, stamp.at_, stamp.id⟩

/-- What a call has read still holds in the respect that its fact needs: no child stands
at the edge of a `child_started`, and the child of a `child_returned` is not stopped
and has not come past its generation. -/
def Draft.Timely (now : Children) : Draft → Prop
  | .started _ _ edge _ => Entries.get edge now = none
  | .returned edge run _ _ generation =>
      ∀ child ∈ Entries.get edge now, child.run = run → child.status ≠ "stopped" ∧ child.generation ≤ generation
  | .stopped .. | .completed .. => True

instance (now : Children) : (draft : Draft) → Decidable (draft.Timely now)
  | .started _ _ edge _ => inferInstanceAs (Decidable (Entries.get edge now = none))
  | .returned edge run _ _ generation => inferInstanceAs (Decidable (∀ child ∈ Entries.get edge now,
      child.run = run → child.status ≠ "stopped" ∧ child.generation ≤ generation))
  | .stopped .. | .completed .. => inferInstanceAs (Decidable True)

/-- The condition on a step: what is recorded is timely when it is recorded. -/
def Timely (host : Host) (ask : String) (s : World) : Action → Prop
  | .record call _ => ∀ now ∈ (children host ask s.facts).toOption, ∀ draft ∈ s.drafts[call]?, draft.Timely now
  | _ => True

instance (host : Host) (ask : String) (s : World) : (a : Action) → Decidable (Timely host ask s a)
  | .record call _ => inferInstanceAs (Decidable (∀ now ∈ (children host ask s.facts).toOption,
      ∀ draft ∈ s.drafts[call]?, draft.Timely now))
  | .check _ | .other .. => inferInstanceAs (Decidable True)

/-- The same run at the edge, no earlier generation, and stopped if it was. -/
structure Child.Lives (child later : Child) : Prop where
  bound : later.run = child.run ∧ later.parent = child.parent ∧ later.conversation = child.conversation
  generation : child.generation ≤ later.generation
  stopped : child.status = "stopped" → later.status = "stopped"

theorem Child.Lives.refl (child : Child) : child.Lives child :=
  ⟨⟨rfl, rfl, rfl⟩, le_refl _, id⟩

theorem Child.Lives.trans {child later last : Child} (h : child.Lives later) (h' : later.Lives last) :
    child.Lives last where
  bound := ⟨h'.bound.1.trans h.bound.1, h'.bound.2.1.trans h.bound.2.1, h'.bound.2.2.trans h.bound.2.2⟩
  generation := h.generation.trans h'.generation
  stopped := fun hStopped => h'.stopped (h.stopped hStopped)

/-- Every child that was there lives on. -/
def LiveOn (before after : Children) : Prop :=
  ∀ edge child, Entries.get edge before = some child → ∃ later, Entries.get edge after = some later ∧ child.Lives later

theorem LiveOn.refl (before : Children) : LiveOn before before :=
  fun _ child h => ⟨child, h, .refl child⟩

variable {before result : Children}

theorem LiveOn.trans {between after : Children} (h : LiveOn before between) (h' : LiveOn between after) :
    LiveOn before after := by
  intro edge child hChild
  obtain ⟨later, hLater, hLives⟩ := h edge child hChild
  obtain ⟨last, hLast, hOn⟩ := h' edge later hLater
  exact ⟨last, hLast, hLives.trans hOn⟩

variable {run edge : String}

/-- One edge is set, to a child that the one there lives on in. -/
theorem LiveOn.set {later : Child} (h : ∀ child, Entries.get edge before = some child → child.Lives later) :
    LiveOn before (Entries.set edge later before) := by
  intro other child hChild
  rw [Entries.get_set]
  split
  · rename_i hSame
    subst hSame
    exact ⟨later, rfl, h child hChild⟩
  · exact ⟨child, hChild, .refl child⟩

theorem field_text {data : Dict} {key text : String} (h : data.get key = .str text) : field data key = .ok text := by
  rw [field, h]

theorem spoken_eq {data : Dict} (hEdge : data.get "edge" = .str edge) (hRun : data.get "run" = .str run) :
    spoken result data = .ok ((Entries.get edge result).filter fun prior => prior.run = run) := by
  unfold spoken
  rw [field_text hEdge, field_text hRun, Fallible.ok_bind]
  cases hPrior : Entries.get edge result with
  | none => rfl
  | some prior => simp [Option.filter, Fallible.ok_bind]

/-- A fact about the child of a run is passed over or sets its edge. -/
theorem spoken_cases {data : Dict} {set : Child → Except Failure Children} (hEdge : data.get "edge" = .str edge)
    (hRun : data.get "run" = .str run)
    (hSet : ∀ prior, Entries.get edge result = some prior → prior.run = run → ∃ after, set prior = .ok after ∧ LiveOn result after) :
    ∃ after, (spoken result data >>= fun
      | none => .ok result
      | some prior => set prior) = .ok after ∧ LiveOn result after := by
  rw [spoken_eq hEdge hRun]
  cases hPrior : (Entries.get edge result).filter fun prior => prior.run = run with
  | none => exact ⟨result, rfl, .refl result⟩
  | some prior =>
      obtain ⟨hGet, hSame⟩ := Option.filter_eq_some_iff.mp hPrior
      exact hSet prior hGet (by simpa using hSame)

/-- The recorded generation, or one past the child's. -/
theorem generationOf_draft {report branch : Value} {generation : Int} (prior : Child) :
    generationOf (Draft.returned edge run report branch generation).data prior =
      .ok (if generation = 0 then prior.generation + 1 else generation) := by
  have hGet : (Draft.returned edge run report branch generation).data.get "generation" = .int generation := rfl
  rw [generationOf, hGet, Value.orElse]
  by_cases hZero : generation = 0
  · simp [hZero, Value.truthy, Value.toInt]
  · simp [hZero, Value.truthy, Value.toInt]

/-- The fold's turn for a timely fact: every child lives on. -/
theorem fold_draft {ask : String} {draft : Draft} {fact : Fact} (hKind : fact.kind = draft.kind)
    (hData : fact.data = draft.data) (hTimely : draft.Timely result) :
    ∃ after, fold ask result fact = .ok after ∧ LiveOn result after := by
  unfold fold
  rw [hKind, hData]
  cases draft with
  | started conversation parent edge run =>
      refine ⟨_, rfl, .set fun child hChild => ?_⟩
      have hFree : Entries.get edge result = none := hTimely
      rw [hFree] at hChild
      cases hChild
  | returned edge run report branch generation =>
      refine spoken_cases rfl rfl fun prior hPrior hRun => ?_
      rw [generationOf_draft]
      refine ⟨_, rfl, .set fun child hChild => ?_⟩
      obtain rfl := Option.mem_unique hPrior hChild
      obtain ⟨hRuns, hBehind⟩ := hTimely prior hPrior hRun
      refine ⟨⟨rfl, rfl, rfl⟩, ?_, fun hStopped => absurd hStopped hRuns⟩
      dsimp only
      split <;> omega
  | stopped by_ edge run reason =>
      refine spoken_cases rfl rfl fun prior hPrior hRun => ⟨_, rfl, .set fun child hChild => ?_⟩
      obtain rfl := Option.mem_unique hPrior hChild
      exact ⟨⟨rfl, rfl, rfl⟩, le_refl _, fun _ => rfl⟩
  | completed by_ edge run status report branch =>
      refine spoken_cases rfl rfl fun prior hPrior hRun => ?_
      split
      · exact ⟨result, rfl, .refl result⟩
      · rename_i hRuns
        refine ⟨_, rfl, .set fun child hChild => ?_⟩
        obtain rfl := Option.mem_unique hPrior hChild
        exact ⟨⟨rfl, rfl, rfl⟩, le_refl _, fun hStopped => absurd hStopped hRuns⟩

theorem fold_other {ask : String} {fact : Fact} (h : fact.kind ∉ folded) : fold ask result fact = .ok result := by
  simp only [folded, List.mem_cons, List.not_mem_nil, or_false, not_or] at h
  unfold fold
  rw [if_neg h.1, if_neg h.2.1, if_neg h.2.2.1, if_neg h.2.2.2]

/-- What every state of a run has: a file that `record` wrote, and a fold that does
not raise. -/
structure World.Sound (host : Host) (ask : String) (s : World) : Prop where
  recorded : Recorded s.facts
  folds : ∃ now, children host ask s.facts = .ok now

theorem World.empty_sound (host : Host) (ask : String) : World.empty.Sound host ask where
  recorded := .nil
  folds := by
    have hUnion : union host [World.empty.facts] = .ok [] := Recorded.nil.union_eq host
    exact ⟨[], by rw [children, hUnion]; rfl⟩

/-- From one state to another the children live on. -/
def World.Follows (host : Host) (ask : String) (s t : World) : Prop :=
  ∃ before after, children host ask s.facts = .ok before ∧ children host ask t.facts = .ok after ∧ LiveOn before after

variable {host : Host} {ask : String} {s t : World}

theorem World.Sound.append {r : Recording} (h : s.Sound host ask) (hAppend : s.append r = some t) (hFree : r.after = [])
    (hFold : ∀ now, children host ask s.facts = .ok now →
      ∃ after, fold ask now (r.fact s.facts) = .ok after ∧ LiveOn now after) :
    t.Sound host ask ∧ s.Follows host ask t := by
  unfold World.append at hAppend
  split at hAppend
  · cases hAppend
  · rename_i hFresh
    obtain rfl := Option.some.inj hAppend
    obtain ⟨now, hNow⟩ := h.folds
    obtain ⟨after, hAfter, hOn⟩ := hFold now hNow
    have hNext : children host ask (s.facts ++ [r.fact s.facts]) = .ok after := by
      rw [children_record host h.recorded r hFresh hFree, hNow]
      exact hAfter
    exact ⟨⟨h.recorded.record r hFresh hFree, after, hNext⟩, now, after, hNow, hNext, hOn⟩

/-- The step lemma. -/
theorem World.Sound.step {a : Action} (h : s.Sound host ask) (hTimely : Timely host ask s a)
    (hStep : step host ask s a = some t) : t.Sound host ask ∧ s.Follows host ask t := by
  obtain ⟨now, hNow⟩ := h.folds
  cases a with
  | check call =>
      have hFacts : t.facts = s.facts := by
        rw [Strands.step] at hStep
        split at hStep <;> (obtain rfl := Option.some.inj hStep; rfl)
      refine ⟨⟨hFacts ▸ h.recorded, now, hFacts ▸ hNow⟩, now, now, hNow, hFacts ▸ hNow, .refl now⟩
  | record call stamp =>
      rw [Strands.step] at hStep
      split at hStep
      · rename_i draft hDraft
        refine World.Sound.append (s := { s with drafts := s.drafts.eraseIdx call }) ⟨h.recorded, now, hNow⟩ hStep rfl ?_
        intro now' hNow'
        refine fold_draft rfl rfl (hTimely now' ?_ draft hDraft)
        rw [hNow']
        rfl
      · cases hStep
  | other kind by_ data stamp =>
      rw [Strands.step] at hStep
      split at hStep
      · cases hStep
      · rename_i hOther
        exact h.append hStep rfl fun now' _ => ⟨now', fold_other hOther, .refl now'⟩

/-- Where every fact is timely when it is recorded, each edge has one life: in any two
states of a run, the later one shows at an edge the run that the earlier one does, at
no earlier generation, and stopped if it was. -/
theorem children_one_life (host : Host) (ask : String) (s t : World)
    (hFirst : Machine.Reach (step host ask) (Timely host ask) World.empty s)
    (hLater : Machine.Reach (step host ask) (Timely host ask) s t) : s.Follows host ask t := by
  have hSound : s.Sound host ask :=
    hFirst.invariant _ (World.empty_sound host ask) fun _ _ _ h hTimely hStep => (h.step hTimely hStep).1
  have hBoth : t.Sound host ask ∧ s.Follows host ask t := by
    refine hLater.invariant (fun t => t.Sound host ask ∧ s.Follows host ask t) ⟨hSound, ?_⟩ ?_
    · obtain ⟨now, hNow⟩ := hSound.folds
      exact ⟨now, now, hNow, hNow, .refl now⟩
    · rintro u a v ⟨h, before, between, hBefore, hBetween, hOn⟩ hTimely hStep
      obtain ⟨hNext, between', after, hBetween', hAfter, hOn'⟩ := h.step hTimely hStep
      obtain rfl := Fallible.same hBetween hBetween'
      exact ⟨hNext, before, after, hBefore, hAfter, hOn.trans hOn'⟩
  exact hBoth.2

def stampAt (physical : Int) (id : String) : Stamp := ⟨physical, "2026-01-01T00:00:00+00:00", id⟩

/-- A strand is registered. -/
def spawned : List Action := [.check (.register "chat" "parent" "edge" "child"), .record 0 (stampAt 5 "a")]

def submit : Call := .returned "chat" "parent" "edge" "child" (.str "report.md") (.str "work")

/-- It submits twice, is granted an allowance, is stopped, and exits. -/
def submitted : List Action :=
  [.check submit, .record 0 (stampAt 6 "b"), .other "allowance_granted" "parent" [] (stampAt 6 "c"),
    .check submit, .record 0 (stampAt 4 "d"), .check (.stop "chat" "parent" "edge" "enough"), .record 0 (stampAt 7 "e"),
    .check (.complete "child" "edge" "done" "report.md" "work")]

/-- It submits, and is stopped between the check and the record. -/
def stoppedMeanwhile : List Action :=
  [.check submit, .check (.stop "chat" "parent" "edge" "enough"), .record 1 (stampAt 6 "b")]

def childSpawned : World :=
  (Machine.follow (step bareHost "ask") (Timely bareHost "ask") .empty spawned).getD .empty

def childSubmitted : World :=
  (Machine.follow (step bareHost "ask") (Timely bareHost "ask") childSpawned submitted).getD .empty

def childStopped : World :=
  (Machine.follow (step bareHost "ask") (fun _ _ => True) childSpawned stoppedMeanwhile).getD .empty

def childReturned : World :=
  (Machine.follow (step bareHost "ask") (fun _ _ => True) childStopped [.record 0 (stampAt 7 "c")]).getD .empty

/-- The statuses and generations that the children show. -/
def shownAs (s : World) : Option (List (String × String × Int)) :=
  (children bareHost "ask" s.facts).toOption.map fun now =>
    now.map fun item => (item.1, item.2.status, item.2.generation)

theorem children_one_life_submitted : shownAs childSubmitted = some [("edge", "stopped", 2)] ∧
    childSpawned.Follows bareHost "ask" childSubmitted := by
  have hFirst : Machine.follow (step bareHost "ask") (Timely bareHost "ask") .empty spawned = some childSpawned := by
    decide +kernel
  have hLater : Machine.follow (step bareHost "ask") (Timely bareHost "ask") childSpawned submitted =
      some childSubmitted := by
    decide +kernel
  exact ⟨by decide +kernel,
    children_one_life bareHost "ask" childSpawned childSubmitted (.follow .refl hFirst) (.follow .refl hLater)⟩

/-- A return that was checked before the stop and recorded behind it shows the stopped
child as returned. -/
theorem late_return_revives : ¬ ∀ s t : World, Machine.Reach (step bareHost "ask") (fun _ _ => True) .empty s →
    Machine.Reach (step bareHost "ask") (fun _ _ => True) s t → s.Follows bareHost "ask" t := by
  intro hAll
  have hFirst : Machine.follow (step bareHost "ask") (fun _ _ => True) .empty (spawned ++ stoppedMeanwhile) =
      some childStopped := by
    decide +kernel
  have hLater : Machine.follow (step bareHost "ask") (fun _ _ => True) childStopped [.record 0 (stampAt 7 "c")] =
      some childReturned := by
    decide +kernel
  obtain ⟨before, after, hBefore, hAfter, hOn⟩ :=
    hAll childStopped childReturned (.follow .refl hFirst) (.follow .refl hLater)
  have hStopped : (children bareHost "ask" childStopped.facts).toOption.map
      (fun now => (Entries.get "edge" now).map Child.status) = some (some "stopped") := by
    decide +kernel
  have hReturned : (children bareHost "ask" childReturned.facts).toOption.map
      (fun now => (Entries.get "edge" now).map Child.status) = some (some "returned") := by
    decide +kernel
  rw [hBefore] at hStopped
  rw [hAfter] at hReturned
  obtain ⟨child, hChild, hStatus⟩ := Option.map_eq_some_iff.mp (Option.some.inj hStopped)
  obtain ⟨later, hLater, hLives⟩ := hOn "edge" child hChild
  have hShown : (Entries.get "edge" after).map Child.status = some "returned" := Option.some.inj hReturned
  rw [hLater, Option.map_some, hLives.stopped hStatus] at hShown
  exact absurd hShown (by decide)

end Brnrd.Strands
