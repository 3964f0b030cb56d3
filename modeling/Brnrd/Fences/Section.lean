import Mathlib.Order.Lattice

/-! A section that many workers enter behind an expiring lease and a shared note of
whether its effect is done. The effect completes once as long as no lease runs out
on a worker that is completing it or still has to note it. -/
namespace Fenced

/-- Where a worker stands in the section: before its look at the note, behind it,
behind the effect, and on its way out. -/
inductive Stage where
  | entered
  | armed
  | done
  | leaving

structure Hold (τ : Type) where
  gen : Int
  deadline : τ
  stage : Stage

/-- The clock, the lease's generation and deadline, the note, how often the effect
completed, and the workers inside. -/
structure State (ι τ : Type) where
  clock : τ
  gen : Int
  deadline : τ
  noted : Bool
  completed : Nat
  hold : ι → Option (Hold τ)

variable {ι τ : Type}

/-- A worker whose effect is done and not yet noted holds its lease. -/
def State.InTime [LT τ] (s : State ι τ) (clock : τ) : Prop :=
  ∀ i h, s.hold i = some h → h.stage = .done → clock < h.deadline

variable [LinearOrder τ]

/-- A lease that is not over is the current one, unless its worker is leaving. -/
structure State.Holds (s : State ι τ) : Prop where
  gens : ∀ i h, s.hold i = some h → h.gen ≤ s.gen
  apart : ∀ i j h k, s.hold i = some h → s.hold j = some k → h.gen = k.gen → i = j
  current : ∀ i h, s.hold i = some h → h.stage ≠ .leaving → s.clock < h.deadline →
    h.gen = s.gen ∧ h.deadline = s.deadline
  armed : ∀ i h, s.hold i = some h → h.stage = .armed → s.clock < h.deadline → s.completed = 0
  once : s.completed = 0 ∨ s.completed = 1 ∧
    (s.noted ∨ ∃ i h, s.hold i = some h ∧ h.stage = .done ∧ s.clock < h.deadline)

variable {a b : Hold τ} {i j : ι} {s s' : State ι τ}

/-- Two workers with time left are one. -/
theorem State.Holds.alone (h : s.Holds) (ha : s.hold i = some a) (hb : s.hold j = some b)
    (hInside : a.stage ≠ .leaving ∧ b.stage ≠ .leaving) (hTime : s.clock < a.deadline ∧ s.clock < b.deadline) : i = j :=
  h.apart i j a b ha hb ((h.current i a ha hInside.1 hTime.1).1.trans (h.current j b hb hInside.2 hTime.2).1.symm)

/-- A worker before the effect has time left and sees no note: nothing is completed. -/
theorem State.Holds.untouched (h : s.Holds) (ha : s.hold i = some a) (hStage : a.stage = .entered) (hNot : ¬s.noted)
    (hTime : s.clock < a.deadline) : s.completed = 0 := by
  rcases h.once with hNone | ⟨-, hNoted | ⟨j, b, hb, hDone, hLeft⟩⟩
  · exact hNone
  · exact absurd hNoted hNot
  · obtain rfl := h.alone ha hb (by simp [hStage, hDone]) ⟨hTime, hLeft⟩
    rw [Option.mem_unique ha hb, hDone] at hStage
    cases hStage

/-- An effect behind the section completes at most once. -/
theorem State.Holds.completed_le_one (h : s.Holds) : s.completed ≤ 1 := by
  rcases h.once with hNone | ⟨hOne, -⟩
  · omega
  · omega

variable [DecidableEq ι]

omit [LinearOrder τ]

/-- The workers inside, with one at another stage. -/
def State.moved (s : State ι τ) (i : ι) (h : Hold τ) (stage : Stage) : ι → Option (Hold τ) :=
  Function.update s.hold i (some { h with stage := stage })

@[simp] theorem State.moved_self (s : State ι τ) (i : ι) (h : Hold τ) (stage : Stage) :
    s.moved i h stage i = some { h with stage := stage } :=
  Function.update_self ..

theorem State.moved_of_ne (s : State ι τ) (h : Hold τ) (stage : Stage) (hne : j ≠ i) :
    s.moved i h stage j = s.hold j :=
  Function.update_of_ne hne ..

/-- Every worker inside was inside, its stage aside. -/
theorem State.moved_old (ha : s.hold i = some a) {stage : Stage} (hStay : a.stage = .leaving → stage = .leaving)
    (hb : s.moved i a stage j = some b) :
    ∃ c, s.hold j = some c ∧ b.gen = c.gen ∧ b.deadline = c.deadline ∧ (b.stage ≠ .leaving → c.stage ≠ .leaving) := by
  by_cases hj : j = i
  · subst hj
    rw [State.moved_self] at hb
    obtain rfl := Option.some.inj hb
    exact ⟨a, ha, rfl, rfl, fun hne hLeaving => hne (hStay hLeaving)⟩
  · rw [s.moved_of_ne _ _ hj] at hb
    exact ⟨b, hb, rfl, rfl, id⟩

variable [LinearOrder τ]

/-- What can happen: time passes, a worker enters behind a lease that is over,
moves on inside, completes the effect while its lease lasts, notes it, or leaves. -/
inductive Step (s : State ι τ) : State ι τ → Prop where
  | tick {clock : τ} (hClock : s.clock ≤ clock) (hInTime : s.InTime clock) : Step s { s with clock := clock }
  | enter {i : ι} {deadline : τ} (hFree : s.hold i = none) (hOver : s.deadline ≤ s.clock) :
      Step s { s with
        gen := s.gen + 1
        deadline := deadline
        hold := Function.update s.hold i (some ⟨s.gen + 1, deadline, .entered⟩) }
  | arm {i : ι} {h : Hold τ} (hHold : s.hold i = some h) (hStage : h.stage = .entered) (hNot : ¬s.noted) :
      Step s { s with hold := s.moved i h .armed }
  | turn {i : ι} {h : Hold τ} (hHold : s.hold i = some h) (hStage : h.stage ≠ .done) :
      Step s { s with hold := s.moved i h .leaving }
  | complete {i : ι} {h : Hold τ} (hHold : s.hold i = some h) (hStage : h.stage = .armed) (hInTime : s.clock < h.deadline) :
      Step s { s with completed := s.completed + 1, hold := s.moved i h .done }
  | note {i : ι} {h : Hold τ} (hHold : s.hold i = some h) (hStage : h.stage = .done) :
      Step s { s with noted := true, hold := s.moved i h .leaving }
  | leave {i : ι} {h : Hold τ} {deadline : τ} (hHold : s.hold i = some h) (hStage : h.stage = .leaving)
      (hDeadline : s.gen ≠ h.gen → deadline = s.deadline) :
      Step s { s with deadline := deadline, hold := Function.update s.hold i none }

/-- A move inside the section keeps the leases as they are; what it does to the
effect is the rest. -/
theorem State.Holds.move (h : s.Holds) (ha : s.hold i = some a) {stage : Stage}
    (hStay : a.stage = .leaving → stage = .leaving) (hHold : s'.hold = s.moved i a stage)
    (hSame : s'.clock = s.clock ∧ s'.gen = s.gen ∧ s'.deadline = s.deadline)
    (hArmed : ∀ j b, s'.hold j = some b → b.stage = .armed → s.clock < b.deadline → s'.completed = 0)
    (hOnce : s'.completed = 0 ∨ s'.completed = 1 ∧ (s'.noted ∨ ∃ j b, s'.hold j = some b ∧ b.stage = .done ∧ s.clock < b.deadline)) :
    s'.Holds := by
  obtain ⟨hClock, hGenSame, hDeadlineSame⟩ := hSame
  refine ⟨fun j b hb => ?_, fun j k b c hb hc hGen => ?_, fun j b hb hne hTime => ?_, ?_, ?_⟩
  · rw [hHold] at hb
    obtain ⟨c, hc, hGen, -⟩ := State.moved_old ha hStay hb
    rw [hGen, hGenSame]
    exact h.gens j c hc
  · rw [hHold] at hb hc
    obtain ⟨b', hb', hGenB, -⟩ := State.moved_old ha hStay hb
    obtain ⟨c', hc', hGenC, -⟩ := State.moved_old ha hStay hc
    exact h.apart j k b' c' hb' hc' (by rw [← hGenB, hGen, hGenC])
  · rw [hHold] at hb
    obtain ⟨c, hc, hGen, hDeadline, hInside⟩ := State.moved_old ha hStay hb
    rw [hGen, hDeadline, hGenSame, hDeadlineSame]
    exact h.current j c hc (hInside hne) (hDeadline ▸ hClock ▸ hTime)
  · rw [hClock]
    exact hArmed
  · rw [hClock]
    exact hOnce

/-- The invariant is kept by every step. -/
theorem State.Holds.step (h : s.Holds) (hStep : Step s s') : s'.Holds := by
  cases hStep with
  | @tick clock hClock hInTime =>
      refine ⟨h.gens, h.apart, fun i a ha hne hTime => h.current i a ha hne (hClock.trans_lt hTime),
        fun i a ha hArmed hTime => h.armed i a ha hArmed (hClock.trans_lt hTime), ?_⟩
      rcases h.once with hNone | ⟨hOne, hNoted | ⟨j, b, hb, hDone, -⟩⟩
      · exact .inl hNone
      · exact .inr ⟨hOne, .inl hNoted⟩
      · exact .inr ⟨hOne, .inr ⟨j, b, hb, hDone, hInTime j b hb hDone⟩⟩
  | @enter i deadline hFree hOver =>
      -- the leases before are all over
      have hLapsed : ∀ j b, s.hold j = some b → b.stage ≠ .leaving → ¬s.clock < b.deadline := fun j b hb hne hTime =>
        absurd ((h.current j b hb hne hTime).2 ▸ hTime) (not_lt.mpr hOver)
      have hCases : ∀ j b, Function.update s.hold i (some ⟨s.gen + 1, deadline, .entered⟩) j = some b →
          j = i ∧ b = ⟨s.gen + 1, deadline, .entered⟩ ∨ j ≠ i ∧ s.hold j = some b := by
        intro j b hb
        by_cases hj : j = i
        · subst hj
          rw [Function.update_self] at hb
          exact .inl ⟨rfl, (Option.some.inj hb).symm⟩
        · rw [Function.update_of_ne hj] at hb
          exact .inr ⟨hj, hb⟩
      refine ⟨fun j b hb => ?_, fun j k b c hb hc hGen => ?_, fun j b hb hne hTime => ?_, fun j b hb hArmed hTime => ?_, ?_⟩
      · rcases hCases j b hb with ⟨-, rfl⟩ | ⟨-, hOld⟩
        · exact Int.le_refl _
        · have hGen : b.gen ≤ s.gen := h.gens j b hOld
          show b.gen ≤ s.gen + 1
          omega
      · rcases hCases j b hb with ⟨rfl, rfl⟩ | ⟨-, hOldB⟩
        · rcases hCases k c hc with ⟨rfl, -⟩ | ⟨-, hOldC⟩
          · rfl
          · have hOld := h.gens k c hOldC
            have hNew : s.gen + 1 = c.gen := hGen
            omega
        · rcases hCases k c hc with ⟨rfl, rfl⟩ | ⟨-, hOldC⟩
          · have hOld := h.gens j b hOldB
            have hNew : b.gen = s.gen + 1 := hGen
            omega
          · exact h.apart j k b c hOldB hOldC hGen
      · rcases hCases j b hb with ⟨rfl, rfl⟩ | ⟨-, hOld⟩
        · exact ⟨rfl, rfl⟩
        · exact absurd hTime (hLapsed j b hOld hne)
      · rcases hCases j b hb with ⟨-, rfl⟩ | ⟨-, hOld⟩
        · cases hArmed
        · exact absurd hTime (hLapsed j b hOld (by simp [hArmed]))
      · rcases h.once with hNone | ⟨hOne, hNoted | ⟨j, b, hb, hDone, hTime⟩⟩
        · exact .inl hNone
        · exact .inr ⟨hOne, .inl hNoted⟩
        · exact absurd hTime (hLapsed j b hb (by simp [hDone]))
  | @arm i a ha hStage hNot =>
      refine h.move ha (by simp [hStage]) rfl ⟨rfl, rfl, rfl⟩ (fun j b hb hArmed hTime => ?_) ?_
      · by_cases hj : j = i
        · subst hj
          obtain rfl := Option.some.inj ((s.moved_self j a .armed).symm.trans hb)
          exact h.untouched ha hStage hNot hTime
        · exact h.armed j b ((s.moved_of_ne a .armed hj).symm.trans hb) hArmed hTime
      · rcases h.once with hNone | ⟨hOne, hNoted | ⟨j, b, hb, hDone, hTime⟩⟩
        · exact .inl hNone
        · exact .inr ⟨hOne, .inl hNoted⟩
        · have hj : j ≠ i := by
            rintro rfl
            rw [Option.mem_unique ha hb, hDone] at hStage
            cases hStage
          exact .inr ⟨hOne, .inr ⟨j, b, (s.moved_of_ne a .armed hj).trans hb, hDone, hTime⟩⟩
  | @turn i a ha hStage =>
      refine h.move ha (fun _ => rfl) rfl ⟨rfl, rfl, rfl⟩ (fun j b hb hArmed hTime => ?_) ?_
      · by_cases hj : j = i
        · subst hj
          obtain rfl := Option.some.inj ((s.moved_self j a .leaving).symm.trans hb)
          cases hArmed
        · exact h.armed j b ((s.moved_of_ne a .leaving hj).symm.trans hb) hArmed hTime
      · rcases h.once with hNone | ⟨hOne, hNoted | ⟨j, b, hb, hDone, hTime⟩⟩
        · exact .inl hNone
        · exact .inr ⟨hOne, .inl hNoted⟩
        · have hj : j ≠ i := by
            rintro rfl
            exact hStage (Option.mem_unique ha hb ▸ hDone)
          exact .inr ⟨hOne, .inr ⟨j, b, (s.moved_of_ne a .leaving hj).trans hb, hDone, hTime⟩⟩
  | @complete i a ha hStage hInTime =>
      have hNone : s.completed = 0 := h.armed i a ha hStage hInTime
      refine h.move ha (by simp [hStage]) rfl ⟨rfl, rfl, rfl⟩ (fun j b hb hArmed hTime => ?_) ?_
      · exfalso
        by_cases hj : j = i
        · subst hj
          obtain rfl := Option.some.inj ((s.moved_self j a .done).symm.trans hb)
          cases hArmed
        · have hOld := (s.moved_of_ne a .done hj).symm.trans hb
          exact hj (h.alone hOld ha (by simp [hArmed, hStage]) ⟨hTime, hInTime⟩)
      · exact .inr ⟨by rw [hNone], .inr ⟨i, _, s.moved_self i a .done, rfl, hInTime⟩⟩
  | @note i a ha hStage =>
      refine h.move ha (fun _ => rfl) rfl ⟨rfl, rfl, rfl⟩ (fun j b hb hArmed hTime => ?_) ?_
      · by_cases hj : j = i
        · subst hj
          obtain rfl := Option.some.inj ((s.moved_self j a .leaving).symm.trans hb)
          cases hArmed
        · exact h.armed j b ((s.moved_of_ne a .leaving hj).symm.trans hb) hArmed hTime
      · exact h.once.imp id fun hOne => ⟨hOne.1, .inl rfl⟩
  | @leave i a deadline ha hStage hDeadline =>
      have hOld : ∀ j b, Function.update s.hold i none j = some b → j ≠ i ∧ s.hold j = some b := by
        intro j b hb
        by_cases hj : j = i
        · subst hj
          rw [Function.update_self] at hb
          cases hb
        · rw [Function.update_of_ne hj] at hb
          exact ⟨hj, hb⟩
      refine ⟨fun j b hb => h.gens j b (hOld j b hb).2,
        fun j k b c hb hc => h.apart j k b c (hOld j b hb).2 (hOld k c hc).2, fun j b hb hne hTime => ?_,
        fun j b hb => h.armed j b (hOld j b hb).2, ?_⟩
      · obtain ⟨hj, hb⟩ := hOld j b hb
        obtain ⟨hGen, hSame⟩ := h.current j b hb hne hTime
        refine ⟨hGen, hSame.trans (hDeadline fun hEq => ?_).symm⟩
        exact hj (h.apart j i b a hb ha (hGen.trans hEq))
      · rcases h.once with hNone | ⟨hOne, hNoted | ⟨j, b, hb, hDone, hTime⟩⟩
        · exact .inl hNone
        · exact .inr ⟨hOne, .inl hNoted⟩
        · have hj : j ≠ i := by
            rintro rfl
            rw [Option.mem_unique ha hb, hDone] at hStage
            cases hStage
          refine .inr ⟨hOne, .inr ⟨j, b, ?_, hDone, hTime⟩⟩
          exact (Function.update_of_ne hj none s.hold).trans hb

end Fenced
