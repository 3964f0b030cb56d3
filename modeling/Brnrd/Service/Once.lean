import Brnrd.Service.Effects

/-! The effect of a reply runs behind the send's lease and note as a fenced section,
so it completes once while its leases last. -/
namespace Brnrd.Service

open Python Facts Leases

variable {host : Host} {floats : Floats}

/-- The section of the reply's send. -/
def World.section (w : World) : Fenced.State Nat ℚ where
  clock := w.clock
  gen := w.sendRow.gen
  deadline := w.sendRow.heldUntil
  noted := w.sends.any fun f => f.kind = "sent"
  completed := w.completed
  hold := fun i => (w.calls[i]?).bind fun call => call.point.hold

/-- A call that moves changes its own place only. -/
theorem hold_set {calls : List Call} {i : Nat} {call : Call} (hCall : calls[i]? = some call) (point : Point) :
    (fun j => ((calls.set i { call with point := point })[j]?).bind fun c => c.point.hold) =
      Function.update (fun j => (calls[j]?).bind fun c => c.point.hold) i point.hold := by
  obtain ⟨hLength, -⟩ := List.getElem?_eq_some_iff.mp hCall
  funext j
  by_cases hj : j = i
  · subst hj
    rw [List.getElem?_set_self hLength, Function.update_self]
    rfl
  · rw [List.getElem?_set_ne (Ne.symm hj), Function.update_of_ne hj]

/-- A holder that does not have the lease takes it only behind its end. -/
theorem acquire_taken {row row' : Row} {now : ℚ} {what holder : String} {ttl : ℚ} {lease : Lease}
    (h : acquire row now what holder ttl none none none = .ok (row', some lease)) (hOther : holder ≠ row.holder) :
    row.heldUntil ≤ now ∧ row'.gen = row.gen + 1 ∧ lease.gen = row'.gen ∧ lease.heldUntil = row'.heldUntil := by
  dsimp only [acquire] at h
  split at h
  · cases h
  split at h
  · cases h
  have hAction := locked_eq_ok h
  split at hAction
  · cases hAction
  · rename_i hFree
    have hOver : row.heldUntil ≤ now := by
      by_contra hLive
      exact hFree ⟨not_le.mp hLive, fun hSame => hOther hSame.symm⟩
    obtain ⟨rfl, hLease⟩ := Prod.mk.inj hAction
    obtain rfl := Option.some.inj hLease
    have hNot : ¬(now < row.heldUntil ∧ row.holder = holder) := fun hLive => absurd hLive.1 (not_lt.mpr hOver)
    rw [if_neg hNot]
    exact ⟨hOver, rfl, rfl, rfl⟩

/-- A lease that is let go ends where it is the row's. -/
theorem freed_gen {row row' : Row} {now : ℚ} {lease : Lease} (h : freed row now lease = some row') :
    row'.gen = row.gen ∧ (row.gen ≠ lease.gen → row'.heldUntil = row.heldUntil) := by
  obtain ⟨⟨row'', yes⟩, hRelease, rfl⟩ := Option.map_eq_some_iff.mp h
  cases hRow : Leases.release row now lease with
  | error e => simp [hRow, Except.toOption] at hRelease
  | ok result =>
      rw [hRow] at hRelease
      obtain rfl := Option.some.inj hRelease
      have hAction := locked_eq_ok hRow
      split at hAction
      · rename_i hValid
        obtain ⟨rfl, -⟩ := Prod.mk.inj hAction
        exact ⟨rfl, fun hOther => absurd (Row.valid_iff.mp hValid).1 hOther⟩
      · obtain ⟨rfl, -⟩ := Prod.mk.inj hAction
        exact ⟨rfl, fun _ => rfl⟩

/-- The world behind a transaction, its call moved. -/
def World.moved (w w' : World) (i : Nat) (call : Call) (point : Point) : World :=
  { w' with calls := w.calls.set i { call with point := point } }

variable {w start : World}

/-- Every effect is a step through the section, or none. -/
theorem Effect.section {w' : World} {i : Nat} {call : Call} {input : Input} {point : Point}
    (h : Effect host floats w call input w' point) (hCall : w.calls[i]? = some call) (hHolds : w.Holds)
    (hReal : (Step.advance i input).Real w) (hInTime : (Step.advance i input).InTime w) :
    (w.moved w' i call point).section = w.section ∨ Fenced.Step w.section (w.moved w' i call point).section := by
  obtain ⟨-, hFreshSend, hHolder⟩ := hReal
  have hHold : w.section.hold i = call.point.hold := by
    simp only [World.section, hCall, Option.bind_some]
  have hSet := hold_set hCall point
  -- a call whose place in the section stays leaves the section as it is
  have hStay : point.hold = call.point.hold →
      (fun j => ((w.calls.set i { call with point := point })[j]?).bind fun c => c.point.hold) = w.section.hold := by
    intro hSame
    rw [hSet, hSame, ← hHold]
    exact Function.update_eq_self i _
  cases h with
  | outside hFrom hTo =>
      left
      simp only [World.moved, World.section] at hStay ⊢
      rw [hStay (hTo.trans hFrom.symm)]
  | recorded hRecord hFrom hTo =>
      left
      simp only [World.moved, World.section] at hStay ⊢
      rw [hStay (hTo.trans hFrom.symm)]
  | granted hLog hFrom =>
      left
      simp only [World.moved, World.section] at hStay ⊢
      rw [hStay hFrom.symm]
  | @entered r row lease hPoint hAcquire =>
      right
      obtain ⟨hOver, hGen, hLeaseGen, hLease⟩ := acquire_taken hAcquire hHolder
      have hStep : Fenced.Step w.section _ := @Fenced.Step.enter _ _ _ _ _ i row.heldUntil (by rw [hHold, hPoint]; rfl) hOver
      have hPlace : (Point.priorAgain r lease).hold = some ⟨w.sendRow.gen + 1, row.heldUntil, .entered⟩ := by
        rw [Point.hold, hLeaseGen, hGen, hLease]
      rw [hPlace] at hSet
      simp only [World.moved, World.section, hSet, hGen]
      exact hStep
  | @armed r send sends hPoint hRead hNone =>
      right
      obtain rfl := Option.some.inj (hHolds.sends.read.symm.trans hRead)
      have hNot : ¬w.section.noted = true := by
        simp only [World.section, List.any_eq_true, not_exists, not_and]
        intro f hf hSent
        have hMem : f ∈ sentFacts w.sends := List.mem_filter.mpr ⟨hf, hSent⟩
        rw [hNone] at hMem
        cases hMem
      have hPlace : w.section.hold i = some ⟨send.gen, send.heldUntil, .entered⟩ := by
        rw [hHold, hPoint]
        rfl
      have hStep := Fenced.Step.arm hPlace rfl hNot
      simp only [World.moved, World.section, hSet]
      exact hStep
  | @turned r send receipt stage hFrom hStage =>
      right
      have hStep := Fenced.Step.turn (hHold.trans hFrom) (by rcases hStage with rfl | rfl <;> simp)
      simp only [World.moved, World.section, hSet]
      exact hStep
  | @intended r send log by_ data hPoint hRecord =>
      left
      obtain ⟨f, hKind, rfl, -⟩ := hHolds.sends.recorded hFreshSend hRecord
      simp only [World.moved, World.section] at hStay ⊢
      rw [hStay (by rw [hPoint]; rfl), List.any_append]
      simp [hKind]
  | @rechecked r send hPoint =>
      left
      simp only [World.moved, World.section] at hStay ⊢
      rw [hStay (by rw [hPoint]; rfl)]
  | @completed r send receipt _ hPoint hOutcome hTo =>
      right
      obtain ⟨hSome, hTime⟩ := hInTime call r send hCall hPoint receipt hOutcome
      obtain ⟨value, rfl⟩ := Option.isSome_iff_exists.mp hSome
      obtain rfl := hTo value rfl
      have hPlace : w.section.hold i = some ⟨send.gen, send.heldUntil, .armed⟩ := by
        rw [hHold, hPoint]
        rfl
      have hStep := Fenced.Step.complete hPlace rfl hTime
      simp only [World.moved, World.section, hSet]
      exact hStep
  | @noted r send receipt log by_ data hPoint hRecord =>
      right
      obtain ⟨f, hKind, rfl, -⟩ := hHolds.sends.recorded hFreshSend hRecord
      have hPlace : w.section.hold i = some ⟨send.gen, send.heldUntil, .done⟩ := by
        rw [hHold, hPoint]
        rfl
      have hStep := Fenced.Step.note hPlace rfl
      have hNoted : (w.sends ++ [f]).any (fun f => f.kind = "sent") = true := by simp [hKind]
      simp only [World.moved, World.section, hSet, hNoted]
      exact hStep
  | @unnoted r send receipt by_ data hPoint hRecord =>
      obtain ⟨f, -, -, hSome, -⟩ := @InOrder.record host _ hHolds.sends _ hFreshSend "sent" by_ data
      rw [hSome] at hRecord
      cases hRecord
  | @settled r send receipt row _ hPoint hFreed hTo =>
      right
      obtain ⟨hGen, hKept⟩ := freed_gen hFreed
      have hPlace : w.section.hold i = some ⟨send.gen, send.heldUntil, .leaving⟩ := by
        rw [hHold, hPoint]
        rfl
      have hStep := @Fenced.Step.leave _ _ _ _ _ _ _ row.heldUntil hPlace rfl hKept
      rw [hTo] at hSet
      simp only [World.moved, World.section, hSet, hGen]
      exact hStep

/-- A call that begins is not in the section. -/
theorem World.begin_section (w : World) {point : Point} (hHold : point.hold = none) : (w.begin point).section = w.section := by
  have hSame : (fun j => ((w.calls ++ [⟨point, w.facts⟩])[j]?).bind fun c => c.point.hold) = w.section.hold := by
    funext j
    simp only [World.section]
    by_cases hj : j < w.calls.length
    · rw [List.getElem?_append_left hj]
    · rw [List.getElem?_append_right (not_lt.mp hj), List.getElem?_eq_none (not_lt.mp hj)]
      cases hIndex : j - w.calls.length with
      | zero => simp [hHold]
      | succ k => rfl
  simp only [World.begin, World.section] at hSame ⊢
  rw [hSame]

theorem World.advance_section {i : Nat} {input : Input} (hHolds : w.Holds) (hReal : (Step.advance i input).Real w)
    (hInTime : (Step.advance i input).InTime w) :
    (w.advance host floats i input).section = w.section ∨
      Fenced.Step w.section (w.advance host floats i input).section := by
  unfold World.advance
  split
  · exact .inl rfl
  · rename_i call hCall
    split
    · rename_i hRaised
      have hSet := hold_set hCall .over
      have hHold : w.section.hold i = call.point.hold := by
        simp only [World.section, hCall, Option.bind_some]
      cases hPoint : call.point.hold with
      | none =>
          left
          have hSame : Function.update w.section.hold i (Point.hold .over) = w.section.hold := by
            rw [show Point.hold .over = w.section.hold i by rw [hHold, hPoint]; rfl]
            exact Function.update_eq_self i _
          simp only [World.section] at hSame ⊢
          rw [hSet, hSame]
      | some hold =>
          right
          have hStep := @Fenced.Step.leave _ _ _ _ _ _ _ w.section.deadline (hHold.trans hPoint)
            (transact_eq_none hRaised hPoint) fun _ => rfl
          simp only [World.section, hSet]
          exact hStep
    · rename_i w' point hTransact
      have hCalls := ((transact_effect hTransact).frame hHolds.facts hHolds.sends hReal.1 hReal.2.1).calls
      exact (transact_effect hTransact).section hCall hHolds hReal hInTime

/-- The section lemma: each step of the service is a step through it, or none. -/
theorem Step.section {step : Step} (hHolds : w.Holds) (hReal : step.Real w) (hInTime : step.InTime w) :
    (step.apply host floats w).section = w.section ∨ Fenced.Step w.section (step.apply host floats w).section := by
  cases step with
  | tick clock =>
      refine .inr (.tick hReal fun i hold hHold => ?_)
      obtain ⟨call, hCall, hPoint⟩ := Option.bind_eq_some_iff.mp hHold
      exact hInTime call (List.mem_of_getElem? hCall) hold hPoint
  | claim => exact .inl (w.begin_section rfl)
  | answer => exact .inl (w.begin_section rfl)
  | retire => exact .inl (w.begin_section rfl)
  | release => exact .inl (w.begin_section rfl)
  | advance i input => exact World.advance_section hHolds hReal hInTime

theorem World.Fresh.section (h : w.Fresh) : w.section.Holds where
  gens := by simp [World.section, h.calls]
  apart := by simp [World.section, h.calls]
  current := by simp [World.section, h.calls]
  armed := by simp [World.section, h.calls]
  once := .inl h.completed

theorem World.Run.section (h : World.Run host floats (fun w step => step.InTime w) start w) (hStart : start.Fresh) :
    w.section.Holds := by
  induction h with
  | refl => exact hStart.section
  | step prior step hReal hCond ih =>
      rcases Step.section (prior.holds hStart.holds) hReal hCond with hSame | hStep
      · rw [hSame]
        exact ih
      · exact ih.step hStep

/-- A letter is settled once, in every run of the service's calls. The claims that
pass the lease check at one instant have one holder and one generation; a claim that
begins at the end of its letter is not granted; the end of a letter stays; and the
reply's effect completes at most once where it does so, and is noted, in time. -/
theorem settled_once {start w : World} (hStart : start.Fresh) (h : World.Run host floats (fun _ _ => True) start w) :
    (∀ g ∈ w.granted, ∀ g' ∈ w.granted, authorized w.row w.clock g.claim.lease = some true →
      authorized w.row w.clock g'.claim.lease = some true →
      g.claim.lease.holder = g'.claim.lease.holder ∧ g.claim.lease.gen = g'.claim.lease.gen) ∧
    (∀ g ∈ w.granted, ¬Terminal g.began) ∧
    (∀ now letter, stateOf host floats w.facts now = some (some letter) → letter.state.terminal = true →
      ∀ w', World.Run host floats (fun _ _ => True) w w' → ∀ now', ∃ letter',
        stateOf host floats w'.facts now' = some (some letter') ∧ letter'.plain = letter.plain) ∧
    (World.Run host floats (fun w step => step.InTime w) start w → w.completed ≤ 1) := by
  have hHolds := h.holds hStart.holds
  refine ⟨?_, hHolds.granted, ?_, fun hInTime => (hInTime.section hStart).completed_le_one⟩
  · intro g _ g' _ hPass hPass'
    have hValid : ∀ {lease : Lease}, authorized w.row w.clock lease = some true → w.row.valid lease w.clock = true := by
      intro lease hTrue
      obtain ⟨⟨row, yes⟩, hAuthorize, rfl⟩ := Option.map_eq_some_iff.mp hTrue
      cases hRow : authorize w.row w.clock lease with
      | error e => simp [hRow, Except.toOption] at hAuthorize
      | ok result =>
          rw [hRow] at hAuthorize
          obtain rfl := Option.some.inj hAuthorize
          exact (authorize_spec hRow).2
    obtain ⟨hGen, hHolder, -⟩ := Row.valid_iff.mp (hValid hPass)
    obtain ⟨hGen', hHolder', -⟩ := Row.valid_iff.mp (hValid hPass')
    exact ⟨hHolder.symm.trans hHolder', hGen.symm.trans hGen'⟩
  · intro now letter hState hTerminal w' hLater now'
    have hFold : foldFacts w.facts = some letter := by
      simp only [stateOf, foldLetter, hHolds.facts.read, Option.bind_eq_bind, Option.bind_some] at hState
      split at hState
      · split at hState
        · obtain ⟨heldUntil, -, hEq⟩ := Option.bind_eq_some_iff.mp hState
          split at hEq
          · obtain rfl := Option.some.inj (Option.some.inj hEq)
            cases hTerminal
          · exact Option.some.inj hEq
        · exact Option.some.inj hState
      · exact Option.some.inj hState
    obtain ⟨later, hGrown⟩ := hLater.grows hHolds
    obtain ⟨letter', hFold', hSame⟩ := foldFacts_terminal hFold hTerminal later
    have hState' : letter'.plain.state = letter.plain.state := congrArg Letter.state hSame
    have hEnd : letter'.state.terminal = true := (congrArg LetterState.terminal hState').trans hTerminal
    exact ⟨letter', stateOf_terminal (hLater.holds hHolds).facts (hGrown ▸ hFold') hEnd now', hSame⟩

/-- Steps each of which can happen where it is taken. -/
def Follows (host : Host) (floats : Floats) : World → List Step → Prop
  | _, [] => True
  | w, step :: rest => step.Real w ∧ Follows host floats (step.apply host floats w) rest

theorem Follows.run {steps : List Step} (h : Follows host floats w steps)
    (hRun : World.Run host floats (fun _ _ => True) start w) :
    World.Run host floats (fun _ _ => True) start (steps.foldl (Step.apply host floats) w) := by
  induction steps generalizing w with
  | nil => exact hRun
  | cons step rest ih =>
      obtain ⟨hReal, hRest⟩ := h
      exact ih hRest (hRun.step step hReal trivial)

instance (w : World) (step : Step) : Decidable (step.Real w) := by
  cases step <;> unfold Step.Real <;> infer_instance

instance decidableFollows : (w : World) → (steps : List Step) → Decidable (Follows host floats w steps)
  | _, [] => isTrue trivial
  | w, step :: rest =>
      @instDecidableAnd _ _ inferInstance (decidableFollows (step.apply host floats w) rest)

/-- Floats without a fraction. -/
def wholeFloats : Floats where
  read := fun value => match value with
    | .int n => some n
    | .float _ trunc => trunc.map fun n => (n : ℚ)
    | _ => none
  value := fun q => .float (toString q.num ++ ".0") (some q.num)

def sampleStart : World :=
  ⟨"l", 0, Row.missing, Row.missing, [], [], [], [], 0⟩

theorem sampleStart_fresh : sampleStart.Fresh :=
  ⟨.nil, .nil, rfl, rfl, rfl⟩

def sampleInput (k : Nat) : Input :=
  ⟨k, "", "f" ++ toString k, "h" ++ toString k, some (some (.str "ok"))⟩

/-- The next `count` transactions of a call. -/
def turns (call first count : Nat) : List Step :=
  (List.range count).map fun k => .advance call (sampleInput (first + k))

def adaClaim : Claim := ⟨"l", ⟨"letter:l", "ada", 1, 10, []⟩⟩

def bobClaim : Claim := ⟨"l", ⟨"letter:l", "bob", 2, 311, []⟩⟩

/-- A claim of a new letter, and its answer. -/
def answeredOnce : List Step :=
  .claim "ada" 10 none none :: turns 0 0 6 ++ .answer adaClaim (.str "yes") :: turns 1 10 13

/-- The first holder stands before its effect when both leases run out; the next one
claims, answers up to its receipt, and claims again; then the first effect completes. -/
def answeredTwice : List Step :=
  .claim "ada" 10 none none :: turns 0 0 6 ++ .answer adaClaim (.str "yes") :: turns 1 10 8 ++
    .tick 301 :: .claim "bob" 10 none none :: turns 2 20 5 ++ .answer bobClaim (.str "no") :: turns 3 30 9 ++
    .claim "bob" 20 none none :: turns 4 40 3 ++ turns 1 50 1

theorem settled_once_answered :
    let w := answeredOnce.foldl (Step.apply bareHost wholeFloats) sampleStart
    w.completed = 1 ∧ ∀ now letter, stateOf bareHost wholeFloats w.facts now = some (some letter) →
      letter.state.terminal = true → ∀ w', World.Run bareHost wholeFloats (fun _ _ => True) w w' → ∀ now', ∃ letter',
        stateOf bareHost wholeFloats w'.facts now' = some (some letter') ∧ letter'.plain = letter.plain := by
  have hFollows : Follows bareHost wholeFloats sampleStart answeredOnce := by decide +kernel
  exact ⟨by decide +kernel, (settled_once sampleStart_fresh (hFollows.run (.refl _))).2.2.1⟩

/-- The send's lease does not outlast a slow effect, and a holder may claim twice. -/
theorem settled_twice : ∃ w, World.Run bareHost wholeFloats (fun _ _ => True) sampleStart w ∧ w.completed = 2 ∧
    ∃ g ∈ w.granted, ∃ g' ∈ w.granted, g.claim ≠ g'.claim ∧ authorized w.row w.clock g.claim.lease = some true ∧
      authorized w.row w.clock g'.claim.lease = some true := by
  have hFollows : Follows bareHost wholeFloats sampleStart answeredTwice := by decide +kernel
  exact ⟨_, hFollows.run (.refl _), by decide +kernel, by decide +kernel⟩

end Brnrd.Service
