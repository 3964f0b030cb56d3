import Brnrd.Leases.Once

/-! How often an effect completes: once, over every run in which a call that completes it
records its receipt before its claim has run out. -/
namespace Brnrd.Leases.Once

universe u

variable {R : Type u} {again : R → R} {key : String} {w next moved : World R} {lease : Lease} {input : Input R}
  {point point' : Point R}

/-- The claim under which a call is on its way to the effect, or in it. -/
def Point.pending : Point R → Option Lease
  | .intend send | .recheck send | .effect send | .running send _ => some send
  | _ => none

/-- The claim and the receipt of an effect that has completed and is not recorded yet. -/
def Point.sending : Point R → Option (Lease × R)
  | .sent send receipt => some (send, receipt)
  | _ => none

/-- The claim of a call whose effect completes now. -/
def Point.completing : Point R → Option R → Option Lease
  | .running send _, some _ => some send
  | _, _ => none

def Point.since : Point R → Option ℚ≥0
  | .running _ since => some since
  | _ => none

/-- The receipt that a call returns. -/
def Point.receipt : Point R → Option R
  | .settle _ (.returned receipt) | .over (.returned receipt) => some receipt
  | _ => none

/-- No effect takes as long as a claim is good for. -/
def Brief (w : World R) : Action R → Prop
  | .advance i _ => ∀ call ∈ w.calls[i]?, ∀ since ∈ call.point.since, w.now < since + 300
  | _ => True

/-- No effect completes, and no completed one waits for its receipt to be recorded, when the
claim has run out. -/
def Timely (w : World R) : Action R → Prop
  | .advance i input => ∀ call ∈ w.calls[i]?, ∀ send ∈ call.point.completing input.outcome, w.now < send.heldUntil
  | .tick now => ∀ call ∈ w.calls, ∀ sending ∈ call.point.sending, now < sending.1.heldUntil
  | _ => True

instance (w : World R) : (action : Action R) → Decidable (Brief w action)
  | .advance i _ => inferInstanceAs (Decidable (∀ call ∈ w.calls[i]?, ∀ since ∈ call.point.since, w.now < since + 300))
  | .call _ | .tick _ | .seat _ _ => inferInstanceAs (Decidable True)

instance (w : World R) : (action : Action R) → Decidable (Timely w action)
  | .advance i input => inferInstanceAs
      (Decidable (∀ call ∈ w.calls[i]?, ∀ send ∈ call.point.completing input.outcome, w.now < send.heldUntil))
  | .tick now => inferInstanceAs (Decidable (∀ call ∈ w.calls, ∀ sending ∈ call.point.sending, now < sending.1.heldUntil))
  | .call _ | .seat _ _ => inferInstanceAs (Decidable True)

/-- What a transaction does to the receipts: nothing but to read one, to complete the effect,
or to record its receipt. -/
inductive Tells (again : R → R) (w next : World R) (outcome : Option R) : Point R → Point R → Prop where
  | quiet {point point' : Point R} (hCompleted : next.completed = w.completed) (hReceipts : next.receipts = w.receipts)
      (hBefore : point.sending = none) (hSending : point'.sending = none)
      (hReceipt : ∀ r, point'.receipt = some r → point.receipt = some r ∨ w.prior = some r)
      (hPending : ∀ send, point'.pending = some send → point.pending = some send ∨ w.prior = none) :
      Tells again w next outcome point point'
  | completes {send : Lease} {since : ℚ≥0} {r : R} (hOutcome : outcome = some r) (hCompleted : next.completed = w.completed ++ [r])
      (hReceipts : next.receipts = w.receipts) : Tells again w next outcome (.running send since) (.sent send r)
  | records {send : Lease} {r : R} (hCompleted : next.completed = w.completed)
      (hReceipts : next.receipts = w.receipts ++ [again r]) :
      Tells again w next outcome (.sent send r) (.settle send (.returned r))

theorem transact_tells (h : w.transact again key lease input point = some (next, point')) :
    Tells again w next input.outcome point point' := by
  cases point with
  | enter =>
      simp only [World.transact] at h
      split at h
      · cases h
        exact .quiet rfl rfl rfl rfl (by simp [Point.receipt]) (by simp [Point.pending])
      · split at h
        · cases h
          exact .quiet rfl rfl rfl rfl (by simp [Point.receipt]) (by simp [Point.pending])
        · rename_i yes _
          cases h
          cases yes <;> exact .quiet rfl rfl rfl rfl (by simp [Point.receipt]) (by simp [Point.pending])
  | prior =>
      simp only [World.transact] at h
      split at h
      · rename_i r hPrior
        cases h
        exact .quiet rfl rfl rfl rfl (by simp [Point.receipt, hPrior]) (by simp [Point.pending])
      · cases h
        exact .quiet rfl rfl rfl rfl (by simp [Point.receipt]) (by simp [Point.pending])
  | sendLease =>
      simp only [World.transact] at h
      split at h
      · cases h
      · split at h <;> cases h <;> exact .quiet rfl rfl rfl rfl (by simp [Point.receipt]) (by simp [Point.pending])
  | priorAgain send =>
      simp only [World.transact] at h
      split at h
      · rename_i r hPrior
        cases h
        exact .quiet rfl rfl rfl rfl (by simp [Point.receipt, hPrior]) (by simp [Point.pending])
      · rename_i hPrior
        cases h
        exact .quiet rfl rfl rfl rfl (by simp [Point.receipt]) fun _ _ => .inr hPrior
  | intend send =>
      cases h
      exact .quiet rfl (by simp [World.receipts, Record.receipt]) rfl rfl (by simp [Point.receipt]) (by simp [Point.pending])
  | recheck send =>
      simp only [World.transact] at h
      split at h
      · cases h
        exact .quiet rfl rfl rfl rfl (by simp [Point.receipt]) (by simp [Point.pending])
      · rename_i yes _
        cases h
        cases yes <;> exact .quiet rfl rfl rfl rfl (by simp [Point.receipt]) (by simp [Point.pending])
  | effect send =>
      cases h
      exact .quiet rfl rfl rfl rfl (by simp [Point.receipt]) (by simp [Point.pending])
  | running send since =>
      simp only [World.transact] at h
      split at h
      · cases h
        exact .quiet rfl rfl rfl rfl (by simp [Point.receipt]) (by simp [Point.pending])
      · rename_i r hOutcome
        cases h
        exact .completes hOutcome rfl rfl
  | sent send r =>
      cases h
      exact .records rfl (by simp [World.receipts, Record.receipt])
  | settle send outcome =>
      simp only [World.transact] at h
      split at h
      · cases h
        exact .quiet rfl rfl rfl rfl (by simp [Point.receipt]) (by simp [Point.pending])
      · cases h
        exact .quiet rfl rfl rfl rfl (by cases outcome <;> simp [Point.receipt]) (by simp [Point.pending])
  | «over» outcome => cases h


variable {send : Lease}

theorem claim_of_pending (h : point.pending = some send) : point.claim = some send := by
  cases point <;> first | exact h | cases h

theorem claim_of_sending {r : R} (h : point.sending = some (send, r)) : point.claim = some send := by
  cases point <;> cases h
  rfl

/-- How far the key has come: no effect has completed; one has, and its call is about to
record it under a claim that has not run out; or its receipt is recorded, and whoever is still
on the way to the effect has a claim that has run out. -/
inductive World.Stage (again : R → R) (w : World R) : Prop where
  | fresh (hCompleted : w.completed = []) (hReceipts : w.receipts = [])
      (hCalls : ∀ (i : ℕ) (call : Call R), w.calls[i]? = some call → call.point.sending = none ∧ call.point.receipt = none)
  | completed {i : ℕ} {call : Call R} {send : Lease} {r : R} (hCompleted : w.completed = [r]) (hReceipts : w.receipts = [])
      (hCall : w.calls[i]? = some call) (hSending : call.point.sending = some (send, r)) (hLive : w.now < send.heldUntil)
      (hCalls : ∀ (j : ℕ) (other : Call R), w.calls[j]? = some other → other.point.receipt = none ∧ (j ≠ i → other.point.sending = none))
  | recorded {r : R} (hCompleted : w.completed = [r]) (hReceipts : w.receipts = [again r])
      (hCalls : ∀ (i : ℕ) (call : Call R), w.calls[i]? = some call → call.point.sending = none ∧
        (∀ send : Lease, call.point.pending = some send → send.heldUntil ≤ w.now) ∧
        ∀ s, call.point.receipt = some s → s = r ∨ s = again r)

theorem World.Stage.advance (h : w.Stage again) (hSeated : w.Seated key) {i : ℕ} (hCall : w.calls[i]? = some ⟨lease, point⟩)
    (hTimely : ∀ send ∈ point.completing input.outcome, w.now < send.heldUntil)
    (hTurn : w.transact again key lease input point = some (moved, point')) : (moved.behind i ⟨lease, point'⟩).Stage again := by
  obtain ⟨⟨hNow, hMoved⟩, -⟩ := transact_turns hTurn
  have hi : i < moved.calls.length := hMoved ▸ (List.getElem?_eq_some_iff.mp hCall).1
  have hBehind : ∀ {j other}, (moved.behind i ⟨lease, point'⟩).calls[j]? = some other →
      j = i ∧ other = ⟨lease, point'⟩ ∨ j ≠ i ∧ w.calls[j]? = some other := fun hOther =>
    hMoved ▸ (World.behind_calls hi).mp hOther
  have hNow' : (moved.behind i ⟨lease, point'⟩).now = w.now := hNow
  have hCompleted' : (moved.behind i ⟨lease, point'⟩).completed = moved.completed := rfl
  have hReceipts' : (moved.behind i ⟨lease, point'⟩).receipts = moved.receipts := rfl
  have hPrior : w.prior = w.receipts.head? := rfl
  have hTells := transact_tells hTurn
  cases h with
  | fresh hCompleted hReceipts hCalls =>
      obtain ⟨hSending, hReceipt⟩ := hCalls i _ hCall
      cases hTells with
      | quiet hCompleted'' hReceipts'' hBefore hAfter hReceipt' hPending =>
          refine .fresh (by rw [hCompleted', hCompleted'', hCompleted]) (by rw [hReceipts', hReceipts'', hReceipts]) ?_
          intro j other hOther
          rcases hBehind hOther with ⟨-, rfl⟩ | ⟨-, hOther⟩
          · refine ⟨hAfter, Option.eq_none_iff_forall_ne_some.mpr fun r hr => ?_⟩
            rcases hReceipt' r hr with hOld | hRead
            · rw [hReceipt] at hOld
              cases hOld
            · rw [hPrior, hReceipts] at hRead
              cases hRead
          · exact hCalls j other hOther
      | @completes send since r hOutcome hCompleted'' hReceipts'' =>
          have hHere : (moved.behind i ⟨lease, .sent send r⟩).calls[i]? = some ⟨lease, .sent send r⟩ :=
            (World.behind_calls hi).mpr (.inl ⟨rfl, rfl⟩)
          refine .completed ?_ ?_ hHere rfl ?_ ?_
          · rw [hCompleted', hCompleted'', hCompleted]
            rfl
          · rw [hReceipts', hReceipts'', hReceipts]
          · rw [hNow']
            exact hTimely send (by simp [Point.completing, hOutcome])
          · intro j other hOther
            rcases hBehind hOther with ⟨rfl, rfl⟩ | ⟨-, hOther⟩
            · exact ⟨rfl, fun hj => (hj rfl).elim⟩
            · exact ⟨(hCalls j other hOther).2, fun _ => (hCalls j other hOther).1⟩
      | records hCompleted'' hReceipts'' => cases hSending
  | @completed i₀ call₀ send₀ r hCompleted hReceipts hCall₀ hSending₀ hLive hCalls =>
      have hClaim₀ : w.Claims i₀ send₀ := ⟨call₀, hCall₀, claim_of_sending hSending₀⟩
      have hReceipt := (hCalls i _ hCall).1
      cases hTells with
      | quiet hCompleted'' hReceipts'' hBefore hAfter hReceipt' hPending =>
          have hOther : i₀ ≠ i := by
            rintro rfl
            obtain rfl := Option.mem_unique hCall hCall₀
            rw [hBefore] at hSending₀
            cases hSending₀
          have hThere : (moved.behind i ⟨lease, point'⟩).calls[i₀]? = some call₀ :=
            (World.behind_calls hi).mpr (.inr ⟨hOther, hMoved ▸ hCall₀⟩)
          refine .completed ?_ ?_ hThere hSending₀ (hNow'.symm ▸ hLive) ?_
          · rw [hCompleted', hCompleted'', hCompleted]
          · rw [hReceipts', hReceipts'', hReceipts]
          · intro j other hj
            rcases hBehind hj with ⟨-, rfl⟩ | ⟨-, hj⟩
            · refine ⟨Option.eq_none_iff_forall_ne_some.mpr fun s hs => ?_, fun _ => hAfter⟩
              rcases hReceipt' s hs with hOld | hRead
              · rw [hReceipt] at hOld
                cases hOld
              · rw [hPrior, hReceipts] at hRead
                cases hRead
            · exact hCalls j other hj
      | @completes send since r' hOutcome hCompleted'' hReceipts'' =>
          -- two claims that have both not run out
          have hOther : i₀ ≠ i := by
            rintro rfl
            obtain rfl := Option.mem_unique hCall hCall₀
            cases hSending₀
          have hRun := hSeated.alone hClaim₀ ⟨_, hCall, rfl⟩ hLive hOther
          exact absurd (hTimely send (by simp [Point.completing, hOutcome])) (not_lt.mpr hRun)
      | @records send r' hCompleted'' hReceipts'' =>
          have hSame : i = i₀ := by
            by_contra hOther
            have hNone := (hCalls i _ hCall).2 hOther
            cases hNone
          subst hSame
          obtain rfl := Option.mem_unique hCall hCall₀
          obtain ⟨rfl, rfl⟩ := Prod.mk.inj (Option.some.inj hSending₀)
          refine .recorded (by rw [hCompleted', hCompleted'', hCompleted]) (by rw [hReceipts', hReceipts'', hReceipts]; rfl) ?_
          intro j other hj
          rcases hBehind hj with ⟨-, rfl⟩ | ⟨hOther, hj⟩
          · exact ⟨rfl, nofun, fun s hs => .inl (Option.some.inj hs).symm⟩
          · obtain ⟨hNone, hNot⟩ := hCalls j other hj
            refine ⟨hNot hOther, fun send' hSend' => ?_, fun s hs => ?_⟩
            · rw [hNow']
              exact hSeated.alone hClaim₀ ⟨other, hj, claim_of_pending hSend'⟩ hLive (Ne.symm hOther)
            · rw [hNone] at hs
              cases hs
  | @recorded r hCompleted hReceipts hCalls =>
      obtain ⟨hSending, hExpired, hReceipt⟩ := hCalls i _ hCall
      cases hTells with
      | quiet hCompleted'' hReceipts'' hBefore hAfter hReceipt' hPending =>
          refine .recorded (by rw [hCompleted', hCompleted'', hCompleted]) (by rw [hReceipts', hReceipts'', hReceipts]) ?_
          intro j other hOther
          rcases hBehind hOther with ⟨-, rfl⟩ | ⟨-, hOther⟩
          · refine ⟨hAfter, fun send hSend => ?_, fun s hs => ?_⟩
            · rw [hNow']
              refine hExpired send ((hPending send hSend).resolve_right fun hNone => ?_)
              rw [hPrior, hReceipts] at hNone
              cases hNone
            · rcases hReceipt' s hs with hOld | hRead
              · exact hReceipt s hOld
              · rw [hPrior, hReceipts] at hRead
                exact .inr (Option.some.inj hRead).symm
          · rw [hNow']
            exact hCalls j other hOther
      | @completes send since r' hOutcome hCompleted'' hReceipts'' =>
          have hRun := hExpired send rfl
          exact absurd (hTimely send (by simp [Point.completing, hOutcome])) (not_lt.mpr hRun)
      | records hCompleted'' hReceipts'' => cases hSending

theorem World.Stage.step {action : Action R} (h : w.Stage again) (hSeated : w.Seated key) (hTimely : Timely w action)
    (hStep : w.step again key action = some next) : next.Stage again := by
  rcases World.step_cases hStep with ⟨i, input, lease, point, moved, point', rfl, hCall, hTurn, rfl⟩ |
    ⟨hNow, -, -, hSends, hCompleted', hCalls', hTick⟩
  · exact h.advance hSeated hCall (fun send hSend => hTimely _ hCall send hSend) hTurn
  · have hReceipts' : next.receipts = w.receipts := congrArg (List.filterMap Record.receipt) hSends
    have hOld : ∀ {i : ℕ} {call : Call R}, next.calls[i]? = some call → w.calls[i]? = some call ∨ ∃ lease, call = ⟨lease, .enter⟩ := by
      intro i call hCall
      rcases hCalls' with hSame | ⟨lease, hMore⟩
      · exact .inl (hSame ▸ hCall)
      · rw [hMore, List.getElem?_append] at hCall
        split at hCall
        · exact .inl hCall
        · exact .inr ⟨lease, List.mem_singleton.mp (List.mem_of_getElem? hCall)⟩
    have hKept : ∀ {i : ℕ} {call : Call R}, w.calls[i]? = some call → next.calls[i]? = some call := by
      intro i call hCall
      rcases hCalls' with hSame | ⟨lease, hMore⟩
      · exact hSame ▸ hCall
      · rw [hMore, List.getElem?_append_left (List.getElem?_eq_some_iff.mp hCall).1]
        exact hCall
    cases h with
    | fresh hCompleted hReceipts hCalls =>
        refine .fresh (hCompleted'.trans hCompleted) (hReceipts'.trans hReceipts) fun i call hCall => ?_
        rcases hOld hCall with hCall | ⟨lease, rfl⟩
        · exact hCalls i call hCall
        · exact ⟨rfl, rfl⟩
    | @completed i call send r hCompleted hReceipts hCall hSending hLive hCalls =>
        refine .completed (hCompleted'.trans hCompleted) (hReceipts'.trans hReceipts) (hKept hCall) hSending ?_ fun j other hOther => ?_
        · rcases hTick with hSame | hTick
          · rwa [hSame]
          · subst hTick
            exact hTimely call (List.mem_of_getElem? hCall) (send, r) hSending
        · rcases hOld hOther with hOther | ⟨lease, rfl⟩
          · exact hCalls j other hOther
          · exact ⟨rfl, fun _ => rfl⟩
    | recorded hCompleted hReceipts hCalls =>
        refine .recorded (hCompleted'.trans hCompleted) (hReceipts'.trans hReceipts) fun i call hCall => ?_
        rcases hOld hCall with hCall | ⟨lease, rfl⟩
        · obtain ⟨hSending, hExpired, hReceipt⟩ := hCalls i call hCall
          exact ⟨hSending, fun send hSend => (hExpired send hSend).trans (NNRat.coe_le_coe.mpr hNow), hReceipt⟩
        · exact ⟨rfl, nofun, nofun⟩

theorem reach_stage {rows : String → Row} {now : ℚ≥0}
    (h : Machine.Reach (World.step again key) Timely (World.start key rows now) w) : w.Seated key ∧ w.Stage again := by
  refine h.invariant (fun w => w.Seated key ∧ w.Stage again) ⟨World.start_seated rows now, ?_⟩
    fun _ _ _ hBoth hTimely hStep => ⟨hBoth.1.step hStep, hBoth.2.step hBoth.1 hTimely hStep⟩
  exact .fresh rfl rfl fun i call hCall => (nomatch hCall)

/-- A call comes to the effect only by its recheck, where its lease is valid. -/
theorem transact_effect (h : w.transact again key lease input point = some (next, .effect send)) :
    point = .recheck send ∧ (w.rows lease.what).valid lease w.now = true := by
  cases point with
  | recheck send =>
      simp only [World.transact] at h
      split at h
      · cases h
      · rename_i yes hAuthorize
        cases yes <;> cases h
        exact ⟨rfl, (authorize_spec hAuthorize).2⟩
  | enter =>
      simp only [World.transact] at h
      split at h
      · cases h
      · split at h
        · cases h
        · rename_i yes _
          cases yes <;> cases h
  | «over» outcome => cases h
  | _ =>
      simp only [World.transact] at h
      first
        | cases h
        | split at h <;> cases h
        | (split at h <;> first | cases h | (split at h <;> cases h))

theorem effect_of_step {action : Action R} {i : ℕ} (hStep : w.step again key action = some next)
    (h : next.calls[i]? = some ⟨lease, .effect send⟩) : w.calls[i]? = some ⟨lease, .effect send⟩ ∨
      w.calls[i]? = some ⟨lease, .recheck send⟩ ∧ (w.rows lease.what).valid lease w.now = true := by
  rcases World.step_cases hStep with ⟨j, input, lease', point, moved, point', -, hCall, hTurn, rfl⟩ |
    ⟨-, -, -, -, -, hCalls, -⟩
  · have hMoved := (transact_turns hTurn).1.2
    rcases (World.behind_calls (hMoved ▸ (List.getElem?_eq_some_iff.mp hCall).1)).mp h with ⟨rfl, hSame⟩ | ⟨-, hOld⟩
    · cases hSame
      obtain ⟨rfl, hValid⟩ := transact_effect hTurn
      exact .inr ⟨hCall, hValid⟩
    · exact .inl (hMoved ▸ hOld)
  · refine .inl ?_
    rcases hCalls with hSame | ⟨other, hMore⟩
    · exact hSame ▸ h
    · rw [hMore, List.getElem?_append] at h
      split at h
      · exact h
      · cases List.mem_singleton.mp (List.mem_of_getElem? h)

/-- A key whose claims are all given up can be claimed. -/
theorem World.Seated.reclaimed (h : w.Seated key) (hKey : validKey (sendKey key) = true)
    (hNone : ∀ call ∈ w.calls, call.point.claim = none) {i : ℕ} (hCall : w.calls[i]? = some ⟨lease, .sendLease⟩)
    (hName : input.name ≠ "") (hNew : input.name ∉ w.names) :
    ∃ next send, w.step again key (.advance i input) = some next ∧ next.calls[i]? = some ⟨lease, .priorAgain send⟩ ∧
      next.sends = w.sends := by
  have hFree : ¬ w.now < (w.row key).heldUntil := by
    intro hLive
    obtain ⟨j, send, ⟨call, hMem, hClaim⟩, -⟩ := h.held hLive
    rw [hNone call (List.mem_of_getElem? hMem)] at hClaim
    cases hClaim
  obtain ⟨row, send, hAcquire⟩ : ∃ row send,
      acquire (w.rows (sendKey key)) w.now (sendKey key) input.name 300 none none none = .ok (row, some send) := by
    have hLess : ¬ (w.now : ℚ) < (w.rows (sendKey key)).heldUntil := hFree
    unfold acquire
    dsimp only
    rw [if_neg (not_or.mpr ⟨hName, by norm_num⟩), if_neg (not_not.mpr (Finset.Subset.refl _)), locked, if_pos hKey,
      if_neg fun hBoth => hLess hBoth.1]
    exact ⟨_, _, rfl⟩
  have hTurn : w.transact again key lease input .sendLease = some ({ w with
      rows := Function.update w.rows (sendKey key) row, names := input.name :: w.names }, .priorAgain send) := by
    simp only [World.transact]
    rw [if_neg (not_or.mpr ⟨hName, hNew⟩), hAcquire]
  refine ⟨World.behind { w with rows := Function.update w.rows (sendKey key) row, names := input.name :: w.names } i
    ⟨lease, .priorAgain send⟩, send, ?_, (World.behind_calls (List.getElem?_eq_some_iff.mp hCall).1).mpr (.inl ⟨rfl, rfl⟩), rfl⟩
  rw [World.step, hCall, Option.bind_eq_bind, Option.bind_some]
  dsimp only
  rw [hTurn]
  rfl

/-- Whatever the interleaving, if no claim runs out between the completion of an effect and its
receipt: the effect completes at most once; every call that returns, returns its receipt, as
it is or as its fact gives it back; where no effect has completed and no call holds a claim,
the key can be claimed and has no receipt; and a call comes to the effect only by a recheck at
which its lease is valid. -/
theorem effect_completes_once (again : R → R) (key : String) (rows : String → Row) (now : ℚ≥0) {w : World R}
    (h : Machine.Reach (World.step again key) Timely (World.start key rows now) w) :
    w.completed.length ≤ 1 ∧
    (∀ call ∈ w.calls, ∀ r, call.point = .over (.returned r) → ∃ s, w.completed = [s] ∧ (r = s ∨ r = again s)) ∧
    (validKey (sendKey key) = true → w.completed = [] → (∀ call ∈ w.calls, call.point.claim = none) →
      w.prior = none ∧ ∀ (i : ℕ) (lease : Lease) (input : Input R), w.calls[i]? = some ⟨lease, .sendLease⟩ →
        input.name ≠ "" → input.name ∉ w.names → ∃ next send, w.step again key (.advance i input) = some next ∧
          next.calls[i]? = some ⟨lease, .priorAgain send⟩ ∧ next.sends = w.sends) ∧
    ∀ (action : Action R) (next : World R) (i : ℕ) (lease send : Lease), w.step again key action = some next →
      next.calls[i]? = some ⟨lease, .effect send⟩ → w.calls[i]? = some ⟨lease, .effect send⟩ ∨
        w.calls[i]? = some ⟨lease, .recheck send⟩ ∧ (w.rows lease.what).valid lease w.now = true := by
  obtain ⟨hSeated, hStage⟩ := reach_stage h
  refine ⟨?_, fun call hCall r hReturned => ?_, fun hKey hCompleted hNone => ⟨?_, fun i lease input hCall hName hNew => ?_⟩,
    fun action next i lease send hStep => effect_of_step hStep⟩
  · cases hStage with
    | fresh hCompleted => exact hCompleted ▸ Nat.zero_le 1
    | completed hCompleted => exact hCompleted ▸ Nat.le_refl 1
    | recorded hCompleted => exact hCompleted ▸ Nat.le_refl 1
  · obtain ⟨i, hi⟩ := List.mem_iff_getElem?.mp hCall
    have hReceipt : call.point.receipt = some r := by rw [hReturned]; rfl
    cases hStage with
    | fresh _ _ hCalls =>
        rw [(hCalls i call hi).2] at hReceipt
        cases hReceipt
    | completed _ _ _ _ _ hCalls =>
        rw [(hCalls i call hi).1] at hReceipt
        cases hReceipt
    | recorded hCompleted _ hCalls => exact ⟨_, hCompleted, (hCalls i call hi).2.2 r hReceipt⟩
  · cases hStage with
    | fresh _ hReceipts => exact congrArg List.head? hReceipts
    | completed hOne => cases hOne.symm.trans hCompleted
    | recorded hOne => cases hOne.symm.trans hCompleted
  · exact hSeated.reclaimed hKey hNone hCall hName hNew

/-- Receipts that are lists, or tuples, which JSON gives back as lists. -/
inductive Receipt where
  | list (items : List ℕ)
  | tuple (items : List ℕ)
  deriving DecidableEq

def Receipt.readBack : Receipt → Receipt
  | .list items | .tuple items => .list items

/-- A seat held until 1000, and the calls under it. -/
def seat : Lease :=
  ⟨"seat", "me", 1, 1000, []⟩

def seatRows : String → Row :=
  fun what => if what = "seat" then ⟨1, "me", 1000, some []⟩ else .missing

/-- So many transactions of a call, under a name and with an outcome. -/
def turns (n i : ℕ) (name : String) (receipt : List ℕ) : List (Action Receipt) :=
  List.replicate n (.advance i ⟨name, some (.tuple receipt)⟩)

/-- Each effect takes less than 300 s, but the first begins late: it completes when its claim
has run out and another call has run the effect, under a claim of its own, and recorded it.
What the calls return is not one receipt. And a lease may run out between the recheck and the
effect. -/
theorem effect_completes_twice :
    (∃ w : World Receipt, Machine.Reach (World.step Receipt.readBack "k") Brief (World.start "k" seatRows 0) w ∧
      w.completed = [.tuple [2], .tuple [1]] ∧
      w.calls.map Call.point = [.over (.returned (.tuple [1])), .over (.returned (.tuple [2])), .over (.returned (.list [2]))]) ∧
    ∃ w : World Receipt, Machine.Reach (World.step Receipt.readBack "k") Brief (World.start "k" seatRows 0) w ∧
      (w.rows "seat").valid seat w.now = false ∧ ∃ send, ⟨seat, .running send 1000⟩ ∈ w.calls := by
  refine ⟨?_, ?_⟩
  · let actions : List (Action Receipt) :=
      [.call seat, .call seat, .call seat] ++ turns 6 0 "a" [1] ++ [.tick 200] ++ turns 1 0 "a" [1] ++ [.tick 301] ++
        turns 10 1 "b" [2] ++ turns 3 0 "a" [1] ++ turns 2 2 "c" [3]
    have hRun : (Machine.follow (World.step Receipt.readBack "k") Brief (World.start "k" seatRows 0) actions).any (fun w =>
        w.completed = [.tuple [2], .tuple [1]] ∧ w.calls.map Call.point =
          [.over (.returned (.tuple [1])), .over (.returned (.tuple [2])), .over (.returned (.list [2]))]) = true := by
      decide +kernel
    obtain ⟨w, hReached, hSame⟩ := (Option.any_eq_true ..).mp hRun
    exact ⟨w, .follow .refl hReached, of_decide_eq_true hSame⟩
  · let actions : List (Action Receipt) := [.call seat] ++ turns 6 0 "a" [1] ++ [.tick 1000] ++ turns 1 0 "a" [1]
    have hRun : (Machine.follow (World.step Receipt.readBack "k") Brief (World.start "k" seatRows 0) actions).any (fun w =>
        (w.rows "seat").valid seat w.now = false ∧
          ⟨seat, .running ⟨"send:k", "a", 1, 300, []⟩ 1000⟩ ∈ w.calls) = true := by
      decide +kernel
    obtain ⟨w, hReached, hSame⟩ := (Option.any_eq_true ..).mp hRun
    obtain ⟨hStale, hRunning⟩ := of_decide_eq_true hSame
    exact ⟨w, .follow .refl hReached, hStale, _, hRunning⟩

/-- A call whose effect fails, and one that runs it again. -/
theorem effect_completes_once_retried : ∃ w : World Receipt, w.completed = [.tuple [2]] ∧ w.completed.length ≤ 1 ∧
    w.calls.map Call.point = [.over .failed, .over (.returned (.tuple [2])), .over (.returned (.list [2]))] := by
  let actions : List (Action Receipt) :=
    [.call seat, .call seat, .call seat] ++ turns 7 0 "a" [1] ++ [.advance 0 ⟨"a", none⟩] ++ turns 1 0 "a" [1] ++
      turns 10 1 "b" [2] ++ turns 2 2 "c" [3]
  have hRun : (Machine.follow (World.step Receipt.readBack "k") Timely (World.start "k" seatRows 0) actions).any (fun w =>
      w.completed = [.tuple [2]] ∧ w.calls.map Call.point =
        [.over .failed, .over (.returned (.tuple [2])), .over (.returned (.list [2]))]) = true := by
    decide +kernel
  obtain ⟨w, hReached, hSame⟩ := (Option.any_eq_true ..).mp hRun
  obtain ⟨hCompleted, hCalls⟩ := of_decide_eq_true hSame
  exact ⟨w, hCompleted, (effect_completes_once Receipt.readBack "k" seatRows 0 (.follow .refl hReached)).1, hCalls⟩

end Brnrd.Leases.Once
