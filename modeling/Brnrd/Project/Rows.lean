import Brnrd.Project.Replay

/-! What one row can do to the variables of the first loop, said once. -/
namespace Brnrd.Project

open Python Facts Ledger

/-- A row by a strand that is live at its generation. -/
structure Replay.Writes (s : Replay) (fact : Fact) (body : Body) : Prop where
  strand : strandOf fact = some body.1
  gen : ∃ value, fact.data.lookup "gen" = some value ∧ int value = .ok body.2
  live : s.live body.1 = some body.2

/-- The outcomes of a row that does not raise. -/
inductive Replay.Acts (host : Host) (s : Replay) (fact : Fact) : Effect → Prop where
  | settling {e : Effect} {dispositions : List Value} (hKind : fact.kind ∈ settlingKinds)
      (hLoom : startsWith fact.by_ "loom:") (hDispositions : dispositionsOf fact.data = .ok dispositions)
      (hFold : dispositions.foldlM (Effect.dispose host fact) ⟨s.accept fact, s.sent host fact, []⟩ = .ok e) :
      Acts host s fact e
  | router {s' : Replay} (hKind : fact.kind = "router") (hRouter : s.router fact = .ok s') :
      Acts host s fact s'.quiet
  | note (hNote : settlesByNote fact) :
      Acts host s fact ⟨s, [(Dict.get fact.data "re").toStr host], []⟩
  | lease {thread : String} {body : Body} (hKind : fact.kind = "lease")
      (hCounts : leaseAccepted s.newest fact = .ok true)
      (hTenure : tenure host fact.data = .ok (thread, body)) :
      Acts host s fact ((s.grant thread body).accept fact).quiet
  | released {thread : String} {body : Body} (hKind : fact.kind = "released")
      (hTenure : tenure host fact.data = .ok (thread, body)) (hHolds : s.holder thread = some body) :
      Acts host s fact ((s.free thread body).accept fact).quiet
  | attention (hKind : fact.kind = "attention") : Acts host s fact (s.accept fact).quiet
  | injected (hKind : fact.kind = "letter") (hGen : Dict.has fact.data "gen" = false) :
      Acts host s fact ((s.accept fact).named host fact).quiet
  | written {e : Effect} {body : Body} (hWrites : s.Writes fact body)
      (hWritten : s.written host fact body = .ok e) : Acts host s fact e
  | idle : Acts host s fact s.quiet

variable {e : Effect} {fact : Fact} {s s' : Replay} {host : Host}

theorem Replay.strandRow_acts (h : s.strandRow host fact = .ok e) : s.Acts host fact e := by
  unfold Replay.strandRow at h
  split at h
  · next strand value hStrand hValue =>
      obtain ⟨gen, hGen, h⟩ := Fallible.peel h
      split at h
      · next hLive =>
          have hWrites : s.Writes fact (strand, gen) := ⟨hStrand, ⟨value, hValue, hGen⟩, hLive⟩
          exact .written hWrites h
      · exact Except.ok.inj h ▸ .idle
  · exact Except.ok.inj h ▸ .idle

theorem map_quiet_eq_ok {x : Except Raised Replay} (h : x.map Replay.quiet = .ok e) : ∃ s, x = .ok s ∧ e = s.quiet := by
  cases x with
  | error => cases h
  | ok s => exact ⟨s, rfl, (Except.ok.inj h).symm⟩

theorem Replay.row_acts (h : s.row host fact = .ok e) : s.Acts host fact e := by
  unfold Replay.row at h
  split at h
  · next hKind =>
      obtain ⟨dispositions, hDispositions, hFold⟩ := Fallible.peel h
      exact .settling hKind.1 hKind.2 hDispositions hFold
  split at h
  · next hKind =>
      obtain ⟨s', hRouter, rfl⟩ := map_quiet_eq_ok h
      exact .router hKind hRouter
  split at h
  · next hNote => exact Except.ok.inj h ▸ .note hNote
  split at h
  · next hKind =>
      obtain ⟨s', hLease, rfl⟩ := map_quiet_eq_ok h
      obtain ⟨counts, hCounts, hLease⟩ := Fallible.peel hLease
      split at hLease
      · next hTrue =>
          obtain ⟨⟨thread, body⟩, hTenure, hEq⟩ := Fallible.peel hLease
          exact Except.ok.inj hEq ▸ .lease hKind (hTrue ▸ hCounts) hTenure
      · exact Except.ok.inj hLease ▸ .idle
  split at h
  · next hKind =>
      obtain ⟨s', hReleased, rfl⟩ := map_quiet_eq_ok h
      obtain ⟨⟨thread, body⟩, hTenure, hEq⟩ := Fallible.peel hReleased
      simp only at hEq
      split at hEq
      · next hHolds => exact Except.ok.inj hEq ▸ .released hKind hTenure hHolds
      · exact Except.ok.inj hEq ▸ .idle
  split at h
  · next hKind => exact Except.ok.inj h ▸ .attention hKind
  split at h
  · next hKind =>
      obtain rfl := Except.ok.inj h
      unfold Replay.injected
      simp only
      split
      · exact .injected hKind.1 (by simpa using hKind.2)
      · exact .idle
  · exact Replay.strandRow_acts h

section Frame

variable (s : Replay) (host : Host) (fact : Fact)

@[simp] theorem Replay.accept_accepted : (s.accept fact).accepted = s.accepted ++ [fact] := rfl

/-- Two states that differ in the addresses of letters alone. -/
structure Replay.Readdressed (s s' : Replay) : Prop where
  accepted : s'.accepted = s.accepted
  holder : s'.holder = s.holder
  live : s'.live = s.live
  newest : s'.newest = s.newest
  pendingReplies : s'.pendingReplies = s.pendingReplies
  handovers : s'.handovers = s.handovers

theorem Replay.address_frame (ident : String) (thread : Option String) : s.Readdressed (s.address ident thread) := by
  cases thread <;> exact ⟨rfl, rfl, rfl, rfl, rfl, rfl⟩

theorem Replay.named_frame : s.Readdressed (s.named host fact) := by
  unfold Replay.named
  split
  · exact s.address_frame _ _
  · exact ⟨rfl, rfl, rfl, rfl, rfl, rfl⟩

end Frame

/-- Two states with the same leases, the second with more accepted facts. -/
structure Replay.Extends (s s' : Replay) (added : List Fact) : Prop where
  accepted : s'.accepted = s.accepted ++ added
  holder : s'.holder = s.holder
  live : s'.live = s.live
  newest : s'.newest = s.newest

variable {added : List Fact}

theorem Replay.Extends.accept (h : s.Extends s' added) (fact : Fact) :
    s.Extends (s'.accept fact) (added ++ [fact]) where
  accepted := by simp [h.accepted]
  holder := h.holder
  live := h.live
  newest := h.newest

theorem Replay.Extends.readdressed {t : Replay} (h : s.Extends s' added) (hFrame : s'.Readdressed t) : s.Extends t added where
  accepted := hFrame.accepted.trans h.accepted
  holder := hFrame.holder.trans h.holder
  live := hFrame.live.trans h.live
  newest := hFrame.newest.trans h.newest

theorem Replay.Extends.refl (s : Replay) : s.Extends s [] :=
  ⟨(List.append_nil _).symm, rfl, rfl, rfl⟩

/-- With the same pending replies and handovers, too. -/
structure Replay.Collects (s s' : Replay) (added : List Fact) : Prop extends Replay.Extends s s' added where
  pendingReplies : s'.pendingReplies = s.pendingReplies
  handovers : s'.handovers = s.handovers

theorem Replay.Collects.succeed (h : s.Collects s' added) (host : Host) (letter : Fact) :
    s.Collects (s'.succeed host (some letter)) (added ++ [letter]) := by
  have hFrame := (s'.accept letter).address_frame letter.id (destination host letter.data)
  exact ⟨(h.toExtends.accept letter).readdressed hFrame, hFrame.pendingReplies.trans h.pendingReplies,
    hFrame.handovers.trans h.handovers⟩

/-- A letter with the loom's own dispositions in its place. -/
def IsSuccessor (fact letter : Fact) : Prop :=
  letter.kind = "letter" ∧ letter.by_ = fact.by_ ∧ letter.after = [fact.id]

theorem successorLetter_eq {letter : Fact} {disposition : Dict} (h : successorLetter fact disposition = .ok (some letter)) :
    IsSuccessor fact letter := by
  unfold successorLetter at h
  split at h
  · obtain ⟨data, -, h⟩ := Fallible.peel h
    obtain ⟨ident, -, h⟩ := Fallible.peel h
    cases ident <;> simp at h
    subst h
    exact ⟨rfl, rfl, rfl⟩
  · simp at h

/-- The dispositions of a row, one by one: successors are accepted, and nothing
but a done outcome closes a letter. -/
theorem dispose_fold {marks : List String} {dispositions : List Value}
    (h : dispositions.foldlM (Effect.dispose host fact) ⟨s, marks, []⟩ = .ok e) :
    e.marks = marks ∧ (∃ letters, s.Collects e.replay letters ∧ ∀ l ∈ letters, IsSuccessor fact l) ∧
      ∀ x ∈ e.done, ∃ d, .obj d ∈ dispositions ∧ Dict.get d "outcome" = .str "done" ∧
        ∃ ident, d.lookup "id" = some ident ∧ x = ident.toStr host := by
  refine Fallible.foldlM_invariant (fun l e => e.marks = marks ∧
    (∃ letters, s.Collects e.replay letters ∧ ∀ l ∈ letters, IsSuccessor fact l) ∧
      ∀ x ∈ e.done, ∃ d, .obj d ∈ l ∧ Dict.get d "outcome" = .str "done" ∧
        ∃ ident, d.lookup "id" = some ident ∧ x = ident.toStr host)
    ⟨rfl, ⟨[], ⟨Replay.Extends.refl s, rfl, rfl⟩, by simp⟩, by simp⟩ ?_ h
  rintro l value m n ⟨hMarks, ⟨letters, hExtends, hLetters⟩, hDone⟩ hStep
  obtain ⟨d, hFields, hStep⟩ := Fallible.peel hStep
  obtain ⟨done, hDoneId, hStep⟩ := Fallible.peel hStep
  obtain ⟨letter, hLetter, hStep⟩ := Fallible.peel hStep
  obtain rfl := Except.ok.inj hStep
  have hValue : value = .obj d := by
    cases value <;> simp [fields] at hFields
    rw [hFields]
  refine ⟨hMarks, ?_, fun x hx => ?_⟩
  · cases letter with
    | none => exact ⟨letters, hExtends, hLetters⟩
    | some letter =>
        refine ⟨letters ++ [letter], hExtends.succeed host letter, fun l hl => ?_⟩
        rcases List.mem_append.mp hl with hl | hl
        · exact hLetters l hl
        · exact List.mem_singleton.mp hl ▸ successorLetter_eq hLetter
  · rcases List.mem_append.mp hx with hx | hx
    · obtain ⟨d', hd', hRest⟩ := hDone x hx
      exact ⟨d', List.mem_append_left _ hd', hRest⟩
    · refine ⟨d, by simp [hValue], ?_⟩
      unfold doneId at hDoneId
      split at hDoneId
      · next hOutcome =>
          refine ⟨hOutcome, ?_⟩
          unfold item at hDoneId
          cases hIdent : d.lookup "id" with
          | none => simp [hIdent, Except.map] at hDoneId
          | some ident =>
              simp only [hIdent, Except.map, Except.ok.injEq] at hDoneId
              exact ⟨ident, rfl, by simpa [← hDoneId] using hx⟩
      · rw [← Except.ok.inj hDoneId] at hx
        exact absurd hx List.not_mem_nil

theorem mem_consider {body : Body} {re : Value} {x : String} :
    x ∈ s.consider body re ↔ re = .str x ∧ x ≠ "" ∧ (s.dest x).bind s.holder = some body := by
  cases re with
  | str y =>
      simp only [Replay.consider]
      by_cases hy : y ≠ "" ∧ (s.dest y).bind s.holder = some body
      · rw [if_pos hy, List.mem_singleton, Value.str.injEq, eq_comm]
        exact ⟨fun hEq => ⟨hEq, hEq ▸ hy⟩, And.left⟩
      · rw [if_neg hy]
        simp only [List.not_mem_nil, Value.str.injEq, false_iff, not_and]
        rintro rfl hNe hHolds
        exact hy ⟨hNe, hHolds⟩
  | _ => simp [Replay.consider]

/-- What a strand's letter does: it may mark the letter it answers, or leave
itself pending as its answer, or become a handover. -/
structure Replay.Letter (host : Host) (s : Replay) (fact : Fact) (body : Body) (e : Effect) : Prop where
  extends_ : s.Extends e.replay []
  done : e.done = []
  marks : ∀ x ∈ e.marks, Dict.get fact.data "re" = .str x ∧
    (e.replay.dest x).bind e.replay.holder = some body
  pendingReplies : ∀ key x, e.replay.pendingReplies key = some x → s.pendingReplies key = some x ∨
    key = fact.id ∧ Dict.get fact.data "re" = .str x ∧ startsWith ((Dict.get fact.data "to").toStr host) "channel:" ∧
      (e.replay.dest x).bind e.replay.holder = some body
  handovers : ∀ x ∈ e.replay.handovers, x ∈ s.handovers ∨
    x = fact.id ∧ (Dict.get fact.data "reincarnate").truthy

/-- What a letter row makes of a state that has been named. -/
def Replay.lettered (host : Host) (s : Replay) (fact : Fact) (body : Body) : Effect :=
  if startsWith ((Dict.get fact.data "to").toStr host) "channel:" then
    match Dict.get fact.data "re" with
    | .str re => (s.answer fact body re).quiet
    | _ => s.quiet
  else ⟨s, s.consider body (Dict.get fact.data "re"), []⟩

theorem Replay.letter_spec (host : Host) (s : Replay) (fact : Fact) (body : Body) :
    s.Letter host fact body (s.letter host fact body) := by
  have hNamed := s.named_frame host fact
  have hMarked : ∀ s' : Replay, s.Readdressed { s' with handovers := s.handovers } →
      (∀ x ∈ s'.handovers, x ∈ s.handovers ∨ x = fact.id ∧ (Dict.get fact.data "reincarnate").truthy) →
      s.Letter host fact body (s'.lettered host fact body) := by
    intro s' hFrame hHandovers
    have hExtends : s.Extends s' [] :=
      ⟨hFrame.accepted.trans (List.append_nil _).symm, hFrame.holder, hFrame.live, hFrame.newest⟩
    have hQuiet : s.Letter host fact body s'.quiet :=
      ⟨hExtends, rfl, by simp [Replay.quiet], fun key x hx => Or.inl (hFrame.pendingReplies ▸ hx),
        hHandovers⟩
    unfold lettered
    split
    · next hChannel =>
      split
      · next re hRe =>
          unfold Replay.answer
          split
          · next hHolds =>
              refine ⟨⟨hExtends.accepted, hExtends.holder, hExtends.live, hExtends.newest⟩, rfl,
                by simp [Replay.quiet], fun key x hx => ?_, hHandovers⟩
              by_cases hKey : key = fact.id
              · have hEq : re = x := by simpa [Replay.quiet, hKey] using hx
                exact .inr ⟨hKey, hEq ▸ hRe, hChannel, hEq ▸ hHolds⟩
              · have hOld : s'.pendingReplies key = some x := by
                  simpa [Replay.quiet, Function.update_of_ne hKey] using hx
                exact .inl (hFrame.pendingReplies ▸ hOld)
          · exact hQuiet
      · exact hQuiet
    · refine ⟨hExtends, rfl, fun x hx => ?_, hQuiet.pendingReplies, hHandovers⟩
      obtain ⟨hRe, -, hHolds⟩ := mem_consider.mp hx
      exact ⟨hRe, hHolds⟩
  refine hMarked (if (Dict.get fact.data "reincarnate").truthy then
    { s.named host fact with handovers := insert fact.id (s.named host fact).handovers }
    else s.named host fact) ?_ fun x hx => ?_
  · split <;> exact ⟨hNamed.accepted, hNamed.holder, hNamed.live, hNamed.newest,
      hNamed.pendingReplies, rfl⟩
  · split at hx
    · next hReincarnate =>
        rcases Finset.mem_insert.mp hx with rfl | hx
        · exact .inr ⟨rfl, hReincarnate⟩
        · exact .inl (hNamed.handovers ▸ hx)
    · exact .inl (hNamed.handovers ▸ hx)

/-- What a strand's accepted row does. -/
inductive Replay.Wrote (host : Host) (s : Replay) (fact : Fact) (body : Body) : Effect → Prop where
  | letter {e : Effect} (hKind : fact.kind = "letter") (hLetter : (s.accept fact).Letter host fact body e) :
      Wrote host s fact body e
  | note (hKind : fact.kind = "note") : Wrote host s fact body
      ⟨s.accept fact, s.consider body (Dict.get fact.data "re"), []⟩
  | shown {ids own : List String} (hKind : fact.kind = "shown")
      (hIds : shownIds host fact.data = .ok ids)
      (hOwn : ∀ x ∈ own, x ∈ ids ∧ x ∈ s.handovers ∧ fact.by_ = "strand:" ++ body.1) :
      Wrote host s fact body ⟨(s.accept fact).showTo body.1 ids,
        own.flatMap fun ident => s.consider body (.str ident), []⟩
  | other : Wrote host s fact body (s.accept fact).quiet

theorem Replay.written_wrote {body : Body} (h : s.written host fact body = .ok e) : s.Wrote host fact body e := by
  unfold Replay.written at h
  simp only at h
  split at h
  · next hKind => exact Except.ok.inj h ▸ .letter hKind (Replay.letter_spec ..)
  split at h
  · next hKind => exact Except.ok.inj h ▸ .note hKind
  split at h
  · next hKind =>
      obtain ⟨ids, hIds, h⟩ := Fallible.peel h
      refine Except.ok.inj h ▸ .shown hKind hIds fun x hx => ?_
      split at hx
      · next hBy =>
          obtain ⟨hMem, hHandover⟩ := List.mem_filter.mp hx
          exact ⟨hMem, of_decide_eq_true hHandover, hBy⟩
      · exact absurd hx List.not_mem_nil
  · exact Except.ok.inj h ▸ .other

/-- A row that a strand wrote: the fact is accepted, and no lease changes. -/
theorem Replay.Wrote.frame {body : Body} (h : s.Wrote host fact body e) : s.Extends e.replay [fact] ∧ e.done = [] := by
  have hAccept : s.Extends (s.accept fact) [fact] := (Replay.Extends.refl s).accept fact
  cases h with
  | letter hKind hLetter =>
      have hFrame := hLetter.extends_
      exact ⟨⟨by simp [hFrame.accepted], hFrame.holder, hFrame.live, hFrame.newest⟩, hLetter.done⟩
  | note => exact ⟨hAccept, rfl⟩
  | shown => exact ⟨⟨hAccept.accepted, hAccept.holder, hAccept.live, hAccept.newest⟩, rfl⟩
  | other => exact ⟨hAccept, rfl⟩

/-- A `router` row changes the newest generation alone. -/
theorem Replay.router_frame (h : s.router fact = .ok s') :
    ∃ newest, s' = { s with newest := newest } := by
  unfold Replay.router at h
  split at h
  · exact ⟨s.newest, (Except.ok.inj h).symm⟩
  · split at h
    · exact ⟨_, (Except.ok.inj h).symm⟩
    · split at h
      · cases h
      · exact ⟨s.newest, (Except.ok.inj h).symm⟩

/-- Nothing is ever withdrawn from the accepted facts. -/
theorem Replay.Acts.accepted (h : s.Acts host fact e) : ∃ added, e.replay.accepted = s.accepted ++ added := by
  cases h with
  | settling _ _ _ hFold =>
      obtain ⟨-, ⟨letters, hExtends, -⟩, -⟩ := dispose_fold hFold
      exact ⟨fact :: letters, by simp [hExtends.accepted]⟩
  | router _ hRouter =>
      obtain ⟨newest, rfl⟩ := Replay.router_frame hRouter
      exact ⟨[], (List.append_nil _).symm⟩
  | note => exact ⟨[], (List.append_nil _).symm⟩
  | lease => exact ⟨[fact], rfl⟩
  | released => exact ⟨[fact], rfl⟩
  | attention => exact ⟨[fact], rfl⟩
  | injected => exact ⟨[fact], ((s.accept fact).named_frame host fact).accepted⟩
  | written _ hWritten => exact ⟨[fact], (Replay.written_wrote hWritten).frame.1.accepted⟩
  | idle => exact ⟨[], (List.append_nil _).symm⟩

end Brnrd.Project
