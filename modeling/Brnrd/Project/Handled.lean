import Brnrd.Project.Fencing

/-! No letter is handled without cause: each one goes back to a row that settles
it, or to a chain of notices from one that is so settled. -/
namespace Brnrd.Project

open Python Facts Ledger TimedGraph

/-- The row `fact` of a history, between the variables before it and its effect. -/
structure At (host : Host) (rows before : List Fact) (fact : Fact) (s : Replay) (e : Effect) : Prop where
  split : ∃ rest, rows = before ++ fact :: rest
  replay : replay host before = .ok s
  row : s.row host fact = .ok e

variable {host : Host}

theorem At.snoc {rows before : List Fact} {fact : Fact} {s : Replay} {e : Effect} (h : At host rows before fact s e)
    (next : Fact) : At host (rows ++ [next]) before fact s e := by
  obtain ⟨⟨rest, rfl⟩, hReplay, hRow⟩ := h
  exact ⟨⟨rest ++ [next], by simp⟩, hReplay, hRow⟩

/-- The body holds the thread that the letter `x` is addressed to. -/
def Replay.Owns (s : Replay) (body : Body) (x : String) : Prop :=
  (s.dest x).bind s.holder = some body

/-- A letter to a channel, by the body that holds the thread of the letter it answers. -/
inductive PendingReply (host : Host) (rows : List Fact) : String → String → Prop where
  | reply {before : List Fact} {fact : Fact} {s : Replay} {e : Effect} {body : Body} {re : String}
      (hAt : At host rows before fact s e) (hKind : fact.kind = "letter") (hWrites : s.Writes fact body)
      (hChannel : startsWith ((Dict.get fact.data "to").toStr host) "channel:")
      (hRe : Dict.get fact.data "re" = .str re) (hOwns : e.replay.Owns body re) :
      PendingReply host rows fact.id re

/-- A letter by which a live strand hands over. -/
inductive Handover (host : Host) (rows : List Fact) : String → Prop where
  | letter {before : List Fact} {fact : Fact} {s : Replay} {e : Effect} {body : Body}
      (hAt : At host rows before fact s e) (hKind : fact.kind = "letter") (hWrites : s.Writes fact body)
      (hReincarnate : (Dict.get fact.data "reincarnate").truthy) : Handover host rows fact.id

/-- The loom's `speech` row that says its letter is sent. -/
def isSent (fact : Fact) : Prop :=
  fact.kind = "speech" ∧ startsWith fact.by_ "loom:" ∧ Dict.get fact.data "state" = .str "sent"

/-- What marks a letter handled by itself. -/
inductive Settles (host : Host) (rows : List Fact) : String → Prop where
  | sent {before : List Fact} {fact : Fact} {s : Replay} {e : Effect}
      (hAt : At host rows before fact s e) (hSent : isSent fact) :
      Settles host rows ((Dict.get fact.data "key").toStr host)
  | answered {before : List Fact} {fact : Fact} {s : Replay} {e : Effect} {re : String}
      (hAt : At host rows before fact s e) (hSent : isSent fact)
      (hReply : PendingReply host before ((Dict.get fact.data "key").toStr host) re) :
      Settles host rows re
  | noted {before : List Fact} {fact : Fact} {s : Replay} {e : Effect}
      (hAt : At host rows before fact s e) (hNote : settlesByNote fact) :
      Settles host rows ((Dict.get fact.data "re").toStr host)
  | written {before : List Fact} {fact : Fact} {s : Replay} {e : Effect} {body : Body} {x : String}
      (hAt : At host rows before fact s e) (hKind : fact.kind = "note" ∨ fact.kind = "letter")
      (hWrites : s.Writes fact body) (hRe : Dict.get fact.data "re" = .str x)
      (hOwns : e.replay.Owns body x) : Settles host rows x
  | shown {before : List Fact} {fact : Fact} {s : Replay} {e : Effect} {body : Body} {ids : List String}
      {x : String} (hAt : At host rows before fact s e) (hKind : fact.kind = "shown")
      (hWrites : s.Writes fact body) (hBy : fact.by_ = "strand:" ++ body.1)
      (hIds : shownIds host fact.data = .ok ids) (hMem : x ∈ ids) (hHandover : Handover host before x)
      (hOwns : e.replay.Owns body x) : Settles host rows x

/-- A disposition of the loom's with outcome done. -/
inductive Closes (host : Host) (rows : List Fact) : String → Prop where
  | done {before : List Fact} {fact : Fact} {s : Replay} {e : Effect} {dispositions : List Value}
      {disposition : Dict} {ident : Value} (hAt : At host rows before fact s e)
      (hKind : fact.kind ∈ settlingKinds) (hLoom : startsWith fact.by_ "loom:")
      (hDispositions : dispositionsOf fact.data = .ok dispositions)
      (hMem : .obj disposition ∈ dispositions)
      (hOutcome : Dict.get disposition "outcome" = .str "done")
      (hIdent : disposition.lookup "id" = some ident) : Closes host rows (ident.toStr host)

section Snoc

variable {host : Host} {rows : List Fact} {x y : String}

theorem PendingReply.snoc (h : PendingReply host rows x y) (next : Fact) : PendingReply host (rows ++ [next]) x y := by
  cases h with
  | reply hAt hKind hWrites hChannel hRe hOwns =>
      exact .reply (hAt.snoc next) hKind hWrites hChannel hRe hOwns

theorem Handover.snoc (h : Handover host rows x) (next : Fact) : Handover host (rows ++ [next]) x := by
  cases h with
  | letter hAt hKind hWrites hReincarnate => exact .letter (hAt.snoc next) hKind hWrites hReincarnate

theorem Settles.snoc (h : Settles host rows x) (next : Fact) : Settles host (rows ++ [next]) x := by
  cases h with
  | sent hAt hSent => exact .sent (hAt.snoc next) hSent
  | answered hAt hSent hReply => exact .answered (hAt.snoc next) hSent hReply
  | noted hAt hNote => exact .noted (hAt.snoc next) hNote
  | written hAt hKind hWrites hRe hOwns => exact .written (hAt.snoc next) hKind hWrites hRe hOwns
  | shown hAt hKind hWrites hBy hIds hMem hHandover hOwns =>
      exact .shown (hAt.snoc next) hKind hWrites hBy hIds hMem hHandover hOwns

theorem Closes.snoc (h : Closes host rows x) (next : Fact) : Closes host (rows ++ [next]) x := by
  cases h with
  | done hAt hKind hLoom hDispositions hMem hOutcome hIdent =>
      exact .done (hAt.snoc next) hKind hLoom hDispositions hMem hOutcome hIdent

end Snoc

/-- Everything the first loop remembers of letters has its cause. -/
structure Marked.Caused (host : Host) (rows : List Fact) (m : Marked) : Prop where
  explicit : ∀ x ∈ m.explicit, Settles host rows x
  disposed : ∀ x ∈ m.disposed, Closes host rows x
  replies : ∀ key re, m.replay.pendingReplies key = some re → PendingReply host rows key re
  handovers : ∀ x ∈ m.replay.handovers, Handover host rows x

/-- What one row adds has its cause in that row. -/
structure Effect.Caused (host : Host) (rows : List Fact) (s : Replay) (e : Effect) : Prop where
  marks : ∀ x ∈ e.marks, Settles host rows x
  done : ∀ x ∈ e.done, Closes host rows x
  replies : ∀ key re, e.replay.pendingReplies key = some re →
    s.pendingReplies key = some re ∨ PendingReply host rows key re
  handovers : ∀ x ∈ e.replay.handovers, x ∈ s.handovers ∨ Handover host rows x

section Row

variable {host : Host} {rows before : List Fact} {fact : Fact} {s : Replay} {e : Effect}

/-- A row that marks and closes nothing and keeps the replies and handovers. -/
theorem Effect.Caused.quiet {s' : Replay} (hReplies : s'.pendingReplies = s.pendingReplies)
    (hHandovers : s'.handovers = s.handovers) : Effect.Caused host rows s s'.quiet where
  marks := by simp [Replay.quiet]
  done := by simp [Replay.quiet]
  replies := fun key re h => Or.inl (hReplies ▸ h)
  handovers := fun x h => Or.inl (hHandovers ▸ h)

theorem mem_sent {x : String} (hx : x ∈ s.sent host fact) :
    fact.kind = "speech" ∧ Dict.get fact.data "state" = .str "sent" ∧
      (x = (Dict.get fact.data "key").toStr host ∨
        s.pendingReplies ((Dict.get fact.data "key").toStr host) = some x) := by
  unfold Replay.sent at hx
  split at hx
  · next hSent =>
      refine ⟨hSent.1, hSent.2, ?_⟩
      rcases List.mem_cons.mp hx with hx | hx
      · exact .inl hx
      · exact .inr (by simpa [eq_comm] using hx)
  · exact absurd hx List.not_mem_nil

/-- A strand's own row. -/
theorem Effect.Caused.wrote (hAt : At host rows before fact s e) {body : Body}
    (hWrites : s.Writes fact body) (hWrote : s.Wrote host fact body e)
    (hHandovers : ∀ x ∈ s.handovers, Handover host before x) : Effect.Caused host rows s e := by
  cases hWrote with
  | letter hKind hLetter =>
      refine ⟨fun x hx => ?_, by simp [hLetter.done], fun key re h => ?_, fun x hx => ?_⟩
      · obtain ⟨hRe, hOwns⟩ := hLetter.marks x hx
        exact .written hAt (Or.inr hKind) hWrites hRe hOwns
      · refine (hLetter.pendingReplies key re h).imp id ?_
        rintro ⟨rfl, hRe, hChannel, hOwns⟩
        exact .reply hAt hKind hWrites hChannel hRe hOwns
      · refine (hLetter.handovers x hx).imp id ?_
        rintro ⟨rfl, hReincarnate⟩
        exact .letter hAt hKind hWrites hReincarnate
  | note hKind =>
      refine ⟨fun x hx => ?_, by simp, fun key re h => Or.inl h, fun x hx => Or.inl hx⟩
      obtain ⟨hRe, -, hOwns⟩ := mem_consider.mp hx
      exact .written hAt (Or.inl hKind) hWrites hRe hOwns
  | shown hKind hIds hOwn =>
      refine ⟨fun x hx => ?_, by simp, fun key re h => Or.inl h, fun x hx => Or.inl hx⟩
      obtain ⟨ident, hIdent, hx⟩ := List.mem_flatMap.mp hx
      obtain ⟨hRe, -, hOwns⟩ := mem_consider.mp hx
      obtain rfl := Value.str.inj hRe
      obtain ⟨hMem, hHandover, hBy⟩ := hOwn ident hIdent
      exact .shown hAt hKind hWrites hBy hIds hMem (hHandovers ident hHandover) hOwns
  | other => exact Effect.Caused.quiet rfl rfl

theorem Effect.Caused.row (hAt : At host rows before fact s e) {m : Marked} (hReplay : m.replay = s)
    (hCaused : m.Caused host before) : Effect.Caused host rows s e := by
  subst hReplay
  cases Replay.row_acts hAt.row with
  | settling hKind hLoom hDispositions hFold =>
      obtain ⟨hMarks, ⟨letters, hCollects, -⟩, hDone⟩ := dispose_fold hFold
      refine ⟨fun x hx => ?_, fun x hx => ?_, fun key re h => ?_, fun x hx => ?_⟩
      · rw [hMarks] at hx
        obtain ⟨hSpeech, hState, rfl | hReply⟩ := mem_sent hx
        · exact .sent hAt ⟨hSpeech, hLoom, hState⟩
        · exact .answered hAt ⟨hSpeech, hLoom, hState⟩ (hCaused.replies _ _ hReply)
      · obtain ⟨d, hd, hOutcome, ident, hIdent, rfl⟩ := hDone x hx
        exact .done hAt hKind hLoom hDispositions hd hOutcome hIdent
      · exact .inl (hCollects.pendingReplies ▸ h)
      · exact .inl (hCollects.handovers ▸ hx)
  | router _ hRouter =>
      obtain ⟨newest, rfl⟩ := Replay.router_frame hRouter
      exact Effect.Caused.quiet rfl rfl
  | note hNote =>
      refine ⟨fun x hx => ?_, by simp, fun key re h => Or.inl h, fun x hx => Or.inl hx⟩
      obtain rfl := List.mem_singleton.mp hx
      exact .noted hAt hNote
  | lease => exact Effect.Caused.quiet rfl rfl
  | released => exact Effect.Caused.quiet rfl rfl
  | attention => exact Effect.Caused.quiet rfl rfl
  | injected =>
      have hNamed := (m.replay.accept fact).named_frame host fact
      exact Effect.Caused.quiet hNamed.pendingReplies hNamed.handovers
  | written hWrites hWritten =>
      exact Effect.Caused.wrote hAt hWrites (Replay.written_wrote hWritten) hCaused.handovers
  | idle => exact Effect.Caused.quiet rfl rfl

end Row

/-- The causes of a whole history. -/
theorem marked_caused {rows : List Fact} {m : Marked} (h : rows.foldlM (Marked.read host) Marked.start = .ok m) :
    m.Caused host rows := by
  induction rows using List.reverseRecOn generalizing m with
  | nil =>
      obtain rfl := Except.ok.inj h
      exact ⟨by simp [Marked.start], by simp [Marked.start], by simp [Marked.start, Replay.start],
        by simp [Marked.start, Replay.start]⟩
  | append_singleton rows fact ih =>
      obtain ⟨m₀, hBefore, hRead⟩ := Fallible.foldlM_snoc.mp h
      have hCaused := ih hBefore
      obtain ⟨e, hRow, hEq⟩ := Fallible.peel hRead
      obtain rfl := Except.ok.inj hEq
      have hAt : At host (rows ++ [fact]) rows fact m₀.replay e := ⟨⟨[], rfl⟩, marked_replay hBefore, hRow⟩
      have hEffect := Effect.Caused.row hAt rfl hCaused
      refine ⟨fun x hx => ?_, fun x hx => ?_, fun key re hre => ?_, fun x hx => ?_⟩
      · rcases Finset.mem_union.mp hx with hx | hx
        · exact (hCaused.explicit x hx).snoc fact
        · exact hEffect.marks x (List.mem_toFinset.mp hx)
      · rcases Finset.mem_union.mp hx with hx | hx
        · exact (hCaused.disposed x hx).snoc fact
        · exact hEffect.done x (List.mem_toFinset.mp hx)
      · exact (hEffect.replies key re hre).elim (fun hOld => (hCaused.replies key re hOld).snoc fact) id
      · exact (hEffect.handovers x hx).elim (fun hOld => (hCaused.handovers x hOld).snoc fact) id

/-- A row by a strand at a generation at which it is not live. -/
structure Fenced (s : Replay) (fact : Fact) : Prop where
  writer : startsWith fact.by_ "strand:"
  gen : ∃ strand value gen, strandOf fact = some strand ∧ fact.data.lookup "gen" = some value ∧
    int value = .ok gen ∧ s.live strand ≠ some gen

theorem startsWith_unique {text a b : String} (ha : startsWith text a) (hb : startsWith text b)
    (hLength : a.toList.length ≤ b.toList.length) : a.toList <+: b.toList :=
  List.prefix_of_prefix_length_le (List.isPrefixOf_iff_prefix.mp ha) (List.isPrefixOf_iff_prefix.mp hb)
    hLength

/-- A fenced row marks and closes nothing, and adds no notice. -/
theorem Fenced.inert {s : Replay} {fact : Fact} {e : Effect} (h : Fenced s fact) (hRow : s.row host fact = .ok e) :
    e.marks = [] ∧ e.done = [] ∧
      e.replay.accepted.filterMap noticePair = s.accepted.filterMap noticePair := by
  obtain ⟨strand, value, gen, hStrand, hValue, hInt, hLive⟩ := h.gen
  have hLoom : ¬ startsWith fact.by_ "loom:" := fun hLoom =>
    absurd (startsWith_unique hLoom h.writer (by decide)) (by decide)
  have hPerson : ¬ startsWith fact.by_ "person:" := fun hPerson =>
    absurd (startsWith_unique hPerson h.writer (by decide)) (by decide)
  have hPair : noticePair fact = none := by
    simp [noticePair, isNotice, hLoom]
  have hAccept : (s.accepted ++ [fact]).filterMap noticePair = s.accepted.filterMap noticePair := by
    simp [hPair]
  cases Replay.row_acts hRow with
  | settling _ hBy => exact absurd hBy hLoom
  | router _ hRouter =>
      obtain ⟨newest, rfl⟩ := Replay.router_frame hRouter
      exact ⟨rfl, rfl, rfl⟩
  | note hNote => simp [settlesByNote, hLoom, hPerson] at hNote
  | lease => exact ⟨rfl, rfl, hAccept⟩
  | released => exact ⟨rfl, rfl, hAccept⟩
  | attention => exact ⟨rfl, rfl, hAccept⟩
  | injected _ hGen => simp [Dict.has, hValue] at hGen
  | written hWrites =>
      obtain ⟨hBody, ⟨value', hValue', hInt'⟩, hBodyLive⟩ := hWrites
      obtain rfl := Option.mem_unique hValue hValue'
      rw [← Option.mem_unique hStrand hBody, ← Fallible.same hInt hInt'] at hBodyLive
      exact absurd hBodyLive hLive
  | idle => exact ⟨rfl, rfl, rfl⟩

/-- The two ways to fold a history: replayed whole, or resumed over its batches. -/
def Folds (host : Host) (rows : List Fact) (r : Reducer) : Prop :=
  fold host rows = .ok r ∨
    ∃ batches s, batches.flatten = rows ∧ resumeAll host batches = .ok s ∧ s.reducer = r

theorem Folds.reached {rows : List Fact} {r : Reducer} (h : Folds host rows r) :
    rows.foldlM (Marked.read host) Marked.start = .ok r.marked ∧
      ∀ v, v ∈ r.handled ↔ Reached r.replay.accepted r.explicit r.disposed v := by
  rcases h with hWhole | ⟨batches, s, rfl, hResume, rfl⟩
  · obtain ⟨r₀, hApply, hWhole⟩ := Fallible.peel hWhole
    obtain ⟨handled, hPass, hEq⟩ := Fallible.peel hWhole
    obtain rfl := Except.ok.inj hEq
    have hFed := (Reducer.Fed.start host).apply hApply
    exact ⟨hFed.marked, fold_handled hPass⟩
  · obtain ⟨hHolds, hFacts⟩ := resumeAll_holds hResume
    exact ⟨hFacts ▸ hHolds.fed.marked, hHolds.handled⟩

/-- Every handled letter is one that a row of its own settles, one that a chain
of notices of increasing positions reaches from such a letter, or one that a
disposition closed; and a row by a fenced strand handles no letter. -/
theorem handled_has_cause {host : Host} {rows : List Fact} {r : Reducer} (h : Folds host rows r) :
    (∀ v ∈ r.handled,
      (∃ t, Arrives (fun v => ∃ x, Settles host rows x ∧ v = .str x) (-1)
        (noticeArcs (r.replay.accepted.filterMap noticePair)) v t) ∨
      ∃ x, Closes host rows x ∧ v = .str x) ∧
    (∀ fact r', Fenced r.replay fact → Folds host (rows ++ [fact]) r' → r'.handled = r.handled) := by
  obtain ⟨hMarked, hHandled⟩ := h.reached
  have hCaused := marked_caused hMarked
  constructor
  · intro v hv
    rcases (hHandled v).mp hv with ⟨t, hArrives⟩ | ⟨x, hx, rfl⟩
    · refine Or.inl ⟨t, hArrives.mono ?_ (List.Subset.refl _)⟩
      rintro v ⟨x, hx, rfl⟩
      exact ⟨x, hCaused.explicit x hx, rfl⟩
    · exact .inr ⟨x, hCaused.disposed x hx, rfl⟩
  · intro fact r' hFenced hNext
    obtain ⟨hMarked', hHandled'⟩ := hNext.reached
    obtain ⟨m, hBefore, hRead⟩ := Fallible.foldlM_snoc.mp hMarked'
    obtain rfl := Fallible.same hMarked hBefore
    obtain ⟨e, hRow, hEq⟩ := Fallible.peel hRead
    obtain ⟨hMarks, hDone, hNotices⟩ := hFenced.inert hRow
    obtain ⟨hReplay, hExplicit, hDisposed⟩ := Marked.mk.inj (Except.ok.inj hEq)
    rw [hMarks, List.toFinset_nil, Finset.union_empty] at hExplicit
    rw [hDone, List.toFinset_nil, Finset.union_empty] at hDisposed
    ext v
    rw [hHandled' v, hHandled v, Reached, Reached, ← hExplicit, ← hDisposed, ← hReplay, hNotices]
    rfl

/-- A letter to the thread `work`, and the note by which its strand settles it. -/
def letterRow : Fact :=
  row "letter" "person:p-1" "a-1" [("from", .str "p-1"), ("id", .str "a-1"), ("to", .str "thread:work")]

def noteRow (strand : String) (gen : Int) : Fact :=
  row "note" ("strand:" ++ strand) "n-1" [("gen", .int gen), ("re", .str "a-1"), ("strand", .str strand)]

theorem handled_has_cause_note : ∃ r,
    fold timedHost [routerRow 1, leaseRow "s-1" 1 1, letterRow, noteRow "s-1" 1] = .ok r ∧
      .str "a-1" ∈ r.handled ∧
      ∀ r', Folds timedHost [routerRow 1, leaseRow "s-1" 1 1, letterRow, noteRow "s-1" 1, noteRow "s-2" 1] r' →
        r'.handled = r.handled := by
  have hHandled : (fold timedHost [routerRow 1, leaseRow "s-1" 1 1, letterRow, noteRow "s-1" 1]).map
      (fun r => decide (.str "a-1" ∈ r.handled ∧ r.replay.live "s-2" ≠ some 1)) = .ok true := by decide
  cases hr : fold timedHost [routerRow 1, leaseRow "s-1" 1 1, letterRow, noteRow "s-1" 1] with
  | error => simp [hr, Except.map] at hHandled
  | ok r =>
      have hBoth : .str "a-1" ∈ r.handled ∧ r.replay.live "s-2" ≠ some 1 := by
        simpa [hr, Except.map] using hHandled
      refine ⟨r, rfl, hBoth.1, fun r' hNext => ?_⟩
      have hFenced : Fenced r.replay (noteRow "s-2" 1) :=
        ⟨by decide, "s-2", .int 1, 1, by decide, by decide, by decide, hBoth.2⟩
      exact (handled_has_cause (Or.inl hr)).2 (noteRow "s-2" 1) r' hFenced hNext

theorem noticeArcs_subset (pairs more : List (Value × Value)) : noticeArcs pairs ⊆ noticeArcs (pairs ++ more) := by
  induction more using List.reverseRecOn with
  | nil => simp
  | append_singleton more pair ih =>
      rw [← List.append_assoc, noticeArcs_snoc]
      exact List.Subset.trans ih (List.subset_append_left _ _)

/-- Facts behind others take no row back that was accepted and no letter that was handled,
folded whole or resumed. -/
theorem handled_grows {rows more : List Fact} {r r' : Reducer} (h : Folds host rows r)
    (hMore : Folds host (rows ++ more) r') : r.replay.accepted <+: r'.replay.accepted ∧ r.handled ⊆ r'.handled := by
  obtain ⟨hMarked, hHandled⟩ := h.reached
  obtain ⟨hMarked', hHandled'⟩ := hMore.reached
  obtain ⟨m, hBefore, hRest⟩ := Fallible.foldlM_append_eq_ok.mp hMarked'
  obtain rfl := Fallible.same hMarked hBefore
  obtain ⟨added, hAdded⟩ := marked_accepted hRest
  have hMarks : r.explicit ⊆ r'.explicit ∧ r.disposed ⊆ r'.disposed :=
    Fallible.foldlM_invariant (fun _ m => r.explicit ⊆ m.explicit ∧ r.disposed ⊆ m.disposed)
      ⟨Finset.Subset.refl _, Finset.Subset.refl _⟩ (fun _ _ m n hm hRead => by
        obtain ⟨e, -, hEq⟩ := Fallible.peel hRead
        obtain rfl := Except.ok.inj hEq
        exact ⟨hm.1.trans Finset.subset_union_left, hm.2.trans Finset.subset_union_left⟩) hRest
  have hAccepted : r'.replay.accepted = r.replay.accepted ++ added := hAdded
  refine ⟨⟨added, hAccepted.symm⟩, fun v hv => (hHandled' v).mpr (((hHandled v).mp hv).imp ?_ ?_)⟩
  · rintro ⟨t, hArrives⟩
    refine ⟨t, hArrives.mono (fun v ⟨x, hx, hIs⟩ => ⟨x, hMarks.1 hx, hIs⟩) ?_⟩
    rw [hAccepted, List.filterMap_append]
    exact noticeArcs_subset _ _
  · exact fun ⟨x, hx, hIs⟩ => ⟨x, hMarks.2 hx, hIs⟩

theorem handled_grows_note : ∃ r r', Folds timedHost [routerRow 1, leaseRow "s-1" 1 1, letterRow, noteRow "s-1" 1] r ∧
    Folds timedHost [routerRow 1, leaseRow "s-1" 1 1, letterRow, noteRow "s-1" 1, noteRow "s-2" 1] r' ∧
    .str "a-1" ∈ r'.handled := by
  have hHandled : (fold timedHost [routerRow 1, leaseRow "s-1" 1 1, letterRow, noteRow "s-1" 1]).map
      (fun r => decide (.str "a-1" ∈ r.handled)) = .ok true := by decide
  have hMore : (fold timedHost [routerRow 1, leaseRow "s-1" 1 1, letterRow, noteRow "s-1" 1, noteRow "s-2" 1]).map
      (fun _ => ()) = .ok () := by decide
  obtain ⟨r, hFold, hIn⟩ := Fallible.map_eq_ok.mp hHandled
  obtain ⟨r', hFold', -⟩ := Fallible.map_eq_ok.mp hMore
  have hIn := of_decide_eq_true hIn
  exact ⟨r, r', .inl hFold, .inl hFold', (@handled_grows _ _ [noteRow "s-2" 1] _ _ (.inl hFold) (.inl hFold')).2 hIn⟩

end Brnrd.Project
