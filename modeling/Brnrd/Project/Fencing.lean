import Brnrd.Ledger.ViewUnion
import Brnrd.Project.Resume

/-! Fencing. A live strand holds a thread at its generation after every row, so
what a strand wrote counts only while it does; and a router that is not the
newest one grants nothing. -/
namespace Brnrd.Project

open Python Facts Ledger

/-- A strand that is live at a generation holds a thread at it. -/
def Replay.LiveHolds (s : Replay) : Prop :=
  ∀ strand gen, s.live strand = some gen → ∃ thread, s.holder thread = some (strand, gen)

variable {s : Replay}

theorem Replay.LiveHolds.congr {s' : Replay} (h : s.LiveHolds) (hHolder : s'.holder = s.holder) (hLive : s'.live = s.live) :
    s'.LiveHolds := by
  unfold Replay.LiveHolds
  rw [hHolder, hLive]
  exact h

/-- A grant takes the thread from its holder, and the life from that strand. -/
theorem Replay.LiveHolds.grant (h : s.LiveHolds) (thread : String) (body : Body) : (s.grant thread body).LiveHolds := by
  intro strand gen hLive
  by_cases hStrand : strand = body.1
  · subst hStrand
    have hGen : body.2 = gen := by simpa [Replay.grant] using hLive
    exact ⟨thread, by simp [Replay.grant, ← hGen]⟩
  · have hFenced : s.live strand = some gen ∧ s.holder thread ≠ some (strand, gen) := by
      simp only [Replay.grant, Function.update_of_ne hStrand] at hLive
      cases hHolder : s.holder thread with
      | none => simpa [hHolder] using hLive
      | some previous =>
          simp only [hHolder] at hLive
          split at hLive
          · next hPrevious =>
              by_cases hSame : strand = previous.1
              · simp [hSame] at hLive
              · rw [Function.update_of_ne hSame] at hLive
                refine ⟨hLive, fun hEq => hSame ?_⟩
                exact (congrArg Prod.fst (Option.some.inj hEq)).symm
          · next hKept =>
              refine ⟨hLive, fun hEq => hKept ?_⟩
              obtain rfl := Option.some.inj hEq
              exact ⟨fun hBody => hStrand (congrArg Prod.fst hBody), hLive⟩
    obtain ⟨other, hOther⟩ := h strand gen hFenced.1
    have hThread : other ≠ thread := by
      rintro rfl
      exact hFenced.2 hOther
    exact ⟨other, by simpa [Replay.grant, Function.update_of_ne hThread] using hOther⟩

theorem Replay.LiveHolds.free (h : s.LiveHolds) {thread : String} {body : Body} (hHolds : s.holder thread = some body) :
    (s.free thread body).LiveHolds := by
  intro strand gen hLive
  have hKept : s.live strand = some gen ∧ (strand, gen) ≠ body := by
    simp only [Replay.free] at hLive
    split at hLive
    · next hBody =>
        by_cases hStrand : strand = body.1
        · simp [hStrand] at hLive
        · rw [Function.update_of_ne hStrand] at hLive
          exact ⟨hLive, fun hEq => hStrand (congrArg Prod.fst hEq)⟩
    · next hBody =>
        refine ⟨hLive, ?_⟩
        rintro rfl
        exact hBody hLive
  obtain ⟨other, hOther⟩ := h strand gen hKept.1
  have hThread : other ≠ thread := by
    rintro rfl
    exact hKept.2 (Option.mem_unique hOther hHolds)
  exact ⟨other, by simpa [Replay.free, Function.update_of_ne hThread] using hOther⟩

variable {e : Effect} {fact : Fact} {host : Host}

theorem Replay.LiveHolds.row (h : s.LiveHolds) (hRow : s.row host fact = .ok e) : e.replay.LiveHolds := by
  cases Replay.row_acts hRow with
  | settling _ _ _ hFold =>
      obtain ⟨-, ⟨letters, hExtends, -⟩, -⟩ := dispose_fold hFold
      exact h.congr hExtends.holder hExtends.live
  | router _ hRouter =>
      obtain ⟨newest, rfl⟩ := Replay.router_frame hRouter
      exact h
  | note => exact h
  | lease => exact h.grant _ _
  | released _ _ hHolds => exact h.free hHolds
  | attention => exact h
  | injected =>
      have hNamed := (s.accept fact).named_frame host fact
      exact h.congr hNamed.holder hNamed.live
  | written _ hWritten =>
      obtain ⟨hExtends, -⟩ := (Replay.written_wrote hWritten).frame
      exact h.congr hExtends.holder hExtends.live
  | idle => exact h

variable {rows : List Fact}

theorem replay_snoc :
    replay host (rows ++ [fact]) = .ok s ↔
      ∃ s₀ e, replay host rows = .ok s₀ ∧ s₀.row host fact = .ok e ∧ e.replay = s := by
  rw [replay, Fallible.foldlM_snoc]
  constructor
  · rintro ⟨s₀, hBefore, hRow⟩
    cases hEffect : s₀.row host fact with
    | error => simp [hEffect, Except.map] at hRow
    | ok e => exact ⟨s₀, e, hBefore, hEffect, by simpa [hEffect, Except.map] using hRow⟩
  · rintro ⟨s₀, e, hBefore, hRow, rfl⟩
    refine ⟨s₀, hBefore, ?_⟩
    rw [hRow]
    rfl

/-- The first loop of a reducer, whatever its batches, is the replay. -/
theorem marked_replay {m : Marked} (h : rows.foldlM (Marked.read host) Marked.start = .ok m) :
    replay host rows = .ok m.replay := by
  have hStep : ∀ (m : Marked) fact, (m.read host fact).map Marked.replay =
      (m.replay.row host fact).map Effect.replay := by
    intro m fact
    unfold Marked.read
    cases m.replay.row host fact <;> rfl
  have hRun : (rows.foldlM (Marked.read host) Marked.start).map Marked.replay =
      rows.foldlM (fun s fact => (s.row host fact).map Effect.replay) Replay.start :=
    Fallible.foldlM_map hStep rows Marked.start
  rw [h] at hRun
  exact hRun.symm

theorem replay_liveHolds (h : replay host rows = .ok s) : s.LiveHolds := by
  induction rows using List.reverseRecOn generalizing s with
  | nil =>
      obtain rfl := Except.ok.inj h
      intro strand gen hLive
      cases hLive
  | append_singleton rows fact ih =>
      obtain ⟨s₀, e, hBefore, hRow, rfl⟩ := replay_snoc.mp h
      exact (ih hBefore).row hRow

/-- The generation that a router row takes. -/
def routerGen (fact : Fact) : Option Int :=
  if fact.kind = "router" then (fact.data.lookup "gen").bind Value.toInt else none

/-- The newest router's generation: the greatest that a router row has taken. -/
def newestRouter (rows : List Fact) : Option Int :=
  (rows.filterMap routerGen).max?

theorem max?_snoc (gens : List Int) (gen : Int) :
    (gens ++ [gen]).max? = some (match gens.max? with
      | some newest => if gen > newest then gen else newest
      | none => gen) := by
  cases gens with
  | nil => rfl
  | cons first gens =>
      rw [List.cons_append, List.max?_cons', List.max?_cons', List.foldl_append]
      simp only [List.foldl_cons, List.foldl_nil, Option.some_inj]
      split <;> omega

theorem newestRouter_snoc (rows : List Fact) (fact : Fact) :
    newestRouter (rows ++ [fact]) = match routerGen fact with
      | none => newestRouter rows
      | some gen => some (match newestRouter rows with
          | some newest => if gen > newest then gen else newest
          | none => gen) := by
  unfold newestRouter
  cases hGen : routerGen fact with
  | none => simp [hGen]
  | some gen =>
      have hGens : (rows ++ [fact]).filterMap routerGen = rows.filterMap routerGen ++ [gen] := by
        simp [hGen]
      rw [hGens, max?_snoc]

theorem Replay.row_router (hKind : fact.kind = "router") : s.row host fact = (s.router fact).map Replay.quiet := by
  unfold Replay.row
  rw [if_neg (by simp [hKind, settlingKinds]), if_pos hKind]

theorem Replay.row_newest (hRow : s.row host fact = .ok e) : e.replay.newest = match routerGen fact with
      | none => s.newest
      | some gen => some (match s.newest with
          | some newest => if gen > newest then gen else newest
          | none => gen) := by
  by_cases hKind : fact.kind = "router"
  · rw [Replay.row_router hKind] at hRow
    obtain ⟨s', hRouter, rfl⟩ := map_quiet_eq_ok hRow
    unfold Replay.router at hRouter
    unfold routerGen
    rw [if_pos hKind]
    cases hGen : fact.data.lookup "gen" with
    | none =>
        rw [hGen] at hRouter
        exact Except.ok.inj hRouter ▸ rfl
    | some value =>
        simp only [hGen, Option.bind_some] at hRouter ⊢
        cases hInt : value.toInt with
        | some gen =>
            simp only [hInt] at hRouter
            exact Except.ok.inj hRouter ▸ rfl
        | none =>
            simp only [hInt] at hRouter
            split at hRouter
            · cases hRouter
            · exact Except.ok.inj hRouter ▸ rfl
  · have hNone : routerGen fact = none := if_neg hKind
    rw [hNone]
    cases Replay.row_acts hRow with
    | settling _ _ _ hFold =>
        obtain ⟨-, ⟨letters, hExtends, -⟩, -⟩ := dispose_fold hFold
        exact hExtends.newest
    | router hRouter => exact absurd hRouter hKind
    | note => rfl
    | lease => rfl
    | released => rfl
    | attention => rfl
    | injected => exact ((s.accept fact).named_frame host fact).newest
    | written _ hWritten => exact (Replay.written_wrote hWritten).frame.1.newest
    | idle => rfl

theorem replay_newest (h : replay host rows = .ok s) : s.newest = newestRouter rows := by
  induction rows using List.reverseRecOn generalizing s with
  | nil =>
      obtain rfl := Except.ok.inj h
      rfl
  | append_singleton rows fact ih =>
      obtain ⟨s₀, e, hBefore, hRow, rfl⟩ := replay_snoc.mp h
      rw [Replay.row_newest hRow, newestRouter_snoc, ih hBefore]

theorem settlingKinds_loom : ∀ kind ∈ settlingKinds, kind ∈ loomKinds := by
  decide

theorem int_eq_ok {value : Value} {n : Int} (h : int value = .ok n) : value.toInt = some n := by
  unfold int at h
  split at h
  · next hInt => exact Except.ok.inj h ▸ hInt
  · split at h <;> cases h

/-- An accepted fact of a kind the loom does not write stands behind a strand's
hold on a thread. -/
theorem Replay.Acts.holds (h : s.Acts host fact e) (hLive : s.LiveHolds) (hKind : fact.kind ∉ loomKinds)
    (hGen : Dict.has fact.data "gen") (hAccepted : fact ∈ e.replay.accepted.drop s.accepted.length) :
    ∃ strand gen thread, strandOf fact = some strand ∧
      (Dict.get fact.data "gen").toInt = some gen ∧ s.holder thread = some (strand, gen) := by
  have hOther : ∀ kind ∈ loomKinds, fact.kind ≠ kind := fun kind hMem hEq => hKind (hEq ▸ hMem)
  cases h with
  | settling hSettling => exact absurd (settlingKinds_loom _ hSettling) hKind
  | router hRouter => exact absurd hRouter (hOther _ (by decide))
  | note => simp at hAccepted
  | lease hLease => exact absurd hLease (hOther _ (by decide))
  | released hReleased => exact absurd hReleased (hOther _ (by decide))
  | attention hAttention => exact absurd hAttention (hOther _ (by decide))
  | injected _ hNone => simp [hNone] at hGen
  | @written _ body hWrites =>
      obtain ⟨hStrand, ⟨value, hValue, hInt⟩, hBody⟩ := hWrites
      obtain ⟨thread, hHolds⟩ := hLive body.1 body.2 hBody
      exact ⟨body.1, body.2, thread, hStrand, by simp [Dict.get, hValue, int_eq_ok hInt], hHolds⟩
  | idle => simp [Replay.quiet] at hAccepted

/-- A lease of a router other than the newest one changes nothing. -/
theorem Replay.stale_lease (hRow : s.row host fact = .ok e) (hKind : fact.kind = "lease") (hPinned : pinned fact = false)
    (hStale : match s.newest with | none => Dict.get fact.data "router_gen" ≠ .null | some newest => (Dict.get fact.data "router_gen").toInt ≠ some newest) :
    e = s.quiet := by
  have hLease : s.row host fact = (s.lease host fact).map Replay.quiet := by
    unfold Replay.row
    rw [if_neg (by simp [hKind, settlingKinds]), if_neg (by simp [hKind]),
      if_neg (by simp [settlesByNote, hKind]), if_pos hKind]
  rw [hLease] at hRow
  obtain ⟨s', hLeased, rfl⟩ := map_quiet_eq_ok hRow
  obtain ⟨counts, hCounts, hLeased⟩ := Fallible.peel hLeased
  have hFalse : counts = false := by
    unfold leaseAccepted at hCounts
    rw [if_neg (by simp [hPinned])] at hCounts
    split at hCounts
    · next hNull =>
        obtain rfl := Except.ok.inj hCounts
        cases hNewest : s.newest with
        | none => simp [hNewest, hNull] at hStale
        | some => rfl
    · split at hCounts
      · next grant hGrant =>
          obtain rfl := Except.ok.inj hCounts
          cases hNewest : s.newest with
          | none => rfl
          | some newest =>
              rw [hNewest, hGrant] at hStale
              exact decide_eq_false fun hEq => hStale hEq.symm
      · split at hCounts
        · cases hCounts
        · exact (Except.ok.inj hCounts).symm
  rw [hFalse] at hLeased
  exact congrArg Replay.quiet (Except.ok.inj hLeased).symm

/-- After every prefix of a history: a thread has one holder; a live strand
holds some thread at its generation; a strand's fact with a generation is
accepted only while the strand holds some thread at it; and a lease that a
router granted, if that router is not the newest one so far, takes no thread. -/
theorem fencing {host : Host} {rows : List Fact} {s : Replay} (h : replay host rows = .ok s) :
    (∀ thread a b, s.holder thread = some a → s.holder thread = some b → a = b) ∧
    (∀ strand gen, s.live strand = some gen → ∃ thread, s.holder thread = some (strand, gen)) ∧
    (∀ fact e, s.row host fact = .ok e → fact.kind ∉ loomKinds → Dict.has fact.data "gen" →
      fact ∈ e.replay.accepted.drop s.accepted.length →
      ∃ strand gen thread, strandOf fact = some strand ∧
        (Dict.get fact.data "gen").toInt = some gen ∧ s.holder thread = some (strand, gen)) ∧
    (∀ fact e, s.row host fact = .ok e → fact.kind = "lease" → pinned fact = false →
      (match newestRouter rows with
        | none => Dict.get fact.data "router_gen" ≠ .null
        | some newest => (Dict.get fact.data "router_gen").toInt ≠ some newest) →
      e.replay.holder = s.holder) := by
  refine ⟨fun thread a b ha hb => Option.mem_unique ha hb, replay_liveHolds h,
    fun fact e hRow => (Replay.row_acts hRow).holds (replay_liveHolds h),
    fun fact e hRow hKind hPinned hStale => ?_⟩
  rw [← replay_newest h] at hStale
  rw [Replay.stale_lease hRow hKind hPinned hStale]
  rfl

def row (kind by_ ident : String) (data : Dict) : Fact :=
  ⟨kind, by_, data, "", ident, version, none, []⟩

/-- A lease of the thread `work` by the router of a generation. -/
def leaseRow (strand : String) (gen router : Int) : Fact :=
  row "lease" "loom:aaaa" ("lease:" ++ strand) [("gen", .int gen), ("router_gen", .int router),
    ("strand", .str strand), ("thread", .str "work")]

def routerRow (gen : Int) : Fact :=
  row "router" "loom:aaaa" ("router:" ++ toString gen) [("gen", .int gen)]

theorem fencing_stale_router : ∃ s e,
    replay timedHost [routerRow 1, leaseRow "s-1" 1 1, routerRow 2] = .ok s ∧
      s.row timedHost (leaseRow "s-2" 2 1) = .ok e ∧ e.replay.holder "work" = some ("s-1", 1) := by
  have hHolder : (replay timedHost [routerRow 1, leaseRow "s-1" 1 1, routerRow 2]).map
      (fun s => s.holder "work") = .ok (some ("s-1", 1)) := by decide
  have hRow : ((replay timedHost [routerRow 1, leaseRow "s-1" 1 1, routerRow 2]).bind
      fun s => s.row timedHost (leaseRow "s-2" 2 1)).isOk := by decide
  cases hs : replay timedHost [routerRow 1, leaseRow "s-1" 1 1, routerRow 2] with
  | error => simp [hs, Except.map] at hHolder
  | ok s =>
      cases he : s.row timedHost (leaseRow "s-2" 2 1) with
      | error => simp [hs, he, Except.bind, Except.isOk, Except.toBool] at hRow
      | ok e =>
          have hNewest : newestRouter [routerRow 1, leaseRow "s-1" 1 1, routerRow 2] = some 2 := by decide
          have hSame := (fencing hs).2.2.2 (leaseRow "s-2" 2 1) e he (by decide) (by decide)
            (by rw [hNewest]; decide)
          refine ⟨s, e, rfl, he, ?_⟩
          rw [hSame]
          simpa [hs, Except.map] using hHolder

end Brnrd.Project
