import Brnrd.Project.Closure
import Brnrd.Project.Rows

/-! A reducer that is resumed batch by batch ends where one replay of the whole
list does. -/
namespace Brnrd.Project

open Python Facts TimedGraph

/-- What the first loop computes, whatever the batches. -/
structure Marked where
  replay : Replay
  explicit : Finset String
  disposed : Finset String

def Marked.start : Marked :=
  ⟨Replay.start, ∅, ∅⟩

def Marked.read (host : Host) (m : Marked) (fact : Fact) : Except Raised Marked := do
  let e ← m.replay.row host fact
  .ok ⟨e.replay, m.explicit ∪ e.marks.toFinset, m.disposed ∪ e.done.toFinset⟩

def Reducer.marked (r : Reducer) : Marked :=
  ⟨r.replay, r.explicit, r.disposed⟩

/-- What the second loop computes of the activity, with its checks. -/
def indexRow (host : Host) (a : Activity) (fact : Fact) : Except Raised Activity := do
  let a ← a.row host fact
  match noticePair fact with
  | some (left, right) => do
      hash left
      hash right
      .ok a
  | none => .ok a

/-- The reducer's links once the accepted facts in `seen` are indexed. -/
structure Reducer.Linked (host : Host) (seen : List Fact) (r : Reducer) : Prop where
  indexed : seen.foldlM (indexRow host) Activity.start = .ok r.activity
  pending : ∀ x ∈ r.pendingHandled, x ∈ r.explicit
  edges : ∀ v, r.noticeEdges v =
    (arcsFrom (noticeArcs (seen.filterMap noticePair)) v).map fun a => (a.time, a.target)
  count : r.noticeCount = (seen.filterMap noticePair).length
  labels : Labels (fun v => ∃ x ∈ r.explicit, x ∉ r.pendingHandled ∧ v = .str x) (-1)
    (noticeArcs (seen.filterMap noticePair)) r.available fun _ _ => False
  published : ∀ v, v ∈ r.published ↔ (r.available v).isSome ∨ ∃ x ∈ r.disposed, v = .str x

section Read

variable {host : Host} {seen : List Fact} {r : Reducer}

theorem Reducer.Linked.mark (h : r.Linked host seen) (x : String) : (r.mark x).Linked host seen := by
  unfold Reducer.mark
  split
  · exact h
  · next hNew =>
      refine ⟨h.indexed, fun y hy => ?_, h.edges, h.count, ?_, h.published⟩
      · rcases List.mem_append.mp hy with hy | hy
        · exact Finset.mem_insert_of_mem (h.pending y hy)
        · exact List.mem_singleton.mp hy ▸ Finset.mem_insert_self _ _
      · refine h.labels.congr_seed fun v => exists_congr fun y => ?_
        -- The new mark is pending, so the settled ones stay the same.
        have hOther : y ∈ r.explicit → y ≠ x := fun hy hEq => hNew (hEq ▸ hy)
        simp only [Finset.mem_insert, List.mem_append, List.mem_singleton]
        tauto

theorem Reducer.Linked.dispose (h : r.Linked host seen) (x : String) : (r.dispose x).Linked host seen := by
  refine ⟨h.indexed, h.pending, h.edges, h.count, h.labels, fun v => ?_⟩
  simp only [Reducer.dispose, Finset.mem_insert, h.published v, or_and_right, exists_or,
    exists_eq_left]
  tauto

@[simp] theorem Reducer.mark_marked (x : String) :
    (r.mark x).marked = ⟨r.replay, insert x r.explicit, r.disposed⟩ := by
  unfold Reducer.mark
  split
  · next hOld => simp [Reducer.marked, hOld]
  · rfl

theorem Reducer.marks_marked (marks : List String) :
    (marks.foldl Reducer.mark r).marked = ⟨r.replay, r.explicit ∪ marks.toFinset, r.disposed⟩ := by
  induction marks generalizing r with
  | nil => simp [Reducer.marked]
  | cons x marks ih =>
      obtain ⟨hReplay, hExplicit, hDisposed⟩ := Marked.mk.inj (r.mark_marked x)
      rw [List.foldl_cons, ih, hReplay, hExplicit, hDisposed]
      simp [Finset.insert_union, Finset.union_insert]

theorem Reducer.disposes_marked (done : List String) :
    (done.foldl Reducer.dispose r).marked = ⟨r.replay, r.explicit, r.disposed ∪ done.toFinset⟩ := by
  induction done generalizing r with
  | nil => simp [Reducer.marked]
  | cons x done ih =>
      rw [List.foldl_cons, ih]
      simp [Reducer.dispose, Finset.insert_union, Finset.union_insert]

theorem Reducer.read_marked (host : Host) (r : Reducer) (fact : Fact) :
    (r.read host fact).map Reducer.marked = r.marked.read host fact := by
  unfold Reducer.read Marked.read
  cases hRow : r.replay.row host fact with
  | error e => simp [Reducer.marked, hRow, bind, Except.bind, Except.map]
  | ok e =>
      have hMarks := Reducer.marks_marked (r := { r with replay := e.replay }) e.marks
      obtain ⟨hReplay, hExplicit, hDisposed⟩ := Marked.mk.inj hMarks
      simp only [Reducer.marked, hRow, bind, Except.bind, Except.map]
      have hDone := Reducer.disposes_marked
        (r := e.marks.foldl Reducer.mark { r with replay := e.replay }) e.done
      rw [hReplay, hExplicit, hDisposed] at hDone
      exact congrArg Except.ok hDone

theorem Reducer.Linked.read (h : r.Linked host seen) {r' : Reducer} {fact : Fact}
    (hRead : r.read host fact = .ok r') : r'.Linked host seen := by
  obtain ⟨e, -, hEq⟩ := Fallible.peel hRead
  have hReplay : ({ r with replay := e.replay } : Reducer).Linked host seen :=
    ⟨h.indexed, h.pending, h.edges, h.count, h.labels, h.published⟩
  have hMarks : (e.marks.foldl Reducer.mark { r with replay := e.replay }).Linked host seen :=
    List.foldlRecOn e.marks Reducer.mark hReplay fun _ hm x _ => hm.mark x
  exact Except.ok.inj hEq ▸ List.foldlRecOn e.done Reducer.dispose hMarks fun _ hm x _ => hm.dispose x

end Read

section Index

variable {host : Host} {seen : List Fact} {r : Reducer}

theorem Reducer.reach_available (index : Int) (r : Reducer) (ident v : Value) :
    (r.reach index ident).available v =
      if v = ident ∧ r.available ident = none then some index else r.available v := by
  unfold Reducer.reach
  by_cases hNone : r.available ident = none
  · by_cases hv : v = ident
    · simp [hNone, hv]
    · simp [hNone, hv]
  · simp [hNone]

theorem Reducer.reach_published {index : Int} {closed : Value → Prop} {ident : Value}
    (h : ∀ v, v ∈ r.published ↔ (r.available v).isSome ∨ closed v) (v : Value) :
    v ∈ (r.reach index ident).published ↔ ((r.reach index ident).available v).isSome ∨ closed v := by
  unfold Reducer.reach
  split
  · rw [Finset.mem_insert, h v, isSome_update, or_assoc]
  · exact h v

theorem Reducer.reach_frame (index : Int) (ident : Value) :
    (r.reach index ident).marked = r.marked ∧ (r.reach index ident).pendingHandled = r.pendingHandled ∧
      (r.reach index ident).activity = r.activity ∧
      (r.reach index ident).noticeEdges = r.noticeEdges ∧
      (r.reach index ident).noticeCount = r.noticeCount := by
  unfold Reducer.reach
  split <;> exact ⟨rfl, rfl, rfl, rfl, rfl⟩

theorem link_eq_self {label : Value → Option Int} {e : Int × Value × Value}
    (h : ((label e.2.1).isSome || (label e.2.2).isSome) = false) : TimedGraph.link label e = label := by
  obtain ⟨hLeft, hRight⟩ := Bool.or_eq_false_iff.mp h
  funext v
  simp [TimedGraph.link, hLeft, hRight]

theorem Reducer.reaches_available {index : Int} {left right : Value}
    (h : ((r.available left).isSome || (r.available right).isSome) = true) :
    ([left, right].foldl (Reducer.reach index) r).available =
      TimedGraph.link r.available (index, left, right) := by
  have hEnds : (r.available left).isSome ∨ (r.available right).isSome := by simpa using h
  funext v
  simp only [List.foldl_cons, List.foldl_nil, Reducer.reach_available, TimedGraph.link, hEnds, and_true]
  by_cases hLeft : v = left
  · subst hLeft
    by_cases hRight : v = right
    · subst hRight
      cases r.available v <;> simp
    · simp [hRight]
  · by_cases hRight : v = right
    · subst hRight
      simp [hLeft]
    · simp [hLeft, hRight]

theorem arcsFrom_snoc (arcs : List (Arc Int Value)) (index : Int) (left right v : Value) :
    (arcsFrom (arcs ++ both (index, left, right)) v).map (fun a => (a.time, a.target)) =
      (arcsFrom arcs v).map (fun a => (a.time, a.target)) ++
        ((if left = v then [(index, right)] else []) ++ if right = v then [(index, left)] else []) := by
  rw [arcsFrom, List.filter_append, List.map_append, ← arcsFrom]
  congr 1
  by_cases hLeft : left = v <;> by_cases hRight : right = v <;> simp [both, hLeft, hRight]

/-- What a new edge changes. -/
structure Reducer.LinksTo (r : Reducer) (left right : Value) (r' : Reducer) : Prop where
  marked : r'.marked = r.marked
  pending : r'.pendingHandled = r.pendingHandled
  activity : r'.activity = r.activity
  count : r'.noticeCount = r.noticeCount + 1
  edges : ∀ v, r'.noticeEdges v = r.noticeEdges v ++
    ((if left = v then [((r.noticeCount : Int), right)] else []) ++
      if right = v then [((r.noticeCount : Int), left)] else [])
  available : r'.available = TimedGraph.link r.available ((r.noticeCount : Int), left, right)
  published : ∀ closed : Value → Prop, (∀ v, v ∈ r.published ↔ (r.available v).isSome ∨ closed v) →
    ∀ v, v ∈ r'.published ↔ (r'.available v).isSome ∨ closed v

theorem Reducer.addEdge_edges (r : Reducer) (left right v : Value) :
    (r.addEdge left right).noticeEdges v = r.noticeEdges v ++
      ((if left = v then [((r.noticeCount : Int), right)] else []) ++
        if right = v then [((r.noticeCount : Int), left)] else []) := by
  unfold Reducer.addEdge
  by_cases hRight : right = v
  · subst hRight
    by_cases hLeft : left = right
    · subst hLeft
      simp
    · simp [hLeft, Function.update_of_ne (Ne.symm hLeft)]
  · simp only [Function.update_of_ne (Ne.symm hRight), if_neg hRight, List.append_nil]
    by_cases hLeft : left = v
    · subst hLeft
      simp
    · simp [hLeft, Function.update_of_ne (Ne.symm hLeft)]

theorem Reducer.link_linksTo (r : Reducer) (left right : Value) : r.LinksTo left right (r.link left right) := by
  unfold Reducer.link
  split
  · next hEnds =>
      obtain ⟨hMarked, hPending, hActivity, hEdges, hCount⟩ :=
        ((r.addEdge left right).reach r.noticeCount left).reach_frame r.noticeCount right
      obtain ⟨hMarked', hPending', hActivity', hEdges', hCount'⟩ :=
        (r.addEdge left right).reach_frame r.noticeCount left
      refine ⟨hMarked.trans hMarked', hPending.trans hPending', hActivity.trans hActivity',
        hCount.trans hCount', fun v => ?_, Reducer.reaches_available hEnds, fun closed h => ?_⟩
      · exact (congrFun (hEdges.trans hEdges') v).trans (r.addEdge_edges left right v)
      · have hBase : ∀ v, v ∈ (r.addEdge left right).published ↔
            ((r.addEdge left right).available v).isSome ∨ closed v := h
        exact Reducer.reach_published (Reducer.reach_published hBase)
  · next hNone =>
      exact ⟨rfl, rfl, rfl, rfl, r.addEdge_edges left right,
        (link_eq_self (Bool.eq_false_of_not_eq_true hNone)).symm, fun _ h => h⟩

theorem Reducer.Linked.link (h : r.Linked host seen) {a : Activity} {r' : Reducer} {fact : Fact}
    {left right : Value} (hPair : noticePair fact = some (left, right))
    (hLinks : ({ r with activity := a } : Reducer).LinksTo left right r')
    (hIndexed : (seen ++ [fact]).foldlM (indexRow host) Activity.start = .ok a) :
    r'.Linked host (seen ++ [fact]) := by
  obtain ⟨-, hExplicit, hDisposed⟩ := Marked.mk.inj hLinks.marked
  have hPairs : (seen ++ [fact]).filterMap noticePair =
      seen.filterMap noticePair ++ [(left, right)] := by simp [hPair]
  refine ⟨hLinks.activity ▸ hIndexed, ?_, fun v => ?_, ?_, ?_, ?_⟩
  · rw [hLinks.pending, hExplicit]
    exact h.pending
  · rw [hPairs, noticeArcs_snoc, arcsFrom_snoc, hLinks.edges, h.edges, h.count]
  · rw [hPairs, hLinks.count, h.count, List.length_append]
    rfl
  · rw [hPairs, noticeArcs_snoc, hLinks.available, hLinks.pending, hExplicit, h.count]
    refine h.labels.link ?_ fun a ha => (noticeArcs_lt ha).2
    simp only
    omega
  · rw [hDisposed]
    exact hLinks.published _ h.published

/-- One turn of the second loop. -/
theorem Reducer.Linked.index (h : r.Linked host seen) {r' : Reducer} {fact : Fact}
    (hIndex : r.index host fact = .ok r') :
    r'.Linked host (seen ++ [fact]) ∧ r'.marked = r.marked := by
  obtain ⟨a, hActivity, hIndex⟩ := Fallible.peel hIndex
  have hRow : ∀ {a'}, indexRow host r.activity fact = .ok a' →
      (seen ++ [fact]).foldlM (indexRow host) Activity.start = .ok a' :=
    fun hRow => Fallible.foldlM_snoc.mpr ⟨_, h.indexed, hRow⟩
  cases hPair : noticePair fact with
  | none =>
      simp only [hPair] at hIndex
      obtain rfl := Except.ok.inj hIndex
      have hSame : (seen ++ [fact]).filterMap noticePair = seen.filterMap noticePair := by simp [hPair]
      refine ⟨⟨hRow ?_, h.pending, hSame ▸ h.edges, hSame ▸ h.count, hSame ▸ h.labels, h.published⟩, rfl⟩
      simp [indexRow, hActivity, hPair, bind, Except.bind]
  | some pair =>
      obtain ⟨left, right⟩ := pair
      simp only [hPair] at hIndex
      obtain ⟨_, hLeft, hIndex⟩ := Fallible.peel hIndex
      obtain ⟨_, hRight, hIndex⟩ := Fallible.peel hIndex
      obtain rfl := Except.ok.inj hIndex
      have hLinks := ({ r with activity := a } : Reducer).link_linksTo left right
      refine ⟨h.link hPair hLinks (hRow ?_), hLinks.marked⟩
      simp [indexRow, hActivity, hPair, hLeft, hRight, bind, Except.bind]

end Index

theorem Reducer.index_activity (host : Host) (r : Reducer) (fact : Fact) :
    (r.index host fact).map Reducer.activity = indexRow host r.activity fact := by
  unfold Reducer.index indexRow
  cases r.activity.row host fact with
  | error e => rfl
  | ok a =>
      cases hPair : noticePair fact with
      | none => simp [bind, Except.bind, Except.map]
      | some pair =>
          obtain ⟨left, right⟩ := pair
          have hActivity := (({ r with activity := a } : Reducer).link_linksTo left right).activity
          cases hLeft : hash left <;> cases hRight : hash right <;>
            simp [hLeft, hRight, bind, Except.bind, Except.map, hActivity]

/-- The reducer after the rows of some batches. -/
structure Reducer.Fed (host : Host) (rows : List Fact) (r : Reducer) : Prop where
  marked : rows.foldlM (Marked.read host) Marked.start = .ok r.marked
  linked : r.Linked host r.replay.accepted

theorem Reducer.Fed.start (host : Host) : Reducer.start.Fed host [] where
  marked := rfl
  linked := by
    refine ⟨rfl, by simp [Reducer.start], fun v => rfl, rfl, ⟨fun v t ht => ?_, fun v hv => ?_,
      fun a ha => absurd ha List.not_mem_nil⟩, by simp [Reducer.start]⟩
    · cases ht
    · simp [Reducer.start] at hv

variable {host : Host}

theorem marked_accepted {rows : List Fact} {m m' : Marked} (h : rows.foldlM (Marked.read host) m = .ok m') :
    ∃ added, m'.replay.accepted = m.replay.accepted ++ added := by
  refine Fallible.foldlM_invariant (fun _ (n : Marked) =>
    ∃ added, n.replay.accepted = m.replay.accepted ++ added) ⟨[], (List.append_nil _).symm⟩ ?_ h
  rintro l fact n n' ⟨added, hAdded⟩ hStep
  obtain ⟨e, hRow, hStep⟩ := Fallible.peel hStep
  obtain rfl := Except.ok.inj hStep
  obtain ⟨new, hNew⟩ := (Replay.row_acts hRow).accepted
  exact ⟨added ++ new, by simp [hNew, hAdded]⟩

section Apply

variable {host : Host} {rows batch : List Fact} {r r' : Reducer}

theorem Reducer.Fed.apply (h : r.Fed host rows) (hApply : r.apply host batch = .ok r') : r'.Fed host (rows ++ batch) := by
  obtain ⟨m, hRead, hIndex⟩ := Fallible.peel hApply
  have hLinked : m.Linked host r.replay.accepted :=
    Fallible.foldlM_invariant (fun _ m => m.Linked host r.replay.accepted) h.linked
      (fun _ _ _ _ hm hStep => hm.read hStep) hRead
  have hMarked : batch.foldlM (Marked.read host) r.marked = .ok m.marked := by
    rw [← Fallible.foldlM_map (Reducer.read_marked host), hRead]
    rfl
  obtain ⟨added, hAdded⟩ := marked_accepted hMarked
  have hAccepted : m.replay.accepted = r.replay.accepted ++ added := hAdded
  rw [hAccepted, List.drop_left] at hIndex
  obtain ⟨hEnd, hSame⟩ := Fallible.foldlM_invariant
    (fun l (n : Reducer) => n.Linked host (r.replay.accepted ++ l) ∧ n.marked = m.marked)
    ⟨by simpa using hLinked, rfl⟩ (fun l fact n n' hn hStep => by
      obtain ⟨hNext, hKept⟩ := hn.1.index hStep
      exact ⟨by simpa using hNext, hKept.trans hn.2⟩) hIndex
  have hReplay : r'.replay.accepted = r.replay.accepted ++ added :=
    (congrArg (fun n : Marked => n.replay.accepted) hSame).trans hAccepted
  exact ⟨Fallible.foldlM_append_eq_ok.mpr ⟨_, h.marked, hSame ▸ hMarked⟩, hReplay ▸ hEnd⟩

/-- Where both loops get through, the batch does. -/
theorem Reducer.Fed.apply_ok (h : r.Fed host rows) {m : Marked} {a : Activity}
    (hMarked : batch.foldlM (Marked.read host) r.marked = .ok m)
    (hIndexed : m.replay.accepted.foldlM (indexRow host) Activity.start = .ok a) :
    ∃ r', r.apply host batch = .ok r' := by
  have hRead := Fallible.foldlM_map (Reducer.read_marked host) batch r
  rw [hMarked] at hRead
  cases hLoop : batch.foldlM (Reducer.read host) r with
  | error e => simp [hLoop, Except.map] at hRead
  | ok n =>
      have hn : n.marked = m := by simpa [hLoop, Except.map] using hRead
      obtain ⟨added, hAdded⟩ := marked_accepted hMarked
      have hAccepted : n.replay.accepted = r.replay.accepted ++ added :=
        (congrArg (fun n : Marked => n.replay.accepted) hn).trans hAdded
      have hLinked : n.Linked host r.replay.accepted :=
        Fallible.foldlM_invariant (fun _ n => n.Linked host r.replay.accepted) h.linked
          (fun _ _ _ _ hm hStep => hm.read hStep) hLoop
      rw [hAdded] at hIndexed
      obtain ⟨a', hOld, hNew⟩ := Fallible.foldlM_append_eq_ok.mp hIndexed
      obtain rfl := Except.ok.inj (hLinked.indexed.symm.trans hOld)
      have hIndex := Fallible.foldlM_map (Reducer.index_activity host) added n
      rw [hNew] at hIndex
      cases hEnd : added.foldlM (Reducer.index host) n with
      | error e => simp [hEnd, Except.map] at hIndex
      | ok r' =>
          refine ⟨r', Fallible.bind_eq_ok.mpr ⟨n, hLoop, ?_⟩⟩
          rw [hAccepted, List.drop_left, hEnd]

end Apply

/-- A letter is handled if a walk of notices reaches it from a marked letter,
or a disposition closed it. -/
def Reached (accepted : List Fact) (explicit disposed : Finset String) (v : Value) : Prop :=
  (∃ t, Arrives (fun v => ∃ x ∈ explicit, v = .str x) (-1)
    (noticeArcs (accepted.filterMap noticePair)) v t) ∨ ∃ x ∈ disposed, v = .str x

section Finish

variable {host : Host} {rows : List Fact} {r : Reducer}

theorem Closing.Holds.seeds {seed : Value → Prop} {arcs : List (Arc Int Value)} {closed : Value → Prop}
    (hStart : ∀ a ∈ arcs, -1 < a.time) {c : Closing} (h : c.Holds seed arcs closed) (idents : List String) :
    (idents.foldl Closing.seed c).Holds (fun v => seed v ∨ ∃ x ∈ idents, v = .str x) arcs closed := by
  induction idents using List.reverseRecOn with
  | nil => exact ⟨h.labels.congr_seed (by simp), h.published⟩
  | append_singleton idents x ih =>
      rw [List.foldl_append]
      refine ⟨((ih.labels.addSeed hStart (.str x)).congr_seed fun v => ?_).drop ?_, fun v => ?_⟩
      · simp only [List.mem_append, List.mem_singleton, or_and_right, exists_or, exists_eq_left, or_assoc]
      · rintro v t - (hPending | ⟨rfl, rfl⟩)
        · exact List.mem_append_left _ hPending
        · exact List.mem_append_right _ (List.mem_singleton_self _)
      · show v ∈ insert (Value.str x) (idents.foldl Closing.seed c).published ↔
          Option.isSome (Function.update (idents.foldl Closing.seed c).available (.str x) (some (-1)) v) ∨
            closed v
        rw [Finset.mem_insert, ih.published v, isSome_update, or_assoc]

/-- `finish` settles every mark and publishes the closure. -/
theorem Reducer.Fed.finish (h : r.Fed host rows) :
    r.finish.Fed host rows ∧ r.finish.pendingHandled = [] ∧
      ∀ v, v ∈ r.finish.handled ↔ Reached r.replay.accepted r.explicit r.disposed v := by
  have hLinked := h.linked
  have hBefore : Closing.Holds _ _ (fun v => ∃ x ∈ r.disposed, v = .str x)
      ⟨r.available, r.published, []⟩ :=
    ⟨hLinked.labels.drop fun _ _ _ hFalse => hFalse.elim, hLinked.published⟩
  have hSeeded := hBefore.seeds (fun a ha => (noticeArcs_lt ha).1) r.pendingHandled
  have hSlack : slack (noticeArcs (r.replay.accepted.filterMap noticePair))
      (r.pendingHandled.foldl Closing.seed ⟨r.available, r.published, []⟩).available ≤
        2 * r.noticeCount := by
    rw [hLinked.count, ← length_noticeArcs]
    exact List.countP_le_length
  obtain ⟨hClosed, hNone⟩ := close_spec hLinked.edges hSeeded (Nat.add_le_add_left hSlack _)
  have hSeed : ∀ v, ((∃ x ∈ r.explicit, x ∉ r.pendingHandled ∧ v = .str x) ∨
      ∃ x ∈ r.pendingHandled, v = .str x) ↔ ∃ x ∈ r.explicit, v = Value.str x := by
    intro v
    constructor
    · rintro (⟨x, hx, -, rfl⟩ | ⟨x, hx, rfl⟩)
      · exact ⟨x, hx, rfl⟩
      · exact ⟨x, hLinked.pending x hx, rfl⟩
    · rintro ⟨x, hx, rfl⟩
      by_cases hPending : x ∈ r.pendingHandled
      · exact .inr ⟨x, hPending, rfl⟩
      · exact .inl ⟨x, hx, hPending, rfl⟩
  have hSettled : Labels _ (-1) (noticeArcs (r.replay.accepted.filterMap noticePair))
      r.finish.available fun _ _ => False :=
    hClosed.labels.drop fun v t _ hPending => by simp [hNone] at hPending
  have hLabels := hSettled.congr_seed hSeed
  refine ⟨⟨h.marked, ⟨hLinked.indexed, by simp [Reducer.finish], hLinked.edges, hLinked.count, ?_,
    hClosed.published⟩⟩, rfl, fun v => ?_⟩
  · exact hLabels.congr_seed fun v => by simp [Reducer.finish]
  · exact (hClosed.published v).trans (or_congr_left (hLabels.isSome_iff v))

end Finish

section Oracle

theorem passNotice_eq {handled handled' : Finset Value} {fact : Fact}
    (h : passNotice handled fact = .ok handled') : handled' = match noticePair fact with
      | some (left, right) =>
          if left ∈ handled ∨ right ∈ handled then insert left (insert right handled) else handled
      | none => handled := by
  obtain ⟨_, -, h⟩ := Fallible.peel h
  obtain ⟨_, -, h⟩ := Fallible.peel h
  unfold noticePair
  by_cases hPair : isNotice fact ∧ Dict.get fact.data "id" ≠ .null ∧ Dict.get fact.data "stands" ≠ .null
  · simp only [hPair, ne_eq, not_false_eq_true, and_self, true_and, if_true] at h ⊢
    split at h
    · next hEnd => simpa [hEnd] using h.symm
    · next hEnd => simpa [hEnd] using h.symm
  · simp only [hPair, if_false] at h ⊢
    rw [if_neg (fun hAll => hPair ⟨hAll.1, hAll.2.1⟩)] at h
    exact (Except.ok.inj h).symm

/-- The oracle's pass is a sweep over the notices in their order. -/
theorem pass_sweep {accepted : List Fact} {start handled : Finset Value}
    (h : accepted.foldlM passNotice start = .ok handled) :
    handled = sweep (noticeTriples (accepted.filterMap noticePair)) start := by
  refine Fallible.foldlM_invariant (fun l handled =>
    handled = sweep (noticeTriples (l.filterMap noticePair)) start) rfl ?_ h
  intro l fact handled handled' hSweep hStep
  rw [passNotice_eq hStep]
  cases hPair : noticePair fact with
  | none => simpa [hPair] using hSweep
  | some pair =>
      obtain ⟨left, right⟩ := pair
      have hPairs : (l ++ [fact]).filterMap noticePair = l.filterMap noticePair ++ [(left, right)] := by
        simp [hPair]
      rw [hPairs, noticeTriples_snoc, sweep_snoc, ← hSweep]

theorem fold_handled {r : Reducer} {handled : Finset Value}
    (hPass : r.replay.accepted.foldlM passNotice (r.explicit.image .str) = .ok handled) (v : Value) :
    v ∈ handled ∪ r.disposed.image .str ↔ Reached r.replay.accepted r.explicit r.disposed v := by
  have hImage : ∀ (s : Finset String) (v : Value), v ∈ s.image Value.str ↔ ∃ x ∈ s, v = .str x := by
    intro s v
    simp [eq_comm]
  rw [Finset.mem_union, hImage, pass_sweep hPass, mem_sweep_iff (noticeTriples_later _)]
  refine or_congr_left (exists_congr fun t => ?_)
  constructor
  · exact fun h => h.mono (fun v hv => (hImage _ v).mp hv) (List.Subset.refl _)
  · exact fun h => h.mono (fun v hv => (hImage _ v).mpr hv) (List.Subset.refl _)

end Oracle

/-- A view and its reducer after a resume. -/
structure Resumed.Holds (host : Host) (s : Resumed) : Prop where
  fed : s.reducer.Fed host s.facts
  offset : s.reducer.offset = s.facts.length
  handled : ∀ v, v ∈ s.reducer.handled ↔
    Reached s.reducer.replay.accepted s.reducer.explicit s.reducer.disposed v

theorem Resumed.Holds.start (host : Host) : Resumed.Holds host ⟨[], Reducer.start⟩ where
  fed := Reducer.Fed.start host
  offset := rfl
  handled := by
    intro v
    simp only [Reducer.start, Finset.notMem_empty, false_iff, Reached, false_and, exists_false,
      or_false, not_exists]
    intro t hArrives
    induction hArrives with
    | seed hSeed => exact hSeed
    | cross _ _ _ ih => exact ih

/-- One batch. -/
theorem Resumed.Holds.feed {s s' : Resumed} {batch : List Fact} (h : s.Holds host) (hFeed : s.feed host batch = .ok s') :
    s'.Holds host ∧ s'.facts = s.facts ++ batch := by
  obtain ⟨r, hResume, hEq⟩ := Fallible.peel hFeed
  obtain rfl := Except.ok.inj hEq
  obtain ⟨r₁, hAdvance, hFinish⟩ := Fallible.peel hResume
  obtain rfl := Except.ok.inj hFinish
  have hBoth : r₁.Fed host (s.facts ++ batch) ∧ r₁.offset = (s.facts ++ batch).length := by
    unfold Reducer.advance at hAdvance
    rw [h.offset, List.drop_left] at hAdvance
    split at hAdvance
    · obtain ⟨r₀, hApply, hEq⟩ := Fallible.peel hAdvance
      obtain rfl := Except.ok.inj hEq
      obtain ⟨hMarked, hLinked⟩ := h.fed.apply hApply
      exact ⟨⟨hMarked, ⟨hLinked.indexed, hLinked.pending, hLinked.edges, hLinked.count,
        hLinked.labels, hLinked.published⟩⟩, rfl⟩
    · next hLength =>
        have hNil : batch = [] := by
          rw [List.length_append] at hLength
          exact List.length_eq_zero_iff.mp (by omega)
        obtain rfl := Except.ok.inj hAdvance
        simpa [hNil] using ⟨h.fed, h.offset⟩
  obtain ⟨hFed, hOffset⟩ := hBoth
  obtain ⟨hFinished, -, hHandled⟩ := hFed.finish
  exact ⟨⟨hFinished, hOffset, hHandled⟩, rfl⟩

/-- A batch gets through where both loops do over everything so far. -/
theorem Resumed.Holds.feed_ok {s : Resumed} {batch : List Fact} (h : s.Holds host) {m : Marked} {a : Activity}
    (hMarked : (s.facts ++ batch).foldlM (Marked.read host) Marked.start = .ok m)
    (hIndexed : m.replay.accepted.foldlM (indexRow host) Activity.start = .ok a) :
    ∃ s', s.feed host batch = .ok s' := by
  obtain ⟨m₀, hOld, hNew⟩ := Fallible.foldlM_append_eq_ok.mp hMarked
  obtain rfl := Except.ok.inj (h.fed.marked.symm.trans hOld)
  obtain ⟨r, hApply⟩ := h.fed.apply_ok hNew hIndexed
  have hAdvance : ∃ r', s.reducer.advance host (s.facts ++ batch) = .ok r' := by
    unfold Reducer.advance
    rw [h.offset, List.drop_left]
    split
    · exact ⟨_, Fallible.bind_eq_ok.mpr ⟨r, hApply, rfl⟩⟩
    · exact ⟨_, rfl⟩
  obtain ⟨r', hAdvance⟩ := hAdvance
  exact ⟨_, Fallible.bind_eq_ok.mpr ⟨_, Fallible.bind_eq_ok.mpr ⟨r', hAdvance, rfl⟩, rfl⟩⟩

theorem resumeAll_holds {batches : List (List Fact)} {s : Resumed} (h : resumeAll host batches = .ok s) :
    s.Holds host ∧ s.facts = batches.flatten := by
  refine Fallible.foldlM_invariant (fun l (s : Resumed) => s.Holds host ∧ s.facts = l.flatten)
    ⟨Resumed.Holds.start host, rfl⟩ ?_ h
  rintro l batch s s' ⟨hHolds, hFacts⟩ hFeed
  obtain ⟨hHolds', hFacts'⟩ := hHolds.feed hFeed
  exact ⟨hHolds', by rw [hFacts', hFacts]; simp⟩

theorem resumeAll_ok {batches : List (List Fact)} {m : Marked} {a : Activity}
    (hMarked : batches.flatten.foldlM (Marked.read host) Marked.start = .ok m)
    (hIndexed : m.replay.accepted.foldlM (indexRow host) Activity.start = .ok a) :
    ∃ s, resumeAll host batches = .ok s := by
  induction batches using List.reverseRecOn generalizing m a with
  | nil => exact ⟨_, rfl⟩
  | append_singleton batches batch ih =>
      have hFlat : (batches ++ [batch]).flatten = batches.flatten ++ batch := by simp
      rw [hFlat] at hMarked
      obtain ⟨m₀, hOld, hNew⟩ := Fallible.foldlM_append_eq_ok.mp hMarked
      obtain ⟨added, hAdded⟩ := marked_accepted hNew
      have hBefore := hIndexed
      rw [hAdded] at hBefore
      obtain ⟨a₀, hOldIndexed, -⟩ := Fallible.foldlM_append_eq_ok.mp hBefore
      obtain ⟨s, hs⟩ := ih hOld hOldIndexed
      obtain ⟨hHolds, hFacts⟩ := resumeAll_holds hs
      rw [← hFacts] at hMarked
      obtain ⟨s', hs'⟩ := hHolds.feed_ok hMarked hIndexed
      exact ⟨s', Fallible.foldlM_snoc.mpr ⟨s, hs, hs'⟩⟩

theorem pass_ok {accepted : List Fact} (handled : Finset Value)
    (h : ∀ f ∈ accepted, (Dict.get f.data "id").hashable ∧ (Dict.get f.data "stands").hashable) :
    ∃ handled', accepted.foldlM passNotice handled = .ok handled' := by
  induction accepted generalizing handled with
  | nil => exact ⟨handled, rfl⟩
  | cons f accepted ih =>
      obtain ⟨hId, hStands⟩ := h f List.mem_cons_self
      have hPass : ∃ handled', passNotice handled f = .ok handled' := by
        simp only [passNotice, hash, hId, hStands, if_true, bind, Except.bind]
        split <;> exact ⟨_, rfl⟩
      obtain ⟨middle, hMiddle⟩ := hPass
      obtain ⟨last, hLast⟩ := ih middle fun g hg => h g (List.mem_cons_of_mem _ hg)
      exact ⟨last, by rw [List.foldlM_cons]; exact Fallible.bind_eq_ok.mpr ⟨middle, hMiddle, hLast⟩⟩

/-- However an ordered list of facts is cut into batches: where the whole replay
returns, so does resuming, with the same accepted facts, holders, live
generations, shown, channel replies, writers and handled letters; and where
resuming returns, the whole replay does, unless an accepted fact has an id or a
`stands` that only the replay's pass hashes. -/
theorem resume_equals_fold (host : Host) (batches : List (List Fact)) :
    (∀ whole, fold host batches.flatten = .ok whole → ∃ s, resumeAll host batches = .ok s ∧
      s.reducer.replay = whole.replay ∧ s.reducer.activity = whole.activity ∧
      s.reducer.handled = whole.handled) ∧
    (∀ s, resumeAll host batches = .ok s → (∃ whole, fold host batches.flatten = .ok whole) ∨
      ∃ f ∈ s.reducer.replay.accepted,
        ¬ ((Dict.get f.data "id").hashable ∧ (Dict.get f.data "stands").hashable)) := by
  constructor
  · intro whole hWhole
    obtain ⟨r, hApply, hWhole⟩ := Fallible.peel hWhole
    obtain ⟨handled, hPass, hEq⟩ := Fallible.peel hWhole
    obtain rfl := Except.ok.inj hEq
    have hFed := (Reducer.Fed.start host).apply hApply
    rw [List.nil_append] at hFed
    obtain ⟨s, hs⟩ := resumeAll_ok hFed.marked hFed.linked.indexed
    obtain ⟨hHolds, hFacts⟩ := resumeAll_holds hs
    have hMarked := hHolds.fed.marked
    rw [hFacts] at hMarked
    obtain ⟨hReplay, hExplicit, hDisposed⟩ :=
      Marked.mk.inj (Except.ok.inj (hMarked.symm.trans hFed.marked))
    have hIndexed := hHolds.fed.linked.indexed
    rw [hReplay] at hIndexed
    refine ⟨s, hs, hReplay, Except.ok.inj (hIndexed.symm.trans hFed.linked.indexed), ?_⟩
    ext v
    rw [hHolds.handled v, hReplay, hExplicit, hDisposed]
    exact (fold_handled hPass v).symm
  · intro s hs
    obtain ⟨hHolds, hFacts⟩ := resumeAll_holds hs
    have hMarked := hHolds.fed.marked
    rw [hFacts] at hMarked
    obtain ⟨r, hApply⟩ := (Reducer.Fed.start host).apply_ok hMarked hHolds.fed.linked.indexed
    have hFed := (Reducer.Fed.start host).apply hApply
    rw [List.nil_append] at hFed
    obtain ⟨hReplay, -, -⟩ := Marked.mk.inj (Except.ok.inj (hMarked.symm.trans hFed.marked))
    by_cases hHashed : ∀ f ∈ s.reducer.replay.accepted,
        (Dict.get f.data "id").hashable ∧ (Dict.get f.data "stands").hashable
    · rw [hReplay] at hHashed
      obtain ⟨handled, hPass⟩ := pass_ok (r.explicit.image .str) hHashed
      exact .inl ⟨_, Fallible.bind_eq_ok.mpr ⟨r, hApply, Fallible.bind_eq_ok.mpr ⟨handled, hPass, rfl⟩⟩⟩
    · push Not at hHashed
      obtain ⟨f, hf, hBad⟩ := hHashed
      exact .inr ⟨f, hf, fun hBoth => by simp [hBad hBoth.1] at hBoth⟩

end Brnrd.Project
