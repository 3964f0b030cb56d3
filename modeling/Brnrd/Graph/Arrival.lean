import Mathlib.Data.Finset.Insert

/-! Earliest arrivals in a graph whose arcs are open at one time each. A walk
crosses arcs of increasing times from a seed; a label is the earliest arrival
known, and labels are relaxed until nothing is pending. -/
namespace TimedGraph

variable {V T : Type*} [LinearOrder T]

structure Arc (T V : Type*) where
  time : T
  source : V
  target : V

/-- A walk from a seed, at its arrival time. -/
inductive Arrives (seed : V → Prop) (start : T) (arcs : List (Arc T V)) : V → T → Prop where
  | seed {v : V} (hSeed : seed v) : Arrives seed start arcs v start
  | cross {a : Arc T V} {t : T} (prior : Arrives seed start arcs a.source t) (hArc : a ∈ arcs)
      (hOpen : t < a.time) : Arrives seed start arcs a.target a.time

theorem Arrives.mono {seed seed' : V → Prop} {start : T} {arcs arcs' : List (Arc T V)} {v : V} {t : T}
    (h : Arrives seed start arcs v t) (hSeed : ∀ v, seed v → seed' v) (hArcs : arcs ⊆ arcs') :
    Arrives seed' start arcs' v t := by
  induction h with
  | seed h => exact Arrives.seed (hSeed _ h)
  | cross _ hArc hOpen ih => exact Arrives.cross ih (hArcs hArc) hOpen

theorem Arrives.time {seed : V → Prop} {start : T} {arcs : List (Arc T V)} {v : V} {t : T}
    (h : Arrives seed start arcs v t) : t = start ∨ ∃ a ∈ arcs, t = a.time := by
  cases h with
  | seed => exact .inl rfl
  | cross _ hArc _ => exact .inr ⟨_, hArc, rfl⟩

/-- Labels that are arrivals, with every arc out of a settled label relaxed. -/
structure Labels (seed : V → Prop) (start : T) (arcs : List (Arc T V)) (label : V → Option T)
    (pending : V → T → Prop) : Prop where
  sound : ∀ v t, label v = some t → Arrives seed start arcs v t
  seeded : ∀ v, seed v → ∃ t ≤ start, label v = some t
  relaxed : ∀ a ∈ arcs, ∀ t, label a.source = some t → ¬ pending a.source t → t < a.time →
    ∃ t' ≤ a.time, label a.target = some t'

variable {seed : V → Prop} {start : T} {arcs : List (Arc T V)} {label : V → Option T}
  {pending pending' : V → T → Prop}

theorem Labels.congr_seed {seed' : V → Prop} (h : Labels seed start arcs label pending)
    (hSeed : ∀ v, seed v ↔ seed' v) : Labels seed' start arcs label pending :=
  (funext fun v => propext (hSeed v) : seed = seed') ▸ h

/-- A pending entry whose label has moved on may be dropped. -/
theorem Labels.drop (h : Labels seed start arcs label pending)
    (hKept : ∀ v t, label v = some t → pending v t → pending' v t) :
    Labels seed start arcs label pending' where
  sound := h.sound
  seeded := h.seeded
  relaxed := fun a ha t ht hSettled =>
    h.relaxed a ha t ht fun hPending => hSettled (hKept _ t ht hPending)

theorem Labels.early (h : Labels seed start arcs label fun _ _ => False) {v : V} {t : T}
    (hArrives : Arrives seed start arcs v t) : ∃ t' ≤ t, label v = some t' := by
  induction hArrives with
  | seed hSeed => exact h.seeded _ hSeed
  | @cross a t _ hArc hOpen ih =>
      obtain ⟨t', hLe, hLabel⟩ := ih
      exact h.relaxed a hArc t' hLabel not_false (lt_of_le_of_lt hLe hOpen)

/-- With nothing pending, what has a label is what a walk reaches. -/
theorem Labels.isSome_iff (h : Labels seed start arcs label fun _ _ => False) (v : V) :
    (label v).isSome ↔ ∃ t, Arrives seed start arcs v t := by
  rw [Option.isSome_iff_exists]
  constructor
  · rintro ⟨t, ht⟩
    exact ⟨t, h.sound v t ht⟩
  · rintro ⟨t, ht⟩
    obtain ⟨t', -, hLabel⟩ := h.early ht
    exact ⟨t', hLabel⟩

section Steps

variable [DecidableEq V]

/-- A new seed is pending at the start. -/
theorem Labels.addSeed (h : Labels seed start arcs label pending)
    (hStart : ∀ a ∈ arcs, start < a.time) (s : V) :
    Labels (fun v => seed v ∨ v = s) start arcs (Function.update label s (some start))
      fun v t => pending v t ∨ v = s ∧ t = start where
  sound := by
    intro v t ht
    by_cases hv : v = s
    · subst hv
      rw [Function.update_self] at ht
      obtain rfl := Option.some.inj ht
      exact Arrives.seed (Or.inr rfl)
    · rw [Function.update_of_ne hv] at ht
      exact (h.sound v t ht).mono (fun _ => Or.inl) (List.Subset.refl _)
  seeded := by
    intro v hSeed
    by_cases hv : v = s
    · exact ⟨start, le_rfl, by rw [hv, Function.update_self]⟩
    · rw [Function.update_of_ne hv]
      exact h.seeded v (hSeed.resolve_right hv)
  relaxed := by
    intro a ha t ht hSettled hOpen
    have hSource : a.source ≠ s := by
      intro hEq
      rw [hEq, Function.update_self] at ht
      exact hSettled (Or.inr ⟨hEq, (Option.some.inj ht).symm⟩)
    rw [Function.update_of_ne hSource] at ht
    by_cases hTarget : a.target = s
    · exact ⟨start, (hStart a ha).le, by rw [hTarget, Function.update_self]⟩
    · rw [Function.update_of_ne hTarget]
      exact h.relaxed a ha t ht (fun hPending => hSettled (Or.inl hPending)) hOpen

/-- An arc that improves its target's label leaves the target pending. -/
theorem Labels.cross (h : Labels seed start arcs label pending) {a : Arc T V} {t : T} (ha : a ∈ arcs)
    (hSource : label a.source = some t) (hOpen : t < a.time)
    (hBetter : ∀ t', label a.target = some t' → a.time < t') :
    Labels seed start arcs (Function.update label a.target (some a.time))
      fun v t => pending v t ∨ v = a.target ∧ t = a.time where
  sound := by
    intro v t' ht'
    by_cases hv : v = a.target
    · subst hv
      rw [Function.update_self] at ht'
      obtain rfl := Option.some.inj ht'
      exact (h.sound _ t hSource).cross ha hOpen
    · rw [Function.update_of_ne hv] at ht'
      exact h.sound v t' ht'
  seeded := by
    intro v hSeed
    obtain ⟨t', hLe, hLabel⟩ := h.seeded v hSeed
    by_cases hv : v = a.target
    · subst hv
      exact ⟨a.time, (hBetter t' hLabel).le.trans hLe, by rw [Function.update_self]⟩
    · exact ⟨t', hLe, by rw [Function.update_of_ne hv, hLabel]⟩
  relaxed := by
    intro b hb t' ht' hSettled hOpen'
    have hOther : b.source ≠ a.target := by
      intro hEq
      rw [hEq, Function.update_self] at ht'
      exact hSettled (Or.inr ⟨hEq, (Option.some.inj ht').symm⟩)
    rw [Function.update_of_ne hOther] at ht'
    obtain ⟨t'', hLe, hLabel⟩ :=
      h.relaxed b hb t' ht' (fun hPending => hSettled (Or.inl hPending)) hOpen'
    by_cases hTarget : b.target = a.target
    · rw [hTarget] at hLabel ⊢
      exact ⟨a.time, (hBetter t'' hLabel).le.trans hLe, Function.update_self ..⟩
    · exact ⟨t'', hLe, by rw [Function.update_of_ne hTarget, hLabel]⟩

/-- A pending vertex whose arcs are all relaxed is settled. -/
theorem Labels.settle (h : Labels seed start arcs label pending) {v : V} {t : T}
    (hLabel : label v = some t) (hRelaxed : ∀ a ∈ arcs, a.source = v → t < a.time →
      ∃ t' ≤ a.time, label a.target = some t')
    (hOthers : ∀ w t', pending w t' → pending' w t' ∨ w = v ∧ t' = t) :
    Labels seed start arcs label pending' where
  sound := h.sound
  seeded := h.seeded
  relaxed := by
    intro a ha t' ht' hSettled hOpen
    by_cases hSource : a.source = v
    · have hTime : t' = t := Option.some.inj (ht'.symm.trans (hSource ▸ hLabel))
      exact hRelaxed a ha hSource (hTime ▸ hOpen)
    · refine h.relaxed a ha t' ht' (fun hPending => ?_) hOpen
      rcases hOthers _ _ hPending with hPending' | ⟨hEq, -⟩
      · exact hSettled hPending'
      · exact hSource hEq

/-- An edge that is open both ways. -/
def both (e : T × V × V) : List (Arc T V) :=
  [⟨e.1, e.2.1, e.2.2⟩, ⟨e.1, e.2.2, e.2.1⟩]

/-- The labels once an edge later than everything before is there: it carries
whatever has reached one of its ends to the other. -/
def link (label : V → Option T) (e : T × V × V) : V → Option T := fun v =>
  if (v = e.2.1 ∨ v = e.2.2) ∧ label v = none ∧ ((label e.2.1).isSome ∨ (label e.2.2).isSome) then
    some e.1
  else label v

variable {e : T × V × V}

omit [LinearOrder T] in
theorem link_of_some {v : V} {t : T} (h : label v = some t) : link label e v = some t := by
  rw [link, if_neg (by simp [h]), h]

omit [LinearOrder T] in
theorem link_eq_some {v : V} {t : T} (h : link label e v = some t) :
    label v = some t ∨ t = e.1 ∧ (v = e.2.1 ∨ v = e.2.2) ∧ label v = none ∧
      ((label e.2.1).isSome ∨ (label e.2.2).isSome) := by
  unfold link at h
  split at h
  · next hNew => exact .inr ⟨(Option.some.inj h).symm, hNew⟩
  · exact .inl h

theorem Labels.link (h : Labels seed start arcs label fun _ _ => False) (hStart : start < e.1)
    (hLater : ∀ a ∈ arcs, a.time < e.1) :
    Labels seed start (arcs ++ both e) (link label e) fun _ _ => False := by
  have hEarlier : ∀ v t, label v = some t → t < e.1 := by
    intro v t ht
    rcases (h.sound v t ht).time with rfl | ⟨a, ha, rfl⟩
    · exact hStart
    · exact hLater a ha
  have hOld : ∀ v t, label v = some t → Arrives seed start (arcs ++ both e) v t := fun v t ht =>
    (h.sound v t ht).mono (fun _ => id) (List.subset_append_left _ _)
  have hCross : ∀ {u w : V}, ⟨e.1, u, w⟩ ∈ both e → (label u).isSome →
      Arrives seed start (arcs ++ both e) w e.1 := by
    intro u w hArc hSome
    obtain ⟨t, ht⟩ := Option.isSome_iff_exists.mp hSome
    exact Arrives.cross (a := ⟨e.1, u, w⟩) (hOld u t ht) (List.mem_append_right _ hArc)
      (hEarlier u t ht)
  refine ⟨fun v t ht => ?_, fun v hSeed => ?_, fun a ha t ht _ hOpen => ?_⟩
  · rcases link_eq_some ht with hLabel | ⟨rfl, rfl | rfl, hNone, hSome⟩
    · exact hOld v t hLabel
    · exact hCross (by simp [both]) (hSome.resolve_left (by simp [hNone]))
    · exact hCross (by simp [both]) (hSome.resolve_right (by simp [hNone]))
  · obtain ⟨t, hLe, hLabel⟩ := h.seeded v hSeed
    exact ⟨t, hLe, link_of_some hLabel⟩
  · rcases List.mem_append.mp ha with ha | ha
    · have hSource : label a.source = some t := (link_eq_some ht).resolve_right
        fun hNew => absurd (hNew.1 ▸ hOpen) (hLater a ha).asymm
      obtain ⟨t', hLe, hLabel⟩ := h.relaxed a ha t hSource not_false hOpen
      exact ⟨t', hLe, link_of_some hLabel⟩
    · have hEnds : a.time = e.1 ∧ (a.source = e.2.1 ∨ a.source = e.2.2) ∧
          (a.target = e.2.1 ∨ a.target = e.2.2) := by
        rcases List.mem_pair.mp ha with rfl | rfl <;> simp
      obtain ⟨hTime, hFrom, hTo⟩ := hEnds
      have hSource : label a.source = some t := (link_eq_some ht).resolve_right
        fun hNew => absurd hOpen (by rw [hNew.1, hTime]; exact lt_irrefl _)
      cases hTarget : label a.target with
      | some t' => exact ⟨t', hTime ▸ (hEarlier _ _ hTarget).le, link_of_some hTarget⟩
      | none =>
          refine ⟨e.1, hTime.ge, if_pos ⟨hTo, hTarget, ?_⟩⟩
          exact hFrom.imp (fun hEq => by simp [← hEq, hSource]) (fun hEq => by simp [← hEq, hSource])

/-- The arc can still improve its target's label. -/
def improves (label : V → Option T) (a : Arc T V) : Bool :=
  (label a.target).all fun t => decide (a.time < t)

omit [DecidableEq V] in
theorem improves_iff {a : Arc T V} : improves label a ↔ ∀ t, label a.target = some t → a.time < t := by
  cases h : label a.target <;> simp [improves, h]

def slack (arcs : List (Arc T V)) (label : V → Option T) : Nat :=
  arcs.countP (improves label)

/-- Each improvement uses up an arc. -/
theorem slack_update_lt {a : Arc T V} (ha : a ∈ arcs) (hBetter : improves label a) :
    slack arcs (Function.update label a.target (some a.time)) < slack arcs label := by
  have hLe : ∀ b : Arc T V, improves (Function.update label a.target (some a.time)) b →
      improves label b := by
    intro b hb
    rw [improves_iff] at hb hBetter ⊢
    by_cases hTarget : b.target = a.target
    · rw [hTarget, Function.update_self] at hb
      rw [hTarget]
      exact fun t ht => (hb _ rfl).trans (hBetter t ht)
    · rwa [Function.update_of_ne hTarget] at hb
  have hUsed : ¬ improves (Function.update label a.target (some a.time)) a := by
    simp [improves]
  obtain ⟨before, rest, rfl⟩ := List.append_of_mem ha
  unfold slack
  rw [List.countP_append, List.countP_append, List.countP_cons_of_pos hBetter,
    List.countP_cons_of_neg hUsed]
  have hBefore := List.countP_mono_left (l := before) fun b _ => hLe b
  have hRest := List.countP_mono_left (l := rest) fun b _ => hLe b
  omega

/-- One ordered pass over the edges: an edge with an end in the set brings in
the other end. -/
def sweep (edges : List (T × V × V)) (reached : Finset V) : Finset V :=
  edges.foldl (fun reached e =>
    if e.2.1 ∈ reached ∨ e.2.2 ∈ reached then insert e.2.1 (insert e.2.2 reached) else reached) reached

omit [LinearOrder T] in
theorem sweep_snoc (edges : List (T × V × V)) (e : T × V × V) (reached : Finset V) :
    sweep (edges ++ [e]) reached =
      if e.2.1 ∈ sweep edges reached ∨ e.2.2 ∈ sweep edges reached then
        insert e.2.1 (insert e.2.2 (sweep edges reached)) else sweep edges reached :=
  List.foldl_append

omit [LinearOrder T] in
theorem mem_sweep_snoc (edges : List (T × V × V)) (e : T × V × V) (reached : Finset V) (v : V) :
    v ∈ sweep (edges ++ [e]) reached ↔ v ∈ sweep edges reached ∨ (v = e.2.1 ∨ v = e.2.2) ∧
      (e.2.1 ∈ sweep edges reached ∨ e.2.2 ∈ sweep edges reached) := by
  rw [sweep_snoc]
  split
  · next hEnd => simp only [Finset.mem_insert, hEnd, and_true, or_comm, or_assoc]
  · next hEnd => simp only [hEnd, and_false, or_false]

/-- Edges in increasing order, all later than the start. -/
def Later (start : T) (edges : List (T × V × V)) : Prop :=
  (∀ e ∈ edges, start < e.1) ∧ edges.Pairwise fun e e' => e.1 < e'.1

theorem sweep_labels {edges : List (T × V × V)} (hLater : Later start edges) (reached : Finset V) :
    ∃ label, Labels (· ∈ reached) start (edges.flatMap both) label (fun _ _ => False) ∧
      ∀ v, v ∈ sweep edges reached ↔ (label v).isSome := by
  induction edges using List.reverseRecOn with
  | nil =>
      refine ⟨fun v => if v ∈ reached then some start else none, ⟨fun v t ht => ?_, fun v hv => ?_,
        fun a ha => absurd ha List.not_mem_nil⟩, fun v => ?_⟩
      · split at ht
        · next hv => exact Option.some.inj ht ▸ Arrives.seed hv
        · cases ht
      · exact ⟨start, le_rfl, if_pos hv⟩
      · by_cases hv : v ∈ reached <;> simp [sweep, hv]
  | append_singleton edges e ih =>
      obtain ⟨hStart, hPairwise⟩ := hLater
      obtain ⟨hEdges, -, hBehind⟩ := List.pairwise_append.mp hPairwise
      obtain ⟨label, hLabels, hSweep⟩ :=
        ih ⟨fun e he => hStart e (List.mem_append_left _ he), hEdges⟩
      have hArcs : ∀ a ∈ edges.flatMap both, a.time < e.1 := by
        intro a ha
        obtain ⟨e', he', ha⟩ := List.mem_flatMap.mp ha
        have hTime : a.time = e'.1 := by rcases List.mem_pair.mp ha with rfl | rfl <;> rfl
        exact hTime ▸ hBehind e' he' e (List.mem_singleton_self e)
      refine ⟨TimedGraph.link label e, ?_, fun v => ?_⟩
      · rw [List.flatMap_append, List.flatMap_singleton]
        exact hLabels.link (hStart e (by simp)) hArcs
      · rw [mem_sweep_snoc, hSweep, hSweep, hSweep, TimedGraph.link]
        cases hLabel : label v with
        | some t => simp
        | none =>
            simp only [Option.isSome_none, Bool.false_eq_true, false_or, true_and]
            split <;> simp_all

/-- The ordered pass finds what a walk reaches. -/
theorem mem_sweep_iff {edges : List (T × V × V)} (hLater : Later start edges) (reached : Finset V) (v : V) :
    v ∈ sweep edges reached ↔ ∃ t, Arrives (· ∈ reached) start (edges.flatMap both) v t := by
  obtain ⟨label, hLabels, hSweep⟩ := sweep_labels hLater reached
  rw [hSweep, hLabels.isSome_iff]

end Steps

end TimedGraph
