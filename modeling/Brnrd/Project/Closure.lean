import Brnrd.Graph.Arrival
import Brnrd.Project.Reducer

/-! `finish` relaxes the edges of the notices until nothing is pending: then a
letter is available exactly if a walk of increasing edges reaches it from a
letter marked handled. -/
namespace Brnrd.Project

open Python TimedGraph

/-- The edges of the notices, by their indexes. -/
def noticeTriples (pairs : List (Value × Value)) : List (Int × Value × Value) :=
  pairs.zipIdx.map fun p => ((p.2 : Int), p.1)

theorem noticeTriples_snoc (pairs : List (Value × Value)) (pair : Value × Value) :
    noticeTriples (pairs ++ [pair]) = noticeTriples pairs ++ [((pairs.length : Int), pair)] := by
  simp [noticeTriples, List.zipIdx_append]

theorem noticeTriples_lt {pairs : List (Value × Value)} {e : Int × Value × Value}
    (he : e ∈ noticeTriples pairs) : -1 < e.1 ∧ e.1 < pairs.length := by
  obtain ⟨⟨pair, i⟩, hMem, rfl⟩ := List.mem_map.mp he
  have hlt := (List.mem_zipIdx hMem).2.1
  simp only
  omega

theorem noticeTriples_later (pairs : List (Value × Value)) : Later (-1) (noticeTriples pairs) := by
  refine ⟨fun e he => (noticeTriples_lt he).1, ?_⟩
  induction pairs using List.reverseRecOn with
  | nil => exact List.Pairwise.nil
  | append_singleton pairs pair ih =>
      rw [noticeTriples_snoc, List.pairwise_append]
      refine ⟨ih, List.pairwise_singleton _ _, fun e he e' he' => ?_⟩
      rw [List.mem_singleton.mp he']
      exact (noticeTriples_lt he).2

def noticeArcs (pairs : List (Value × Value)) : List (Arc Int Value) :=
  (noticeTriples pairs).flatMap both

theorem noticeArcs_snoc (pairs : List (Value × Value)) (pair : Value × Value) :
    noticeArcs (pairs ++ [pair]) = noticeArcs pairs ++ both ((pairs.length : Int), pair) := by
  rw [noticeArcs, noticeTriples_snoc, List.flatMap_append, List.flatMap_singleton]
  rfl

theorem noticeArcs_lt {pairs : List (Value × Value)} {a : Arc Int Value} (ha : a ∈ noticeArcs pairs) :
    -1 < a.time ∧ a.time < pairs.length := by
  obtain ⟨e, he, ha⟩ := List.mem_flatMap.mp ha
  have hTime : a.time = e.1 := by rcases List.mem_pair.mp ha with rfl | rfl <;> rfl
  exact hTime ▸ noticeTriples_lt he

theorem length_noticeArcs (pairs : List (Value × Value)) : (noticeArcs pairs).length = 2 * pairs.length := by
  induction pairs using List.reverseRecOn with
  | nil => rfl
  | append_singleton pairs pair ih =>
      rw [noticeArcs_snoc, List.length_append, ih, List.length_append]
      simp [both]
      omega

/-- The entries of `noticeEdges` for one letter. -/
def arcsFrom (arcs : List (Arc Int Value)) (ident : Value) : List (Arc Int Value) :=
  arcs.filter fun a => a.source = ident

section Close

variable {seed : Value → Prop} {arcs : List (Arc Int Value)} {closed : Value → Prop}

/-- What holds of the loop's variables between its turns. -/
structure Closing.Holds (seed : Value → Prop) (arcs : List (Arc Int Value)) (closed : Value → Prop)
    (c : Closing) : Prop where
  labels : Labels seed (-1) arcs c.available fun v t => (t, v) ∈ c.pending
  published : ∀ v, v ∈ c.published ↔ (c.available v).isSome ∨ closed v

/-- What holds while the edges out of `ident` are crossed. -/
structure Closing.Crossing (seed : Value → Prop) (arcs : List (Arc Int Value)) (closed : Value → Prop)
    (ident : Value) (available : Int) (bound : Nat) (crossed : List (Arc Int Value)) (c : Closing) :
    Prop where
  labels : Labels seed (-1) arcs c.available fun v t => (t, v) ∈ c.pending ∨ v = ident ∧ t = available
  published : ∀ v, v ∈ c.published ↔ (c.available v).isSome ∨ closed v
  source : c.available ident = some available
  relaxed : ∀ a ∈ crossed, available < a.time → ∃ t ≤ a.time, c.available a.target = some t
  bound : c.pending.length + slack arcs c.available ≤ bound

theorem isSome_update (label : Value → Option Int) (ident : Value) (t : Int) (v : Value) :
    (Function.update label ident (some t) v).isSome ↔ v = ident ∨ (label v).isSome := by
  by_cases hv : v = ident
  · simp [hv]
  · simp [hv]

variable {c : Closing} {available : Int}

theorem Closing.Crossing.cross {ident : Value} {bound : Nat} {crossed : List (Arc Int Value)} {a : Arc Int Value}
    (h : c.Crossing seed arcs closed ident available bound crossed) (ha : a ∈ arcs) (hSource : a.source = ident) :
    (c.cross available (a.time, a.target)).Crossing seed arcs closed ident available bound
      (crossed ++ [a]) := by
  unfold Closing.cross
  split
  · next hIn =>
      obtain ⟨hOpen, hAll⟩ := hIn
      have hBetter : ∀ t, c.available a.target = some t → a.time < t := by
        intro t ht
        simpa [ht] using hAll
      have hOther : a.target ≠ ident := by
        intro hEq
        exact absurd (hBetter available (hEq ▸ h.source)) hOpen.asymm
      have hEarlier : ∀ v t, c.available v = some t →
          ∃ t' ≤ t, Function.update c.available a.target (some a.time) v = some t' := by
        intro v t ht
        by_cases hv : v = a.target
        · subst hv
          exact ⟨a.time, (hBetter t ht).le, Function.update_self ..⟩
        · exact ⟨t, le_rfl, by rw [Function.update_of_ne hv, ht]⟩
      refine ⟨?_, fun v => ?_, ?_, fun b hb hOpen' => ?_, ?_⟩
      · refine (h.labels.cross ha (hSource ▸ h.source) hOpen hBetter).drop ?_
        rintro v t - ((hPending | hIdent) | ⟨rfl, rfl⟩)
        · exact .inl (List.mem_append_left _ hPending)
        · exact .inr hIdent
        · exact .inl (List.mem_append_right _ (List.mem_singleton_self _))
      · rw [Finset.mem_insert, h.published v, isSome_update, or_assoc]
      · exact (Function.update_of_ne hOther.symm _ _).trans h.source
      · rcases List.mem_append.mp hb with hb | hb
        · obtain ⟨t, hLe, ht⟩ := h.relaxed b hb hOpen'
          obtain ⟨t', hLe', ht'⟩ := hEarlier _ t ht
          exact ⟨t', hLe'.trans hLe, ht'⟩
        · rw [List.mem_singleton.mp hb]
          exact ⟨a.time, le_rfl, Function.update_self ..⟩
      · have hSlack := slack_update_lt ha (improves_iff.mpr hBetter)
        have hBound := h.bound
        simp only [List.length_append, List.length_singleton]
        omega
  · next hOut =>
      refine ⟨h.labels, h.published, h.source, fun b hb hOpen => ?_, h.bound⟩
      rcases List.mem_append.mp hb with hb | hb
      · exact h.relaxed b hb hOpen
      · obtain rfl := List.mem_singleton.mp hb
        cases hTarget : c.available b.target with
        | none => exact absurd ⟨hOpen, by simp [hTarget]⟩ hOut
        | some t =>
            refine ⟨t, not_lt.mp fun hlt => hOut ⟨hOpen, ?_⟩, rfl⟩
            simpa [hTarget] using hlt

theorem Closing.Crossing.crosses {ident : Value} {bound : Nat} (h : c.Crossing seed arcs closed ident available bound [])
    {out : List (Arc Int Value)} (hOut : ∀ a ∈ out, a ∈ arcs ∧ a.source = ident) :
    ((out.map fun a => (a.time, a.target)).foldl (Closing.cross available) c).Crossing
      seed arcs closed ident available bound out := by
  induction out using List.reverseRecOn with
  | nil => exact h
  | append_singleton out a ih =>
      rw [List.map_append, List.foldl_append]
      obtain ⟨ha, hSource⟩ := hOut a (by simp)
      exact (ih fun b hb => hOut b (List.mem_append_left _ hb)).cross ha hSource

variable {rest pending : List (Int × Value)}

theorem heappop_eq_some {entry : Int × Value} (h : heappop pending = some (entry, rest)) :
    entry ∈ pending ∧ rest = pending.erase entry := by
  obtain ⟨least, hLeast, hEq⟩ := Option.map_eq_some_iff.mp h
  obtain ⟨rfl, rfl⟩ := Prod.mk.inj hEq
  exact ⟨List.argmin_mem hLeast, rfl⟩

theorem heappop_eq_none (h : heappop pending = none) : pending = [] :=
  List.argmin_eq_none.mp (Option.map_eq_none_iff.mp h)

variable {edges : Value → List (Int × Value)}

/-- One turn for an entry whose letter is still available since then. -/
theorem Closing.Holds.turn {ident : Value} (hEdges : ∀ v, edges v = (arcsFrom arcs v).map fun a => (a.time, a.target))
    (h : c.Holds seed arcs closed) (hRest : rest = c.pending.erase (available, ident))
    (hSource : c.available ident = some available) :
    let c' := (edges ident).foldl (Closing.cross available) { c with pending := rest }
    c'.Holds seed arcs closed ∧
      c'.pending.length + slack arcs c'.available ≤ rest.length + slack arcs c.available := by
  have hStart : ({ c with pending := rest } : Closing).Crossing seed arcs closed ident available
      (rest.length + slack arcs c.available) [] := by
    refine ⟨h.labels.drop fun v t _ hPending => ?_, h.published, hSource, by simp, le_rfl⟩
    by_cases hEq : (t, v) = (available, ident)
    · exact .inr ⟨congrArg Prod.snd hEq, congrArg Prod.fst hEq⟩
    · exact .inl (hRest ▸ (List.mem_erase_of_ne hEq).mpr hPending)
  have hOut : ∀ a ∈ arcsFrom arcs ident, a ∈ arcs ∧ a.source = ident := fun a ha => by
    simpa [arcsFrom] using ha
  have hEnd := hStart.crosses hOut
  rw [← hEdges] at hEnd
  refine ⟨⟨hEnd.labels.settle hEnd.source (fun a ha hFrom => ?_) fun _ _ => id, hEnd.published⟩,
    hEnd.bound⟩
  exact hEnd.relaxed a (by simp [arcsFrom, ha, hFrom])

/-- With fuel for every entry and every arc, nothing stays pending. -/
theorem close_spec (hEdges : ∀ v, edges v = (arcsFrom arcs v).map fun a => (a.time, a.target)) {fuel : Nat}
    (h : c.Holds seed arcs closed) (hFuel : c.pending.length + slack arcs c.available ≤ fuel) :
    (close edges fuel c).Holds seed arcs closed ∧ (close edges fuel c).pending = [] := by
  induction fuel generalizing c with
  | zero =>
      have hNone : c.pending.length = 0 := by omega
      exact ⟨h, List.length_eq_zero_iff.mp hNone⟩
  | succ fuel ih =>
      unfold close
      cases hPop : heappop c.pending with
      | none => exact ⟨h, heappop_eq_none hPop⟩
      | some popped =>
          obtain ⟨⟨available, ident⟩, rest⟩ := popped
          obtain ⟨hEntry, hRest⟩ := heappop_eq_some hPop
          have hLength : rest.length + 1 = c.pending.length := by
            rw [hRest, List.length_erase_of_mem hEntry]
            have := List.length_pos_of_mem hEntry
            omega
          simp only
          split
          · next hSource =>
              obtain ⟨hTurn, hBound⟩ := h.turn hEdges hRest hSource
              exact ih hTurn (by omega)
          · next hStale =>
              refine ih ⟨h.labels.drop fun v t ht hPending => ?_, h.published⟩ (by simp only; omega)
              refine hRest ▸ (List.mem_erase_of_ne fun hEq => hStale ?_).mpr hPending
              obtain ⟨rfl, rfl⟩ := Prod.mk.inj hEq
              exact ht

end Close

end Brnrd.Project
