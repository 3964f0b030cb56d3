import Mathlib.Data.Set.Finite.Basic

/-! A chain that is followed from node to node until there is no next one, or the next
has a name that was passed. Where no two nodes lead to the same one, the chain is left at
its end or comes back to where it began. -/
namespace Followed

universe u v

variable {N : Type u} {κ : Type v} (next : N → Option N) (name : N → κ)

/-- The node at which the chain is left; `none` where the rounds do not suffice. -/
def last [DecidableEq κ] : ℕ → List κ → N → Option N
  | 0, _, _ => none
  | rounds + 1, seen, node =>
      match next node with
      | none => some node
      | some other =>
          if name other ∈ name node :: seen then some node else last rounds (name node :: seen) other

/-- The nodes passed on the way from a start to a node. -/
structure Trail (nodes : List N) (start node : N) (trail : List N) : Prop where
  names : ((node :: trail).map name).Nodup
  mem : ∀ x ∈ node :: trail, x ∈ nodes
  reach : Relation.ReflTransGen (fun x y => next x = some y) start node
  back : ∀ x ∈ node :: trail, x = start ∨ ∃ prior ∈ trail, next prior = some x

variable {next name} {nodes trail : List N} {start node other : N}

theorem Trail.refl (h : start ∈ nodes) : Trail next name nodes start start [] where
  names := List.nodup_singleton _
  mem _ hx := List.mem_singleton.mp hx ▸ h
  reach := .refl
  back _ hx := .inl (List.mem_singleton.mp hx)

theorem Trail.length_lt (h : Trail next name nodes start node trail) : trail.length < nodes.length := by
  have hSubperm := h.names.of_map.subperm h.mem
  exact hSubperm.length_le

theorem Trail.step (h : Trail next name nodes start node trail) (hNext : next node = some other)
    (hMem : other ∈ nodes) (hNew : name other ∉ (node :: trail).map name) :
    Trail next name nodes start other (node :: trail) where
  names := List.nodup_cons.mpr ⟨hNew, h.names⟩
  mem x hx := (List.mem_cons.mp hx).elim (fun hSame => hSame ▸ hMem) (h.mem x)
  reach := h.reach.tail hNext
  back x hx := by
    rcases List.mem_cons.mp hx with rfl | hx
    · exact .inr ⟨node, List.mem_cons_self .., hNext⟩
    · exact (h.back x hx).imp_right fun ⟨prior, hPrior, hTo⟩ => ⟨prior, List.mem_cons_of_mem _ hPrior, hTo⟩

/-- A node on the trail that comes next is its start. -/
theorem Trail.eq_start (h : Trail next name nodes start node trail) (hNext : next node = some other)
    (hBack : ∀ x ∈ nodes, ∀ y ∈ nodes, ∀ z, next x = some z → next y = some z → x = y)
    (hPassed : other ∈ node :: trail) : other = start := by
  refine (h.back other hPassed).resolve_right ?_
  rintro ⟨prior, hPrior, hTo⟩
  have hSame := hBack prior (h.mem prior (List.mem_cons_of_mem _ hPrior)) node (h.mem node List.mem_cons_self) other hTo hNext
  exact (List.nodup_cons.mp h.names.of_map).1 (hSame ▸ hPrior)

/-- Rounds that suffice may be more. -/
theorem last_add [DecidableEq κ] {rounds : ℕ} {seen : List κ} {node x : N} (h : last next name rounds seen node = some x) (extra : ℕ) :
    last next name (rounds + extra) seen node = some x := by
  induction rounds generalizing seen node with
  | zero => cases h
  | succ rounds ih =>
      rw [Nat.succ_add, last]
      rw [last] at h
      cases hNext : next node with
      | none => rwa [hNext] at h
      | some other =>
          rw [hNext] at h
          dsimp only at h ⊢
          split
          · rename_i hSeen
            rwa [if_pos hSeen] at h
          · rename_i hNew
            rw [if_neg hNew] at h
            exact ih h

/-- As many rounds as there are nodes suffice, and the chain is left at its end or at the
node before its start. -/
theorem last_spec [DecidableEq κ] (hClosed : ∀ x ∈ nodes, ∀ y, next x = some y → y ∈ nodes)
    (hNames : Set.InjOn name {x | x ∈ nodes})
    (hBack : ∀ x ∈ nodes, ∀ y ∈ nodes, ∀ z, next x = some z → next y = some z → x = y)
    (hStart : start ∈ nodes) :
    ∃ x, last next name nodes.length [] start = some x ∧
      Relation.ReflTransGen (fun x y => next x = some y) start x ∧ (next x = none ∨ next x = some start) := by
  have hRun : ∀ (rounds : ℕ) (node : N) (trail : List N), Trail next name nodes start node trail →
      nodes.length ≤ rounds + trail.length → ∃ x, last next name rounds (trail.map name) node = some x ∧
        Relation.ReflTransGen (fun x y => next x = some y) start x ∧ (next x = none ∨ next x = some start) := by
    intro rounds
    induction rounds with
    | zero =>
        intro node trail hTrail hRounds
        have hLess := hTrail.length_lt
        omega
    | succ rounds ih =>
        intro node trail hTrail hRounds
        rw [last]
        cases hNext : next node with
        | none => exact ⟨node, rfl, hTrail.reach, .inl hNext⟩
        | some other =>
            have hOther := hClosed node (hTrail.mem node List.mem_cons_self) other hNext
            dsimp only
            split
            · rename_i hSeen
              obtain ⟨passed, hPassed, hName⟩ := List.mem_map.mp (List.map_cons ▸ hSeen : name other ∈ (node :: trail).map name)
              have hSame := hNames (hTrail.mem passed hPassed) hOther hName
              exact ⟨node, rfl, hTrail.reach, .inr (hTrail.eq_start hNext hBack (hSame ▸ hPassed) ▸ hNext)⟩
            · rename_i hNew
              exact ih other (node :: trail) (hTrail.step hNext hOther hNew) (by rw [List.length_cons]; omega)
  exact hRun nodes.length start [] (.refl hStart) (Nat.le_add_right ..)

/-- A chain that comes back to its start has no end. -/
theorem next_ne_none_of_cycle (hCycle : Relation.TransGen (fun x y => next x = some y) start start)
    (hReach : Relation.ReflTransGen (fun x y => next x = some y) start node) : next node ≠ none := by
  have hBack : Relation.TransGen (fun x y => next x = some y) node start := by
    induction hReach with
    | refl => exact hCycle
    | tail _ hNext ih =>
        obtain ⟨other, hOther, hRest⟩ := Relation.TransGen.head'_iff.mp ih
        obtain rfl := Option.mem_unique hNext hOther
        exact Relation.TransGen.trans_right hRest hCycle
  obtain ⟨other, hOther, -⟩ := Relation.TransGen.head'_iff.mp hBack
  rw [hOther]
  exact Option.some_ne_none other

end Followed

/-! A chain of nodes that comes to an end. -/
namespace Followed

universe u

variable {N : Type u} (next : N → Option N)

/-- A chain comes to an end. -/
def Ends (node : N) : Prop :=
  Acc (fun other node => next node = some other) node

variable {next}

theorem Ends.not_cycle {node : N} (h : Ends next node) : ¬Relation.TransGen (fun x y => next x = some y) node node := by
  induction h with
  | intro node _ ih =>
      intro hCycle
      obtain ⟨other, hNext, hRest⟩ := Relation.TransGen.head'_iff.mp hCycle
      exact ih other hNext (Relation.TransGen.tail' hRest hNext)

theorem Ends.reach {start node : N} (h : Ends next start)
    (hReach : Relation.ReflTransGen (fun x y => next x = some y) start node) : Ends next node := by
  induction hReach with
  | refl => exact h
  | tail _ hNext ih => exact ih.inv hNext

/-- Among finitely many nodes a chain ends exactly where it does not come back to a node
that it has passed. -/
theorem ends_iff {nodes : List N} (hNodes : ∀ x y, next x = some y → y ∈ nodes) (start : N) :
    Ends next start ↔ ¬∃ node, Relation.ReflTransGen (fun x y => next x = some y) start node ∧
      Relation.TransGen (fun x y => next x = some y) node node := by
  constructor
  · rintro h ⟨node, hReach, hCycle⟩
    exact (h.reach hReach).not_cycle hCycle
  · intro hNone
    let Reached := {x // x ∈ {x | Relation.ReflTransGen (fun x y => next x = some y) start x}}
    let later : Reached → Reached → Prop := fun other node => Relation.TransGen (fun x y => next x = some y) node.1 other.1
    have hFinite : Finite Reached := by
      refine Set.Finite.subset (List.finite_toSet (start :: nodes)) fun x hx => ?_
      rcases Relation.ReflTransGen.cases_tail hx with rfl | ⟨prior, -, hNext⟩
      · exact List.mem_cons_self ..
      · exact List.mem_cons_of_mem _ (hNodes prior x hNext)
    have hTrans : IsTrans Reached later := ⟨fun _ _ _ hFirst hSecond => hSecond.trans hFirst⟩
    have hIrrefl : Std.Irrefl later := ⟨fun x hCycle => hNone ⟨x.1, x.2, hCycle⟩⟩
    have hEnds : ∀ x : Reached, Acc later x → Ends next x.1 := by
      intro x hx
      induction hx with
      | intro x _ ih => exact ⟨_, fun other hNext => ih ⟨other, x.2.tail hNext⟩ (.single hNext)⟩
    exact hEnds ⟨start, .refl⟩ ((Finite.wellFounded_of_trans_of_irrefl later).apply _)

end Followed
