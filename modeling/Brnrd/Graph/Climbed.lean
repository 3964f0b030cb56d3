import Mathlib.Data.List.Nodup
import Mathlib.Data.List.Perm.Subperm

/-! A climb from a node to its parent, and from there on. It comes to a root, is cut where
it meets a node that it passed or one that is not held, or fails where a parent cannot be
read. Among finitely many parents it comes to its end. -/
namespace Climbed

universe u v w

variable {N : Type u} {L : Type v} {ε : Type w}

section
variable [DecidableEq N] (up : N → Except ε (Option N × L)) (missing : N → Bool) (stray : L) (start : N)

/-- What was passed, with the label of each edge, and the label of the end; `none` where
the rounds do not suffice. -/
def climb : ℕ → List (N × L) → N → Option (Except ε (List (N × L) × L))
  | 0, _, _ => none
  | rounds + 1, out, node =>
      match up node with
      | .error e => some (.error e)
      | .ok (none, root) => some (.ok (out, root))
      | .ok (some other, edge) =>
          if other ∈ start :: out.map Prod.fst then some (.ok (out, stray))
          else if missing other then some (.ok (out ++ [(other, edge)], stray))
          else climb rounds (out ++ [(other, edge)]) other

end

variable (up : N → Except ε (Option N × L)) (missing : N → Bool) (stray : L)

/-- One node is read to have another for its parent. -/
def Parent (node other : N) : Prop :=
  ∃ edge, up node = .ok (some other, edge)

/-- Each entry is the parent of the one before it. -/
def Steps : N → List (N × L) → Prop
  | _, [] => True
  | node, (other, edge) :: rest => up node = .ok (some other, edge) ∧ Steps other rest

/-- The node that a climb has come to. -/
def lastOf (start : N) : List (N × L) → N
  | [] => start
  | (other, _) :: rest => lastOf other rest

/-- What a climb has passed. -/
structure Trail (start : N) (out : List (N × L)) : Prop where
  nodup : (start :: out.map Prod.fst).Nodup
  steps : Steps up start out

/-- How a climb ends: at a root, before a node that it passed, or at a node that is not
held. -/
inductive Ending (start : N) (out : List (N × L)) (label : L) : Prop where
  | root (h : up (lastOf start out) = .ok (none, label))
  | passed (other : N) (hParent : Parent up (lastOf start out) other) (hPassed : other ∈ start :: out.map Prod.fst)
      (hLabel : label = stray)
  | missing (hNew : out ≠ []) (hMissing : missing (lastOf start out) = true) (hLabel : label = stray)

variable {up missing stray} {start node other : N} {out out' : List (N × L)} {edge label : L} {rounds : ℕ}

theorem lastOf_append : lastOf start (out ++ [(other, edge)]) = other := by
  induction out generalizing start with
  | nil => rfl
  | cons item out ih => exact ih

theorem lastOf_mem : lastOf start out ∈ start :: out.map Prod.fst := by
  induction out generalizing start with
  | nil => exact List.mem_cons_self ..
  | cons item out ih => exact List.mem_cons_of_mem _ ih

theorem Steps.append (h : Steps up start out) (hParent : up (lastOf start out) = .ok (some other, edge)) :
    Steps up start (out ++ [(other, edge)]) := by
  induction out generalizing start with
  | nil => exact ⟨hParent, trivial⟩
  | cons item out ih => exact ⟨h.1, ih h.2 hParent⟩

theorem Steps.reach (h : Steps up start out) : ∀ x ∈ start :: out.map Prod.fst, Relation.ReflTransGen (Parent up) start x := by
  induction out generalizing start with
  | nil =>
      intro x hx
      rw [List.mem_singleton.mp hx]
  | cons item out ih =>
      intro x hx
      rcases List.mem_cons.mp hx with rfl | hx
      · exact .refl
      · exact .head ⟨item.2, h.1⟩ (ih h.2 x hx)

theorem Trail.refl : Trail up start ([] : List (N × L)) :=
  ⟨List.nodup_singleton _, trivial⟩

theorem Trail.append (h : Trail up start out) (hParent : up (lastOf start out) = .ok (some other, edge))
    (hNew : other ∉ start :: out.map Prod.fst) : Trail up start (out ++ [(other, edge)]) where
  nodup := by
    rw [List.map_append, ← List.cons_append, List.nodup_append]
    refine ⟨h.nodup, by simp, ?_⟩
    rintro x hx _ hOther rfl
    obtain rfl : x = other := by simpa using hOther
    exact hNew hx
  steps := h.steps.append hParent

/-- A node that was passed is followed by its parent, or is the last one. -/
theorem Steps.next (h : Steps up start out) {x : N} (hx : x ∈ start :: out.map Prod.fst) :
    (∃ y ∈ out.map Prod.fst, ∃ edge, up x = .ok (some y, edge)) ∨ x = lastOf start out := by
  induction out generalizing start with
  | nil => exact .inr (List.mem_singleton.mp hx)
  | cons item out ih =>
      rcases List.mem_cons.mp hx with rfl | hx
      · exact .inl ⟨item.1, List.mem_cons_self .., item.2, h.1⟩
      · exact (ih h.2 hx).imp_left fun ⟨y, hy, hEdge⟩ => ⟨y, List.mem_cons_of_mem _ hy, hEdge⟩

/-- The nodes passed, the start aside, are parents. -/
theorem Steps.mem (h : Steps up start out) {nodes : List N} (hNodes : ∀ x y, Parent up x y → y ∈ nodes) :
    ∀ x ∈ out.map Prod.fst, x ∈ nodes := by
  induction out generalizing start with
  | nil => exact nofun
  | cons item out ih =>
      intro x hx
      rcases List.mem_cons.mp hx with rfl | hx
      · exact hNodes start item.1 ⟨item.2, h.1⟩
      · exact ih h.2 x hx

theorem Trail.length_le (h : Trail up start out) {nodes : List N} (hNodes : ∀ x y, Parent up x y → y ∈ nodes) :
    out.length ≤ nodes.length := by
  have hSubperm := (List.nodup_cons.mp h.nodup).2.subperm (h.steps.mem hNodes)
  simpa using hSubperm.length_le

/-- Where a climb that goes on from a node has come to, each node that it can go on to has
been passed. -/
theorem Ending.reach_mem (h : Ending up missing stray start out label) (hTrail : Trail up start out)
    (hMissing : ∀ x, missing x = true → ∀ r, up x ≠ .ok r) {x : N} (hReach : Relation.ReflTransGen (Parent up) start x) :
    x ∈ start :: out.map Prod.fst := by
  induction hReach with
  | refl => exact List.mem_cons_self ..
  | @tail x y _ hParent ih =>
      obtain ⟨edge, hEdge⟩ := hParent
      rcases hTrail.steps.next ih with ⟨z, hMem, edge', hEdge'⟩ | rfl
      · have hSame := Except.ok.inj (hEdge'.symm.trans hEdge)
        exact List.mem_cons_of_mem _ (Option.some.inj (congrArg Prod.fst hSame) ▸ hMem)
      · cases h with
        | root h => exact absurd (h.symm.trans hEdge) (by simp)
        | passed other hOther hPassed _ =>
            obtain ⟨edge', hEdge'⟩ := hOther
            have hSame := Except.ok.inj (hEdge'.symm.trans hEdge)
            exact (Option.some.inj (congrArg Prod.fst hSame)) ▸ hPassed
        | missing _ hLast _ => exact absurd hEdge (hMissing _ hLast _)

variable [DecidableEq N]

/-- A climb goes on from a trail, and ends as one ends. -/
theorem climb_ok (hTrail : Trail up start out) (hLast : lastOf start out = node)
    (h : climb up missing stray start rounds out node = some (.ok (out', label))) :
    Trail up start out' ∧ Ending up missing stray start out' label := by
  induction rounds generalizing out node with
  | zero => cases h
  | succ rounds ih =>
      rw [climb] at h
      subst hLast
      cases hUp : up (lastOf start out) with
      | error e =>
          rw [hUp] at h
          cases h
      | ok found =>
          obtain ⟨_ | other, edge⟩ := found
          · rw [hUp] at h
            obtain ⟨rfl, rfl⟩ := Prod.mk.inj (Except.ok.inj (Option.some.inj h))
            exact ⟨hTrail, .root hUp⟩
          · rw [hUp] at h
            dsimp only at h
            split at h
            · rename_i hPassed
              obtain ⟨rfl, rfl⟩ := Prod.mk.inj (Except.ok.inj (Option.some.inj h))
              exact ⟨hTrail, .passed other ⟨edge, hUp⟩ hPassed rfl⟩
            · rename_i hNew
              split at h
              · rename_i hMissing
                obtain ⟨rfl, rfl⟩ := Prod.mk.inj (Except.ok.inj (Option.some.inj h))
                exact ⟨hTrail.append hUp hNew, .missing (by simp) (by rwa [lastOf_append]) rfl⟩
              · exact ih (hTrail.append hUp hNew) lastOf_append h

/-- A climb fails where the parent of a node that is held cannot be read. -/
theorem climb_error {e : ε} (hTrail : Trail up start out) (hLast : lastOf start out = node)
    (hHeld : node = start ∨ missing node = false) (h : climb up missing stray start rounds out node = some (.error e)) :
    ∃ x, Relation.ReflTransGen (Parent up) start x ∧ (x = start ∨ missing x = false) ∧ up x = .error e := by
  induction rounds generalizing out node with
  | zero => cases h
  | succ rounds ih =>
      rw [climb] at h
      subst hLast
      cases hUp : up (lastOf start out) with
      | error e' =>
          rw [hUp] at h
          obtain rfl := Except.error.inj (Option.some.inj h)
          exact ⟨_, hTrail.steps.reach _ lastOf_mem, hHeld, hUp⟩
      | ok found =>
          obtain ⟨_ | other, edge⟩ := found
          · rw [hUp] at h
            cases h
          · rw [hUp] at h
            dsimp only at h
            split at h
            · cases h
            · rename_i hNew
              split at h
              · cases h
              · rename_i hMissing
                exact ih (hTrail.append hUp hNew) lastOf_append (.inr (by simpa using hMissing)) h

/-- One round more than there are parents suffices. -/
theorem climb_returns {nodes : List N} (hNodes : ∀ x y, Parent up x y → y ∈ nodes) (hTrail : Trail up start out)
    (hLast : lastOf start out = node) (hRounds : nodes.length < rounds + out.length) :
    ∃ result, climb up missing stray start rounds out node = some result := by
  induction rounds generalizing out node with
  | zero =>
      have hLength := hTrail.length_le hNodes
      omega
  | succ rounds ih =>
      rw [climb]
      subst hLast
      cases hUp : up (lastOf start out) with
      | error e => exact ⟨_, rfl⟩
      | ok found =>
          obtain ⟨_ | other, edge⟩ := found
          · exact ⟨_, rfl⟩
          · dsimp only
            split
            · exact ⟨_, rfl⟩
            · rename_i hNew
              split
              · exact ⟨_, rfl⟩
              · exact ih (hTrail.append hUp hNew) lastOf_append (by simp only [List.length_append, List.length_singleton]; omega)

/-- A climb comes to its end exactly where each parent on its way can be read. -/
theorem climb_ok_iff {nodes : List N} (hNodes : ∀ x y, Parent up x y → y ∈ nodes)
    (hMissing : ∀ x, missing x = true → ∀ r, up x ≠ .ok r) (hRounds : nodes.length < rounds) :
    (∃ out label, climb up missing stray start rounds [] start = some (.ok (out, label))) ↔
      ∀ x, Relation.ReflTransGen (Parent up) start x → x = start ∨ missing x = false → ∃ r, up x = .ok r := by
  constructor
  · rintro ⟨out, label, h⟩ x hReach hHeld
    obtain ⟨hTrail, hEnding⟩ := climb_ok .refl rfl h
    rcases hTrail.steps.next (hEnding.reach_mem hTrail hMissing hReach) with ⟨y, -, edge, hEdge⟩ | rfl
    · exact ⟨_, hEdge⟩
    · cases hEnding with
      | root h => exact ⟨_, h⟩
      | passed other hOther _ _ => exact hOther.elim fun edge hEdge => ⟨_, hEdge⟩
      | missing hNew hLast _ =>
          refine absurd hHeld (not_or.mpr ⟨fun hSame => ?_, by simp [hLast]⟩)
          cases out with
          | nil => exact hNew rfl
          | cons item out =>
              have hFirst := (List.nodup_cons.mp hTrail.nodup).1
              exact hFirst (hSame ▸ (lastOf_mem : lastOf item.1 out ∈ item.1 :: out.map Prod.fst))
  · intro hAll
    obtain ⟨result, hResult⟩ := @climb_returns _ _ _ up missing stray start start [] rounds _ nodes hNodes .refl rfl (by simpa using hRounds)
    cases result with
    | ok found => exact ⟨found.1, found.2, hResult⟩
    | error e =>
        obtain ⟨x, hReach, hHeld, hError⟩ := climb_error .refl rfl (.inl rfl) hResult
        obtain ⟨r, hOk⟩ := hAll x hReach hHeld
        rw [hOk] at hError
        cases hError

end Climbed
