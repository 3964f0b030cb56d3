import Mathlib.Data.List.Nodup
import Mathlib.Data.Set.Insert

/-! A search along links that stops at a name already on its path finds the
goals at the ends of chains that visit no name twice. Where a later node has
nothing that an earlier one of the same name lacks, these are all there are. -/
namespace NamedGraph

variable {N κ : Type*} {name : N → κ} {link : N → N → Prop} {goal : N → Prop}

/-- What the search finds, with the names on its path. -/
inductive Found (name : N → κ) (link : N → N → Prop) (goal : N → Prop) : Set κ → N → Prop where
  | here {seen : Set κ} {n : N} (hNew : name n ∉ seen) (hGoal : goal n) : Found name link goal seen n
  | step {seen : Set κ} {n m : N} (hNew : name n ∉ seen) (hLink : link n m)
      (next : Found name link goal (insert (name n) seen) m) : Found name link goal seen n

/-- A chain of links from a node to a goal. -/
inductive Chain (link : N → N → Prop) (goal : N → Prop) : N → List N → Prop where
  | last {n : N} (hGoal : goal n) : Chain link goal n [n]
  | cons {n m : N} {rest : List N} (hLink : link n m) (next : Chain link goal m rest) : Chain link goal n (n :: rest)

theorem chain_iff {n : N} : (∃ l, Chain link goal n l) ↔ ∃ m, Relation.ReflTransGen link n m ∧ goal m := by
  constructor
  · rintro ⟨l, h⟩
    induction h with
    | last hGoal => exact ⟨_, Relation.ReflTransGen.refl, hGoal⟩
    | cons hLink _ ih =>
        obtain ⟨m, hReach, hGoal⟩ := ih
        exact ⟨m, hReach.head hLink, hGoal⟩
  · rintro ⟨m, hReach, hGoal⟩
    induction hReach using Relation.ReflTransGen.head_induction_on with
    | refl => exact ⟨[m], Chain.last hGoal⟩
    | head hLink _ ih =>
        obtain ⟨l, h⟩ := ih
        exact ⟨_, Chain.cons hLink h⟩

/-- The search finds a goal where a chain with no name twice, and none of those
on the path, leads to one. -/
theorem found_iff {seen : Set κ} {n : N} :
    Found name link goal seen n ↔
      ∃ l, Chain link goal n l ∧ (l.map name).Nodup ∧ ∀ x ∈ l, name x ∉ seen := by
  constructor
  · intro h
    induction h with
    | here hNew hGoal => exact ⟨_, Chain.last hGoal, List.nodup_singleton _, by simpa using hNew⟩
    | @step seen n m hNew hLink _ ih =>
        obtain ⟨l, hChain, hNodup, hAvoids⟩ := ih
        refine ⟨n :: l, Chain.cons hLink hChain, ?_, ?_⟩
        · refine List.nodup_cons.mpr ⟨fun hMem => ?_, hNodup⟩
          obtain ⟨x, hx, hName⟩ := List.mem_map.mp hMem
          exact hAvoids x hx (Or.inl hName)
        · intro x hx
          rcases List.mem_cons.mp hx with rfl | hx
          · exact hNew
          · exact fun hSeen => hAvoids x hx (Or.inr hSeen)
  · rintro ⟨l, hChain, hNodup, hAvoids⟩
    induction hChain generalizing seen with
    | last hGoal => exact Found.here (hAvoids _ List.mem_cons_self) hGoal
    | @cons n m rest hLink _ ih =>
        obtain ⟨hFresh, hRest⟩ := List.nodup_cons.mp hNodup
        refine Found.step (hAvoids _ List.mem_cons_self) hLink (ih hRest fun x hx => ?_)
        rintro (hName | hSeen)
        · exact hFresh (hName ▸ List.mem_map_of_mem hx)
        · exact hAvoids x (List.mem_cons_of_mem _ hx) hSeen

/-- Each node of a chain is reached, and the chain goes on from it. -/
theorem Chain.suffix {n x : N} {l : List N} (h : Chain link goal n l) (hx : x ∈ l) :
    Relation.ReflTransGen link n x ∧ ∃ l', Chain link goal x l' ∧ l'.length ≤ l.length := by
  induction h with
  | last hGoal =>
      obtain rfl := List.mem_singleton.mp hx
      exact ⟨Relation.ReflTransGen.refl, _, Chain.last hGoal, le_rfl⟩
  | cons hLink next ih =>
      rcases List.mem_cons.mp hx with rfl | hx
      · exact ⟨Relation.ReflTransGen.refl, _, Chain.cons hLink next, le_rfl⟩
      · obtain ⟨hReach, l', hChain, hLength⟩ := ih hx
        exact ⟨hReach.head hLink, l', hChain, hLength.trans (Nat.le_succ _)⟩

/-- `more n n'`: the node `n'` has the links and the goal that `n` has; and a
node has what any node of its name behind it has. -/
structure Steady (name : N → κ) (link : N → N → Prop) (goal : N → Prop) (inside : N → Prop) (more : N → N → Prop) :
    Prop where
  keepsGoal : ∀ {n n'}, more n n' → goal n → goal n'
  keepsLink : ∀ {n n' m}, more n n' → link n m → ∃ m', link n' m' ∧ more m m'
  staysInside : ∀ {n m}, inside n → link n m → inside m
  behind : ∀ {n m}, inside n → Relation.ReflTransGen link n m → name m = name n → more m n

variable {inside : N → Prop} {more : N → N → Prop}

theorem Chain.lift (hSteady : Steady name link goal inside more) {n n' : N} {l : List N}
    (h : Chain link goal n l) (hMore : more n n') : ∃ l', Chain link goal n' l' ∧ l'.length = l.length := by
  induction h generalizing n' with
  | last hGoal => exact ⟨[n'], Chain.last (hSteady.keepsGoal hMore hGoal), rfl⟩
  | cons hLink _ ih =>
      obtain ⟨m', hLink', hMore'⟩ := hSteady.keepsLink hMore hLink
      obtain ⟨l', hChain, hLength⟩ := ih hMore'
      exact ⟨n' :: l', Chain.cons hLink' hChain, congrArg Nat.succ hLength⟩

/-- A chain that comes back to a name can be shortened to one that does not:
what it does from the second node of that name on, it does from the first. -/
theorem Chain.simple (hSteady : Steady name link goal inside more) {n : N} {l : List N}
    (h : Chain link goal n l) (hInside : inside n) :
    ∃ l', Chain link goal n l' ∧ (l'.map name).Nodup ∧ l'.length ≤ l.length := by
  induction hLength : l.length using Nat.strong_induction_on generalizing n l with
  | _ size ih =>
      subst hLength
      cases h with
      | last hGoal => exact ⟨[n], Chain.last hGoal, List.nodup_singleton _, le_rfl⟩
      | @cons _ m rest hLink next =>
          obtain ⟨short, hShort, hNodup, hLe⟩ :=
            ih rest.length (Nat.lt_succ_self _) next (hSteady.staysInside hInside hLink) rfl
          by_cases hTwice : name n ∈ short.map name
          · obtain ⟨x, hx, hName⟩ := List.mem_map.mp hTwice
            obtain ⟨hReach, tail, hTail, hTailLe⟩ := hShort.suffix hx
            have hMore : more x n := hSteady.behind hInside (hReach.head hLink) hName
            obtain ⟨lifted, hLifted, hSame⟩ := hTail.lift hSteady hMore
            have hLess : lifted.length < (n :: rest).length := by
              simp only [List.length_cons]
              omega
            obtain ⟨l', hChain, hNodup', hLe'⟩ := ih lifted.length hLess hLifted hInside rfl
            exact ⟨l', hChain, hNodup', hLe'.trans hLess.le⟩
          · exact ⟨n :: short, Chain.cons hLink hShort, List.nodup_cons.mpr ⟨hTwice, hNodup⟩,
              Nat.succ_le_succ hLe⟩

/-- In a steady graph the search finds whatever can be reached. -/
theorem found_iff_reached (hSteady : Steady name link goal inside more) {n : N} (hInside : inside n) :
    Found name link goal ∅ n ↔ ∃ m, Relation.ReflTransGen link n m ∧ goal m := by
  rw [← chain_iff, found_iff]
  constructor
  · rintro ⟨l, hChain, -⟩
    exact ⟨l, hChain⟩
  · rintro ⟨l, hChain⟩
    obtain ⟨l', hChain', hNodup, -⟩ := hChain.simple hSteady hInside
    exact ⟨l', hChain', hNodup, fun _ _ => Set.notMem_empty _⟩

end NamedGraph
