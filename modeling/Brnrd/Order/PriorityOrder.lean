import Mathlib.Data.Finset.Max

/-! Linear extensions of a finite relation that always release the ready
element of least priority. The order is determined by the elements alone, so
two computations that agree on the elements agree on the list. -/
namespace LinearExtension

variable {α κ : Type*} [LinearOrder κ]

/-- No element still waiting in `rest` has to come before `x`. -/
def Ready (before : α → α → Prop) (rest : List α) (x : α) : Prop :=
  ∀ y ∈ rest, ¬ before y x

/-- The head is ready among the whole list, and every other element that is
ready at that point has a larger key. -/
def PriorityOrder (before : α → α → Prop) (key : α → κ) : List α → Prop
  | [] => True
  | x :: rest => Ready before (x :: rest) x ∧
      (∀ y ∈ rest, Ready before (x :: rest) y → key x < key y) ∧
      PriorityOrder before key rest

variable {before : α → α → Prop} {key : α → κ}

variable {l l' first second : List α}

theorem Ready.mono {x : α} (h : Ready before l x) (hSub : l' ⊆ l) :
    Ready before l' x :=
  fun y hy => h y (hSub hy)

theorem PriorityOrder.tail {x : α} {rest : List α} (h : PriorityOrder before key (x :: rest)) :
    PriorityOrder before key rest :=
  h.2.2

theorem PriorityOrder.of_append (h : PriorityOrder before key (first ++ second)) : PriorityOrder before key second := by
  induction first with
  | nil => exact h
  | cons x first ih => exact ih h.tail

/-- Everything after an element is free of its predecessors. -/
theorem PriorityOrder.not_before {x y : α} (h : PriorityOrder before key (first ++ x :: second)) (hy : y ∈ x :: second) :
    ¬ before y x :=
  h.of_append.1 y hy

/-- A later element that was already ready at this position has a larger key. -/
theorem PriorityOrder.key_lt {x y : α} (h : PriorityOrder before key (first ++ x :: second)) (hy : y ∈ second)
    (hReady : Ready before (x :: second) y) : key x < key y :=
  h.of_append.2.1 y hy hReady

/-- The elements determine the order. -/
theorem PriorityOrder.unique (h : PriorityOrder before key l) (h' : PriorityOrder before key l') (hPerm : l.Perm l') :
    l = l' := by
  induction l generalizing l' with
  | nil => exact hPerm.nil_eq
  | cons x rest ih =>
      cases l' with
      | nil => exact absurd hPerm.symm.nil_eq (by simp)
      | cons x' rest' =>
          have hHead : x = x' := by
            by_contra hne
            have hx' : x' ∈ rest :=
              (List.mem_cons.mp (hPerm.symm.subset List.mem_cons_self)).resolve_left (Ne.symm hne)
            have hx : x ∈ rest' :=
              (List.mem_cons.mp (hPerm.subset List.mem_cons_self)).resolve_left hne
            have hlt := h.2.1 x' hx' (h'.1.mono hPerm.subset)
            have hgt := h'.2.1 x hx (h.1.mono hPerm.symm.subset)
            exact lt_asymm hlt hgt
          subst hHead
          rw [ih h.tail h'.tail (List.perm_cons x |>.mp hPerm)]

/-- A block of larger keys that precedes nothing in the first block follows it. -/
theorem PriorityOrder.append (h : PriorityOrder before key first) (h' : PriorityOrder before key second)
    (hKey : ∀ x ∈ first, ∀ y ∈ second, key x < key y) (hBefore : ∀ x ∈ first, ∀ y ∈ second, ¬ before y x) :
    PriorityOrder before key (first ++ second) := by
  induction first with
  | nil => exact h'
  | cons x first ih =>
      refine ⟨?_, ?_, ih h.tail (fun z hz => hKey z (List.mem_cons_of_mem _ hz))
        (fun z hz => hBefore z (List.mem_cons_of_mem _ hz))⟩
      · intro y hy
        rcases List.mem_append.mp (List.cons_append .. ▸ hy) with hy | hy
        · exact h.1 y hy
        · exact hBefore x List.mem_cons_self y hy
      · intro y hy hReady
        rcases List.mem_append.mp hy with hy | hy
        · exact h.2.1 y hy (hReady.mono (List.subset_append_left (x :: first) second))
        · exact hKey x List.mem_cons_self y hy

/-- Elements that precede nothing can be left out. -/
theorem PriorityOrder.filter (h : PriorityOrder before key l) (p : α → Bool)
    (hSink : ∀ x ∈ l, p x = false → ∀ y ∈ l, ¬ before x y) :
    PriorityOrder before key (l.filter p) := by
  induction l with
  | nil => trivial
  | cons x rest ih =>
      have hRest := ih h.tail (fun z hz hp y hy =>
        hSink z (List.mem_cons_of_mem _ hz) hp y (List.mem_cons_of_mem _ hy))
      cases hp : p x with
      | false => simpa [List.filter_cons, hp] using hRest
      | true =>
          rw [List.filter_cons_of_pos hp]
          have hReady {y : α} (hy : y ∈ x :: rest)
              (hSmall : Ready before (x :: rest.filter p) y) : Ready before (x :: rest) y := by
            intro z hz hzy
            cases hpz : p z with
            | false => exact hSink z hz hpz y hy hzy
            | true =>
                refine hSmall z ?_ hzy
                rcases List.mem_cons.mp hz with rfl | hz
                · exact List.mem_cons_self ..
                · exact List.mem_cons_of_mem _ (List.mem_filter.mpr ⟨hz, hpz⟩)
          refine ⟨h.1.mono (List.cons_subset_cons x (List.filter_subset_self rest)), ?_, hRest⟩
          intro y hy hSmall
          have hy' : y ∈ rest := (List.mem_filter.mp hy).1
          exact h.2.1 y hy' (hReady (List.mem_cons_of_mem _ hy') hSmall)

/-- Where every edge already runs from the smaller key to the larger one, the
order is the order of the keys. -/
theorem PriorityOrder.sorted (h : PriorityOrder before key l) (hForward : ∀ x ∈ l, ∀ y ∈ l, before x y → key x < key y) :
    l.Pairwise (fun x y => key x < key y) := by
  induction l with
  | nil => exact List.Pairwise.nil
  | cons x rest ih =>
      refine List.Pairwise.cons ?_ (ih h.tail (fun y hy z hz =>
        hForward y (List.mem_cons_of_mem _ hy) z (List.mem_cons_of_mem _ hz)))
      by_contra hSmall
      push Not at hSmall
      -- The least offender is ready: any predecessor of it would be smaller still.
      classical
      obtain ⟨y, hy, hLeast⟩ := Finset.exists_min_image
        (rest.toFinset.filter (fun y => key y ≤ key x)) key (by
          obtain ⟨y, hy, hyx⟩ := hSmall
          exact ⟨y, by simp [hy, hyx]⟩)
      simp only [Finset.mem_filter, List.mem_toFinset] at hy hLeast
      refine absurd (h.2.1 y hy.1 ?_) (not_lt.mpr hy.2)
      intro z hz hzy
      have hlt : key z < key y := hForward z hz y (List.mem_cons_of_mem _ hy.1) hzy
      have hzRest : z ∈ rest := by
        rcases List.mem_cons.mp hz with rfl | hz
        · exact absurd hlt (not_lt.mpr hy.2)
        · exact hz
      exact absurd (hLeast z ⟨hzRest, hlt.le.trans hy.2⟩) (not_le.mpr hlt)

/-- A list in the order of its keys is the order where every edge runs so. -/
theorem PriorityOrder.of_sorted (h : l.Pairwise fun x y => key x < key y)
    (hForward : ∀ x ∈ l, ∀ y ∈ l, before x y → key x < key y) : PriorityOrder before key l := by
  induction l with
  | nil => trivial
  | cons x rest ih =>
      obtain ⟨hHead, hRest⟩ := List.pairwise_cons.mp h
      refine ⟨fun y hy hBefore => ?_, fun y hy _ => hHead y hy, ih hRest fun y hy z hz =>
        hForward y (List.mem_cons_of_mem _ hy) z (List.mem_cons_of_mem _ hz)⟩
      have hlt := hForward y hy x List.mem_cons_self hBefore
      rcases List.mem_cons.mp hy with rfl | hy
      · exact lt_irrefl _ hlt
      · exact lt_asymm hlt (hHead y hy)

end LinearExtension
