import Mathlib.Data.List.Induction

/-! Folds of a step that may fail. A successful fold is a chain of successful
steps, so what one step preserves holds at its end. -/
namespace Fallible

universe u v

variable {ε α : Type u} {β : Type v}

theorem bind_eq_ok {γ : Type u} {x : Except ε α} {f : α → Except ε γ} {c : γ} :
    x >>= f = .ok c ↔ ∃ a, x = .ok a ∧ f a = .ok c := by
  cases x with
  | error e => simp [bind, Except.bind]
  | ok a => simp [bind, Except.bind]

/-- What a bind that ends well went through. -/
theorem peel {γ : Type u} {x : Except ε α} {f : α → Except ε γ} {c : γ} (h : x >>= f = .ok c) : ∃ a, x = .ok a ∧ f a = .ok c :=
  bind_eq_ok.mp h

theorem same {x : Except ε α} {a b : α} (h : x = .ok a) (h' : x = .ok b) : a = b :=
  Except.ok.inj (h.symm.trans h')

theorem pair {γ : Type u} {a b : α} {c d : γ} (h : (Except.ok (a, c) : Except ε (α × γ)) = .ok (b, d)) : a = b ∧ c = d :=
  Prod.mk.inj (Except.ok.inj h)

theorem ok_bind {γ : Type u} (a : α) (f : α → Except ε γ) : (Except.ok a >>= f) = f a :=
  rfl

/-- What comes after a step matters where the step succeeds. -/
theorem bind_congr_ok {γ : Type u} {x : Except ε α} {f g : α → Except ε γ} (h : ∀ a, x = .ok a → f a = g a) :
    x >>= f = x >>= g := by
  cases x with
  | error e => rfl
  | ok a => exact h a rfl

theorem map_eq_ok {γ : Type u} {x : Except ε α} {f : α → γ} {c : γ} : x.map f = .ok c ↔ ∃ a, x = .ok a ∧ f a = c := by
  cases x with
  | error e => simp [Except.map]
  | ok a => simp [Except.map]

variable {a s t : α}

theorem mapError_eq_ok {ε' : Type u} {x : Except ε α} {f : ε → ε'} : x.mapError f = .ok a ↔ x = .ok a := by
  cases x with
  | error e => simp [Except.mapError]
  | ok b => simp [Except.mapError]

theorem foldlM_snoc {f : α → β → Except ε α} {l : List β} {b : β} :
    (l ++ [b]).foldlM f s = .ok t ↔ ∃ m, l.foldlM f s = .ok m ∧ f m b = .ok t := by
  rw [List.foldlM_append, bind_eq_ok]
  simp

/-- A relation between the elements consumed so far and the state, kept by
every successful step, holds at the end of a successful fold. -/
theorem foldlM_invariant {f : α → β → Except ε α} (P : List β → α → Prop) (hStart : P [] s)
    (hStep : ∀ l b m n, P l m → f m b = .ok n → P (l ++ [b]) n) {l : List β} (h : l.foldlM f s = .ok t) : P l t := by
  induction l using List.reverseRecOn generalizing t with
  | nil =>
      have : s = t := by simpa [pure, Except.pure] using h
      exact this ▸ hStart
  | append_singleton l b ih =>
      obtain ⟨m, hm, hb⟩ := foldlM_snoc.mp h
      exact hStep l b m t (ih hm) hb

/-- A flag that a step raises for certain elements only is up after a fold
where it was up before, or where there was one of them. -/
theorem foldlM_flag {f : α → β → Except ε α} {up : α → Prop} {raises : β → Prop}
    (hStep : ∀ s b t, f s b = .ok t → (up t ↔ up s ∨ raises b)) {l : List β} (h : l.foldlM f s = .ok t) :
    up t ↔ up s ∨ ∃ b ∈ l, raises b := by
  refine foldlM_invariant (fun read m => up m ↔ up s ∨ ∃ b ∈ read, raises b) (by simp) ?_ h
  intro read b m n hRead hb
  rw [hStep m b n hb, hRead]
  simp [or_assoc, or_and_right, exists_or]

/-- A fold fails exactly at some step that fails. -/
theorem foldlM_error {f : α → β → Except ε α} {l : List β} {e : ε} (h : l.foldlM f s = .error e) :
    ∃ first b rest m, l = first ++ b :: rest ∧ first.foldlM f s = .ok m ∧ f m b = .error e := by
  induction l using List.reverseRecOn with
  | nil => simp [pure, Except.pure] at h
  | append_singleton l b ih =>
      rw [List.foldlM_append] at h
      cases hl : l.foldlM f s with
      | error e' =>
          rw [hl] at h
          obtain ⟨first, c, rest, m, rfl, hFirst, hc⟩ := ih (by simpa [bind, Except.bind, hl] using h)
          exact ⟨first, c, rest ++ [b], m, by simp, hFirst, hc⟩
      | ok m =>
          rw [hl] at h
          have hb : (f m b >>= pure) = .error e := h
          exact ⟨l, b, [], m, rfl, hl, by rwa [bind_pure] at hb⟩

/-- A fold whose steps never fail in one way does not. -/
theorem foldlM_ne_error {f : α → β → Except ε α} {e : ε} (hStep : ∀ s b, f s b ≠ .error e) (l : List β) (s : α) :
    l.foldlM f s ≠ .error e := by
  intro h
  obtain ⟨-, b, -, m, -, -, hb⟩ := foldlM_error h
  exact hStep m b hb

theorem bind_ne_error {γ : Type u} {x : Except ε α} {f : α → Except ε γ} {e : ε} (hFirst : x ≠ .error e)
    (hNext : ∀ a, f a ≠ .error e) : x >>= f ≠ .error e := by
  cases x with
  | error e' => exact fun h => hFirst (congrArg Except.error (Except.error.inj h))
  | ok a => exact hNext a

/-- Two folds whose steps agree through a projection agree through it. -/
theorem foldlM_map {γ : Type u} {f : α → β → Except ε α} {g : γ → β → Except ε γ} {proj : α → γ}
    (h : ∀ s b, (f s b).map proj = g (proj s) b) (l : List β) (s : α) :
    (l.foldlM f s).map proj = l.foldlM g (proj s) := by
  induction l generalizing s with
  | nil => rfl
  | cons b l ih =>
      rw [List.foldlM_cons, List.foldlM_cons, ← h s b]
      cases f s b with
      | error e => rfl
      | ok m => exact ih m

/-- A fold over two lists is one over the first and then the second. -/
theorem foldlM_append_eq_ok {f : α → β → Except ε α} {l l' : List β} :
    (l ++ l').foldlM f s = .ok t ↔ ∃ m, l.foldlM f s = .ok m ∧ l'.foldlM f m = .ok t := by
  rw [List.foldlM_append, bind_eq_ok]

/-- A loop none of whose turns fails. -/
theorem mapM_some {f : β → Option α} {g : β → α} {l : List β} (h : ∀ b ∈ l, f b = some (g b)) :
    l.mapM f = some (l.map g) := by
  induction l with
  | nil => rfl
  | cons b l ih =>
      rw [List.mapM_cons, h b List.mem_cons_self, ih fun other hOther => h other (List.mem_cons_of_mem b hOther)]
      rfl

/-- Calls that agree on the elements give the same list. -/
theorem mapM_congr {f g : β → Except ε α} {l : List β} (h : ∀ b ∈ l, f b = g b) : l.mapM f = l.mapM g := by
  induction l with
  | nil => rfl
  | cons b l ih =>
      rw [List.mapM_cons, List.mapM_cons, h b List.mem_cons_self, ih fun c hc => h c (List.mem_cons_of_mem _ hc)]

/-- A list is read where each of its elements is. -/
theorem mapM_isOk {f : β → Except ε α} {l : List β} : (∃ out, l.mapM f = .ok out) ↔ ∀ b ∈ l, ∃ a, f b = .ok a := by
  induction l with
  | nil => simp [pure, Except.pure]
  | cons b l ih =>
      simp only [List.mapM_cons, bind_eq_ok, List.forall_mem_cons, ← ih]
      constructor
      · rintro ⟨out, a, hFirst, rest, hRest, -⟩
        exact ⟨⟨a, hFirst⟩, rest, hRest⟩
      · rintro ⟨⟨a, hFirst⟩, rest, hRest⟩
        exact ⟨a :: rest, a, hFirst, rest, hRest, rfl⟩

/-- Each element of a list that is read has its reading in the result. -/
theorem mapM_mem {f : β → Except ε α} {l : List β} {out : List α} (h : l.mapM f = .ok out) {b : β} (hb : b ∈ l) :
    ∃ a ∈ out, f b = .ok a := by
  induction l generalizing out with
  | nil => cases hb
  | cons x l ih =>
      rw [List.mapM_cons] at h
      obtain ⟨y, hy, h⟩ := bind_eq_ok.mp h
      obtain ⟨rest, hRest, h⟩ := bind_eq_ok.mp h
      obtain rfl := Except.ok.inj h
      rcases List.mem_cons.mp hb with rfl | hb
      · exact ⟨y, List.mem_cons_self, hy⟩
      · obtain ⟨a, ha, hf⟩ := ih hRest hb
        exact ⟨a, List.mem_cons_of_mem _ ha, hf⟩

/-- What stands in the result is the reading of an element. -/
theorem mapM_from {f : β → Except ε α} {l : List β} {out : List α} (h : l.mapM f = .ok out) (ha : a ∈ out) :
    ∃ b ∈ l, f b = .ok a := by
  induction l generalizing out with
  | nil =>
      obtain rfl : [] = out := Except.ok.inj h
      cases ha
  | cons x l ih =>
      rw [List.mapM_cons] at h
      obtain ⟨y, hy, h⟩ := bind_eq_ok.mp h
      obtain ⟨rest, hRest, h⟩ := bind_eq_ok.mp h
      obtain rfl := Except.ok.inj h
      rcases List.mem_cons.mp ha with rfl | ha
      · exact ⟨x, List.mem_cons_self, hy⟩
      · obtain ⟨b, hb, hf⟩ := ih hRest ha
        exact ⟨b, List.mem_cons_of_mem _ hb, hf⟩

/-- A loop that succeeds has made each of its turns. -/
theorem mapM_eq_ok {f : β → Except ε α} {l : List β} {out : List α} :
    l.mapM f = .ok out ↔ List.Forall₂ (fun b a => f b = .ok a) l out := by
  induction l generalizing out with
  | nil => exact ⟨fun h => Except.ok.inj h ▸ .nil, fun h => by cases h; rfl⟩
  | cons b l ih =>
      rw [List.mapM_cons, bind_eq_ok]
      constructor
      · rintro ⟨a, hFirst, hRest⟩
        obtain ⟨rest, hLoop, hOut⟩ := bind_eq_ok.mp hRest
        exact Except.ok.inj hOut ▸ .cons hFirst (ih.mp hLoop)
      · rintro (_ | ⟨hFirst, hRest⟩)
        exact ⟨_, hFirst, bind_eq_ok.mpr ⟨_, ih.mpr hRest, rfl⟩⟩

/-- A list passes a check where each of its elements does. -/
theorem forM_eq_ok {f : β → Except ε PUnit.{u + 1}} {l : List β} : l.forM f = .ok ⟨⟩ ↔ ∀ b ∈ l, f b = .ok ⟨⟩ := by
  induction l with
  | nil => simp [pure, Except.pure]
  | cons b l ih =>
      rw [List.forM, bind_eq_ok, List.forall_mem_cons, ← ih]
      constructor
      · rintro ⟨⟨⟩, hFirst, hRest⟩
        exact ⟨hFirst, hRest⟩
      · rintro ⟨hFirst, hRest⟩
        exact ⟨⟨⟩, hFirst, hRest⟩

/-- The elements that pass a test, which may fail. -/
def keep {ε β : Type} (test : β → Except ε Bool) : List β → Except ε (List β)
  | [] => .ok []
  | b :: rest => do
      let passes ← test b
      let kept ← keep test rest
      .ok (if passes then b :: kept else kept)

def passed {ε : Type} : Except ε Bool → Bool
  | .ok true => true
  | _ => false

theorem passed_iff {ε : Type} {x : Except ε Bool} : passed x = true ↔ x = .ok true := by
  rcases x with e | _ | _ <;> simp [passed]

/-- What is kept are the elements that pass, in their order. -/
theorem keep_eq_ok {ε β : Type} {test : β → Except ε Bool} {l out : List β} :
    keep test l = .ok out ↔ (∀ b ∈ l, ∃ x, test b = .ok x) ∧ l.filter (fun b => passed (test b)) = out := by
  induction l generalizing out with
  | nil => simp [keep]
  | cons b l ih =>
      rw [keep, bind_eq_ok, List.forall_mem_cons, List.filter_cons]
      constructor
      · rintro ⟨x, hFirst, hRest⟩
        obtain ⟨kept, hKept, hOut⟩ := bind_eq_ok.mp hRest
        obtain ⟨hAll, rfl⟩ := ih.mp hKept
        refine ⟨⟨⟨x, hFirst⟩, hAll⟩, ?_⟩
        rw [hFirst, ← Except.ok.inj hOut]
        cases x <;> rfl
      · rintro ⟨⟨⟨x, hFirst⟩, hAll⟩, rfl⟩
        refine ⟨x, hFirst, bind_eq_ok.mpr ⟨_, ih.mpr ⟨hAll, rfl⟩, ?_⟩⟩
        rw [hFirst]
        cases x <;> rfl

theorem mem_keep {ε β : Type} {test : β → Except ε Bool} {l out : List β} (h : keep test l = .ok out) {b : β} :
    b ∈ out ↔ b ∈ l ∧ test b = .ok true := by
  obtain ⟨-, rfl⟩ := keep_eq_ok.mp h
  rw [List.mem_filter, passed_iff]

theorem keep_append {ε β : Type} {test : β → Except ε Bool} {l more out out' : List β} (h : keep test l = .ok out)
    (h' : keep test more = .ok out') : keep test (l ++ more) = .ok (out ++ out') := by
  obtain ⟨hAll, rfl⟩ := keep_eq_ok.mp h
  obtain ⟨hAll', rfl⟩ := keep_eq_ok.mp h'
  exact keep_eq_ok.mpr ⟨List.forall_mem_append.mpr ⟨hAll, hAll'⟩, List.filter_append ..⟩

theorem keep_all {ε β : Type} {test : β → Except ε Bool} {l : List β} (h : ∀ b ∈ l, test b = .ok true) :
    keep test l = .ok l :=
  keep_eq_ok.mpr ⟨fun b hb => ⟨true, h b hb⟩, List.filter_eq_self.mpr fun b hb => passed_iff.mpr (h b hb)⟩

theorem keep_none {ε β : Type} {test : β → Except ε Bool} {l : List β} (h : ∀ b ∈ l, test b = .ok false) :
    keep test l = .ok [] :=
  keep_eq_ok.mpr ⟨fun b hb => ⟨false, h b hb⟩, List.filter_eq_nil_iff.mpr fun b hb => by simp [h b hb, passed]⟩

/-- A test that is the same on related elements keeps related ones. -/
theorem keep_related {ε β : Type} {R : β → β → Prop} {test : β → Except ε Bool} {l l' out : List β}
    (hTest : ∀ b b' x, R b b' → test b = .ok x → test b' = .ok x) (hRelated : List.Forall₂ R l l')
    (h : keep test l = .ok out) : ∃ out', keep test l' = .ok out' ∧ List.Forall₂ R out out' := by
  induction hRelated generalizing out with
  | nil => exact ⟨[], rfl, Except.ok.inj h ▸ .nil⟩
  | @cons b b' rest rest' hFirst _ ih =>
      obtain ⟨passes, hPasses, h⟩ := bind_eq_ok.mp h
      obtain ⟨kept, hKept, h⟩ := bind_eq_ok.mp h
      obtain ⟨kept', hKept', hBoth⟩ := ih hKept
      refine ⟨if passes then b' :: kept' else kept', ?_, ?_⟩
      · rw [keep, hTest b b' passes hFirst hPasses, hKept']
        rfl
      · rw [← Except.ok.inj h]
        cases passes
        · exact hBoth
        · exact .cons hFirst hBoth

end Fallible
