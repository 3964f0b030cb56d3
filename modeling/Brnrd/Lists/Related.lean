import Mathlib.Data.List.Forall2

/-! Two lists whose elements are related one by one. -/
namespace Related

/-- Elements related through those of a list between. -/
theorem forall₂_trans {κ : Type*} {γ δ : Type*} {R : κ → γ → Prop} {S : γ → δ → Prop} {T : κ → δ → Prop}
    {first : List κ} {second : List γ} {third : List δ} (h : List.Forall₂ R first second)
    (h' : List.Forall₂ S second third) (hStep : ∀ x y z, R x y → S y z → T x z) : List.Forall₂ T first third := by
  induction h generalizing third with
  | nil =>
      cases h'
      exact .nil
  | cons hFirst _ ih =>
      cases h' with
      | cons hSecond hRest => exact .cons (hStep _ _ _ hFirst hSecond) (ih hRest)

theorem forall₂_append {κ γ : Type*} {R : κ → γ → Prop} {first second : List κ} {out : List γ} :
    List.Forall₂ R (first ++ second) out ↔
      ∃ out₁ out₂, List.Forall₂ R first out₁ ∧ List.Forall₂ R second out₂ ∧ out = out₁ ++ out₂ := by
  induction first generalizing out with
  | nil => simp [List.forall₂_nil_left_iff]
  | cons b first ih =>
      simp only [List.cons_append, List.forall₂_cons_left_iff, ih]
      constructor
      · rintro ⟨a, rest, hFirst, ⟨out₁, out₂, h₁, h₂, rfl⟩, rfl⟩
        exact ⟨a :: out₁, out₂, ⟨a, out₁, hFirst, h₁, rfl⟩, h₂, rfl⟩
      · rintro ⟨_, out₂, ⟨a, out₁, hFirst, h₁, rfl⟩, h₂, rfl⟩
        exact ⟨a, out₁ ++ out₂, hFirst, ⟨out₁, out₂, h₁, h₂, rfl⟩, rfl⟩

theorem forall₂_from {κ γ : Type*} {R : κ → γ → Prop} {first : List κ} {out : List γ} (h : List.Forall₂ R first out) {c : γ}
    (hc : c ∈ out) : ∃ b ∈ first, R b c := by
  obtain ⟨i, hi, rfl⟩ := List.getElem_of_mem hc
  exact ⟨_, List.getElem_mem (h.length_eq ▸ hi), h.get (h.length_eq ▸ hi) hi⟩

end Related
