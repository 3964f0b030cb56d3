import Brnrd.Python.Lines

/-! An integer reads back from its printed form. -/
namespace Brnrd.Python

theorem toNat_of_isDigit {c : Char} (h : c.isDigit = true) : 0x30 ≤ c.toNat ∧ c.toNat ≤ 0x39 :=
  Char.isDigit_iff_toNat.mp h

theorem digit_of_isDigit {c : Char} (h : c.isDigit = true) : digit c = some (c.toNat - 0x30) := by
  have hAll : ∀ n ∈ List.range' 0x30 10,
      (zeros.find? fun z => decide (z ≤ n ∧ n < z + 10)).map (fun z => n - z) = some (n - 0x30) := by
    decide
  obtain ⟨hLow, hHigh⟩ := toNat_of_isDigit h
  exact hAll c.toNat (List.mem_range'_1.mpr ⟨hLow, by omega⟩)

theorem not_isSpace_of_isDigit {c : Char} (h : c.isDigit = true) : isSpace c = false := by
  have hAll : ∀ n ∈ List.range' 0x30 10, spaces.contains n = false := by decide
  obtain ⟨hLow, hHigh⟩ := toNat_of_isDigit h
  exact hAll c.toNat (List.mem_range'_1.mpr ⟨hLow, by omega⟩)

/-- Decimal digits read as the number they spell. -/
theorem digits_eq {text : List Char} (hNew : text ≠ []) (h : ∀ c ∈ text, c.isDigit = true) (acc : Nat) :
    digits text acc = some (Nat.ofDigitChars 10 text acc) := by
  induction text generalizing acc with
  | nil => exact absurd rfl hNew
  | cons c rest ih =>
      have hDigit := digit_of_isDigit (h c List.mem_cons_self)
      have hNext : acc * 10 + (c.toNat - 0x30) = 10 * acc + (c.toNat - 0x30) := by omega
      cases rest with
      | nil => simp [digits, hDigit, Nat.ofDigitChars_cons, Nat.ofDigitChars_nil, hNext]
      | cons d rest =>
          have hUnder : d ≠ '_' := by
            rintro rfl
            have hNot := h '_' (by simp)
            revert hNot
            decide
          have hStep : digits (c :: d :: rest) acc = digits (d :: rest) (acc * 10 + (c.toNat - 0x30)) := by
            rw [digits.eq_4 acc c (d :: rest) (by simp) (by intro r hr; exact hUnder (List.cons.inj hr).1), hDigit]
            rfl
          rw [hStep, ih (by simp) (fun e he => h e (List.mem_cons_of_mem _ he)), Nat.ofDigitChars_cons, hNext]
          rfl

theorem digits_toDigits (n : Nat) : digits (Nat.toDigits 10 n) 0 = some n := by
  rw [digits_eq Nat.toDigits_ne_nil fun c hc => Nat.isDigit_of_mem_toDigits (by decide) (by decide) hc,
    Nat.ofDigitChars_ten_toDigits]

/-- The printed form of an integer: its digits, behind a sign where it is negative. -/
theorem toList_toString (n : Int) :
    (toString n).toList = (if 0 ≤ n then [] else ['-']) ++ Nat.toDigits 10 n.natAbs := by
  rw [Int.toString_eq_repr, Int.repr_eq_if]
  split
  · rename_i hSign
    rw [Nat.toList_repr, List.nil_append]
    congr 1
    omega
  · rename_i hSign
    rw [String.toList_append, Nat.toList_repr]
    congr 2
    omega

theorem toString_chars (n : Int) : ∀ c ∈ (toString n).toList, c = '-' ∨ c.isDigit = true := by
  intro c hc
  rw [toList_toString, List.mem_append] at hc
  rcases hc with hc | hc
  · split at hc
    · cases hc
    · exact .inl (List.mem_singleton.mp hc)
  · exact .inr (Nat.isDigit_of_mem_toDigits (by decide) (by decide) hc)

theorem toString_ne_nil (n : Int) : (toString n).toList ≠ [] := by
  rw [toList_toString]
  exact List.append_ne_nil_of_right_ne_nil _ Nat.toDigits_ne_nil

theorem parseInt_toString (n : Int) : parseInt (toString n) = some n := by
  have hSolid : ∀ c ∈ (toString n).toList, isSpace c = false := by
    intro c hc
    rcases toString_chars n c hc with rfl | hDigit
    · decide
    · exact not_isSpace_of_isDigit hDigit
  have hStrip : strip (toString n).toList = (toString n).toList :=
    strip_eq_self (fun c hc => hSolid c (List.mem_of_head? hc)) fun c hc => hSolid c (List.mem_of_getLast? hc)
  obtain ⟨c, rest, hDigits⟩ := List.exists_cons_of_ne_nil (Nat.toDigits_ne_nil (n := n.natAbs) (b := 10))
  have hHead : c.isDigit = true :=
    Nat.isDigit_of_mem_toDigits (b := 10) (n := n.natAbs) (by decide) (by decide) (by rw [hDigits]; exact List.mem_cons_self ..)
  have hRead : digits (c :: rest) 0 = some n.natAbs := hDigits ▸ digits_toDigits n.natAbs
  rw [parseInt, hStrip, toList_toString, hDigits]
  split
  · rename_i tail hText
    split at hText
    · rw [List.nil_append] at hText
      rw [(List.cons.inj hText).1] at hHead
      cases hHead
    · obtain rfl : c :: rest = tail := (List.cons.inj hText).2
      rw [hRead]
      exact congrArg some (show -(n.natAbs : Int) = n by omega)
  · rename_i tail hText
    split at hText
    · rw [List.nil_append] at hText
      rw [(List.cons.inj hText).1] at hHead
      cases hHead
    · cases (List.cons.inj hText).1
  · rename_i hMinus hPlus
    split
    · rw [List.nil_append, hRead]
      exact congrArg some (show (n.natAbs : Int) = n by omega)
    · rename_i hSign
      exact absurd (by rw [if_neg hSign]; rfl) (hMinus (c :: rest))

end Brnrd.Python
