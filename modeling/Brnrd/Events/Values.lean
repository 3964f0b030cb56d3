import Brnrd.Events.Rewrites
import Brnrd.Readme.Values

/-! What a value is read as: `_coerce` and the lines a value takes. -/
namespace Brnrd.Events

open Python

/-- A character of an integer literal. -/
def IntChar (c : Char) : Prop :=
  (digit c).isSome = true ∨ c ∈ ['_', '-', '+']

theorem digits_chars {text : Text} {start n : Nat} (h : digits text start = some n) : ∀ c ∈ text, IntChar c := by
  have hHead : ∀ {c : Char} {f : Nat → Option Nat}, (digit c).bind f = some n → IntChar c := by
    intro c f hBind
    obtain ⟨d, hDigit, -⟩ := Option.bind_eq_some_iff.mp hBind
    exact .inl (by rw [hDigit]; rfl)
  induction text, start using digits.induct with
  | case1 => cases h
  | case2 start c =>
      obtain ⟨d, hDigit, -⟩ := Option.map_eq_some_iff.mp h
      intro e he
      obtain rfl := List.mem_singleton.mp he
      exact .inl (by rw [hDigit]; rfl)
  | case3 start c rest ih =>
      rw [digits] at h
      obtain ⟨d, hDigit, hRest⟩ := Option.bind_eq_some_iff.mp h
      intro e he
      rcases List.mem_cons.mp he with rfl | he
      · exact hHead h
      · rcases List.mem_cons.mp he with rfl | he
        · exact .inr (by simp)
        · exact ih d hRest e he
  | case4 start c rest hSome hNot ih =>
      rw [digits.eq_4 _ _ _ hSome hNot] at h
      obtain ⟨d, hDigit, hRest⟩ := Option.bind_eq_some_iff.mp h
      intro e he
      rcases List.mem_cons.mp he with rfl | he
      · exact hHead h
      · exact ih d hRest e he

/-- What `int` accepts is made of digits, underscores and a sign. -/
theorem parseInt_chars {text : Text} {n : Int} (h : parseInt (String.ofList text) = some n) :
    ∀ c ∈ strip text, IntChar c := by
  have hMap : ∀ {rest : Text} {f : Int → Int}, ((digits rest 0).bind fun m => some (m : Int)).map f = some n →
      ∀ c ∈ rest, IntChar c := by
    intro rest f hMap
    obtain ⟨m, hBind, -⟩ := Option.map_eq_some_iff.mp hMap
    obtain ⟨k, hDigits, -⟩ := Option.bind_eq_some_iff.mp hBind
    exact digits_chars hDigits
  rw [parseInt, String.toList_ofList] at h
  split at h
  · rename_i rest hStrip
    rw [hStrip]
    intro c hc
    rcases List.mem_cons.mp hc with rfl | hc
    · exact .inr (by simp)
    · exact hMap h c hc
  · rename_i rest hStrip
    rw [hStrip]
    intro c hc
    rcases List.mem_cons.mp hc with rfl | hc
    · exact .inr (by simp)
    · exact hMap h c hc
  · exact hMap h

theorem intChar_plain {c : Char} (h : IntChar c) : isSpace c = false ∧ c ≠ ':' := by
  have hZeros : ∀ z ∈ zeros, ∀ i < 10, spaces.contains (z + i) = false ∧ z + i ≠ 0x3a := by decide +kernel
  rcases h with h | h
  · rw [digit, Option.isSome_map, List.find?_isSome] at h
    obtain ⟨z, hMem, hBounds⟩ := h
    obtain ⟨hLow, hHigh⟩ := of_decide_eq_true hBounds
    obtain ⟨hSpace, hColon⟩ := hZeros z hMem (c.toNat - z) (by omega)
    rw [Nat.add_sub_cancel' hLow] at hSpace hColon
    refine ⟨hSpace, ?_⟩
    rintro rfl
    exact hColon rfl
  · have hAll : ∀ d ∈ ['_', '-', '+'], isSpace d = false ∧ d ≠ ':' := by decide
    exact hAll c h

/-- The words `_coerce` knows. -/
def words : List Text :=
  ["true", "True", "false", "False", "null", "None", "~"].map String.toList

/-- What `_coerce` can make of a value. -/
theorem coerce_cases (val : Text) :
    (val ∈ words ∧ ∀ t n, coerce val ≠ .text t ∧ coerce val ≠ .int n) ∨
      (∃ q inner, q ∈ quoteMarks ∧ val = q :: (inner ++ [q]) ∧ coerce val = .text inner) ∨
      (∃ n, parseInt (String.ofList val) = some n ∧ coerce val = .int n) ∨ coerce val = .text val := by
  by_cases hTrue : val = "true".toList ∨ val = "True".toList
  · refine .inl ⟨?_, fun t n => by rw [coerce, if_pos hTrue]; simp⟩
    rcases hTrue with rfl | rfl <;> decide
  by_cases hFalse : val = "false".toList ∨ val = "False".toList
  · refine .inl ⟨?_, fun t n => by rw [coerce, if_neg hTrue, if_pos hFalse]; simp⟩
    rcases hFalse with rfl | rfl <;> decide
  by_cases hNone : val = "null".toList ∨ val = "None".toList ∨ val = "~".toList
  · refine .inl ⟨?_, fun t n => by rw [coerce, if_neg hTrue, if_neg hFalse, if_pos hNone]; simp⟩
    rcases hNone with rfl | rfl | rfl <;> decide
  rw [coerce, if_neg hTrue, if_neg hFalse, if_neg hNone]
  by_cases hQuoted : 2 ≤ val.length ∧ val.head? = val.getLast? ∧ val.head?.any (quoteMarks.contains ·)
  · refine .inr (.inl ?_)
    rw [if_pos hQuoted]
    obtain ⟨hLength, hSame, hMark⟩ := hQuoted
    cases val with
    | nil => simp at hLength
    | cons q rest =>
        have hRest : rest ≠ [] := by
          rintro rfl
          simp at hLength
        have hLast : rest.getLast hRest = q := by
          rw [List.head?_cons, List.getLast?_eq_some_getLast (by simp), List.getLast_cons hRest] at hSame
          exact (Option.some.inj hSame).symm
        refine ⟨q, rest.dropLast, by simpa using hMark, ?_, rfl⟩
        have hSplit := List.dropLast_append_getLast hRest
        rw [hLast] at hSplit
        rw [hSplit]
  · rw [if_neg hQuoted]
    cases hInt : parseInt (String.ofList val) with
    | none => exact .inr (.inr (.inr rfl))
    | some n => exact .inr (.inr (.inl ⟨n, rfl, rfl⟩))

/-- `text.rstrip()`. -/
def rstrip (text : Text) : Text :=
  text.rdropWhile isSpace

theorem rstrip_split (text : Text) : ∃ blank, text = rstrip text ++ blank ∧ ∀ c ∈ blank, isSpace c = true := by
  refine ⟨text.rtakeWhile isSpace, List.rdropWhile_append_rtakeWhile.symm, fun c hc => ?_⟩
  exact List.mem_rtakeWhile_imp hc

theorem strip_blank_end {blank : Text} (h : ∀ c ∈ blank, isSpace c = true) (text : Text) :
    strip (text ++ blank) = strip text := by
  have hNone : ∀ c ∈ ([] : Text), isSpace c = true := by simp
  exact Readme.strip_append hNone h text

theorem strip_rstrip (text : Text) : strip (rstrip text) = strip text := by
  obtain ⟨blank, hText, hBlank⟩ := rstrip_split text
  conv_rhs => rw [hText, strip_blank_end hBlank]

/-- Lines of blank characters only. -/
theorem splitFrom_blank {text line : Text} {returned : Bool} (hLine : ∀ c ∈ line, isSpace c = true)
    (hText : ∀ c ∈ text, isSpace c = true) : ∀ piece ∈ splitFrom line returned text, lstrip piece = [] :=
  fun _ hPiece => List.dropWhile_eq_nil_iff.mpr fun c hc =>
    (List.mem_append.mp ((mem_splitFrom hPiece).subset hc)).elim (hLine c) (hText c)

/-- A value whose line boundaries are all behind its last solid character takes one
line, and blank ones. -/
theorem field_pieces {key value : Text} (hName : Name key) (hTidy : OneLine (rstrip value)) :
    ∃ first blanks, splitlines (fieldLine (key, value) ++ ['\n']) = fieldLine (key, first) :: blanks ∧
      strip first = strip value ∧ ∀ blank ∈ blanks, lstrip blank = [] := by
  obtain ⟨blank, hValue, hBlank⟩ := rstrip_split value
  have hSpaces : ∀ c ∈ blank ++ ['\n'], isSpace c = true := by
    intro c hc
    rcases List.mem_append.mp hc with hc | hc
    · exact hBlank c hc
    · rw [List.mem_singleton.mp hc]
      decide
  have hBreaks : ¬OneLine (blank ++ ['\n']) := by
    intro h
    have hNewline := h '\n' (by simp)
    revert hNewline
    decide
  obtain ⟨before, c, rest, hSplit, hBefore, hc⟩ := first_break hBreaks
  have hParts : ∀ d, d ∈ before ∨ d ∈ rest → isSpace d = true := by
    intro d hd
    refine hSpaces d ?_
    rw [hSplit]
    rcases hd with hd | hd <;> simp [hd]
  refine ⟨rstrip value ++ before, splitFrom [] (c = '\r') rest, ?_, ?_, ?_⟩
  · have hLine : fieldLine (key, value) ++ ['\n'] = fieldLine (key, rstrip value ++ before) ++ c :: rest := by
      calc fieldLine (key, value) ++ ['\n'] = key ++ ':' :: ' ' :: (rstrip value ++ (blank ++ ['\n'])) := by
            simp only [fieldLine, List.append_assoc, List.cons_append]
            rw [← List.append_assoc (rstrip value), ← hValue]
        _ = fieldLine (key, rstrip value ++ before) ++ c :: rest := by
            rw [hSplit]
            simp [fieldLine]
    rw [hLine, splitlines_break (hName.oneLine (hTidy.append hBefore)) hc]
  · rw [strip_blank_end fun d hd => hParts d (.inl hd), strip_rstrip]
  · exact splitFrom_blank (by simp) fun d hd => hParts d (.inr hd)

end Brnrd.Events
