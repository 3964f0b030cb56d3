import Brnrd.Lists.Joined
import Brnrd.Python.Value

/-! Where a quote sits in a letter, ignoring case, whitespace and punctuation. -/
namespace Brnrd.Dispositions

open Python

abbrev Text := List Char

/-- `str.lower` of one character that is not ASCII, which may be several. -/
structure Casing extends Alphabet where
  lower : Char → Text

variable (casing : Casing)

/-- `char.lower()`. -/
def lower (c : Char) : Text :=
  if c.toNat < 128 then [if 'A' ≤ c ∧ c ≤ 'Z' then Char.ofNat (c.toNat + 32) else c] else casing.lower c

/-- What a character leaves of itself. -/
def kept (c : Char) : Text :=
  if isalnum casing.toAlphabet c then lower casing c else []

/-- A text in lower case, of letters and digits alone. -/
def normal (text : Text) : Text := text.flatMap (kept casing)

/-- `text.find(wanted)`. -/
def find (wanted : Text) : Text → Option ℕ
  | [] => if wanted = [] then some 0 else none
  | c :: rest => if wanted <+: c :: rest then some 0 else (find wanted rest).map (· + 1)

/-- `place`: the start and the size. The index has an entry for each character of the
normalised body, so both reads are inside it. -/
def place (body quote : Text) : Option (ℕ × ℕ) :=
  let index := Expanded.owners (kept casing) body 0
  let wanted := normal casing quote
  if wanted = [] then none
  else (find wanted (normal casing body)).map fun start =>
    (index.getD start 0, index.getD (start + wanted.length - 1) 0 + 1 - index.getD start 0)

variable {body text quote wanted : Text}

theorem find_eq_none : find wanted text = none ↔ ¬ wanted <:+: text := by
  induction text with
  | nil => simp [find]
  | cons c rest ih =>
      rw [find]
      split
      · rename_i hPrefix
        simp [hPrefix.isInfix]
      · rename_i hNot
        rw [Option.map_eq_none_iff, ih, List.infix_cons_iff, not_or]
        exact ⟨fun h => ⟨hNot, h⟩, And.right⟩

theorem find_spec {start : ℕ} (h : find wanted text = some start) : wanted <+: text.drop start := by
  induction text generalizing start with
  | nil =>
      rw [find] at h
      split at h
      · rename_i hEmpty
        rw [hEmpty]
        exact List.nil_prefix
      · cases h
  | cons c rest ih =>
      rw [find] at h
      split at h
      · rename_i hPrefix
        obtain rfl := Option.some.inj h
        exact hPrefix
      · obtain ⟨before, hBefore, rfl⟩ := Option.map_eq_some_iff.mp h
        exact ih hBefore

/-- What the words cited are to be: in the body, of the quote's normalised text, and with
no shorter stretch of that text inside. -/
structure Cites (body quote : Text) (start size : ℕ) : Prop where
  inside : start + size ≤ body.length
  same : normal casing ((body.drop start).take size) = normal casing quote
  least : ∀ a b, start ≤ a → b ≤ start + size → normal casing ((body.drop a).take (b - a)) = normal casing quote →
    a = start ∧ b = start + size

/-- A quote is placed exactly where it was said. -/
structure Placed (body quote : Text) : Prop where
  none_iff : place casing body quote = none ↔
    normal casing quote = [] ∨ ¬ normal casing quote <:+: normal casing body
  cites : ∀ start size, place casing body quote = some (start, size) → Cites casing body quote start size

/-- The text of the letters before some one ends here. -/
def Whole (body : Text) (p : ℕ) : Prop :=
  ∃ k, (normal casing (body.take k)).length = p

/-- The place where the quote is first found starts and ends between two letters. -/
def Aligned (body quote : Text) : Prop :=
  normal casing quote ≠ [] → ∀ start, find (normal casing quote) (normal casing body) = some start →
    Whole casing body start ∧ Whole casing body (start + (normal casing quote).length)

variable {casing}

theorem place_eq_none : place casing body quote = none ↔
    normal casing quote = [] ∨ ¬ normal casing quote <:+: normal casing body := by
  unfold place
  dsimp only
  split
  · rename_i hEmpty
    simp [hEmpty]
  · rename_i hSome
    rw [Option.map_eq_none_iff, find_eq_none]
    exact ⟨.inr, fun h => h.resolve_left hSome⟩

/-- The letters a quote is cut from: the first letter that has a part of the found text
and the last. -/
theorem place_eq_some {start size : ℕ} (h : place casing body quote = some (start, size)) :
    ∃ p last, normal casing quote ≠ [] ∧ find (normal casing quote) (normal casing body) = some p ∧ size = last + 1 - start ∧
      start < body.length ∧ last < body.length ∧
      Expanded.offset (kept casing) body start ≤ p ∧ p < Expanded.offset (kept casing) body (start + 1) ∧
      Expanded.offset (kept casing) body last ≤ p + (normal casing quote).length - 1 ∧
      p + (normal casing quote).length - 1 < Expanded.offset (kept casing) body (last + 1) := by
  unfold place at h
  dsimp only at h
  split at h
  · cases h
  · rename_i hSome
    obtain ⟨p, hFind, hPair⟩ := Option.map_eq_some_iff.mp h
    have hPrefix := (find_spec hFind).length_le
    have hPos := List.length_pos_iff.mpr hSome
    rw [List.length_drop] at hPrefix
    have hIndex : ∀ q < (normal casing body).length, ∃ j, (Expanded.owners (kept casing) body 0).getD q 0 = j ∧
        j < body.length ∧ Expanded.offset (kept casing) body j ≤ q ∧ q < Expanded.offset (kept casing) body (j + 1) := by
      intro q hq
      have hLength := Expanded.length_owners (kept casing) body 0
      have hThere : q < (Expanded.owners (kept casing) body 0).length := hLength ▸ hq
      obtain ⟨j, hj, hBounds⟩ := Expanded.owner_bounds (List.getElem?_eq_getElem hThere)
      rw [Nat.zero_add] at hj
      exact ⟨j, by rw [List.getD_eq_getElem?_getD, List.getElem?_eq_getElem hThere, Option.getD_some, hj], hBounds⟩
    obtain ⟨first, hFirst, hFirstIn, hFirstLow, hFirstHigh⟩ := hIndex p (by omega)
    obtain ⟨last, hLast, hLastIn, hLastLow, hLastHigh⟩ := hIndex (p + (normal casing quote).length - 1) (by omega)
    rw [hFirst, hLast] at hPair
    obtain ⟨rfl, rfl⟩ := Prod.mk.inj hPair
    exact ⟨p, last, hSome, hFind, rfl, hFirstIn, hLastIn, hFirstLow, hFirstHigh, hLastLow, hLastHigh⟩

theorem whole_length (body : Text) (k : ℕ) :
    (normal casing (body.take k)).length = Expanded.offset (kept casing) body k :=
  rfl

theorem normal_slice (body : Text) (a b : ℕ) : normal casing ((body.drop a).take (b - a)) =
    ((normal casing body).drop (Expanded.offset (kept casing) body a)).take
      (Expanded.offset (kept casing) body b - Expanded.offset (kept casing) body a) :=
  Expanded.flatMap_slice a b

theorem length_normal (body : Text) {k : ℕ} (h : body.length ≤ k) :
    Expanded.offset (kept casing) body k = (normal casing body).length := by
  rw [Expanded.offset, List.take_of_length_le h]
  rfl

theorem length_slice (body : Text) (a : ℕ) {b : ℕ} (h : b ≤ body.length) :
    (normal casing ((body.drop a).take (b - a))).length =
      Expanded.offset (kept casing) body b - Expanded.offset (kept casing) body a := by
  have hText := Expanded.offset_mono (kept casing) body h
  rw [length_normal body (Nat.le_refl _)] at hText
  rw [normal_slice, List.length_take, List.length_drop]
  omega

/-- The span is right where the found text starts and ends between two letters. -/
theorem cites_iff {p start last : ℕ} (hSome : normal casing quote ≠ [])
    (hFind : find (normal casing quote) (normal casing body) = some p) (hLast : last < body.length)
    (hLow : Expanded.offset (kept casing) body start ≤ p) (hHigh : p < Expanded.offset (kept casing) body (start + 1))
    (hLastLow : Expanded.offset (kept casing) body last ≤ p + (normal casing quote).length - 1)
    (hLastHigh : p + (normal casing quote).length - 1 < Expanded.offset (kept casing) body (last + 1)) :
    Cites casing body quote start (last + 1 - start) ↔
      Whole casing body p ∧ Whole casing body (p + (normal casing quote).length) := by
  have hPos := List.length_pos_iff.mpr hSome
  have hOrder : start ≤ last := by
    by_contra hLess
    have hBack := Expanded.offset_mono (kept casing) body (show last + 1 ≤ start by omega)
    omega
  have hEnd : start + (last + 1 - start) = last + 1 := by omega
  constructor
  · intro h
    have hLength := congrArg List.length h.same
    rw [length_slice body start (show last + 1 ≤ body.length from hLast)] at hLength
    exact ⟨⟨start, by rw [whole_length]; omega⟩, ⟨last + 1, by rw [whole_length]; omega⟩⟩
  · rintro ⟨hFirst, k, hk⟩
    have hFrom := (Expanded.offset_eq_iff hLow hHigh).mp hFirst
    have hTo : Expanded.offset (kept casing) body (last + 1) = p + (normal casing quote).length := by
      have hPast : last + 1 ≤ k := by
        by_contra hLess
        have hBack := Expanded.offset_mono (kept casing) body (show k ≤ last by omega)
        rw [whole_length] at hk
        omega
      have hBack := Expanded.offset_mono (kept casing) body hPast
      rw [whole_length] at hk
      omega
    refine ⟨by omega, ?_, fun a b ha hb hSame => ?_⟩
    · rw [normal_slice, hFrom, hTo, Nat.add_sub_cancel_left]
      exact (List.prefix_iff_eq_take.mp (find_spec hFind)).symm
    · rw [hEnd] at hb
      have hLength := congrArg List.length hSame
      rw [length_slice body a (by omega)] at hLength
      have hAfter := Expanded.offset_mono (kept casing) body ha
      have hBefore := Expanded.offset_mono (kept casing) body hb
      refine ⟨?_, ?_⟩
      · by_contra hNot
        have hNext := Expanded.offset_mono (kept casing) body (show start + 1 ≤ a by omega)
        omega
      · by_contra hNot
        have hPrior := Expanded.offset_mono (kept casing) body (show b ≤ last by omega)
        omega

/-- A quote is placed as it should be exactly where the place it is first found at starts
and ends between two letters. -/
theorem placed_iff (casing : Casing) (body quote : Text) : Placed casing body quote ↔ Aligned casing body quote := by
  constructor
  · intro h hSome p hFind
    have hPlace : (place casing body quote).isSome := by
      rw [place, if_neg hSome, hFind]
      rfl
    obtain ⟨⟨start, size⟩, hPair⟩ := Option.isSome_iff_exists.mp hPlace
    obtain ⟨q, last, -, hFound, rfl, -, hLast, hBounds⟩ := place_eq_some hPair
    obtain rfl := Option.mem_unique hFind hFound
    exact (cites_iff hSome hFind hLast hBounds.1 hBounds.2.1 hBounds.2.2.1 hBounds.2.2.2).mp (h.cites _ _ hPair)
  · intro h
    refine ⟨place_eq_none, fun start size hPair => ?_⟩
    obtain ⟨p, last, hSome, hFind, rfl, -, hLast, hBounds⟩ := place_eq_some hPair
    exact (cites_iff hSome hFind hLast hBounds.1 hBounds.2.1 hBounds.2.2.1 hBounds.2.2.2).mpr (h hSome p hFind)

/-- The one letter that is two in lower case: an `i` and a dot above it. -/
def dotted : Casing where
  alpha := fun c => c = 'İ'
  alnum := fun c => c = 'İ'
  digit := fun _ => false
  lower := fun c => if c = 'İ' then ['i', Char.ofNat 0x307] else [c]

/-- Quoting `i` of that letter cites all of it, which reads otherwise. -/
theorem place_splits_letter : ¬ Placed dotted ['İ'] ['i'] := by
  intro h
  have hSame := (h.cites 0 1 (by decide +kernel)).same
  exact absurd hSame (by decide +kernel)

end Brnrd.Dispositions
