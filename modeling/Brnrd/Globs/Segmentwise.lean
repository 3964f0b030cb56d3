import Brnrd.Lists.Joined
import Mathlib.Data.List.Count

/-! A text that a list of items spells: parts one after the other, each of them a text
that the item at its place takes. -/
namespace Globs

universe u v

variable {α : Type u} {τ : Type v} (takes : τ → List α → Bool)

def spells : List τ → List α → Bool
  | [], text => text.isEmpty
  | item :: items, text =>
      (List.range (text.length + 1)).any fun n => takes item (text.take n) && spells items (text.drop n)

variable {takes}

@[simp] theorem spells_nil {text : List α} : spells takes [] text ↔ text = [] :=
  List.isEmpty_iff

variable {text : List α} {items : List τ}

theorem spells_cons {item : τ} :
    spells takes (item :: items) text ↔ ∃ a b, text = a ++ b ∧ takes item a ∧ spells takes items b := by
  rw [spells, List.any_eq_true]
  constructor
  · rintro ⟨n, -, hBoth⟩
    obtain ⟨hItem, hRest⟩ := Bool.and_eq_true_iff.mp hBoth
    exact ⟨text.take n, text.drop n, (List.take_append_drop n text).symm, hItem, hRest⟩
  · rintro ⟨a, b, rfl, hItem, hRest⟩
    refine ⟨a.length, List.mem_range.mpr ?_, ?_⟩
    · rw [List.length_append]
      omega
    · rw [List.take_left, List.drop_left, hItem, hRest]
      rfl

theorem spells_append {more : List τ} :
    spells takes (items ++ more) text ↔ ∃ a b, text = a ++ b ∧ spells takes items a ∧ spells takes more b := by
  induction items generalizing text with
  | nil =>
      constructor
      · exact fun h => ⟨[], text, rfl, spells_nil.mpr rfl, h⟩
      · rintro ⟨a, b, rfl, ha, hb⟩
        rw [spells_nil.mp ha]
        exact hb
  | cons item items ih =>
      rw [List.cons_append, spells_cons]
      constructor
      · rintro ⟨a, rest, rfl, ha, hRest⟩
        obtain ⟨b, c, rfl, hb, hc⟩ := ih.mp hRest
        exact ⟨a ++ b, c, (List.append_assoc a b c).symm, spells_cons.mpr ⟨a, b, rfl, ha, hb⟩, hc⟩
      · rintro ⟨ab, c, rfl, hab, hc⟩
        obtain ⟨a, b, rfl, ha, hb⟩ := spells_cons.mp hab
        exact ⟨a, b ++ c, List.append_assoc a b c, ha, ih.mpr ⟨b, c, rfl, hb, hc⟩⟩

/-- Items that take the same parts of a text spell it alike. -/
theorem spells_map {σ : Type*} {takes' : σ → List α → Bool} {f : σ → τ} {items : List σ}
    (h : ∀ item ∈ items, ∀ part, part <:+: text → takes (f item) part = takes' item part) :
    spells takes (items.map f) text ↔ spells takes' items text := by
  induction items generalizing text with
  | nil => rfl
  | cons item items ih =>
      rw [List.map_cons, spells_cons, spells_cons]
      refine exists_congr fun a => exists_congr fun b => and_congr_right fun hText => ?_
      have hFirst := h item List.mem_cons_self a ⟨[], b, by rw [hText]; rfl⟩
      have hRest := @ih b fun other hOther part hPart =>
        h other (List.mem_cons_of_mem _ hOther) part (hPart.trans ⟨a, [], by rw [hText, List.append_nil]⟩)
      rw [hFirst, hRest]

/-- What each item takes, one after the other, is spelled. -/
theorem spells_flatMap {fill : τ → List α} (h : ∀ item ∈ items, takes item (fill item)) :
    spells takes items (items.flatMap fill) := by
  induction items with
  | nil => exact spells_nil.mpr rfl
  | cons item items ih =>
      exact spells_cons.mpr ⟨_, _, List.flatMap_cons, h item List.mem_cons_self,
        ih fun other hOther => h other (List.mem_cons_of_mem _ hOther)⟩

/-- Each item takes some part of what is spelled. -/
theorem spells_mem (h : spells takes items text) {item : τ} (hItem : item ∈ items) :
    ∃ part, part <:+: text ∧ takes item part := by
  induction items generalizing text with
  | nil => cases hItem
  | cons first items ih =>
      obtain ⟨a, b, rfl, ha, hb⟩ := spells_cons.mp h
      rcases List.mem_cons.mp hItem with rfl | hItem
      · exact ⟨a, ⟨[], b, rfl⟩, ha⟩
      · obtain ⟨part, hPart, hTakes⟩ := ih hb hItem
        exact ⟨part, hPart.trans ⟨a, [], List.append_nil _⟩, hTakes⟩

/-- What grows by one at most where two parts meet, and is none in what an item takes, is
bounded by the number of the items. -/
theorem le_length_of_spells {measure : List α → ℕ} (hNil : measure [] = 0)
    (hAppend : ∀ a b, measure (a ++ b) ≤ measure a + measure b + 1)
    (hTakes : ∀ item ∈ items, ∀ part, takes item part → measure part = 0) (h : spells takes items text) :
    measure text ≤ items.length := by
  induction items generalizing text with
  | nil =>
      rw [spells_nil.mp h, hNil]
      exact Nat.zero_le _
  | cons item items ih =>
      obtain ⟨a, b, rfl, ha, hb⟩ := spells_cons.mp h
      have hFirst := hTakes item List.mem_cons_self a ha
      have hRest := ih (fun other hOther => hTakes other (List.mem_cons_of_mem _ hOther)) hb
      have hMeet := hAppend a b
      rw [List.length_cons]
      omega

end Globs

/-! Patterns of paths. A pattern and a path are both cut at their slashes, and the
segments of the one read the segments of the other from the first on. -/
namespace Globs

universe u

/-- A sign of a pattern: any text at all, any text of one segment, any one letter of a
segment, or a letter as it is. -/
inductive Sign (α : Type u)
  | cross
  | run
  | one
  | exact (c : α)
  deriving DecidableEq

variable {α : Type u} [DecidableEq α] (slash : α)

def Sign.reads : Sign α → List α → Bool
  | .cross, _ => true
  | .run, text => slash ∉ text
  | .one, text => text.length = 1 ∧ slash ∉ text
  | .exact c, text => text = [c]

/-- The segments of a pattern read those of a path. One that is nothing but a crossing
stands for any number of segments, for at least one where it ends the pattern; any other
reads some first segments as one text, the slashes between them included. -/
def segmentwise : List (List (Sign α)) → List (List α) → Bool
  | [], segments => segments.isEmpty
  | signs :: rest, segments =>
      if signs = [.cross] then
        if rest.isEmpty then !segments.isEmpty
        else (List.range (segments.length + 1)).any fun k => segmentwise rest (segments.drop k)
      else
        (List.range segments.length).any fun k =>
          spells (Sign.reads slash) signs ([slash].intercalate (segments.take (k + 1))) &&
            segmentwise rest (segments.drop (k + 1))

/-- The same on a path that is not cut: what a pattern's first segment reads ends at a
slash of the path, and a crossing may also be left out. -/
def Reads : List (List (Sign α)) → List α → Prop
  | [], _ => False
  | [signs], text => spells (Sign.reads slash) signs text
  | signs :: next :: rest, text =>
      (signs = [.cross] ∧ Reads (next :: rest) text) ∨
        ∃ a b, text = a ++ slash :: b ∧ spells (Sign.reads slash) signs a ∧ Reads (next :: rest) b

variable {slash}

theorem spells_crossing (text : List α) : spells (Sign.reads slash) [.cross] text :=
  spells_cons.mpr ⟨text, [], (List.append_nil text).symm, rfl, spells_nil.mpr rfl⟩


variable (slash) in
/-- To cut a path's segments in two is to cut the path at one of its slashes. -/
theorem cut_iff (text : List α) (holds : List α → List (List α) → Prop) :
    (∃ k, k + 1 < (text.splitOn slash).length ∧
      holds ([slash].intercalate ((text.splitOn slash).take (k + 1))) ((text.splitOn slash).drop (k + 1))) ↔
    ∃ a b, text = a ++ slash :: b ∧ holds a (b.splitOn slash) := by
  constructor
  · rintro ⟨k, hk, h⟩
    have hFront : (text.splitOn slash).take (k + 1) ≠ [] := List.ne_nil_of_length_pos (by rw [List.length_take]; omega)
    have hBack : (text.splitOn slash).drop (k + 1) ≠ [] := List.ne_nil_of_length_pos (by rw [List.length_drop]; omega)
    refine ⟨[slash].intercalate ((text.splitOn slash).take (k + 1)),
      [slash].intercalate ((text.splitOn slash).drop (k + 1)), ?_, ?_⟩
    · rw [List.append_cons, ← Joined.intercalate_append hFront hBack, List.take_append_drop, List.intercalate_splitOn]
    · rwa [List.splitOn_intercalate slash (fun part hPart => (Joined.mem_splitOn part (List.mem_of_mem_drop hPart)).1) hBack]
  · rintro ⟨a, b, rfl, h⟩
    have hLeft := List.length_pos_iff.mpr (List.splitOn_ne_nil slash a)
    have hRight := List.length_pos_iff.mpr (List.splitOn_ne_nil slash b)
    rw [List.splitOn_append_cons_self]
    refine ⟨(a.splitOn slash).length - 1, ?_, ?_⟩
    · rw [List.length_append]
      omega
    · rw [Nat.sub_add_cancel hLeft, List.take_left, List.drop_left, List.intercalate_splitOn]
      exact h

variable {pattern : List (List (Sign α))}

theorem segmentwise_nil (h : pattern ≠ []) : segmentwise slash pattern [] = false := by
  induction pattern with
  | nil => exact absurd rfl h
  | cons signs rest ih =>
      rw [segmentwise]
      split_ifs with hCross hLast
      · rfl
      · simpa using ih (by simpa using hLast)
      · rfl

variable {text : List α}

/-- Cut into segments or not, a pattern reads the same paths. -/
theorem segmentwise_iff (h : pattern ≠ []) : segmentwise slash pattern (text.splitOn slash) ↔ Reads slash pattern text := by
  induction pattern generalizing text with
  | nil => exact absurd rfl h
  | cons signs rest ih =>
      have hSome := List.length_pos_iff.mpr (List.splitOn_ne_nil slash text)
      cases rest with
      | nil =>
          rw [Reads, segmentwise]
          by_cases hCross : signs = [.cross]
          · simp [hCross, spells_crossing]
          · rw [if_neg hCross, List.any_eq_true]
            constructor
            · rintro ⟨k, hk, hBoth⟩
              obtain ⟨hReads, hRest⟩ := Bool.and_eq_true_iff.mp hBoth
              rw [segmentwise, List.isEmpty_iff, List.drop_eq_nil_iff] at hRest
              rwa [List.take_of_length_le hRest, List.intercalate_splitOn] at hReads
            · intro hReads
              refine ⟨(text.splitOn slash).length - 1, List.mem_range.mpr (by omega), ?_⟩
              rw [Nat.sub_add_cancel hSome, List.take_length, List.drop_length, List.intercalate_splitOn, hReads]
              rfl
      | cons next rest =>
          have hNext : next :: rest ≠ [] := List.cons_ne_nil next rest
          have hNone : segmentwise slash (next :: rest) [] = false := segmentwise_nil hNext
          rw [Reads, segmentwise]
          by_cases hCross : signs = [.cross]
          · -- a crossing takes no segment, or all of them up to a slash
            rw [if_pos hCross, List.isEmpty_cons, if_neg (by simp), List.any_eq_true]
            have hCut := cut_iff slash text fun _ rest' => segmentwise slash (next :: rest) rest'
            constructor
            · rintro ⟨k, hk, hRest⟩
              cases k with
              | zero => exact .inl ⟨hCross, (ih hNext).mp (by simpa using hRest)⟩
              | succ k =>
                  have hInside : k + 1 < (text.splitOn slash).length := by
                    by_contra hPast
                    rw [List.drop_of_length_le (Nat.le_of_not_lt hPast), hNone] at hRest
                    cases hRest
                  obtain ⟨a, b, hText, hb⟩ := hCut.mp ⟨k, hInside, hRest⟩
                  exact .inr ⟨a, b, hText, hCross ▸ spells_crossing a, (ih hNext).mp hb⟩
            · rintro (⟨-, hRest⟩ | ⟨a, b, hText, -, hb⟩)
              · exact ⟨0, by simp, (ih hNext).mpr hRest⟩
              · obtain ⟨k, hk, hRest⟩ := hCut.mpr ⟨a, b, hText, (ih hNext).mpr hb⟩
                exact ⟨k + 1, List.mem_range.mpr (by omega), hRest⟩
          · rw [if_neg hCross, List.any_eq_true]
            have hCut := cut_iff slash text fun first rest' =>
              spells (Sign.reads slash) signs first ∧ segmentwise slash (next :: rest) rest'
            constructor
            · rintro ⟨k, hk, hBoth⟩
              obtain ⟨hReads, hRest⟩ := Bool.and_eq_true_iff.mp hBoth
              have hInside : k + 1 < (text.splitOn slash).length := by
                by_contra hPast
                rw [List.drop_of_length_le (Nat.le_of_not_lt hPast), hNone] at hRest
                cases hRest
              obtain ⟨a, b, hText, ha, hb⟩ := hCut.mp ⟨k, hInside, hReads, hRest⟩
              exact .inr ⟨a, b, hText, ha, (ih hNext).mp hb⟩
            · rintro (⟨hSame, -⟩ | ⟨a, b, hText, ha, hb⟩)
              · exact absurd hSame hCross
              · obtain ⟨k, hk, hReads, hRest⟩ := hCut.mpr ⟨a, b, hText, ha, (ih hNext).mpr hb⟩
                exact ⟨k, List.mem_range.mpr (by omega), Bool.and_eq_true_iff.mpr ⟨hReads, hRest⟩⟩

/-- A pattern reads what its signs read, joined with slashes. -/
theorem reads_filled {fill : Sign α → List α} (hFill : ∀ sign : Sign α, sign.reads slash (fill sign)) (h : pattern ≠ []) :
    Reads slash pattern ([slash].intercalate (pattern.map (·.flatMap fill))) := by
  induction pattern with
  | nil => exact absurd rfl h
  | cons signs rest ih =>
      have hSigns : spells (Sign.reads slash) signs (signs.flatMap fill) := spells_flatMap fun sign _ => hFill sign
      cases rest with
      | nil =>
          rw [List.map_singleton, List.intercalate_singleton, Reads]
          exact hSigns
      | cons next rest =>
          refine .inr ⟨_, _, ?_, hSigns, ih (List.cons_ne_nil next rest)⟩
          simp [List.intercalate_cons_cons]

/-- A slash of the path ends whatever is read of a segment that is not a crossing alone
and not the last. -/
theorem count_of_reads (h : Reads slash pattern text) : pattern.dropLast.countP (· ≠ [.cross]) ≤ text.count slash := by
  induction pattern generalizing text with
  | nil => exact h.elim
  | cons signs rest ih =>
      cases rest with
      | nil => exact Nat.zero_le _
      | cons next rest =>
          rw [List.dropLast_cons_of_ne_nil (List.cons_ne_nil next rest), List.countP_cons]
          rcases h with ⟨rfl, hRest⟩ | ⟨a, b, rfl, -, hb⟩
          · simpa using ih hRest
          · have hb := ih hb
            rw [List.count_append, List.count_cons_self]
            split <;> omega

/-- A letter of a pattern is a letter of every path that it reads. -/
theorem mem_of_reads (h : Reads slash pattern text) {signs : List (Sign α)} (hSigns : signs ∈ pattern) {c : α}
    (hc : Sign.exact c ∈ signs) : c ∈ text := by
  have hSpelled : ∀ {text : List α}, spells (Sign.reads slash) signs text → c ∈ text := by
    intro text hText
    obtain ⟨part, hPart, hTakes⟩ := spells_mem hText hc
    have hSame : part = [c] := by simpa [Sign.reads] using hTakes
    exact hPart.subset (hSame ▸ List.mem_singleton_self c)
  induction pattern generalizing text with
  | nil => cases hSigns
  | cons first rest ih =>
      cases rest with
      | nil =>
          obtain rfl := List.mem_singleton.mp hSigns
          exact hSpelled h
      | cons next rest =>
          rcases List.mem_cons.mp hSigns with rfl | hSigns
          · rcases h with ⟨rfl, -⟩ | ⟨a, b, rfl, ha, -⟩
            · cases List.mem_singleton.mp hc
            · exact List.mem_append_left _ (hSpelled ha)
          · rcases h with ⟨-, hRest⟩ | ⟨a, b, rfl, -, hb⟩
            · exact ih hRest hSigns
            · exact List.mem_append_right _ (List.mem_cons_of_mem _ (ih hb hSigns))

end Globs
