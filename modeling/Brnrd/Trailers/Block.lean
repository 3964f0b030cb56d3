import Brnrd.Lists.Joined
import Mathlib.Algebra.GroupWithZero.Nat
import Mathlib.Data.List.DropRight

/-! The trailers of a commit message by git's documented rules: which lines are the trailer
block, what is read of it, and what replacing a trailer makes of it. What git takes for a
trailer's line, for one of its own and for the same key is left open. -/
namespace Trailers

abbrev Line := List Char

def space (c : Char) : Bool :=
  c = ' ' || c = '\t' || c = '\n' || c = '\r'

def blank (line : Line) : Bool :=
  line.all space

/-- A line that continues the one before. -/
def continues (line : Line) : Bool :=
  line.head?.any space && !blank line

/-- The line that ends a message in front of a patch. -/
def divider (line : Line) : Bool :=
  ['-', '-', '-'].isPrefixOf line && (line.drop 3).head?.all space

def trim (text : Line) : Line :=
  (text.dropWhile space).rdropWhile space

/-- A key that git takes: letters and hyphens, with a letter in front. -/
structure Key (key : Line) : Prop where
  head : ∃ c rest, key = c :: rest ∧ c.isAlpha = true
  all : ∀ c ∈ key, c.isAlpha = true ∨ c = '-'

/-- One line, without blanks at its ends. -/
structure Plain (value : Line) : Prop where
  line : '\n' ∉ value
  trimmed : trim value = value

/-- The line of a trailer. -/
def line (entry : Line × Line) : Line :=
  entry.1 ++ ':' :: ' ' :: entry.2

/-- What git makes of single lines: `field` is the key and the value of a line that begins a
trailer, `known` are the lines it writes itself or is configured to know, and `same` the keys
that it takes for one. -/
structure Git where
  field : Line → Option (Line × Line)
  known : Line → Bool
  same : Line → Line → Bool
  field_space : ∀ text, text.head?.any space = true → field text = none
  known_space : ∀ text, text.head?.any space = true → known text = false
  field_line : ∀ entry, Key entry.1 → Plain entry.2 → field (line entry) = some entry
  field_colon : ∀ text entry, field text = some entry → ':' ∉ entry.1
  field_subset : ∀ text entry, field text = some entry → entry.1 ⊆ text ∧ entry.2 ⊆ text

/-- Each line with the lines that continue it. -/
def groups : List Line → List (List Line)
  | [] => []
  | first :: rest =>
      match groups rest with
      | [] => [[first]]
      | group :: more => if group.head?.any continues then (first :: group) :: more else [first] :: group :: more

variable (git : Git)

def Git.trailer (group : List Line) : Bool :=
  group.head?.any fun first => (git.field first).isSome || git.known first

/-- Whether a paragraph is a trailer block: all of it are trailers, or a quarter of it, where
git knows one. -/
def Git.accepts (block : List (List Line)) : Bool :=
  let trailers := (block.filter git.trailer).length
  let others := ((block.filter (!git.trailer ·)).map List.length).sum
  (block.any (·.head?.any git.known) && decide (others ≤ 3 * trailers)) || (decide (0 < trailers) && decide (others = 0))

/-- The message in front of its divider, and what follows. -/
def cut (message : List Line) : List Line × List Line :=
  (message.takeWhile (!divider ·), message.dropWhile (!divider ·))

/-- The last paragraph, what stands in front of it, and the blank lines behind it. -/
def lastParagraph (text : List Line) : List Line × List Line × List Line :=
  let ended := text.rdropWhile blank
  (ended.rdropWhile (!blank ·), ended.rtakeWhile (!blank ·), text.rtakeWhile blank)

/-- The trailer block, with what stands in front of it and behind it. The first paragraph
is none. -/
def Git.block (message : List Line) : Option (List Line × List (List Line) × List Line) :=
  let (text, patch) := cut message
  let (before, paragraph, blanks) := lastParagraph text
  if before ≠ [] ∧ git.accepts (groups paragraph) then some (before, groups paragraph, blanks ++ patch) else none

/-- The key and the value of a trailer, on one line. -/
def Git.entry : List Line → Option (Line × Line)
  | [] => none
  | first :: more => (git.field first).map fun entry => (entry.1, trim ([' '].intercalate (entry.2 :: more.map trim)))

/-- `git interpret-trailers --parse`. -/
def Git.parse (message : List Line) : List (Line × Line) :=
  match git.block message with
  | none => []
  | some (_, block, _) => block.filterMap git.entry

/-- The last element that meets a condition is taken out. -/
def eraseLast {α : Type} (p : α → Bool) (items : List α) : List α :=
  (items.reverse.eraseP p).reverse

/-- `--if-exists replace`: the last trailer with the key goes, and the new one comes last. -/
def Git.replace (block : List (List Line)) (entry : Line × Line) : List (List Line) :=
  eraseLast (fun group => (git.entry group).any fun old => git.same old.1 entry.1) block ++ [[line entry]]

/-- `git interpret-trailers --if-exists replace` with these trailers. -/
def Git.add (message : List Line) (entries : List (Line × Line)) : List Line :=
  match git.block message with
  | some (before, block, behind) => before ++ ((entries.foldl git.replace block).flatten ++ behind)
  | none =>
      let (text, patch) := cut message
      let gap := if text.getLast?.any blank then [] else [[]]
      text ++ (gap ++ ((entries.foldl git.replace []).flatten ++ patch))

variable {git}

theorem space_of_alpha {c : Char} (h : c.isAlpha = true) : space c = false := by
  have hLarge : 65 ≤ c.toNat := by
    delta Char.isAlpha Char.isUpper Char.isLower at h
    simp only [Bool.or_eq_true, Bool.and_eq_true, decide_eq_true_eq] at h
    rcases h with ⟨h, -⟩ | ⟨h, -⟩
    · exact h
    · exact Nat.le_trans (by decide) h
  have hNot : ∀ d : Char, d.toNat < 65 → c ≠ d := by
    rintro d hSmall rfl
    omega
  simp only [space, Bool.or_eq_false_iff, decide_eq_false_iff_not]
  exact ⟨⟨⟨hNot ' ' (by decide), hNot '\t' (by decide)⟩, hNot '\n' (by decide)⟩, hNot '\r' (by decide)⟩

variable {entry : Line × Line}

theorem Key.line_head (h : Key entry.1) : ∃ c rest, line entry = c :: rest ∧ c.isAlpha = true := by
  obtain ⟨c, rest, hKey, hAlpha⟩ := h.head
  exact ⟨c, rest ++ ':' :: ' ' :: entry.2, by rw [line, hKey, List.cons_append], hAlpha⟩

/-- The line of a trailer is not blank, continues no other and ends no message. -/
theorem Key.line_solid (h : Key entry.1) :
    blank (line entry) = false ∧ continues (line entry) = false ∧ divider (line entry) = false := by
  obtain ⟨c, rest, hLine, hAlpha⟩ := h.line_head
  have hSpace := space_of_alpha hAlpha
  have hHyphen : '-' ≠ c := by
    rintro rfl
    exact absurd hAlpha (by decide)
  rw [hLine]
  refine ⟨by simp [blank, hSpace], by simp [continues, hSpace], ?_⟩
  simp [divider, List.isPrefixOf, hHyphen]

/-- Each group is a line and lines that continue it, and only the first may begin with one
that would continue another. -/
structure Proper (block : List (List Line)) : Prop where
  cells : ∀ group ∈ block, ∃ first more, group = first :: more ∧ blank first = false ∧ ∀ text ∈ more, continues text = true
  heads : ∀ group ∈ block.tail, group.head?.any continues = false

theorem Proper.sublist {block less : List (List Line)} (h : Proper block) (hLess : less.Sublist block) : Proper less where
  cells := fun group hGroup => h.cells group (hLess.subset hGroup)
  heads := fun group hGroup => h.heads group (hLess.tail.subset hGroup)

theorem groups_cell {rest : List Line} (hRest : ∀ group ∈ (groups rest).head?, group.head?.any continues = false)
    (first : Line) {more : List Line} (hMore : ∀ text ∈ more, continues text = true) :
    groups (first :: (more ++ rest)) = (first :: more) :: groups rest := by
  induction more generalizing first with
  | nil =>
      rw [List.nil_append, groups]
      cases hGroups : groups rest with
      | nil => rfl
      | cons group others =>
          have hHead := hRest group (by rw [hGroups]; rfl)
          simp only [hHead, Bool.false_eq_true, if_false]
  | cons second more ih =>
      have hSecond := ih second fun text hText => hMore text (List.mem_cons_of_mem _ hText)
      rw [groups, List.cons_append, hSecond]
      simp [hMore second (by simp)]

/-- A block is read as it was written. -/
theorem groups_flatten {block : List (List Line)} (h : Proper block) : groups block.flatten = block := by
  induction block with
  | nil => rfl
  | cons group block ih =>
      have hRest := ih (h.sublist (List.sublist_cons_self group block))
      obtain ⟨first, more, rfl, -, hMore⟩ := h.cells group (by simp)
      have hHead : ∀ next ∈ (groups block.flatten).head?, next.head?.any continues = false := by
        intro next hNext
        rw [hRest] at hNext
        exact h.heads next (List.mem_of_mem_head? hNext)
      rw [List.flatten_cons, List.cons_append, groups_cell hHead first hMore, hRest]

/-- Lines that are not blank fall into proper groups. -/
theorem groups_proper {lines : List Line} (h : ∀ text ∈ lines, blank text = false) :
    Proper (groups lines) ∧ (groups lines).flatten = lines := by
  induction lines with
  | nil => exact ⟨⟨nofun, nofun⟩, rfl⟩
  | cons first lines ih =>
      obtain ⟨hProper, hFlatten⟩ := ih fun text hText => h text (List.mem_cons_of_mem _ hText)
      have hFirst : ∃ start more, [first] = start :: more ∧ blank start = false ∧ ∀ text ∈ more, continues text = true :=
        ⟨first, [], rfl, h first (by simp), nofun⟩
      rw [groups]
      cases hGroups : groups lines with
      | nil =>
          rw [hGroups] at hFlatten
          refine ⟨⟨fun group hGroup => ?_, nofun⟩, by simp [← hFlatten]⟩
          obtain rfl := List.mem_singleton.mp hGroup
          exact hFirst
      | cons group block =>
          rw [hGroups] at hProper hFlatten
          dsimp only
          split
          · rename_i hContinues
            obtain ⟨second, more, rfl, -, hMore⟩ := hProper.cells group (by simp)
            refine ⟨⟨fun other hOther => ?_, hProper.heads⟩, by rw [← hFlatten]; rfl⟩
            rcases List.mem_cons.mp hOther with rfl | hOther
            · refine ⟨first, second :: more, rfl, h first (by simp), fun text hText => ?_⟩
              rcases List.mem_cons.mp hText with rfl | hText
              · simpa using hContinues
              · exact hMore text hText
            · exact hProper.cells other (List.mem_cons_of_mem _ hOther)
          · rename_i hStarts
            refine ⟨⟨fun other hOther => ?_, fun other hOther => ?_⟩, by rw [← hFlatten]; rfl⟩
            · rcases List.mem_cons.mp hOther with rfl | hOther
              · exact hFirst
              · exact hProper.cells other hOther
            · rcases List.mem_cons.mp hOther with rfl | hOther
              · simpa using hStarts
              · exact hProper.heads other hOther

theorem Proper.solid {block : List (List Line)} (h : Proper block) : ∀ text ∈ block.flatten, blank text = false := by
  intro text hText
  obtain ⟨group, hGroup, hMem⟩ := List.mem_flatten.mp hText
  obtain ⟨first, more, rfl, hFirst, hMore⟩ := h.cells group hGroup
  rcases List.mem_cons.mp hMem with rfl | hMem
  · exact hFirst
  · have hContinues := hMore text hMem
    rw [continues, Bool.and_eq_true] at hContinues
    simpa using hContinues.2

theorem Proper.concat {block : List (List Line)} (h : Proper block) {first : Line} (hSolid : blank first = false)
    (hStarts : continues first = false) : Proper (block ++ [[first]]) where
  cells := by
    intro group hGroup
    rcases List.mem_append.mp hGroup with hOld | hNew
    · exact h.cells group hOld
    · obtain rfl := List.mem_singleton.mp hNew
      exact ⟨first, [], rfl, hSolid, nofun⟩
  heads := by
    intro group hGroup
    cases block with
    | nil => cases hGroup
    | cons other block =>
        rcases List.mem_append.mp hGroup with hOld | hNew
        · exact h.heads group hOld
        · obtain rfl := List.mem_singleton.mp hNew
          simpa using hStarts

theorem cut_append {text patch : List Line} (hText : ∀ part ∈ text, divider part = false)
    (hPatch : ∀ part ∈ patch.head?, divider part = true) : cut (text ++ patch) = (text, patch) := by
  have hAll : ∀ part ∈ text, (!divider part) = true := fun part hPart => by rw [hText part hPart]; rfl
  rw [cut, List.takeWhile_append_of_pos hAll, List.dropWhile_append_of_pos hAll]
  cases patch with
  | nil => simp
  | cons first patch => simp [hPatch first rfl]

theorem cut_spec (message : List Line) : message = (cut message).1 ++ (cut message).2 ∧
    (∀ part ∈ (cut message).1, divider part = false) ∧ ∀ part ∈ (cut message).2.head?, divider part = true := by
  refine ⟨(List.takeWhile_append_dropWhile ..).symm, fun part hPart => ?_, fun part hPart => ?_⟩
  · have hTake := List.mem_takeWhile_imp hPart
    simpa using hTake
  · have hDrop := List.head?_dropWhile_not (!divider ·) message
    have hHead : (message.dropWhile (!divider ·)).head? = some part := hPart
    rw [hHead] at hDrop
    simpa using hDrop

variable {blanks message : List Line}

/-- A paragraph behind a blank line, with blank lines behind it, is the last one. -/
theorem lastParagraph_append {before paragraph : List Line} (hBefore : before.getLast?.any blank = true)
    (hSome : paragraph ≠ []) (hSolid : ∀ text ∈ paragraph, blank text = false)
    (hBlanks : ∀ text ∈ blanks, blank text = true) :
    lastParagraph (before ++ (paragraph ++ blanks)) = (before, paragraph, blanks) := by
  have hNot : ∀ text ∈ paragraph.reverse, (!blank text) = true := fun text hText => by
    rw [hSolid text (List.mem_reverse.mp hText)]
    rfl
  have hAll : ∀ text ∈ blanks.reverse, blank text = true := fun text hText => hBlanks text (List.mem_reverse.mp hText)
  obtain ⟨last, rest, hReverse⟩ := List.exists_cons_of_ne_nil (l := paragraph.reverse) (by simpa using hSome)
  have hLast : blank last = false := hSolid last (by simpa using (hReverse ▸ List.mem_cons_self .. : last ∈ paragraph.reverse))
  have hEnded : (before ++ (paragraph ++ blanks)).rdropWhile blank = before ++ paragraph := by
    rw [List.rdropWhile, List.reverse_append, List.reverse_append, List.append_assoc, List.dropWhile_append_of_pos hAll,
      hReverse, List.cons_append, List.dropWhile_cons_of_neg (by simp [hLast]), ← List.cons_append, ← hReverse,
      ← List.reverse_append, List.reverse_reverse]
  have hTail : (before ++ (paragraph ++ blanks)).rtakeWhile blank = blanks := by
    rw [List.rtakeWhile, List.reverse_append, List.reverse_append, List.append_assoc, List.takeWhile_append_of_pos hAll,
      hReverse, List.cons_append, List.takeWhile_cons_of_neg (by simp [hLast]), List.append_nil, List.reverse_reverse]
  have hStop : ∀ more : List Line, (before.reverse ++ more).takeWhile (!blank ·) = [] ∧
      before.reverse.dropWhile (!blank ·) = before.reverse := by
    intro more
    rw [← List.head?_reverse] at hBefore
    cases hHead : before.reverse with
    | nil =>
        rw [hHead] at hBefore
        cases hBefore
    | cons text others =>
        rw [hHead] at hBefore
        have hBlank : blank text = true := by simpa using hBefore
        simp [hBlank]
  obtain ⟨hTake, hDrop⟩ := hStop []
  rw [List.append_nil] at hTake
  rw [lastParagraph, hEnded, hTail, List.rdropWhile, List.rtakeWhile, List.reverse_append,
    List.dropWhile_append_of_pos hNot, List.takeWhile_append_of_pos hNot, hTake, hDrop, List.append_nil,
    List.reverse_reverse, List.reverse_reverse]

theorem lastParagraph_spec (text : List Line) :
    text = (lastParagraph text).1 ++ ((lastParagraph text).2.1 ++ (lastParagraph text).2.2) ∧
      (∀ part ∈ (lastParagraph text).2.1, blank part = false) ∧ (∀ part ∈ (lastParagraph text).2.2, blank part = true) ∧
      ((lastParagraph text).1 ≠ [] → (lastParagraph text).1.getLast?.any blank = true) := by
  refine ⟨?_, fun part hPart => ?_, fun part hPart => ?_, fun hSome => ?_⟩
  · simp only [lastParagraph]
    rw [← List.append_assoc, List.rdropWhile_append_rtakeWhile, List.rdropWhile_append_rtakeWhile]
  · have hTake := List.mem_rtakeWhile_imp hPart
    simpa using hTake
  · exact List.mem_rtakeWhile_imp hPart
  · have hLast : (!blank ((lastParagraph text).1.getLast hSome)) ≠ true :=
      List.rdropWhile_last_not (!blank ·) (text.rdropWhile blank) hSome
    rw [List.getLast?_eq_some_getLast hSome]
    simpa using hLast

theorem eraseLast_sublist {α : Type} (p : α → Bool) (items : List α) : (eraseLast p items).Sublist items := by
  have hReverse := (List.eraseP_sublist (p := p) (l := items.reverse)).reverse
  rwa [List.reverse_reverse] at hReverse

/-- Nothing is taken out, or one element that meets the condition. -/
theorem eraseLast_cases {α : Type} (p : α → Bool) (items : List α) :
    eraseLast p items = items ∨ ∃ front item back, p item = true ∧ items = front ++ item :: back ∧
      eraseLast p items = front ++ back := by
  rcases List.exists_or_eq_self_of_eraseP p items.reverse with hSame | ⟨item, front, back, -, hMeets, hItems, hErase⟩
  · exact .inl (by rw [eraseLast, hSame, List.reverse_reverse])
  · refine .inr ⟨back.reverse, item, front.reverse, hMeets, ?_, by rw [eraseLast, hErase, List.reverse_append]⟩
    rw [← List.reverse_reverse items, hItems]
    simp

theorem eraseLast_filterMap {α β : Type} (f : α → Option β) (q : β → Bool) (items : List α) :
    (eraseLast (fun item => (f item).any q) items).filterMap f = eraseLast q (items.filterMap f) := by
  have hErase := List.eraseP_filterMap (p := q) (f := f) (l := items.reverse)
  rw [List.filterMap_reverse] at hErase
  rw [eraseLast, eraseLast, hErase, List.filterMap_reverse]
  congr 3

/-- A trailer that git adds: it reads the line as this trailer, and drops no line of its own
for it. -/
structure Git.Added (git : Git) (entry : Line × Line) : Prop where
  key : Key entry.1
  plain : Plain entry.2
  foreign : ∀ text old, git.field text = some old → git.same old.1 entry.1 = true → git.known text = false

theorem Git.Added.entry_line (h : git.Added entry) : Git.entry git [line entry] = some entry := by
  rw [Git.entry, git.field_line entry h.key h.plain, Option.map_some, List.map_nil]
  have hTrim := h.plain.trimmed
  simp [List.intercalate, hTrim]

theorem Git.Added.trailer_line (h : git.Added entry) : git.trailer [line entry] = true := by
  simp [Git.trailer, git.field_line entry h.key h.plain]

/-- What git reads of a block with a trailer replaced. -/
theorem Git.Added.replace_entries (h : git.Added entry) (block : List (List Line)) :
    (git.replace block entry).filterMap git.entry =
      eraseLast (fun old => git.same old.1 entry.1) (block.filterMap git.entry) ++ [entry] := by
  rw [Git.replace, List.filterMap_append, eraseLast_filterMap git.entry fun old => git.same old.1 entry.1]
  simp [h.entry_line]

/-- A trailer block is left one, and so is the first trailer alone. -/
theorem Git.Added.replace_accepts (h : git.Added entry) {block : List (List Line)}
    (hBlock : block = [] ∨ git.accepts block = true) : git.accepts (git.replace block entry) = true := by
  have hNew := h.trailer_line
  rcases hBlock with rfl | hAccepts
  · simp [Git.replace, eraseLast, Git.accepts, hNew]
  rw [Git.replace]
  rcases eraseLast_cases (fun group => (git.entry group).any fun old => git.same old.1 entry.1) block with
    hSame | ⟨front, group, back, hMeets, rfl, hErase⟩
  · rw [hSame]
    simp only [Git.accepts, List.any_append, List.filter_append, List.map_append, List.sum_append, List.length_append,
      Bool.or_eq_true, Bool.and_eq_true, decide_eq_true_eq] at hAccepts ⊢
    simp only [List.filter_singleton, hNew, Bool.not_true, cond_true, cond_false, List.length_singleton, List.map_nil,
      List.sum_nil]
    rcases hAccepts with ⟨hKnown, hShare⟩ | ⟨hSome, hAll⟩
    · exact .inl ⟨.inl hKnown, by omega⟩
    · exact .inr ⟨by omega, by omega⟩
  · rw [hErase]
    obtain ⟨hOld, hForeign⟩ : git.trailer group = true ∧ group.head?.any git.known = false := by
      cases group with
      | nil => cases hMeets
      | cons first more =>
          cases hField : git.field first with
          | none => simp [Git.entry, hField] at hMeets
          | some old =>
              have hKey : git.same old.1 entry.1 = true := by simpa [Git.entry, hField] using hMeets
              exact ⟨by simp [Git.trailer, hField], by simpa using h.foreign first old hField hKey⟩
    simp only [Git.accepts, List.any_append, List.any_cons, List.filter_append, List.filter_cons, List.map_append, List.sum_append,
      List.length_append, hOld, hForeign, Bool.not_true, if_true, Bool.false_or, Bool.false_eq_true, if_false,
      Bool.or_eq_true, Bool.and_eq_true, decide_eq_true_eq, List.length_cons] at hAccepts ⊢
    simp only [List.filter_nil, List.length_nil, hNew, Bool.not_true, if_true, Bool.false_eq_true, if_false, List.map_nil,
      List.sum_nil, List.length_cons]
    rcases hAccepts with ⟨hKnown, hShare⟩ | ⟨hSome, hAll⟩
    · exact .inl ⟨.inl hKnown, by omega⟩
    · exact .inr ⟨by omega, by omega⟩

/-- What stays true of a block while trailers are replaced in it. -/
structure Git.Sound (git : Git) (block : List (List Line)) : Prop where
  proper : Proper block
  inner : ∀ text ∈ block.flatten, divider text = false
  accepted : block = [] ∨ git.accepts block = true

theorem Git.Sound.replace {entry : Line × Line} (h : git.Added entry) {block : List (List Line)} (hBlock : git.Sound block) :
    git.Sound (git.replace block entry) := by
  obtain ⟨hBlank, hContinues, hDivider⟩ := h.key.line_solid
  have hLess := eraseLast_sublist (fun group => (git.entry group).any fun old => git.same old.1 entry.1) block
  refine ⟨(hBlock.proper.sublist hLess).concat hBlank hContinues, fun text hText => ?_, .inr (h.replace_accepts hBlock.accepted)⟩
  rw [Git.replace, List.flatten_append, List.mem_append] at hText
  rcases hText with hOld | hNew
  · obtain ⟨group, hGroup, hMem⟩ := List.mem_flatten.mp hOld
    exact hBlock.inner text (List.mem_flatten.mpr ⟨group, hLess.subset hGroup, hMem⟩)
  · have hLine : text = line entry := by simpa using hNew
    rw [hLine, hDivider]

/-- What git reads behind a block that it writes. -/
theorem Git.Sound.read {before block : List _} (hBlock : git.Sound block) (hAccepts : git.accepts block = true)
    (hBefore : before.getLast?.any blank = true) (hInner : ∀ text ∈ before, divider text = false) {patch : List Line}
    (hBlanks : ∀ text ∈ blanks, blank text = true ∧ divider text = false)
    (hPatch : ∀ text ∈ patch.head?, divider text = true) :
    git.block (before ++ (block.flatten ++ (blanks ++ patch))) = some (before, block, blanks ++ patch) := by
  have hText : ∀ text ∈ before ++ (block.flatten ++ blanks), divider text = false := by
    intro text hText
    simp only [List.mem_append] at hText
    rcases hText with hText | hText | hText
    · exact hInner text hText
    · exact hBlock.inner text hText
    · exact (hBlanks text hText).2
  have hSome : block.flatten ≠ [] := by
    intro hNone
    have hEmpty := groups_flatten hBlock.proper
    rw [hNone] at hEmpty
    rw [← hEmpty] at hAccepts
    cases hAccepts
  have hLast := lastParagraph_append hBefore hSome hBlock.proper.solid fun text hText => (hBlanks text hText).1
  have hSplit : cut (before ++ (block.flatten ++ (blanks ++ patch))) = (before ++ (block.flatten ++ blanks), patch) := by
    rw [← List.append_assoc block.flatten, ← List.append_assoc before]
    exact cut_append hText hPatch
  have hFirst : before ≠ [] := by
    rintro rfl
    cases hBefore
  rw [Git.block, hSplit]
  simp only [hLast, groups_flatten hBlock.proper, hFirst, hAccepts, ne_eq, not_false_eq_true, and_self, if_true]

/-- Where git finds a block, the message is that block with what stands around it. -/
theorem Git.block_spec {before behind : List Line} {block : List (List Line)}
    (h : git.block message = some (before, block, behind)) :
    message = before ++ (block.flatten ++ behind) ∧ git.Sound block ∧ git.accepts block = true ∧ before.getLast?.any blank = true ∧ (∀ text ∈ before, divider text = false) ∧
      ∃ blanks patch, behind = blanks ++ patch ∧ (∀ text ∈ blanks, blank text = true ∧ divider text = false) ∧
        ∀ text ∈ patch.head?, divider text = true := by
  obtain ⟨hMessage, hInner, hPatch⟩ := cut_spec message
  obtain ⟨hText, hSolid, hBlanks, hBefore⟩ := lastParagraph_spec (cut message).1
  simp only [Git.block] at h
  split at h
  · rename_i hAccepts
    simp only [Option.some.injEq, Prod.mk.injEq] at h
    obtain ⟨rfl, rfl, rfl⟩ := h
    obtain ⟨hProper, hFlatten⟩ := groups_proper hSolid
    have hWhole : message = (lastParagraph (cut message).1).1 ++ ((groups (lastParagraph (cut message).1).2.1).flatten ++
        ((lastParagraph (cut message).1).2.2 ++ (cut message).2)) := by
      rw [hFlatten, ← List.append_assoc (lastParagraph (cut message).1).2.1, ← List.append_assoc, ← hText]
      exact hMessage
    rw [hText] at hInner
    simp only [List.mem_append] at hInner
    refine ⟨hWhole, ⟨hProper, fun text hMem => ?_, .inr hAccepts.2⟩, hAccepts.2, hBefore hAccepts.1,
      fun text hMem => hInner text (.inl hMem), _, _, rfl,
      fun text hMem => ⟨hBlanks text hMem, hInner text (.inr (.inr hMem))⟩, hPatch⟩
    rw [hFlatten] at hMem
    exact hInner text (.inr (.inl hMem))
  · cases h

/-- What adding trailers makes of the ones that are there. -/
def Git.merge (git : Git) (items entries : List (Line × Line)) : List (Line × Line) :=
  entries.foldl (fun items new => eraseLast (fun old => git.same old.1 new.1) items ++ [new]) items

theorem Git.Sound.replaceAll {entries : List (Line × Line)} (hEntries : ∀ entry ∈ entries, git.Added entry)
    {block : List (List Line)} (hBlock : git.Sound block) :
    git.Sound (entries.foldl git.replace block) ∧
      (entries.foldl git.replace block).filterMap git.entry = git.merge (block.filterMap git.entry) entries := by
  induction entries generalizing block with
  | nil => exact ⟨hBlock, rfl⟩
  | cons entry entries ih =>
      have hEntry := hEntries entry (by simp)
      obtain ⟨hSound, hRead⟩ := ih (fun other hOther => hEntries other (List.mem_cons_of_mem _ hOther)) (hBlock.replace hEntry)
      refine ⟨hSound, ?_⟩
      rw [List.foldl_cons, hRead, hEntry.replace_entries]
      rfl

theorem Git.replaceAll_ne_nil (git : Git) {entries : List (Line × Line)} {block : List (List Line)}
    (hSome : entries ≠ [] ∨ block ≠ []) : entries.foldl git.replace block ≠ [] := by
  induction entries generalizing block with
  | nil => exact hSome.resolve_left fun hNone => hNone rfl
  | cons entry entries ih => exact ih (.inr (by simp [Git.replace]))

/-- Git reads what it adds: the new trailers, behind those that they do not replace. -/
theorem Git.parse_add {entries : List (Line × Line)} (hEntries : ∀ entry ∈ entries, git.Added entry) (hSome : entries ≠ [])
    (message : List Line) : git.parse (git.add message entries) = git.merge (git.parse message) entries := by
  have hAccepts : ∀ {block}, git.Sound (entries.foldl git.replace block) →
      git.accepts (entries.foldl git.replace block) = true := fun hSound =>
    hSound.accepted.resolve_left (git.replaceAll_ne_nil (.inl hSome))
  cases hBlock : git.block message with
  | some found =>
      obtain ⟨before, block, behind⟩ := found
      obtain ⟨-, hSound, -, hBefore, hInner, blanks, patch, rfl, hBlanks, hPatch⟩ := Git.block_spec hBlock
      obtain ⟨hNew, hRead⟩ := hSound.replaceAll hEntries
      have hAgain := hNew.read (hAccepts hNew) hBefore hInner hBlanks hPatch
      simp only [Git.parse, Git.add, hBlock, hAgain, hRead]
  | none =>
      obtain ⟨-, hInner, hPatch⟩ := cut_spec message
      have hEmpty : git.Sound [] :=
        ⟨⟨nofun, nofun⟩, nofun, .inl rfl⟩
      obtain ⟨hNew, hRead⟩ := hEmpty.replaceAll hEntries
      have hNone : ∀ text ∈ ([] : List Line), blank text = true ∧ divider text = false := nofun
      by_cases hBlank : (cut message).1.getLast?.any blank = true
      · have hAgain := hNew.read (hAccepts hNew) hBlank hInner hNone hPatch
        simp only [List.nil_append] at hAgain
        simp only [Git.parse, Git.add, hBlock, hBlank, if_true, List.nil_append, hAgain, hRead, List.filterMap_nil]
      · have hGap : ∀ text ∈ (cut message).1 ++ [[]], divider text = false := by
          intro text hText
          rcases List.mem_append.mp hText with hText | hText
          · exact hInner text hText
          · obtain rfl := List.mem_singleton.mp hText
            rfl
        have hAgain := hNew.read (hAccepts hNew) (by simp [blank]) hGap hNone hPatch
        simp only [List.nil_append, List.append_assoc] at hAgain
        simp only [Git.parse, Git.add, hBlock, hBlank, Bool.false_eq_true, if_false, hAgain, hRead, List.filterMap_nil]

/-- The trailers that adding some leaves. -/
def Git.spared (git : Git) (items entries : List (Line × Line)) : List (Line × Line) :=
  entries.foldl (fun items new => eraseLast (fun old => git.same old.1 new.1) items) items

theorem eraseLast_append {α : Type} {p : α → Bool} {fixed : List α} (h : ∀ item ∈ fixed, p item = false) (items : List α) :
    eraseLast p (items ++ fixed) = eraseLast p items ++ fixed := by
  have hNone : ∀ item ∈ fixed.reverse, ¬p item = true := fun item hItem => by
    rw [h item (List.mem_reverse.mp hItem)]
    exact Bool.false_ne_true
  rw [eraseLast, eraseLast, List.reverse_append, List.eraseP_append_right _ hNone, List.reverse_append, List.reverse_reverse]

/-- Trailers whose keys git keeps apart are all there in the end. -/
theorem Git.merge_append {items fixed entries : List (Line × Line)}
    (hApart : entries.Pairwise fun a b => git.same a.1 b.1 = false)
    (hFixed : ∀ old ∈ fixed, ∀ new ∈ entries, git.same old.1 new.1 = false) :
    git.merge (items ++ fixed) entries = git.spared items entries ++ (fixed ++ entries) := by
  induction entries generalizing items fixed with
  | nil => simp [Git.merge, Git.spared]
  | cons new entries ih =>
      obtain ⟨hNew, hRest⟩ := List.pairwise_cons.mp hApart
      have hOld := eraseLast_append (p := fun old => git.same old.1 new.1) (fun old hOld => hFixed old hOld new (by simp)) items
      have hNext := @ih (eraseLast (fun old => git.same old.1 new.1) items) (fixed ++ [new]) hRest fun old hMem other hOther => by
        rcases List.mem_append.mp hMem with hMem | hMem
        · exact hFixed old hMem other (List.mem_cons_of_mem _ hOther)
        · obtain rfl := List.mem_singleton.mp hMem
          exact hNew other hOther
      rw [List.append_assoc, List.singleton_append] at hNext
      rw [Git.merge, List.foldl_cons, hOld, List.append_assoc]
      exact hNext

theorem Git.merge_eq {entries : List (Line × Line)} (hApart : entries.Pairwise fun a b => git.same a.1 b.1 = false)
    (items : List (Line × Line)) : git.merge items entries = git.spared items entries ++ entries := by
  have hMerge := @Git.merge_append git items [] entries hApart nofun
  rwa [List.append_nil, List.nil_append] at hMerge

/-- What git reads depends on the last paragraph and on what stands in front of it. -/
theorem Git.parse_congr {a b : List Line} (hBefore : (lastParagraph (cut a).1).1 = (lastParagraph (cut b).1).1)
    (hParagraph : (lastParagraph (cut a).1).2.1 = (lastParagraph (cut b).1).2.1) : git.parse a = git.parse b := by
  simp only [Git.parse, Git.block, hBefore, hParagraph]
  split_ifs <;> rfl

/-- An empty line at the end is nothing to git. -/
theorem Git.parse_append_empty (message : List Line) : git.parse (message ++ [[]]) = git.parse message := by
  obtain ⟨hMessage, hInner, hPatch⟩ := cut_spec message
  by_cases hNone : (cut message).2 = []
  · have hCut : cut (message ++ [[]]) = ((cut message).1 ++ [[]], []) := by
      have hText : ∀ part ∈ (cut message).1 ++ [[]], divider part = false := by
        intro part hPart
        rcases List.mem_append.mp hPart with hPart | hPart
        · exact hInner part hPart
        · obtain rfl := List.mem_singleton.mp hPart
          rfl
      have hAgain := @cut_append _ [] hText nofun
      rw [hNone, List.append_nil] at hMessage
      rw [List.append_nil] at hAgain
      rw [← hMessage] at hAgain ⊢
      exact hAgain
    have hEnded : ((cut message).1 ++ [[]]).rdropWhile blank = (cut message).1.rdropWhile blank :=
      List.rdropWhile_concat_pos _ _ _ rfl
    apply Git.parse_congr
    · simp only [hCut, lastParagraph, hEnded]
    · simp only [hCut, lastParagraph, hEnded]
  · have hCut : cut (message ++ [[]]) = ((cut message).1, (cut message).2 ++ [[]]) := by
      have hAgain := @cut_append _ ((cut message).2 ++ [[]]) hInner fun part hPart => by
        rw [List.head?_append_of_ne_nil _ hNone] at hPart
        exact hPatch part hPart
      rwa [← List.append_assoc, ← hMessage] at hAgain
    apply Git.parse_congr <;> rw [hCut]

theorem trim_eq_self {text : Line} (hHead : ∀ c ∈ text.head?, space c = false) (hLast : ∀ c ∈ text.getLast?, space c = false) :
    trim text = text := by
  have hDrop : text.dropWhile space = text := by
    cases text with
    | nil => rfl
    | cons c text => exact List.dropWhile_cons_of_neg (by rw [hHead c rfl]; exact Bool.false_ne_true)
  rw [trim, hDrop, List.rdropWhile_eq_self_iff]
  intro hSome
  rw [hLast _ (List.getLast?_eq_some_getLast hSome)]
  exact Bool.false_ne_true

theorem trim_ends (text : Line) : (∀ c ∈ (trim text).head?, space c = false) ∧ ∀ c ∈ (trim text).getLast?, space c = false := by
  refine ⟨fun c hHead => ?_, fun c hLast => ?_⟩
  · have hFirst := List.head?_dropWhile_not space text
    have hPrefix : trim text <+: text.dropWhile space := List.rdropWhile_prefix _ _
    obtain ⟨rest, hRest⟩ := hPrefix
    rw [← hRest, List.head?_append, Option.mem_def.mp hHead] at hFirst
    simpa using hFirst
  · have hSome : trim text ≠ [] := List.ne_nil_of_mem (List.mem_of_mem_getLast? hLast)
    have hStop : ¬space ((trim text).getLast hSome) = true := List.rdropWhile_last_not space (text.dropWhile space) hSome
    rw [List.getLast?_eq_some_getLast hSome] at hLast
    obtain rfl := Option.some.inj hLast
    simpa using hStop

theorem trim_trim (text : Line) : trim (trim text) = trim text :=
  trim_eq_self (trim_ends text).1 (trim_ends text).2

theorem trim_subset (text : Line) : trim text ⊆ text :=
  fun _ hc => List.dropWhile_sublist space |>.subset ((List.rdropWhile_prefix _ _).subset hc)

/-- What git reads are pieces of the message on one line each. -/
theorem Git.parse_piece (h : entry ∈ git.parse message) :
    ':' ∉ entry.1 ∧ trim entry.2 = entry.2 ∧ ∀ c ∈ entry.1 ++ entry.2, c = ' ' ∨ ∃ text ∈ message, c ∈ text := by
  rw [Git.parse] at h
  cases hBlock : git.block message with
  | none =>
      rw [hBlock] at h
      cases h
  | some found =>
      obtain ⟨before, block, behind⟩ := found
      rw [hBlock] at h
      obtain ⟨group, hGroup, hEntry⟩ := List.mem_filterMap.mp h
      have hMember : ∀ text ∈ group, text ∈ message := by
        intro text hText
        rw [(Git.block_spec hBlock).1]
        exact List.mem_append_right _ (List.mem_append_left _ (List.mem_flatten_of_mem hGroup hText))
      cases group with
      | nil => cases hEntry
      | cons first more =>
          obtain ⟨old, hField, rfl⟩ := Option.map_eq_some_iff.mp hEntry
          obtain ⟨hKey, hValue⟩ := git.field_subset first old hField
          refine ⟨git.field_colon first old hField, trim_trim _, fun c hc => ?_⟩
          rcases List.mem_append.mp hc with hc | hc
          · exact .inr ⟨first, hMember first (by simp), hKey hc⟩
          · rcases Joined.mem_intercalate (trim_subset _ hc) with hc | ⟨part, hPart, hc⟩
            · exact .inl (List.mem_singleton.mp hc)
            · rcases List.mem_cons.mp hPart with rfl | hPart
              · exact .inr ⟨first, hMember first (by simp), hValue hc⟩
              · obtain ⟨text, hText, rfl⟩ := List.mem_map.mp hPart
                exact .inr ⟨text, hMember text (List.mem_cons_of_mem _ hText), trim_subset _ hc⟩

theorem Git.mem_replaceAll {entries : List (Line × Line)} {block : List (List Line)} {text : Line}
    (h : text ∈ (entries.foldl git.replace block).flatten) : text ∈ block.flatten ∨ ∃ entry ∈ entries, text = line entry := by
  induction entries generalizing block with
  | nil => exact .inl h
  | cons entry entries ih =>
      rcases ih h with hOld | ⟨other, hOther, rfl⟩
      · rw [Git.replace, List.flatten_append, List.mem_append] at hOld
        rcases hOld with hOld | hNew
        · obtain ⟨group, hGroup, hMem⟩ := List.mem_flatten.mp hOld
          exact .inl (List.mem_flatten_of_mem ((eraseLast_sublist _ block).subset hGroup) hMem)
        · exact .inr ⟨entry, by simp, by simpa using hNew⟩
      · exact .inr ⟨other, List.mem_cons_of_mem _ hOther, rfl⟩

/-- The lines of the result are lines of the message, of the new trailers, or empty. -/
theorem Git.mem_add {entries : List (Line × Line)} {text : Line} (h : text ∈ git.add message entries) :
    text ∈ message ∨ text = [] ∨ ∃ entry ∈ entries, text = line entry := by
  rw [Git.add] at h
  cases hBlock : git.block message with
  | some found =>
      obtain ⟨before, block, behind⟩ := found
      rw [hBlock] at h
      rw [(Git.block_spec hBlock).1]
      simp only [List.mem_append] at h ⊢
      rcases h with h | h | h
      · exact .inl (.inl h)
      · exact (Git.mem_replaceAll h).imp (fun hOld => .inr (.inl hOld)) .inr
      · exact .inl (.inr (.inr h))
  | none =>
      rw [hBlock] at h
      have hMessage := (cut_spec message).1
      simp only [List.mem_append] at h
      rcases h with h | h | h | h
      · exact .inl (hMessage ▸ List.mem_append_left _ h)
      · split_ifs at h
        · cases h
        · exact .inr (.inl (List.mem_singleton.mp h))
      · exact (Git.mem_replaceAll h).elim nofun fun hNew => .inr (.inr hNew)
      · exact .inl (hMessage ▸ List.mem_append_right _ h)

/-- A separator is a colon behind letters, digits and hyphens, and blanks. -/
def fieldOf (text : Line) : Option (Line × Line) :=
  let key := text.takeWhile fun c => c.isAlphanum || c = '-'
  let rest := (text.dropWhile fun c => c.isAlphanum || c = '-').dropWhile fun c => c = ' ' || c = '\t'
  if key ≠ [] ∧ rest.head? = some ':' then some (key, trim rest.tail) else none

/-- Git with no trailers configured. -/
def standard : Git where
  field := fieldOf
  known := fun text => ["Signed-off-by: ".toList, "(cherry picked from commit ".toList].any (·.isPrefixOf text)
  same := fun a b => a.map Char.toLower = b.map Char.toLower
  field_space := by
    intro text h
    cases text with
    | nil => rfl
    | cons c rest =>
        have hHead : (c.isAlphanum || decide (c = '-')) = false := by
          have hSpace : space c = true := by simpa using h
          simp only [space, Bool.or_eq_true, decide_eq_true_eq] at hSpace
          rcases hSpace with ((rfl | rfl) | rfl) | rfl <;> decide
        simp [fieldOf, hHead]
  known_space := by
    intro text h
    cases text with
    | nil => rfl
    | cons c rest =>
        have hNot : c ≠ 'S' ∧ c ≠ '(' := by
          constructor
          · rintro rfl
            exact absurd h (by simp [space])
          · rintro rfl
            exact absurd h (by simp [space])
        simp [List.isPrefixOf, hNot.1.symm, hNot.2.symm]
  field_line := by
    intro entry hKey hPlain
    have hAll : ∀ c ∈ entry.1, (c.isAlphanum || decide (c = '-')) = true := by
      intro c hc
      rcases hKey.all c hc with hAlpha | rfl
      · simp [Char.isAlphanum, hAlpha]
      · decide
    have hSome : entry.1 ≠ [] := by
      obtain ⟨c, rest, hCons, -⟩ := hKey.head
      rw [hCons]
      exact List.cons_ne_nil c rest
    have hTrim : trim (' ' :: entry.2) = entry.2 := by
      have hPlain := hPlain.trimmed
      rwa [trim, List.dropWhile_cons_of_pos (by decide)]
    simp only [fieldOf, line, List.takeWhile_append_of_pos hAll, List.dropWhile_append_of_pos hAll]
    simp [hSome, hTrim]
  field_colon := by
    intro text entry h
    simp only [fieldOf] at h
    split_ifs at h with hField
    obtain rfl := Option.some.inj h
    intro hColon
    have hKey := List.mem_takeWhile_imp hColon
    exact absurd hKey (by decide)
  field_subset := by
    intro text entry h
    simp only [fieldOf] at h
    split_ifs at h with hField
    obtain rfl := Option.some.inj h
    refine ⟨(List.takeWhile_prefix _).subset, fun c hc => ?_⟩
    exact (List.dropWhile_sublist _).subset ((List.dropWhile_sublist _).subset (List.tail_subset _ (trim_subset _ hc)))

end Trailers
