import Brnrd.Events.Event

/-! The two rewrites of an event file. A rewrite of lines at the margin gives lines at
the margin, and leaves the lines of every other key as they are. -/
namespace Brnrd.Events

open Python
open Port (partition)

theorem keyChar_ascii {c : Char} (h : keyChar c = true) : c.toNat < 128 := by
  simp only [keyChar, asciiLetter, asciiDigit, Bool.or_eq_true, Bool.and_eq_true, decide_eq_true_eq, Char.le_def,
    UInt32.le_iff_toNat_le] at h
  rcases h with ((⟨-, h⟩ | ⟨-, h⟩) | ⟨-, h⟩) | h
  · exact Nat.lt_of_le_of_lt h (by decide)
  · exact Nat.lt_of_le_of_lt h (by decide)
  · exact Nat.lt_of_le_of_lt h (by decide)
  · subst h
    decide

/-- A character of an identifier is no white space and no mark of the format. -/
theorem keyChar_plain {c : Char} (h : keyChar c = true) :
    isSpace c = false ∧ isLineBreak c = false ∧ c ≠ ':' ∧ c ≠ '#' ∧ c ≠ '-' := by
  have hAll : ∀ n < 128, keyChar (Char.ofNat n) = true →
      isSpace (Char.ofNat n) = false ∧ isLineBreak (Char.ofNat n) = false ∧ Char.ofNat n ≠ ':' ∧
        Char.ofNat n ≠ '#' ∧ Char.ofNat n ≠ '-' := by
    decide +kernel
  have hc := hAll c.toNat (keyChar_ascii h)
  rw [Char.ofNat_toNat] at hc
  exact hc h

/-- What the reader needs of a key. -/
structure Name (key : Text) : Prop where
  nonempty : key ≠ []
  chars : ∀ c ∈ key, isSpace c = false ∧ isLineBreak c = false ∧ c ≠ ':' ∧ c ≠ '#' ∧ c ≠ '-'

variable {key new old sep line rest token : Text}

theorem name_of_identifier (h : isIdentifier key = true) : Name key := by
  rw [isIdentifier, Bool.and_eq_true, List.all_eq_true] at h
  refine ⟨?_, fun c hc => keyChar_plain (h.2 c hc)⟩
  rintro rfl
  cases h.1

theorem strip_solid {text : Text} (h : ∀ c ∈ text, isSpace c = false) : strip text = text :=
  strip_eq_self (fun c hc => h c (List.mem_of_head? hc)) fun c hc => h c (List.mem_of_getLast? hc)

theorem Name.strip (h : Name key) : strip key = key :=
  strip_solid fun c hc => (h.chars c hc).1

theorem Name.cutLine (h : Name key) (value : Text) : cutLine (fieldLine (key, value)) = (key, Python.strip value) := by
  have hAll : ∀ c ∈ key, decide (c ≠ ':') = true := fun c hc => decide_eq_true (h.chars c hc).2.2.1
  have hTake : (key ++ ':' :: ' ' :: value).takeWhile (· ≠ ':') = key := by
    rw [List.takeWhile_append_of_pos hAll]
    simp
  have hDrop : (key ++ ':' :: ' ' :: value).dropWhile (· ≠ ':') = ':' :: ' ' :: value := by
    rw [List.dropWhile_append_of_pos hAll]
    simp
  rw [Events.cutLine, fieldLine, hTake, hDrop, h.strip]
  exact congrArg (key, ·) (strip_cons (by decide))

/-- A field's line stands at the margin. -/
theorem Name.fieldLine_cons (h : Name key) (value : Text) :
    ∃ c rest, fieldLine (key, value) = c :: rest ∧ isSpace c = false ∧ c ≠ '#' ∧ c ≠ '-' ∧
      ':' ∈ fieldLine (key, value) := by
  obtain ⟨c, rest, rfl⟩ := List.exists_cons_of_ne_nil h.nonempty
  obtain ⟨hSolid, -, -, hHash, hDash⟩ := h.chars c (by simp)
  exact ⟨c, rest ++ ':' :: ' ' :: value, rfl, hSolid, hHash, hDash, by simp [fieldLine]⟩

theorem Name.flat (h : Name key) (value : Text) : Flat (fieldLine (key, value)) :=
  .inr (h.fieldLine_cons value)

theorem Name.keyed (h : Name key) (other value : Text) : keyed other (fieldLine (key, value)) = decide (key = other) := by
  obtain ⟨c, rest, hLine, hSolid, -⟩ := h.fieldLine_cons value
  have hSome : lstrip (fieldLine (key, value)) ≠ [] := by
    rw [hLine, lstrip_solid hSolid]
    simp
  simp [Events.keyed, hSome, h.cutLine]

theorem Name.oneLine {value : Text} (h : Name key) (hValue : OneLine value) : OneLine (fieldLine (key, value)) := by
  have hKey : OneLine key := fun c hc => (h.chars c hc).2.1
  have hMarks : OneLine [':', ' '] := by decide
  have hAll := hKey.append (hMarks.append hValue)
  exact hAll

theorem Flat.head (h : Flat line) : line.head? ≠ some '-' := by
  rcases h with hBlank | ⟨c, rest, rfl, -, -, hDash, -⟩
  · intro hHead
    have hSpace := lstrip_blank hBlank '-' (List.mem_of_head? hHead)
    revert hSpace
    decide
  · simpa using hDash

variable {a b lines : List Text}

/-- Lines at the margin that are lines of `splitlines` already. -/
theorem margin_of_flat (hNew : lines ≠ []) (hOne : ∀ line ∈ lines, OneLine line) (hFlat : ∀ line ∈ lines, Flat line) :
    Margin lines ∧ pieces lines = lines := by
  have hPieces : pieces lines = lines := splitlines_joined hNew hOne
  refine ⟨⟨hNew, fun line hLine => (hOne line hLine).newline, fun line hLine hMem => ?_,
    fun line hLine => (hFlat line hLine).head, ?_⟩, hPieces⟩
  · have hBreak := hOne line hLine '\r' hMem
    revert hBreak
    decide
  · rwa [hPieces]

/-- What an update makes of a line at the margin. -/
theorem rewriteLine_flat {updates : List (Text × Option Text)} (h : Flat line) :
    rewriteLine updates line =
      if lstrip line = [] then some line
      else match Entries.get (cutLine line).1 updates with
        | none => some line
        | some value => value.map fun value => fieldLine ((cutLine line).1, value) := by
  rcases h with hBlank | ⟨c, rest, rfl, hSolid, -, -, hColon⟩
  · rw [if_pos hBlank, rewriteLine, hBlank]
    simp
  · have hSpace : (c :: rest).head? ≠ some ' ' := by
      rintro hHead
      obtain rfl : c = ' ' := by simpa using hHead
      revert hSolid
      decide
    have hKept : ¬(':' ∉ c :: rest ∨ (c :: rest).head? = some ' ') := by
      rintro (hNot | hHead)
      · exact hNot hColon
      · exact hSpace hHead
    rw [rewriteLine, lstrip_solid hSolid]
    simp only [if_neg hKept]
    rfl

structure Plain (updates : Updates) : Prop where
  keys : ∀ item ∈ updates.items, isIdentifier item.1 = true
  values : ∀ item ∈ updates.items, ∀ value, item.2 = some value → OneLine value

variable {updates : Updates}

/-- A line that an update writes. -/
theorem rewriteLine_changed (hFlat : Flat line) (h : rewriteLine updates.items line = some new) :
    new = line ∨ ∃ key value, (key, some value) ∈ updates.items ∧ (cutLine line).1 = key ∧ lstrip line ≠ [] ∧
      new = fieldLine (key, value) := by
  rw [rewriteLine_flat hFlat] at h
  split at h
  · exact .inl (Option.some.inj h).symm
  · rename_i hSome
    split at h
    · exact .inl (Option.some.inj h).symm
    · rename_i value hGet
      obtain ⟨value, rfl, rfl⟩ := Option.map_eq_some_iff.mp h
      exact .inr ⟨_, value, Entries.mem_of_get hGet, rfl, hSome, rfl⟩

/-- A key that an update does not name keeps its lines. -/
theorem filter_rewriteLine (hPlain : Plain updates) (hKey : key ∉ updates.items.map Prod.fst)
    (hFlat : ∀ line ∈ lines, Flat line) :
    (lines.filterMap (rewriteLine updates.items)).filter (keyed key) = lines.filter (keyed key) := by
  induction lines with
  | nil => rfl
  | cons line lines ih =>
      have hRest := ih fun l hl => hFlat l (List.mem_cons_of_mem _ hl)
      have hLine := hFlat line (by simp)
      cases hNew : rewriteLine updates.items line with
      | none =>
          have hGone : keyed key line = false := by
            rw [rewriteLine_flat hLine] at hNew
            split at hNew
            · cases hNew
            · split at hNew
              · cases hNew
              · rename_i value hGet
                have hMem : (cutLine line).1 ∈ updates.items.map Prod.fst :=
                  List.mem_map.mpr ⟨_, Entries.mem_of_get hGet, rfl⟩
                have hOther : (cutLine line).1 ≠ key := fun hSame => hKey (hSame ▸ hMem)
                simp [keyed, hOther]
          rw [List.filterMap_cons_none hNew, hRest, List.filter_cons_of_neg (by simp [hGone])]
      | some new =>
          rw [List.filterMap_cons_some hNew]
          rcases rewriteLine_changed hLine hNew with rfl | ⟨name, value, hMem, hName, hSolid, rfl⟩
          · rw [List.filter_cons, List.filter_cons, hRest]
          · have hOther : name ≠ key := fun hSame => hKey (List.mem_map.mpr ⟨_, hMem, hSame⟩)
            have hOld : ¬keyed key line = true := by simp [keyed, hName, hOther]
            have hNow : ¬keyed key (fieldLine (name, value)) = true := by
              rw [(name_of_identifier (hPlain.keys _ hMem)).keyed]
              simpa using hOther
            rw [List.filter_cons_of_neg hOld, List.filter_cons_of_neg hNow, hRest]

theorem addition_cases {updates : List (Text × Option Text)} {seen : List Text}
    (h : line ∈ updates.filterMap fun item => if item.1 ∈ seen then none else item.2.map fun value => fieldLine (item.1, value)) :
    ∃ key value, (key, some value) ∈ updates ∧ line = fieldLine (key, value) := by
  obtain ⟨⟨key, value⟩, hMem, hLine⟩ := List.mem_filterMap.mp h
  split at hLine
  · cases hLine
  · obtain ⟨value, rfl, rfl⟩ := Option.map_eq_some_iff.mp hLine
    exact ⟨key, value, hMem, rfl⟩

theorem filter_rewriteLines (hPlain : Plain updates) (hKey : key ∉ updates.items.map Prod.fst)
    (hFlat : ∀ line ∈ lines, Flat line) :
    (rewriteLines updates.items lines).filter (keyed key) = lines.filter (keyed key) := by
  have hAdditions : ∀ seen : List Text, (updates.items.filterMap fun item =>
      if item.1 ∈ seen then none else item.2.map fun value => fieldLine (item.1, value)).filter (keyed key) = [] := by
    intro seen
    rw [List.filter_eq_nil_iff]
    intro line hLine
    obtain ⟨name, value, hMem, rfl⟩ := addition_cases hLine
    have hOther : name ≠ key := fun hSame => hKey (List.mem_map.mpr ⟨_, hMem, hSame⟩)
    rw [(name_of_identifier (hPlain.keys _ hMem)).keyed]
    simpa using hOther
  rw [rewriteLines, List.filter_append, List.filter_append, hAdditions, List.nil_append, ← List.filter_append,
    List.takeWhile_append_dropWhile, filter_rewriteLine hPlain hKey hFlat]

/-- The lines of an update stand at the margin, each on its own. -/
theorem rewriteLines_line (hPlain : Plain updates) (hFlat : ∀ line ∈ lines, Flat line) (hOne : ∀ line ∈ lines, OneLine line)
    (h : new ∈ rewriteLines updates.items lines) : Flat new ∧ OneLine new := by
  have hWritten : ∀ key value, (key, some value) ∈ updates.items →
      Flat (fieldLine (key, value)) ∧ OneLine (fieldLine (key, value)) := by
    intro key value hMem
    have hName := name_of_identifier (hPlain.keys _ hMem)
    exact ⟨hName.flat value, hName.oneLine (hPlain.values _ hMem value rfl)⟩
  have hKept : ∀ line ∈ lines.filterMap (rewriteLine updates.items), Flat line ∧ OneLine line := by
    intro line hLine
    obtain ⟨old, hOld, hNew⟩ := List.mem_filterMap.mp hLine
    rcases rewriteLine_changed (hFlat old hOld) hNew with rfl | ⟨key, value, hMem, -, -, rfl⟩
    · exact ⟨hFlat line hOld, hOne line hOld⟩
    · exact hWritten key value hMem
  rcases List.mem_append.mp h with h | h
  · exact hKept new ((List.takeWhile_sublist _).subset h)
  · rcases List.mem_append.mp h with h | h
    · obtain ⟨key, value, hMem, rfl⟩ := addition_cases h
      exact hWritten key value hMem
    · exact hKept new ((List.dropWhile_sublist _).subset h)

theorem pieces_oneLine {piece : Text} (h : piece ∈ pieces lines) : OneLine piece := by
  have hFrom : ∀ (text line : Text) (returned : Bool), OneLine line → ∀ p ∈ splitFrom line returned text, OneLine p := by
    intro text
    induction text with
    | nil =>
        intro line returned hLine p hp
        by_cases hNil : line = []
        · simp [splitFrom, hNil] at hp
        · simp only [splitFrom, hNil, if_false, List.mem_singleton] at hp
          rwa [hp]
    | cons c text ih =>
        intro line returned hLine p hp
        rw [splitFrom] at hp
        split at hp
        · exact ih [] false (by decide) p hp
        · split at hp
          · rcases List.mem_cons.mp hp with rfl | hp
            · exact hLine
            · exact ih [] _ (by decide) p hp
          · rename_i hBreak
            refine ih _ false (hLine.append fun d hd => ?_) p hp
            obtain rfl := List.mem_singleton.mp hd
            simpa using hBreak
  exact hFrom _ [] false (by decide) piece h

/-- Lines between the fences, for a file whose front matter may be empty. -/
def orBlank (lines : List Text) : List Text :=
  if lines = [] then [[]] else lines

theorem joinLines_orBlank (lines : List Text) : joinLines (orBlank lines) = joinLines lines := by
  unfold orBlank
  split
  · rename_i hNil
    rw [hNil]
    rfl
  · rfl

/-- The fields but those named, and the body, are what they were. -/
def Keeps (names : List Text) (before after : Event) : Prop :=
  after.body = before.body ∧ ∀ key, key ∉ names → Entries.get key after.fields = Entries.get key before.fields

/-- A file whose front matter stands at the margin gives these fields and this body. -/
theorem Margin.contents (h : Margin lines) (rest : Text) :
    contents (fileText lines rest) =
      ⟨((pieces lines).foldl readLine []).filter fun item => item.1 ∉ readerKeys, strip (Readme.universal rest)⟩ := by
  rw [Events.contents, fileText_universal h.carriage, h.parseFrontmatter, h.frontmatterBody]

theorem keeps_of_lines {names : List Text} (ha : Margin a) (hb : Margin b) {after : Text}
    (hRest : Readme.universal after = Readme.universal rest)
    (h : ∀ key, key ∉ names → (pieces b).filter (keyed key) = (pieces a).filter (keyed key)) :
    Keeps names (Events.contents (fileText a rest)) (Events.contents (fileText b after)) := by
  rw [ha.contents, hb.contents, hRest]
  refine ⟨rfl, fun key hKey => ?_⟩
  have hSame := get_same (h key hKey)
  by_cases hReader : key ∈ readerKeys
  · rw [Entries.get_filter_of_neg fun item hItem => by simp [hItem, hReader],
      Entries.get_filter_of_neg fun item hItem => by simp [hItem, hReader]]
  · rw [Entries.get_filter_of_pos fun item hItem => by simp [hItem, hReader],
      Entries.get_filter_of_pos fun item hItem => by simp [hItem, hReader], hSame]

/-- An update changes the fields it names and nothing else. -/
theorem updateEventMeta_keeps (h : Margin lines) (rest : Text) (hPlain : Plain updates) :
    Keeps (updates.items.map Prod.fst) (contents (fileText lines rest))
      (contents (updateEventMeta updates (fileText lines rest))) := by
  have hOne : ∀ piece ∈ pieces lines, OneLine piece := fun piece hp => pieces_oneLine hp
  have hText : updateEventMeta updates (fileText lines rest) =
      fileText (orBlank (rewriteLines updates.items (pieces lines))) (Readme.universal rest) := by
    rw [updateEventMeta, fileText_universal h.carriage, h.fenced]
    simp only [List.head?_cons, if_true, List.drop_one, List.tail_cons, fileText, joinLines_orBlank]
    rfl
  have hBlank : ∀ line ∈ orBlank (rewriteLines updates.items (pieces lines)), Flat line ∧ OneLine line := by
    intro line hLine
    unfold orBlank at hLine
    split at hLine
    · obtain rfl := List.mem_singleton.mp hLine
      exact ⟨.inl rfl, by decide⟩
    · exact rewriteLines_line hPlain h.flat hOne hLine
  have hNew : orBlank (rewriteLines updates.items (pieces lines)) ≠ [] := by
    unfold orBlank
    split
    · simp
    · assumption
  obtain ⟨hMargin, hPieces⟩ := margin_of_flat hNew (fun l hl => (hBlank l hl).2) fun l hl => (hBlank l hl).1
  rw [hText]
  refine keeps_of_lines h hMargin (universal_self (return_not_mem_universal rest)) fun key hKey => ?_
  rw [hPieces, ← filter_rewriteLines hPlain hKey h.flat]
  unfold orBlank
  split
  · rename_i hNil
    rw [hNil]
    rfl
  · rfl

theorem splitlines_line (h : OneLine line) : splitlines (line ++ ['\n']) = [line] := by
  rw [splitlines_break h (by decide)]
  rfl

/-- One line in the place of another leaves the margin as it is. -/
theorem Margin.replace (h : Margin (a ++ old :: b)) (hOne : OneLine new) (hFlat : Flat new) : Margin (a ++ new :: b) := by
  obtain ⟨hMargin, -⟩ := @margin_of_flat [new] (by simp) (by simpa using hOne) (by simpa using hFlat)
  have hLine : ∀ {P : Text → Prop}, (∀ line ∈ a ++ old :: b, P line) → P new → ∀ line ∈ a ++ new :: b, P line := by
    intro P hAll hNew line hMem
    rcases List.mem_append.mp hMem with hMem | hMem
    · exact hAll line (List.mem_append_left _ hMem)
    · rcases List.mem_cons.mp hMem with rfl | hMem
      · exact hNew
      · exact hAll line (List.mem_append_right _ (List.mem_cons_of_mem _ hMem))
  refine ⟨by simp, hLine h.newline (hMargin.newline new (by simp)), hLine h.carriage (hMargin.carriage new (by simp)),
    hLine h.dash hFlat.head, fun piece hPiece => ?_⟩
  have hOld := h.flat
  rw [pieces_eq_flatMap (by simp)] at hPiece hOld
  obtain ⟨line, hMem, hInLine⟩ := List.mem_flatMap.mp hPiece
  rcases List.mem_append.mp hMem with hMem | hMem
  · exact hOld piece (List.mem_flatMap.mpr ⟨line, List.mem_append_left _ hMem, hInLine⟩)
  · rcases List.mem_cons.mp hMem with rfl | hMem
    · rw [splitlines_line hOne] at hInLine
      rwa [List.mem_singleton.mp hInLine]
    · exact hOld piece
        (List.mem_flatMap.mpr ⟨line, List.mem_append_right _ (List.mem_cons_of_mem _ hMem), hInLine⟩)

/-- A separator that is in no line up to here is behind them. -/
theorem partition_skip (hSome : sep ≠ []) (hSep : '\n' ∉ sep) (hLine : ¬sep <:+: line) (tail : Text) :
    partition sep (line ++ '\n' :: tail) =
      (partition sep tail).map fun parts => (line ++ '\n' :: parts.1, parts.2) := by
  have hNot : ∀ line, ¬sep <:+: line → sep.isPrefixOf (line ++ '\n' :: tail) = false := by
    intro line hLine
    rw [Bool.eq_false_iff, Ne, List.isPrefixOf_iff_prefix]
    intro hPrefix
    rcases List.prefix_or_prefix_of_prefix hPrefix (List.prefix_append line ('\n' :: tail)) with hWithin | ⟨rest, rfl⟩
    · exact hLine hWithin.isInfix
    · cases rest with
      | nil =>
          rw [List.append_nil] at hLine
          exact hLine List.infix_rfl
      | cons c rest =>
          have hFirst := (List.cons_prefix_cons.mp ((List.prefix_append_right_inj line).mp hPrefix)).1
          rw [hFirst] at hSep
          simp at hSep
  induction line with
  | nil =>
      have hHere := hNot [] hLine
      rw [List.nil_append] at hHere ⊢
      rw [partition, hHere]
      rfl
  | cons c line ih =>
      have hInner : ¬sep <:+: line := fun h => hLine (h.trans (List.suffix_cons c line).isInfix)
      have hHere := hNot (c :: line) hLine
      rw [List.cons_append] at hHere ⊢
      rw [partition, hHere, if_neg Bool.false_ne_true, ih hInner, Option.map_map]
      rfl

/-- What stands in front of a space is found only in front of one. -/
theorem lead_ends_alike {lead lead' : Text} (hLead : ' ' ∉ lead') (hToken : ' ' ∉ token)
    (h : lead ++ ' ' :: rest <:+: lead' ++ ' ' :: token) : lead <:+ lead' := by
  obtain ⟨before, after, hText⟩ := h
  have hSplit : (before ++ lead) ++ ' ' :: (rest ++ after) = lead' ++ ' ' :: token := by
    simpa using hText
  rcases List.append_eq_append_iff.mp hSplit with ⟨more, hMore, hRest⟩ | ⟨more, hMore, hRest⟩
  · cases more with
    | nil => exact ⟨before, by simpa using hMore.symm⟩
    | cons c more =>
        have hFirst : ' ' = c := (List.cons.inj hRest).1
        rw [hMore, ← hFirst] at hLead
        simp at hLead
  · cases more with
    | nil => exact ⟨before, by simpa using hMore⟩
    | cons c more =>
        have hTail := (List.cons.inj hRest).2
        rw [hTail] at hToken
        simp at hToken

theorem statusText_eq (value : Text) : statusText value = fieldLine (statusKey, value) := rfl

/-- A status has a space behind what no field with another key has in front of one. -/
theorem status_not_infix (hKey : ' ' ∉ key) (hToken : ' ' ∉ token) (hSuffix : ¬statusKey ++ [':'] <:+ key ++ [':']) :
    ¬fieldLine (statusKey, old) <:+: fieldLine (key, token) := by
  intro hInfix
  have hLine : ∀ key token : Text, fieldLine (key, token) = (key ++ [':']) ++ ' ' :: token := by
    intro key token
    simp [fieldLine]
  rw [hLine, hLine] at hInfix
  exact hSuffix (lead_ends_alike (by simpa using hKey) hToken hInfix)

theorem fileText_third (first second : Text) (more : List Text) (rest : Text) :
    ∃ after, ∀ third, fileText (first :: second :: third :: more) rest =
      fence ++ '\n' :: (first ++ '\n' :: (second ++ '\n' :: (third ++ after))) := by
  cases more with
  | nil => exact ⟨'\n' :: (fence ++ '\n' :: rest), fun third => by simp [fileText]⟩
  | cons next more =>
      exact ⟨'\n' :: (joinLines (next :: more) ++ '\n' :: (fence ++ '\n' :: rest)), fun third => by simp [fileText]⟩

theorem partition_here (hSome : sep ≠ []) (after : Text) : partition sep (sep ++ after) = some ([], after) := by
  obtain ⟨c, rest, rfl⟩ := List.exists_cons_of_ne_nil hSome
  have hPrefix : (c :: rest).isPrefixOf (c :: rest ++ after) = true :=
    List.isPrefixOf_iff_prefix.mpr (List.prefix_append _ _)
  have hDrop : (c :: rest ++ after).drop (c :: rest).length = after := List.drop_left
  rw [List.cons_append] at hPrefix hDrop ⊢
  rw [partition, if_pos hPrefix, hDrop]

/-- A status that stands on its line behind the id and the source is replaced there. -/
theorem setStatus_fileText (repr : Fields → Text) {event : Event} {id source : Text} (status : Text) {more : List Text}
    (rest : Text) (hId : ' ' ∉ id) (hSource : ' ' ∉ source) (hOld : '\n' ∉ old)
    (hCarriage : ∀ line ∈ fieldLine (idKey, id) :: fieldLine (sourceKey, source) :: fieldLine (statusKey, old) :: more, '\r' ∉ line)
    (hStatus : Entries.get statusKey event.fields = some (.text old)) :
    setStatus repr event status (fileText (fieldLine (idKey, id) :: fieldLine (sourceKey, source) ::
        fieldLine (statusKey, old) :: more) rest) =
      fileText (fieldLine (idKey, id) :: fieldLine (sourceKey, source) :: fieldLine (statusKey, status) :: more)
        (Readme.universal rest) := by
  have hSome : fieldLine (statusKey, old) ≠ [] := by simp [fieldLine]
  have hNewline : '\n' ∉ fieldLine (statusKey, old) := by
    simp only [fieldLine, List.mem_append, List.mem_cons, not_or]
    exact ⟨by decide +kernel, by decide, by decide, hOld⟩
  have hFence : ¬fieldLine (statusKey, old) <:+: fence := by
    intro hInfix
    have hMem := hInfix.subset (show ':' ∈ fieldLine (statusKey, old) by simp [fieldLine])
    revert hMem
    decide
  have hIdLine : ¬fieldLine (statusKey, old) <:+: fieldLine (idKey, id) :=
    status_not_infix (by decide +kernel) hId (by decide +kernel)
  have hSourceLine : ¬fieldLine (statusKey, old) <:+: fieldLine (sourceKey, source) :=
    status_not_infix (by decide +kernel) hSource (by decide +kernel)
  obtain ⟨after, hAfter⟩ := fileText_third (fieldLine (idKey, id)) (fieldLine (sourceKey, source)) more
    (Readme.universal rest)
  rw [setStatus, hStatus, Option.getD_some, fileText_universal hCarriage, Entry.str, hAfter, hAfter, statusText_eq,
    statusText_eq, replaceFirst, partition_skip hSome hNewline hFence, partition_skip hSome hNewline hIdLine,
    partition_skip hSome hNewline hSourceLine, partition_here hSome]
  simp

end Brnrd.Events
