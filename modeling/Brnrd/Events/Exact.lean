import Brnrd.Events.Values

/-! What is read back of the fields of a file, and where each entry of a reading
comes from. -/
namespace Brnrd.Events

open Python
open Port (wordsFrom)
open Joined (mem_intercalate)

variable {key text value : Text}

/-- A field whose value takes one line and blank ones is set once. -/
theorem readLine_field (hName : Name key) (hTidy : OneLine (rstrip value)) (result : Fields) :
    (splitlines (fieldLine (key, value) ++ ['\n'])).foldl readLine result =
        Entries.set key (readValue (strip value)) result ∧
      ∀ piece ∈ splitlines (fieldLine (key, value) ++ ['\n']), Flat piece := by
  obtain ⟨first, blanks, hSplit, hStrip, hBlanks⟩ := field_pieces hName hTidy
  have hSkip : ∀ blanks : List Text, (∀ blank ∈ blanks, lstrip blank = []) → ∀ result : Fields,
      blanks.foldl readLine result = result := by
    intro blanks hBlanks
    induction blanks with
    | nil => exact fun _ => rfl
    | cons blank blanks ih =>
        intro result
        rw [List.foldl_cons, readLine, if_pos (hBlanks blank (by simp))]
        exact ih (fun b hb => hBlanks b (List.mem_cons_of_mem _ hb)) result
  obtain ⟨c, rest, hLine, hSolid, -⟩ := hName.fieldLine_cons first
  have hSome : lstrip (fieldLine (key, first)) ≠ [] := by
    rw [hLine, lstrip_solid hSolid]
    simp
  rw [hSplit]
  constructor
  · rw [List.foldl_cons, hSkip blanks hBlanks, readLine, if_neg hSome, hName.cutLine, hStrip]
  · intro piece hPiece
    rcases List.mem_cons.mp hPiece with rfl | hPiece
    · exact hName.flat first
    · exact .inl (hBlanks piece hPiece)

/-- What a file's fields must be like for its lines to stand at the margin. -/
structure Tidy (fields : List (Text × Text)) : Prop where
  nonempty : fields ≠ []
  distinct : (fields.map Prod.fst).Nodup
  names : ∀ field ∈ fields, Name field.1
  inLine : ∀ field ∈ fields, '\n' ∉ field.2 ∧ '\r' ∉ field.2
  values : ∀ field ∈ fields, OneLine (rstrip field.2)

theorem fieldLine_chars (hName : Name key) (hValue : '\n' ∉ value ∧ '\r' ∉ value) :
    '\n' ∉ fieldLine (key, value) ∧ '\r' ∉ fieldLine (key, value) := by
  have hKey : ∀ c, isLineBreak c = true → c ∉ key := by
    intro c hBreak hMem
    rw [(hName.chars c hMem).2.1] at hBreak
    cases hBreak
  simp only [fieldLine, List.mem_append, List.mem_cons, not_or]
  exact ⟨⟨hKey _ (by decide), by decide, by decide, hValue.1⟩, ⟨hKey _ (by decide), by decide, by decide, hValue.2⟩⟩

theorem fieldLine_dash (hName : Name key) : (fieldLine (key, value)).head? ≠ some '-' :=
  (hName.flat value).head

variable {fields : List (Text × Text)}

theorem Tidy.margin (h : Tidy fields) : Margin (fields.map fieldLine) where
  nonempty := by simpa using h.nonempty
  newline := by
    intro line hLine
    obtain ⟨field, hField, rfl⟩ := List.mem_map.mp hLine
    exact (fieldLine_chars (h.names field hField) (h.inLine field hField)).1
  carriage := by
    intro line hLine
    obtain ⟨field, hField, rfl⟩ := List.mem_map.mp hLine
    exact (fieldLine_chars (h.names field hField) (h.inLine field hField)).2
  dash := by
    intro line hLine
    obtain ⟨field, hField, rfl⟩ := List.mem_map.mp hLine
    exact fieldLine_dash (h.names field hField)
  flat := by
    intro piece hPiece
    rw [pieces_eq_flatMap (by simpa using h.nonempty)] at hPiece
    obtain ⟨line, hLine, hPiece⟩ := List.mem_flatMap.mp hPiece
    obtain ⟨field, hField, rfl⟩ := List.mem_map.mp hLine
    exact (readLine_field (h.names field hField) (h.values field hField) []).2 piece hPiece

/-- Each field is read back as its value is, in its place. -/
theorem Tidy.foldl (h : Tidy fields) :
    (pieces (fields.map fieldLine)).foldl readLine [] =
      fields.map fun field => (field.1, readValue (strip field.2)) := by
  have hFold : ∀ fields : List (Text × Text), (∀ field ∈ fields, Name field.1) →
      (∀ field ∈ fields, OneLine (rstrip field.2)) → ∀ result : Fields,
      ((fields.map fieldLine).flatMap fun line => splitlines (line ++ ['\n'])).foldl readLine result =
        (fields.map fun field => (field.1, readValue (strip field.2))).foldl
          (fun result field => Entries.set field.1 field.2 result) result := by
    intro fields hNames hValues
    induction fields with
    | nil => exact fun _ => rfl
    | cons field fields ih =>
        intro result
        have hFirst := (readLine_field (hNames field (by simp)) (hValues field (by simp)) result).1
        rw [List.map_cons, List.flatMap_cons, List.foldl_append, hFirst, List.map_cons, List.foldl_cons]
        exact ih (fun f hf => hNames f (List.mem_cons_of_mem _ hf)) (fun f hf => hValues f (List.mem_cons_of_mem _ hf)) _
  have hDistinct : ((([] : Fields) ++ fields.map fun field => (field.1, readValue (strip field.2))).map Prod.fst).Nodup := by
    rw [List.nil_append, List.map_map]
    exact h.distinct
  have hNew : fields.map fieldLine ≠ [] := by simpa using h.nonempty
  rw [pieces_eq_flatMap hNew, hFold fields h.names h.values, Entries.foldl_set hDistinct, List.nil_append]

theorem Tidy.get (h : Tidy fields) (key : Text) :
    Entries.get key ((pieces (fields.map fieldLine)).foldl readLine []) =
      (Entries.get key fields).map fun value => readValue (strip value) := by
  rw [h.foldl]
  exact Entries.get_map (fun _ value => readValue (strip value)) key fields

/-- Where an entry of a reading comes from: a line that has its key and its value, a
nested block, or a block scalar. -/
def Came (lines : List Text) (item : Text × Entry) : Prop :=
  (∃ key, item.1 = strip key) ∧
    ((∃ line ∈ lines, item.1 = (cutLine (lstrip line)).1 ∧ item.2 = coerce (cutLine (lstrip line)).2) ∨
      (∃ fields, item.2 = .block fields) ∨
      ∃ text, item.2 = .text text ∧ ∀ c ∈ text, isLineBreak c = true → c = '\n')

/-- A text with no line boundary but newlines. -/
def OnlyNewlines (text : Text) : Prop :=
  ∀ c ∈ text, isLineBreak c = true → c = '\n'

theorem wordsFrom_subset {word : Text} : ∀ w ∈ wordsFrom word text, w ⊆ word ++ text := by
  induction text generalizing word with
  | nil =>
      intro w hw
      rw [wordsFrom] at hw
      split at hw
      · cases hw
      · rw [List.mem_singleton.mp hw]
        exact List.subset_append_left _ _
  | cons c text ih =>
      have hDrop : ∀ w ∈ wordsFrom [] text, w ⊆ word ++ c :: text := by
        intro w hw d hd
        have hLater : d ∈ text := by simpa using ih w hw hd
        simp [hLater]
      intro w hw
      rw [wordsFrom] at hw
      split at hw
      · split at hw
        · exact hDrop w hw
        · rcases List.mem_cons.mp hw with rfl | hw
          · exact List.subset_append_left _ _
          · exact hDrop w hw
      · simpa using ih w hw

theorem splitBlank_subset : ∀ part ∈ splitBlank text, part ⊆ text := by
  induction text using splitBlank.induct with
  | case1 =>
      intro part hPart
      simp [splitBlank] at hPart
      simp [hPart]
  | case2 rest ih =>
      intro part hPart
      rw [splitBlank] at hPart
      rcases List.mem_cons.mp hPart with rfl | hPart
      · simp
      · exact fun c hc => List.mem_cons_of_mem _ (List.mem_cons_of_mem _ (ih part hPart hc))
  | case3 c rest hNot ih =>
      intro part hPart
      rw [splitBlank.eq_3 _ _ hNot] at hPart
      cases hParts : splitBlank rest with
      | nil =>
          rw [hParts] at hPart
          cases hPart
      | cons first parts =>
          rw [hParts, List.modifyHead_cons] at hPart
          have hAll := ih
          rw [hParts] at hAll
          rcases List.mem_cons.mp hPart with rfl | hPart
          · exact List.cons_subset_cons c (hAll first (by simp))
          · exact fun d hd => List.mem_cons_of_mem _ (hAll part (by simp [hPart]) hd)

theorem OnlyNewlines.subset {a b : Text} (h : OnlyNewlines b) (hSubset : a ⊆ b) : OnlyNewlines a :=
  fun c hc => h c (hSubset hc)

theorem OneLine.onlyNewlines (h : OneLine text) : OnlyNewlines text := by
  intro c hc hBreak
  rw [h c hc] at hBreak
  cases hBreak

theorem rstripNewlines_subset (text : Text) : rstripNewlines text ⊆ text :=
  (List.rdropWhile_prefix _ text).subset

variable {lines : List Text}

/-- The text of a block scalar has no line boundary but newlines. -/
theorem blockText_onlyNewlines (marker : Text) (h : ∀ line ∈ lines, OneLine line) :
    OnlyNewlines (blockText marker lines) := by
  have hJoin : ∀ cut, OnlyNewlines (rstripNewlines
      (joinLines (lines.map fun line => if strip line ≠ [] then line.drop cut else []))) := by
    intro cut c hc hBreak
    rcases mem_intercalate (rstripNewlines_subset _ hc) with hc | ⟨part, hPart, hc⟩
    · exact List.mem_singleton.mp hc
    · obtain ⟨line, hLine, rfl⟩ := List.mem_map.mp hPart
      split at hc
      · exact OneLine.onlyNewlines (h line hLine) c (List.drop_subset _ _ hc) hBreak
      · cases hc
  have hFold : ∀ text, OnlyNewlines text →
      OnlyNewlines ("\n\n".toList.intercalate ((splitBlank text).map singleSpaced)) := by
    intro text hText c hc hBreak
    rcases mem_intercalate hc with hc | ⟨part, hPart, hc⟩
    · have hAll : ∀ d ∈ "\n\n".toList, d = '\n' := by decide
      exact hAll c hc
    · obtain ⟨piece, hPiece, rfl⟩ := List.mem_map.mp hPart
      rcases mem_intercalate hc with hc | ⟨w, hw, hc⟩
      · have hNot : isLineBreak ' ' = false := by decide
        rw [List.mem_singleton.mp hc, hNot] at hBreak
        cases hBreak
      · exact hText c (splitBlank_subset piece hPiece (by simpa using wordsFrom_subset w hw hc)) hBreak
  have hEnd : ∀ text, OnlyNewlines text → OnlyNewlines (if marker.getLast? = some '-' then rstripNewlines text
      else if marker.getLast? = some '+' then text ++ ['\n'] else text) := by
    intro text hText
    split
    · exact hText.subset (rstripNewlines_subset text)
    · split
      · intro c hc hBreak
        rcases List.mem_append.mp hc with hc | hc
        · exact hText c hc hBreak
        · exact List.mem_singleton.mp hc
      · exact hText
  unfold blockText
  apply hEnd
  split
  · exact hFold _ (hJoin _)
  · exact hJoin _

theorem blockLines_oneLine {indent : Nat} (h : ∀ line ∈ lines, OneLine line) :
    ∀ line ∈ blockLines indent lines, OneLine line := by
  induction lines with
  | nil => exact nofun
  | cons first lines ih =>
      have hRest := ih fun l hl => h l (List.mem_cons_of_mem _ hl)
      intro line hLine
      simp only [blockLines] at hLine
      split at hLine
      · rcases List.mem_cons.mp hLine with rfl | hLine
        · decide
        · exact hRest line hLine
      · split at hLine
        · cases hLine
        · rcases List.mem_cons.mp hLine with rfl | hLine
          · exact fun c hc => h first (by simp) c (rstripNewlines_subset first hc)
          · exact hRest line hLine

/-- Every entry the reader adds comes from the lines it reads. -/
theorem parseFrom_came (hOne : ∀ line ∈ lines, OneLine line) (base skip : Nat) (result : Fields) (i : Nat) :
    ∀ item ∈ (parseFrom lines base skip result i).1, item ∈ result ∨ Came lines item := by
  induction lines generalizing base skip result i with
  | nil => exact fun item h => .inl h
  | cons line lines ih =>
      have hRest : ∀ l ∈ lines, OneLine l := fun l hl => hOne l (List.mem_cons_of_mem _ hl)
      have hMore : ∀ {item}, Came lines item → Came (line :: lines) item := by
        rintro item ⟨hKey, hValue⟩
        refine ⟨hKey, hValue.imp_left ?_⟩
        rintro ⟨other, hMem, hFrom⟩
        exact ⟨other, List.mem_cons_of_mem _ hMem, hFrom⟩
      have hLater : ∀ base skip result i, ∀ item ∈ (parseFrom lines base skip result i).1,
          item ∈ result ∨ Came (line :: lines) item :=
        fun base skip result i item h => (ih hRest base skip result i item h).imp_right hMore
      have hSet : ∀ base skip value i, Came (line :: lines) ((cutLine (lstrip line)).1, value) →
          ∀ item ∈ (parseFrom lines base skip (Entries.set (cutLine (lstrip line)).1 value result) i).1,
            item ∈ result ∨ Came (line :: lines) item := by
        intro base skip value i hCame item h
        rcases hLater base skip _ i item h with h | h
        · rcases Entries.mem_set h with rfl | h
          · exact .inr hCame
          · exact .inl h
        · exact .inr h
      cases skip with
      | succ skip => exact hLater base skip result (i + 1)
      | zero =>
          intro item h
          simp only [parseFrom] at h
          split at h
          · exact hLater base 0 result (i + 1) item h
          split at h
          · exact .inl h
          split at h
          · exact hLater base 0 result (i + 1) item h
          split at h
          · exact hSet base _ _ (i + 1) ⟨⟨_, rfl⟩, .inr (.inr ⟨_, rfl,
              blockText_onlyNewlines _ (blockLines_oneLine hRest)⟩)⟩ item h
          split at h
          · exact hSet base 0 _ (i + 1) ⟨⟨_, rfl⟩, .inl ⟨line, by simp, rfl, rfl⟩⟩ item h
          split at h
          · exact hSet base _ _ (i + 1) ⟨⟨_, rfl⟩, .inr (.inl ⟨_, rfl⟩)⟩ item h
          · exact hSet base 0 _ (i + 1) ⟨⟨_, rfl⟩, .inr (.inr ⟨[], rfl, List.forall_mem_nil _⟩)⟩ item h

end Brnrd.Events
