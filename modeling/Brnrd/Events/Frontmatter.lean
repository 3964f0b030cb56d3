import Brnrd.Port.Boundary
import Brnrd.Port.Frontmatter
import Brnrd.Readme.Lines

/-! The front matter of an event file: the reader, with its block scalars and its
one level of nesting, and what it makes of lines that stand at the margin. -/
namespace Brnrd.Events

open Python
open Port (partition wordsFrom)

abbrev Text := List Char

/-- What the reader finds under a key. -/
inductive Entry where
  | none
  | bool (b : Bool)
  | int (n : Int)
  | text (value : Text)
  | block (fields : List (Text × Entry))

abbrev Fields := List (Text × Entry)

/-- `entry == text`. -/
def Entry.eqText (entry : Entry) (text : Text) : Bool :=
  match entry with
  | .text value => value = text
  | _ => false

def quoteMarks : List Char := [Char.ofNat 0x22, Char.ofNat 0x27]

/-- `_coerce`. -/
def coerce (val : Text) : Entry :=
  if val = "true".toList ∨ val = "True".toList then .bool true
  else if val = "false".toList ∨ val = "False".toList then .bool false
  else if val = "null".toList ∨ val = "None".toList ∨ val = "~".toList then .none
  else if 2 ≤ val.length ∧ val.head? = val.getLast? ∧ val.head?.any (quoteMarks.contains ·) then
    .text val.tail.dropLast
  else
    match parseInt (String.ofList val) with
    | some n => .int n
    | none => .text val

/-- `_BLOCK_SCALAR_MARKERS`. -/
def blockScalarMarkers : List Text :=
  ["|", "|-", "|+", ">", ">-", ">+"].map String.toList

/-- `text.lstrip()`. -/
def lstrip (text : Text) : Text :=
  text.dropWhile isSpace

def indentOf (line : Text) : Nat :=
  line.length - (lstrip line).length

/-- `text.rstrip("\n")`. -/
def rstripNewlines (text : Text) : Text :=
  text.rdropWhile (· = '\n')

/-- The lines of a block scalar whose key stands at `indent`. -/
def blockLines (indent : Nat) : List Text → List Text
  | [] => []
  | line :: rest =>
      let raw := rstripNewlines line
      if strip raw = [] then [] :: blockLines indent rest
      else if indentOf raw ≤ indent then []
      else raw :: blockLines indent rest

/-- `text.split("\n\n")`. -/
def splitBlank : Text → List Text
  | [] => [[]]
  | '\n' :: '\n' :: rest => [] :: splitBlank rest
  | c :: rest => (splitBlank rest).modifyHead (c :: ·)

/-- `" ".join(text.split())`. -/
def singleSpaced (text : Text) : Text :=
  [' '].intercalate (wordsFrom [] text)

/-- The text of a block scalar. -/
def blockText (marker : Text) (lines : List Text) : Text :=
  let cut := ((lines.filter (strip · ≠ [])).map indentOf).min?.getD 0
  let text := rstripNewlines (joinLines (lines.map fun line => if strip line ≠ [] then line.drop cut else []))
  let text := if marker.head? = some '>' then "\n\n".toList.intercalate ((splitBlank text).map singleSpaced) else text
  if marker.getLast? = some '-' then rstripNewlines text
  else if marker.getLast? = some '+' then text ++ ['\n']
  else text

/-- What stands before and behind the first colon of a line, stripped. -/
def cutLine (line : Text) : Text × Text :=
  (strip (line.takeWhile (· ≠ ':')), strip ((line.dropWhile (· ≠ ':')).drop 1))

/-- Whether the next line is one of a nested block. -/
def opensBlock (indent : Nat) : List Text → Bool
  | [] => false
  | next :: _ => indent ≤ indentOf next && lstrip next ≠ []

/-- `_parse_block` from a line on: of the lines, the next `skip` have been read as
part of a value. Counts the lines read. -/
def parseFrom : List Text → Nat → Nat → Fields → Nat → Fields × Nat
  | [], _, _, result, i => (result, i)
  | _ :: rest, base, skip + 1, result, i => parseFrom rest base skip result (i + 1)
  | line :: rest, base, 0, result, i =>
      let stripped := lstrip line
      let indent := indentOf line
      if stripped = [] ∨ stripped.head? = some '#' then parseFrom rest base 0 result (i + 1)
      else if indent < base then (result, i)
      else if ':' ∉ stripped then parseFrom rest base 0 result (i + 1)
      else
        let key := (cutLine stripped).1
        let val := (cutLine stripped).2
        if val ∈ blockScalarMarkers then
          let lines := blockLines indent rest
          parseFrom rest base lines.length (Entries.set key (.text (blockText val lines)) result) (i + 1)
        else if val ≠ [] then parseFrom rest base 0 (Entries.set key (coerce val) result) (i + 1)
        else if opensBlock (indent + 2) rest then
          let child := parseFrom rest (indent + 2) 0 [] 0
          parseFrom rest base child.2 (Entries.set key (.block child.1) result) (i + 1)
        else parseFrom rest base 0 (Entries.set key (.text []) result) (i + 1)

/-- `_parse_block`. -/
def parseBlock (lines : List Text) (base : Nat) : Fields × Nat :=
  parseFrom lines base 0 [] 0

def fence : Text := "---".toList

/-- What stands between the fences of a text and behind them. -/
def fenced (text : Text) : Option (Text × Text) :=
  if (fence ++ ['\n']).isPrefixOf text then partition ('\n' :: fence) (text.drop 4) else none

/-- `parse_frontmatter`. -/
def parseFrontmatter (text : Text) : Fields :=
  match fenced text with
  | none => []
  | some (head, _) => (parseBlock (splitlines (head ++ ['\n'])) 0).1

/-- `frontmatter_body`. -/
def frontmatterBody (text : Text) : Text :=
  match fenced text with
  | none => text
  | some (_, tail) => if tail.head? = some '\n' then tail.drop 1 else tail

end Brnrd.Events

/-! Lines that stand at the margin, each blank or a field. What the reader makes of
them is a fold over the lines, and a key is read from the last line that has it. -/
namespace Brnrd.Events

open Python
open Port (partition)

/-- A line that is blank, or a field at the margin. -/
def Flat (line : Text) : Prop :=
  lstrip line = [] ∨ ∃ c rest, line = c :: rest ∧ isSpace c = false ∧ c ≠ '#' ∧ c ≠ '-' ∧ ':' ∈ line

/-- What a field's value, once stripped, is read as. -/
def readValue (val : Text) : Entry :=
  if val ∈ blockScalarMarkers then .text (blockText val []) else coerce val

def readLine (result : Fields) (line : Text) : Fields :=
  if lstrip line = [] then result
  else Entries.set (cutLine line).1 (readValue (cutLine line).2) result

variable {sep line text : Text}

theorem strip_eq_nil_iff : strip text = [] ↔ lstrip text = [] := by
  constructor
  · intro h
    have hAll : ∀ c ∈ text.dropWhile isSpace, isSpace c = true := List.rdropWhile_eq_nil_iff.mp h
    have hText : ∀ c ∈ text, isSpace c = true := by
      intro c hc
      rw [← List.takeWhile_append_dropWhile (p := isSpace) (l := text)] at hc
      rcases List.mem_append.mp hc with hc | hc
      · exact List.mem_takeWhile_imp hc
      · exact hAll c hc
    exact List.dropWhile_eq_nil_iff.mpr hText
  · intro h
    have hDrop : text.dropWhile isSpace = [] := h
    rw [strip, hDrop]
    rfl

theorem lstrip_solid {c : Char} {rest : Text} (hSolid : isSpace c = false) : lstrip (c :: rest) = c :: rest := by
  simp [lstrip, hSolid]

theorem lstrip_blank (h : lstrip text = []) : ∀ c ∈ text, isSpace c = true :=
  List.dropWhile_eq_nil_iff.mp h

theorem lstrip_rstripNewlines (h : lstrip line = []) : lstrip (rstripNewlines line) = [] := by
  apply List.dropWhile_eq_nil_iff.mpr
  intro c hc
  have hPrefix : rstripNewlines line <+: line := List.rdropWhile_prefix _ _
  exact lstrip_blank h c (hPrefix.subset hc)

/-- A block of blank lines has the text of an empty one. -/
theorem blockText_blank (val : Text) (n : Nat) : blockText val (List.replicate n []) = blockText val [] := by
  have hText : rstripNewlines (joinLines (List.replicate n [])) = [] := by
    apply List.rdropWhile_eq_nil_iff.mpr
    induction n with
    | zero => simp
    | succ n ih =>
        cases n with
        | zero => simp
        | succ n =>
            intro c hc
            rw [List.replicate_succ, List.replicate_succ, joinLines_cons_cons] at hc
            rcases List.mem_cons.mp hc with rfl | hc
            · simp
            · exact ih c hc
  have hFilter : (List.replicate n ([] : Text)).filter (strip · ≠ []) = [] := by
    rw [List.filter_eq_nil_iff]
    intro line hLine
    rw [List.eq_of_mem_replicate hLine]
    decide
  have hMap : (List.replicate n ([] : Text)).map (fun line => if strip line ≠ [] then line.drop 0 else []) =
      List.replicate n [] := by
    rw [List.map_replicate]
    rfl
  have hEmpty : rstripNewlines (joinLines []) = [] := rfl
  simp only [blockText, hFilter, List.map_nil, List.min?_nil, Option.getD_none, hMap, hText, List.filter_nil,
    hEmpty]

/-- The blank lines in front of a text's lines. -/
def leading (lines : List Text) : Nat :=
  (lines.takeWhile (lstrip · = [])).length

variable {lines : List Text}

/-- A block scalar at the margin has only the blank lines that follow it. -/
theorem blockLines_flat (hFlat : ∀ line ∈ lines, Flat line) : blockLines 0 lines = List.replicate (leading lines) [] := by
  induction lines with
  | nil => rfl
  | cons line lines ih =>
      have hRest := ih fun l hl => hFlat l (List.mem_cons_of_mem _ hl)
      rcases hFlat line (by simp) with hBlank | ⟨c, rest, rfl, hSolid, -, -, hColon⟩
      · have hStrip : strip (rstripNewlines line) = [] := strip_eq_nil_iff.mpr (lstrip_rstripNewlines hBlank)
        rw [blockLines, if_pos hStrip, hRest, leading, leading, List.takeWhile_cons_of_pos (by simpa using hBlank)]
        rfl
      · have hNewline : c ≠ '\n' := by
          rintro rfl
          revert hSolid
          decide
        obtain ⟨tail, hTail⟩ : ∃ tail, rstripNewlines (c :: rest) = c :: tail := by
          rcases List.prefix_cons_iff.mp (List.rdropWhile_prefix (· = '\n') (c :: rest)) with hNil | ⟨tail, hTail, -⟩
          · have hAll := List.rdropWhile_eq_nil_iff.mp hNil c (by simp)
            exact absurd (of_decide_eq_true hAll) hNewline
          · exact ⟨tail, hTail⟩
        have hSome : strip (c :: tail) ≠ [] := by
          rw [Ne, strip_eq_nil_iff, lstrip_solid hSolid]
          simp
        have hLead : leading ((c :: rest) :: lines) = 0 := by
          rw [leading, List.takeWhile_cons_of_neg (by simp [lstrip_solid hSolid])]
          rfl
        rw [blockLines, hTail, if_neg hSome, if_pos (by simp [indentOf, lstrip_solid hSolid]), hLead]
        rfl

/-- The reader folds over lines at the margin, also from inside a block of blanks. -/
theorem parseFrom_flat (hFlat : ∀ line ∈ lines, Flat line) {skip : Nat} (hSkip : skip ≤ leading lines) (result : Fields)
    (i : Nat) :
    (parseFrom lines 0 skip result i).1 = lines.foldl readLine result := by
  induction lines generalizing skip result i with
  | nil => rfl
  | cons line lines ih =>
      have hRest : ∀ l ∈ lines, Flat l := fun l hl => hFlat l (List.mem_cons_of_mem _ hl)
      have hNow : ∀ result i, (parseFrom lines 0 0 result i).1 = lines.foldl readLine result :=
        fun result i => ih hRest (Nat.zero_le _) result i
      cases skip with
      | succ skip =>
          have hBlank : lstrip line = [] := by
            by_contra hSolid
            rw [leading, List.takeWhile_cons_of_neg (by simpa using hSolid)] at hSkip
            simp at hSkip
          have hLess : skip ≤ leading lines := by
            rw [leading, List.takeWhile_cons_of_pos (by simpa using hBlank)] at hSkip
            exact Nat.le_of_succ_le_succ hSkip
          rw [parseFrom, ih hRest hLess, List.foldl_cons, readLine, if_pos hBlank]
      | zero =>
          rcases hFlat line (by simp) with hBlank | ⟨c, rest, rfl, hSolid, hHash, -, hColon⟩
          · rw [parseFrom, if_pos (.inl hBlank), hNow, List.foldl_cons, readLine, if_pos hBlank]
          · have hStrip := @lstrip_solid c rest hSolid
            have hIndent : indentOf (c :: rest) = 0 := by simp [indentOf, hStrip]
            have hOpens : opensBlock 2 lines = false := by
              cases lines with
              | nil => rfl
              | cons next lines =>
                  rcases hRest next (by simp) with hBlank | ⟨d, tail, rfl, hNext, -⟩
                  · simp [opensBlock, hBlank]
                  · simp [opensBlock, indentOf, lstrip_solid hNext]
            have hKept : ¬(c :: rest = [] ∨ (c :: rest).head? = some '#') := by
              simpa using hHash
            have hSome : lstrip (c :: rest) ≠ [] := by
              rw [hStrip]
              simp
            rw [List.foldl_cons, readLine, if_neg hSome]
            simp only [parseFrom, hStrip, if_neg hKept, hIndent, Nat.lt_irrefl, if_false, not_not.mpr hColon]
            by_cases hMarker : (cutLine (c :: rest)).2 ∈ blockScalarMarkers
            · rw [readValue, if_pos hMarker, if_pos hMarker, blockLines_flat hRest, List.length_replicate,
                blockText_blank]
              exact ih hRest le_rfl _ _
            · rw [readValue, if_neg hMarker, if_neg hMarker]
              by_cases hNil : (cutLine (c :: rest)).2 = []
              · rw [if_neg (not_not.mpr hNil), Nat.zero_add, hOpens, if_neg Bool.false_ne_true, hNow, hNil]
                rfl
              · rw [if_pos hNil, hNow]

/-- Whether a line has a key. -/
def keyed (key line : Text) : Bool :=
  lstrip line ≠ [] && (cutLine line).1 = key

/-- A key is read from the last line that has it. -/
theorem get_readLines (key : Text) (lines : List Text) (result : Fields) :
    Entries.get key (lines.foldl readLine result) =
      match (lines.filter (keyed key)).getLast? with
      | some line => some (readValue (cutLine line).2)
      | none => Entries.get key result := by
  induction lines using List.reverseRecOn with
  | nil => rfl
  | append_singleton lines line ih =>
      rw [List.foldl_append, List.foldl_cons, List.foldl_nil, List.filter_append, readLine]
      by_cases hBlank : lstrip line = []
      · rw [if_pos hBlank, ih]
        simp [keyed, hBlank]
      · rw [if_neg hBlank, Entries.get_set]
        by_cases hKey : (cutLine line).1 = key
        · simp [keyed, hBlank, hKey]
        · simp [keyed, hBlank, hKey, ih]

/-- No separator that begins with a newline begins inside a line. -/
theorem partition_line (hLine : '\n' ∉ line) {tail : Text} {parts : Text × Text}
    (hTail : partition ('\n' :: sep) tail = some parts) :
    partition ('\n' :: sep) (line ++ tail) = some (line ++ parts.1, parts.2) := by
  induction line with
  | nil => exact hTail
  | cons c line ih =>
      have hNot : '\n' ≠ c := fun h => hLine (List.mem_cons.mpr (.inl h))
      have hRest := ih fun h => hLine (List.mem_cons_of_mem _ h)
      simp [partition, List.isPrefixOf, hNot, hRest]

theorem partition_lines (hNew : lines ≠ []) (hLines : ∀ line ∈ lines, '\n' ∉ line)
    (hSep : ∀ line ∈ lines, ∀ tail, ¬sep <+: line ++ '\n' :: tail) (tail : Text) :
    partition ('\n' :: sep) (joinLines lines ++ '\n' :: (sep ++ tail)) = some (joinLines lines, tail) := by
  induction lines with
  | nil => exact absurd rfl hNew
  | cons line lines ih =>
      have hLine := hLines line (by simp)
      cases lines with
      | nil =>
          have hHere : partition ('\n' :: sep) ('\n' :: (sep ++ tail)) = some ([], tail) := by
            have hPrefix : ('\n' :: sep).isPrefixOf ('\n' :: (sep ++ tail)) = true :=
              List.isPrefixOf_iff_prefix.mpr (List.prefix_append ('\n' :: sep) tail)
            rw [partition, if_pos hPrefix]
            simp
          rw [joinLines_singleton, partition_line hLine hHere, List.append_nil]
      | cons next lines =>
          have hRest := ih (by simp) (fun l hl => hLines l (List.mem_cons_of_mem _ hl))
            fun l hl => hSep l (List.mem_cons_of_mem _ hl)
          have hHere : partition ('\n' :: sep) ('\n' :: (joinLines (next :: lines) ++ '\n' :: (sep ++ tail))) =
              some ('\n' :: joinLines (next :: lines), tail) := by
            rw [partition, if_neg, hRest]
            · rfl
            · intro hPrefix
              have hStart := (List.cons_prefix_cons.mp (List.isPrefixOf_iff_prefix.mp hPrefix)).2
              obtain ⟨after, hAfter⟩ := joinLines_first next lines (sep ++ tail)
              rw [hAfter] at hStart
              exact hSep next (by simp) after hStart
          rw [joinLines_cons_cons, List.append_assoc, List.cons_append, partition_line hLine hHere]

theorem not_fence (hDash : line.head? ≠ some '-') (tail : Text) : ¬fence <+: line ++ '\n' :: tail := by
  intro hPrefix
  cases line with
  | nil =>
      have hFirst := (List.cons_prefix_cons.mp hPrefix).1
      revert hFirst
      decide
  | cons c line =>
      have hFirst : '-' = c := (List.cons_prefix_cons.mp hPrefix).1
      exact hDash (by rw [← hFirst, List.head?_cons])

/-- The first fence behind lines that are none closes the front matter. -/
theorem fenced_lines (hNew : lines ≠ []) (hLines : ∀ line ∈ lines, '\n' ∉ line)
    (hDash : ∀ line ∈ lines, line.head? ≠ some '-') (tail : Text) :
    fenced (fence ++ '\n' :: (joinLines lines ++ '\n' :: (fence ++ tail))) = some (joinLines lines, tail) := by
  have hPrefix : (fence ++ ['\n']).isPrefixOf
      (fence ++ '\n' :: (joinLines lines ++ '\n' :: (fence ++ tail))) = true :=
    List.isPrefixOf_iff_prefix.mpr ⟨joinLines lines ++ '\n' :: (fence ++ tail), by simp⟩
  have hDrop : (fence ++ '\n' :: (joinLines lines ++ '\n' :: (fence ++ tail))).drop 4 =
      joinLines lines ++ '\n' :: (fence ++ tail) := rfl
  rw [fenced, if_pos hPrefix, hDrop]
  exact partition_lines hNew hLines (fun line hLine => not_fence (hDash line hLine)) tail

end Brnrd.Events
