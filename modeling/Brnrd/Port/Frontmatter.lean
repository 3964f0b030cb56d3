import Brnrd.Monad.Fallible
import Brnrd.Python.Json
import Brnrd.Python.Lines

/-! The front matter of a port file: fields, one a line, and a body. -/
namespace Brnrd.Port

open Python

abbrev Text := List Char

/-- The complaints of the reader: "port file missing frontmatter", "port file
unclosed frontmatter", and "port frontmatter not key: value: " with the line. -/
inductive PortError where
  | missing
  | unclosed
  | notKeyValue (line : Text)
deriving DecidableEq

def quoted (value : Text) : Bool :=
  value.contains '\n' || value.head? = some '"'

/-- `_quote`. -/
def quote (value : Text) : Text :=
  if quoted value then dumps value else value

/-- `_unquote`. -/
def unquote (value : Text) : List Nat :=
  if value.head? = some '"' then (loadsString value).getD (codePoints value) else codePoints value

def fence : Text := "---".toList

def frontLine (field : Text × Text) : Text :=
  field.1 ++ ':' :: ' ' :: quote field.2

/-- `_front`. -/
def front (fields : List (Text × Text)) (body : Text) : Text :=
  joinLines (fence :: (fields.map frontLine ++ [fence])) ++ '\n' ::
    (if body = [] then [] else if body.getLast? = some '\n' then body else body ++ ['\n'])

/-- What stands before and behind the first `sep` of a text. -/
def partition (sep : Text) : Text → Option (Text × Text)
  | [] => if sep = [] then some ([], []) else none
  | c :: rest =>
      if sep.isPrefixOf (c :: rest) then some ([], (c :: rest).drop sep.length)
      else (partition sep rest).map fun cut => (c :: cut.1, cut.2)

/-- The dict that is filled line by line; its values are code points. -/
abbrev Found := List (Text × List Nat)

/-- `found[key] = value`. -/
def put (key : Text) (value : List Nat) : Found → Found
  | [] => [(key, value)]
  | item :: rest => if item.1 = key then (key, value) :: rest else item :: put key value rest

/-- One line of the front matter. -/
def readLine (found : Found) (line : Text) : Except PortError Found :=
  if strip line = [] then .ok found
  else if ':' ∉ line then .error (.notKeyValue line)
  else
    let key := line.takeWhile (· ≠ ':')
    let value := (line.dropWhile (· ≠ ':')).drop 1
    .ok (put (strip key) (unquote (strip value)) found)

def bodyKey : Text := "body".toList

/-- `parse_frontmatter`. -/
def parseFrontmatter (text : Text) : Except PortError Found :=
  if !(fence ++ ['\n']).isPrefixOf text then .error .missing
  else
    match partition ('\n' :: (fence ++ ['\n'])) (text.drop 4) with
    | none => .error .unclosed
    | some (head, tail) => do
        let found ← (splitlines head).foldlM readLine []
        let body := if tail.head? = some '\n' then tail.drop 1 else tail
        return put bodyKey (codePoints (body.rdropWhile (· = '\n'))) found

structure KeyOk (key : Text) : Prop where
  nonempty : key ≠ []
  noColon : ':' ∉ key
  stripped : strip key = key
  oneLine : OneLine key
  notBody : key ≠ bodyKey

/-- The fields the writer is called with. -/
structure FieldsOk (fields : List (Text × Text)) : Prop where
  nonempty : fields ≠ []
  distinct : (fields.map Prod.fst).Nodup
  keys : ∀ field ∈ fields, KeyOk field.1
  values : ∀ field ∈ fields, strip field.2 = field.2

/-- Reading back gives the fields and the body, and no other key. -/
def RoundTrips (fields : List (Text × Text)) (body : Text) : Prop :=
  ∃ found, parseFrontmatter (front fields body) = .ok found ∧
    ∀ key, found.lookup key = if key = bodyKey then some (codePoints body) else (fields.lookup key).map codePoints

theorem lookup_put (key other : Text) (value : List Nat) (found : Found) :
    (put key value found).lookup other = if other = key then some value else found.lookup other := by
  induction found with
  | nil => rw [put, lookup_cons_if, List.lookup_nil]
  | cons item rest ih =>
      obtain ⟨name, old⟩ := item
      by_cases hSame : name = key
      · subst hSame
        rw [put, if_pos rfl, lookup_cons_if, lookup_cons_if]
        by_cases hOther : other = name <;> simp [hOther]
      · rw [put, if_neg hSame, lookup_cons_if, lookup_cons_if, ih]
        by_cases hOther : other = name
        · subst hOther
          simp [hSame]
        · simp [hOther]

theorem unquote_length (value : Text) : (unquote value).length ≤ value.length := by
  unfold unquote
  split
  · cases hLoad : loadsString value with
    | none => simp [codePoints]
    | some points => exact (loadsString_length hLoad).le
  · simp [codePoints]

/-- A value that is its own `strip` comes back from its line. -/
theorem unquote_quote {value : Text} (h : strip value = value) : unquote (strip (quote value)) = codePoints value := by
  unfold quote
  split
  · have hStrip : strip (dumps value) = dumps value := by
      apply strip_eq_self
      · intro c hc
        obtain rfl : '"' = c := by simpa [dumps] using hc
        decide
      · intro c hc
        have hLast : (dumps value).getLast? = some '"' := by
          rw [dumps, ← List.cons_append, List.getLast?_concat]
        obtain rfl : '"' = c := by simpa [hLast] using hc
        decide
    have hHead : (dumps value).head? = some '"' := rfl
    rw [hStrip, unquote, if_pos hHead, loadsString_dumps, Option.getD_some]
  · rename_i hPlain
    have hHead : value.head? ≠ some '"' := by
      intro hHead
      simp [quoted, hHead] at hPlain
    rw [h, unquote, if_neg hHead]

/-- A line that begins with a key sets that key. -/
theorem readLine_key {key : Text} (hKey : KeyOk key) (value : Text) (found : Found) :
    readLine found (key ++ ':' :: ' ' :: value) = .ok (put key (unquote (strip value)) found) := by
  have hSolid : strip (key ++ ':' :: ' ' :: value) ≠ [] := by
    cases hChars : key with
    | nil => exact absurd hChars hKey.nonempty
    | cons c rest =>
        have hHead : (strip key).head? = some c := by rw [hKey.stripped, hChars, List.head?_cons]
        exact strip_ne_nil rfl (head_of_strip hHead)
  have hColon : ':' ∈ key ++ ':' :: ' ' :: value := by simp
  have hAll : ∀ c ∈ key, decide (c ≠ ':') = true := by
    intro c hc
    simpa using fun h : c = ':' => hKey.noColon (h ▸ hc)
  have hTake : (key ++ ':' :: ' ' :: value).takeWhile (· ≠ ':') = key := by
    rw [List.takeWhile_append_of_pos hAll]
    simp
  have hDrop : (key ++ ':' :: ' ' :: value).dropWhile (· ≠ ':') = ':' :: ' ' :: value := by
    rw [List.dropWhile_append_of_pos hAll]
    simp
  rw [readLine, if_neg hSolid, if_neg (not_not.mpr hColon), hTake, hDrop]
  show Except.ok (put (strip key) (unquote (strip (' ' :: value))) found) = _
  rw [hKey.stripped, strip_cons (by decide)]

variable {field : Text × Text}

theorem readLine_frontLine (hKey : KeyOk field.1) (hValue : strip field.2 = field.2) (found : Found) :
    readLine found (frontLine field) = .ok (put field.1 (codePoints field.2) found) := by
  rw [frontLine, readLine_key hKey, unquote_quote hValue]

variable {after fields : List (Text × Text)}

theorem readLines_frontLines (hKeys : ∀ field ∈ fields, KeyOk field.1) (hValues : ∀ field ∈ fields, strip field.2 = field.2)
    (found : Found) :
    (fields.map frontLine).foldlM readLine found =
      .ok (fields.foldl (fun found field => put field.1 (codePoints field.2) found) found) := by
  induction fields generalizing found with
  | nil => rfl
  | cons field fields ih =>
      rw [List.map_cons, List.foldlM_cons, readLine_frontLine (hKeys field (by simp)) (hValues field (by simp))]
      exact ih (fun f hf => hKeys f (List.mem_cons_of_mem _ hf)) (fun f hf => hValues f (List.mem_cons_of_mem _ hf)) _

/-- Distinct fields are found under their keys, whatever their order. -/
theorem lookup_foldl_put (hDistinct : (fields.map Prod.fst).Nodup) (found : Found) (key : Text) :
    (fields.foldl (fun found field => put field.1 (codePoints field.2) found) found).lookup key =
      ((fields.lookup key).map codePoints).or (found.lookup key) := by
  induction fields generalizing found with
  | nil => simp
  | cons field fields ih =>
      obtain ⟨name, value⟩ := field
      rw [List.map_cons, List.nodup_cons] at hDistinct
      rw [List.foldl_cons, ih hDistinct.2, lookup_put, lookup_cons_if]
      by_cases hSame : key = name
      · subst hSame
        have hAbsent : fields.lookup key = none := by
          apply List.lookup_eq_none_iff.mpr
          intro other hOther
          have hName := List.mem_map_of_mem (f := Prod.fst) hOther
          have hNot : key ≠ other.1 := by
            intro h
            rw [← h] at hName
            exact hDistinct.1 hName
          exact bne_iff_ne.mpr hNot
        simp [hAbsent]
      · simp [hSame]

/-- The first fence line behind lines that are none ends the front matter. -/
theorem partition_fence {lines : List Text} (hLines : ∀ line ∈ lines, '\n' ∉ line ∧ ':' ∈ line)
    (hNew : lines ≠ []) (rest : Text) :
    partition ('\n' :: (fence ++ ['\n'])) (joinLines lines ++ '\n' :: (fence ++ '\n' :: rest)) =
      some (joinLines lines, rest) := by
  have hChars : ∀ {line : Text}, '\n' ∉ line → ∀ tail cut,
      partition ('\n' :: (fence ++ ['\n'])) tail = some cut →
      partition ('\n' :: (fence ++ ['\n'])) (line ++ tail) = some (line ++ cut.1, cut.2) := by
    intro line hLine tail cut hTail
    induction line with
    | nil => exact hTail
    | cons c line ih =>
        have hNot : c ≠ '\n' := fun h => hLine (by simp [h])
        have hRest := ih fun h => hLine (List.mem_cons_of_mem _ h)
        simp [partition, List.isPrefixOf, Ne.symm hNot, hRest]
  induction lines with
  | nil => exact absurd rfl hNew
  | cons line lines ih =>
      obtain ⟨hOne, -⟩ := hLines line (by simp)
      cases lines with
      | nil =>
          rw [joinLines_singleton, hChars hOne _ ([], rest)]
          · simp
          · simp [partition, fence]
      | cons next lines =>
          obtain ⟨hNext, hColon⟩ := hLines next (by simp)
          have hRest := ih (fun l hl => hLines l (List.mem_cons_of_mem _ hl)) (by simp)
          rw [joinLines_cons_cons, List.append_assoc, hChars hOne _ ('\n' :: joinLines (next :: lines), rest)]
          rw [List.cons_append, partition, if_neg, hRest]
          · rfl
          -- A fence line has no colon.
          intro hPrefix
          have hStart := (List.cons_prefix_cons.mp (List.isPrefixOf_iff_prefix.mp hPrefix)).2
          obtain ⟨tail, hTail⟩ := joinLines_first next lines (fence ++ '\n' :: rest)
          rw [hTail] at hStart
          have hFence := first_line_unique (by decide) hNext hStart
          rw [← hFence] at hColon
          revert hColon
          decide

/-- What a field's line may hold: no newline, and no boundary at all when the
value is quoted or has none. -/
theorem frontLine_newline (hKey : KeyOk field.1) : '\n' ∉ frontLine field := by
  intro hMem
  simp only [frontLine, List.mem_append, List.mem_cons] at hMem
  rcases hMem with h | h | h | h
  · exact hKey.oneLine.newline h
  · revert h
    decide
  · revert h
    decide
  · unfold quote at h
    split at h
    · have hPrintable := (dumps_printable h).1
      revert hPrintable
      decide
    · rename_i hPlain
      simp [quoted, h] at hPlain

/-- The values that stand on one line. -/
def Contained (value : Text) : Prop :=
  quoted value = true ∨ OneLine value

theorem dumps_oneLine (text : Text) : OneLine (dumps text) := by
  intro c hc
  obtain ⟨hLow, hHigh⟩ := dumps_printable hc
  simp only [isLineBreak, List.contains_eq_mem, decide_eq_false_iff_not, List.mem_cons, List.not_mem_nil, or_false]
  omega

theorem frontLine_oneLine (hKey : KeyOk field.1) (hContained : Contained field.2) : OneLine (frontLine field) := by
  have hQuote : OneLine (quote field.2) := by
    unfold quote
    split
    · exact dumps_oneLine _
    · exact hContained.resolve_left ‹_›
  have hMiddle : OneLine [':', ' '] := by
    intro c hc
    rcases List.mem_cons.mp hc with rfl | hc
    · decide
    · obtain rfl := List.mem_singleton.mp hc
      decide
  have hAll := hKey.oneLine.append (hMiddle.append hQuote)
  exact hAll

theorem FieldsOk.lines (h : FieldsOk fields) : ∀ line ∈ fields.map frontLine, '\n' ∉ line ∧ ':' ∈ line := by
  intro line hLine
  obtain ⟨field, hField, rfl⟩ := List.mem_map.mp hLine
  exact ⟨frontLine_newline (h.keys field hField), by simp [frontLine]⟩

/-- What the reader makes of what the writer wrote, up to the lines of the head. -/
theorem parseFrontmatter_front {body : Text} (h : FieldsOk fields) (hFirst : body.head? ≠ some '\n')
    (hLast : body.getLast? ≠ some '\n') :
    parseFrontmatter (front fields body) =
      ((splitlines (joinLines (fields.map frontLine))).foldlM readLine []).map (put bodyKey (codePoints body)) := by
  have hNew : fields.map frontLine ≠ [] := by
    simpa using h.nonempty
  have hJoin : joinLines (fence :: (fields.map frontLine ++ [fence])) =
      fence ++ '\n' :: (joinLines (fields.map frontLine) ++ '\n' :: fence) := by
    rw [← List.singleton_append, joinLines_append (by simp) (by simp), joinLines_append hNew (by simp),
      joinLines_singleton]
  have hBody : ∀ rest, rest = (if body = [] then [] else if body.getLast? = some '\n' then body else body ++ ['\n']) →
      (if rest.head? = some '\n' then rest.drop 1 else rest).rdropWhile (· = '\n') = body := by
    intro rest hRest
    subst hRest
    by_cases hNil : body = []
    · subst hNil
      simp
    · have hHead : (body ++ ['\n']).head? ≠ some '\n' := by
        rwa [List.head?_append_of_ne_nil _ hNil]
      have hDrop : body.rdropWhile (· = '\n') = body := by
        apply List.rdropWhile_eq_self_iff.mpr
        intro hSome hNewline
        rw [List.getLast?_eq_some_getLast hSome] at hLast
        exact hLast (congrArg some (of_decide_eq_true hNewline))
      rw [if_neg hNil, if_neg hLast, if_neg hHead, List.rdropWhile_concat_pos _ _ _ (by decide), hDrop]
  rw [parseFrontmatter, front, hJoin]
  generalize hTail : (if body = [] then [] else if body.getLast? = some '\n' then body else body ++ ['\n']) = tail
  have hText : fence ++ '\n' :: (joinLines (fields.map frontLine) ++ '\n' :: fence) ++ '\n' :: tail =
      (fence ++ ['\n']) ++ (joinLines (fields.map frontLine) ++ '\n' :: (fence ++ '\n' :: tail)) := by
    simp
  have hPrefix : (fence ++ ['\n']).isPrefixOf
      ((fence ++ ['\n']) ++ (joinLines (fields.map frontLine) ++ '\n' :: (fence ++ '\n' :: tail))) = true :=
    List.isPrefixOf_iff_prefix.mpr (List.prefix_append _ _)
  have hDrop : ((fence ++ ['\n']) ++ (joinLines (fields.map frontLine) ++ '\n' :: (fence ++ '\n' :: tail))).drop 4 =
      joinLines (fields.map frontLine) ++ '\n' :: (fence ++ '\n' :: tail) := rfl
  rw [hText, hPrefix, hDrop, partition_fence h.lines hNew]
  simp only [Bool.not_true, Bool.false_eq_true, if_false, hBody tail hTail.symm]
  cases (splitlines (joinLines (fields.map frontLine))).foldlM readLine [] <;> rfl

/-- The last field that a property fails for. -/
theorem last_failing {α : Type} {P : α → Prop} {l : List α} (h : ¬∀ a ∈ l, P a) :
    ∃ before a after, l = before ++ a :: after ∧ ¬P a ∧ ∀ b ∈ after, P b := by
  induction l with
  | nil => exact absurd nofun h
  | cons a l ih =>
      by_cases hRest : ∀ b ∈ l, P b
      · refine ⟨[], a, l, rfl, fun ha => h ?_, hRest⟩
        intro b hb
        rcases List.mem_cons.mp hb with rfl | hb
        · exact ha
        · exact hRest b hb
      · obtain ⟨before, b, after, rfl, hb, hAfter⟩ := ih hRest
        exact ⟨a :: before, b, after, rfl, hb, hAfter⟩

/-- A field whose value is known to be shorter than it should be. -/
def Short (key : Text) (bound : Nat) (found : Found) : Prop :=
  ∃ value, found.lookup key = some value ∧ value.length < bound

theorem Short.readLine {key line : Text} {bound : Nat} {found found' : Found} (h : Short key bound found)
    (hLine : line.length < bound) (hRead : readLine found line = .ok found') : Short key bound found' := by
  unfold Port.readLine at hRead
  split at hRead
  · cases hRead
    exact h
  split at hRead
  · cases hRead
  cases hRead
  obtain ⟨value, hValue, hBound⟩ := h
  simp only [Short, lookup_put]
  split
  · refine ⟨_, rfl, ?_⟩
    have hDrop := (List.dropWhile_sublist (l := line) fun c => decide (c ≠ ':')).length_le
    have hStrip := strip_length ((line.dropWhile (· ≠ ':')).drop 1)
    have hUnquote := unquote_length (strip ((line.dropWhile (· ≠ ':')).drop 1))
    rw [List.length_drop] at hStrip
    omega
  · exact ⟨value, hValue, hBound⟩

theorem Short.readLines {key : Text} {bound : Nat} {lines : List Text} {found found' : Found}
    (h : Short key bound found) (hLines : ∀ line ∈ lines, line.length < bound)
    (hRead : lines.foldlM Port.readLine found = .ok found') : Short key bound found' := by
  induction lines generalizing found with
  | nil =>
      cases hRead
      exact h
  | cons line lines ih =>
      rw [List.foldlM_cons] at hRead
      obtain ⟨middle, hFirst, hRest⟩ := Fallible.peel hRead
      exact ih (h.readLine (hLines line (by simp)) hFirst) (fun l hl => hLines l (List.mem_cons_of_mem _ hl)) hRest

/-- The lines of a head in which the value of one field has a boundary: that
field's line ends early, and what is cut off makes lines shorter than the value. -/
theorem splitlines_broken (before : List (Text × Text)) (hKey : KeyOk field.1) (hValue : strip field.2 = field.2)
    (hBroken : ¬Contained field.2) (hAfter : ∀ f ∈ after, KeyOk f.1 ∧ Contained f.2) :
    ∃ lines first pieces,
      splitlines (joinLines ((before ++ field :: after).map frontLine)) =
        lines ++ (field.1 ++ ':' :: ' ' :: first) :: (pieces ++ after.map frontLine) ∧
      first.length < field.2.length ∧ ∀ piece ∈ pieces, piece.length < field.2.length := by
  obtain ⟨hPlain, hBreaks⟩ := not_or.mp hBroken
  obtain ⟨first, c, rest, hSplit, hFirst, hBreak⟩ := first_break hBreaks
  have hSome : 0 < first.length := by
    apply List.length_pos_iff.mpr
    intro hNil
    have hHead : (strip field.2).head? = some c := by
      rw [hValue, hSplit, hNil]
      rfl
    have hSpace := head_of_strip hHead
    rw [isSpace_of_isLineBreak hBreak] at hSpace
    cases hSpace
  have hLength : field.2.length = first.length + (rest.length + 1) := by
    rw [hSplit, List.length_append, List.length_cons]
  have hLine : OneLine (field.1 ++ ':' :: ' ' :: first) := by
    have hMiddle : OneLine [':', ' '] := by
      intro d hd
      rcases List.mem_cons.mp hd with rfl | hd
      · decide
      · obtain rfl := List.mem_singleton.mp hd
        decide
    exact hKey.oneLine.append (hMiddle.append hFirst)
  have hText : frontLine field = (field.1 ++ ':' :: ' ' :: first) ++ c :: rest := by
    rw [frontLine, quote, if_neg hPlain, hSplit]
    simp
  -- The lines from the broken field on.
  have hFrom : ∃ pieces, splitlines (joinLines ((field :: after).map frontLine)) =
      (field.1 ++ ':' :: ' ' :: first) :: (pieces ++ after.map frontLine) ∧
      ∀ piece ∈ pieces, piece.length < field.2.length := by
    cases after with
    | nil =>
        refine ⟨splitFrom [] (c = '\r') rest, ?_, fun piece hPiece => ?_⟩
        · rw [List.map_singleton, joinLines_singleton, hText, splitlines_break hLine hBreak]
          simp
        · have hShort := splitFrom_length hPiece
          simp only [List.length_nil] at hShort
          omega
    | cons next after =>
        have hRest : splitlines (joinLines ((next :: after).map frontLine)) = (next :: after).map frontLine := by
          apply splitlines_joinLines
          intro line hMem
          obtain ⟨f, hf, rfl⟩ := List.mem_map.mp hMem
          exact ⟨frontLine_oneLine (hAfter f hf).1 (hAfter f hf).2, by simp [frontLine]⟩
        refine ⟨splitFrom [] (c = '\r') (rest ++ ['\n']), ?_, fun piece hPiece => ?_⟩
        · rw [List.map_cons, List.map_cons, joinLines_cons_cons, ← List.map_cons, hText, List.append_assoc,
            List.cons_append, splitlines_break hLine hBreak, splitFrom_newline, hRest]
        · have hShort := splitFrom_length hPiece
          simp only [List.length_nil, List.length_append, List.length_cons] at hShort
          omega
  obtain ⟨pieces, hPieces, hShort⟩ := hFrom
  by_cases hNil : before = []
  · subst hNil
    exact ⟨[], first, pieces, hPieces, by omega, hShort⟩
  · refine ⟨splitlines (joinLines (before.map frontLine) ++ ['\n']), first, pieces, ?_, by omega, hShort⟩
    rw [List.map_append, joinLines_append (by simpa using hNil) (by simp), splitlines_newline, hPieces]

theorem lookup_of_distinct {before : List (Text × Text)} (h : ((before ++ field :: after).map Prod.fst).Nodup) :
    (before ++ field :: after).lookup field.1 = some field.2 ∧ after.lookup field.1 = none := by
  have hNone : ∀ l : List (Text × Text), field.1 ∉ l.map Prod.fst → l.lookup field.1 = none := by
    intro l hAbsent
    apply List.lookup_eq_none_iff.mpr
    intro other hOther
    have hName := List.mem_map_of_mem (f := Prod.fst) hOther
    have hNot : field.1 ≠ other.1 := by
      intro hSame
      rw [← hSame] at hName
      exact hAbsent hName
    exact bne_iff_ne.mpr hNot
  rw [List.map_append, List.map_cons] at h
  have hApart := (List.nodup_append.mp h).2.2
  have hAfter := (List.nodup_cons.mp (List.nodup_append.mp h).2.1).1
  have hBefore := hNone before fun hMem => hApart _ hMem _ (by simp) rfl
  rw [List.lookup_append, hBefore, Option.none_or, ← Prod.mk.eta (p := field), lookup_cons_if, if_pos rfl]
  exact ⟨rfl, hNone after hAfter⟩

/-- Front matter round trips exactly when every value is written as a JSON
string or has no boundary of a line: `_quote` looks for a newline only, and
`splitlines` ends a line at nine other characters. -/
theorem front_round_trip {fields : List (Text × Text)} {body : Text} (h : FieldsOk fields)
    (hFirst : body.head? ≠ some '\n') (hLast : body.getLast? ≠ some '\n') :
    RoundTrips fields body ↔ ∀ field ∈ fields, quoted field.2 = true ∨ ∀ c ∈ field.2, isLineBreak c = false := by
  constructor
  · intro hTrip
    by_contra hAny
    obtain ⟨before, field, after, rfl, hBroken, hAfter⟩ := last_failing hAny
    have hKey := h.keys field (by simp)
    have hAfterOk : ∀ f ∈ after, KeyOk f.1 ∧ Contained f.2 := fun f hf => ⟨h.keys f (by simp [hf]), hAfter f hf⟩
    obtain ⟨lines, first, pieces, hLines, hShort, hPieces⟩ :=
      splitlines_broken before hKey (h.values field (by simp)) hBroken hAfterOk
    obtain ⟨found, hParse, hFound⟩ := hTrip
    rw [parseFrontmatter_front h hFirst hLast, hLines] at hParse
    obtain ⟨read, hRead, rfl⟩ := Fallible.map_eq_ok.mp hParse
    obtain ⟨early, -, hRest⟩ := Fallible.foldlM_append_eq_ok.mp hRead
    rw [List.foldlM_cons, readLine_key hKey] at hRest
    obtain ⟨late, hPiecesRead, hAfterRead⟩ := Fallible.foldlM_append_eq_ok.mp hRest
    have hCut : Short field.1 field.2.length (put field.1 (unquote (strip first)) early) := by
      refine ⟨_, by rw [lookup_put, if_pos rfl], ?_⟩
      exact ((unquote_length _).trans (strip_length _)).trans_lt hShort
    obtain ⟨value, hValue, hBound⟩ := hCut.readLines hPieces hPiecesRead
    -- The later fields have other keys, so the short value stays.
    rw [readLines_frontLines (fun f hf => (hAfterOk f hf).1) (fun f hf => h.values f (by simp [hf]))] at hAfterRead
    obtain ⟨hHere, hLater⟩ := lookup_of_distinct h.distinct
    have hDistinct : (after.map Prod.fst).Nodup := by
      have hAll := h.distinct
      rw [List.map_append, List.map_cons] at hAll
      exact (List.nodup_cons.mp (List.nodup_append.mp hAll).2.1).2
    have hKept := hFound field.1
    rw [if_neg hKey.notBody, hHere, lookup_put, if_neg hKey.notBody, ← Except.ok.inj hAfterRead,
      lookup_foldl_put hDistinct, hLater, hValue] at hKept
    have hSame : value = codePoints field.2 := by simpa using hKept
    rw [hSame] at hBound
    simp [codePoints] at hBound
  · intro hContained
    have hLines : splitlines (joinLines (fields.map frontLine)) = fields.map frontLine := by
      apply splitlines_joinLines
      intro line hLine
      obtain ⟨field, hField, rfl⟩ := List.mem_map.mp hLine
      exact ⟨frontLine_oneLine (h.keys field hField) (hContained field hField), by simp [frontLine]⟩
    refine ⟨_, by rw [parseFrontmatter_front h hFirst hLast, hLines, readLines_frontLines h.keys h.values]; rfl, ?_⟩
    intro key
    rw [lookup_put, lookup_foldl_put h.distinct]
    simp

/-- A reply whose fields need quotes: one would end its line, one opens with a
quote itself. -/
theorem front_round_trip_reply :
    RoundTrips [("to".toList, "s-1\nre: x".toList), ("re".toList, "\"a\"".toList)] "Done.".toList := by
  have hFields : FieldsOk [("to".toList, "s-1\nre: x".toList), ("re".toList, "\"a\"".toList)] := by
    refine ⟨by decide, by decide, ?_, by decide⟩
    intro field hField
    rcases List.mem_pair.mp hField with rfl | rfl
    · exact ⟨by decide, by decide, by decide, by decide, by decide⟩
    · exact ⟨by decide, by decide, by decide, by decide, by decide⟩
  exact (front_round_trip hFields (by decide) (by decide)).mpr (by decide)

/-- A carriage return in an address adds a field of its own. -/
theorem front_forges_field :
    FieldsOk [("to".toList, "a\rre: b".toList)] ∧
      parseFrontmatter (front [("to".toList, "a\rre: b".toList)] []) =
        .ok [("to".toList, codePoints "a".toList), ("re".toList, codePoints "b".toList), (bodyKey, [])] ∧
      ¬RoundTrips [("to".toList, "a\rre: b".toList)] [] := by
  have hParse : parseFrontmatter (front [("to".toList, "a\rre: b".toList)] []) =
      .ok [("to".toList, codePoints "a".toList), ("re".toList, codePoints "b".toList), (bodyKey, [])] := by
    decide
  refine ⟨⟨by decide, by decide, ?_, by decide⟩, hParse, ?_⟩
  · intro field hField
    obtain rfl := List.mem_singleton.mp hField
    exact ⟨by decide, by decide, by decide, by decide, by decide⟩
  · rintro ⟨found, hFound, hKeys⟩
    rw [hParse] at hFound
    have hRe := hKeys "re".toList
    rw [← Except.ok.inj hFound] at hRe
    revert hRe
    decide

end Brnrd.Port
