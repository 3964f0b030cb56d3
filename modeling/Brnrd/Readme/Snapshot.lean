import Brnrd.Readme.Agree

/-! A README that the gate accepts is in the snapshot of main, with the fields the
gate has read, on a condition on its values. -/
namespace Brnrd.Readme

open Python

variable {alphabet : Alphabet}

/-- The condition on the values: a value the runtime takes for a list can be read as
one, and the id is the same text for both. -/
def Agrees (content : Text) : Prop :=
  ∀ line ∈ frontLines content, line ≠ [] →
    ListRead (Gate.stripSpaces (partition line).1) (strip (partition line).2.2) ∧
      (Gate.stripSpaces (partition line).1 = keyId → SameText (partition line).2.2)

instance (content : Text) : Decidable (Agrees content) :=
  inferInstanceAs (Decidable (∀ line ∈ frontLines content, line ≠ [] → _ ∧ (_ → _)))

/-- The id, the status and the tense that the gate has read are those of the runtime. -/
def SameFields (values : List (Text × Text)) (data : Data) : Prop :=
  ∀ key ∈ [keyId, keyStatus, keyTense], Entries.get key data = (Entries.get key values).map .text

variable {key line path value folder thread content : Text} {values : List (Text × Text)}

theorem SameFields.set {data : Data} (field : Field) (hKey : key ∉ [keyId, keyStatus, keyTense]) :
    SameFields values (Entries.set key field data) ↔ SameFields values data := by
  refine forall₂_congr fun other hOther => ?_
  have hNe : key ≠ other := by
    rintro rfl
    exact hKey hOther
  rw [Entries.get_set, if_neg hNe]

variable {rest front paths : List Text}

theorem untilFence_eq_some {first : Text} {lines : List Text} :
    untilFence (first :: lines) = some (front, rest) ↔ lines = front ++ fence :: rest ∧ fence ∉ front := by
  unfold untilFence
  rw [List.drop_succ_cons, List.drop_zero]
  constructor
  · intro h
    split at h
    · rename_i hMem
      obtain ⟨rfl, rfl⟩ := Prod.mk.inj (Option.some.inj h)
      have hSplit := (List.takeWhile_append_dropWhile (p := (· ≠ fence)) (l := lines)).symm
      have hNot : fence ∉ lines.takeWhile (· ≠ fence) := fun hIn => by simpa using List.mem_takeWhile_imp hIn
      refine ⟨?_, hNot⟩
      cases hDrop : lines.dropWhile (· ≠ fence) with
      | nil =>
          rw [hDrop, List.append_nil] at hSplit
          exact absurd (hSplit ▸ hMem) hNot
      | cons line later =>
          have hHead := List.head?_dropWhile_not (· ≠ fence) lines
          rw [hDrop] at hHead hSplit
          obtain rfl : line = fence := by simpa using hHead
          exact hSplit
    · cases h
  · rintro ⟨rfl, hNot⟩
    have hAll : ∀ line ∈ front, decide (line ≠ fence) = true :=
      fun line hLine => decide_eq_true fun hSame => hNot (hSame ▸ hLine)
    rw [if_pos (by simp), List.takeWhile_append_of_pos hAll, List.dropWhile_append_of_pos hAll]
    simp

/-- What the gate has seen of a text that it accepts. -/
theorem checkContent_eq_ok (h : Gate.checkContent content folder = .ok values) :
    ∃ front rest, Gate.linesOf content = fence :: (front ++ fence :: rest) ∧ fence ∉ front ∧
      front.foldlM Gate.frontmatterLine [] = .ok values ∧ Gate.requireFields values = .ok () ∧
      Gate.checkHeading rest = .ok () := by
  unfold Gate.checkContent at h
  dsimp only at h
  split at h
  · cases h
  · rename_i hFirst
    obtain ⟨lines, hLines⟩ : ∃ lines, Gate.linesOf content = fence :: lines := by
      cases hAll : Gate.linesOf content with
      | nil => simp [hAll] at hFirst
      | cons first lines =>
          rw [hAll] at hFirst
          exact ⟨lines, by simpa using hFirst⟩
    rw [hLines] at h
    split at h
    · cases h
    · rename_i front rest hUntil
      obtain ⟨rfl, hNot⟩ := untilFence_eq_some.mp hUntil
      obtain ⟨read, hFold, h⟩ := Fallible.peel h
      obtain ⟨⟨⟩, hRequire, h⟩ := Fallible.peel h
      obtain ⟨⟨⟩, hHeading, h⟩ := Fallible.peel h
      obtain rfl : read = values := by
        split at h
        · cases h
        · exact Except.ok.inj h
      exact ⟨front, rest, hLines, hNot, hFold, hRequire, hHeading⟩

/-- Empty lines, then a heading that both readers take. -/
theorem checkHeading_eq_ok (h : Gate.checkHeading rest = .ok ()) :
    ∃ blanks heading later, rest = blanks ++ heading :: later ∧ rest.takeWhile (· = []) = blanks ∧
      ∀ later', ∃ text, headline (blanks ++ heading :: later') = .ok text := by
  unfold Gate.checkHeading at h
  split at h
  · cases h
  · rename_i heading hFind
    obtain ⟨hSome, blanks, later, rfl, hBlanks⟩ := List.find?_eq_some_iff_append.mp hFind
    have hNil : ∀ line ∈ blanks, line = [] := fun line hLine => by simpa using hBlanks line hLine
    split at h
    · cases h
    · rename_i hGood
      simp only [Bool.not_eq_true, Bool.or_eq_false_iff, Bool.not_eq_false', decide_eq_false_iff_not] at hGood
      obtain ⟨⟨hStart, hHash⟩, hRest⟩ := hGood
      refine ⟨blanks, heading, later, rfl, ?_, fun later' => ⟨strip (heading.drop 2), ?_⟩⟩
      · rw [List.takeWhile_append_of_pos fun line hLine => by simp [hNil line hLine]]
        simp at hSome
        simp [hSome]
      · have hSolid : strip heading ≠ [] := by
          obtain ⟨tail, rfl⟩ := List.isPrefixOf_iff_prefix.mp hStart
          exact strip_ne_nil rfl (by decide)
        unfold headline
        rw [List.dropWhile_append_of_pos fun line hLine => by rw [hNil line hLine]; decide,
          List.dropWhile_cons_of_neg (by simpa using hSolid)]
        simp only [hStart, if_true, Bool.not_true, Bool.false_or, Bool.or_eq_true, decide_eq_true_eq, hHash, hRest,
          or_self, if_false]

/-- The runtime sees the same front matter, and a heading that it takes. -/
theorem parse_accepted (alphabet : Alphabet) (h : Gate.checkContent content folder = .ok values)
    (hPlain : PlainLines content) :
    ∃ front heading, frontLines content = front ∧ front.foldlM Gate.frontmatterLine [] = .ok values ∧
      Gate.requireFields values = .ok () ∧
      parseReadme alphabet content = (do
        let data ← front.foldlM (readLine alphabet) []
        require_ data
        .ok (Entries.set "headline".toList (.text heading) data)) := by
  obtain ⟨front, rest, hLines, hNot, hFold, hRequire, hHeading⟩ := checkContent_eq_ok h
  obtain ⟨blanks, heading, later, rfl, hBlanks, hHeadline⟩ := checkHeading_eq_ok hHeading
  have hUntil : untilFence (Gate.linesOf content) = some (front, blanks ++ heading :: later) := by
    rw [hLines]
    exact untilFence_eq_some.mpr ⟨rfl, hNot⟩
  have hCount : linesRead content = front.length + blanks.length + 3 := by
    simp only [linesRead, hUntil, hBlanks]
  have hPrefix : Gate.linesOf content = (fence :: (front ++ fence :: (blanks ++ [heading]))) ++ later := by
    rw [hLines]
    simp
  have hLength : (fence :: (front ++ fence :: (blanks ++ [heading]))).length = linesRead content := by
    rw [hCount]
    simp only [List.length_cons, List.length_append, List.length_nil]
    omega
  have hTake := same_lines hPlain (by rw [hPrefix, List.length_append, hLength]; omega)
  rw [hPrefix, ← hLength, List.take_left] at hTake
  have hSeen : splitlines content = fence :: (front ++ fence :: (blanks ++ heading ::
      (splitlines content).drop (linesRead content))) := by
    conv_lhs => rw [← List.take_append_drop (linesRead content) (splitlines content), ← hLength, hTake]
    simp [hLength]
  obtain ⟨text, hText⟩ := hHeadline ((splitlines content).drop (linesRead content))
  refine ⟨front, text, by rw [frontLines, hUntil]; rfl, hFold, hRequire, ?_⟩
  have hUntil' : ∀ rest, untilFence (fence :: (front ++ fence :: rest)) = some (front, rest) :=
    fun _ => untilFence_eq_some.mpr ⟨rfl, hNot⟩
  rw [parseReadme, hSeen]
  unfold parseLines
  simp only [List.head?_cons, ne_eq, not_true, if_false, hUntil', hText]
  rfl

/-- A line that the gate has read is a line of the values. -/
theorem line_entry (hFold : front.foldlM Gate.frontmatterLine [] = .ok values) (hLine : line ∈ front) (hSome : line ≠ []) :
    ∃ key value, Gate.readEntry line = some (some (key, value)) ∧ Entries.get key values = some value := by
  obtain ⟨hAll, hValues, hDistinct⟩ := (Entries.foldlM_eq_ok Gate.fills front (by simp)).mp hFold
  obtain ⟨entry, hEntry⟩ := Option.isSome_iff_exists.mp (hAll line hLine)
  cases entry with
  | none => exact absurd (readEntry_of_none hEntry) hSome
  | some item =>
      refine ⟨item.1, item.2, hEntry, (Entries.get_eq_some hDistinct).mpr ?_⟩
      rw [hValues, List.nil_append]
      exact List.mem_filterMap.mpr ⟨line, hLine, by rw [hEntry]; rfl⟩

theorem value_line (hFold : front.foldlM Gate.frontmatterLine [] = .ok values) (hGet : Entries.get key values = some value) :
    ∃ line ∈ front, Gate.readEntry line = some (some (key, value)) := by
  obtain ⟨-, rfl, -⟩ := (Entries.foldlM_eq_ok Gate.fills front (by simp)).mp hFold
  obtain ⟨line, hLine, hJoin⟩ := List.mem_filterMap.mp (Entries.mem_of_get hGet)
  exact ⟨line, hLine, Option.join_eq_some_iff.mp hJoin⟩

/-- The runtime's dictionary has, for a line the gate has read, its own reading of
the value. -/
theorem line_field {data : Data} (hFold : front.foldlM (readLine alphabet) [] = .ok data) (hLine : line ∈ front)
    (hEntry : Gate.readEntry line = some (some (key, value))) :
    ∃ field, fieldOf key (strip (partition line).2.2) = .ok field ∧ Entries.get key data = some field := by
  obtain ⟨hAll, hData, hDistinct⟩ := (Entries.foldlM_eq_ok fills front (by simp)).mp hFold
  obtain ⟨-, -, -, hRead⟩ := readEntry_of_gate alphabet hEntry
  obtain ⟨entry, hSome⟩ := Option.isSome_iff_exists.mp (hAll line hLine)
  obtain ⟨field, hField, rfl⟩ := (hRead entry).mp hSome
  refine ⟨field, hField, (Entries.get_eq_some hDistinct).mpr ?_⟩
  rw [hData, List.nil_append]
  exact List.mem_filterMap.mpr ⟨line, hLine, by rw [hSome]; rfl⟩

/-- The loop of the runtime ends well where it can read each value. -/
theorem front_isOk (hFold : front.foldlM Gate.frontmatterLine [] = .ok values) :
    (∃ data, front.foldlM (readLine alphabet) [] = .ok data) ↔
      ∀ line ∈ front, line ≠ [] → ListRead (Gate.stripSpaces (partition line).1) (strip (partition line).2.2) := by
  constructor
  · rintro ⟨data, hData⟩ line hLine hSome
    obtain ⟨key, value, hEntry, -⟩ := line_entry hFold hLine hSome
    obtain ⟨field, hField, -⟩ := line_field hData hLine hEntry
    obtain ⟨-, rfl, hValue, -⟩ := readEntry_of_gate alphabet hEntry
    exact (fieldOf_isOk hValue).mp ⟨field, hField⟩
  · intro hRead
    have hEach : ∀ line ∈ front, ∃ entry, readEntry alphabet line = some entry ∧
        entry.map Prod.fst = (Gate.readEntry line).join.map Prod.fst := by
      intro line hLine
      by_cases hNil : line = []
      · subst hNil
        exact ⟨none, rfl, rfl⟩
      · obtain ⟨key, value, hEntry, -⟩ := line_entry hFold hLine hNil
        obtain ⟨-, rfl, hValue, hRuntime⟩ := readEntry_of_gate alphabet hEntry
        obtain ⟨field, hField⟩ := (fieldOf_isOk hValue).mpr (hRead line hLine hNil)
        exact ⟨_, (hRuntime _).mpr ⟨field, hField, rfl⟩, by rw [hEntry]; rfl⟩
    obtain ⟨-, hValues, hDistinct⟩ := (Entries.foldlM_eq_ok Gate.fills front (by simp)).mp hFold
    refine ⟨_, (Entries.foldlM_eq_ok fills front (by simp)).mpr ⟨fun line hLine => ?_, rfl, ?_⟩⟩
    · obtain ⟨entry, hEntry, -⟩ := hEach line hLine
      rw [hEntry]
      rfl
    · have hKeys : (front.filterMap fun line => (readEntry alphabet line).join).map Prod.fst = values.map Prod.fst := by
        rw [hValues, List.nil_append, List.map_filterMap, List.map_filterMap]
        refine List.filterMap_congr fun line hLine => ?_
        obtain ⟨entry, hEntry, hSame⟩ := hEach line hLine
        rw [hEntry]
        exact hSame
      rw [List.nil_append, hKeys]
      exact hDistinct

theorem requireField_eq_ok {options : Option (List Text)} (h : Gate.requireField values key options = .ok ()) :
    ∃ value, Entries.get key values = some value ∧ value ≠ [] ∧ ∀ l, options = some l → value ∈ l := by
  unfold Gate.requireField at h
  dsimp only at h
  split at h
  · cases h
  · rename_i hSome
    split at h
    · cases h
    · rename_i hOptions
      cases hGet : Entries.get key values with
      | none => simp [hGet] at hSome
      | some value =>
          rw [hGet] at hSome hOptions
          refine ⟨value, rfl, hSome, ?_⟩
          rintro l rfl
          simpa using hOptions

/-- The fields of an accepted README: an id, one of the statuses and one of the tenses. -/
theorem requireFields_eq_ok (h : Gate.requireFields values = .ok ()) :
    ∃ ident status tense, Entries.get keyId values = some ident ∧ Entries.get keyStatus values = some status ∧
      Entries.get keyTense values = some tense ∧ ident ≠ [] ∧ status ∈ statuses ∧ tense ∈ tenses ∧
      (tense = "reference".toList → status = "settled".toList) := by
  obtain ⟨⟨⟩, hId, h⟩ := Fallible.peel h
  obtain ⟨⟨⟩, hStatus, h⟩ := Fallible.peel h
  obtain ⟨⟨⟩, hTense, h⟩ := Fallible.peel h
  obtain ⟨ident, hGetId, hIdent, -⟩ := requireField_eq_ok hId
  obtain ⟨status, hGetStatus, -, hStatuses⟩ := requireField_eq_ok hStatus
  obtain ⟨tense, hGetTense, -, hTenses⟩ := requireField_eq_ok hTense
  refine ⟨ident, status, tense, hGetId, hGetStatus, hGetTense, hIdent, hStatuses _ rfl, hTenses _ rfl, ?_⟩
  rintro rfl
  rw [hGetStatus, hGetTense] at h
  by_contra hNot
  simp at h
  exact hNot h

theorem option_plain (h : value ∈ statuses ++ tenses) : strip value = value ∧ value.head? ≠ some '[' := by
  revert value
  decide

/-- `_require` takes the fields that the gate has required. -/
theorem require_same {data : Data} (h : Gate.requireFields values = .ok ()) (hSame : SameFields values data) :
    require_ data = .ok () := by
  obtain ⟨ident, status, tense, hId, hStatus, hTense, hIdent, hStatuses, hTenses, hReference⟩ := requireFields_eq_ok h
  have hRequired : ∀ {key value : Text}, key ∈ [keyId, keyStatus, keyTense] → Entries.get key values = some value →
      value ≠ [] → required data key = .ok value := by
    intro key value hKey hGet hValue
    have hField := hSame key hKey
    rw [hGet] at hField
    simp [required, hField, hValue]
  have hNonempty : ∀ value ∈ statuses ++ tenses, value ≠ [] := by decide
  unfold require_
  rw [hRequired (by simp) hId hIdent,
    hRequired (by simp) hStatus (hNonempty _ (List.mem_append_left _ hStatuses)),
    hRequired (by simp) hTense (hNonempty _ (List.mem_append_right _ hTenses))]
  simp only [Fallible.ok_bind, hStatuses, hTenses, not_true, if_false]
  rw [if_neg fun hBad => hBad.2 (hReference hBad.1)]

/-- Where the runtime reads an accepted README as the gate does. -/
theorem parse_iff (alphabet : Alphabet) (h : Gate.checkContent content folder = .ok values) (hPlain : PlainLines content) :
    (∃ data, parseReadme alphabet content = .ok data ∧ SameFields values data) ↔ Agrees content := by
  obtain ⟨front, heading, rfl, hFold, hRequire, hParse⟩ := parse_accepted alphabet h hPlain
  have hHeadline : "headline".toList ∉ [keyId, keyStatus, keyTense] := by decide
  rw [hParse]
  constructor
  · rintro ⟨data, hRun, hSame⟩ line hLine hSome
    obtain ⟨read, hData, hRun⟩ := Fallible.peel hRun
    obtain ⟨⟨⟩, -, hRun⟩ := Fallible.peel hRun
    obtain rfl := Except.ok.inj hRun
    refine ⟨(front_isOk hFold).mp ⟨read, hData⟩ line hLine hSome, fun hKey => ?_⟩
    obtain ⟨key, value, hEntry, hGet⟩ := line_entry hFold hLine hSome
    obtain ⟨field, hField, hRead⟩ := line_field hData hLine hEntry
    obtain ⟨-, rfl, hValue, -⟩ := readEntry_of_gate alphabet hEntry
    have hId := (SameFields.set _ hHeadline).mp hSame keyId (by simp)
    rw [hKey] at hGet hRead
    rw [hGet, hRead] at hId
    obtain rfl := Option.some.inj hId
    exact (fieldOf_text hValue).mp hField
  · intro hAgrees
    obtain ⟨data, hData⟩ := (front_isOk hFold).mpr fun line hLine hSome => (hAgrees line hLine hSome).1
    have hText : ∀ {key value : Text}, Entries.get key values = some value →
        key = keyId ∨ strip value = value ∧ value.head? ≠ some '[' → Entries.get key data = some (.text value) := by
      intro key value hGet hCase
      obtain ⟨line, hLine, hEntry⟩ := value_line hFold hGet
      obtain ⟨field, hField, hRead⟩ := line_field hData hLine hEntry
      obtain ⟨hSome, hKey, hValue, -⟩ := readEntry_of_gate alphabet hEntry
      have hSameText : SameText (partition line).2.2 := by
        rcases hCase with hId | ⟨hStrip, hHead⟩
        · exact (hAgrees line hLine hSome).2 (hKey ▸ hId)
        · exact sameText_of_plain hValue hStrip hHead
      rw [(fieldOf_text hValue).mpr hSameText] at hField
      rw [hRead, Except.ok.inj hField]
    have hSame : SameFields values data := by
      obtain ⟨ident, status, tense, hId, hStatus, hTense, -, hStatuses, hTenses, -⟩ := requireFields_eq_ok hRequire
      intro key hKey
      simp only [List.mem_cons, List.not_mem_nil, or_false] at hKey
      rcases hKey with rfl | rfl | rfl
      · rw [hText hId (.inl rfl), hId]
        rfl
      · rw [hText hStatus (.inr (option_plain (List.mem_append_left _ hStatuses))), hStatus]
        rfl
      · rw [hText hTense (.inr (option_plain (List.mem_append_right _ hTenses))), hTense]
        rfl
    refine ⟨Entries.set "headline".toList (.text heading) data, ?_, (SameFields.set _ hHeadline).mpr hSame⟩
    rw [hData, Fallible.ok_bind, require_same hRequire hSame, Fallible.ok_bind]

theorem join_readmePath (folder : Text) :
    ['/'].intercalate ["threads".toList, folder, "README.md".toList] = readmePath folder := by
  have hTop : "threads/".toList = "threads".toList ++ ['/'] := by decide
  have hLast : "/README.md".toList = '/' :: "README.md".toList := by decide
  have hJoin : ∀ top name : Text, ['/'].intercalate [top, folder, name] = (top ++ ['/']) ++ folder ++ '/' :: name := by
    simp [List.intercalate]
  exact (hJoin _ _).trans (congrArg₂ (fun a b => a ++ folder ++ b) hTop hLast).symm

/-- The path of a README that the gate checks is the one the runtime reads. -/
theorem path_of_folderOf (h : Gate.folderOf path = some folder) : path = readmePath folder ∧ threadOf path = some folder := by
  have hWhole : ['/'].intercalate (path.splitOn '/') = path := List.intercalate_splitOn '/'
  unfold Gate.folderOf at h
  unfold threadOf
  generalize path.splitOn '/' = parts at h hWhole
  rcases parts with _ | ⟨top, _ | ⟨name, _ | ⟨last, _ | ⟨more, rest⟩⟩⟩⟩
  · simp at h
  · simp at h
  · simp at h
  · replace h : (if top = "threads".toList ∧ name ≠ [] ∧ last = "README.md".toList then some name else none) =
        some folder := h
    rw [Option.ite_none_right_eq_some] at h
    obtain ⟨⟨hTop, -, hLast⟩, hName⟩ := h
    rw [hTop, hLast, Option.some.inj hName, join_readmePath] at hWhole
    refine ⟨hWhole.symm, ?_⟩
    rw [hLast, Option.some.inj hName]
    exact if_pos rfl
  · simp at h

theorem get_snapshotPath (tree : Tree) (thread : Text) (result : List (Text × Data)) (path : Text) :
    Entries.get thread (snapshotPath alphabet tree result path) =
      if threadOf path = some thread then (readThread alphabet tree thread).or (Entries.get thread result)
      else Entries.get thread result := by
  unfold snapshotPath
  cases hThread : threadOf path with
  | none => simp
  | some other =>
      cases hRead : readThread alphabet tree other with
      | none =>
          by_cases hSame : other = thread
          · subst hSame
            simp [hRead]
          · simp [hRead, hSame]
      | some data =>
          by_cases hSame : other = thread
          · subst hSame
            simp [hRead]
          · simp [hRead, hSame]

variable {tree : Tree}

/-- The snapshot has a thread's README where the tree has its path and it can be read. -/
theorem get_mainSnapshot (hPath : path ∈ tree.paths) (hThread : threadOf path = some thread) :
    Entries.get thread (mainSnapshot alphabet tree) = readThread alphabet tree thread := by
  have hRun : ∀ (paths : List Text) (result : List (Text × Data)),
      Entries.get thread (paths.foldl (snapshotPath alphabet tree) result) =
        if ∃ path ∈ paths, threadOf path = some thread then
          (readThread alphabet tree thread).or (Entries.get thread result)
        else Entries.get thread result := by
    intro paths
    induction paths with
    | nil => simp
    | cons path paths ih =>
        intro result
        rw [List.foldl_cons, ih, get_snapshotPath]
        by_cases hFirst : threadOf path = some thread
        · by_cases hLater : ∃ path ∈ paths, threadOf path = some thread
          · cases readThread alphabet tree thread <;> simp [hFirst, hLater]
          · simp [hFirst, hLater]
        · simp [hFirst]
  rw [mainSnapshot, hRun, if_pos ⟨path, hPath, hThread⟩, Entries.get, Option.or_none]

/-- What `read_thread` adds to the dictionary leaves the three fields alone. -/
theorem readThread_same (hContent : tree.content (readmePath thread) = some content) :
    (∃ data, readThread alphabet tree thread = some data ∧ SameFields values data) ↔
      Project.isThreadId (String.ofList thread) = true ∧
        ∃ data, parseReadme alphabet content = .ok data ∧ SameFields values data := by
  have hUniversal : parseReadme alphabet (universal content) = parseReadme alphabet content := by
    rw [parseReadme, splitlines_universal, parseReadme]
  have hDone : "done".toList ∉ [keyId, keyStatus, keyTense] := by decide
  have hPlan : "plan_rows".toList ∉ [keyId, keyStatus, keyTense] := by decide
  unfold readThread
  rw [hContent]
  dsimp only [Option.bind_some]
  rw [hUniversal]
  by_cases hThread : Project.isThreadId (String.ofList thread) = true
  · cases hParse : parseReadme alphabet content with
    | error why => simp [hThread]
    | ok data =>
        have hSet : SameFields values (Entries.set "plan_rows".toList (.plan (parsePlan (universal content))) data) ↔
            SameFields values data := SameFields.set _ hPlan
        have hSet' := (SameFields.set (.done (parseDone (universal content))) hDone).trans hSet
        simp only [hThread, Bool.not_true, Bool.false_eq_true, if_false, Option.some.injEq, exists_eq_left', true_and,
          Except.ok.injEq]
        exact hSet'
  · simp [hThread]

/-- Where the snapshot of a commit has a README that the gate accepts. -/
theorem snapshot_iff (hGate : Gate.checkContent content folder = .ok values) (hPlain : PlainLines content)
    (hPath : path ∈ tree.paths) (hFolder : Gate.folderOf path = some folder) (hContent : tree.content path = some content) :
    (∃ data, Entries.get folder (mainSnapshot alphabet tree) = some data ∧ SameFields values data) ↔
      Project.isThreadId (String.ofList folder) = true ∧ Agrees content := by
  obtain ⟨rfl, hThread⟩ := path_of_folderOf hFolder
  rw [get_mainSnapshot hPath hThread, readThread_same hContent, parse_iff alphabet hGate hPlain]

/-- On a README that the gate accepts, and whose lines up to the heading only a
newline ends, the runtime reads the same id, status and tense if and only if its
values agree. The snapshot of a commit with it then has it if and only if its folder
is also named as a thread. -/
theorem gate_and_runtime_agree {content folder : Text} {values : List (Text × Text)}
    (hGate : Gate.checkContent content folder = .ok values) (hPlain : PlainLines content) :
    ((∃ data, parseReadme alphabet content = .ok data ∧ SameFields values data) ↔ Agrees content) ∧
      ∀ (tree : Tree) (path : Text), path ∈ tree.paths → Gate.folderOf path = some folder →
        tree.content path = some content →
        ((∃ data, Entries.get folder (mainSnapshot alphabet tree) = some data ∧ SameFields values data) ↔
          Project.isThreadId (String.ofList folder) = true ∧ Agrees content) :=
  ⟨parse_iff alphabet hGate hPlain, fun _ _ hPath hFolder hContent => snapshot_iff hGate hPlain hPath hFolder hContent⟩

/-- A README with an id, a status, a tense and a heading. -/
def readmeOf (ident : Text) : Text :=
  joinLines [fence, "id: ".toList ++ ident, "status: open".toList, "tense: plan".toList, fence, "# Notes".toList]

theorem gate_and_runtime_agree_notes :
    ∃ values data, Gate.checkContent (readmeOf "notes".toList) "notes".toList = .ok values ∧
      Entries.get "notes".toList
        (mainSnapshot asciiOnly ⟨[readmePath "notes".toList], fun _ => some (readmeOf "notes".toList)⟩) = some data ∧
      SameFields values data := by
  obtain ⟨values, hGate⟩ : ∃ values, Gate.checkContent (readmeOf "notes".toList) "notes".toList = .ok values :=
    ⟨_, rfl⟩
  have hAgree := @gate_and_runtime_agree asciiOnly _ _ _ hGate (by decide +kernel)
  obtain ⟨data, hData, hSame⟩ := (hAgree.2 ⟨[readmePath "notes".toList], fun _ => some (readmeOf "notes".toList)⟩
    (readmePath "notes".toList) (by simp) (by decide +kernel) rfl).mpr (by decide +kernel)
  exact ⟨values, data, hGate, hData, hSame⟩

/-- The gate takes an id in brackets for a text, the runtime for a list. -/
theorem bracketed_id_refused : ¬∀ (alphabet : Alphabet) (content folder : Text) (values : List (Text × Text)),
    Gate.checkContent content folder = .ok values →
      ∃ data, parseReadme alphabet content = .ok data ∧ SameFields values data := by
  intro hClaim
  obtain ⟨values, hGate⟩ : ∃ values, Gate.checkContent (readmeOf "[x]".toList) "[x]".toList = .ok values := ⟨_, rfl⟩
  obtain ⟨data, hData, -⟩ := hClaim asciiOnly _ _ values hGate
  have hRefused : (parseReadme asciiOnly (readmeOf "[x]".toList)).isOk = false := by decide +kernel
  rw [hData] at hRefused
  cases hRefused

end Brnrd.Readme
