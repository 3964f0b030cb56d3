import Brnrd.Readme.Merge
import Brnrd.Readme.Snapshot
import Brnrd.Tables.Patches

/-! What a merge of READMEs keeps: each key merged against the base, and under the
default body every line of both. -/
namespace Brnrd.Readme

open Python

variable {alphabet : Alphabet}

/-- The lines of a README behind its front matter. -/
def proseLines (text : Text) : List Text :=
  ((untilFence (splitlines text)).map Prod.snd).getD []

variable (alphabet) in
/-- A line that stands for a key and its value, with nothing behind it but what ends
lines. -/
def Carries (key : Text) (line : Text) (field : Field) : Prop :=
  ∃ piece, Kept piece line ∧ OneLine piece ∧ readEntry alphabet piece = some (some (key, field))

variable (alphabet) in
/-- The lines of a front matter by their key, beside its data. -/
def Matches (raw : List (Text × Text)) (data : Data) : Prop :=
  ∀ key, Option.Rel (Carries alphabet key) (Entries.get key raw) (Entries.get key data)

variable {key body line path text front piece result : Text}

theorem strip_kept (h : Kept piece line) : strip line = strip piece := by
  obtain ⟨ends, rfl, hEnds⟩ := h
  exact strip_append (a := []) nofun (fun c hc => isSpace_of_isLineBreak (hEnds c hc)) piece

theorem bareLine_kept (h : Kept piece line) (hOne : OneLine piece) : Kept piece (bareLine line) := by
  obtain ⟨ends, rfl, hEnds⟩ := h
  induction ends using List.reverseRecOn with
  | nil =>
      refine ⟨[], ?_, nofun⟩
      rw [List.append_nil, bareLine]
      refine List.rdropWhile_eq_self_iff.mpr fun hNew hEnd => ?_
      have hNot := hOne _ (List.getLast_mem hNew)
      simp only [Bool.or_eq_true, decide_eq_true_eq] at hEnd
      rcases hEnd with hEnd | hEnd <;> rw [hEnd] at hNot <;> revert hNot <;> decide
  | append_singleton ends c ih =>
      rw [bareLine, ← List.append_assoc, List.rdropWhile_concat]
      split
      · exact ih fun d hd => hEnds d (List.mem_append_left _ hd)
      · exact ⟨ends ++ [c], List.append_assoc .., hEnds⟩

/-- The key of a line is in front of what ends it. -/
theorem key_kept (h : Kept piece line) (hColon : ':' ∈ piece) : (partition line).1 = (partition piece).1 := by
  obtain ⟨ends, rfl, -⟩ := h
  simp only [partition]
  rw [List.takeWhile_append, if_neg]
  intro hAll
  have hWhole := (List.takeWhile_prefix _).eq_of_length hAll
  have hMem : ':' ∈ piece.takeWhile (· ≠ ':') := by rwa [hWhole]
  simpa using List.mem_takeWhile_imp hMem

/-- What a line of the front matter is read as. -/
theorem readEntry_cases {entry : Option (Text × Field)} (h : readEntry alphabet piece = some entry) :
    strip piece = [] ∧ entry = none ∨
      ∃ field, entry = some (strip (partition piece).1, field) ∧ strip piece ≠ [] ∧ ':' ∈ piece := by
  unfold readEntry at h
  split at h
  · rename_i hBlank
    exact .inl ⟨hBlank, (Option.some.inj h).symm⟩
  · rename_i hSolid
    split at h
    · cases h
    · rename_i hLine
      split at h
      · cases h
      · split at h
        · rename_i field hField
          refine .inr ⟨field, (Option.some.inj h).symm, hSolid, ?_⟩
          simp only [Bool.or_eq_true, Bool.not_eq_true', not_or, partition] at hLine
          exact List.contains_iff_mem.mp (by simpa using hLine.2)
        · cases h

variable {base data next : Data} {raw : List (Text × Text)}

/-- One line of a front matter, read and kept. -/
theorem Matches.step (h : Matches alphabet raw data) (hKept : Kept piece line) (hOne : OneLine piece)
    (hRead : readLine alphabet data piece = .ok next) :
    Matches alphabet (rawLine raw line) next := by
  rcases (fills _ _ _).mp hRead with ⟨hEntry, rfl⟩ | ⟨key, field, hEntry, -, rfl⟩
  · rcases readEntry_cases hEntry with ⟨hBlank, -⟩ | ⟨_, hSome, -⟩
    · rw [rawLine, if_pos ((strip_kept hKept).trans hBlank)]
      exact h
    · cases hSome
  · rcases readEntry_cases hEntry with ⟨-, hNone⟩ | ⟨_, hSome, hSolid, hColon⟩
    · cases hNone
    · obtain ⟨rfl, rfl⟩ := Prod.mk.inj (Option.some.inj hSome)
      have hLine : rawLine raw line = Entries.set (strip (partition piece).1) (bareLine line) raw := by
        rw [rawLine, if_neg (strip_kept hKept ▸ hSolid), key_kept hKept hColon]
      intro other
      rw [hLine, Entries.get_set, Entries.get_set]
      split
      · rename_i hKey
        exact .some ⟨piece, bareLine_kept hKept hOne, hOne, hKey ▸ hEntry⟩
      · exact h other

variable {rest lines header : List Text}

/-- A front matter that is read is kept by its keys. -/
theorem Matches.run {pieces : List Text} (hKept : List.Forall₂ Kept pieces lines) (hOne : ∀ piece ∈ pieces, OneLine piece)
    (h : Matches alphabet raw data) (hRead : pieces.foldlM (readLine alphabet) data = .ok next) :
    Matches alphabet (lines.foldl rawLine raw) next := by
  induction hKept generalizing raw data with
  | nil =>
      obtain rfl : data = next := Except.ok.inj hRead
      exact h
  | cons hFirst _ ih =>
      rw [List.foldlM_cons, Fallible.bind_eq_ok] at hRead
      obtain ⟨between, hStep, hRest⟩ := hRead
      exact ih (fun piece hPiece => hOne piece (List.mem_cons_of_mem _ hPiece))
        (h.step hFirst (hOne _ List.mem_cons_self) hStep) hRest

/-- A line that the runtime reads is no fence, in white space or not. -/
theorem strip_ne_fence (h : (readEntry alphabet piece).isSome) : strip piece ≠ fence := by
  intro hFence
  obtain ⟨entry, hEntry⟩ := Option.isSome_iff_exists.mp h
  rcases readEntry_cases hEntry with ⟨hBlank, -⟩ | ⟨_, -, -, hColon⟩
  · rw [hBlank] at hFence
    cases hFence
  · obtain ⟨a, b, hPiece, ha, hb⟩ := trim_split isSpace piece
    have hSpace : isSpace ':' = false := by decide
    rw [hPiece, ← strip_eq_trim, hFence] at hColon
    rcases List.mem_append.mp hColon with h | h
    · rw [ha _ h] at hSpace
      cases hSpace
    · rcases List.mem_append.mp h with h | h
      · revert h
        decide
      · rw [hb _ h] at hSpace
        cases hSpace

/-- Up to the fence and behind it, the lines that are kept are those that are read. -/
theorem kept_fence {front : List Text} (h : List.Forall₂ Kept (front ++ fence :: rest) lines)
    (hFront : ∀ line ∈ front, strip line ≠ fence) :
    List.Forall₂ Kept front (lines.takeWhile (strip · ≠ fence)) ∧
      (lines.dropWhile (strip · ≠ fence)).drop 1 = lines.drop (front.length + 1) := by
  have hSelf : strip fence = fence := by decide
  induction front generalizing lines with
  | nil =>
      obtain ⟨line, later, hKept, -, rfl⟩ := List.forall₂_cons_left_iff.mp h
      have hEnd : strip line = fence := (strip_kept hKept).trans hSelf
      simp [hEnd]
  | cons first front ih =>
      obtain ⟨line, later, hKept, hLater, rfl⟩ := List.forall₂_cons_left_iff.mp h
      have hGo : strip line ≠ fence := strip_kept hKept ▸ hFront first List.mem_cons_self
      obtain ⟨hTake, hDrop⟩ := ih hLater fun other hOther => hFront other (List.mem_cons_of_mem _ hOther)
      rw [List.takeWhile_cons_of_pos (by simpa using hGo), List.dropWhile_cons_of_pos (by simpa using hGo)]
      exact ⟨.cons hKept hTake, hDrop⟩

/-- What a README that can be read is made of. -/
theorem parse_cases (h : parseReadme alphabet text = .ok data) :
    ∃ front rest heading entries, splitlines text = fence :: (front ++ fence :: rest) ∧ fence ∉ front ∧ rest ≠ [] ∧
      front.foldlM (readLine alphabet) [] = .ok entries ∧
      data = Entries.set "headline".toList (.text heading) entries := by
  rw [parseReadme, parseLines] at h
  split at h
  · cases h
  · rename_i hFirst
    obtain ⟨later, hLines⟩ : ∃ later, splitlines text = fence :: later := by
      cases hLines : splitlines text with
      | nil => simp [hLines] at hFirst
      | cons line later => exact ⟨later, by simp_all⟩
    split at h
    · cases h
    · rename_i front rest hFence
      rw [hLines] at hFence
      obtain ⟨rfl, hNot⟩ := untilFence_eq_some.mp hFence
      obtain ⟨entries, hRead, h⟩ := Fallible.peel h
      obtain ⟨-, -, h⟩ := Fallible.peel h
      obtain ⟨heading, hHeading, h⟩ := Fallible.peel h
      refine ⟨front, rest, heading, entries, hLines, hNot, ?_, hRead, (Except.ok.inj h).symm⟩
      rintro rfl
      cases hHeading

variable {ours parts theirs : Parts}

theorem partsOf_cases (h : partsOf alphabet text = .ok parts) :
    ∃ heading entries, parts.data = Entries.set "headline".toList (.text heading) entries ∧
      Matches alphabet parts.raw entries ∧ splitlines parts.body = proseLines text ∧ proseLines text ≠ [] := by
  obtain ⟨data, hData, h⟩ := Fallible.peel h
  obtain rfl := Except.ok.inj h
  obtain ⟨front, rest, heading, entries, hLines, hNot, hNew, hRead, rfl⟩ := parse_cases hData
  have hProse : proseLines text = rest := by
    rw [proseLines, hLines, untilFence_eq_some.mpr ⟨rfl, hNot⟩]
    rfl
  have hAll := ((Entries.foldlM_eq_ok fills front (by simp)).mp hRead).1
  have hKept : List.Forall₂ Kept (front ++ fence :: rest) ((keptFrom [] text).drop 1) := by
    have hDrop := List.forall₂_drop 1 (keptFrom_pieces [] text)
    rwa [show splitFrom [] false text = fence :: (front ++ fence :: rest) from hLines] at hDrop
  obtain ⟨hTake, hBehind⟩ := kept_fence hKept fun line hLine => strip_ne_fence (hAll line hLine)
  refine ⟨heading, entries, rfl, ?_, ?_, hProse ▸ hNew⟩
  · refine Matches.run hTake (fun piece hPiece => splitlines_pieces text piece ?_) (fun _ => .none) hRead
    rw [hLines]
    exact List.mem_cons_of_mem _ (List.mem_append_left _ hPiece)
  · obtain ⟨tail, hTail, hRest⟩ := lines_drop (front.length + 2) text
    rw [hProse, hBehind, List.drop_drop, Nat.add_comm 1, hTail, flatten_keptFrom, List.nil_append, ← hRest, hLines]
    simp

variable (alphabet) in
/-- The keys and values that lines are read as. -/
def readAll (lines : List Text) : Data :=
  lines.filterMap fun line => (readEntry alphabet line).join

theorem readAll_append (a b : List Text) : readAll alphabet (a ++ b) = readAll alphabet a ++ readAll alphabet b :=
  List.filterMap_append ..

theorem readAll_blanks {blanks : List Text} (h : ∀ line ∈ blanks, line = []) : readAll alphabet blanks = [] := by
  refine List.filterMap_eq_nil_iff.mpr fun line hLine => ?_
  rw [h line hLine]
  rfl

/-- A line with what ends it is read as its key and its value, and nothing more. -/
theorem read_carried {field : Field} (h : Carries alphabet key line field) (tail : Text) :
    ∃ front, splitlines (line ++ '\n' :: tail) = front ++ splitlines tail ∧
      readAll alphabet front = [(key, field)] ∧ fence ∉ front := by
  obtain ⟨piece, ⟨ends, rfl, hEnds⟩, hOne, hRead⟩ := h
  obtain ⟨blanks, hLines, hBlank⟩ := splitlines_ends hOne hEnds tail
  refine ⟨piece :: blanks, hLines, ?_, fun hMem => ?_⟩
  · rw [← List.singleton_append, readAll_append, readAll_blanks hBlank]
    simp [readAll, hRead]
  · have hSelf : strip fence = fence := by decide
    rcases List.mem_cons.mp hMem with hPiece | hMem
    · exact strip_ne_fence (by rw [hRead]; rfl) (by rw [← hPiece, hSelf])
    · cases hBlank _ hMem

/-- The lines that are chosen for some keys are read as the values beside them. -/
theorem read_lines {choose : Text → Option Text} {value : Text → Option Field}
    (h : ∀ key, Option.Rel (Carries alphabet key) (choose key) (value key)) (keys : List Text) (tail : Text) :
    ∃ front, splitlines ((keys.filterMap choose).flatMap (· ++ ['\n']) ++ tail) = front ++ splitlines tail ∧
      readAll alphabet front = keys.filterMap (fun key => (value key).map (key, ·)) ∧ fence ∉ front := by
  induction keys with
  | nil => exact ⟨[], rfl, rfl, by simp⟩
  | cons key keys ih =>
      obtain ⟨later, hLater, hRead, hNot⟩ := ih
      have hKey := h key
      cases hLine : choose key with
      | none =>
          rw [hLine] at hKey
          cases hValue : value key with
          | some field => rw [hValue] at hKey; cases hKey
          | none => exact ⟨later, by simpa [hLine] using hLater, by simpa [hValue] using hRead, hNot⟩
      | some line =>
          rw [hLine] at hKey
          cases hValue : value key with
          | none => rw [hValue] at hKey; cases hKey
          | some field =>
              rw [hValue] at hKey
              cases hKey with
              | some hCarries =>
                  obtain ⟨first, hFirst, hReadFirst, hNotFirst⟩ :=
                    read_carried hCarries ((keys.filterMap choose).flatMap (· ++ ['\n']) ++ tail)
                  refine ⟨first ++ later, ?_, ?_, ?_⟩
                  · rw [List.append_assoc, ← hLater, ← hFirst]
                    simp [hLine]
                  · rw [readAll_append, hReadFirst, hRead]
                    simp [hValue]
                  · simp [hNotFirst, hNot]

theorem joinLines_end (h : lines ≠ []) : joinLines lines ++ ['\n'] = lines.flatMap (· ++ ['\n']) := by
  induction lines with
  | nil => exact absurd rfl h
  | cons line lines ih =>
      cases lines with
      | nil => simp
      | cons next lines =>
          rw [joinLines_cons_cons, List.append_assoc, List.cons_append, ih (by simp), List.flatMap_cons]
          simp

/-- The line that the merge takes for a key. -/
def chosenLine (base : Data) (ours theirs : Parts) (key : Text) : Option Text :=
  Entries.get key
    (if Entries.get key ours.data = Entries.get key base ∧ Entries.get key theirs.data ≠ Entries.get key base then
      theirs.raw else ours.raw)

theorem headerLine_eq_some {next : List Text} :
    headerLine base ours theirs header key = some next ↔
      (ThreeWay.merged (Entries.get key base) (Entries.get key ours.data) (Entries.get key theirs.data) = none →
        key = keyStatus) ∧ next = header ++ (chosenLine base ours theirs key).toList := by
  unfold headerLine
  dsimp only
  rw [ThreeWay.merged_eq_none]
  split
  · rename_i hStop
    refine iff_of_false (by simp) fun h => hStop.2.2.2 (h.1 ⟨hStop.1, hStop.2.1, hStop.2.2.1⟩)
  · rename_i hGo
    rw [Option.some.injEq]
    refine ⟨fun h => ⟨fun hConflict => ?_, h.symm⟩, fun h => h.2.symm⟩
    by_contra hKey
    exact hGo ⟨hConflict.1, hConflict.2.1, hConflict.2.2, hKey⟩

theorem header_eq_some {next : List Text} {keys : List Text} :
    keys.foldlM (headerLine base ours theirs) header = some next ↔
      (∀ key ∈ keys, ThreeWay.merged (Entries.get key base) (Entries.get key ours.data) (Entries.get key theirs.data) = none →
        key = keyStatus) ∧ next = header ++ keys.filterMap (chosenLine base ours theirs) := by
  induction keys generalizing header with
  | nil => simp [eq_comm]
  | cons key keys ih =>
      rw [List.foldlM_cons, Option.bind_eq_bind, Option.bind_eq_some_iff]
      constructor
      · rintro ⟨between, hFirst, hRest⟩
        obtain ⟨hKey, rfl⟩ := headerLine_eq_some.mp hFirst
        obtain ⟨hKeys, rfl⟩ := ih.mp hRest
        refine ⟨fun other hOther => ?_, ?_⟩
        · rcases List.mem_cons.mp hOther with rfl | hOther
          · exact hKey
          · exact hKeys other hOther
        · cases hLine : chosenLine base ours theirs key <;> simp [hLine]
      · rintro ⟨hKeys, rfl⟩
        refine ⟨_, headerLine_eq_some.mpr ⟨hKeys key List.mem_cons_self, rfl⟩,
          ih.mpr ⟨fun other hOther => hKeys other (List.mem_cons_of_mem _ hOther), ?_⟩⟩
        cases hLine : chosenLine base ours theirs key <;> simp [hLine]

theorem get_chosen {value : Text → Option Field} (key : Text) (keys : List Text) :
    Entries.get key (keys.filterMap fun key => (value key).map (key, ·)) = if key ∈ keys then value key else none := by
  induction keys with
  | nil => rfl
  | cons other keys ih =>
      by_cases hSame : other = key
      · subst hSame
        cases hValue : value other with
        | none =>
            rw [List.filterMap_cons_none (by rw [hValue]; rfl), ih, if_pos List.mem_cons_self, hValue]
            exact ite_self none
        | some field =>
            rw [List.filterMap_cons_some (by rw [hValue]; rfl), Entries.get, if_pos rfl, if_pos List.mem_cons_self]
      · have hMem : key ∈ other :: keys ↔ key ∈ keys := by simp [Ne.symm hSame]
        simp only [hMem]
        cases hValue : value other with
        | none => rw [List.filterMap_cons_none (by rw [hValue]; rfl), ih]
        | some field => rw [List.filterMap_cons_some (by rw [hValue]; rfl), Entries.get, if_neg hSame, ih]

/-- A line of a text that a newline ends. -/
theorem splitlines_line (h : OneLine line) (rest : Text) :
    splitlines (line ++ '\n' :: rest) = line :: splitlines rest :=
  splitlines_break h (by decide)

theorem Matches.none_iff (h : Matches alphabet raw data) (key : Text) :
    Entries.get key raw = none ↔ Entries.get key data = none := by
  have hKey := h key
  generalize Entries.get key raw = line at hKey ⊢
  generalize Entries.get key data = field at hKey ⊢
  cases hKey <;> simp

/-- The front matter of the merge is read as the values of the sides it is taken from,
and no key of it is in conflict but for the status. -/
theorem mergeFront_read {ourEntries theirEntries : Data} (hOurs : Matches alphabet ours.raw ourEntries)
    (hTheirs : Matches alphabet theirs.raw theirEntries) (h : mergeFront base ours theirs = some front) (body : Text) :
    (∃ lines, splitlines (front ++ body) = fence :: (lines ++ fence :: splitlines body) ∧ fence ∉ lines ∧
      ∀ key, Entries.get key (readAll alphabet lines) = Entries.get key
        (if Entries.get key ours.data = Entries.get key base ∧ Entries.get key theirs.data ≠ Entries.get key base then
          theirEntries else ourEntries)) ∧
      ∀ key, (Entries.get key ourEntries).isSome ∨ (Entries.get key theirEntries).isSome →
        ThreeWay.merged (Entries.get key base) (Entries.get key ours.data) (Entries.get key theirs.data) = none →
        key = keyStatus := by
  obtain ⟨header, hHeader, rfl⟩ := Option.map_eq_some_iff.mp h
  obtain ⟨hKeys, rfl⟩ := header_eq_some.mp hHeader
  have hMem : ∀ key, key ∈ ((ours.raw ++ theirs.raw).map Prod.fst).eraseDups ↔
      (Entries.get key ourEntries).isSome ∨ (Entries.get key theirEntries).isSome := by
    intro key
    rw [List.mem_eraseDups, List.map_append, List.mem_append]
    rw [← not_iff_not, not_or, not_or, ← Entries.get_eq_none, ← Entries.get_eq_none, hOurs.none_iff, hTheirs.none_iff]
    simp
  refine ⟨?_, fun key hKey => hKeys key ((hMem key).mpr hKey)⟩
  generalize hAll : ((ours.raw ++ theirs.raw).map Prod.fst).eraseDups = keys at hMem
  have hRel : ∀ key, Option.Rel (Carries alphabet key) (chosenLine base ours theirs key) (Entries.get key
      (if Entries.get key ours.data = Entries.get key base ∧ Entries.get key theirs.data ≠ Entries.get key base then
        theirEntries else ourEntries)) := by
    intro key
    unfold chosenLine
    split
    · exact hTheirs key
    · exact hOurs key
  obtain ⟨lines, hLines, hRead, hNot⟩ := read_lines hRel keys (fence ++ '\n' :: body)
  have hOne : OneLine fence := by decide
  refine ⟨lines, ?_, hNot, fun key => ?_⟩
  · rw [joinLines_end (by simp), List.flatMap_append, List.singleton_append, List.flatMap_cons]
    rw [show (fence ++ ['\n'] ++ (keys.filterMap (chosenLine base ours theirs)).flatMap (· ++ ['\n']) ++
      [fence].flatMap (· ++ ['\n'])) ++ body = fence ++ '\n' :: ((keys.filterMap (chosenLine base ours theirs)).flatMap
        (· ++ ['\n']) ++ (fence ++ '\n' :: body)) by simp]
    rw [splitlines_line hOne, hLines, splitlines_line hOne]
  · rw [hRead, get_chosen]
    split
    · rfl
    · rename_i hKey
      obtain ⟨hOurKey, hTheirKey⟩ := not_or.mp fun h => hKey ((hMem key).mpr h)
      split
      · exact (Option.not_isSome_iff_eq_none.mp hTheirKey).symm
      · exact (Option.not_isSome_iff_eq_none.mp hOurKey).symm

variable (alphabet) in
/-- The data of a text, none where it is no README. -/
def dataOf (text : Text) : Data :=
  ((parseReadme alphabet text).toOption).getD []

theorem partsOf_data (text : Text) :
    (match partsOf alphabet text with
      | .ok parts => parts.data
      | .error _ => []) = dataOf alphabet text := by
  unfold partsOf dataOf
  cases parseReadme alphabet text <;> rfl

variable {answer : Text → Option Text}

/-- What is written is made of two READMEs, and is one of the folder. -/
theorem mergeText_cases {disk : Disk} {base ours theirs before left right : Text} (hBase : disk base = some before)
    (hOurs : disk ours = some left) (hTheirs : disk theirs = some right)
    (h : mergeText alphabet disk body answer base ours theirs path = some result) :
    ∃ our their front, partsOf alphabet (universal left) = .ok our ∧ partsOf alphabet (universal right) = .ok their ∧
      mergeFront (dataOf alphabet (universal before)) our their = some front ∧
      mergeBody alphabet body answer front our their path = some result ∧ acceptable alphabet result path = true := by
  unfold mergeText at h
  rw [hBase, hOurs, hTheirs] at h
  simp only [Option.map_some, Option.bind_eq_bind, Option.bind_some] at h
  obtain ⟨our, hOur, h⟩ := Option.bind_eq_some_iff.mp h
  obtain ⟨their, hTheir, h⟩ := Option.bind_eq_some_iff.mp h
  obtain ⟨front, hFront, h⟩ := Option.bind_eq_some_iff.mp h
  obtain ⟨text, hText, h⟩ := Option.bind_eq_some_iff.mp h
  have hOk : ∀ {t : Text} {parts : Parts}, (partsOf alphabet t).toOption = some parts → partsOf alphabet t = .ok parts := by
    intro t parts hSome
    cases hParts : partsOf alphabet t with
    | error why => rw [hParts] at hSome; cases hSome
    | ok found => rw [hParts] at hSome; rw [Option.some.inj hSome]
  split at h
  · rename_i hAccept
    obtain rfl := Option.some.inj h
    refine ⟨our, their, front, hOk hOur, hOk hTheir, ?_, hText, hAccept⟩
    rw [← partsOf_data]
    exact hFront
  · cases h

theorem partsOf_parse (h : partsOf alphabet text = .ok parts) : parseReadme alphabet text = .ok parts.data := by
  obtain ⟨data, hData, h⟩ := Fallible.peel h
  obtain rfl := Except.ok.inj h
  exact hData

theorem acceptable_iff : acceptable alphabet text path = true ↔
    ∃ data, parseReadme alphabet text = .ok data ∧ Entries.get keyId data = some (.text (folderName path)) := by
  unfold acceptable
  cases parseReadme alphabet text <;> simp

/-- The front matter stands first, and the default body puts both proses behind it. -/
theorem mergeBody_cases (h : mergeBody alphabet body answer front ours theirs path = some result) :
    ∃ prose, result = front ++ prose ∧ (body = [] ∨ body = "fake".toList → prose = fakeMerge ours.body theirs.body) := by
  unfold mergeBody at h
  split at h
  · exact ⟨_, (Option.some.inj h).symm, fun _ => rfl⟩
  · rename_i hOther
    refine Exists.imp (fun prose hProse => ⟨hProse, fun hFake => absurd hFake hOther⟩) ?_
    split at h
    · split at h
      · cases h
      · split at h
        · cases h
        · obtain ⟨found, -, hFound⟩ := Option.map_eq_some_iff.mp h
          exact ⟨found.body, hFound.symm⟩
    · cases h

/-- A README behind a front matter that is known. -/
theorem parse_front (h : parseReadme alphabet text = .ok data)
    (hLines : splitlines text = fence :: (lines ++ fence :: rest)) (hNot : fence ∉ lines) :
    proseLines text = rest ∧ ∀ key, key ≠ "headline".toList →
      Entries.get key data = Entries.get key (readAll alphabet lines) := by
  obtain ⟨front, later, heading, entries, hSame, hFence, -, hRead, rfl⟩ := parse_cases h
  obtain ⟨rfl, rfl⟩ : front = lines ∧ later = rest := by
    have hLeft : untilFence (splitlines text) = some (front, later) := by
      rw [hSame, untilFence_eq_some]
      exact ⟨rfl, hFence⟩
    have hRight : untilFence (splitlines text) = some (lines, rest) := by
      rw [hLines, untilFence_eq_some]
      exact ⟨rfl, hNot⟩
    exact Prod.mk.inj (Option.mem_unique hLeft hRight)
  obtain ⟨-, hEntries, -⟩ := (Entries.foldlM_eq_ok fills front (by simp)).mp hRead
  refine ⟨?_, fun key hKey => ?_⟩
  · rw [proseLines, hLines, untilFence_eq_some.mpr ⟨rfl, hNot⟩]
    rfl
  · rw [Entries.get_set, if_neg (Ne.symm hKey), hEntries, List.nil_append]
    rfl

theorem fakeMerge_lines {ours theirs : Text} (h : splitlines ours ≠ []) :
    splitlines (fakeMerge ours theirs) = splitlines ours ++ (splitlines theirs).filter (· ∉ splitlines ours) := by
  refine splitlines_joined (by simp [h]) fun line hLine => ?_
  rcases List.mem_append.mp hLine with hLine | hLine
  · exact splitlines_pieces ours line hLine
  · exact splitlines_pieces theirs line (List.mem_filter.mp hLine).1

/-- What a merge that goes through writes is a README whose identity is its folder's
name. Each key but `headline` is merged against the base, a conflict in the status
taking ours; and under the default body the prose is all of ours, and then each line of
theirs that ours does not have. A merge stops where another key is in conflict, and then
ours is as it was. -/
theorem merge_loses_nothing {disk : Disk} {base ours theirs before left right : Text} {our their : Data}
    (body : Text) (answer : Text → Option Text) (path : Text) (hBase : disk base = some before)
    (hOurs : disk ours = some left) (hTheirs : disk theirs = some right)
    (hOur : parseReadme alphabet (universal left) = .ok our) (hTheir : parseReadme alphabet (universal right) = .ok their) :
    (∀ after, merge alphabet disk body answer base ours theirs path = (0, after) →
      ∃ result data, after = Function.update disk ours (some result) ∧ parseReadme alphabet result = .ok data ∧
        Entries.get keyId data = some (.text (folderName path)) ∧
        (∀ key, key ≠ "headline".toList →
          match ThreeWay.merged (Entries.get key (dataOf alphabet (universal before))) (Entries.get key our)
            (Entries.get key their) with
          | some value => Entries.get key data = value
          | none => key = keyStatus ∧ Entries.get key data = Entries.get key our) ∧
        (body = [] ∨ body = "fake".toList →
          proseLines result = proseLines (universal left) ++
            (proseLines (universal right)).filter (· ∉ proseLines (universal left)))) ∧
      ((∃ key, key ≠ "headline".toList ∧ key ≠ keyStatus ∧
        ThreeWay.merged (Entries.get key (dataOf alphabet (universal before))) (Entries.get key our)
          (Entries.get key their) = none) →
        merge alphabet disk body answer base ours theirs path = (1, disk)) ∧
      ((merge alphabet disk body answer base ours theirs path).1 ≠ 0 →
        (merge alphabet disk body answer base ours theirs path).2 = disk) := by
  unfold merge
  cases hMerge : mergeText alphabet disk body answer base ours theirs path with
  | none => exact ⟨fun after h => (nomatch (Prod.mk.inj h).1), fun _ => rfl, fun _ => rfl⟩
  | some result =>
      obtain ⟨ourParts, theirParts, front, hOurParts, hTheirParts, hFront, hBody, hAccept⟩ :=
        mergeText_cases hBase hOurs hTheirs hMerge
      obtain ⟨prose, rfl, hFake⟩ := mergeBody_cases hBody
      obtain ⟨ourHeading, ourEntries, hOurData, hOurMatches, hOurProse, hOurNew⟩ := partsOf_cases hOurParts
      obtain ⟨theirHeading, theirEntries, hTheirData, hTheirMatches, hTheirProse, -⟩ := partsOf_cases hTheirParts
      obtain rfl : our = ourParts.data := Except.ok.inj (hOur.symm.trans (partsOf_parse hOurParts))
      obtain rfl : their = theirParts.data := Except.ok.inj (hTheir.symm.trans (partsOf_parse hTheirParts))
      obtain ⟨⟨lines, hLines, hNot, hRead⟩, hKeys⟩ := mergeFront_read hOurMatches hTheirMatches hFront prose
      obtain ⟨data, hData, hFolder⟩ := acceptable_iff.mp hAccept
      obtain ⟨hProse, hGet⟩ := parse_front hData hLines hNot
      have hOurGet : ∀ key, key ≠ "headline".toList → Entries.get key ourParts.data = Entries.get key ourEntries := by
        intro key hKey
        rw [hOurData, Entries.get_set, if_neg (Ne.symm hKey)]
      have hTheirGet : ∀ key, key ≠ "headline".toList → Entries.get key theirParts.data = Entries.get key theirEntries := by
        intro key hKey
        rw [hTheirData, Entries.get_set, if_neg (Ne.symm hKey)]
      -- A key in conflict is in one of the two front matters, so the merge has looked at it.
      have hStatus : ∀ key, key ≠ "headline".toList → ThreeWay.merged (Entries.get key (dataOf alphabet (universal before)))
          (Entries.get key ourParts.data) (Entries.get key theirParts.data) = none → key = keyStatus := by
        intro key hKey hConflict
        refine hKeys key ?_ hConflict
        by_contra hNone
        rw [← hOurGet key hKey, ← hTheirGet key hKey, not_or, Option.not_isSome_iff_eq_none,
          Option.not_isSome_iff_eq_none] at hNone
        exact (ThreeWay.merged_eq_none.mp hConflict).2.2 (hNone.1.trans hNone.2.symm)
      refine ⟨fun after h => ⟨_, data, (Prod.mk.inj h).2.symm, hData, hFolder, fun key hKey => ?_, fun hDefault => ?_⟩,
        fun ⟨key, hKey, hOther, hConflict⟩ => absurd (hStatus key hKey hConflict) hOther, fun h => absurd rfl h⟩
      · have hValue : Entries.get key data =
            if Entries.get key ourParts.data = Entries.get key (dataOf alphabet (universal before)) ∧
              Entries.get key theirParts.data ≠ Entries.get key (dataOf alphabet (universal before)) then
              Entries.get key theirParts.data else Entries.get key ourParts.data := by
          rw [hGet key hKey, hRead, apply_ite (Entries.get key), ← hOurGet key hKey, ← hTheirGet key hKey]
        cases hMerged : ThreeWay.merged (Entries.get key (dataOf alphabet (universal before)))
            (Entries.get key ourParts.data) (Entries.get key theirParts.data) with
        | none =>
            have hLeft := (ThreeWay.merged_eq_none.mp hMerged).1
            exact ⟨hStatus key hKey hMerged, hValue.trans (if_neg fun h => hLeft h.1)⟩
        | some value =>
            have hSome := ThreeWay.merged_of_some (hMerged ▸ Option.some_ne_none value)
            exact hValue.trans (Option.mem_unique hSome hMerged)
      · rw [hProse, hFake hDefault, fakeMerge_lines (hOurProse ▸ hOurNew), hOurProse, hTheirProse]

/-- A README with this status, these further lines in its front matter and this prose. -/
def plainReadme (status more prose : String) : Text :=
  ("---\nid: t\nstatus: " ++ status ++ "\ntense: plan\n" ++ more ++ "---\n# T\n" ++ prose).toList

def plainDisk (base ours theirs : Text) : Disk := fun path =>
  if path = ['O'] then some base else if path = ['A'] then some ours else if path = ['B'] then some theirs else none

def plainPath : Text := "threads/t/README.md".toList

theorem merge_eq {disk : Disk} {base ours theirs : Text}
    (h : mergeText alphabet disk body answer base ours theirs path = some result) :
    merge alphabet disk body answer base ours theirs path = (0, Function.update disk ours (some result)) := by
  rw [merge, h]

theorem parse_plain (status more prose : String)
    (h : (parseReadme asciiOnly (universal (plainReadme status more prose))).toOption.isSome = true) :
    ∃ data, parseReadme asciiOnly (universal (plainReadme status more prose)) = .ok data := by
  cases hParse : parseReadme asciiOnly (universal (plainReadme status more prose)) with
  | error why => rw [hParse] at h; cases h
  | ok data => exact ⟨data, rfl⟩

/-- Both sides change the status and the prose: ours is taken, and theirs is added. -/
theorem merge_loses_nothing_plain :
    ∃ result data, merge asciiOnly (plainDisk (plainReadme "open" "" "") (plainReadme "live" "" "a\n")
        (plainReadme "settled" "" "b\n")) [] (fun _ => none) ['O'] ['A'] ['B'] plainPath =
          (0, Function.update (plainDisk (plainReadme "open" "" "") (plainReadme "live" "" "a\n")
            (plainReadme "settled" "" "b\n")) ['A'] (some result)) ∧
      parseReadme asciiOnly result = .ok data ∧ Entries.get keyId data = some (.text ['t']) ∧
      proseLines result = [['#', ' ', 'T'], ['a'], ['b']] := by
  have hText : mergeText asciiOnly (plainDisk (plainReadme "open" "" "") (plainReadme "live" "" "a\n")
      (plainReadme "settled" "" "b\n")) [] (fun _ => none) ['O'] ['A'] ['B'] plainPath =
        some (plainReadme "live" "" "a\nb\n") := by
    decide +kernel
  have hProse : proseLines (universal (plainReadme "live" "" "a\n")) ++
      (proseLines (universal (plainReadme "settled" "" "b\n"))).filter
        (· ∉ proseLines (universal (plainReadme "live" "" "a\n"))) = [['#', ' ', 'T'], ['a'], ['b']] := by
    decide +kernel
  have hFolder : folderName plainPath = ['t'] := by decide +kernel
  obtain ⟨our, hOur⟩ := parse_plain "live" "" "a\n" (by decide +kernel)
  obtain ⟨their, hTheir⟩ := parse_plain "settled" "" "b\n" (by decide +kernel)
  obtain ⟨hGo, -, -⟩ := @merge_loses_nothing asciiOnly (plainDisk (plainReadme "open" "" "") (plainReadme "live" "" "a\n")
    (plainReadme "settled" "" "b\n")) ['O'] ['A'] ['B'] _ _ _ _ _ [] (fun _ => none) plainPath rfl rfl rfl hOur hTheir
  obtain ⟨result, data, hAfter, hData, hId, -, hLines⟩ := hGo _ (merge_eq hText)
  exact ⟨result, data, (merge_eq hText).trans (congrArg (0, ·) hAfter), hData, hFolder ▸ hId, (hLines (.inl rfl)).trans hProse⟩

/-- The model may leave a line of ours out. And what theirs makes of a key `headline` is
lost: the heading stands under that key, so the two sides look the same. -/
theorem merge_loses_line :
    (merge asciiOnly (plainDisk (plainReadme "open" "" "") (plainReadme "live" "" "a\n") (plainReadme "open" "" "b\n"))
        "claude-haiku".toList (fun _ => some (plainReadme "open" "" "")) ['O'] ['A'] ['B'] plainPath =
        (0, Function.update (plainDisk (plainReadme "open" "" "") (plainReadme "live" "" "a\n") (plainReadme "open" "" "b\n"))
          ['A'] (some (plainReadme "live" "" ""))) ∧
      ['a'] ∈ proseLines (plainReadme "live" "" "a\n") ∧ ['a'] ∉ proseLines (plainReadme "live" "" "")) ∧
    merge asciiOnly (plainDisk (plainReadme "open" "headline: x\n" "") (plainReadme "open" "headline: x\n" "")
        (plainReadme "open" "headline: y\n" "")) [] (fun _ => none) ['O'] ['A'] ['B'] plainPath =
      (0, Function.update (plainDisk (plainReadme "open" "headline: x\n" "") (plainReadme "open" "headline: x\n" "")
        (plainReadme "open" "headline: y\n" "")) ['A'] (some (plainReadme "open" "headline: x\n" ""))) := by
  refine ⟨⟨merge_eq ?_, ?_, ?_⟩, merge_eq ?_⟩ <;> decide +kernel

end Brnrd.Readme
