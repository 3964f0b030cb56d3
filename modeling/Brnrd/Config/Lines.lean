import Brnrd.Config.File

/-! What a line of the file says, and what is left of a file whose overridden lines
are folded. -/
namespace Brnrd.Config

open Python

/-- The scan keeps the line, or it ends at a hash. -/
theorem keepFrom_cut (quote : Option Char) (escaped : Bool) (text : Text) :
    keepFrom quote escaped text = text ∨ ∃ a b, text = a ++ '#' :: b ∧ keepFrom quote escaped text = a := by
  have hPush : ∀ (c : Char) {rest : Text} {quote : Option Char} {escaped : Bool},
      (keepFrom quote escaped rest = rest ∨ ∃ a b, rest = a ++ '#' :: b ∧ keepFrom quote escaped rest = a) →
      c :: keepFrom quote escaped rest = c :: rest ∨
        ∃ a b, c :: rest = a ++ '#' :: b ∧ c :: keepFrom quote escaped rest = a := by
    rintro c rest quote escaped (h | ⟨a, b, hRest, hKept⟩)
    · exact .inl (by rw [h])
    · exact .inr ⟨c :: a, b, by rw [hRest]; rfl, by rw [hKept]⟩
  induction text generalizing quote escaped with
  | nil => exact .inl rfl
  | cons c rest ih =>
      simp only [keepFrom]
      split
      · exact hPush c (ih quote false)
      · split
        · exact hPush c (ih quote true)
        · cases quote with
          | some mark => exact hPush c (ih _ false)
          | none =>
              by_cases hOpen : c = '\'' ∨ c = '"'
              · simp only [hOpen, if_true]
                exact hPush c (ih _ false)
              · by_cases hHash : c = '#'
                · rw [if_neg hOpen, if_pos hHash, hHash]
                  exact .inr ⟨[], rest, rfl, rfl⟩
                · simp only [hOpen, hHash, if_false]
                  exact hPush c (ih none false)

/-- A character at which the scan does nothing. -/
def plainChar (c : Char) : Bool :=
  c != '\'' && c != '"' && c != '#'

/-- The scan passes what holds no quote and no hash. -/
theorem keepFrom_plain {front : Text} (h : ∀ c ∈ front, plainChar c = true) (rest : Text) :
    keepFrom none false (front ++ rest) = front ++ keepFrom none false rest := by
  induction front with
  | nil => rfl
  | cons c front ih =>
      have hPlain := h c List.mem_cons_self
      simp only [plainChar, Bool.and_eq_true, bne_iff_ne] at hPlain
      simp [keepFrom, hPlain, ih fun d hd => h d (List.mem_cons_of_mem _ hd)]

theorem plainChar_of_isSpace {c : Char} (h : isSpace c = true) : plainChar c = true := by
  have hAll : ∀ n ∈ spaces, n ≠ 0x27 ∧ n ≠ 0x22 ∧ n ≠ 0x23 := by decide
  obtain ⟨hSingle, hDouble, hHash⟩ := hAll c.toNat (List.contains_iff_mem.mp h)
  simp only [plainChar, Bool.and_eq_true, bne_iff_ne]
  refine ⟨⟨?_, ?_⟩, ?_⟩
  · rintro rfl
    exact hSingle rfl
  · rintro rfl
    exact hDouble rfl
  · rintro rfl
    exact hHash rfl

theorem strip_blank {text : Text} (h : ∀ c ∈ text, isSpace c = true) : strip text = [] := by
  rw [strip, List.dropWhile_eq_nil_iff.mpr h]
  rfl

/-- A line that begins with a hash sets nothing. -/
theorem setKey_comment {line rest : Text} (h : strip line = '#' :: rest) : setKey line = none := by
  have hSplit := List.takeWhile_append_dropWhile (p := isSpace) (l := line)
  have hBlank : ∀ c ∈ line.takeWhile isSpace, isSpace c = true := fun c hc => List.mem_takeWhile_imp hc
  obtain ⟨tail, hTail⟩ : ∃ tail, line.dropWhile isSpace = '#' :: tail := by
    obtain ⟨rest', hRest⟩ : strip line <+: line.dropWhile isSpace := List.rdropWhile_prefix isSpace _
    rw [h, List.cons_append] at hRest
    exact ⟨_, hRest.symm⟩
  have hKept : withoutComment line = line.takeWhile isSpace := by
    have hScan := keepFrom_plain (fun c hc => plainChar_of_isSpace (hBlank c hc)) ('#' :: tail)
    rw [← hTail, hSplit] at hScan
    rw [withoutComment, hScan, hTail]
    simp [keepFrom]
  rw [setKey, hKept, strip_blank hBlank]
  simp

theorem strip_hash (rest : Text) : ∃ tail, strip ('#' :: rest) = '#' :: tail := by
  have hNot : strip ('#' :: rest) ≠ [] := strip_ne_nil (c := '#') rfl (by decide)
  obtain ⟨c, tail, hSame⟩ := List.exists_cons_of_ne_nil hNot
  obtain ⟨rest', hRest⟩ : strip ('#' :: rest) <+: ('#' :: rest).dropWhile isSpace := List.rdropWhile_prefix isSpace _
  have hDrop : ('#' :: rest).dropWhile isSpace = '#' :: rest := List.dropWhile_cons_of_neg (by decide)
  rw [hDrop, hSame, List.cons_append] at hRest
  obtain ⟨rfl, -⟩ := List.cons.inj hRest
  exact ⟨tail, hSame⟩

theorem setKey_hash (rest : Text) : setKey ('#' :: rest) = none := by
  obtain ⟨tail, h⟩ := strip_hash rest
  exact setKey_comment h

@[simp] theorem setKey_folded (line : Text) : setKey (FOLDED ++ line) = none :=
  setKey_hash _

theorem setKey_template {name : String} {line : Text} (h : isTemplate name line = true) : setKey line = none := by
  unfold isTemplate at h
  split at h
  · rename_i hStrip
    exact setKey_comment hStrip
  · cases h

section Reading

variable (host : Interpreter)

/-- What a line adds to the file's values, `none` where reading it raises. -/
def entryOf (line : Text) : Option (Option (String × Value)) :=
  match setKey line with
  | none => some none
  | some key =>
      match literal host (strip (behind '=' (strip (withoutComment line)))) with
      | .ok value => some (some (key, value))
      | .error _ => none

/-- What the lines say, each on its own. -/
def entries (lines : List Text) : Found :=
  lines.filterMap fun line => (entryOf host line).join

def Reads (lines : List Text) : Prop :=
  ∀ line ∈ lines, (entryOf host line).isSome

theorem entries_append (a b : List Text) : entries host (a ++ b) = entries host a ++ entries host b :=
  List.filterMap_append

theorem entries_cons (line : Text) (lines : List Text) :
    entries host (line :: lines) = (entryOf host line).join.toList ++ entries host lines := by
  unfold entries
  rw [List.filterMap_cons]
  cases (entryOf host line).join <;> rfl

theorem entryOf_none {line : Text} (h : setKey line = none) : entryOf host line = some none := by
  rw [entryOf, h]

theorem entries_silent {lines : List Text} (h : ∀ line ∈ lines, setKey line = none) :
    entries host lines = [] ∧ Reads host lines := by
  refine ⟨List.filterMap_eq_nil_iff.mpr fun line hLine => ?_, fun line hLine => ?_⟩
  · rw [entryOf_none host (h line hLine)]
    rfl
  · rw [entryOf_none host (h line hLine)]
    rfl

/-- The keys read are the keys the lines set. -/
theorem keys_entries {lines : List Text} (h : Reads host lines) :
    (entries host lines).map Prod.fst = lines.filterMap setKey := by
  induction lines with
  | nil => rfl
  | cons line lines ih =>
      have hRest := ih fun l hl => h l (List.mem_cons_of_mem _ hl)
      obtain ⟨entry, hEntry⟩ := Option.isSome_iff_exists.mp (h line List.mem_cons_self)
      rw [entries_cons, List.map_append, hRest, List.filterMap_cons]
      unfold entryOf at hEntry
      split at hEntry
      · rename_i hKey
        simp [entryOf, hKey]
      · rename_i key hKey
        split at hEntry
        · rename_i value hValue
          simp [entryOf, hKey, hValue]
        · cases hEntry

theorem fills_readLine (path : String) : Entries.Fills (readLine host path) (entryOf host) := by
  intro found line next
  unfold readLine entryOf setKey
  by_cases hSkip : strip (withoutComment line) = [] ∨ '=' ∉ strip (withoutComment line)
  · simp only [hSkip, if_true]
    constructor
    · intro h
      exact .inl ⟨trivial, (Except.ok.inj h).symm⟩
    · rintro (⟨-, rfl⟩ | ⟨key, value, h, -⟩)
      · rfl
      · cases h
  · simp only [hSkip, if_false]
    cases hValue : literal host (strip (behind '=' (strip (withoutComment line)))) with
    | error raised =>
        by_cases hOld : (Entries.get (String.ofList (strip (before '=' (strip (withoutComment line))))) found).isSome
        · simp [hOld]
        · simp [hOld, bind, Except.bind]
    | ok value =>
        cases hOld : Entries.get (String.ofList (strip (before '=' (strip (withoutComment line))))) found with
        | some old => simp [hOld]
        | none => simp [hOld, bind, Except.bind, pure, Except.pure, eq_comm]

/-- The reader takes a file whose lines it can read and that sets no key twice. -/
theorem readValues_eq_ok {path : String} {text : Text} {found : Found} :
    readValues host path (some text) = .ok found ↔
      Reads host (splitlines text) ∧ found = entries host (splitlines text) ∧
        (found.map Prod.fst).Nodup := by
  have hLoop : (splitlines text).foldlM (readLine host path) [] = .ok found ↔ _ :=
    Entries.foldlM_eq_ok (fills_readLine host path) (splitlines text) (by simp)
  simpa [readValues, Reads, entries] using hLoop

end Reading

/-- The file with each line folded whose key a later line sets. -/
def keepLast : List Text → List Text
  | [] => []
  | line :: rest =>
      (if ∃ key ∈ setKey line, key ∈ rest.filterMap setKey then FOLDED ++ line else line) :: keepLast rest

/-- The index of the last line of a key, from the lines on. -/
def lastFrom (last : List (String × Nat)) (items : List (Text × Nat)) : List (String × Nat) :=
  items.foldl (fun last item =>
    match setKey item.1 with
    | some key => Entries.set key item.2 last
    | none => last) last

theorem get_lastFrom_of_not_mem {key : String} {lines : List Text} (h : key ∉ lines.filterMap setKey) (n : Nat)
    (last : List (String × Nat)) : Entries.get key (lastFrom last (lines.zipIdx n)) = Entries.get key last := by
  induction lines generalizing n last with
  | nil => rfl
  | cons line lines ih =>
      rw [List.zipIdx_cons]
      unfold lastFrom at ih ⊢
      rw [List.foldl_cons]
      cases hKey : setKey line with
      | none => exact ih (by simpa [hKey] using h) (n + 1) last
      | some other =>
          rw [List.filterMap_cons_some hKey, List.mem_cons, not_or] at h
          rw [ih h.2 (n + 1), Entries.get_set, if_neg (Ne.symm h.1)]

theorem get_lastFrom_of_mem {key : String} {lines : List Text} (h : key ∈ lines.filterMap setKey) (n : Nat)
    (last : List (String × Nat)) : ∃ i, n ≤ i ∧ Entries.get key (lastFrom last (lines.zipIdx n)) = some i := by
  induction lines generalizing n last with
  | nil => cases h
  | cons line lines ih =>
      rw [List.zipIdx_cons]
      by_cases hLater : key ∈ lines.filterMap setKey
      · obtain ⟨i, hLow, hGet⟩ := ih hLater (n + 1) (lastFrom last [(line, n)])
        exact ⟨i, by omega, hGet⟩
      · have hKey : setKey line = some key := by
          cases hKey : setKey line with
          | none =>
              rw [List.filterMap_cons_none hKey] at h
              exact absurd h hLater
          | some other =>
              rw [List.filterMap_cons_some hKey, List.mem_cons] at h
              exact (h.resolve_right hLater) ▸ rfl
        have hRest := get_lastFrom_of_not_mem hLater (n + 1) (lastFrom last [(line, n)])
        refine ⟨n, le_rfl, hRest.trans ?_⟩
        simp [lastFrom, hKey]

/-- A line is overridden where a later line sets its key. -/
theorem overridden_head (line : Text) (lines : List Text) (n : Nat) (last : List (String × Nat)) :
    (overridden (lastFrom last ((line :: lines).zipIdx n)) (line, n)).isSome ↔
      ∃ key ∈ setKey line, key ∈ lines.filterMap setKey := by
  have hCons : lastFrom last ((line :: lines).zipIdx n) =
      lastFrom (lastFrom last [(line, n)]) (lines.zipIdx (n + 1)) := by
    rw [List.zipIdx_cons]
    rfl
  unfold overridden
  cases hKey : setKey line with
  | none => simp
  | some key =>
      rw [hCons]
      by_cases hLater : key ∈ lines.filterMap setKey
      · obtain ⟨i, hLow, hGet⟩ := get_lastFrom_of_mem hLater (n + 1) (lastFrom last [(line, n)])
        have hNot : i ≠ n := by omega
        simpa [Option.filter_some, hGet, hNot] using hLater
      · have hGet := get_lastFrom_of_not_mem hLater (n + 1) (lastFrom last [(line, n)])
        have hHere : Entries.get key (lastFrom last [(line, n)]) = some n := by simp [lastFrom, hKey]
        simpa [Option.filter_some, hGet, hHere] using hLater

theorem map_folded (lines : List Text) (n : Nat) (last : List (String × Nat)) :
    ((lines.zipIdx n).map fun item =>
        if (overridden (lastFrom last (lines.zipIdx n)) item).isSome then FOLDED ++ item.1 else item.1) =
      keepLast lines := by
  induction lines generalizing n last with
  | nil => rfl
  | cons line lines ih =>
      have hHead := overridden_head line lines n last
      rw [List.zipIdx_cons] at hHead ⊢
      rw [List.map_cons, keepLast]
      refine congrArg₂ List.cons ?_ (ih (n + 1) (lastFrom last [(line, n)]))
      by_cases hOver : ∃ key ∈ setKey line, key ∈ lines.filterMap setKey
      · rw [if_pos (hHead.mpr hOver), if_pos hOver]
      · rw [if_neg fun h => hOver (hHead.mp h), if_neg hOver]

end Brnrd.Config

/-! The lines a fold and an edit leave: a fold keeps the last line of each key, and an
edit of a file that sets no key twice puts one line in the place of at most one. -/
namespace Brnrd.Config

open Python

variable {lines : List Text}

theorem keepLast_eq_self (h : (lines.filterMap setKey).Nodup) : keepLast lines = lines := by
  induction lines with
  | nil => rfl
  | cons line lines ih =>
      have hRest : (lines.filterMap setKey).Nodup := by
        cases hKey : setKey line with
        | none => rwa [List.filterMap_cons_none hKey] at h
        | some key =>
            rw [List.filterMap_cons_some hKey] at h
            exact (List.nodup_cons.mp h).2
      rw [keepLast, ih hRest, if_neg]
      rintro ⟨key, hKey, hLater⟩
      rw [List.filterMap_cons_some hKey] at h
      exact (List.nodup_cons.mp h).1 hLater

theorem keepLast_oneLine (h : ∀ line ∈ lines, OneLine line) : ∀ line ∈ keepLast lines, OneLine line := by
  have hFolded : OneLine FOLDED := by decide +kernel
  induction lines with
  | nil => exact nofun
  | cons line lines ih =>
      intro other hOther
      rcases List.mem_cons.mp hOther with rfl | hOther
      · split
        · exact hFolded.append (h line List.mem_cons_self)
        · exact h line List.mem_cons_self
      · exact ih (fun l hl => h l (List.mem_cons_of_mem _ hl)) other hOther

/-- A fold keeps the last line of each key. -/
theorem foldConfig_lines (text : Text) : splitlines (foldConfig text).1 = keepLast (splitlines text) := by
  have hMap := map_folded (splitlines text) 0 []
  by_cases hNone : (splitlines text).zipIdx.filterMap (overridden (lastFrom [] (splitlines text).zipIdx)) = []
  · have hSame : ((splitlines text).zipIdx.map fun item =>
        if (overridden (lastFrom [] (splitlines text).zipIdx) item).isSome then FOLDED ++ item.1 else item.1) =
          (splitlines text).zipIdx.map Prod.fst := by
      refine List.map_congr_left fun item hItem => ?_
      rw [List.filterMap_eq_nil_iff.mp hNone item hItem]
      rfl
    rw [hSame, List.zipIdx_map_fst] at hMap
    have hFold : foldConfig text = (text, []) := if_pos hNone
    rw [hFold, ← hMap]
  · have hFold : (foldConfig text).1 = joinLines (keepLast (splitlines text)) ++ ['\n'] := by
      rw [← hMap]
      exact congrArg Prod.fst (if_neg hNone)
    rw [hFold]
    refine splitlines_joined ?_ (keepLast_oneLine (splitlines_pieces text))
    intro hNil
    cases hLines : splitlines text with
    | nil =>
        rw [hLines] at hNone
        exact hNone rfl
    | cons line lines =>
        rw [hLines] at hNil
        cases hNil

theorem mem_keys_keepLast {key : String} : key ∈ (keepLast lines).filterMap setKey ↔ key ∈ lines.filterMap setKey := by
  induction lines with
  | nil => rfl
  | cons line lines ih =>
      rw [keepLast]
      by_cases hOver : ∃ other ∈ setKey line, other ∈ lines.filterMap setKey
      · obtain ⟨other, hKey, hLater⟩ := hOver
        rw [if_pos ⟨other, hKey, hLater⟩, List.filterMap_cons_none (setKey_folded line), ih,
          List.filterMap_cons_some hKey, List.mem_cons]
        refine ⟨.inr, fun h => h.elim (fun hSame => hSame ▸ hLater) id⟩
      · rw [if_neg hOver]
        cases hKey : setKey line with
        | none => rw [List.filterMap_cons_none hKey, List.filterMap_cons_none hKey, ih]
        | some other =>
            rw [List.filterMap_cons_some hKey, List.filterMap_cons_some hKey, List.mem_cons, List.mem_cons, ih]

theorem keys_keepLast_nodup (lines : List Text) : ((keepLast lines).filterMap setKey).Nodup := by
  induction lines with
  | nil => exact List.nodup_nil
  | cons line lines ih =>
      rw [keepLast]
      split
      · rw [List.filterMap_cons_none (setKey_folded line)]
        exact ih
      · rename_i hOver
        cases hKey : setKey line with
        | none =>
            rw [List.filterMap_cons_none hKey]
            exact ih
        | some key =>
            rw [List.filterMap_cons_some hKey, List.nodup_cons]
            exact ⟨fun h => hOver ⟨key, hKey, mem_keys_keepLast.mp h⟩, ih⟩

section Reading

variable (host : Interpreter)

theorem Reads.keepLast {lines : List Text} (h : Reads host lines) : Reads host (keepLast lines) := by
  induction lines with
  | nil => exact h
  | cons line lines ih =>
      intro other hOther
      rcases List.mem_cons.mp hOther with rfl | hOther
      · split
        · rw [entryOf_none host (setKey_folded line)]
          rfl
        · exact h line List.mem_cons_self
      · exact ih (fun l hl => h l (List.mem_cons_of_mem _ hl)) other hOther

/-- The reader before it refused a key set twice: the last line of a key is in
effect. -/
def valuesInEffect (text : Text) : Except String Found :=
  (splitlines text).foldlM (fun found line =>
    match setKey line with
    | none => .ok found
    | some key => do
        let value ← literal host (strip (behind '=' (strip (withoutComment line))))
        return Entries.set key value found) []

theorem valuesInEffect_ok {text : Text} {found : Found} (h : valuesInEffect host text = .ok found) :
    Reads host (splitlines text) ∧
      found = (entries host (splitlines text)).foldl (fun found item => Entries.set item.1 item.2 found) [] := by
  refine Fallible.foldlM_invariant (fun lines found => Reads host lines ∧
    found = (entries host lines).foldl (fun found item => Entries.set item.1 item.2 found) []) ?_ ?_ h
  · exact ⟨nofun, rfl⟩
  · rintro lines line found next ⟨hReads, hFound⟩ hStep
    have hGoal : ∀ entry, entryOf host line = some entry →
        next = entry.toList.foldl (fun found item => Entries.set item.1 item.2 found) found →
        Reads host (lines ++ [line]) ∧
          next = (entries host (lines ++ [line])).foldl (fun found item => Entries.set item.1 item.2 found) [] := by
      intro entry hEntry hNext
      refine ⟨fun other hOther => ?_, ?_⟩
      · rcases List.mem_append.mp hOther with hOther | hOther
        · exact hReads other hOther
        · rw [List.mem_singleton.mp hOther, hEntry]
          rfl
      · rw [entries_append, List.foldl_append, ← hFound, hNext]
        cases entry <;> simp [entries, hEntry]
    unfold entryOf at hGoal
    cases hKey : setKey line with
    | none =>
        simp only [hKey] at hStep hGoal
        exact hGoal none rfl (Except.ok.inj hStep).symm
    | some key =>
        simp only [hKey] at hStep hGoal
        obtain ⟨value, hValue, hSet⟩ := Fallible.peel hStep
        simp only [hValue] at hGoal
        exact hGoal (some (key, value)) rfl (Except.ok.inj hSet).symm

/-- What the folded file says of a key is what the last line of the key said. -/
theorem get_folded (key : String) {lines : List Text} (h : Reads host lines) (found : Found) :
    Entries.get key ((entries host lines).foldl (fun found item => Entries.set item.1 item.2 found) found) =
      (Entries.get key (entries host (keepLast lines))).or (Entries.get key found) := by
  induction lines generalizing found with
  | nil => rfl
  | cons line lines ih =>
      have hRest : Reads host lines := fun l hl => h l (List.mem_cons_of_mem _ hl)
      have hSilent : ∀ first rest, setKey first = none → entries host (first :: rest) = entries host rest := by
        intro first rest hKey
        rw [entries_cons, entryOf_none host hKey]
        rfl
      rw [keepLast]
      cases hKey : setKey line with
      | none =>
          rw [hSilent line lines hKey, ih hRest]
          simp only [Option.mem_def, reduceCtorEq, false_and, exists_false, if_false]
          rw [hSilent line _ hKey]
      | some name =>
          obtain ⟨value, hEntry⟩ : ∃ value, entryOf host line = some (some (name, value)) := by
            have hSome := h line List.mem_cons_self
            unfold entryOf at hSome ⊢
            simp only [hKey] at hSome ⊢
            split at hSome
            · rename_i value hValue
              exact ⟨value, rfl⟩
            · cases hSome
          have hLine : ∀ found, Entries.get key ((entries host (line :: lines)).foldl
              (fun found item => Entries.set item.1 item.2 found) found) =
                (Entries.get key (entries host (keepLast lines))).or
                  (if name = key then some value else Entries.get key found) := by
            intro found
            rw [entries_cons, hEntry, ← Entries.get_set, ← ih hRest]
            rfl
          by_cases hLater : name ∈ lines.filterMap setKey
          · rw [if_pos ⟨name, rfl, hLater⟩, hSilent _ _ (setKey_folded line), hLine]
            by_cases hSame : name = key
            · subst hSame
              have hHeld : Entries.get name (entries host (keepLast lines)) ≠ none := by
                rw [Ne, Entries.get_eq_none, keys_entries host (Reads.keepLast host hRest), mem_keys_keepLast, not_not]
                exact hLater
              obtain ⟨old, hOld⟩ := Option.ne_none_iff_exists'.mp hHeld
              rw [hOld]
              rfl
            · rw [if_neg hSame]
          · have hHead : ¬∃ key ∈ some name, key ∈ lines.filterMap setKey := by
              rintro ⟨other, hOther, hMem⟩
              exact hLater (Option.some.inj hOther ▸ hMem)
            rw [if_neg hHead, hLine, entries_cons, hEntry]
            by_cases hSame : name = key
            · subst hSame
              have hNone : Entries.get name (entries host (keepLast lines)) = none := by
                rw [Entries.get_eq_none, keys_entries host (Reads.keepLast host hRest), mem_keys_keepLast]
                exact hLater
              simp [hNone, Entries.get]
            · simp [hSame, Entries.get]

/-- A fold changes no value in effect, and what it leaves sets no key twice. -/
theorem fold_keeps {path : String} {text : Text} {found : Found} (h : valuesInEffect host text = .ok found) :
    ∃ left, readValues host path (some (foldConfig text).1) = .ok left ∧
      ∀ key, Entries.get key left = Entries.get key found := by
  obtain ⟨hReads, rfl⟩ := valuesInEffect_ok host h
  have hKept := Reads.keepLast host hReads
  refine ⟨entries host (keepLast (splitlines text)), (readValues_eq_ok host).mpr ?_, fun key => ?_⟩
  · rw [foldConfig_lines, keys_entries host hKept]
    exact ⟨hKept, rfl, keys_keepLast_nodup _⟩
  · rw [get_folded host key hReads]
    simp [Entries.get]

end Reading

end Brnrd.Config
