import Brnrd.Readme.Lines
import Brnrd.Readme.Values

/-! The gate and the runtime read the same README: which of the texts the gate
accepts the runtime can read, and what it reads there. -/
namespace Brnrd.Readme

open Python

variable {alphabet : Alphabet}

/-- What the gate reads of a line: nothing, or a key and its value. -/
def Gate.readEntry (line : Text) : Option (Option (Text × Text)) :=
  if line = [] then some none
  else if !isKeyLine line then none
  else
    match lineValue (stripSpaces (partition line).1) (stripSpaces (partition line).2.2) with
    | .ok value => some (some (stripSpaces (partition line).1, value))
    | .error _ => none

/-- What the runtime reads of a line. -/
def readEntry (alphabet : Alphabet) (line : Text) : Option (Option (Text × Field)) :=
  if strip line = [] then some none
  else if line.head? = some ' ' || line.head? = some '\t' || !(partition line).2.1 then none
  else if !keyOk alphabet (strip (partition line).1) then none
  else
    match fieldOf (strip (partition line).1) (strip (partition line).2.2) with
    | .ok field => some (some (strip (partition line).1, field))
    | .error _ => none

variable {key line : Text}

/-- The last steps of a turn: a new key, and a value that can be read. -/
theorem insert_eq_ok {α : Type} {entries next : List (Text × α)} {read : Except Why α} :
    (if (Entries.get key entries).isSome then .error (.duplicate key)
      else read.map fun value => Entries.set key value entries) = Except.ok next ↔
      Entries.get key entries = none ∧ ∃ value, read = .ok value ∧ next = Entries.set key value entries := by
  cases hKey : Entries.get key entries with
  | some value => simp
  | none => cases read <;> simp [Except.map, eq_comm]

theorem Gate.fills : Entries.Fills frontmatterLine readEntry := by
  intro entries line next
  unfold frontmatterLine readEntry
  by_cases hNil : line = []
  · simp [hNil, eq_comm]
  · by_cases hKey : isKeyLine line = true
    · simp only [hNil, hKey, if_false, Bool.not_true, Bool.false_eq_true, insert_eq_ok]
      cases lineValue (stripSpaces (partition line).1) (stripSpaces (partition line).2.2) <;> simp
    · simp [hNil, hKey]

theorem fills : Entries.Fills (readLine alphabet) (readEntry alphabet) := by
  intro entries line next
  unfold readLine readEntry
  by_cases hBlank : strip line = []
  · simp [hBlank, eq_comm]
  · by_cases hLine : (line.head? = some ' ' || line.head? = some '\t' || !(partition line).2.1) = true
    · simp only [hBlank, hLine, if_false, if_true]
      simp
    · by_cases hKey : keyOk alphabet (strip (partition line).1) = true
      · simp only [hBlank, hLine, hKey, if_false, Bool.not_true, Bool.false_eq_true, insert_eq_ok]
        cases fieldOf (strip (partition line).1) (strip (partition line).2.2) <;> simp
      · simp only [hBlank, hLine, hKey, if_false, Bool.not_false, if_true]
        simp

theorem allowed_solid {c : Char} (h : Gate.allowed c = true) : isSpace c = false := by
  have hAll : ∀ n ∈ spaces, Gate.allowed (Char.ofNat n) = false := by decide
  cases hSpace : isSpace c with
  | false => rfl
  | true =>
      have hNot := hAll c.toNat (List.contains_iff_mem.mp hSpace)
      rw [Char.ofNat_toNat, h] at hNot
      cases hNot

theorem allowed_ascii {c : Char} (h : Gate.allowed c = true) : c.toNat < 128 := by
  have hOrder : ∀ d : Char, c ≤ d → c.toNat ≤ d.toNat := fun d hd => UInt32.le_iff_toNat_le.mp hd
  simp only [Gate.allowed, asciiLetter, asciiDigit, Bool.or_eq_true, Bool.and_eq_true, decide_eq_true_eq] at h
  rcases h with (((⟨-, h⟩ | ⟨-, h⟩) | ⟨-, h⟩) | rfl) | rfl
  · exact lt_of_le_of_lt (hOrder _ h) (by decide)
  · exact lt_of_le_of_lt (hOrder _ h) (by decide)
  · exact lt_of_le_of_lt (hOrder _ h) (by decide)
  · decide
  · decide

theorem isKeyLine_iff : Gate.isKeyLine line = true ↔
    line.head? ≠ some ' ' ∧ line.head? ≠ some '\t' ∧ (partition line).2.1 = true ∧
      (∃ c key, Gate.stripSpaces (partition line).1 = c :: key ∧ asciiLetter c = true) ∧
      ∀ c ∈ Gate.stripSpaces (partition line).1, Gate.allowed c = true := by
  unfold Gate.isKeyLine
  cases Gate.stripSpaces (partition line).1 with
  | nil => simp
  | cons c key => simp [and_assoc]

/-- The key of a line is the same for both readers. -/
theorem key_eq (h : ∀ c ∈ Gate.stripSpaces (partition line).1, Gate.allowed c = true) :
    strip (partition line).1 = Gate.stripSpaces (partition line).1 := by
  rw [← strip_stripSpaces]
  refine strip_eq_self ?_ ?_
  · exact fun c hc => allowed_solid (h c (List.mem_of_head? hc))
  · exact fun c hc => allowed_solid (h c (List.mem_of_getLast? hc))

theorem keyOk_of_allowed {c : Char} (hLetter : asciiLetter c = true) (h : ∀ d ∈ c :: key, Gate.allowed d = true) :
    keyOk alphabet (c :: key) = true := by
  have hAlpha : isalpha alphabet c = true := by
    rw [isalpha, if_pos (allowed_ascii (h c List.mem_cons_self)), hLetter]
  have hAlnum : ∀ d ∈ c :: key, (isalnum alphabet d || d = '-' || d = '_') = true := by
    intro d hd
    have hAllowed := h d hd
    rw [isalnum, if_pos (allowed_ascii hAllowed)]
    simp only [Gate.allowed, Bool.or_eq_true, decide_eq_true_eq] at hAllowed ⊢
    tauto
  rw [keyOk, List.head?_cons, Option.any_some, hAlpha, Bool.true_and, List.all_eq_true]
  exact hAlnum

/-- Where the gate reads a key and a value, the runtime reads the key, and the value
if it can. -/
theorem readEntry_of_gate (alphabet : Alphabet) {value : Text} (h : Gate.readEntry line = some (some (key, value))) :
    line ≠ [] ∧ key = Gate.stripSpaces (partition line).1 ∧
      Gate.lineValue key (Gate.stripSpaces (partition line).2.2) = .ok value ∧
      ∀ entry, readEntry alphabet line = some entry ↔
        ∃ field, fieldOf key (strip (partition line).2.2) = .ok field ∧ entry = some (key, field) := by
  unfold Gate.readEntry at h
  split at h
  · cases h
  · rename_i hLine
    split at h
    · cases h
    · rename_i hKeyLine
      obtain ⟨hSpace, hTab, hColon, ⟨c, rest, hKey, hLetter⟩, hAllowed⟩ := isKeyLine_iff.mp (by simpa using hKeyLine)
      split at h
      · rename_i v hValue
        obtain ⟨rfl, rfl⟩ := Prod.mk.inj (Option.some.inj (Option.some.inj h))
        refine ⟨hLine, rfl, hValue, fun entry => ?_⟩
        have hSolid : strip line ≠ [] := by
          intro hBlank
          have hMem : c ∈ line := by
            have hIn : c ∈ strip (partition line).1 := by rw [key_eq hAllowed, hKey]; exact List.mem_cons_self
            exact (List.takeWhile_prefix _).subset (strip_subset _ hIn)
          have hNot := allowed_solid (hAllowed c (by rw [hKey]; exact List.mem_cons_self))
          rw [strip_eq_nil.mp hBlank c hMem] at hNot
          cases hNot
        have hOk : keyOk alphabet (Gate.stripSpaces (partition line).1) = true := by
          rw [hKey] at hAllowed ⊢
          exact keyOk_of_allowed hLetter hAllowed
        unfold readEntry
        rw [key_eq hAllowed]
        simp only [hSolid, hSpace, hTab, hColon, hOk, if_false, decide_false, Bool.or_false, Bool.not_true,
          Bool.false_eq_true]
        cases fieldOf (Gate.stripSpaces (partition line).1) (strip (partition line).2.2) <;> simp [eq_comm]
      · cases h

theorem readEntry_of_none (h : Gate.readEntry line = some none) : line = [] := by
  unfold Gate.readEntry at h
  split at h
  · assumption
  · split at h
    · cases h
    · split at h <;> cases h

end Brnrd.Readme
