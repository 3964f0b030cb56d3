import Brnrd.Lists.Joined
import Brnrd.Python.Value

/-! String literals of JSON, as `json.dumps` writes them and `json.loads` reads
them. An escape may name half of a surrogate pair, which no text holds, so what is
read is a list of code points. -/
namespace Brnrd.Python

def codePoints (text : List Char) : List Nat :=
  text.map Char.toNat

/-- The escapes of one letter, with what they stand for. -/
def shortEscapes : List (Char × Nat) :=
  [('"', 0x22), ('\\', 0x5c), ('b', 0x8), ('f', 0xc), ('n', 0xa), ('r', 0xd), ('t', 0x9)]

def hexDigit (n : Nat) : Char :=
  Char.ofNat (if n < 10 then 0x30 + n else 0x61 + (n - 10))

/-- `'\\u{0:04x}'.format(unit)`. -/
def unicodeEscape (unit : Nat) : List Char :=
  ['\\', 'u', hexDigit (unit / 4096 % 16), hexDigit (unit / 256 % 16), hexDigit (unit / 16 % 16), hexDigit (unit % 16)]

/-- The escape of one letter for a code point. -/
def shortEscape (point : Nat) : Option Char :=
  (shortEscapes.find? fun e => e.2 == point).map Prod.fst

def highHalf (point : Nat) : Nat := 0xd800 + (point - 0x10000) / 1024

def lowHalf (point : Nat) : Nat := 0xdc00 + (point - 0x10000) % 1024

/-- One character of `json.dumps(text)`. -/
def dumpsChar (c : Char) : List Char :=
  match shortEscape c.toNat with
  | some letter => ['\\', letter]
  | none =>
      if 0x20 ≤ c.toNat ∧ c.toNat ≤ 0x7e then [c]
      else if c.toNat < 0x10000 then unicodeEscape c.toNat
      else unicodeEscape (highHalf c.toNat) ++ unicodeEscape (lowHalf c.toNat)

/-- `json.dumps(text)`. -/
def dumps (text : List Char) : List Char :=
  '"' :: (text.flatMap dumpsChar ++ ['"'])

def hexValue (c : Char) : Option Nat :=
  let n := c.toNat
  if 0x30 ≤ n ∧ n ≤ 0x39 then some (n - 0x30)
  else if 0x61 ≤ n ∧ n ≤ 0x66 then some (n - 0x57)
  else if 0x41 ≤ n ∧ n ≤ 0x46 then some (n - 0x37)
  else none

/-- Where a literal is being read: between characters, behind a backslash, or
inside `\u`, with the digits still to come and the value so far. -/
inductive Scan where
  | plain
  | escape
  | hex (more : Nat) (value : Nat)

/-- A code unit before those of the rest of the literal. -/
def pushUnit (unit : Nat) (read : List Nat × List Char) : List Nat × List Char :=
  (unit :: read.1, read.2)

/-- The code units up to the closing quote, and the text behind it. -/
def scanFrom : Scan → List Char → Option (List Nat × List Char)
  | _, [] => none
  | .plain, c :: rest =>
      if c = '"' then some ([], rest)
      else if c = '\\' then scanFrom .escape rest
      else if c.toNat < 0x20 then none
      else (scanFrom .plain rest).map (pushUnit c.toNat)
  | .escape, c :: rest =>
      if c = 'u' then scanFrom (.hex 4 0) rest
      else if c = '/' then (scanFrom .plain rest).map (pushUnit 0x2f)
      else match shortEscapes.lookup c with
        | some point => (scanFrom .plain rest).map (pushUnit point)
        | none => none
  | .hex more value, c :: rest =>
      match hexValue c with
      | none => none
      | some d =>
          if more ≤ 1 then (scanFrom .plain rest).map (pushUnit (value * 16 + d))
          else scanFrom (.hex (more - 1) (value * 16 + d)) rest

def isHigh (unit : Nat) : Bool := 0xd800 ≤ unit && unit ≤ 0xdbff

def isLow (unit : Nat) : Bool := 0xdc00 ≤ unit && unit ≤ 0xdfff

/-- A high and a low half side by side are one character. -/
def joinHalves : List Nat → List Nat
  | high :: low :: rest =>
      if isHigh high && isLow low then (0x10000 + (high - 0xd800) * 1024 + (low - 0xdc00)) :: joinHalves rest
      else high :: joinHalves (low :: rest)
  | units => units

/-- `json.loads` of a text that begins with a quote, `none` where it raises. -/
def loadsString : List Char → Option (List Nat)
  | '"' :: rest => (scanFrom .plain rest).bind fun read =>
      if read.2.all fun c => c = ' ' || c = '\t' || c = '\n' || c = '\r' then some (joinHalves read.1) else none
  | _ => none

theorem hexValue_hexDigit : ∀ d < 16, hexValue (hexDigit d) = some d := by
  decide

theorem scanFrom_unicodeEscape {unit : Nat} (h : unit < 0x10000) (rest : List Char) :
    scanFrom .plain (unicodeEscape unit ++ rest) = (scanFrom .plain rest).map (pushUnit unit) := by
  have hDigit : ∀ n, hexValue (hexDigit (n % 16)) = some (n % 16) := fun n =>
    hexValue_hexDigit _ (Nat.mod_lt _ (by decide))
  have hUnit : (((unit / 4096 % 16) * 16 + unit / 256 % 16) * 16 + unit / 16 % 16) * 16 + unit % 16 = unit := by
    omega
  simp [unicodeEscape, scanFrom, hDigit, hUnit]

/-- The code units an escaped character is written as. -/
def unitsOf (c : Char) : List Nat :=
  if c.toNat < 0x10000 then [c.toNat] else [highHalf c.toNat, lowHalf c.toNat]

theorem shortEscape_spec {point : Nat} {letter : Char} (h : shortEscape point = some letter) :
    letter ≠ 'u' ∧ letter ≠ '/' ∧ shortEscapes.lookup letter = some point ∧ point < 0x80 := by
  obtain ⟨e, hFind, rfl⟩ := Option.map_eq_some_iff.mp h
  have hPoint : e.2 = point := by simpa using List.find?_some hFind
  have hAll : ∀ e ∈ shortEscapes, e.1 ≠ 'u' ∧ e.1 ≠ '/' ∧ shortEscapes.lookup e.1 = some e.2 ∧ e.2 < 0x80 := by
    decide
  exact hPoint ▸ hAll e (List.mem_of_find?_eq_some hFind)

/-- A scan past one dumped character reads its units. -/
theorem scanFrom_dumpsChar (c : Char) (rest : List Char) :
    scanFrom .plain (dumpsChar c ++ rest) =
      (scanFrom .plain rest).map fun read => (unitsOf c ++ read.1, read.2) := by
  have hOne : c.toNat < 0x10000 → (scanFrom .plain rest).map (pushUnit c.toNat) =
      (scanFrom .plain rest).map fun read => (unitsOf c ++ read.1, read.2) := by
    intro hLow
    simp only [unitsOf, hLow, if_true]
    rfl
  unfold dumpsChar
  split
  · rename_i letter hShort
    obtain ⟨hU, hSlash, hLookup, hLow⟩ := shortEscape_spec hShort
    have hScan : scanFrom .plain (['\\', letter] ++ rest) = (scanFrom .plain rest).map (pushUnit c.toNat) := by
      simp [scanFrom, hU, hSlash, hLookup]
    rw [hScan, hOne (by omega)]
  · rename_i hLong
    split
    · rename_i hPrintable
      have hQuote : c ≠ '"' := by
        rintro rfl
        revert hLong
        decide
      have hSlash : c ≠ '\\' := by
        rintro rfl
        revert hLong
        decide
      have hScan : scanFrom .plain ([c] ++ rest) = (scanFrom .plain rest).map (pushUnit c.toNat) := by
        simp [scanFrom, hQuote, hSlash, not_lt.mpr hPrintable.1]
      rw [hScan, hOne (by omega)]
    · split
      · rename_i hLow
        rw [scanFrom_unicodeEscape hLow, hOne hLow]
      · rename_i hHigh
        have hBound : c.toNat < 0x110000 := by
          rcases c.valid with h | h
          · exact h.trans (by decide)
          · exact h.2
        have hHighHalf : highHalf c.toNat < 0x10000 := by
          unfold highHalf
          omega
        have hLowHalf : lowHalf c.toNat < 0x10000 := by
          unfold lowHalf
          omega
        rw [List.append_assoc, scanFrom_unicodeEscape hHighHalf, scanFrom_unicodeEscape hLowHalf]
        simp [unitsOf, hHigh, pushUnit, Function.comp_def]

theorem scanFrom_dumps (text : List Char) (rest : List Char) :
    scanFrom .plain (text.flatMap dumpsChar ++ '"' :: rest) = some (text.flatMap unitsOf, rest) := by
  induction text with
  | nil => simp [scanFrom]
  | cons c text ih =>
      rw [List.flatMap_cons, List.append_assoc, scanFrom_dumpsChar, ih]
      rfl

/-- No character of a text is half of a surrogate pair. -/
theorem not_half (c : Char) : isHigh c.toNat = false ∧ isLow c.toNat = false := by
  have hValid : c.toNat < 0xd800 ∨ 0xdfff < c.toNat := by
    rcases c.valid with h | h
    · exact .inl h
    · exact .inr h.1
  simp only [isHigh, isLow, Bool.and_eq_false_iff, decide_eq_false_iff_not]
  omega

theorem joinHalves_unitsOf (c : Char) (units : List Nat) : joinHalves (unitsOf c ++ units) = c.toNat :: joinHalves units := by
  unfold unitsOf
  split
  · cases units with
    | nil => rfl
    | cons next units => simp [joinHalves, (not_half c).1]
  · rename_i hHigh
    have hBound : c.toNat < 0x110000 := by
      rcases c.valid with h | h
      · exact h.trans (by decide)
      · exact h.2
    have hHalves : isHigh (highHalf c.toNat) = true ∧ isLow (lowHalf c.toNat) = true := by
      simp only [isHigh, isLow, highHalf, lowHalf, Bool.and_eq_true]
      refine ⟨⟨decide_eq_true ?_, decide_eq_true ?_⟩, decide_eq_true ?_, decide_eq_true ?_⟩ <;> omega
    have hPoint : 0x10000 + (highHalf c.toNat - 0xd800) * 1024 + (lowHalf c.toNat - 0xdc00) = c.toNat := by
      unfold highHalf lowHalf
      omega
    simp [joinHalves, hHalves.1, hHalves.2, hPoint]

/-- `json.loads` reads back what `json.dumps` wrote. -/
theorem loadsString_dumps (text : List Char) : loadsString (dumps text) = some (codePoints text) := by
  have hJoin : joinHalves (text.flatMap unitsOf) = codePoints text := by
    induction text with
    | nil => rfl
    | cons c text ih => rw [List.flatMap_cons, joinHalves_unitsOf, ih, codePoints, codePoints, List.map_cons]
  simp only [loadsString, dumps, scanFrom_dumps]
  simp [hJoin]

variable {text : List Char}

/-- A literal is longer than what it stands for. -/
theorem scanFrom_length {scan : Scan} {read : List Nat × List Char} (h : scanFrom scan text = some read) :
    read.1.length + 1 ≤ text.length := by
  have hPush : ∀ {rest : List Char} {unit : Nat} {read : List Nat × List Char} {n : Nat},
      (scanFrom .plain rest).map (pushUnit unit) = some read →
      (∀ read, scanFrom .plain rest = some read → read.1.length + 1 ≤ n) → read.1.length + 1 ≤ n + 1 := by
    intro rest unit read n hMap hAll
    obtain ⟨first, hFirst, rfl⟩ := Option.map_eq_some_iff.mp hMap
    have hLength := hAll first hFirst
    simp only [pushUnit, List.length_cons]
    omega
  induction text generalizing scan read with
  | nil => cases scan <;> cases h
  | cons c rest ih =>
      cases scan with
      | plain =>
          simp only [scanFrom] at h
          split at h
          · cases h
            simp
          split at h
          · exact (ih h).trans (by simp)
          split at h
          · cases h
          · exact hPush h fun read hRead => ih hRead
      | escape =>
          simp only [scanFrom] at h
          split at h
          · exact (ih h).trans (by simp)
          split at h
          · exact hPush h fun read hRead => ih hRead
          split at h
          · exact hPush h fun read hRead => ih hRead
          · cases h
      | hex more value =>
          simp only [scanFrom] at h
          split at h
          · cases h
          split at h
          · exact hPush h fun read hRead => ih hRead
          · exact (ih h).trans (by simp)

theorem joinHalves_length (units : List Nat) : (joinHalves units).length ≤ units.length := by
  fun_induction joinHalves units with
  | case1 high low rest hPair ih =>
      simp only [List.length_cons]
      omega
  | case2 high low rest hApart ih =>
      simp only [List.length_cons] at ih ⊢
      omega
  | case3 => exact le_rfl

theorem loadsString_length {points : List Nat} (h : loadsString text = some points) : points.length < text.length := by
  unfold loadsString at h
  split at h
  · obtain ⟨read, hScan, hRead⟩ := Option.bind_eq_some_iff.mp h
    split at hRead
    · cases hRead
      have hLength := scanFrom_length hScan
      have hJoin := joinHalves_length read.1
      simp only [List.length_cons]
      omega
    · cases hRead
  · cases h

/-- A dumped text is printable ASCII. -/
theorem dumps_printable {c : Char} (h : c ∈ dumps text) : 0x20 ≤ c.toNat ∧ c.toNat ≤ 0x7e := by
  have hDigit : ∀ n < 16, 0x20 ≤ (hexDigit n).toNat ∧ (hexDigit n).toNat ≤ 0x7e := by decide
  have hEscape : ∀ unit, ∀ d ∈ unicodeEscape unit, 0x20 ≤ d.toNat ∧ d.toNat ≤ 0x7e := by
    intro unit d hd
    simp only [unicodeEscape, List.mem_cons, List.not_mem_nil, or_false] at hd
    rcases hd with rfl | rfl | rfl | rfl | rfl | rfl
    · decide
    · decide
    all_goals exact hDigit _ (Nat.mod_lt _ (by decide))
  have hShort : ∀ e ∈ shortEscapes, 0x20 ≤ e.1.toNat ∧ e.1.toNat ≤ 0x7e := by decide
  have hChar : ∀ e, ∀ d ∈ dumpsChar e, 0x20 ≤ d.toNat ∧ d.toNat ≤ 0x7e := by
    intro e d hd
    unfold dumpsChar at hd
    split at hd
    · rename_i letter hLetter
      obtain ⟨entry, hFind, rfl⟩ := Option.map_eq_some_iff.mp hLetter
      rcases List.mem_cons.mp hd with rfl | hd
      · decide
      · obtain rfl := List.mem_singleton.mp hd
        exact hShort entry (List.mem_of_find?_eq_some hFind)
    · split at hd
      · obtain rfl := List.mem_singleton.mp hd
        assumption
      · split at hd
        · exact hEscape _ d hd
        · rcases List.mem_append.mp hd with hd | hd
          · exact hEscape _ d hd
          · exact hEscape _ d hd
  rcases List.mem_cons.mp h with rfl | h
  · decide
  rcases List.mem_append.mp h with h | h
  · obtain ⟨e, -, hd⟩ := List.mem_flatMap.mp h
    exact hChar e c hd
  · obtain rfl := List.mem_singleton.mp h
    decide

end Brnrd.Python

/-! A whole JSON value as `json.dumps` writes it, and where its parts stand in the text. -/
namespace Brnrd.Python

mutual
/-- `json.dumps(value, sort_keys=True, separators=(comma, colon))`. -/
def dumpsWith (comma colon : List Char) : Value → List Char
  | .null => "null".toList
  | .bool b => if b then "true".toList else "false".toList
  | .int n => (toString n).toList
  | .float text _ => text.toList
  | .str s => dumps s.toList
  | .arr items => '[' :: (comma.intercalate (dumpsItems comma colon items) ++ [']'])
  | .obj fields => '\x7b' :: (comma.intercalate (dumpsFields comma colon fields) ++ ['\x7d'])

def dumpsItems (comma colon : List Char) : List Value → List (List Char)
  | [] => []
  | value :: rest => dumpsWith comma colon value :: dumpsItems comma colon rest

def dumpsFields (comma colon : List Char) : Dict → List (List Char)
  | [] => []
  | (key, value) :: rest => (dumps key.toList ++ colon ++ dumpsWith comma colon value) :: dumpsFields comma colon rest
end

/-- `json.dumps(value, sort_keys=True, separators=(",", ":"))`. -/
def dumpsValue : Value → List Char :=
  dumpsWith [','] [':']

variable {fields : Dict} {value : Value} {key : String}

theorem mem_dumpsFields {comma colon : List Char} (h : (key, value) ∈ fields) :
    dumps key.toList ++ colon ++ dumpsWith comma colon value ∈ dumpsFields comma colon fields := by
  induction fields with
  | nil => cases h
  | cons field rest ih =>
      rw [dumpsFields]
      rcases List.mem_cons.mp h with rfl | hRest
      · exact List.mem_cons_self
      · exact List.mem_cons_of_mem _ (ih hRest)

/-- What a dict holds is written within it. -/
theorem infix_dumpsValue (h : (key, value) ∈ fields) : dumpsValue value <:+: dumpsValue (.obj fields) := by
  have hField : dumpsValue value <:+: dumps key.toList ++ [':'] ++ dumpsValue value :=
    ⟨dumps key.toList ++ [':'], [], by simp⟩
  have hFields : dumpsValue value <:+: [','].intercalate (dumpsFields [','] [':'] fields) :=
    hField.trans (Joined.infix_intercalate (mem_dumpsFields h))
  have hObj : dumpsValue (.obj fields) = '\x7b' :: ([','].intercalate (dumpsFields [','] [':'] fields) ++ ['\x7d']) := by
    rw [dumpsValue, dumpsWith]
  rw [hObj]
  exact hFields.trans ⟨['\x7b'], ['\x7d'], by simp⟩

theorem mem_of_lookup (h : fields.lookup key = some value) : (key, value) ∈ fields := by
  obtain ⟨before, after, rfl, -⟩ := List.lookup_eq_some_iff.mp h
  exact List.mem_append_right _ List.mem_cons_self

theorem mem_of_get (h : Dict.get fields key = value) (hSome : value ≠ .null) : (key, value) ∈ fields := by
  refine mem_of_lookup ?_
  cases hLookup : fields.lookup key with
  | none => exact (hSome (by rw [← h, Dict.get, hLookup]; rfl)).elim
  | some found => rw [← h, Dict.get, hLookup]; rfl

/-- A text is written with its plain characters as they are. -/
theorem prefix_dumps {head text : List Char} (h : head <+: text)
    (hPlain : ∀ c ∈ head, dumpsChar c = [c]) : '"' :: head <+: dumps text := by
  obtain ⟨rest, rfl⟩ := h
  have hHead : head.flatMap dumpsChar = head := by
    rw [List.flatMap_congr hPlain, List.flatMap_singleton']
  rw [dumps, List.flatMap_append, hHead]
  exact ⟨rest.flatMap dumpsChar ++ ['"'], by simp⟩

end Brnrd.Python
