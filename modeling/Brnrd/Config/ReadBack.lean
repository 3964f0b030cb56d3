import Brnrd.Config.Coerced

/-! The setting an edit writes, read again: texts whose line is kept whole, floats
printed with a point, and every integer and list read back. -/
namespace Brnrd.Config

open Python

variable (host : Interpreter)

/-- What the value asked for is to the loader. `None` asks for a default that is
`None`. -/
def asked (path : String) (key : Key) (value : Value) : Except String Value :=
  match value with
  | .null => if key.default = .null then .ok .null else .error s!"{path}: {key.name} has a default"
  | _ => coerce host path key value

/-- A text is kept where the reader meets no hash outside quotes on its line, a float
where its printed form has a point. -/
def Kept (value : Value) : Prop :=
  match value with
  | .str _ => withoutComment (renderValue value) = renderValue value
  | .float printed => '.' ∈ printed
  | _ => True

instance (value : Value) : Decidable (Kept value) := by
  cases value <;> unfold Kept <;> infer_instance

/-- A float is kept by the text that `float` reads back. -/
def Real (value : Value) : Prop :=
  ∀ printed, value = .float printed → host.float printed = some printed

def NoBreak (value : Value) : Prop :=
  ∀ text, value = .str text → OneLine text

variable {name text printed : Text}

/-- What the reader makes of a rendered value without a hash. -/
theorem withoutComment_whole (h : '#' ∉ text) : withoutComment text = text := by
  rcases keepFrom_cut none false text with hSame | ⟨a, b, rfl, -⟩
  · exact hSame
  · exact absurd (by simp) h

/-- The characters of a channel's spelling. -/
theorem channel_chars (h : isChannel name = true) {c : Char} (hc : c ∈ name) :
    0x2d ≤ c.toNat ∧ c.toNat ≤ 0x7a ∧ c.toNat ≠ 0x5c := by
  have hFolder : ∀ word : Text, isFolder word = true → ∀ d ∈ word, 0x2d ≤ d.toNat ∧ d.toNat ≤ 0x7a ∧ d.toNat ≠ 0x5c := by
    have hAlnum : ∀ d : Char, ('a' ≤ d && d ≤ 'z' || 'A' ≤ d && d ≤ 'Z' || '0' ≤ d && d ≤ '9') = true →
        0x2d ≤ d.toNat ∧ d.toNat ≤ 0x7a ∧ d.toNat ≠ 0x5c := by
      intro d hd
      simp only [Bool.or_eq_true, Bool.and_eq_true, decide_eq_true_eq, Char.le_def, UInt32.le_iff_toNat_le] at hd
      have hNat : d.toNat = d.val.toNat := rfl
      rw [hNat]
      rcases hd with (⟨hLow, hHigh⟩ | ⟨hLow, hHigh⟩) | ⟨hLow, hHigh⟩
      · have hBounds : 0x61 ≤ d.val.toNat ∧ d.val.toNat ≤ 0x7a := ⟨hLow, hHigh⟩
        omega
      · have hBounds : 0x41 ≤ d.val.toNat ∧ d.val.toNat ≤ 0x5a := ⟨hLow, hHigh⟩
        omega
      · have hBounds : 0x30 ≤ d.val.toNat ∧ d.val.toNat ≤ 0x39 := ⟨hLow, hHigh⟩
        omega
    intro word hWord d hd
    cases word with
    | nil => cases hd
    | cons first rest =>
        simp only [isFolder, Bool.and_eq_true, List.all_eq_true] at hWord
        rcases List.mem_cons.mp hd with rfl | hd
        · exact hAlnum d hWord.1
        · have hRest := hWord.2 d hd
          simp only [Bool.or_eq_true, decide_eq_true_eq] at hRest
          rcases hRest with ((hRest | rfl) | rfl) | rfl
          · exact hAlnum d (by simpa using hRest)
          · decide
          · decide
          · decide
  unfold isChannel at h
  split at h
  · rename_i hEqual
    obtain ⟨first, rest, rfl, hFirst⟩ := List.eq_append_cons_of_mem hEqual
    rw [before_append hFirst, behind_append hFirst, Bool.and_eq_true] at h
    rcases List.mem_append.mp hc with hc | hc
    · exact hFolder first h.1 c hc
    · rcases List.mem_cons.mp hc with rfl | hc
      · decide
      · exact hFolder rest h.2 c hc
  · exact hFolder name h c hc

/-- A plain text is dumped between quotes. -/
theorem dumps_plain (h : ∀ c ∈ name, 0x2d ≤ c.toNat ∧ c.toNat ≤ 0x7a ∧ c.toNat ≠ 0x5c) :
    dumps name = '"' :: (name ++ ['"']) := by
  have hChar : ∀ c ∈ name, dumpsChar c = [c] := by
    intro c hc
    obtain ⟨hLow, hHigh, hSlash⟩ := h c hc
    have hShort : shortEscape c.toNat = none := by
      have hNone : shortEscapes.find? (fun e => e.2 == c.toNat) = none := by
        rw [List.find?_eq_none]
        intro e he
        have hPoint : ∀ e ∈ shortEscapes, e.2 < 0x2d ∨ e.2 = 0x5c := by decide
        rw [beq_iff_eq]
        rcases hPoint e he with h | h <;> omega
      rw [shortEscape, hNone]
      rfl
    unfold dumpsChar
    rw [hShort]
    dsimp only
    rw [if_pos ⟨by omega, by omega⟩]
  have hAll : name.flatMap dumpsChar = name := by
    induction name with
    | nil => rfl
    | cons c name ih =>
        rw [List.flatMap_cons, hChar c List.mem_cons_self,
          ih (fun d hd => h d (List.mem_cons_of_mem _ hd)) fun d hd => hChar d (List.mem_cons_of_mem _ hd)]
        rfl
  rw [dumps, hAll]

/-- A list of channels, as it is rendered. -/
theorem render_channels {names : List Text} (h : ∀ name ∈ names, isChannel name = true) :
    renderValue (.list (names.map .text)) =
      '[' :: ((", ".toList).intercalate (names.map fun name => '"' :: (name ++ ['"'])) ++ [']']) := by
  have hMap : (names.map Item.text).map printItem = names.map fun name => '"' :: (name ++ ['"']) := by
    rw [List.map_map]
    refine List.map_congr_left fun name hName => ?_
    exact dumps_plain fun c hc => channel_chars (h name hName) hc
  rw [renderValue, hMap]

/-- The characters of a rendered list of channels. -/
theorem mem_render_channels {names : List Text} (h : ∀ name ∈ names, isChannel name = true) {c : Char}
    (hc : c ∈ renderValue (.list (names.map .text))) :
    c ∈ "[], \"".toList ∨ (0x2d ≤ c.toNat ∧ c.toNat ≤ 0x7a ∧ c.toNat ≠ 0x5c) := by
  rw [render_channels h] at hc
  rcases List.mem_cons.mp hc with rfl | hc
  · exact .inl (by decide)
  · rcases List.mem_append.mp hc with hc | hc
    · rcases Joined.mem_intercalate hc with hc | ⟨part, hPart, hc⟩
      · have hAll : ∀ d ∈ ", ".toList, d ∈ "[], \"".toList := by decide
        exact .inl (hAll c hc)
      · obtain ⟨name, hName, rfl⟩ := List.mem_map.mp hPart
        rcases List.mem_cons.mp hc with rfl | hc
        · exact .inl (by decide)
        · rcases List.mem_append.mp hc with hc | hc
          · exact .inr (channel_chars (h name hName) hc)
          · exact .inl (List.mem_singleton.mp hc ▸ by decide)
    · exact .inl (List.mem_singleton.mp hc ▸ by decide)

variable {key : Key}

/-- A list the loader takes is one of channels. -/
theorem coerce_list {path : String} {items : List Item} {want : Value} (h : coerce host path key (.list items) = .ok want) :
    ∃ names : List Text, items = names.map .text ∧ ∀ name ∈ names, isChannel name = true := by
  have hNames : ∀ items : List Item, (items.filterMap Item.text?).length = items.length →
      items = (items.filterMap Item.text?).map .text := by
    intro items hLength
    induction items with
    | nil => rfl
    | cons item items ih =>
        cases item with
        | text s =>
            rw [List.filterMap_cons_some (show Item.text? (.text s) = some s from rfl), List.map_cons]
            exact congrArg _ (ih (by simpa [Item.text?] using hLength))
        | other printed =>
            have hLess := List.length_filterMap_le Item.text? items
            rw [List.filterMap_cons_none (show Item.text? (.other printed) = none from rfl), List.length_cons] at hLength
            omega
  unfold coerce at h
  cases hKind : key.kind <;> simp only [hKind] at h
  case names =>
    split at h
    · cases h
    · rename_i hGood
      simp only [not_or, not_not] at hGood
      have hAll : (items.filterMap Item.text?).all isChannel = true := by
        cases hSome : (items.filterMap Item.text?).all isChannel
        · exact absurd (by rw [hSome]; rfl) hGood.2
        · rfl
      exact ⟨items.filterMap Item.text?, hNames items hGood.1, List.all_eq_true.mp hAll⟩
  all_goals cases h

/-- What the line of a rendered text of solid ends, with no hash, is read as. -/
theorem entryOf_solid (hKey : key ∈ KEYS) (value : Value) (hNew : renderValue value ≠ [])
    (hFirst : ∀ c, (renderValue value).head? = some c → isSpace c = false)
    (hLast : ∀ c, (renderValue value).getLast? = some c → isSpace c = false) (hHash : '#' ∉ renderValue value) :
    entryOf host (settingOf key.name value) =
      match literal host (renderValue value) with
      | .ok read => some (some (key.name, read))
      | .error _ => none := by
  obtain ⟨c, rest, hRender⟩ := List.exists_cons_of_ne_nil hNew
  have hNot : c ≠ '#' := by
    rintro rfl
    exact hHash (hRender ▸ List.mem_cons_self ..)
  rewrite [entryOf_setting host hKey value hRender (hFirst c (by rw [hRender]; rfl)) hNot, withoutComment_whole hHash,
    strip_eq_self hFirst hLast]
  rfl

theorem literal_bracket (rest : Text) :
    literal host ('[' :: rest) = match host.literalEval ('[' :: rest) with
      | .error raised => .error raised
      | .ok (some items) => .ok (.list items)
      | .ok none => .ok (.str ('[' :: rest)) :=
  if_pos rfl

theorem literal_int (n : Int) : literal host (toString n).toList = .ok (.int n) := by
  have hChars := toString_chars n
  have hNot : ∀ {c : Char}, c ∈ (toString n).toList → c ≠ '[' ∧ c ≠ '"' ∧ c ≠ '\'' ∧ c ≠ '.' := by
    intro c hc
    rcases hChars c hc with rfl | hDigit
    · decide
    · obtain ⟨hLow, -⟩ := toNat_of_isDigit hDigit
      refine ⟨?_, ?_, ?_, ?_⟩ <;> rintro rfl
      · revert hDigit
        decide
      all_goals
        revert hLow
        decide
  have hHead : ∀ {c : Char}, (toString n).toList.head? = some c → c ∈ (toString n).toList := List.mem_of_head?
  unfold literal
  rw [if_neg fun h => (hNot (hHead h)).1 rfl, if_neg, if_neg fun h => (hNot h).2.2.2 rfl, String.ofList_toList,
    parseInt_toString]
  rintro ⟨-, -, h | h⟩
  · exact (hNot (hHead h)).2.1 rfl
  · exact (hNot (hHead h)).2.2.1 rfl

theorem literal_float (hDoc : host.Documented) (hReal : host.float printed = some printed) :
    literal host printed = .ok (if '.' ∈ printed then .float printed else .str printed) := by
  obtain ⟨-, hChars⟩ := hDoc.printed printed hReal
  have hNot : ∀ {c : Char}, c ∈ printed → c ≠ '[' ∧ c ≠ '"' ∧ c ≠ '\'' := by
    have hAll : ∀ c ∈ "0123456789.+-einfa".toList, c ≠ '[' ∧ c ≠ '"' ∧ c ≠ '\'' := by decide
    exact fun {c} hc => hAll c (hChars c hc)
  have hHead : ∀ {c : Char}, printed.head? = some c → c ∈ printed := List.mem_of_head?
  unfold literal
  rw [if_neg fun h => (hNot (hHead h)).1 rfl, if_neg]
  · by_cases hPoint : '.' ∈ printed
    · rw [if_pos hPoint, if_pos hPoint, hReal]
    · rw [if_neg hPoint, if_neg hPoint, hDoc.pointless printed hReal hPoint]
  · rintro ⟨-, -, h | h⟩
    · exact (hNot (hHead h)).2.1 rfl
    · exact (hNot (hHead h)).2.2 rfl

/-- A float is taken by the keys that hold a number, and a text by none of them but
where it is empty. -/
theorem coerce_float {path : String} {want : Value} (hWant : coerce host path key (.float printed) = .ok want)
    (hNew : text ≠ []) :
    coerce host path key (.str text) ≠ .ok want := by
  intro hText
  unfold coerce at hWant hText
  cases hKind : key.kind <;> simp only [hKind] at hWant hText <;> first
    | cases hWant
    | rw [if_neg fun h => hNew h.1] at hText
      cases hText

/-- The line an edit writes sets its key, to what was asked for exactly where the
value is kept. -/
theorem reads_back (hDoc : host.Documented) {path : String} (hKey : key ∈ KEYS) {value want : Value}
    (hReal : Real host value) (hAsked : asked host path key value = .ok want) :
    ∃ read, entryOf host (settingOf key.name value) = some (some (key.name, read)) ∧
      (coerce host path key read = .ok want ↔ Kept value) := by
  cases value with
  | bool b =>
      unfold asked coerce at hAsked
      cases hKind : key.kind <;> simp only [hKind] at hAsked <;> cases hAsked
  | null =>
      have hDefault : key.default = .null := by
        by_contra hNot
        simp [asked, hNot] at hAsked
      obtain ⟨hNames, hChoice⟩ := null_default key hKey hDefault
      refine ⟨.str [], ?_, iff_of_true ?_ trivial⟩
      · rw [entryOf_solid host hKey .null (List.cons_ne_nil _ _) (by rintro _ ⟨⟩; rfl) (by rintro _ ⟨⟩; rfl) (by decide)]
        exact congrArg _ (by rfl)
      · obtain rfl : want = .null := by simpa [asked, hDefault] using hAsked.symm
        unfold coerce
        cases hKind : key.kind with
        | names => exact absurd hKind hNames
        | choice => exact absurd hKind hChoice
        | _ => simp [hDefault, strip]
  | int n =>
      have hSolid : ∀ c ∈ (toString n).toList, isSpace c = false ∧ c ≠ '#' := by
        intro c hc
        rcases toString_chars n c hc with rfl | hDigit
        · decide
        · refine ⟨not_isSpace_of_isDigit hDigit, ?_⟩
          rintro rfl
          revert hDigit
          decide
      refine ⟨.int n, ?_, iff_of_true hAsked trivial⟩
      rw [entryOf_solid host hKey (.int n) (toString_ne_nil n) (fun c hc => (hSolid c (List.mem_of_head? hc)).1)
        (fun c hc => (hSolid c (List.mem_of_getLast? hc)).1) fun h => (hSolid _ h).2 rfl]
      simp only [renderValue, literal_int]
  | float printed =>
      have hPrinted := hReal printed rfl
      obtain ⟨hNew, hChars⟩ := hDoc.printed printed hPrinted
      have hSolid : ∀ c ∈ printed, isSpace c = false ∧ c ≠ '#' := by
        have hAll : ∀ c ∈ "0123456789.+-einfa".toList, isSpace c = false ∧ c ≠ '#' := by decide
        exact fun c hc => hAll c (hChars c hc)
      refine ⟨if '.' ∈ printed then .float printed else .str printed, ?_, ?_⟩
      · rw [entryOf_solid host hKey (.float printed) hNew (fun c hc => (hSolid c (List.mem_of_head? hc)).1)
          (fun c hc => (hSolid c (List.mem_of_getLast? hc)).1) fun h => (hSolid _ h).2 rfl]
        simp only [renderValue, literal_float host hDoc hPrinted]
      · by_cases hPoint : '.' ∈ printed
        · rw [if_pos hPoint]
          exact iff_of_true hAsked hPoint
        · rw [if_neg hPoint]
          exact iff_of_false (coerce_float host hAsked hNew) hPoint
  | str text =>
      have hLine := entryOf_setting host hKey (.str text) rfl (by decide) (by decide)
      by_cases hWhole : withoutComment (renderValue (.str text)) = renderValue (.str text)
      · refine ⟨.str text, ?_, iff_of_true hAsked hWhole⟩
        rw [hLine, literal_whole host hWhole]
      · obtain ⟨read, hRead, hShort⟩ := literal_cut host hDoc.quoted hWhole
        refine ⟨.str read, ?_, iff_of_false (coerce_short hDoc hKey hShort hAsked) hWhole⟩
        rw [hLine, hRead]
  | list items =>
      obtain ⟨names, rfl, hNames⟩ := coerce_list host hAsked
      have hChars := @mem_render_channels names hNames
      have hRender := render_channels hNames
      refine ⟨.list (names.map .text), ?_, iff_of_true hAsked trivial⟩
      rw [entryOf_solid host hKey (.list (names.map .text))]
      · have hPlain : ∀ name ∈ names, ∀ c ∈ name, c ≠ '"' ∧ c ≠ '\\' ∧ 0x20 ≤ c.toNat ∧ c.toNat ≤ 0x7e := by
          intro name hName c hc
          obtain ⟨hLow, hHigh, hSlash⟩ := channel_chars (hNames name hName) hc
          refine ⟨?_, ?_, by omega, by omega⟩
          · rintro rfl
            revert hLow
            decide
          · rintro rfl
            exact hSlash rfl
        rw [hRender, literal_bracket, hDoc.display names hPlain]
      · rw [hRender]
        exact List.cons_ne_nil _ _
      · intro c hc
        rw [hRender] at hc
        rw [← Option.some.inj hc]
        decide
      · intro c hc
        rw [hRender, ← List.cons_append, List.getLast?_concat] at hc
        rw [← Option.some.inj hc]
        decide
      · intro hMem
        rcases hChars hMem with h | ⟨hLow, -⟩
        · revert h
          decide
        · revert hLow
          decide

end Brnrd.Config
