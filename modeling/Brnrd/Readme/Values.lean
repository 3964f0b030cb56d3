import Brnrd.Readme.Readme

/-! One line of the front matter, read twice: when the runtime can read a value the
gate accepts, and when it reads the same text. -/
namespace Brnrd.Readme

open Python

/-- A text without the ends that `p` holds of: `strip` for white space, the gate's
`strip(" ")` for spaces. -/
def trim (p : Char → Bool) (text : Text) : Text :=
  ((text.dropWhile p).reverse.dropWhile p).reverse

theorem strip_eq_trim (text : Text) : strip text = trim isSpace text := rfl

theorem trim_split (p : Char → Bool) (text : Text) :
    ∃ a b, text = a ++ (trim p text ++ b) ∧ (∀ c ∈ a, p c = true) ∧ ∀ c ∈ b, p c = true := by
  refine ⟨text.takeWhile p, ((text.dropWhile p).reverse.takeWhile p).reverse, ?_, fun c hc => List.mem_takeWhile_imp hc,
    fun c hc => List.mem_takeWhile_imp (List.mem_reverse.mp hc)⟩
  rw [trim, ← List.reverse_append, List.takeWhile_append_dropWhile, List.reverse_reverse,
    List.takeWhile_append_dropWhile]

variable {a b key raw part text value : Text}

theorem dropWhile_all {p : Char → Bool} (h : ∀ c ∈ a, p c = true) : a.dropWhile p = [] :=
  List.dropWhile_eq_nil_iff.mpr h

/-- White space at the ends makes no difference to `strip`. -/
theorem strip_append (ha : ∀ c ∈ a, isSpace c = true) (hb : ∀ c ∈ b, isSpace c = true) (m : Text) :
    strip (a ++ (m ++ b)) = strip m := by
  have hEnd : ∀ x : Text, ((x ++ b).reverse.dropWhile isSpace).reverse = (x.reverse.dropWhile isSpace).reverse := by
    intro x
    have hAll : ∀ c ∈ b.reverse, isSpace c = true := fun c hc => hb c (List.mem_reverse.mp hc)
    rw [List.reverse_append, List.dropWhile_append_of_pos hAll]
  rw [strip, strip, List.dropWhile_append_of_pos ha, List.dropWhile_append]
  split
  · rename_i hNil
    rw [List.isEmpty_iff.mp hNil, dropWhile_all hb]
  · exact hEnd _

theorem strip_stripSpaces (text : Text) : strip (Gate.stripSpaces text) = strip text := by
  obtain ⟨a, b, hText, ha, hb⟩ := trim_split (· = ' ') text
  have hSpace : ∀ c : Char, decide (c = ' ') = true → isSpace c = true := by
    intro c hc
    rw [of_decide_eq_true hc]
    decide
  conv_rhs => rw [hText, strip_append (fun c hc => hSpace c (ha c hc)) fun c hc => hSpace c (hb c hc)]
  rfl

theorem strip_eq_nil : strip text = [] ↔ ∀ c ∈ text, isSpace c = true := by
  constructor
  · intro h c hc
    obtain ⟨a, b, hText, ha, hb⟩ := trim_split isSpace text
    rw [← strip_eq_trim, h] at hText
    rw [hText] at hc
    rcases List.mem_append.mp hc with hc | hc
    · exact ha c hc
    · exact hb c hc
  · intro h
    rw [strip, dropWhile_all h]
    rfl

/-- A comma behind no white space: the parts of a text are those of its middle, up to
white space. -/
theorem splitOn_end (hb : ',' ∉ b) (m : Text) :
    ∃ first last, m.splitOn ',' = first ++ [last] ∧ (m ++ b).splitOn ',' = first ++ [last ++ b] := by
  induction m with
  | nil => exact ⟨[], [], rfl, List.splitOn_eq_singleton hb⟩
  | cons c m ih =>
      obtain ⟨first, last, hM, hMB⟩ := ih
      rw [List.cons_append, List.splitOn_cons_eq_if_modifyHead, List.splitOn_cons_eq_if_modifyHead c (m ++ b), hM, hMB]
      split
      · exact ⟨[] :: first, last, rfl, rfl⟩
      · cases first with
        | nil => exact ⟨[], c :: last, rfl, rfl⟩
        | cons line first => exact ⟨(c :: line) :: first, last, rfl, rfl⟩

theorem splitOn_strip (ha : ∀ c ∈ a, isSpace c = true) (hb : ∀ c ∈ b, isSpace c = true) (m : Text) :
    ((a ++ (m ++ b)).splitOn ',').map strip = (m.splitOn ',').map strip := by
  have hComma : ∀ {c : Char}, isSpace c = true → c ≠ ',' := by
    rintro c hc rfl
    revert hc
    decide
  induction a with
  | nil =>
      obtain ⟨first, last, hM, hMB⟩ := splitOn_end (fun h => hComma (hb _ h) rfl) m
      rw [List.nil_append, hM, hMB, List.map_append, List.map_append, List.map_singleton, List.map_singleton]
      rw [show last ++ b = [] ++ (last ++ b) from rfl, strip_append (by simp) hb]
  | cons c a ih =>
      have hSpace := ha c (by simp)
      have hParts := ih fun d hd => ha d (List.mem_cons_of_mem _ hd)
      rw [List.cons_append, List.splitOn_cons_eq_if_modifyHead, if_neg (by simpa using hComma hSpace), ← hParts]
      cases (a ++ (m ++ b)).splitOn ',' with
      | nil => rfl
      | cons part parts => simp [strip_cons hSpace]

theorem splitOn_trim {p : Char → Bool} (hp : ∀ c, p c = true → isSpace c = true) (text : Text) :
    ((trim p text).splitOn ',').map strip = (text.splitOn ',').map strip := by
  obtain ⟨a, b, hText, ha, hb⟩ := trim_split p text
  conv_rhs => rw [hText]
  exact (splitOn_strip (fun c hc => hp c (ha c hc)) (fun c hc => hp c (hb c hc)) _).symm

/-- A quoted value has no white space at its ends, so both readers take it; any
other value is read as it stands. -/
theorem unquote_cases (h : Gate.unquote value = .ok text) :
    value.head? = some '"' ∧ strip value = value ∧ unquote value = .ok text ∨ '"' ∉ value ∧ text = value := by
  unfold Gate.unquote at h
  split at h
  · rename_i hQuoted
    simp only [Bool.and_eq_true, decide_eq_true_eq] at hQuoted
    obtain ⟨⟨hHead, hLast⟩, hLength⟩ := hQuoted
    have hSpace : isSpace '"' = false := by decide
    split at h
    · rename_i hInner
      refine .inl ⟨hHead, strip_eq_self ?_ ?_, ?_⟩
      · rintro c hc
        rw [← Option.mem_unique hHead hc, hSpace]
      · rintro c hc
        rw [← Option.mem_unique hLast hc, hSpace]
      · simpa [unquote, hHead, hLast, hInner, Nat.not_lt.mpr hLength] using h
    · cases h
  · split at h
    · exact .inr ⟨‹_›, (Except.ok.inj h).symm⟩
    · cases h

theorem unquote_plain (h : '"' ∉ value) : unquote value = .ok value := by
  have hHead : value.head? ≠ some '"' := fun hSame => h (List.mem_of_head? hSame)
  have hLast : value.getLast? ≠ some '"' := fun hSame => h (List.mem_of_getLast? hSame)
  simp [unquote, hHead, hLast]

theorem strip_subset (text : Text) : strip text ⊆ text := by
  obtain ⟨a, b, hText, -, -⟩ := trim_split isSpace text
  intro c hc
  rw [hText]
  exact List.mem_append_right _ (List.mem_append_left _ hc)

/-- The runtime can unquote what the gate can. -/
theorem unquote_strip (h : Gate.unquote value = .ok text) : ∃ v, unquote (strip value) = .ok v := by
  rcases unquote_cases h with ⟨-, hStrip, hValue⟩ | ⟨hNone, -⟩
  · exact ⟨text, by rw [hStrip, hValue]⟩
  · exact ⟨_, unquote_plain fun hMem => hNone (strip_subset value hMem)⟩

/-- A value the runtime takes for a list is one it can read. -/
def ListRead (key value : Text) : Prop :=
  value.head? = some '[' →
    key ≠ keyFor ∧ value.getLast? = some ']' ∧
      (strip (inner value) = [] ∨ ∀ part ∈ (inner value).splitOn ',', strip part ≠ [])

instance (key value : Text) : Decidable (ListRead key value) :=
  inferInstanceAs (Decidable (_ → _))

/-- The text of a value is the same for both readers, and no list for the runtime. -/
def SameText (raw : Text) : Prop :=
  strip raw = Gate.stripSpaces raw ∧ (strip raw).head? ≠ some '['

instance (raw : Text) : Decidable (SameText raw) :=
  inferInstanceAs (Decidable (_ ∧ _))

theorem readPart_isOk (hQuote : ∃ v, unquote (strip part) = .ok v) : (∃ v, readPart key part = .ok v) ↔ strip part ≠ [] := by
  unfold readPart
  split
  · rename_i hNil
    simp [hNil]
  · rename_i hSome
    simp [hSome, hQuote]

/-- The parts of a list are read one by one, up to white space. -/
theorem parseList_isOk (hQuote : ∀ part ∈ (inner value).splitOn ',', ∃ v, unquote (strip part) = .ok v) :
    (∃ l, parseList value key = .ok l) ↔ value.getLast? = some ']' ∧
      (strip (inner value) = [] ∨ ∀ part ∈ (inner value).splitOn ',', strip part ≠ []) := by
  have hParts := splitOn_trim (p := isSpace) (fun _ h => h) (inner value)
  rw [← strip_eq_trim] at hParts
  have hEach : ∀ {P : Text → Prop}, (∀ part ∈ (strip (inner value)).splitOn ',', P (strip part)) ↔
      ∀ part ∈ (inner value).splitOn ',', P (strip part) := by
    intro P
    rw [← List.forall_mem_map (f := strip), hParts, List.forall_mem_map]
  unfold parseList
  by_cases hLast : value.getLast? = some ']'
  · by_cases hBlank : strip (inner value) = []
    · simp [hLast, hBlank]
    · have hQuote' := (@hEach fun v => ∃ w, unquote v = .ok w).mpr hQuote
      simp only [hLast, hBlank, ne_eq, not_true, if_false, false_or, true_and, Fallible.mapM_isOk]
      rw [← @hEach (· ≠ [])]
      exact forall₂_congr fun part hPart => readPart_isOk (hQuote' part hPart)
  · simp [hLast]

/-- The brackets of a list are its ends for both readers. -/
theorem strip_list (hHead : value.head? = some '[') (hLast : value.getLast? = some ']') : strip value = value := by
  refine strip_eq_self ?_ ?_
  · rintro c hc
    rw [← Option.mem_unique hHead hc]
    decide
  · rintro c hc
    rw [← Option.mem_unique hLast hc]
    decide

/-- White space apart, a text begins as its `strip` does. -/
theorem head_strip {c : Char} (hHead : text.head? = some c) (hSolid : isSpace c = false) : (strip text).head? = some c := by
  obtain ⟨a, b, hText, ha, hb⟩ := trim_split isSpace text
  cases a with
  | cons d a =>
      rw [hText] at hHead
      have hSpace := ha d (by simp)
      obtain rfl : d = c := by simpa using hHead
      rw [hSolid] at hSpace
      cases hSpace
  | nil =>
      rw [List.nil_append, ← strip_eq_trim] at hText
      have hSome := strip_ne_nil hHead hSolid
      rw [hText, List.head?_append_of_ne_nil _ hSome] at hHead
      exact hHead

/-- What the gate has seen of a value: a closed list whose parts unquote, or a text. -/
theorem lineValue_cases (h : Gate.lineValue key raw = .ok value) :
    raw.head? = some '[' ∧ key ≠ keyFor ∧ raw.getLast? = some ']' ∧ value = raw ∧
        (Gate.stripSpaces (inner raw) = [] ∨
          ∀ part ∈ (Gate.stripSpaces (inner raw)).splitOn ',', ∃ v, Gate.unquote (Gate.stripSpaces part) = .ok v) ∨
      raw.head? ≠ some '[' ∧ Gate.unquote raw = .ok value := by
  unfold Gate.lineValue at h
  split at h
  · rename_i hHead
    split at h
    · cases h
    · rename_i hKey
      split at h
      · cases h
      · rename_i hLast
        refine .inl ⟨hHead, hKey, by simpa using hLast, ?_⟩
        split at h
        · rename_i hNil
          exact ⟨(Except.ok.inj h).symm, .inl hNil⟩
        · obtain ⟨⟨⟩, hParts, rfl⟩ := Fallible.map_eq_ok.mp h
          refine ⟨rfl, .inr fun part hPart => ?_⟩
          have hPartOk := Fallible.forM_eq_ok.mp hParts part hPart
          unfold Gate.checkPart at hPartOk
          split at hPartOk
          · cases hPartOk
          · obtain ⟨v, hv, -⟩ := Fallible.map_eq_ok.mp hPartOk
            exact ⟨v, hv⟩
  · rename_i hHead
    exact .inr ⟨hHead, h⟩

theorem splitOn_subset (h : part ∈ text.splitOn ',') : part ⊆ text := by
  induction text generalizing part with
  | nil =>
      obtain rfl : part = [] := by simpa using h
      exact List.nil_subset _
  | cons c text ih =>
      rw [List.splitOn_cons_eq_if_modifyHead] at h
      split at h
      · rcases List.mem_cons.mp h with rfl | h
        · exact List.nil_subset _
        · exact List.subset_cons_of_subset c (ih h)
      · cases hParts : text.splitOn ',' with
        | nil =>
            rw [hParts] at h
            cases h
        | cons first parts =>
            rw [hParts] at h ih
            rcases List.mem_cons.mp h with rfl | h
            · exact List.cons_subset_cons c (ih List.mem_cons_self)
            · exact List.subset_cons_of_subset c (ih (List.mem_cons_of_mem _ h))

theorem inner_subset (value : Text) : inner value ⊆ value :=
  fun _ hc => List.mem_of_mem_drop (List.mem_of_mem_dropLast hc)

/-- The parts of a value that the gate accepts can be unquoted by the runtime. -/
theorem parts_unquote (h : Gate.lineValue key (Gate.stripSpaces raw) = .ok value)
    (hHead : (strip raw).head? = some '[') :
    ∀ part ∈ (inner (strip raw)).splitOn ',', ∃ v, unquote (strip part) = .ok v := by
  have hSame := strip_stripSpaces raw
  have hPlain : '"' ∉ inner (strip raw) → ∀ part ∈ (inner (strip raw)).splitOn ',', ∃ v, unquote (strip part) = .ok v :=
    fun hNone part hPart => ⟨_, unquote_plain fun hMem => hNone (splitOn_subset hPart (strip_subset part hMem))⟩
  rcases lineValue_cases h with ⟨hList, -, hLast, -, hParts⟩ | ⟨-, hText⟩
  · rw [strip_list hList hLast] at hSame
    rw [← hSame] at hPlain ⊢
    rcases hParts with hBlank | hParts
    · refine hPlain fun hMem => ?_
      have hNil : strip (inner (Gate.stripSpaces raw)) = [] := by rw [← strip_stripSpaces, hBlank]; rfl
      exact absurd (strip_eq_nil.mp hNil _ hMem) (by decide)
    · have hEqual := splitOn_trim (p := (· = ' ')) (fun c hc => by rw [of_decide_eq_true hc]; decide)
        (inner (Gate.stripSpaces raw))
      have hStripped : ∀ v ∈ ((inner (Gate.stripSpaces raw)).splitOn ',').map strip, ∃ w, unquote v = .ok w := by
        rw [← hEqual, List.forall_mem_map]
        intro part hPart
        obtain ⟨v, hv⟩ := hParts part hPart
        have hStrip := unquote_strip hv
        rwa [strip_stripSpaces] at hStrip
      exact fun part hPart => hStripped _ (List.mem_map_of_mem hPart)
  · rcases unquote_cases hText with ⟨hQuote, hStrip, -⟩ | ⟨hNone, -⟩
    · rw [← hSame, hStrip, hQuote] at hHead
      cases hHead
    · exact hPlain fun hMem => hNone (strip_subset _ (hSame ▸ inner_subset _ hMem))

/-- Where the runtime can read a value that the gate accepts. -/
theorem fieldOf_isOk {key raw value : Text} (h : Gate.lineValue key (Gate.stripSpaces raw) = .ok value) :
    (∃ field, fieldOf key (strip raw) = .ok field) ↔ ListRead key (strip raw) := by
  have hSame := strip_stripSpaces raw
  unfold fieldOf ListRead
  by_cases hHead : (strip raw).head? = some '['
  · by_cases hKey : key = keyFor
    · simp [hHead, hKey]
    · simp only [hHead, hKey, false_and, if_false, if_true, ne_eq, not_false_iff, true_and, true_implies,
        Fallible.map_eq_ok]
      rw [← parseList_isOk (parts_unquote h hHead)]
      constructor
      · rintro ⟨field, l, hl, -⟩
        exact ⟨l, hl⟩
      · rintro ⟨l, hl⟩
        exact ⟨_, l, hl, rfl⟩
  · rcases lineValue_cases h with ⟨hList, -, -, -, -⟩ | ⟨-, hText⟩
    · exact absurd (hSame ▸ head_strip hList (by decide)) hHead
    · obtain ⟨v, hv⟩ := unquote_strip hText
      rw [hSame] at hv
      simp [hHead, hv, Except.map]

/-- Where the runtime reads the text that the gate has read. -/
theorem fieldOf_text {key raw value : Text} (h : Gate.lineValue key (Gate.stripSpaces raw) = .ok value) :
    fieldOf key (strip raw) = .ok (.text value) ↔ SameText raw := by
  have hSame := strip_stripSpaces raw
  unfold SameText
  by_cases hHead : (strip raw).head? = some '['
  · simp only [hHead, ne_eq, not_true, and_false, iff_false]
    intro hField
    unfold fieldOf at hField
    split at hField
    · cases hField
    · obtain ⟨l, -, hl⟩ := Fallible.map_eq_ok.mp hField
      cases hl
  · rcases lineValue_cases h with ⟨hList, -, -, -, -⟩ | ⟨-, hText⟩
    · exact absurd (hSame ▸ head_strip hList (by decide)) hHead
    · have hField : fieldOf key (strip raw) = (unquote (strip raw)).map .text := by simp [fieldOf, hHead]
      rw [hField]
      rcases unquote_cases hText with ⟨-, hStrip, hValue⟩ | ⟨hNone, rfl⟩
      · rw [← hSame, hStrip, hValue]
        have hOther : (Gate.stripSpaces raw).head? ≠ some '[' := by rwa [← hSame, hStrip] at hHead
        simp [Except.map, hOther]
      · rw [unquote_plain fun hMem => hNone (strip_subset _ (hSame.symm ▸ hMem))]
        simp [Except.map, hHead]

/-- A value that `strip` leaves alone, and that opens no list, is read as it stands. -/
theorem sameText_of_plain {key raw value : Text} (h : Gate.lineValue key (Gate.stripSpaces raw) = .ok value)
    (hStrip : strip value = value) (hHead : value.head? ≠ some '[') : SameText raw := by
  have hSame := strip_stripSpaces raw
  rcases lineValue_cases h with ⟨hList, -, -, rfl, -⟩ | ⟨hNot, hText⟩
  · exact absurd hList hHead
  · have hWhole : strip (Gate.stripSpaces raw) = Gate.stripSpaces raw := by
      rcases unquote_cases hText with ⟨-, hWhole, -⟩ | ⟨-, rfl⟩
      · exact hWhole
      · exact hStrip
    rw [hSame] at hWhole
    exact ⟨hWhole, hWhole ▸ hNot⟩

end Brnrd.Readme
