import Brnrd.Events.Faithful

/-! What the file of a new event must be like to be read, and what a reading that
gives its fields says of their values. -/
namespace Brnrd.Events

open Python
open Readme (universal)

/-- Text in front of anything but a newline is read on its own. -/
theorem universal_split (a : Text) {b : Text} (h : b.head? ≠ some '\n') : universal (a ++ b) = universal a ++ universal b := by
  induction a using Readme.universal.induct with
  | case1 => rfl
  | case2 rest ih => simp [universal, ih]
  | case3 rest hNot ih =>
      have hHead : ∀ more, rest ++ b ≠ '\n' :: more := by
        intro more hMore
        cases rest with
        | nil =>
            rw [List.nil_append] at hMore
            exact h (by rw [hMore, List.head?_cons])
        | cons c rest => exact hNot rest (by rw [(List.cons.inj hMore).1])
      rw [List.cons_append, Readme.universal.eq_3 _ hHead, Readme.universal.eq_3 _ hNot, ih, List.cons_append]
  | case4 c rest hNot hNotReturn ih =>
      rw [List.cons_append, Readme.universal.eq_4 _ _ (fun _ hSame _ => hNotReturn hSame) hNotReturn,
        Readme.universal.eq_4 _ _ hNot hNotReturn, ih, List.cons_append]

variable {key text value : Text}

theorem universal_blank (h : ∀ c ∈ text, isSpace c = true) : ∀ c ∈ universal text, isSpace c = true := by
  have hNewline : isSpace '\n' = true := by decide
  induction text using Readme.universal.induct with
  | case1 => exact List.forall_mem_nil _
  | case2 rest ih =>
      rw [universal]
      exact List.forall_mem_cons.mpr ⟨hNewline, ih fun c hc => h c (by simp [hc])⟩
  | case3 rest hNot ih =>
      rw [Readme.universal.eq_3 _ hNot]
      exact List.forall_mem_cons.mpr ⟨hNewline, ih fun c hc => h c (by simp [hc])⟩
  | case4 c rest hNot hNotReturn ih =>
      rw [Readme.universal.eq_4 _ _ hNot hNotReturn]
      exact List.forall_mem_cons.mpr ⟨h c (by simp), ih fun d hd => h d (by simp [hd])⟩

/-- A body comes back, stripped, where no carriage return is inside it. -/
theorem body_reads {body : Text} : strip (universal (body ++ ['\n'])) = strip body ↔ '\r' ∉ strip body := by
  constructor
  · intro h hMem
    rw [← h] at hMem
    obtain ⟨a, b, hText, -, -⟩ := Readme.trim_split isSpace (universal (body ++ ['\n']))
    refine return_not_mem_universal (body ++ ['\n']) ?_
    rw [hText]
    exact List.mem_append_right _ (List.mem_append_left _ hMem)
  · intro hReturn
    obtain ⟨a, b, hText, ha, hb⟩ := Readme.trim_split isSpace body
    have hEnd : ∀ c ∈ b ++ ['\n'], isSpace c = true := by
      intro c hc
      rcases List.mem_append.mp hc with hc | hc
      · exact hb c hc
      · rw [List.mem_singleton.mp hc]
        decide
    by_cases hNil : strip body = []
    · have hAll : ∀ c ∈ body ++ ['\n'], isSpace c = true := by
        intro c hc
        rcases List.mem_append.mp hc with hc | hc
        · exact lstrip_blank (strip_eq_nil_iff.mp hNil) c hc
        · rw [List.mem_singleton.mp hc]
          decide
      rw [hNil, strip_eq_nil_iff]
      exact List.dropWhile_eq_nil_iff.mpr (universal_blank hAll)
    · have hHead : (strip body ++ (b ++ ['\n'])).head? ≠ some '\n' := by
        obtain ⟨c, rest, hCore⟩ := List.exists_cons_of_ne_nil hNil
        have hSolid : isSpace c = false := @head_of_strip body c (by rw [hCore, List.head?_cons])
        rw [hCore, List.cons_append, List.head?_cons]
        rintro hSame
        rw [Option.some.inj hSame] at hSolid
        revert hSolid
        decide
      have hWhole : body ++ ['\n'] = a ++ (strip body ++ (b ++ ['\n'])) := by
        conv_lhs => rw [hText]
        simp [Readme.strip_eq_trim]
      have hStrip : strip (strip body) = strip body :=
        strip_eq_self (fun _ hc => head_of_strip hc) fun _ hc => last_of_strip hc
      rw [hWhole, universal_split a hHead, universal_append hReturn,
        Readme.strip_append (universal_blank ha) (universal_blank hEnd), hStrip]

theorem eventText_eq {lines : List Text} (h : lines ≠ []) (body : Text) :
    eventText lines body = fileText lines (body ++ ['\n']) := by
  have hLines : joinLines (lines ++ [fence, body]) = joinLines lines ++ '\n' :: (fence ++ '\n' :: body) := by
    rw [joinLines_append h (by simp), joinLines_cons_cons, joinLines_singleton]
  obtain ⟨first, rest, hCons⟩ := List.exists_cons_of_ne_nil (List.append_ne_nil_of_left_ne_nil h [fence, body])
  rw [eventText, hCons, joinLines_cons_cons, ← hCons, hLines]
  simp [fileText]

theorem eventFields_ne_nil (now : Now) (call : Call) : (eventFields now call).map fieldLine ≠ [] := by
  simp [eventFields]

/-- No key of a new event stands twice. -/
theorem eventFields_distinct (now : Now) {call : Call} (hReserved : ∀ item ∈ call.data.items, item.1 ∉ reservedMetaKeys) :
    ((eventFields now call).map Prod.fst).Nodup := by
  have hKeys : ((eventFields now call).map Prod.fst) = [idKey, sourceKey, statusKey] ++
      (call.data.items.map Prod.fst ++ ((if call.attachments = [] then [] else [attachmentsKey]) ++ [createdKey])) := by
    by_cases hNone : call.attachments = [] <;> simp [eventFields, hNone]
  have hFirst : ∀ key ∈ [idKey, sourceKey, statusKey], key ∈ reservedMetaKeys := by decide +kernel
  have hLast : ∀ names ∈ [[createdKey], [attachmentsKey, createdKey]], names.Nodup ∧
      (∀ key ∈ names, key ∈ reservedMetaKeys) ∧ ∀ key ∈ names, key ∉ [idKey, sourceKey, statusKey] := by decide +kernel
  have hEnd : (if call.attachments = [] then [] else [attachmentsKey]) ++ [createdKey] ∈
      [[createdKey], [attachmentsKey, createdKey]] := by
    by_cases hNone : call.attachments = [] <;> simp [hNone]
  obtain ⟨hNodup, hIn, hOut⟩ := hLast _ hEnd
  have hMeta : ∀ key ∈ call.data.items.map Prod.fst, key ∉ reservedMetaKeys := by
    intro key hKey
    obtain ⟨item, hItem, rfl⟩ := List.mem_map.mp hKey
    exact hReserved item hItem
  rw [hKeys, List.nodup_append, List.nodup_append]
  refine ⟨by decide +kernel, ⟨call.data.distinct, hNodup, ?_⟩, ?_⟩
  · rintro key hKey other hOther rfl
    exact hMeta key hKey (hIn key hOther)
  · rintro key hKey other hOther rfl
    rcases List.mem_append.mp hOther with hOther | hOther
    · exact hMeta key hOther (hFirst key hKey)
    · exact hOut key hOther hKey

theorem identifier_of_safe (hSafe : safeKey key = true) (hLast : key.getLast? ≠ some '\n') : isIdentifier key = true := by
  simpa [safeKey, hLast] using hSafe

/-- Every key of a new event is a name. -/
theorem eventFields_names (now : Now) {call : Call}
    (hKeys : ∀ item ∈ call.data.items, safeKey item.1 = true ∧ item.1.getLast? ≠ some '\n') :
    ∀ field ∈ eventFields now call, Name field.1 := by
  have hOwn : ∀ key ∈ [idKey, sourceKey, statusKey, attachmentsKey, createdKey], isIdentifier key = true := by
    decide +kernel
  intro field hField
  rcases mem_eventFields.mp hField with rfl | rfl | rfl | hMeta | ⟨-, rfl⟩ | rfl
  · exact name_of_identifier (hOwn _ (by simp))
  · exact name_of_identifier (hOwn _ (by simp))
  · exact name_of_identifier (hOwn _ (by simp))
  · exact name_of_identifier (identifier_of_safe (hKeys field hMeta).1 (hKeys field hMeta).2)
  · exact name_of_identifier (hOwn _ (by simp))
  · exact name_of_identifier (hOwn _ (by simp))

/-- No value of a new event holds a newline or a carriage return. -/
theorem eventFields_inLine (now : Now) {call : Call} (hOk : CallOk call)
    (hValues : ∀ item ∈ call.data.items, '\n' ∉ item.2 ∧ '\r' ∉ item.2) :
    ∀ field ∈ eventFields now call, '\n' ∉ field.2 ∧ '\r' ∉ field.2 := by
  have hToken : ∀ {token : Text}, Token token → '\n' ∉ token ∧ '\r' ∉ token := by
    intro token h
    refine ⟨h.oneLine.newline, fun hMem => ?_⟩
    have hBreak := h.oneLine '\r' hMem
    revert hBreak
    decide
  intro field hField
  rcases mem_eventFields.mp hField with rfl | rfl | rfl | hMeta | ⟨-, rfl⟩ | rfl
  · exact hToken (generateId_token now)
  · exact hToken hOk.source
  · exact hToken hOk.status
  · exact hValues field hMeta
  · exact hOk.attachments
  · exact hToken (createdStamp_token now)

theorem strip_subset (text : Text) : strip text ⊆ text := by
  obtain ⟨a, b, hText, -, -⟩ := Readme.trim_split isSpace text
  intro c hc
  rw [hText]
  exact List.mem_append_right _ (List.mem_append_left _ hc)

theorem cutLine_subset (line : Text) : (cutLine line).2 ⊆ line := by
  intro c hc
  have hDrop := strip_subset _ hc
  exact (List.dropWhile_sublist _).subset (List.drop_subset 1 _ hDrop)

theorem coerce_subset (h : coerce value = .text text) : text ⊆ value := by
  rcases coerce_cases value with ⟨-, hNot⟩ | ⟨q, inner, -, hQuoted, hInner⟩ | ⟨n, -, hInt⟩ | hPlain
  · exact absurd h (hNot text 0).1
  · rw [h] at hInner
    obtain rfl := Entry.text.inj hInner
    rw [hQuoted]
    exact fun c hc => List.mem_cons_of_mem _ (List.mem_append_left _ hc)
  · rw [hInt] at h
    cases h
  · rw [h] at hPlain
    rw [Entry.text.inj hPlain]
    exact List.Subset.refl value

/-- What a reading gives a value as, the value holds: no line boundary is in it, or it
is a number. -/
theorem oneLine_of_came {lines : List Text} (hLines : ∀ line ∈ lines, OneLine line) (hValue : '\n' ∉ value)
    (hCame : Came lines (key, coerce value)) :
    OneLine value ∨ ∃ n, parseInt (String.ofList value) = some n ∧ coerce value = .int n := by
  have hText : ∀ text, coerce value = .text text → OneLine text ∨ '\n' ∈ text := by
    intro text hText
    by_cases hNewline : '\n' ∈ text
    · exact .inr hNewline
    refine .inl fun c hc => ?_
    have hOnly : OnlyNewlines text := by
      rcases hCame.2 with ⟨line, hLine, -, hCoerce⟩ | ⟨fields, hBlock⟩ | ⟨other, hOther, hOnly⟩
      · have hSubset := coerce_subset (hCoerce.symm.trans hText)
        have hFrom : text ⊆ line := fun d hd =>
          (List.dropWhile_sublist _).subset (cutLine_subset _ (hSubset hd))
        exact (OneLine.onlyNewlines (hLines line hLine)).subset hFrom
      · rw [hText] at hBlock
        cases hBlock
      · rw [hText] at hOther
        rwa [Entry.text.inj hOther]
    cases hBreak : isLineBreak c with
    | false => rfl
    | true => exact absurd (hOnly c hc hBreak ▸ hc) hNewline
  rcases coerce_cases value with ⟨hWord, -⟩ | ⟨q, inner, hq, hQuoted, hInner⟩ | ⟨n, hInt, hCoerce⟩ | hPlain
  · have hAll : ∀ w ∈ words, OneLine w := by decide
    exact .inl (hAll value hWord)
  · have hAll : ∀ q ∈ quoteMarks, isLineBreak q = false := by decide
    have hNot : '\n' ∉ inner := fun h => hValue (by rw [hQuoted]; simp [h])
    have hOne := (hText inner hInner).resolve_right hNot
    refine .inl fun c hc => ?_
    rw [hQuoted, List.mem_cons, List.mem_append, List.mem_singleton] at hc
    rcases hc with rfl | hc | rfl
    · exact hAll _ hq
    · exact hOne c hc
    · exact hAll _ hq
  · exact .inr ⟨n, hInt, hCoerce⟩
  · exact .inl ((hText value hPlain).resolve_right hValue)

/-- A number with a solid character in front of a boundary ends there. -/
theorem tidy_of_number {first rest : Text} {c : Char} {n : Int} (hFirst : OneLine first) (hBreak : isLineBreak c = true)
    (hInt : parseInt (String.ofList (first ++ c :: rest)) = some n) (hSolid : strip first ≠ []) :
    OneLine (rstrip (first ++ c :: rest)) := by
  have hSpace := isSpace_of_isLineBreak hBreak
  have hChars := parseInt_chars hInt
  obtain ⟨a, b, hText, ha, hb⟩ := Readme.trim_split isSpace (first ++ c :: rest)
  rw [← Readme.strip_eq_trim] at hText
  generalize strip (first ++ c :: rest) = core at hText hChars
  have hEnd : ∀ blank : Text, (∀ d ∈ blank, isSpace d = true) → OneLine (rstrip (first ++ blank)) := by
    intro blank hBlank
    have hDrop : rstrip (first ++ blank) = rstrip first := by
      have hReverse : ∀ d ∈ blank.reverse, isSpace d = true := fun d hd => hBlank d (List.mem_reverse.mp hd)
      rw [rstrip, rstrip, List.rdropWhile, List.rdropWhile, List.reverse_append, List.dropWhile_append_of_pos hReverse]
    rw [hDrop]
    exact oneLine_rstrip hFirst
  have hNotCore : c ∉ core := by
    intro hMem
    rw [(intChar_plain (hChars c hMem)).1] at hSpace
    cases hSpace
  rcases List.append_eq_append_iff.mp hText with ⟨more, rfl, -⟩ | ⟨more, rfl, hMore⟩
  · -- The blanks in front cannot hold the solid character.
    refine absurd (strip_eq_nil_iff.mpr (List.dropWhile_eq_nil_iff.mpr fun d hd => ha d ?_)) hSolid
    exact List.mem_append_left _ hd
  · rcases List.append_eq_append_iff.mp hMore with ⟨blank, -, rfl⟩ | ⟨tail, rfl, hTail⟩
    · exact hEnd _ fun d hd => hb d (List.mem_append_right _ hd)
    · cases tail with
      | nil =>
          rw [List.nil_append] at hTail
          rw [hTail]
          exact hEnd b hb
      | cons d tail =>
          rw [← (List.cons.inj hTail).1] at hNotCore
          simp at hNotCore

/-- The number a field is read as stands on the field's own line. -/
theorem tidy_of_came {fields : List (Text × Text)} (hNew : fields ≠ []) (hNames : ∀ field ∈ fields, Name field.1)
    (hDistinct : (fields.map Prod.fst).Nodup)
    (hValues : ∀ field ∈ fields, OneLine field.2 ∨ ∃ n, parseInt (String.ofList field.2) = some n)
    (hField : (key, value) ∈ fields) {n : Int} (hInt : parseInt (String.ofList value) = some n)
    (hCame : Came (pieces (fields.map fieldLine)) (key, .int n)) : OneLine (rstrip value) := by
  have hSame : ∀ {other}, (key, other) ∈ fields → other = value := by
    intro other hOther
    have hFirst := (Entries.get_eq_some hDistinct).mpr hOther
    rw [(Entries.get_eq_some hDistinct).mpr hField] at hFirst
    exact (Option.some.inj hFirst).symm
  obtain ⟨line, hLine, hKey, hRead⟩ : ∃ line ∈ pieces (fields.map fieldLine), key = (cutLine (lstrip line)).1 ∧
      .int n = coerce (cutLine (lstrip line)).2 := by
    rcases hCame.2 with hLine | ⟨block, hBlock⟩ | ⟨text, hText, -⟩
    · exact hLine
    · cases hBlock
    · cases hText
  -- A line without a colon has no value, so it is not read as a number.
  have hColon : ':' ∈ line := by
    by_contra hNone
    have hEmpty : (cutLine (lstrip line)).2 = [] := by
      have hAll : (lstrip line).dropWhile (· ≠ ':') = [] := by
        rw [List.dropWhile_eq_nil_iff]
        intro c hc
        have hNot : c ≠ ':' := fun hSame => hNone (hSame ▸ (List.dropWhile_sublist _).subset hc)
        simpa using hNot
      rw [cutLine, hAll]
      rfl
    rw [hEmpty] at hRead
    cases hRead
  rw [pieces_eq_flatMap (by simpa using hNew)] at hLine
  obtain ⟨text, hText, hPiece⟩ := List.mem_flatMap.mp hLine
  obtain ⟨⟨name, other⟩, hMem, rfl⟩ := List.mem_map.mp hText
  have hName : Name name := hNames _ hMem
  have hCut : ∀ v, cutLine (lstrip (fieldLine (name, v))) = (name, strip v) := by
    intro v
    obtain ⟨c, rest, hCons, hSolid, -⟩ := hName.fieldLine_cons v
    rw [hCons, lstrip_solid hSolid, ← hCons, hName.cutLine]
  by_cases hOne : OneLine other
  · rw [splitlines_line (hName.oneLine hOne)] at hPiece
    rw [List.mem_singleton.mp hPiece, hCut] at hKey
    obtain rfl : key = name := hKey
    rw [← hSame hMem]
    exact oneLine_rstrip hOne
  · obtain ⟨m, hNumber⟩ := (hValues _ hMem).resolve_left hOne
    obtain ⟨first, c, rest, hSplit, hFirst, hBreak⟩ := first_break hOne
    have hSplit' : other = first ++ c :: rest := hSplit
    have hWhole : fieldLine (name, other) ++ ['\n'] = fieldLine (name, first) ++ c :: (rest ++ ['\n']) := by
      rw [hSplit']
      simp [fieldLine]
    rw [hWhole, splitlines_break (hName.oneLine hFirst) hBreak] at hPiece
    rcases List.mem_cons.mp hPiece with rfl | hPiece
    · rw [hCut] at hKey hRead
      obtain rfl : key = name := hKey
      obtain rfl : other = value := hSame hMem
      rw [hSplit'] at hInt ⊢
      refine tidy_of_number hFirst hBreak hInt fun hNil => ?_
      rw [hNil] at hRead
      cases hRead
    · -- Behind the first line there is only the rest of a number.
      have hIn : ':' ∈ rest ++ ['\n'] := by simpa using (mem_splitFrom hPiece).subset hColon
      have hRest : ':' ∈ other := by
        rw [hSplit']
        have hMem : ':' ∈ rest := by simpa using hIn
        simp [hMem]
      obtain ⟨a, b, hOther, ha, hb⟩ := Readme.trim_split isSpace other
      rw [hOther, List.mem_append, List.mem_append] at hRest
      have hNot : ¬isSpace ':' = true := by decide
      rcases hRest with h | h | h
      · exact absurd (ha _ h) hNot
      · exact absurd rfl (intChar_plain (parseInt_chars hNumber ':' h)).2
      · exact absurd (hb _ h) hNot

end Brnrd.Events
