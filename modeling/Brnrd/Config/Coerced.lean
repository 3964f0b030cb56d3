import Brnrd.Config.Lines
import Brnrd.Python.Integers

/-! What the line of a setting reads as: the setting itself, or, where a hash is met
outside quotes, less of it. -/
namespace Brnrd.Config

open Python

variable {c sep : Char}

theorem rdropWhile_cons (h : isSpace c = false) (rest : Text) :
    (c :: rest).rdropWhile isSpace = c :: rest.rdropWhile isSpace := by
  unfold List.rdropWhile
  rw [List.reverse_cons, List.dropWhile_append]
  split
  · rename_i hNil
    rw [List.isEmpty_iff.mp hNil]
    simp [h]
  · simp

/-- White space is taken off behind the last character that is none. -/
theorem rdropWhile_append {a b : Text} (hc : c ∈ b) (h : isSpace c = false) :
    (a ++ b).rdropWhile isSpace = a ++ b.rdropWhile isSpace := by
  have hNot : (b.reverse.dropWhile isSpace).isEmpty = false := by
    rw [List.isEmpty_eq_false_iff]
    intro hNil
    have hSpace := List.dropWhile_eq_nil_iff.mp hNil c (List.mem_reverse.mpr hc)
    rw [h] at hSpace
    cases hSpace
  unfold List.rdropWhile
  rw [List.reverse_append, List.dropWhile_append, hNot]
  simp

/-- A text that begins with no space loses only what trails. -/
theorem strip_solid (h : isSpace c = false) (rest : Text) : strip (c :: rest) = c :: rest.rdropWhile isSpace := by
  have hDrop : (c :: rest).dropWhile isSpace = c :: rest := List.dropWhile_cons_of_neg (by simp [h])
  exact (congrArg (List.rdropWhile isSpace) hDrop).trans (rdropWhile_cons h rest)

theorem rdropWhile_blank (text : Text) :
    ∃ blank, text = text.rdropWhile isSpace ++ blank ∧ ∀ c ∈ blank, isSpace c = true :=
  ⟨text.rtakeWhile isSpace, List.rdropWhile_append_rtakeWhile.symm,
    fun _ hc => List.mem_rtakeWhile_imp hc⟩

/-- What no strip takes off is counted the same. -/
theorem count_strip {mark : Char} (h : isSpace mark = false) (text : Text) : (strip text).count mark = text.count mark := by
  have hBlank : ∀ blank : Text, (∀ c ∈ blank, isSpace c = true) → blank.count mark = 0 := by
    intro blank hAll
    rw [List.count_eq_zero]
    intro hMem
    rw [hAll mark hMem] at h
    cases h
  obtain ⟨blank, hText, hAll⟩ := rdropWhile_blank (text.dropWhile isSpace)
  have hFront := congrArg (List.count mark) (List.takeWhile_append_dropWhile (p := isSpace) (l := text))
  rw [List.count_append, hBlank _ fun c hc => List.mem_takeWhile_imp hc] at hFront
  rw [hText, List.count_append, hBlank blank hAll] at hFront
  have hStrip : strip text = (text.dropWhile isSpace).rdropWhile isSpace := rfl
  rw [hStrip]
  omega

theorem before_append {a b : Text} (h : sep ∉ a) : before sep (a ++ sep :: b) = a := by
  unfold before
  rw [List.takeWhile_append_of_pos]
  · simp
  · intro c hc
    simpa using fun hSame : c = sep => h (hSame ▸ hc)

theorem behind_append {a b : Text} (h : sep ∉ a) : behind sep (a ++ sep :: b) = b := by
  unfold behind
  rw [List.dropWhile_append_of_pos]
  · simp
  · intro c hc
    simpa using fun hSame : c = sep => h (hSame ▸ hc)

/-- A key holds nothing the reader stops at. -/
theorem keyChar_plain (h : keyChar c = true) : plainChar c = true ∧ c ≠ '=' ∧ isSpace c = false := by
  have hRange : 0x5f ≤ c.toNat ∧ c.toNat ≤ 0x7a := by
    simp only [keyChar, Bool.or_eq_true, Bool.and_eq_true, decide_eq_true_eq] at h
    rcases h with ⟨hLow, hHigh⟩ | rfl
    · rw [Char.le_def, UInt32.le_iff_toNat_le] at hLow hHigh
      exact ⟨le_trans (by decide) hLow, hHigh⟩
    · decide
  have hAll : ∀ n ∈ List.range' 0x5f 28, n ≠ 0x27 ∧ n ≠ 0x22 ∧ n ≠ 0x23 ∧ n ≠ 0x3d ∧ spaces.contains n = false := by
    decide
  obtain ⟨hSingle, hDouble, hHash, hEqual, hSpace⟩ := hAll c.toNat (List.mem_range'_1.mpr ⟨hRange.1, by omega⟩)
  refine ⟨?_, fun hSame => hEqual (hSame ▸ rfl), hSpace⟩
  simp only [plainChar, Bool.and_eq_true, bne_iff_ne]
  exact ⟨⟨fun hSame => hSingle (hSame ▸ rfl), fun hSame => hDouble (hSame ▸ rfl)⟩, fun hSame => hHash (hSame ▸ rfl)⟩

theorem withoutComment_cons (h : c ≠ '#') (rest : Text) : ∃ kept, withoutComment (c :: rest) = c :: kept := by
  unfold withoutComment
  by_cases hOpen : c = '\'' ∨ c = '"'
  · exact ⟨_, by simp [keepFrom, hOpen]; rfl⟩
  · exact ⟨keepFrom none false rest, by simp [keepFrom, hOpen, h]⟩

section Reading

variable (host : Interpreter)

variable {rest text : Text}

/-- The line of a setting sets the key to what its value reads as. -/
theorem entryOf_setting {key : Key} (hKey : key ∈ KEYS) (value : Value) {c : Char} (hRender : renderValue value = c :: rest)
    (hSolid : isSpace c = false) (hHash : c ≠ '#') :
    entryOf host (settingOf key.name value) =
      match literal host (strip (withoutComment (renderValue value))) with
      | .ok read => some (some (key.name, read))
      | .error _ => none := by
  obtain ⟨hNew, hChars⟩ := key_plain key hKey
  obtain ⟨n, ns, hName⟩ := List.exists_cons_of_ne_nil hNew
  obtain ⟨kept, hKept⟩ := withoutComment_cons hHash rest
  have hFirst : isSpace n = false := (keyChar_plain (hChars n (hName ▸ List.mem_cons_self ..))).2.2
  have hStripKept : strip (withoutComment (renderValue value)) = (c :: kept).rdropWhile isSpace := by
    rw [hRender, hKept, strip_solid hSolid, rdropWhile_cons hSolid]
  have hLine : strip (withoutComment (settingOf key.name value)) =
      (key.name.toList ++ [' ']) ++ '=' :: ' ' :: strip (withoutComment (renderValue value)) := by
    have hPlain : ∀ d ∈ key.name.toList ++ " = ".toList, plainChar d = true := by
      intro d hd
      rcases List.mem_append.mp hd with hd | hd
      · exact (keyChar_plain (hChars d hd)).1
      · have hAll : ∀ e ∈ " = ".toList, plainChar e = true := by decide
        exact hAll d hd
    have hScan : withoutComment (settingOf key.name value) = (n :: (ns ++ " = ".toList)) ++ c :: kept := by
      rw [withoutComment, settingOf, keepFrom_plain hPlain, hName, hRender]
      exact congrArg _ hKept
    rw [hScan, hStripKept, List.cons_append, strip_solid hFirst,
      rdropWhile_append List.mem_cons_self hSolid, hName]
    simp
  have hEqual : '=' ∉ key.name.toList ++ [' '] := by
    intro hMem
    rcases List.mem_append.mp hMem with hMem | hMem
    · exact (keyChar_plain (hChars '=' hMem)).2.1 rfl
    · revert hMem
      decide
  have hSet : setKey (settingOf key.name value) = some key.name := by
    have hWord : strip (key.name.toList ++ [' ']) = key.name.toList := by
      have hTail : (key.name.toList ++ [' ']).rdropWhile isSpace = key.name.toList := by
        rw [List.rdropWhile_concat_pos _ _ _ (by decide), List.rdropWhile_eq_self_iff]
        intro hl
        simpa using (keyChar_plain (hChars _ (List.getLast_mem hl))).2.2
      rw [hName, List.cons_append] at hTail ⊢
      rw [strip_solid hFirst, ← rdropWhile_cons hFirst, hTail]
    unfold setKey
    rw [hLine]
    dsimp only
    rw [before_append hEqual, hWord, String.ofList_toList]
    simp
  have hRaw : strip (behind '=' (strip (withoutComment (settingOf key.name value)))) =
      strip (withoutComment (renderValue value)) := by
    rw [hLine, behind_append hEqual, strip_cons (by decide), strip_strip]
  rewrite [entryOf, hSet, hRaw]
  rfl

/-- A part of a text, of which a quote and a hash are missing. -/
def Cut (part whole : Text) : Prop :=
  ∃ blank tail, whole = part ++ blank ++ '"' :: tail ∧ (∀ c ∈ blank, isSpace c = true) ∧ '#' ∈ tail

/-- What is read of a text whose line is cut at a hash. -/
def Short (read whole : Text) : Prop :=
  read.count '#' < whole.count '#' ∧ (read.head? = some '"' ∨ Cut read whole)

theorem literal_closed (part : Text) : literal host ('"' :: (part ++ ['"'])) = .ok (.str part) := by
  unfold literal
  rw [if_neg (by simp), if_pos (by simp [List.getLast?_cons])]
  simp

/-- A text that begins with a quote is no integer. -/
theorem parseInt_quote (rest : Text) : parseInt (String.ofList ('"' :: rest)) = none := by
  have hDigit : digit '"' = none := by decide
  have hDigits : ∀ rest, digits ('"' :: rest) 0 = none := by
    intro rest
    match rest with
    | [] => simp [digits, hDigit]
    | d :: rest =>
        by_cases hUnder : d = '_'
        · subst hUnder
          simp [digits, hDigit]
        · rw [digits.eq_4 0 '"' (d :: rest) (by simp) (by intro r hr; exact hUnder (List.cons.inj hr).1), hDigit]
          rfl
  rw [parseInt, String.toList_ofList, strip_solid (by decide)]
  simp [hDigits]

/-- A quote that is not closed is part of the text. -/
theorem literal_open (hQuoted : ∀ rest, host.float ('"' :: rest) = none) (h : rest.getLast? ≠ some '"') :
    literal host ('"' :: rest) = .ok (.str ('"' :: rest)) := by
  have hOpen : ¬(2 ≤ ('"' :: rest).length ∧ ('"' :: rest).head? = ('"' :: rest).getLast? ∧
      (('"' :: rest).head? = some '"' ∨ ('"' :: rest).head? = some '\'')) := by
    rintro ⟨hLong, hEnds, -⟩
    cases rest with
    | nil => simp at hLong
    | cons d rest =>
        rw [List.getLast?_cons_cons] at hEnds
        exact h hEnds.symm
  unfold literal
  rw [if_neg (by simp), if_neg hOpen, hQuoted, parseInt_quote]
  split <;> rfl

/-- A text that is kept whole reads back. -/
theorem literal_whole (h : withoutComment (renderValue (.str text)) = renderValue (.str text)) :
    literal host (strip (withoutComment (renderValue (.str text)))) = .ok (.str text) := by
  have hQuote : isSpace '"' = false := by decide
  have hStrip : strip ('"' :: (text ++ ['"'])) = '"' :: (text ++ ['"']) := by
    rw [strip_solid hQuote, List.rdropWhile_concat_neg _ _ _ (by simp [hQuote])]
  rw [h, renderValue, hStrip, literal_closed]

/-- A text is cut at a hash it holds. -/
theorem cut_text (h : withoutComment (renderValue (.str text)) ≠ renderValue (.str text)) :
    ∃ first second, text = first ++ '#' :: second ∧ withoutComment (renderValue (.str text)) = '"' :: first := by
  obtain ⟨a, b, hText, hKept⟩ := (keepFrom_cut none false (renderValue (.str text))).resolve_left h
  obtain ⟨first, rfl⟩ : ∃ first, a = '"' :: first := by
    cases a with
    | nil => cases (List.cons.inj hText).1
    | cons d first =>
        obtain ⟨rfl, -⟩ := List.cons.inj hText
        exact ⟨first, rfl⟩
  have hBody : text ++ ['"'] = first ++ '#' :: b := (List.cons.inj hText).2
  rcases List.eq_nil_or_concat b with rfl | ⟨second, d, rfl⟩
  · have hLast := congrArg List.getLast? hBody
    simp at hLast
  · rw [List.concat_eq_append, ← List.cons_append, ← List.append_assoc] at hBody
    exact ⟨first, second, (List.append_inj' hBody rfl).1, hKept⟩

/-- A text that is not kept whole reads short. -/
theorem literal_cut (hQuoted : ∀ rest, host.float ('"' :: rest) = none)
    (h : withoutComment (renderValue (.str text)) ≠ renderValue (.str text)) :
    ∃ read, literal host (strip (withoutComment (renderValue (.str text)))) = .ok (.str read) ∧ Short read text := by
  obtain ⟨first, second, hSplit, hKept⟩ := cut_text h
  obtain ⟨blank, hBlank, hSpaces⟩ := rdropWhile_blank first
  have hLess : (first.rdropWhile isSpace).count '#' < text.count '#' := by
    have hPrefix := (List.rdropWhile_prefix isSpace first).sublist.count_le '#'
    rw [hSplit, List.count_append, List.count_cons_self]
    omega
  rw [hKept, strip_solid (by decide)]
  by_cases hClosed : (first.rdropWhile isSpace).getLast? = some '"'
  · obtain ⟨part, hPart⟩ : ∃ part, first.rdropWhile isSpace = part ++ ['"'] := List.getLast?_eq_some_iff.mp hClosed
    rw [hPart, List.count_append] at hLess
    refine ⟨part, ?_, by omega, .inr ⟨[], blank ++ '#' :: second, ?_, nofun, by simp⟩⟩
    · rw [hPart, literal_closed]
    · rw [hSplit, hBlank, hPart]
      simp
  · refine ⟨'"' :: first.rdropWhile isSpace, literal_open host hQuoted hClosed, ?_, .inl rfl⟩
    rwa [List.count_cons_of_ne (by decide)]

end Reading

end Brnrd.Config

/-! What a value that reads short is coerced to, and which values read back. -/
namespace Brnrd.Config

open Python

/-- What the documentation of the interpreter says of it: no text that begins with a
quote is a float; the printed form of a float is of digits, signs, points and
letters, and it has a point where an integer could be meant; a list of plain string
literals evaluates to the strings; and a home directory is an absolute path, whose
owner's name has no quote. -/
structure Interpreter.Documented (host : Interpreter) : Prop where
  quoted : ∀ rest, host.float ('"' :: rest) = none
  printed : ∀ text, host.float text = some text → text ≠ [] ∧ ∀ c ∈ text, c ∈ "0123456789.+-einfa".toList
  pointless : ∀ text, host.float text = some text → '.' ∉ text → parseInt (String.ofList text) = none
  display : ∀ names : List Text, (∀ name ∈ names, ∀ c ∈ name, c ≠ '"' ∧ c ≠ '\\' ∧ 0x20 ≤ c.toNat ∧ c.toNat ≤ 0x7e) →
    host.literalEval ('[' :: ((", ".toList).intercalate (names.map fun name => '"' :: (name ++ ['"'])) ++ [']'])) =
      .ok (some (names.map .text))
  home : ∀ user dir, host.home user = some dir → '"' ∉ user ∧ dir.head? = some '/'

variable {a part rest whole : Text}

theorem Cut.length (h : Cut part whole) : part.length < whole.length := by
  obtain ⟨blank, tail, rfl, -, -⟩ := h
  rw [List.length_append, List.length_append, List.length_cons]
  omega

/-- A part of a stripped text is a part of it. -/
theorem Cut.strip (h : Cut part whole) (hNew : strip part ≠ []) : Cut (Python.strip part) (Python.strip whole) := by
  obtain ⟨blank, tail, rfl, hBlank, hHash⟩ := h
  obtain ⟨c, rest, hRest⟩ : ∃ c rest, part.dropWhile isSpace = c :: rest := by
    refine List.exists_cons_of_ne_nil fun hNil => hNew ?_
    rw [Python.strip, hNil]
    rfl
  have hDrop : (part ++ blank ++ '"' :: tail).dropWhile isSpace = part.dropWhile isSpace ++ blank ++ '"' :: tail := by
    rw [List.append_assoc, List.dropWhile_append, hRest]
    simp
  obtain ⟨gap, hGap, hSpaces⟩ := rdropWhile_blank (part.dropWhile isSpace)
  refine ⟨gap ++ blank, tail.rdropWhile isSpace, ?_, ?_, ?_⟩
  · have hWhole : Python.strip (part ++ blank ++ '"' :: tail) =
        part.dropWhile isSpace ++ blank ++ '"' :: tail.rdropWhile isSpace := by
      have hStrip := congrArg (List.rdropWhile isSpace) hDrop
      rw [rdropWhile_append List.mem_cons_self (by decide : isSpace '"' = false),
        rdropWhile_cons (by decide)] at hStrip
      exact hStrip
    rw [hWhole]
    conv_lhs => rw [hGap]
    simp only [List.append_assoc]
    rfl
  · intro d hd
    exact (List.mem_append.mp hd).elim (hSpaces d) (hBlank d)
  · obtain ⟨trail, hTrail, hTrailing⟩ := rdropWhile_blank tail
    rw [hTrail] at hHash
    refine (List.mem_append.mp hHash).resolve_right fun hMem => ?_
    have hSpace := hTrailing '#' hMem
    revert hSpace
    decide

theorem expanduser_plain (host : Interpreter) {path : Text} (h : path.head? ≠ some '~') : expanduser host path = path := by
  unfold expanduser
  split
  · exact absurd rfl h
  · rfl

theorem expanduser_unknown (host : Interpreter) (h : host.home (before '/' rest) = none) :
    expanduser host ('~' :: rest) = '~' :: rest := by
  simp [expanduser, h]

theorem expanduser_known (host : Interpreter) {dir : Text} (h : host.home (before '/' rest) = some dir) :
    expanduser host ('~' :: rest) =
      if dir.rdropWhile (· = '/') ++ rest.dropWhile (· ≠ '/') = [] then ['/']
      else dir.rdropWhile (· = '/') ++ rest.dropWhile (· ≠ '/') := by
  simp [expanduser, h]

theorem before_append_of_mem {sep : Char} (h : sep ∈ a) (b : Text) :
    before sep (a ++ b) = before sep a ∧ behind sep (a ++ b) = behind sep a ++ b := by
  obtain ⟨first, rest, rfl, hFirst⟩ := List.eq_append_cons_of_mem h
  rw [List.append_assoc, List.cons_append, before_append hFirst, before_append hFirst, behind_append hFirst,
    behind_append hFirst]
  exact ⟨rfl, rfl⟩

theorem dropWhile_of_mem {sep : Char} (h : sep ∈ a) (b : Text) :
    (a ++ b).dropWhile (· ≠ sep) = a.dropWhile (· ≠ sep) ++ b ∧ a.dropWhile (· ≠ sep) ≠ [] := by
  have hNew : a.dropWhile (· ≠ sep) ≠ [] := by
    intro hNil
    simpa using List.dropWhile_eq_nil_iff.mp hNil sep h
  refine ⟨?_, hNew⟩
  rw [List.dropWhile_append, if_neg (by simpa using hNew)]

/-- No choice holds a hash. -/
theorem choices_plain : ∀ key ∈ KEYS, ∀ choice ∈ key.choices, '#' ∉ choice.toList := by
  decide +kernel

section Documented

variable {host : Interpreter} (hDoc : host.Documented)

include hDoc

/-- A path that begins with a tilde is left, or becomes absolute. -/
theorem expanduser_tilde (rest : Text) :
    expanduser host ('~' :: rest) = '~' :: rest ∨ (expanduser host ('~' :: rest)).head? = some '/' := by
  cases hHome : host.home (before '/' rest) with
  | none => exact .inl (expanduser_unknown host hHome)
  | some dir =>
      refine .inr ?_
      rw [expanduser_known host hHome]
      split
      · rfl
      · rename_i hNot
        have hAbsolute := (hDoc.home _ _ hHome).2
        cases hDir : dir.rdropWhile (· = '/') with
        | nil =>
            rw [hDir, List.nil_append] at hNot
            rw [List.nil_append]
            have hHead := List.head?_dropWhile_not (fun c : Char => decide (c ≠ '/')) rest
            cases hRest : rest.dropWhile (fun c : Char => decide (c ≠ '/')) with
            | nil => exact absurd hRest hNot
            | cons c tail =>
                rw [hRest] at hHead
                simpa using hHead
        | cons c tail =>
            obtain ⟨trail, hTrail⟩ : dir.rdropWhile (· = '/') <+: dir := List.rdropWhile_prefix _ _
            rw [hDir] at hTrail
            rw [← hTrail] at hAbsolute
            simpa using hAbsolute

/-- A part of a path is not expanded to what the whole is. -/
theorem Cut.expanduser {part whole : Text} (h : Cut part whole) (hNew : part ≠ []) :
    expanduser host part ≠ expanduser host whole := by
  have hLength := h.length
  obtain ⟨c, user, rfl⟩ := List.exists_cons_of_ne_nil hNew
  obtain ⟨blank, tail, rfl, hBlank, -⟩ := h
  by_cases hTilde : c = '~'
  · subst hTilde
    have hWhole : '~' :: user ++ blank ++ '"' :: tail = '~' :: (user ++ (blank ++ '"' :: tail)) := by simp
    rw [hWhole] at hLength ⊢
    by_cases hSlash : '/' ∈ user
    · obtain ⟨hUser, -⟩ := before_append_of_mem hSlash (blank ++ '"' :: tail)
      obtain ⟨hDrop, hKept⟩ := dropWhile_of_mem hSlash (blank ++ '"' :: tail)
      cases hHome : host.home (before '/' user) with
      | none =>
          rw [expanduser_unknown host hHome, expanduser_unknown host (hUser ▸ hHome)]
          intro hSame
          rw [← hSame] at hLength
          exact lt_irrefl _ hLength
      | some dir =>
          rw [expanduser_known host hHome, expanduser_known host (hUser ▸ hHome), hDrop,
            if_neg (List.append_ne_nil_of_right_ne_nil _ hKept),
            if_neg (List.append_ne_nil_of_right_ne_nil _ (List.append_ne_nil_of_left_ne_nil hKept _))]
          intro hSame
          have hLengths := congrArg List.length hSame
          simp at hLengths
    · have hQuote : '"' ∈ before '/' (user ++ (blank ++ '"' :: tail)) := by
        have hFront : ∀ d ∈ user ++ blank, decide (d ≠ '/') = true := by
          intro d hd
          refine decide_eq_true fun hSame => ?_
          rcases List.mem_append.mp hd with hd | hd
          · exact hSlash (hSame ▸ hd)
          · have hSpace := hBlank d hd
            rw [hSame] at hSpace
            revert hSpace
            decide
        unfold before
        rw [← List.append_assoc, List.takeWhile_append_of_pos hFront, List.takeWhile_cons_of_pos (by decide)]
        simp
      have hNone : host.home (before '/' (user ++ (blank ++ '"' :: tail))) = none := by
        cases hHome : host.home (before '/' (user ++ (blank ++ '"' :: tail))) with
        | none => rfl
        | some dir => exact absurd hQuote (hDoc.home _ _ hHome).1
      have hLeft : Config.expanduser host ('~' :: (user ++ (blank ++ '"' :: tail))) =
          '~' :: (user ++ (blank ++ '"' :: tail)) := expanduser_unknown host hNone
      rw [hLeft]
      rcases expanduser_tilde hDoc user with hSame | hHead
      · rw [hSame]
        intro hEq
        rw [← hEq] at hLength
        exact lt_irrefl _ hLength
      · intro hEq
        rw [hEq] at hHead
        cases hHead
  · rw [expanduser_plain host (by simpa using hTilde), expanduser_plain host (by simpa using hTilde)]
    intro hSame
    rw [← hSame] at hLength
    exact lt_irrefl _ hLength

omit hDoc in
theorem secretSource_eq_some {spec out : Text} :
    secretSource host spec = some out ↔
      ':' ∈ spec ∧ strip (before ':' spec) ∈ SECRET_SOURCES ∧ strip (behind ':' spec) ≠ [] ∧
        ¬(strip (before ':' spec) = "env".toList ∧ !isVariable (strip (behind ':' spec))) ∧
        out = strip (before ':' spec) ++ ": ".toList ++
          if strip (before ':' spec) = "file".toList then Config.expanduser host (strip (behind ':' spec))
          else strip (behind ':' spec) := by
  unfold secretSource
  dsimp only
  split
  · rename_i hBad
    simp only [reduceCtorEq, false_iff]
    rintro ⟨hColon, hSource, hArg, -⟩
    rcases hBad with h | h | h
    · exact h hColon
    · exact h hSource
    · exact hArg h
  · rename_i hGood
    simp only [not_or, not_not] at hGood
    split
    · rename_i hEnv
      simp only [reduceCtorEq, false_iff]
      exact fun h => h.2.2.2.1 hEnv
    · rename_i hEnv
      rw [Option.some.injEq, eq_comm]
      exact ⟨fun h => ⟨hGood.1, hGood.2.1, hGood.2.2, hEnv, h⟩, fun h => h.2.2.2.2⟩

/-- A part of a source is no source, or another one. -/
theorem Cut.secretSource {part whole want : Text} (h : Cut part whole) (hWant : secretSource host whole = some want) :
    secretSource host part ≠ some want := by
  intro hPart
  obtain ⟨hColon, -, hArg, -, hOut⟩ := secretSource_eq_some.mp hPart
  obtain ⟨-, -, -, -, hWhole⟩ := secretSource_eq_some.mp hWant
  obtain ⟨blank, tail, rfl, hBlank, hHash⟩ := h
  obtain ⟨hSource, hBehind⟩ := before_append_of_mem hColon (blank ++ '"' :: tail)
  rw [← List.append_assoc] at hSource hBehind
  rw [hSource, hBehind, ← List.append_assoc] at hWhole
  have hCut : Cut (Python.strip (behind ':' part)) (Python.strip (behind ':' part ++ blank ++ '"' :: tail)) :=
    Cut.strip ⟨blank, tail, rfl, hBlank, hHash⟩ hArg
  rw [hOut] at hWhole
  have hArgs := List.append_cancel_left hWhole
  split at hArgs
  · exact hCut.expanduser hDoc hArg hArgs
  · have hLength := hCut.length
    rw [← hArgs] at hLength
    exact lt_irrefl _ hLength

/-- What is read short is not coerced to what the text is. -/
theorem coerce_short {path : String} {key : Key} (hKey : key ∈ KEYS) {read text : Text} (hShort : Short read text)
    {want : Value} (hWant : coerce host path key (.str text) = .ok want) :
    coerce host path key (.str read) ≠ .ok want := by
  obtain ⟨hCount, hHow⟩ := hShort
  have hHash : isSpace '#' = false := by decide
  have hMem : '#' ∈ text := List.count_pos_iff.mp (by omega)
  have hText : Python.strip text ≠ [] := by
    intro hNil
    have hSame := count_strip hHash text
    rw [hNil, List.count_nil] at hSame
    omega
  have hDiffer : Python.strip read ≠ Python.strip text := by
    intro hSame
    have hCounts := congrArg (List.count '#') hSame
    rw [count_strip hHash, count_strip hHash] at hCounts
    omega
  -- The part that is read still begins with the quote, or it is cut from the text.
  have hStripped : Python.strip read ≠ [] →
      (∃ rest, Python.strip read = '"' :: rest) ∨ Cut (Python.strip read) (Python.strip text) := by
    intro hNew
    refine hHow.imp (fun hHead => ?_) fun hCut => hCut.strip hNew
    obtain ⟨rest, rfl⟩ : ∃ rest, read = '"' :: rest := by
      cases read with
      | nil => cases hHead
      | cons c rest => exact ⟨rest, by simpa using hHead⟩
    exact ⟨_, strip_solid (by decide) rest⟩
  intro hRead
  unfold coerce at hWant hRead
  cases hKind : key.kind with
  | names =>
      simp only [hKind] at hWant
      cases hWant
  | choice =>
      simp only [hKind] at hWant
      split at hWant
      · rename_i hChoice
        have hPlain := choices_plain key hKey _ hChoice
        rw [String.toList_ofList] at hPlain
        exact hPlain hMem
      · cases hWant
  | text =>
      simp only [hKind] at hWant hRead
      rw [if_neg hText] at hWant
      split at hRead
      · rw [← Except.ok.inj hWant] at hRead
        cases hRead
      · rw [← hWant] at hRead
        exact hDiffer (Value.str.inj (Except.ok.inj hRead))
  | path =>
      simp only [hKind] at hWant hRead
      rw [if_neg hText] at hWant
      split at hRead
      · rw [← Except.ok.inj hWant] at hRead
        cases hRead
      · rename_i hNew
        rw [← hWant] at hRead
        have hSame := Value.str.inj (Except.ok.inj hRead)
        rcases hStripped hNew with ⟨rest, hQuote⟩ | hCut
        · rw [expanduser_plain host (by rw [hQuote]; simp)] at hSame
          by_cases hTilde : (Python.strip text).head? = some '~'
          · obtain ⟨user, hUser⟩ : ∃ user, Python.strip text = '~' :: user := by
              cases hStrip : Python.strip text with
              | nil => exact absurd hStrip hText
              | cons c user => exact ⟨user, by simpa [hStrip] using hTilde⟩
            rw [hQuote, hUser] at hSame
            rcases expanduser_tilde hDoc user with hLeft | hHead
            · rw [hLeft] at hSame
              cases hSame
            · rw [← hSame] at hHead
              cases hHead
          · rw [expanduser_plain host hTilde] at hSame
            exact hDiffer hSame
        · exact hCut.expanduser hDoc hNew hSame
  | secret =>
      simp only [hKind] at hWant hRead
      rw [if_neg hText] at hWant
      cases hSource : secretSource host (Python.strip text) with
      | none => simp [hSource] at hWant
      | some source =>
          simp only [hSource] at hWant
          split at hRead
          · rw [← Except.ok.inj hWant] at hRead
            cases hRead
          · rename_i hNew
            cases hPart : secretSource host (Python.strip read) with
            | none => simp [hPart] at hRead
            | some part =>
                simp only [hPart] at hRead
                rw [← hWant] at hRead
                obtain rfl := Value.str.inj (Except.ok.inj hRead)
                rcases hStripped hNew with ⟨rest, hQuote⟩ | hCut
                · obtain ⟨hColon, hKnown, -⟩ := secretSource_eq_some.mp hPart
                  have hFirst : ∃ tail, Python.strip (before ':' (Python.strip read)) = '"' :: tail := by
                    rw [hQuote, before, List.takeWhile_cons_of_pos (by decide)]
                    exact ⟨_, strip_solid (by decide) _⟩
                  obtain ⟨tail, hTail⟩ := hFirst
                  rw [hTail] at hKnown
                  simp [SECRET_SOURCES] at hKnown
                · exact hCut.secretSource hDoc hSource hPart
  | seconds =>
      simp only [hKind] at hWant
      rw [if_neg fun h => by simp [h.1] at hMem] at hWant
      cases hWant
  | positive =>
      simp only [hKind] at hWant
      rw [if_neg fun h => by simp [h.1] at hMem] at hWant
      cases hWant
  | percent =>
      simp only [hKind] at hWant
      rw [if_neg fun h => by simp [h.1] at hMem] at hWant
      cases hWant

end Documented

end Brnrd.Config
