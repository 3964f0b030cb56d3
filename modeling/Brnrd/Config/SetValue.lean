import Brnrd.Config.Loads
import Brnrd.Config.ReadBack
import Mathlib.Control.Monad.Basic

/-! Setting one key of the config: which values read back, with every other line of the
file as it was written and every other key at its value. -/
namespace Brnrd.Config

open Python

/-- The lines an edit starts from: the file's, or the template's where there is no
file. -/
def linesOf : Option Text → List Text
  | some text => splitlines text
  | none => renderConfig

/-- A character of printed ASCII text. -/
def printable (c : Char) : Bool :=
  Nat.ble 0x20 c.toNat && Nat.ble c.toNat 0x7e

theorem oneLine_of_printable {text : Text} (h : text.all printable = true) : OneLine text := by
  intro c hc
  have hRange := List.all_eq_true.mp h c hc
  simp only [printable, Bool.and_eq_true, Nat.ble_eq] at hRange
  have hAll : ∀ n ∈ [0xa, 0xb, 0xc, 0xd, 0x1c, 0x1d, 0x1e, 0x85, 0x2028, 0x2029], n < 0x20 ∨ 0x7e < n := by decide
  cases hBreak : isLineBreak c with
  | false => rfl
  | true =>
      have hOut := hAll c.toNat (List.contains_iff_mem.mp hBreak)
      omega

/-- A literal is checked by the characters it is made of. -/
theorem all_toList {p : Char → Bool} {s : String} {chars : Text} (hText : s = String.ofList chars)
    (h : chars.all p = true) : s.toList.all p = true := by
  rw [hText, String.toList_ofList]
  exact h

theorem help_printable : ∀ key ∈ KEYS, key.help.toList.all printable = true := by
  simp only [KEYS, List.forall_mem_cons, List.not_mem_nil, false_implies, implies_true, String.toList_append,
    List.all_append, Bool.and_eq_true]
  repeat' apply And.intro
  all_goals first | exact all_toList rfl (by decide +kernel) | exact trivial

theorem default_printable :
    ∀ key ∈ KEYS, ("# ".toList ++ key.name.toList ++ " = ".toList ++ renderValue key.default).all printable = true := by
  decide +kernel

/-- A line of the template is blank, or a comment of printed text. -/
theorem renderConfig_line {line : Text} (h : line ∈ renderConfig) :
    (line = [] ∨ line.head? = some '#') ∧ OneLine line := by
  rcases List.mem_append.mp h with h | h
  · have hHeader : line.head? = some '#' ∧ line.all printable = true := by
      simp only [List.mem_cons, List.not_mem_nil, or_false] at h
      rcases h with rfl | rfl | rfl | rfl | rfl <;> exact ⟨by decide +kernel, all_toList rfl (by decide +kernel)⟩
    exact ⟨.inr hHeader.1, oneLine_of_printable hHeader.2⟩
  · obtain ⟨key, hKey, hLine⟩ := List.mem_flatMap.mp h
    simp only [List.mem_cons, List.not_mem_nil, or_false] at hLine
    rcases hLine with rfl | rfl | rfl
    · exact ⟨.inl rfl, nofun⟩
    · refine ⟨.inr rfl, oneLine_of_printable ?_⟩
      rw [List.all_append, help_printable key hKey]
      decide
    · exact ⟨.inr rfl, oneLine_of_printable (default_printable key hKey)⟩

/-- The template sets nothing. -/
theorem setKey_renderConfig {line : Text} (h : line ∈ renderConfig) : setKey line = none := by
  rcases (renderConfig_line h).1 with rfl | hHash
  · rfl
  · obtain ⟨rest, rfl⟩ : ∃ rest, line = '#' :: rest := by
      cases line with
      | nil => cases hHash
      | cons c rest => exact ⟨rest, by simpa using hHash⟩
    exact setKey_hash rest

section Editing

variable (host : Interpreter)

/-- A file that loads sets no key twice, so the fold before an edit leaves it. -/
theorem lines_accepted {path : String} {contents : Option Text} {found : Found}
    (h : readValues host path contents = .ok found) :
    splitlines (seedConfig contents) = linesOf contents ∧ Reads host (linesOf contents) ∧
      found = entries host (linesOf contents) ∧ ((linesOf contents).filterMap setKey).Nodup := by
  cases contents with
  | none =>
      have hSilent : ∀ line ∈ renderConfig, setKey line = none := fun _ hLine => setKey_renderConfig hLine
      obtain ⟨hNil, hReads⟩ := entries_silent host hSilent
      refine ⟨splitlines_joined (List.cons_ne_nil _ _) fun _ h => (renderConfig_line h).2, hReads, ?_, ?_⟩
      · exact (Except.ok.inj h).symm.trans hNil.symm
      · have hKeys := keys_entries host hReads
        rw [hNil] at hKeys
        rw [linesOf, ← hKeys]
        exact List.nodup_nil
  | some text =>
      obtain ⟨hReads, rfl, hKeys⟩ := (readValues_eq_ok host).mp h
      rw [keys_entries host hReads] at hKeys
      exact ⟨by rw [seedConfig, foldConfig_lines, keepLast_eq_self hKeys]; rfl, hReads, rfl, hKeys⟩

theorem oneLine_of_solid {text : Text} (h : ∀ c ∈ text, isSpace c = false) : OneLine text := by
  intro c hc
  cases hBreak : isLineBreak c with
  | false => rfl
  | true =>
      have hSpace := isSpace_of_isLineBreak hBreak
      rw [h c hc] at hSpace
      cases hSpace

/-- A value that is taken and has no line break is written on one line. -/
theorem settingOf_oneLine (hDoc : host.Documented) {path : String} {key : Key} (hKey : key ∈ KEYS) {value want : Value}
    (hReal : Real host value) (hBreak : NoBreak value) (hAsked : asked host path key value = .ok want) :
    OneLine (settingOf key.name value) := by
  have hName : OneLine key.name.toList :=
    oneLine_of_solid fun c hc => (keyChar_plain ((key_plain key hKey).2 c hc)).2.2
  refine (hName.append (by decide)).append ?_
  cases value with
  | null => decide
  | bool b =>
      cases b <;> decide
  | int n =>
      refine oneLine_of_solid fun c hc => ?_
      rcases toString_chars n c hc with rfl | hDigit
      · decide
      · exact not_isSpace_of_isDigit hDigit
  | float printed =>
      have hAll : ∀ c ∈ "0123456789.+-einfa".toList, isSpace c = false := by decide
      exact oneLine_of_solid fun c hc => hAll c ((hDoc.printed printed (hReal printed rfl)).2 c hc)
  | str text =>
      have hQuote : OneLine ['"'] := by decide
      exact hQuote.append ((hBreak text rfl).append hQuote)
  | list items =>
      obtain ⟨names, rfl, hNames⟩ := coerce_list host hAsked
      intro c hc
      rcases mem_render_channels hNames hc with h | ⟨hLow, hHigh, -⟩
      · have hAll : ∀ d ∈ "[], \"".toList, isLineBreak d = false := by decide
        exact hAll c h
      · have hAll : ∀ n ∈ [0xa, 0xb, 0xc, 0xd, 0x1c, 0x1d, 0x1e, 0x85, 0x2028, 0x2029], n < 0x2d ∨ 0x7a < n := by
          decide
        cases hBreak : isLineBreak c with
        | false => rfl
        | true =>
            have hOut := hAll c.toNat (List.contains_iff_mem.mp hBreak)
            omega

/-- The edit is faithful: the setting takes the place of at most one line, which sets
the key or is the template's line of it, every other line is as it was written, and
the file loads with the value for the key and every other key as it was. -/
def Faithful (path : String) (contents : Option Text) (config : LoomConfig) (key : Key) (value want : Value) : Prop :=
  ∃ after, setValue host path contents key.name value = .ok after ∧
    (∃ front old back, linesOf contents = front ++ old ++ back ∧
      splitlines after = front ++ settingOf key.name value :: back ∧ old.length ≤ 1 ∧
      ∀ line ∈ old, setKey line = some key.name ∨ isTemplate key.name line = true) ∧
    loadConfig host path (some after) = .ok (config.put key.name want)

/-- A fold preserves every value in effect. And in every config the loader takes, for
every key and every value it takes for the key, the edit is faithful exactly where
the value is kept. -/
theorem set_value_iff (hDoc : host.Documented) (path : String) :
    (∀ text found, valuesInEffect host text = .ok found →
      ∃ left, readValues host path (some (foldConfig text).1) = .ok left ∧
        ∀ key, Entries.get key left = Entries.get key found) ∧
    ∀ contents config, loadConfig host path contents = .ok config →
      ∀ key ∈ KEYS, ∀ value want, Real host value → NoBreak value → asked host path key value = .ok want →
        (Faithful host path contents config key value want ↔ Kept value) := by
  refine ⟨fun text found h => fold_keeps host h, ?_⟩
  intro contents config hLoad key hKey value want hReal hBreak hAsked
  obtain ⟨found, hFound, hAll, rfl⟩ := (loadConfig_eq_ok host path).mp hLoad
  obtain ⟨hSeed, hReads, rfl, hKeys⟩ := lines_accepted host hFound
  obtain ⟨front, old, back, hLines, hSet, hLength, hHeld, hAbsent⟩ :=
    setLines_split key.name (settingOf key.name value) hKeys
  obtain ⟨read, hEntry, hKept⟩ := reads_back host hDoc hKey hReal hAsked
  -- What is written is read as the lines it was joined from.
  have hAfter : setValue host path contents key.name value =
      .ok (joinLines (front ++ settingOf key.name value :: back) ++ ['\n']) := by
    unfold setValue
    rw [if_neg (by rw [byName_eq hKey]; simp), hSeed, hSet]
  have hSplit : splitlines (joinLines (front ++ settingOf key.name value :: back) ++ ['\n']) =
      front ++ settingOf key.name value :: back := by
    refine splitlines_joined (by simp) fun line hLine => ?_
    have hOld : ∀ other ∈ linesOf contents, OneLine other := by
      rw [← hSeed]
      exact splitlines_pieces _
    rw [hLines] at hOld
    rcases List.mem_append.mp hLine with hLine | hLine
    · exact hOld line (by simp [hLine])
    · rcases List.mem_cons.mp hLine with rfl | hLine
      · exact settingOf_oneLine host hDoc hKey hReal hBreak hAsked
      · exact hOld line (by simp [hLine])
  have hEdit : Edit host front old back (settingOf key.name value) key.name read := by
    rw [hLines] at hReads hKeys
    refine ⟨hReads, ?_, hEntry, fun line hLine => (hHeld line hLine).imp_right setKey_template, hAbsent⟩
    rw [keys_entries host hReads]
    exact hKeys
  rw [hLines] at hAll
  have hIff := load_edited host path hKey hEdit hAll hSplit want
  rw [← hKept, ← hIff]
  constructor
  · rintro ⟨after, hSome, -, hLoaded⟩
    obtain rfl := Fallible.same hAfter hSome
    rwa [hLines] at hLoaded
  · intro hLoaded
    refine ⟨_, hAfter, ⟨front, old, back, hLines, hSplit, hLength, hHeld⟩, ?_⟩
    rwa [hLines]

end Editing

/-- The strings of a list display, from outside or inside a literal. -/
def displayFrom : Option Text → Text → List Item
  | none, [] => []
  | none, c :: rest => if c = '"' then displayFrom (some []) rest else displayFrom none rest
  | some _, [] => []
  | some read, c :: rest => if c = '"' then .text read :: displayFrom none rest else displayFrom (some (read ++ [c])) rest

theorem displayFrom_literal {name : Text} (h : '"' ∉ name) (read rest : Text) :
    displayFrom (some read) (name ++ '"' :: rest) = .text (read ++ name) :: displayFrom none rest := by
  induction name generalizing read with
  | nil => simp [displayFrom]
  | cons c name ih =>
      rw [List.mem_cons, not_or] at h
      rw [List.cons_append, displayFrom, if_neg (Ne.symm h.1), ih h.2, List.append_assoc, List.singleton_append]

theorem displayFrom_names {names : List Text} (h : ∀ name ∈ names, '"' ∉ name) :
    displayFrom none ((", ".toList).intercalate (names.map fun name => '"' :: (name ++ ['"'])) ++ [']']) =
      names.map .text := by
  induction names with
  | nil => decide
  | cons name names ih =>
      have hRest := ih fun other hOther => h other (List.mem_cons_of_mem _ hOther)
      have hName := h name List.mem_cons_self
      cases names with
      | nil =>
          rw [List.map_singleton, List.intercalate_singleton, List.cons_append, displayFrom, if_pos rfl,
            List.append_assoc, List.singleton_append, displayFrom_literal hName]
          rfl
      | cons next names =>
          have hText : (", ".toList).intercalate ((name :: next :: names).map fun name => '"' :: (name ++ ['"'])) ++ [']'] =
              '"' :: (name ++ '"' :: (", ".toList ++
                ((", ".toList).intercalate ((next :: names).map fun name => '"' :: (name ++ ['"'])) ++ [']']))) := by
            rw [List.map_cons, List.map_cons, List.intercalate_cons_cons]
            simp
          rw [hText, displayFrom, if_pos rfl, displayFrom_literal hName, List.nil_append, List.map_cons]
          exact congrArg _ hRest

/-- A machine with one home directory, on which half is the only float. -/
def plainHost : Interpreter where
  float text := if text = ['0', '.', '5'] then some text else none
  ofInt _ := none
  nonpositive _ := false
  negative _ := false
  literalEval text := .ok (some (displayFrom none text))
  repr _ := ""
  home user := if user = [] then some ['/', 'h'] else none
  near _ := none

theorem plainHost_documented : plainHost.Documented where
  quoted rest := by simp [plainHost]
  printed text h := by
    have hText : text = ['0', '.', '5'] := by
      by_contra hNot
      simp [plainHost, hNot] at h
    subst hText
    decide
  pointless text h hPoint := by
    have hText : text = ['0', '.', '5'] := by
      by_contra hNot
      simp [plainHost, hNot] at h
    subst hText
    exact absurd (by decide) hPoint
  display names h := by
    refine congrArg (fun items => Except.ok (some items)) ?_
    rw [displayFrom, if_neg (by decide)]
    exact displayFrom_names fun name hName hQuote => (h name hName '"' hQuote).1 rfl
  home user dir h := by
    by_cases hUser : user = []
    · subst hUser
      obtain rfl : ['/', 'h'] = dir := by simpa [plainHost] using h
      decide
    · simp [plainHost, hUser] at h

/-- What a load makes of the file after an edit of an empty one. -/
def reloaded (name : String) (value : Value) : Option LoomConfig :=
  match setValue plainHost "config.toml" (some []) name value with
  | .ok after => (loadConfig plainHost "config.toml" (some after)).toOption
  | .error _ => none

/-- A command with a quoted hash is written to a file that reads less of it: the
quotes of the command end those of the value. -/
theorem set_value_cuts :
    ∃ key ∈ KEYS, key.name = "forge_token" ∧
      loadConfig plainHost "config.toml" (some []) = .ok (effective []) ∧
      asked plainHost "config.toml" key (.str "command: printf \"%s\" \"#1\"".toList) =
        .ok (.str "command: printf \"%s\" \"#1\"".toList) ∧
      ¬Faithful plainHost "config.toml" (some []) (effective []) key (.str "command: printf \"%s\" \"#1\"".toList)
        (.str "command: printf \"%s\" \"#1\"".toList) := by
  have hKey : (KEYS.any fun key => key.name = "forge_token" &&
      (asked plainHost "config.toml" key (.str "command: printf \"%s\" \"#1\"".toList) =
        .ok (.str "command: printf \"%s\" \"#1\"".toList)) &&
      reloaded key.name (.str "command: printf \"%s\" \"#1\"".toList) ≠
        some ((effective []).put key.name (.str "command: printf \"%s\" \"#1\"".toList))) = true := by
    decide +kernel
  obtain ⟨key, hMem, hAll⟩ := List.any_eq_true.mp hKey
  simp only [Bool.and_eq_true, decide_eq_true_eq] at hAll
  obtain ⟨⟨hName, hAsked⟩, hReload⟩ := hAll
  refine ⟨key, hMem, hName, by decide +kernel, hAsked, ?_⟩
  rintro ⟨after, hSet, -, hLoad⟩
  exact hReload (by simp only [reloaded, hSet, hLoad, Except.toOption])

/-- A name of an author reads back. -/
theorem set_value_iff_author :
    ∃ key ∈ KEYS, key.name = "author" ∧
      Faithful plainHost "config.toml" (some "turn = 0.5 # half".toList)
        ((effective []).put "turn" (.float ['0', '.', '5'])) key (.str "Ada <ada@x> = # 1".toList)
        (.str "Ada <ada@x> = # 1".toList) := by
  have hKey : (KEYS.any fun key => key.name = "author" &&
      (asked plainHost "config.toml" key (.str "Ada <ada@x> = # 1".toList) = .ok (.str "Ada <ada@x> = # 1".toList))) =
        true := by
    decide +kernel
  obtain ⟨key, hMem, hAll⟩ := List.any_eq_true.mp hKey
  simp only [Bool.and_eq_true, decide_eq_true_eq] at hAll
  have hBreak : OneLine "Ada <ada@x> = # 1".toList := by decide +kernel
  refine ⟨key, hMem, hAll.1, ((set_value_iff plainHost plainHost_documented "config.toml").2 _ _ ?_ key hMem _ _ ?_ ?_
    hAll.2).mpr (by decide +kernel)⟩
  · decide +kernel
  · exact nofun
  · intro text h
    exact Value.str.inj h ▸ hBreak

end Brnrd.Config
