import Brnrd.Python.Value
import Mathlib.Algebra.GroupWithZero.Nat
import Mathlib.Data.List.TakeWhile

/-! A message that is split for a platform: how a text is cut at a limit that counts UTF-16
units, with code fences closed at a cut and reopened behind it. -/
namespace Brnrd.Channels

open Python

/-- A text. -/
abbrev Text :=
  List Char

/-- The UTF-16 units of a character. -/
def charUnits (c : Char) : ℕ :=
  if 0xFFFF < c.toNat then 2 else 1

/-- `utf16_len`. -/
def utf16Len (text : Text) : ℕ :=
  if text.all fun c => decide (c.toNat < 128) then text.length else (text.map charUnits).sum

/-- The loop of `_utf16_prefix_end`. -/
def prefixScan (limit : ℕ) : ℕ → Text → ℕ
  | _, [] => 0
  | units, c :: text => if limit < units + charUnits c then 0 else prefixScan limit (units + charUnits c) text + 1

/-- `_utf16_prefix_end`. -/
def prefixEnd (text : Text) (limit : ℕ) : ℕ :=
  if utf16Len text ≤ limit then text.length else prefixScan limit 0 text

/-- `text.rfind(c, 0, stop)`. -/
def rfind (c : Char) : Text → ℕ → Option ℕ
  | [], _ => none
  | _, 0 => none
  | d :: text, stop + 1 =>
      match rfind c text stop with
      | some i => some (i + 1)
      | none => if d = c then some 0 else none

/-- The last place before `stop` that is not the first one. -/
def lastBreak (c : Char) (text : Text) (stop : ℕ) : Option ℕ :=
  (rfind c text stop).filter (0 < ·)

/-- `trim_to_limit`. -/
def trimToLimit (text : Text) (limit : ℕ) : Text :=
  let cut := prefixEnd text limit
  if text.length ≤ cut then text
  else
    match lastBreak '\n' text cut with
    | some nl => text.take nl
    | none =>
        match lastBreak ' ' text cut with
        | some sp => text.take sp
        | none => text.take cut

/-- `_FENCE_MARK`. -/
def fenceMark : Text :=
  "```".toList

/-- `_open_fence`. -/
def openFence (text : Text) : Option Text :=
  (text.splitOn '\n').foldl (fun openLine line =>
    let stripped := line.dropWhile isSpace
    if fenceMark <+: stripped then
      match openLine with
      | some _ => none
      | none => some stripped
    else openLine) none

/-- A chunk: the fence line that it reopens, what it has of the text, and whether a closing
fence is put behind it. -/
structure Piece where
  reopen : Option Text
  chunk : Text
  closed : Bool
deriving DecidableEq

/-- What a reopened fence puts in front of a chunk. -/
def reopened : Option Text → Text
  | some (c :: line) => c :: line ++ ['\n']
  | _ => []

/-- What is sent of a chunk. -/
def Piece.body (piece : Piece) : Text :=
  reopened piece.reopen ++ piece.chunk ++ if piece.closed then '\n' :: fenceMark else []

/-- The room for the text in a chunk. -/
def budgetFor (limit : ℕ) (reopen : Option Text) : ℕ :=
  max 1 (limit - utf16Len (reopened reopen))

/-- `len(_FENCE_MARK) + 1`. -/
def closeReserve : ℕ :=
  fenceMark.length + 1

/-- The cut of a text that is longer than its room: at the last line, or else as trimmed. -/
def cutAt (text : Text) (budget : ℕ) : Text :=
  match lastBreak '\n' text (prefixEnd text budget) with
  | some nl => text.take nl
  | none => trimToLimit text budget

/-- `lstrip("\n")`. -/
def pastNewlines (text : Text) : Text :=
  text.dropWhile (· = '\n')

/-- The cut made shorter by the room of a closing fence, where the chunk is owed one. -/
def shrink (budget : ℕ) (reopen : Option Text) (remaining chunk : Text) : Text :=
  if chunk ≠ [] ∧ (openFence (reopened reopen ++ chunk)).isSome ∧ pastNewlines (remaining.drop chunk.length) ≠ [] then
    let shrinkBudget := max 1 (budget - closeReserve)
    if shrinkBudget < utf16Len chunk then
      let shrunk := cutAt chunk shrinkBudget
      if shrunk ≠ [] then shrunk else chunk
    else chunk
  else chunk

/-- The chunk of a text that is longer than its room. -/
def shortened (budget : ℕ) (reopen : Option Text) (remaining : Text) : Text :=
  let chunk := shrink budget reopen remaining (cutAt remaining budget)
  if chunk = [] then remaining.take 1 else chunk

/-- One round of `split_message`: the chunk, and the rest behind it. -/
def nextPiece (limit : ℕ) (reopen : Option Text) (remaining : Text) : Piece × Text :=
  let budget := budgetFor limit reopen
  let whole := utf16Len remaining ≤ budget
  let chunk := if whole then remaining else shortened budget reopen remaining
  let rest := if whole then [] else pastNewlines (remaining.drop chunk.length)
  let stillOpen := (openFence (reopened reopen ++ chunk)).isSome
  ({ reopen, chunk, closed := stillOpen ∧ rest ≠ [] }, rest)

/-- The fence that is reopened behind a chunk. -/
def Piece.stillOpen (piece : Piece) : Option Text :=
  if piece.closed then openFence (reopened piece.reopen ++ piece.chunk) else none

variable {text chunk after : Text} {limit : ℕ}

theorem charUnits_pos (c : Char) : 1 ≤ charUnits c ∧ charUnits c ≤ 2 := by
  unfold charUnits
  split <;> omega

theorem utf16Len_eq (text : Text) : utf16Len text = (text.map charUnits).sum := by
  unfold utf16Len
  split
  · rename_i hPlain
    rw [List.all_eq_true] at hPlain
    induction text with
    | nil => rfl
    | cons c text ih =>
        have hc : c.toNat < 128 := of_decide_eq_true (hPlain c List.mem_cons_self)
        have hUnits : charUnits c = 1 := if_neg (by omega)
        rw [List.length_cons, List.map_cons, List.sum_cons, hUnits, ih fun d hd => hPlain d (List.mem_cons_of_mem _ hd)]
        omega
  · rfl

@[simp] theorem utf16Len_nil : utf16Len [] = 0 := rfl

@[simp] theorem utf16Len_append (first last : Text) : utf16Len (first ++ last) = utf16Len first + utf16Len last := by
  simp [utf16Len_eq]

@[simp] theorem utf16Len_cons (c : Char) (text : Text) : utf16Len (c :: text) = charUnits c + utf16Len text := by
  simp [utf16Len_eq]

theorem prefixScan_spec {units : ℕ} (hUnits : units ≤ limit) : let n := prefixScan limit units text
    n ≤ text.length ∧ units + utf16Len (text.take n) ≤ limit ∧
      ∀ c rest, text.drop n = c :: rest → limit < units + utf16Len (text.take n) + charUnits c := by
  fun_induction prefixScan limit units text with
  | case1 units => exact ⟨le_rfl, by simpa using hUnits, fun c rest h => by cases h⟩
  | case2 units c text hMore =>
      refine ⟨Nat.zero_le _, by simpa using hUnits, fun d rest h => ?_⟩
      obtain ⟨rfl, rfl⟩ := List.cons.inj h
      simpa using hMore
  | case3 units c text hMore ih =>
      obtain ⟨hLength, hFits, hNext⟩ := ih (by omega)
      refine ⟨by simpa using hLength, by simpa [Nat.add_assoc] using hFits, fun d rest h => ?_⟩
      have hMax := hNext d rest (by simpa using h)
      simpa [Nat.add_assoc] using hMax

/-- The longest prefix that fits. -/
theorem prefixEnd_spec (text : Text) (limit : ℕ) : let n := prefixEnd text limit
    n ≤ text.length ∧ utf16Len (text.take n) ≤ limit ∧
      ∀ c rest, text.drop n = c :: rest → limit < utf16Len (text.take n) + charUnits c := by
  unfold prefixEnd
  split
  · rename_i hFits
    exact ⟨le_rfl, by simpa using hFits, fun c rest h => by simp at h⟩
  · simpa using @prefixScan_spec text limit 0 (Nat.zero_le _)

theorem rfind_none {c : Char} {stop : ℕ} (h : rfind c text stop = none) : c ∉ text.take stop := by
  fun_induction rfind c text stop with
  | case1 stop => simp
  | case2 text hNew => simp
  | case3 d text stop i hRest ih => cases h
  | case4 text stop hRest ih => cases h
  | case5 d text stop hRest hOther ih =>
      rw [List.take_succ_cons, List.mem_cons, not_or]
      exact ⟨Ne.symm hOther, ih hRest⟩

theorem rfind_some {c : Char} {stop i : ℕ} (h : rfind c text stop = some i) :
    i < stop ∧ (∃ rest, text.drop i = c :: rest) ∧ c ∉ (text.take stop).drop (i + 1) := by
  fun_induction rfind c text stop generalizing i with
  | case1 stop => cases h
  | case2 text hNew => cases h
  | case3 d text stop j hRest ih =>
      obtain rfl := Option.some.inj h
      obtain ⟨hStop, hAt, hLast⟩ := ih hRest
      exact ⟨by omega, by simpa using hAt, by simpa using hLast⟩
  | case4 text stop hRest ih =>
      obtain rfl := Option.some.inj h
      exact ⟨Nat.succ_pos _, ⟨text, rfl⟩, by simpa using rfind_none hRest⟩
  | case5 d text stop hRest hOther ih => cases h

theorem lastBreak_none {c : Char} {stop : ℕ} (h : lastBreak c text stop = none) : c ∉ (text.take stop).tail := by
  unfold lastBreak at h
  cases hFind : rfind c text stop with
  | none => exact fun hIn => rfind_none hFind (List.mem_of_mem_tail hIn)
  | some i =>
      obtain ⟨-, -, hLast⟩ := rfind_some hFind
      rw [hFind] at h
      have hi : i = 0 := by simpa [Option.filter] using h
      subst hi
      rwa [← List.drop_one]

theorem lastBreak_some {c : Char} {stop i : ℕ} (h : lastBreak c text stop = some i) :
    0 < i ∧ i < stop ∧ ∃ rest, text.drop i = c :: rest := by
  obtain ⟨hFind, hPos⟩ := Option.filter_eq_some_iff.mp h
  obtain ⟨hStop, hAt, -⟩ := rfind_some hFind
  exact ⟨by simpa using hPos, hStop, hAt⟩

/-- The chunk is the longest that has room, and nothing behind its first character could
end it. -/
def Full (room : ℕ) (chunk after : Text) : Prop :=
  (∃ c rest, after = c :: rest ∧ room < utf16Len chunk + charUnits c) ∧ ∀ d ∈ chunk.tail, d ≠ '\n' ∧ d ≠ ' '

/-- A text is cut in its room: at its end, before white space, or where nothing else is left. -/
structure CutWell (room : ℕ) (text chunk after : Text) : Prop where
  whole : text = chunk ++ after
  fits : utf16Len chunk ≤ room
  new : text ≠ [] → 2 ≤ room → chunk ≠ []
  ends : after = [] ∨ (chunk ≠ [] ∧ ∃ c rest, after = c :: rest ∧ isSpace c = true) ∨ Full room chunk after

variable {room stop i : ℕ}

theorem utf16Len_take (h : i ≤ stop) : utf16Len (text.take i) ≤ utf16Len (text.take stop) := by
  obtain ⟨rest, hRest⟩ := List.take_prefix_take_left h (l := text)
  rw [← hRest, utf16Len_append]
  omega

theorem lastBreak_cut {c : Char} (h : lastBreak c text stop = some i) (hc : isSpace c = true)
    (hFits : utf16Len (text.take stop) ≤ room) : CutWell room text (text.take i) (text.drop i) := by
  obtain ⟨hPos, hStop, rest, hRest⟩ := lastBreak_some h
  have hNew : text.take i ≠ [] := by
    intro hNil
    rcases List.take_eq_nil_iff.mp hNil with hZero | hText
    · omega
    · rw [hText, List.drop_nil] at hRest
      cases hRest
  exact ⟨(List.take_append_drop i text).symm, (utf16Len_take hStop.le).trans hFits, fun _ _ => hNew,
    .inr (.inl ⟨hNew, c, rest, hRest, hc⟩)⟩

theorem trimToLimit_cut (text : Text) (room : ℕ) : ∃ after, CutWell room text (trimToLimit text room) after := by
  obtain ⟨hLength, hFits, hNext⟩ := prefixEnd_spec text room
  unfold trimToLimit
  dsimp only
  generalize prefixEnd text room = cut at hLength hFits hNext ⊢
  split
  · rename_i hWhole
    rw [List.take_of_length_le hWhole] at hFits
    exact ⟨[], (List.append_nil text).symm, hFits, fun hNew _ => hNew, .inl rfl⟩
  · rename_i hShort
    split
    · rename_i nl hBreak
      exact ⟨_, lastBreak_cut hBreak (by decide) hFits⟩
    · rename_i hLine
      split
      · rename_i sp hBreak
        exact ⟨_, lastBreak_cut hBreak (by decide) hFits⟩
      · rename_i hSpace
        obtain ⟨c, rest, hRest⟩ : ∃ c rest, text.drop cut = c :: rest :=
          List.exists_cons_of_ne_nil fun hNil => hShort (List.drop_eq_nil_iff.mp hNil)
        have hMore := hNext c rest hRest
        refine ⟨text.drop cut, (List.take_append_drop cut text).symm, hFits, fun _ hRoom hNil => ?_,
          .inr (.inr ⟨⟨c, rest, hRest, hMore⟩, fun d hd => ⟨?_, ?_⟩⟩)⟩
        · have hUnits := (charUnits_pos c).2
          rw [hNil, utf16Len_nil] at hMore
          omega
        · rintro rfl
          exact lastBreak_none hLine hd
        · rintro rfl
          exact lastBreak_none hSpace hd

theorem cutAt_cut (text : Text) (room : ℕ) : ∃ after, CutWell room text (cutAt text room) after := by
  unfold cutAt
  split
  · rename_i nl hBreak
    exact ⟨_, lastBreak_cut hBreak (by decide) (prefixEnd_spec text room).2.1⟩
  · exact trimToLimit_cut text room

/-- The chunk ends inside a word: no white space stands on either side of its end. -/
def EndsInWord (chunk after : Text) : Prop :=
  ∃ c d rest, chunk.getLast? = some c ∧ after = d :: rest ∧ isSpace c = false ∧ isSpace d = false

theorem CutWell.full (h : CutWell room text chunk after) (hWord : EndsInWord chunk after) : Full room chunk after := by
  obtain ⟨c, d, rest, -, hAfter, -, hd⟩ := hWord
  rcases h.ends with hNil | ⟨-, e, rest', hSpace, he⟩ | hFull
  · rw [hNil] at hAfter
    cases hAfter
  · rw [hSpace] at hAfter
    obtain ⟨rfl, -⟩ := List.cons.inj hAfter
    rw [hd] at he
    cases he
  · exact hFull

variable {budget : ℕ} {reopen : Option Text} {remaining : Text}

/-- The room that a chunk had: its budget, or what is left of it where the text cut at the
budget leaves a fence open. -/
def RoomOf (budget : ℕ) (reopen : Option Text) (remaining : Text) (room : ℕ) : Prop :=
  room = budget ∨ room = max 1 (budget - closeReserve) ∧ (openFence (reopened reopen ++ cutAt remaining budget)).isSome

theorem drop_chunk (h : text = chunk ++ after) : text.drop chunk.length = after :=
  h ▸ List.drop_left

/-- What a chunk has of a text that is longer than its budget. -/
structure Shortened (budget : ℕ) (reopen : Option Text) (remaining chunk after : Text) : Prop where
  whole : remaining = chunk ++ after
  new : chunk ≠ []
  words : EndsInWord chunk after → ∃ room, RoomOf budget reopen remaining room ∧ Full room chunk after
  fits : 2 ≤ budget → utf16Len chunk ≤ budget
  reserve : 6 ≤ budget → (openFence (reopened reopen ++ chunk)).isSome → pastNewlines after ≠ [] →
    utf16Len chunk + closeReserve ≤ budget

theorem shrink_cases (budget : ℕ) (reopen : Option Text) (remaining chunk : Text) :
    let room := max 1 (budget - closeReserve)
    let owed := chunk ≠ [] ∧ (openFence (reopened reopen ++ chunk)).isSome ∧ pastNewlines (remaining.drop chunk.length) ≠ []
    shrink budget reopen remaining chunk = chunk ∧ (¬ owed ∨ utf16Len chunk ≤ room ∨ cutAt chunk room = []) ∨
      owed ∧ room < utf16Len chunk ∧ cutAt chunk room ≠ [] ∧ shrink budget reopen remaining chunk = cutAt chunk room := by
  intro room owed
  unfold shrink
  by_cases hOwed : owed
  · rw [if_pos hOwed]
    dsimp only
    by_cases hLong : room < utf16Len chunk
    · rw [if_pos hLong]
      by_cases hSome : cutAt chunk room ≠ []
      · rw [if_pos hSome]
        exact .inr ⟨hOwed, hLong, hSome, rfl⟩
      · rw [if_neg hSome]
        exact .inl ⟨rfl, .inr (.inr (not_not.mp hSome))⟩
    · rw [if_neg hLong]
      exact .inl ⟨rfl, .inr (.inl (not_lt.mp hLong))⟩
  · rw [if_neg hOwed]
    exact .inl ⟨rfl, .inl hOwed⟩

theorem shortened_spec (hNew : remaining ≠ []) (reopen : Option Text) (budget : ℕ) :
    ∃ after, Shortened budget reopen remaining (shortened budget reopen remaining) after := by
  obtain ⟨after, hCut⟩ := cutAt_cut remaining budget
  have hReserve : closeReserve = 4 := rfl
  unfold shortened
  dsimp only
  rcases shrink_cases budget reopen remaining (cutAt remaining budget) with ⟨hSame, hWhy⟩ | ⟨hOwed, hLong, hSome, hShort⟩
  · rw [hSame]
    by_cases hNil : cutAt remaining budget = []
    · -- Not one character has room.
      rw [if_pos hNil]
      rw [hNil] at hCut
      obtain ⟨c, rest, hAfter, hMore⟩ : ∃ c rest, after = c :: rest ∧ budget < charUnits c := by
        rcases hCut.ends with hEnd | ⟨hCutNew, -⟩ | ⟨⟨c, rest, hAfter, hMore⟩, -⟩
        · exact absurd (by rw [hCut.whole, hEnd]; rfl) hNew
        · exact absurd rfl hCutNew
        · exact ⟨c, rest, hAfter, by simpa using hMore⟩
      have hText : remaining = c :: rest := by rw [hCut.whole, hAfter]; rfl
      have hFirst : remaining.take 1 = [c] := by rw [hText]; rfl
      rw [hFirst]
      refine ⟨rest, hText, by simp, fun ⟨_, d, rest', _, hRest, _⟩ => ⟨budget, .inl rfl, ⟨d, rest', hRest, ?_⟩, by simp⟩,
        fun hRoom => absurd rfl (hCut.new hNew hRoom), fun hRoom => absurd rfl (hCut.new hNew (by omega))⟩
      rw [utf16Len_cons]
      omega
    · rw [if_neg hNil]
      refine ⟨after, hCut.whole, hNil, fun hWord => ⟨budget, .inl rfl, hCut.full hWord⟩, fun _ => hCut.fits, fun hRoom hOpen hMore => ?_⟩
      have hDrop := drop_chunk hCut.whole
      rcases hWhy with hNot | hFits | hNone
      · exact absurd ⟨hNil, hOpen, hDrop.symm ▸ hMore⟩ hNot
      · omega
      · obtain ⟨_, hInner⟩ := cutAt_cut (cutAt remaining budget) (max 1 (budget - closeReserve))
        exact absurd hNone (hInner.new hNil (by omega))
  · rw [hShort, if_neg hSome]
    obtain ⟨left, hInner⟩ := cutAt_cut (cutAt remaining budget) (max 1 (budget - closeReserve))
    have hLeft : left ≠ [] := by
      intro hNil
      have hWhole := hInner.whole
      rw [hNil, List.append_nil] at hWhole
      exact absurd hInner.fits (by rw [← hWhole]; omega)
    obtain ⟨e, left', rfl⟩ := List.exists_cons_of_ne_nil hLeft
    refine ⟨e :: left' ++ after, ?_, hSome, fun ⟨c, d, rest, hLast, hRest, hc, hd⟩ => ?_, fun hRoom => ?_, fun hRoom _ _ => ?_⟩
    · rw [← List.append_assoc, ← hInner.whole]
      exact hCut.whole
    · obtain ⟨rfl, -⟩ := List.cons.inj hRest
      obtain ⟨⟨f, rest', hf, hMore⟩, hTail⟩ := hInner.full ⟨c, e, left', hLast, rfl, hc, hd⟩
      exact ⟨_, .inr ⟨rfl, hOwed.2.1⟩, ⟨f, rest' ++ after, by rw [hf, List.cons_append], hMore⟩, hTail⟩
    · have hFits := hInner.fits
      omega
    · have hFits := hInner.fits
      omega

variable {line : Text} {piece : Piece} {rest : Text}

/-- The chunk has room for a character, behind the fence line that it reopens and before
the closing fence that it is given. -/
def Roomy (limit : ℕ) (piece : Piece) : Prop :=
  utf16Len (reopened piece.reopen) + 2 + (if piece.closed then closeReserve else 0) ≤ limit

/-- One chunk of a text, and the rest behind it. -/
structure Piece.Cut (limit : ℕ) (piece : Piece) (text rest : Text) : Prop where
  whole : ∃ newlines, text = piece.chunk ++ newlines ++ rest ∧ ∀ c ∈ newlines, c = '\n'
  new : piece.chunk ≠ []
  words : EndsInWord piece.chunk (text.drop piece.chunk.length) → ∃ room,
    RoomOf (budgetFor limit piece.reopen) piece.reopen text room ∧ Full room piece.chunk (text.drop piece.chunk.length)
  fits : Roomy limit piece → utf16Len piece.body ≤ limit
  balanced : rest ≠ [] → openFence piece.body = none

/-- A line of `_open_fence`. -/
def fenceStep (openLine : Option Text) (line : Text) : Option Text :=
  let stripped := line.dropWhile isSpace
  if fenceMark <+: stripped then
    match openLine with
    | some _ => none
    | none => some stripped
  else openLine

theorem openFence_eq (text : Text) : openFence text = (text.splitOn '\n').foldl fenceStep none :=
  rfl

/-- A closing fence closes the fence that is open. -/
theorem openFence_close (hOpen : (openFence text).isSome) : openFence (text ++ '\n' :: fenceMark) = none := by
  obtain ⟨line, hLine⟩ := Option.isSome_iff_exists.mp hOpen
  have hMark : fenceMark.splitOn '\n' = [fenceMark] := by decide
  rw [openFence_eq] at hLine
  rw [openFence_eq, List.splitOn_append_cons_self, List.foldl_append, hLine, hMark, List.foldl_cons, List.foldl_nil, fenceStep]
  exact if_pos (by decide)

theorem openFence_mark (h : openFence text = some line) : fenceMark <+: line := by
  rw [openFence_eq] at h
  have hInv : ∀ found ∈ (text.splitOn '\n').foldl fenceStep none, fenceMark <+: found := by
    refine List.foldlRecOn (motive := fun openLine => ∀ found ∈ openLine, fenceMark <+: found) _ _ nofun ?_
    intro openLine hLine next _ found hFound
    unfold fenceStep at hFound
    dsimp only at hFound
    split at hFound
    · rename_i hMark
      cases openLine with
      | none =>
          obtain rfl := Option.some.inj hFound
          exact hMark
      | some _ => cases hFound
    · exact hLine found hFound
  exact hInv line h

theorem pastNewlines_spec (text : Text) : ∃ newlines, text = newlines ++ pastNewlines text ∧ ∀ c ∈ newlines, c = '\n' :=
  ⟨text.takeWhile (· = '\n'), List.takeWhile_append_dropWhile.symm, fun _ hc => by simpa using List.mem_takeWhile_imp hc⟩

theorem reopened_fits (hRoomy : utf16Len (reopened reopen) + 2 ≤ limit) :
    budgetFor limit reopen = limit - utf16Len (reopened reopen) := by
  unfold budgetFor
  omega

theorem nextPiece_cut (limit : ℕ) (reopen : Option Text) (hNew : remaining ≠ []) :
    (nextPiece limit reopen remaining).1.Cut limit remaining (nextPiece limit reopen remaining).2 := by
  have hClose : utf16Len ('\n' :: fenceMark) = closeReserve := by decide
  have hReserve : closeReserve = 4 := rfl
  unfold nextPiece
  by_cases hWhole : utf16Len remaining ≤ budgetFor limit reopen
  · simp only [hWhole, if_true]
    refine ⟨⟨[], by simp⟩, hNew, fun ⟨_, _, _, _, hAfter, _⟩ => by simp at hAfter, fun hRoomy => ?_, fun hRest => absurd rfl hRest⟩
    simp only [Roomy, Piece.body, ne_eq, not_true_eq_false, and_false, decide_false, Bool.false_eq_true, if_false, List.append_nil,
      utf16Len_append] at hRoomy ⊢
    rw [reopened_fits hRoomy] at hWhole
    omega
  · obtain ⟨after, hShort⟩ := shortened_spec hNew reopen (budgetFor limit reopen)
    have hDrop := drop_chunk hShort.whole
    obtain ⟨newlines, hAfter, hNewlines⟩ := pastNewlines_spec after
    simp only [hWhole, if_false, hDrop]
    generalize shortened (budgetFor limit reopen) reopen remaining = chunk at hShort hDrop
    refine ⟨⟨newlines, ?_, hNewlines⟩, hShort.new, fun hWord => ?_, fun hRoomy => ?_, fun hRest => ?_⟩
    · rw [List.append_assoc, ← hAfter]
      exact hShort.whole
    · dsimp only at hWord ⊢
      rw [hDrop] at hWord ⊢
      exact hShort.words hWord
    · unfold Roomy Piece.body at *
      dsimp only at *
      by_cases hClosed : (openFence (reopened reopen ++ chunk)).isSome = true ∧ pastNewlines after ≠ []
      · rw [if_pos (decide_eq_true hClosed)] at hRoomy ⊢
        rw [utf16Len_append, utf16Len_append, hClose]
        have hBudget := @reopened_fits limit reopen (by omega)
        have hFits := hShort.reserve (by omega) hClosed.1 hClosed.2
        omega
      · rw [if_neg (by simpa using hClosed)] at hRoomy ⊢
        rw [List.append_nil, utf16Len_append]
        have hBudget := @reopened_fits limit reopen (by omega)
        have hFits := hShort.fits (by omega)
        omega
    · unfold Piece.body
      dsimp only
      cases hOpen : (openFence (reopened reopen ++ chunk)).isSome with
      | true =>
          rw [if_pos (by simpa using hRest)]
          exact openFence_close hOpen
      | false =>
          rw [if_neg (by simp), List.append_nil]
          simpa using hOpen

theorem nextPiece_rest (limit : ℕ) (reopen : Option Text) (hNew : remaining ≠ []) :
    (nextPiece limit reopen remaining).2.length < remaining.length := by
  obtain ⟨⟨newlines, hWhole, -⟩, hChunk, -, -, -⟩ := nextPiece_cut limit reopen hNew
  have hLength := congrArg List.length hWhole
  have hPos := List.length_pos_iff.mpr hChunk
  simp only [List.length_append] at hLength
  omega

/-- The loop of `split_message`. -/
def piecesFrom (limit : ℕ) (reopen : Option Text) : Text → List Piece
  | [] => []
  | c :: text =>
      let next := nextPiece limit reopen (c :: text)
      next.1 :: piecesFrom limit next.1.stillOpen next.2
  termination_by remaining => remaining.length
  decreasing_by exact nextPiece_rest limit reopen (List.cons_ne_nil c text)

/-- The chunks of a text, each of what the one before it has left. -/
inductive Cuts (limit : ℕ) : Text → List Piece → Prop where
  | nil : Cuts limit [] []
  | cons {text rest : Text} {piece : Piece} {pieces : List Piece} (hCut : piece.Cut limit text rest)
      (hFence : ∀ line ∈ piece.reopen, fenceMark <+: line) (hRest : Cuts limit rest pieces) : Cuts limit text (piece :: pieces)

/-- What the loop does is one cut after another. -/
theorem piecesFrom_cuts (hFence : ∀ line ∈ reopen, fenceMark <+: line) : Cuts limit text (piecesFrom limit reopen text) := by
  fun_induction piecesFrom limit reopen text with
  | case1 reopen => exact .nil
  | case2 reopen c text next ih =>
      refine .cons (nextPiece_cut limit reopen (List.cons_ne_nil c text)) hFence (ih fun line hLine => ?_)
      unfold Piece.stillOpen at hLine
      split at hLine
      · exact openFence_mark hLine
      · cases hLine

variable {pieces : List Piece}

/-- Nothing of the text is lost but newlines. -/
theorem Cuts.lossless (h : Cuts limit text pieces) :
    (pieces.flatMap Piece.chunk).filter (· ≠ '\n') = text.filter (· ≠ '\n') := by
  induction h with
  | nil => rfl
  | @cons text rest piece pieces hCut _ _ ih =>
      obtain ⟨newlines, hWhole, hNewlines⟩ := hCut.whole
      have hNone : newlines.filter (· ≠ '\n') = [] := List.filter_eq_nil_iff.mpr fun c hc => by simpa using hNewlines c hc
      rw [List.flatMap_cons, List.filter_append, ih, hWhole, List.filter_append, List.filter_append, hNone, List.append_nil]

/-- A chunk that another follows leaves no fence open. -/
theorem Cuts.balanced (h : Cuts limit text pieces) : ∀ piece ∈ pieces.dropLast, openFence piece.body = none := by
  induction h with
  | nil => simp
  | @cons text rest piece pieces hCut _ hRest ih =>
      cases hRest with
      | nil => simp
      | @cons rest rest' next pieces hNext _ _ =>
          rw [List.dropLast_cons_cons]
          rintro other (_ | ⟨_, hOther⟩)
          · refine hCut.balanced fun hNil => ?_
            obtain ⟨newlines, hWhole, -⟩ := hNext.whole
            rw [hNil] at hWhole
            exact hNext.new (List.append_eq_nil_iff.mp (List.append_eq_nil_iff.mp hWhole.symm).1).1
          · exact ih other hOther

theorem Cuts.fits (h : Cuts limit text pieces) : ∀ piece ∈ pieces, Roomy limit piece → utf16Len piece.body ≤ limit := by
  induction h with
  | nil => simp
  | cons hCut _ _ ih => exact List.forall_mem_cons.mpr ⟨hCut.fits, ih⟩

/-- `TRUNCATION_MARKER`. -/
def truncationMarker : Text :=
  "\n\n[truncated]".toList

/-- What is sent of the parts under a cap, with the marker behind the last; no last part is
an error. -/
def capped (limit : ℕ) (maxChunks : Option ℕ) (marker : Text) (parts : List Text) : Option (List Text) :=
  match maxChunks with
  | none => some parts
  | some cap =>
      if cap < parts.length then
        (parts.take cap).getLast?.map fun last =>
          (parts.take cap).dropLast ++ [trimToLimit last (limit - utf16Len marker) ++ marker]
      else some parts

/-- `split_message`. -/
def splitMessage (text : Text) (limit : ℕ) (maxChunks : Option ℕ) (marker : Text) : Option (List Text) :=
  (capped limit maxChunks marker ((piecesFrom limit none text).map Piece.body)).map fun parts =>
    if parts = [] then [[]] else parts

/-- A cap of at least one is kept, and no part but that of a chunk without room is too long. -/
theorem capped_fits {cap : ℕ} {marker : Text} {parts : List Text} (hCap : 0 < cap) (hMarker : utf16Len marker ≤ limit) :
    ∃ out, capped limit (some cap) marker parts = some out ∧ out.length ≤ cap ∧
      ∀ part ∈ out, part ∈ parts ∨ utf16Len part ≤ limit := by
  unfold capped
  dsimp only
  split
  · rename_i hMore
    have hNew : parts.take cap ≠ [] := by
      intro hNil
      rcases List.take_eq_nil_iff.mp hNil with hZero | hParts
      · omega
      · rw [hParts] at hMore
        cases hMore
    refine ⟨_, by rw [List.getLast?_eq_some_getLast hNew]; rfl, ?_, fun part hPart => ?_⟩
    · simp only [List.length_append, List.length_dropLast, List.length_take, List.length_singleton]
      omega
    · rcases List.mem_append.mp hPart with hIn | hLast
      · exact .inl (List.mem_of_mem_take (List.dropLast_subset _ hIn))
      · obtain rfl := List.mem_singleton.mp hLast
        obtain ⟨after, hCut⟩ := trimToLimit_cut ((parts.take cap).getLast hNew) (limit - utf16Len marker)
        have hFits := hCut.fits
        rw [utf16Len_append]
        exact .inr (by omega)
  · rename_i hFew
    exact ⟨parts, rfl, not_lt.mp hFew, fun part hPart => .inl hPart⟩

theorem splitMessage_none (text : Text) (limit : ℕ) (marker : Text) : splitMessage text limit none marker =
    some (if piecesFrom limit none text = [] then [[]] else (piecesFrom limit none text).map Piece.body) := by
  rw [splitMessage, capped, Option.map_some]
  simp only [List.map_eq_nil_iff]

/-- Splitting loses nothing: each chunk is cut from what the one before has left, at a line
or a word where there is one, closed behind and within the limit where its fence has room;
and a cap is kept. -/
theorem splitMessage_cuts (hLimit : 16 ≤ limit) (text : Text) :
    let pieces := piecesFrom limit none text
    splitMessage text limit none truncationMarker = some (if pieces = [] then [[]] else pieces.map Piece.body) ∧
      Cuts limit text pieces ∧
      (pieces.flatMap Piece.chunk).filter (· ≠ '\n') = text.filter (· ≠ '\n') ∧
      (∀ piece ∈ pieces, Roomy limit piece → utf16Len piece.body ≤ limit) ∧
      (∀ piece ∈ pieces.dropLast, openFence piece.body = none) ∧
      ∀ cap, 0 < cap → ∃ parts, splitMessage text limit (some cap) truncationMarker = some parts ∧ parts.length ≤ cap ∧
        ∀ part ∈ parts, utf16Len part ≤ limit ∨ ∃ piece ∈ pieces, part = piece.body ∧ ¬ Roomy limit piece := by
  intro pieces
  have hCuts : Cuts limit text pieces := piecesFrom_cuts nofun
  refine ⟨splitMessage_none text limit truncationMarker, hCuts, hCuts.lossless, hCuts.fits, hCuts.balanced, fun cap hCap => ?_⟩
  have hMarker : utf16Len truncationMarker ≤ limit := by
    have hUnits : utf16Len truncationMarker = 13 := by decide
    omega
  obtain ⟨out, hOut, hLength, hParts⟩ := @capped_fits limit cap truncationMarker (pieces.map Piece.body) hCap hMarker
  refine ⟨if out = [] then [[]] else out, by rw [splitMessage, hOut]; rfl, ?_, fun part hPart => ?_⟩
  · split
    · exact hCap
    · exact hLength
  · split at hPart
    · obtain rfl := List.mem_singleton.mp hPart
      exact .inl (Nat.zero_le _)
    · rcases hParts part hPart with hIn | hFits
      · obtain ⟨piece, hPiece, rfl⟩ := List.mem_map.mp hIn
        by_cases hRoomy : Roomy limit piece
        · exact .inl (hCuts.fits piece hPiece hRoomy)
        · exact .inr ⟨piece, hPiece, rfl, hRoomy⟩
      · exact .inl hFits

theorem splitMessage_cuts_hi : ∃ parts, splitMessage "hi".toList 16 (some 1) truncationMarker = some parts ∧
    parts.length ≤ 1 := by
  obtain ⟨parts, hParts, hLength, -⟩ := (splitMessage_cuts le_rfl "hi".toList).2.2.2.2.2 1 Nat.one_pos
  exact ⟨parts, hParts, hLength⟩

theorem piecesFrom_step (hNew : text ≠ []) (h : nextPiece limit reopen text = (piece, rest)) :
    piecesFrom limit reopen text = piece :: piecesFrom limit piece.stillOpen rest := by
  cases text with
  | nil => exact absurd rfl hNew
  | cons c text => rw [piecesFrom, h]

/-- A chunk that reopens a fence line is too long, where that line has been cut itself; a chunk
ends in a word behind a space; and a cap of none leaves no part. -/
theorem splitMessage_breaks :
    (∃ parts, splitMessage "```aaaaaaaaaaaaaaaa".toList 16 none truncationMarker = some parts ∧ ∃ part ∈ parts, 16 < utf16Len part) ∧
      (∃ piece pieces, piecesFrom 16 none " aaaaaaaaaaaaaaaaaaaa".toList = piece :: pieces ∧
        EndsInWord piece.chunk "aaaaa".toList ∧ ' ' ∈ piece.chunk) ∧
        splitMessage "a".toList 16 (some 0) truncationMarker = none := by
  refine ⟨?_, ?_, ?_⟩
  · have hFirst : nextPiece 16 none "```aaaaaaaaaaaaaaaa".toList = (⟨none, "```aaaaaaaaa".toList, true⟩, "aaaaaaa".toList) := by
      decide +kernel
    have hSecond : nextPiece 16 (some "```aaaaaaaaa".toList) "aaaaaaa".toList =
        (⟨some "```aaaaaaaaa".toList, "a".toList, true⟩, "aaaaaa".toList) := by decide +kernel
    have hOpen : Piece.stillOpen ⟨none, "```aaaaaaaaa".toList, true⟩ = some "```aaaaaaaaa".toList := by decide +kernel
    have hPieces := piecesFrom_step (by decide) hFirst
    rw [hOpen, piecesFrom_step (by decide) hSecond] at hPieces
    have hParts := splitMessage_none "```aaaaaaaaaaaaaaaa".toList 16 truncationMarker
    rw [hPieces, if_neg (List.cons_ne_nil _ _)] at hParts
    exact ⟨_, hParts, _, List.mem_cons_of_mem _ List.mem_cons_self, by decide +kernel⟩
  · have hFirst : nextPiece 16 none " aaaaaaaaaaaaaaaaaaaa".toList = (⟨none, " aaaaaaaaaaaaaaa".toList, false⟩, "aaaaa".toList) := by
      decide +kernel
    exact ⟨_, _, piecesFrom_step (by decide) hFirst, ⟨'a', 'a', "aaaa".toList, by decide, by decide, by decide, by decide⟩, by decide⟩
  · have hFirst : nextPiece 16 none "a".toList = (⟨none, "a".toList, false⟩, []) := by decide +kernel
    rw [splitMessage, piecesFrom_step (by decide) hFirst]
    rfl

end Brnrd.Channels
