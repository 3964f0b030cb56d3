import Brnrd.Facts.Union
import Brnrd.Lists.Joined
import Brnrd.Port.Marks

/-! What a letter can do to the boundary page. The page is written by newlines
and read by `splitlines`, so a line of a letter may leave pieces behind that no
indent shields. -/
namespace Brnrd.Port

open Python Facts
open Joined (mem_intercalate)

/-- A text without white space. -/
def NoSpace (text : List Char) : Prop :=
  ∀ c ∈ text, isSpace c = false

variable {id text sender : List Char}

theorem NoSpace.oneLine (h : NoSpace text) : OneLine text := by
  intro c hc
  apply Bool.eq_false_iff.mpr
  intro hBreak
  have hSpace := h c hc
  rw [isSpace_of_isLineBreak hBreak] at hSpace
  cases hSpace

theorem expect_append (literal rest : List Char) : expect literal (literal ++ rest) = some rest := by
  rw [expect, if_pos (List.isPrefixOf_iff_prefix.mpr (List.prefix_append _ _)), List.drop_left]

theorem run_append {accepts : Char → Bool} {rest : List Char} (hText : ∀ c ∈ text, accepts c = true) (hNew : text ≠ [])
    (hRest : ∀ c, rest.head? = some c → accepts c = false) :
    run accepts (text ++ rest) = some (text, rest) := by
  have hStop : rest.takeWhile accepts = [] ∧ rest.dropWhile accepts = rest := by
    cases rest with
    | nil => exact ⟨rfl, rfl⟩
    | cons c rest => simp [hRest c rfl]
  rw [run, List.takeWhile_append_of_pos hText, List.dropWhile_append_of_pos hText, hStop.1, hStop.2, List.append_nil,
    if_neg hNew]

/-- A word before a literal that begins with a blank. -/
theorem word_before {literal text rest : List Char} (hBlank : literal.head? = some ' ') (hText : NoSpace text) :
    word (text ++ (literal ++ rest)) = if text = [] then none else some (text, literal ++ rest) := by
  obtain ⟨tail, rfl⟩ : ∃ tail, literal = ' ' :: tail := by
    cases literal with
    | nil => cases hBlank
    | cons c tail => exact ⟨tail, by rw [Option.some.inj hBlank]⟩
  have hStop : (!isSpace ' ') = false := by decide
  by_cases hNil : text = []
  · simp [hNil, word, run, hStop]
  · rw [if_neg hNil]
    apply run_append (fun c hc => by rw [hText c hc]; rfl) hNil
    intro c hc
    obtain rfl : ' ' = c := by simpa using hc
    exact hStop

/-- The item's pattern takes back the three words of an item line, and needs them all. -/
theorem matchItem_itemLine {reply : List Char} (hId : NoSpace id) (hSender : NoSpace sender) (hReply : NoSpace reply)
    (compact : Bool) (first : List Char) :
    matchItem (itemLine id sender reply compact first) =
      if id = [] ∨ sender = [] ∨ reply = [] then none else some ⟨id, sender, reply, first, compact⟩ := by
  have hPlain : expect compactMark (dashMark ++ first) = none := by
    have hMark : compactMark = ' ' :: '·' :: " compact".toList := by decide
    have hDash : dashMark = ' ' :: '—' :: " ".toList := by decide
    rw [expect, hMark, hDash]
    simp [List.isPrefixOf]
  simp only [matchItem, itemLine, Option.bind_eq_bind, expect_append, Option.bind_some]
  rw [word_before (by decide) hId]
  by_cases hNoId : id = []
  · simp [hNoId]
  simp only [if_neg hNoId, Option.bind_some, expect_append]
  rw [word_before (by decide) hSender]
  by_cases hNoSender : sender = []
  · simp [hNoSender]
  simp only [if_neg hNoSender, Option.bind_some, expect_append]
  have hRest : word (reply ++ ((if compact = true then compactMark else []) ++ (dashMark ++ first))) =
      if reply = [] then none
      else some (reply, (if compact = true then compactMark else []) ++ (dashMark ++ first)) := by
    cases compact with
    | true =>
        rw [if_pos rfl]
        exact word_before (by decide) hReply
    | false =>
        rw [if_neg Bool.false_ne_true, List.nil_append]
        exact word_before (by decide) hReply
  rw [hRest]
  by_cases hNoReply : reply = []
  · simp [hNoReply]
  simp only [if_neg hNoReply, Option.bind_some]
  cases compact with
  | true =>
      rw [if_pos rfl, expect_append, Option.bind_some, expect_append]
      simp [hNoId, hNoSender, hNoReply]
  | false =>
      rw [if_neg Bool.false_ne_true, List.nil_append, hPlain, Option.bind_none, expect_append]
      simp [hNoId, hNoSender, hNoReply]

theorem itemLine_append (id sender reply : List Char) (compact : Bool) (first : List Char) :
    itemLine id sender reply compact first = itemLine id sender reply compact [] ++ first := by
  simp [itemLine]

theorem itemLine_oneLine {reply : List Char} (hId : NoSpace id) (hSender : NoSpace sender) (hReply : NoSpace reply)
    (compact : Bool) : OneLine (itemLine id sender reply compact []) := by
  have hMark : OneLine (if compact = true then compactMark else []) := by
    cases compact with
    | true =>
        rw [if_pos rfl]
        decide
    | false => exact nofun
  have hDash : OneLine (dashMark ++ []) := by decide
  have hItem : OneLine itemMark := by decide
  have hFrom : OneLine fromMark := by decide
  have hReplyText : OneLine replyMark := by decide
  exact hItem.append (hId.oneLine.append (hFrom.append (hSender.oneLine.append (hReplyText.append
    (hReply.oneLine.append (hMark.append hDash))))))

/-- What an item line says: its letter, where all three words are there. -/
theorem markOf_itemLine {reply : List Char} (hId : NoSpace id) (hSender : NoSpace sender) (hReply : NoSpace reply)
    (compact : Bool) (first : List Char) :
    markOf (itemLine id sender reply compact first) =
      if id = [] ∨ sender = [] ∨ reply = [] then .bad (.notALetter (itemLine id sender reply compact first))
      else .item ⟨id, sender, reply, first, compact⟩ := by
  have hPrefix : itemMark.isPrefixOf (itemLine id sender reply compact first) = true :=
    List.isPrefixOf_iff_prefix.mpr (List.prefix_append _ _)
  rw [markOf_item hPrefix, matchItem_itemLine hId hSender hReply]
  by_cases hGap : id = [] ∨ sender = [] ∨ reply = []
  · rw [if_pos hGap, if_pos hGap]
  · rw [if_neg hGap, if_neg hGap]

/-- A text that is not only white space. -/
def Solid (text : List Char) : Prop :=
  text.dropWhile isSpace ≠ []

theorem splitThree_firstWord {mark ident at_ : List Char} (hMark : NoSpace mark) (hNew : mark ≠ [])
    (hIdent : NoSpace ident) (hName : ident ≠ []) (hAt : Solid at_) :
    splitThree (mark ++ ' ' :: (ident ++ ' ' :: at_)) = some (mark, ident, at_.dropWhile isSpace) := by
  have hBlank : isSpace ' ' = true := by decide
  have hDrop : ∀ {text : List Char}, NoSpace text → text ≠ [] → ∀ rest, (text ++ rest).dropWhile isSpace = text ++ rest := by
    intro text hText hSome rest
    obtain ⟨c, text, rfl⟩ := List.exists_cons_of_ne_nil hSome
    simp [hText c (by simp)]
  have hWord : ∀ {text : List Char}, NoSpace text → text ≠ [] → ∀ rest, word (text ++ ' ' :: rest) = some (text, ' ' :: rest) := by
    intro text hText hSome rest
    have hBefore := @word_before [' '] text rest rfl hText
    rwa [if_neg hSome] at hBefore
  have hNext : ∀ rest, (' ' :: rest).dropWhile isSpace = rest.dropWhile isSpace := by
    intro rest
    simp [hBlank]
  rw [splitThree, hDrop hMark hNew, hWord hMark hNew]
  simp only [Option.bind_eq_bind, Option.bind_some]
  rw [hNext, hDrop hIdent hName, hWord hIdent hName]
  simp only [Option.bind_some]
  rw [hNext, if_neg hAt]

variable {letter : Fact}

theorem firstWord_oneLine {host : Host} (hIdent : NoSpace (namedId host letter)) (hAt : OneLine letter.at_.toList) :
    OneLine (firstWord host letter) := by
  have hMark : OneLine firstMark := by decide
  have hBlank : OneLine [' '] := by decide
  exact hMark.append (hIdent.oneLine.append (hBlank.append hAt))

theorem markOf_firstWord {host : Host} (hIdent : NoSpace (namedId host letter)) (hName : namedId host letter ≠ [])
    (hAt : Solid letter.at_.toList) :
    markOf (firstWord host letter) = .word (namedId host letter) (letter.at_.toList.dropWhile isSpace) := by
  have hMark : NoSpace "first-word:".toList := by
    unfold NoSpace
    decide
  have hText : firstWord host letter =
      "first-word:".toList ++ ' ' :: (namedId host letter ++ ' ' :: letter.at_.toList) := by
    have hSplit : firstMark = "first-word:".toList ++ [' '] := by decide
    rw [firstWord, hSplit, List.append_assoc, List.singleton_append]
  have hPrefix : firstMark.isPrefixOf (firstWord host letter) = true :=
    List.isPrefixOf_iff_prefix.mpr (List.prefix_append _ _)
  rw [markOf_first hPrefix, hText, splitThree_firstWord hMark (by decide) hIdent hName hAt]

theorem settledLine_oneLine {settled : List Char} (h : OneLine settled) : OneLine (settledLine settled) := by
  have hMark : OneLine settledMark := by decide
  have hBlank : OneLine [' '] := by decide
  exact hMark.append (hBlank.append h)

theorem markOf_settledLine (settled : List Char) : markOf (settledLine settled) = .settled (strip settled) := by
  have hPrefix : settledMark.isPrefixOf (settledLine settled) = true :=
    List.isPrefixOf_iff_prefix.mpr (List.prefix_append _ _)
  have hAll : ∀ c ∈ "settled".toList, decide (c ≠ ':') = true := by decide
  have hText : settledLine settled = "settled".toList ++ ':' :: ' ' :: settled := by
    have hSplit : settledMark = "settled".toList ++ [':'] := by decide
    rw [settledLine, hSplit, List.append_assoc, List.singleton_append]
  have hBlank : isSpace ' ' = true := by decide
  rw [markOf_settled hPrefix, settledIn, hText, List.dropWhile_append_of_pos hAll]
  simp only [ne_eq, not_true_eq_false, decide_false, Bool.false_eq_true, not_false_eq_true, List.dropWhile_cons_of_neg,
    List.drop_succ_cons, List.drop_zero]
  rw [strip_cons hBlank]

theorem expectClock_append {pattern : List Char} (h : expectClock pattern text = some []) (tail : List Char) :
    expectClock pattern (text ++ tail) = some tail := by
  induction pattern generalizing text with
  | nil =>
      obtain rfl : text = [] := by simpa [expectClock] using h
      rfl
  | cons p pattern ih =>
      cases text with
      | nil => cases h
      | cons c text =>
          by_cases hHere : (if p = '0' then (digit c).isSome else decide (p = c)) = true
          · rw [expectClock, if_pos hHere] at h
            rw [List.cons_append, expectClock, if_pos hHere]
            exact ih h
          · rw [expectClock, if_neg hHere] at h
            cases h

theorem isDigit_digit {c : Char} (h : c.isDigit = true) : (digit c).isSome = true := by
  have hBounds : 0x30 ≤ c.toNat ∧ c.toNat < 0x30 + 10 := by
    simp only [Char.isDigit, Bool.and_eq_true, decide_eq_true_eq] at h
    have hLow : '0'.toNat ≤ c.toNat := h.1
    have hHigh : c.toNat ≤ '9'.toNat := h.2
    have hZero : '0'.toNat = 0x30 := by decide
    have hNine : '9'.toNat = 0x39 := by decide
    omega
  have hFound : (zeros.find? fun z => decide (z ≤ c.toNat ∧ c.toNat < z + 10)).isSome = true := by
    apply List.find?_isSome.mpr
    exact ⟨0x30, by decide, decide_eq_true hBounds⟩
  rw [digit, Option.isSome_map]
  exact hFound

theorem run_number (n : Nat) {literal : List Char} (hBlank : literal.head? = some ' ') (rest : List Char) :
    run (fun c => (digit c).isSome) ((toString n).toList ++ (literal ++ rest)) =
      some ((toString n).toList, literal ++ rest) := by
  have hDigits : (toString n).toList = Nat.toDigits 10 n := by
    rw [Nat.toString_eq_ofList_toDigits, String.toList_ofList]
  apply run_append
  · intro c hc
    rw [hDigits] at hc
    exact isDigit_digit (Nat.isDigit_of_mem_toDigits (by decide) (by decide) hc)
  · rw [hDigits]
    exact Nat.toDigits_ne_nil
  · intro c hc
    rw [List.head?_append, hBlank] at hc
    obtain rfl : ' ' = c := by simpa using hc
    decide

/-- The ids in the header, as they are joined and split again. -/
def owedText (ids : List (List Char)) : List Char :=
  ' ' :: ([' '].intercalate ids ++ [' '])

theorem wordsFrom_append (hText : NoSpace text) (word rest : List Char) :
    wordsFrom word (text ++ rest) = wordsFrom (word ++ text) rest := by
  induction text generalizing word with
  | nil => rw [List.nil_append, List.append_nil]
  | cons c text ih =>
      rw [List.cons_append, wordsFrom, hText c (by simp), if_neg Bool.false_ne_true,
        ih fun d hd => hText d (List.mem_cons_of_mem _ hd), List.append_assoc, List.singleton_append]

theorem wordsFrom_owedText {ids : List (List Char)} (h : ∀ id ∈ ids, NoSpace id ∧ id ≠ []) :
    wordsFrom [] (owedText ids) = ids := by
  have hBlank : isSpace ' ' = true := by decide
  have hSkip : ∀ rest, wordsFrom [] (' ' :: rest) = wordsFrom [] rest := by
    intro rest
    rw [wordsFrom, if_pos hBlank, if_pos rfl]
  have hEnd : ∀ {word : List Char}, word ≠ [] → ∀ rest, wordsFrom word (' ' :: rest) = word :: wordsFrom [] rest := by
    intro word hNew rest
    rw [wordsFrom, if_pos hBlank, if_neg hNew]
  rw [owedText, hSkip]
  induction ids with
  | nil => exact hSkip []
  | cons id ids ih =>
      obtain ⟨hId, hNew⟩ := h id (by simp)
      have hRest := ih fun other hOther => h other (List.mem_cons_of_mem _ hOther)
      cases ids with
      | nil =>
          have hJoin : [' '].intercalate [id] = id := by simp [List.intercalate]
          rw [hJoin, wordsFrom_append hId, List.nil_append, hEnd hNew]
          rfl
      | cons next ids =>
          have hJoin : [' '].intercalate (id :: next :: ids) = id ++ ' ' :: [' '].intercalate (next :: ids) := by
            simp [List.intercalate]
          rw [hJoin, List.append_assoc, wordsFrom_append hId, List.nil_append, List.cons_append, hEnd hNew, hRest]

variable {host : Host}

/-- What the loom promises of its own part of a page: a strand's name is a word,
the clock prints a time, letters have ids, words in front are words, a person's
letter has a time, and none of the loom's own lines reads as one of the letters'. -/
structure PageOk (host : Host) (p : Page) : Prop where
  strand : NoSpace p.strand ∧ p.strand ≠ []
  clock : expectClock clockPattern p.clock = some []
  ids : ∀ letter ∈ p.letters, (letter.data.lookup "id").isSome
  words : ∀ letter ∈ p.letters, NoSpace (idOf host letter) ∧ NoSpace (senderOf host letter) ∧ NoSpace (p.reply host letter)
  closing : ∀ letter ∈ p.letters, '>' ∉ idOf host letter
  times : ∀ letter ∈ p.letters, isPerson host letter = true → OneLine letter.at_.toList ∧ Solid letter.at_.toList
  quiet : ∀ line ∈ p.status :: (p.children ++ p.notices), ∀ piece ∈ pieces line,
    itemMark.isPrefixOf piece = false ∧ settledMark.isPrefixOf piece = false ∧ firstMark.isPrefixOf piece = false

variable {p : Page}

/-- The header matches where it stands. -/
theorem matchHeader_header (h : PageOk host p) (rest : List Char) :
    ∃ gen, matchHeader (p.header host ++ '\n' :: rest) =
      some (⟨p.strand, gen, owedText (p.letters.map (idOf host))⟩, '\n' :: rest) := by
  refine ⟨number (toString p.gen).toList, ?_⟩
  have hOwed : ∀ c ∈ owedText (p.letters.map (idOf host)) ++ ['-', '-'], decide (c ≠ '>') = true := by
    intro c hc
    apply decide_eq_true
    rintro rfl
    simp only [owedText, List.mem_append, List.mem_cons, List.not_mem_nil, or_false] at hc
    rcases hc with (hc | hc | hc) | hc | hc
    · revert hc
      decide
    · rcases mem_intercalate hc with hc | ⟨id, hId, hc⟩
      · rw [List.mem_singleton] at hc
        revert hc
        decide
      · obtain ⟨letter, hLetter, rfl⟩ := List.mem_map.mp hId
        exact h.closing letter hLetter hc
    · revert hc
      decide
    · revert hc
      decide
    · revert hc
      decide
  have hTail : ' ' :: [' '].intercalate (p.letters.map (idOf host)) ++ " -->".toList ++ '\n' :: rest =
      (owedText (p.letters.map (idOf host)) ++ ['-', '-']) ++ '>' :: '\n' :: rest := by
    have hClose : " -->".toList = [' ', '-', '-', '>'] := by decide
    rw [hClose, owedText]
    simp
  have hText : p.header host ++ '\n' :: rest =
      portMark ++ (p.strand ++ (genMark ++ ((toString p.gen).toList ++ (sepDot ++ (p.clock ++ (owedMark ++
        ((owedText (p.letters.map (idOf host)) ++ ['-', '-']) ++ '>' :: '\n' :: rest))))))) := by
    rw [← hTail, Page.header]
    simp only [List.append_assoc]
  have hSuffix : "--".toList.isSuffixOf (owedText (p.letters.map (idOf host)) ++ ['-', '-']) = true :=
    List.isSuffixOf_iff_suffix.mpr (List.suffix_append _ _)
  rw [hText, matchHeader]
  simp only [Option.bind_eq_bind, expect_append, Option.bind_some]
  rw [word_before (by decide) h.strand.1, if_neg h.strand.2]
  simp only [Option.bind_some, expect_append]
  rw [run_number p.gen (by decide)]
  simp only [Option.bind_some, expect_append]
  rw [expectClock_append h.clock]
  simp only [Option.bind_some, expect_append]
  have hFirst : ∀ (found : List Char) (other : Option (List Char)), (some found <|> other) = some found :=
    fun _ _ => rfl
  have hTake : (owedText (p.letters.map (idOf host)) ++ ['-', '-'] ++ '>' :: '\n' :: rest).takeWhile (· ≠ '>') =
      owedText (p.letters.map (idOf host)) ++ ['-', '-'] := by
    rw [List.takeWhile_append_of_pos hOwed]
    simp
  have hDrop : (owedText (p.letters.map (idOf host)) ++ ['-', '-'] ++ '>' :: '\n' :: rest).dropWhile (· ≠ '>') =
      ['>'] ++ '\n' :: rest := by
    rw [List.dropWhile_append_of_pos hOwed]
    simp
  rw [hFirst, Option.bind_some, hTake, hDrop, expect_append, Option.bind_some, if_pos hSuffix]
  simp

theorem searchHeader_header (h : PageOk host p) (rest : List Char) :
    ∃ gen, searchHeader (p.header host ++ '\n' :: rest) =
      some (⟨p.strand, gen, owedText (p.letters.map (idOf host))⟩, '\n' :: rest) := by
  obtain ⟨gen, hMatch⟩ := matchHeader_header h rest
  refine ⟨gen, ?_⟩
  generalize p.header host ++ '\n' :: rest = text at hMatch ⊢
  cases text with
  | nil =>
      have hNone : matchHeader [] = none := by decide
      rw [hNone] at hMatch
      cases hMatch
  | cons c text =>
      rw [searchHeader, hMatch]
      rfl

/-- The lines of the letter's own text on the page. -/
def Page.ownText (host : Host) (p : Page) (letter : Fact) : List (List Char) :=
  let body := (((Dict.get letter.data "body").orElse (.str "")).toStr host).toList
  let parts := body.splitOn '\n'
  parts.headD [] :: ((if p.shown.contains (String.ofList (idOf host letter)) then [] else parts.tail) ++
    (p.attachments.lookup letter.id).getD [])

/-- What of it no indent shields: `splitlines` cuts it off inside a line. -/
def Page.letterStrays (host : Host) (p : Page) (letter : Fact) : List (List Char) :=
  (p.ownText host letter).flatMap strays

def Page.strays (host : Host) (p : Page) : List (List Char) :=
  p.letters.flatMap (p.letterStrays host)

theorem loud_indent (lines : List (List Char)) : loud ((lines.map indent).flatMap pieces) = loud (lines.flatMap strays) := by
  have hShield : OneLine [' ', ' '] := by decide
  induction lines with
  | nil => rfl
  | cons line lines ih =>
      obtain ⟨first, -, hPieces⟩ := pieces_append hShield line
      have hLine : pieces (indent line) = indent first :: Port.strays line := hPieces
      have hSilent : loud [indent first] = [] := by
        apply loud_silent
        intro piece hPiece
        rw [List.mem_singleton.mp hPiece, markOf_indent]
      rw [List.map_cons, List.flatMap_cons, List.flatMap_cons, loud_append, loud_append, hLine, loud_cons, hSilent, ih]
      rfl

/-- What a letter's lines say: its own item, and what its strays say. -/
theorem loud_letterLines {p : Page} (letter : Fact) (hId : NoSpace (idOf host letter))
    (hSender : NoSpace (senderOf host letter)) (hReply : NoSpace (p.reply host letter)) :
    ∃ compact first, loud ((p.letterLines host letter).flatMap pieces) =
      loud [itemLine (idOf host letter) (senderOf host letter) (p.reply host letter) compact first] ++
        loud (p.letterStrays host letter) := by
  have hContext : ((splitlines ((p.replyContext.lookup letter.id).getD [])).flatMap Port.strays) = [] := by
    apply List.flatMap_eq_nil_iff.mpr
    intro line hLine
    exact strays_oneLine (splitlines_pieces _ line hLine)
  have hNothing : loud [] = [] := rfl
  rw [Page.letterLines, Port.letterLines, Page.letterStrays, Page.ownText]
  generalize p.shown.contains (String.ofList (idOf host letter)) = compact
  generalize (((Dict.get letter.data "body").orElse (.str "")).toStr host).toList.splitOn '\n' = parts
  obtain ⟨first, -, hPieces⟩ := pieces_append (itemLine_oneLine hId hSender hReply compact) (parts.headD [])
  rw [← itemLine_append, ← itemLine_append] at hPieces
  refine ⟨compact, first, ?_⟩
  have hRest : (if compact = true then [] else parts.tail.map indent) =
      (if compact = true then [] else parts.tail).map indent := by
    cases compact <;> rfl
  simp only [List.flatMap_cons, List.flatMap_append]
  rw [hPieces, hRest, List.cons_append, loud_cons]
  simp only [loud_append, loud_indent, hContext, hNothing, List.append_nil]

/-- What the page's lines say: what was settled, the first words, and the letters. -/
theorem loud_lines (h : PageOk host p) :
    loud ((p.lines host).flatMap pieces) =
      loud ((p.settled.elim [] fun settled => [settledLine settled]).flatMap pieces) ++
        (loud (((p.letters.filter (isPerson host)).map (firstWord host)).flatMap pieces) ++
          p.letters.flatMap fun letter => loud ((p.letterLines host letter).flatMap pieces)) := by
  have hQuiet : ∀ line ∈ p.status :: (p.children ++ p.notices), loud (pieces line) = [] := by
    intro line hLine
    apply loud_silent
    intro piece hPiece
    obtain ⟨hItem, hSettled, hFirst⟩ := h.quiet line hLine piece hPiece
    rw [markOf, hFirst, hSettled, hItem]
    rfl
  have hChildren : loud (p.children.flatMap pieces) = [] := by
    rw [loud_flatMap]
    exact List.flatMap_eq_nil_iff.mpr fun line hLine => hQuiet line (by simp [hLine])
  have hNotices : loud (p.notices.flatMap pieces) = [] := by
    rw [loud_flatMap]
    exact List.flatMap_eq_nil_iff.mpr fun line hLine => hQuiet line (by simp [hLine])
  have hOwed : loud (pieces "owed:".toList) = [] := by decide
  rw [Page.lines]
  simp only [List.flatMap_cons, List.flatMap_append, loud_append]
  rw [hQuiet p.status (by simp), hChildren, hNotices, hOwed, loud_flatMap, List.flatMap_assoc]
  simp [loud_flatMap]

/-- A page is read as its letters, what was settled and first words of persons. -/
def Unforged (host : Host) (p : Page) : Prop :=
  ∃ text boundary, renderBoundary host p = .ok text ∧ parseBoundary text = .ok boundary ∧
    boundary.ids = p.letters.map (idOf host) ∧ boundary.settled = p.settled ∧
    ∀ entry ∈ boundary.firstWords, ∃ letter ∈ p.letters, isPerson host letter = true ∧ namedId host letter = entry.1

/-- The page comes back as its marks are run. -/
theorem unforged_iff (h : PageOk host p) :
    Unforged host p ↔
      ∃ k, (loud ((p.lines host).flatMap pieces)).foldlM Sketch.read ⟨[], none, []⟩ = .ok k ∧
        k.ids = p.letters.map (idOf host) ∧
        wordsFrom [] (owedText (p.letters.map (idOf host))) = p.letters.map (idOf host) ∧ k.settled = p.settled ∧
        ∀ ident ∈ k.firstWords.map Prod.fst,
          ∃ letter ∈ p.letters, isPerson host letter = true ∧ namedId host letter = ident := by
  have hRender : renderBoundary host p = .ok (p.header host ++ '\n' :: joinLines (p.lines host ++ [[]])) := by
    have hIds : (p.letters.any fun letter => (letter.data.lookup "id").isNone) = false := by
      apply List.any_eq_false.mpr
      intro letter hLetter hNone
      rw [Option.isNone_iff_eq_none] at hNone
      have hSome := h.ids letter hLetter
      rw [hNone] at hSome
      cases hSome
    rw [renderBoundary, hIds, if_neg Bool.false_ne_true]
    rfl
  obtain ⟨gen, hHeader⟩ := searchHeader_header h (joinLines (p.lines host ++ [[]]))
  have hSolid : strip (p.header host ++ '\n' :: joinLines (p.lines host ++ [[]])) ≠ [] :=
    strip_ne_nil (c := '<') rfl (by decide)
  have hStart : readBoundaryLine Reading.start [] = .ok Reading.start := rfl
  have hSplit : splitlines ('\n' :: joinLines (p.lines host ++ [[]])) = [] :: (p.lines host).flatMap pieces := by
    have hNewline := splitlines_newline [] (joinLines (p.lines host ++ [[]]))
    rw [List.nil_append] at hNewline
    rw [hNewline, splitlines_page]
    rfl
  have hParse : parseBoundary (p.header host ++ '\n' :: joinLines (p.lines host ++ [[]])) =
      ((p.lines host).flatMap pieces).foldlM readBoundaryLine Reading.start >>= fun s =>
        if s.letters.map (·.id) ≠ wordsFrom [] (owedText (p.letters.map (idOf host))) then .error .owedIds
        else .ok ⟨p.strand, gen, wordsFrom [] (owedText (p.letters.map (idOf host))), s.letters, s.settled, s.firstWords⟩ := by
    rw [parseBoundary, if_neg hSolid, hHeader]
    dsimp only
    rw [hSplit, List.foldlM_cons, hStart]
    rfl
  have hLoud := readLines_loud ((p.lines host).flatMap pieces) Reading.start
  constructor
  · rintro ⟨text, boundary, hText, hBoundary, hIds, hSettled, hWords⟩
    rw [hRender] at hText
    cases hText
    rw [hParse] at hBoundary
    obtain ⟨s, hRead, hEnd⟩ := Fallible.peel hBoundary
    split at hEnd
    · cases hEnd
    rename_i hSame
    cases hEnd
    rw [hRead] at hLoud
    refine ⟨s.sketch, hLoud.symm, (not_not.mp hSame).trans hIds, hIds, hSettled, fun ident hIdent => ?_⟩
    obtain ⟨entry, hEntry, rfl⟩ := List.mem_map.mp hIdent
    exact hWords entry hEntry
  · rintro ⟨k, hRun, hIds, hSplitIds, hSettled, hWords⟩
    obtain ⟨s, hRead, rfl⟩ := Fallible.map_eq_ok.mp (hLoud.trans hRun)
    have hSame : s.letters.map (·.id) = wordsFrom [] (owedText (p.letters.map (idOf host))) := hIds.trans hSplitIds.symm
    have hBoundary := hParse
    rw [hRead, Fallible.ok_bind, if_neg (not_not.mpr hSame)] at hBoundary
    refine ⟨_, _, hRender, hBoundary, hSplitIds, hSettled, ?_⟩
    intro entry hEntry
    exact hWords _ (List.mem_map_of_mem hEntry)

/-- What keeps the letters from speaking for the loom. A stray is a piece of a
letter's body or attachment that `splitlines` cuts off inside a line. -/
structure Page.Fenced (host : Host) (p : Page) : Prop where
  words : ∀ letter ∈ p.letters, idOf host letter ≠ [] ∧ senderOf host letter ≠ [] ∧ p.reply host letter ≠ []
  settled : ∀ settled, p.settled = some settled → OneLine settled ∧ strip settled = settled
  noItem : ∀ stray ∈ p.strays host, itemMark.isPrefixOf stray = false
  firstWords : ∀ stray ∈ p.strays host, firstMark.isPrefixOf stray = true → ∃ mark ident at_,
    splitThree stray = some (mark, ident, at_) ∧
      ∃ letter ∈ p.letters, isPerson host letter = true ∧ namedId host letter = ident
  lastSettled : ∀ stray, ((p.strays host).filter fun stray => settledMark.isPrefixOf stray).getLast? = some stray →
    p.settled = some (settledIn stray)

/-- The settled texts among the marks are those of the lines with the settled mark. -/
theorem settledTexts_loud (lines : List (List Char)) :
    (loud lines).filterMap Mark.settledText = (lines.filter fun line => settledMark.isPrefixOf line).map settledIn := by
  induction lines with
  | nil => rfl
  | cons line lines ih =>
      have hOther : ∀ {mark : List Char} {c : Char}, mark.head? = some c → c ≠ 's' → mark.isPrefixOf line = true →
          settledMark.isPrefixOf line = false := by
        intro mark c hMark hNot hPrefix
        apply not_head_start settledMark_head
        rw [start_head hMark hPrefix]
        exact fun h => hNot (Option.some.inj h)
      rw [loud_cons, List.filterMap_append, ih, loud, List.map_singleton]
      generalize hMark : markOf line = mark
      have hMeans := hMark ▸ means line
      cases hMeans with
      | word h => simp [hOther firstMark_head (by decide) h, Mark.speaks, Mark.settledText]
      | unpack h => simp [hOther firstMark_head (by decide) h, Mark.speaks, Mark.settledText]
      | settled h =>
          rw [List.filter_cons_of_pos h, List.map_cons]
          rfl
      | item h => simp [hOther itemMark_head (by decide) h, Mark.speaks, Mark.settledText]
      | notALetter h => simp [hOther itemMark_head (by decide) h, Mark.speaks, Mark.settledText]
      | silent _ h => simp [h, Mark.speaks]

theorem mem_loud {lines : List (List Char)} {mark : Mark} :
    mark ∈ loud lines ↔ mark.speaks = true ∧ ∃ line ∈ lines, markOf line = mark := by
  simp only [loud, List.mem_filter, List.mem_map]
  tauto

theorem settledIn_stripped {line : List Char} (h : OneLine line) :
    OneLine (settledIn line) ∧ strip (settledIn line) = settledIn line := by
  constructor
  · intro c hc
    have hSub : settledIn line ⊆ line := by
      have hStrip : strip ((line.dropWhile (· ≠ ':')).drop 1) <+: ((line.dropWhile (· ≠ ':')).drop 1).dropWhile isSpace :=
        List.rdropWhile_prefix isSpace _
      exact fun d hd => (List.dropWhile_sublist _).subset
        ((List.drop_sublist 1 _).subset ((List.dropWhile_sublist _).subset (hStrip.subset hd)))
    exact h c (hSub hc)
  · exact strip_eq_self (fun c hc => head_of_strip hc) (fun c hc => last_of_strip hc)

theorem settled_marks (h : ∀ settled, p.settled = some settled → OneLine settled ∧ strip settled = settled) :
    loud ((p.settled.elim [] fun settled => [settledLine settled]).flatMap pieces) =
      p.settled.toList.map Mark.settled := by
  cases hSettled : p.settled with
  | none => rfl
  | some settled =>
      obtain ⟨hOne, hStrip⟩ := h settled hSettled
      rw [Option.elim_some, List.flatMap_singleton, pieces_oneLine (settledLine_oneLine hOne), loud, List.map_singleton,
        markOf_settledLine, hStrip]
      rfl

theorem namedId_eq (h : PageOk host p) (hLetter : letter ∈ p.letters) : namedId host letter = idOf host letter := by
  obtain ⟨id, hId⟩ := Option.isSome_iff_exists.mp (h.ids letter hLetter)
  rw [namedId, idOf, Dict.get, hId]
  rfl

/-- The first words above the letters are those of persons' letters. -/
theorem firstWord_marks (h : PageOk host p) (hWords : ∀ letter ∈ p.letters, idOf host letter ≠ []) :
    loud (((p.letters.filter (isPerson host)).map (firstWord host)).flatMap pieces) =
      (p.letters.filter (isPerson host)).map fun letter =>
        .word (namedId host letter) (letter.at_.toList.dropWhile isSpace) := by
  have hOne : ∀ letter ∈ p.letters.filter (isPerson host), loud (pieces (firstWord host letter)) =
      [.word (namedId host letter) (letter.at_.toList.dropWhile isSpace)] := by
    intro letter hMem
    obtain ⟨hLetter, hPerson⟩ := List.mem_filter.mp hMem
    have hName := namedId_eq h hLetter
    obtain ⟨hTime, hSolid⟩ := h.times letter hLetter hPerson
    have hNoSpace : NoSpace (namedId host letter) := hName ▸ (h.words letter hLetter).1
    have hNew : namedId host letter ≠ [] := hName ▸ hWords letter hLetter
    rw [pieces_oneLine (firstWord_oneLine hNoSpace hTime), loud, List.map_singleton,
      markOf_firstWord hNoSpace hNew hSolid]
    rfl
  generalize p.letters.filter (isPerson host) = persons at hOne ⊢
  induction persons with
  | nil => rfl
  | cons letter persons ih =>
      rw [List.map_cons, List.flatMap_cons, loud_append, hOne letter (by simp),
        ih fun other hOther => hOne other (List.mem_cons_of_mem _ hOther)]
      rfl

/-- A letter with its three words is one item, followed by what its strays say. -/
theorem letter_marks (h : PageOk host p) (hLetter : letter ∈ p.letters) :
    (∃ error, .bad error ∈ loud ((p.letterLines host letter).flatMap pieces)) ∧
        (idOf host letter = [] ∨ senderOf host letter = [] ∨ p.reply host letter = []) ∨
      (∃ view : LetterView, view.id = idOf host letter ∧
        loud ((p.letterLines host letter).flatMap pieces) = .item view :: loud (p.letterStrays host letter)) ∧
        idOf host letter ≠ [] ∧ senderOf host letter ≠ [] ∧ p.reply host letter ≠ [] := by
  obtain ⟨hId, hSender, hReply⟩ := h.words letter hLetter
  obtain ⟨compact, first, hLoud⟩ := loud_letterLines (p := p) letter hId hSender hReply
  have hMark := markOf_itemLine hId hSender hReply compact first
  rw [hLoud]
  by_cases hGap : idOf host letter = [] ∨ senderOf host letter = [] ∨ p.reply host letter = []
  · rw [if_pos hGap] at hMark
    refine .inl ⟨⟨_, List.mem_append_left _ (mem_loud.mpr ⟨rfl, _, List.mem_singleton_self _, hMark⟩)⟩, hGap⟩
  · rw [if_neg hGap] at hMark
    let view : LetterView := ⟨idOf host letter, senderOf host letter, p.reply host letter, first, compact⟩
    refine .inr ⟨⟨view, rfl, ?_⟩, by tauto⟩
    rw [loud, List.map_singleton, hMark]
    rfl

/-- What a page says whose letters have their words and whose settled text is one line. -/
structure PageMarks (host : Host) (p : Page) (marks : List Mark) : Prop where
  bad : ∀ error, .bad error ∈ marks ↔ .bad error ∈ loud (p.strays host)
  ids : marks.filterMap Mark.itemId =
    p.letters.flatMap fun letter => idOf host letter :: (loud (p.letterStrays host letter)).filterMap Mark.itemId
  settled : marks.filterMap Mark.settledText =
    p.settled.toList ++ ((p.strays host).filter fun stray => settledMark.isPrefixOf stray).map settledIn
  idents : ∀ ident, ident ∈ marks.filterMap Mark.ident ↔
    (∃ letter ∈ p.letters, isPerson host letter = true ∧ namedId host letter = ident) ∨
      ident ∈ (loud (p.strays host)).filterMap Mark.ident

theorem page_marks (h : PageOk host p)
    (hWords : ∀ letter ∈ p.letters, idOf host letter ≠ [] ∧ senderOf host letter ≠ [] ∧ p.reply host letter ≠ [])
    (hSettled : ∀ settled, p.settled = some settled → OneLine settled ∧ strip settled = settled) :
    PageMarks host p (loud ((p.lines host).flatMap pieces)) := by
  have hLetter : ∀ letter ∈ p.letters, ∃ view : LetterView, view.id = idOf host letter ∧
      loud ((p.letterLines host letter).flatMap pieces) = .item view :: loud (p.letterStrays host letter) := by
    intro letter hMem
    rcases letter_marks h hMem with ⟨-, hGap⟩ | ⟨hView, -⟩
    · have hAll := hWords letter hMem
      tauto
    · exact hView
  have hStrays : loud (p.strays host) = p.letters.flatMap fun letter => loud (p.letterStrays host letter) :=
    loud_flatMap _ _
  have hFilter : ∀ {β : Type} (f : Mark → Option β), (∀ letter ∈ p.letters, ∀ view : LetterView, f (.item view) = none) →
      (p.letters.flatMap fun letter => loud ((p.letterLines host letter).flatMap pieces)).filterMap f =
        (loud (p.strays host)).filterMap f := by
    intro β f hNone
    rw [hStrays, List.filterMap_flatMap, List.filterMap_flatMap]
    apply List.flatMap_congr
    intro letter hMem
    obtain ⟨view, -, hView⟩ := hLetter letter hMem
    rw [hView, List.filterMap_cons, hNone letter hMem view]
  rw [loud_lines h, settled_marks hSettled, firstWord_marks h fun letter hMem => (hWords letter hMem).1]
  refine ⟨fun error => ?_, ?_, ?_, fun ident => ?_⟩
  · rw [hStrays]
    simp only [List.mem_append, List.mem_map, List.mem_flatMap, reduceCtorEq, and_false, exists_false, false_or]
    refine exists_congr fun letter => and_congr_right fun hMem => ?_
    obtain ⟨view, -, hView⟩ := hLetter letter hMem
    rw [hView]
    simp
  · rw [List.filterMap_append, List.filterMap_append, List.filterMap_map, List.filterMap_map, List.filterMap_flatMap]
    have hNothing : ∀ {α : Type} (l : List α), l.filterMap (fun _ => (none : Option (List Char))) = [] := by simp
    have hFirst : (p.settled.toList.filterMap (Mark.itemId ∘ Mark.settled)) = [] := hNothing _
    have hSecond : ((p.letters.filter (isPerson host)).filterMap (Mark.itemId ∘ fun letter =>
        .word (namedId host letter) (letter.at_.toList.dropWhile isSpace))) = [] := hNothing _
    rw [hFirst, hSecond, List.nil_append, List.nil_append]
    apply List.flatMap_congr
    intro letter hMem
    obtain ⟨view, hId, hView⟩ := hLetter letter hMem
    rw [hView, ← hId]
    rfl
  · rw [List.filterMap_append, List.filterMap_append, hFilter _ (fun _ _ _ => rfl), settledTexts_loud, List.filterMap_map,
      List.filterMap_map]
    have hFirst : (p.settled.toList.filterMap (Mark.settledText ∘ Mark.settled)) = p.settled.toList := by
      cases p.settled <;> rfl
    have hSecond : ((p.letters.filter (isPerson host)).filterMap (Mark.settledText ∘ fun letter =>
        .word (namedId host letter) (letter.at_.toList.dropWhile isSpace))) = [] := by
      show List.filterMap (fun _ => none) _ = []
      simp
    rw [hFirst, hSecond, List.nil_append]
  · rw [List.filterMap_append, List.filterMap_append, hFilter _ (fun _ _ _ => rfl), List.mem_append, List.mem_append]
    have hFirst : ident ∉ (p.settled.toList.map Mark.settled).filterMap Mark.ident := by
      cases p.settled <;> simp [Mark.ident]
    have hSecond : ident ∈ ((p.letters.filter (isPerson host)).map fun letter =>
          Mark.word (namedId host letter) (letter.at_.toList.dropWhile isSpace)).filterMap Mark.ident ↔
        ∃ letter ∈ p.letters, isPerson host letter = true ∧ namedId host letter = ident := by
      simp [Mark.ident, and_assoc]
    rw [or_iff_right hFirst, hSecond]

/-- A piece of a page stands on one line. -/
theorem lines_pieces {piece : List Char} (h : piece ∈ (p.lines host).flatMap pieces) : OneLine piece := by
  obtain ⟨line, -, hPiece⟩ := List.mem_flatMap.mp h
  exact splitlines_pieces _ piece hPiece

theorem eq_nil_of_flatMap {α β : Type} {l : List α} {f : α → β} {g : α → List β}
    (h : (l.flatMap fun a => f a :: g a) = l.map f) : ∀ a ∈ l, g a = [] := by
  have hLength := congrArg List.length h
  rw [List.length_flatMap, List.length_map] at hLength
  clear h
  have hLow : ∀ l : List α, l.length ≤ (l.map fun a => (f a :: g a).length).sum := by
    intro l
    induction l with
    | nil => simp
    | cons a l ih =>
        simp only [List.map_cons, List.sum_cons, List.length_cons] at ih ⊢
        omega
  induction l with
  | nil => exact nofun
  | cons a l ih =>
      have hRest := hLow l
      simp only [List.map_cons, List.sum_cons, List.length_cons] at hLength hRest ih
      intro b hb
      rcases List.mem_cons.mp hb with rfl | hb
      · exact List.length_eq_zero_iff.mp (by omega)
      · exact ih (by omega) b hb

theorem getLast?_append_some {α : Type} {a b : List α} {x : α} (h : b.getLast? = some x) : (a ++ b).getLast? = some x := by
  rw [List.getLast?_append, h]
  rfl

/-- A boundary page is read as it was meant exactly when its letters are fenced:
the reader splits where the writer did not, so a stray piece that looks like an
item, a first word or a settled line speaks for the loom. -/
theorem boundary_unforged {p : Page} (h : PageOk host p) : Unforged host p ↔ p.Fenced host := by
  rw [unforged_iff h]
  constructor
  · rintro ⟨k, hRun, hIds, -, hSettled, hPersons⟩
    obtain ⟨hBad, hRunIds, hRunSettled, hRunIdents⟩ := run_spec hRun
    have hWords : ∀ letter ∈ p.letters,
        idOf host letter ≠ [] ∧ senderOf host letter ≠ [] ∧ p.reply host letter ≠ [] := by
      intro letter hMem
      rcases letter_marks h hMem with ⟨⟨error, hError⟩, -⟩ | ⟨-, hAll⟩
      · refine absurd ?_ (hBad error)
        rw [loud_lines h]
        exact List.mem_append_right _ (List.mem_append_right _ (List.mem_flatMap.mpr ⟨letter, hMem, hError⟩))
      · exact hAll
    -- A settled text is read off one piece, so it has no boundary in it.
    have hOneLine : ∀ settled, p.settled = some settled → OneLine settled ∧ strip settled = settled := by
      intro settled hSome
      rw [hSettled, hSome, Option.or_none, settledTexts_loud] at hRunSettled
      obtain ⟨piece, hPiece, rfl⟩ := List.mem_map.mp (List.mem_of_getLast? hRunSettled.symm)
      exact settledIn_stripped (lines_pieces (List.mem_of_mem_filter hPiece))
    have hMarks := page_marks h hWords hOneLine
    rw [hMarks.ids, hIds, List.nil_append] at hRunIds
    have hNone := eq_nil_of_flatMap hRunIds.symm
    refine ⟨hWords, hOneLine, fun stray hStray => ?_, fun stray hStray hPrefix => ?_, fun stray hLast => ?_⟩
    · apply Bool.eq_false_iff.mpr
      intro hPrefix
      obtain ⟨letter, hMem, hOwn⟩ := List.mem_flatMap.mp hStray
      have hMark := markOf_item hPrefix
      cases hItem : matchItem stray with
      | none =>
          rw [hItem] at hMark
          exact hBad _ ((hMarks.bad _).mpr (mem_loud.mpr ⟨rfl, stray, hStray, hMark⟩))
      | some view =>
          rw [hItem] at hMark
          have hSome : view.id ∈ (loud (p.letterStrays host letter)).filterMap Mark.itemId :=
            List.mem_filterMap.mpr ⟨.item view, mem_loud.mpr ⟨rfl, stray, hOwn, hMark⟩, rfl⟩
          rw [hNone letter hMem] at hSome
          cases hSome
    · have hMark := markOf_first hPrefix
      cases hSplit : splitThree stray with
      | none =>
          rw [hSplit] at hMark
          exact absurd ((hMarks.bad _).mpr (mem_loud.mpr ⟨rfl, stray, hStray, hMark⟩)) (hBad _)
      | some parts =>
          rw [hSplit] at hMark
          refine ⟨_, _, _, rfl, hPersons _ ((hRunIdents _).mpr (.inr ((hMarks.idents _).mpr (.inr ?_))))⟩
          exact List.mem_filterMap.mpr ⟨_, mem_loud.mpr ⟨rfl, stray, hStray, hMark⟩, rfl⟩
    · have hLastText : (((p.strays host).filter fun stray => settledMark.isPrefixOf stray).map settledIn).getLast? =
          some (settledIn stray) := by
        rw [List.getLast?_map, hLast]
        rfl
      rw [hMarks.settled, getLast?_append_some hLastText] at hRunSettled
      exact hSettled.symm.trans hRunSettled
  · intro hFenced
    have hMarks := page_marks h hFenced.words hFenced.settled
    have hSilentItem : ∀ stray ∈ p.strays host, ∀ view, markOf stray ≠ .item view := by
      intro stray hStray view hMark
      have hMeans := hMark ▸ means stray
      cases hMeans with
      | item hPrefix => rw [hFenced.noItem stray hStray] at hPrefix; cases hPrefix
    have hBad : ∀ error, .bad error ∉ loud ((p.lines host).flatMap pieces) := by
      intro error hMem
      obtain ⟨-, stray, hStray, hMark⟩ := mem_loud.mp ((hMarks.bad error).mp hMem)
      have hMeans := hMark ▸ means stray
      cases hMeans with
      | unpack hPrefix hSplit =>
          obtain ⟨_, _, _, hSome, -⟩ := hFenced.firstWords stray hStray hPrefix
          rw [hSplit] at hSome
          cases hSome
      | notALetter hPrefix =>
          rw [hFenced.noItem stray hStray] at hPrefix
          cases hPrefix
    obtain ⟨k, hRun⟩ := run_ok hBad ⟨[], none, []⟩
    obtain ⟨-, hRunIds, hRunSettled, hRunIdents⟩ := run_spec hRun
    refine ⟨k, hRun, ?_, ?_, ?_, fun ident hIdent => ?_⟩
    · rw [hRunIds, List.nil_append, hMarks.ids, List.map_eq_flatMap]
      apply List.flatMap_congr
      intro letter hMem
      have hNone : (loud (p.letterStrays host letter)).filterMap Mark.itemId = [] := by
        apply List.filterMap_eq_nil_iff.mpr
        intro mark hMark
        obtain ⟨-, stray, hStray, hIs⟩ := mem_loud.mp hMark
        cases mark with
        | item view => exact absurd hIs (hSilentItem stray (List.mem_flatMap.mpr ⟨letter, hMem, hStray⟩) view)
        | _ => rfl
      rw [hNone]
    · apply wordsFrom_owedText
      intro id hId
      obtain ⟨letter, hMem, rfl⟩ := List.mem_map.mp hId
      exact ⟨(h.words letter hMem).1, (hFenced.words letter hMem).1⟩
    · rw [hRunSettled, Option.or_none, hMarks.settled, List.getLast?_append, List.getLast?_map]
      cases hLast : ((p.strays host).filter fun stray => settledMark.isPrefixOf stray).getLast? with
      | none => cases p.settled <;> rfl
      | some stray => exact (hFenced.lastSettled stray hLast).symm
    · rcases (hRunIdents ident).mp hIdent with hStart | hMark
      · cases hStart
      rcases (hMarks.idents ident).mp hMark with hPerson | hStray
      · exact hPerson
      · obtain ⟨mark, hMem, hIs⟩ := List.mem_filterMap.mp hStray
        obtain ⟨-, stray, hStrayMem, hIsMark⟩ := mem_loud.mp hMem
        have hMeans := hIsMark ▸ means stray
        cases hMeans with
        | word hPrefix hSplit =>
            obtain ⟨_, _, _, hSame, hPerson⟩ := hFenced.firstWords stray hStrayMem hPrefix
            rw [hSplit] at hSame
            cases hSame
            cases hIs
            exact hPerson
        | unpack | settled | item | notALetter | silent => cases hIs

/-- A page that owes one note of a person. -/
def notePage (body : String) : Page where
  strand := "s-1".toList
  gen := 2
  clock := "2026-10-12 08:30Z".toList
  thread := "home".toList
  letters := [⟨"letter", "loom:aaaa", [("body", .str body), ("from", .str "p-1"), ("id", .str "a-1")],
    "2026-10-12T08:29:00Z", "f-1", 1, none, []⟩]
  shown := []
  senderThreads := []
  fuel := []
  settled := none
  channels := []
  opened := []
  plan := []
  replies := some [("f-1", "chat:1")]
  attachments := []
  replyContext := []
  budget := []
  «over» := []
  repaired := []
  degraded := []
  face := []
  left := []
  moved := []
  library := []
  forge := []
  band := []
  done := []
  room := []
  cited := []
  idle := []

theorem notePage_ok (body : String) : PageOk bareHost (notePage body) := by
  have hWord : ∀ text ∈ ["s-1".toList, "a-1".toList, "p-1".toList, "chat:1".toList], ∀ c ∈ text, isSpace c = false := by
    decide
  have hQuiet : ∀ line ∈ (notePage "").status :: ((notePage "").children ++ (notePage "").notices),
      ∀ piece ∈ pieces line, itemMark.isPrefixOf piece = false ∧ settledMark.isPrefixOf piece = false ∧
        firstMark.isPrefixOf piece = false := by
    decide +kernel
  have hStatus : (notePage body).status = (notePage "").status := rfl
  have hChildren : (notePage body).children = (notePage "").children := rfl
  have hNotices : (notePage body).notices = (notePage "").notices := rfl
  constructor
  case strand =>
    have hStrand : NoSpace "s-1".toList ∧ "s-1".toList ≠ [] := ⟨hWord _ (by simp), by decide⟩
    exact hStrand
  case clock =>
    show expectClock clockPattern "2026-10-12 08:30Z".toList = some []
    decide
  case quiet =>
    rw [hStatus, hChildren, hNotices]
    exact hQuiet
  all_goals intro letter hLetter; obtain rfl := List.mem_singleton.mp hLetter
  case ids => rfl
  case words =>
    have hId : NoSpace "a-1".toList := hWord _ (by simp)
    have hSender : NoSpace "p-1".toList := hWord _ (by simp)
    have hReply : NoSpace "chat:1".toList := hWord _ (by simp)
    exact ⟨hId, hSender, hReply⟩
  case closing =>
    show '>' ∉ "a-1".toList
    decide
  case times =>
    intro _
    have hTime : OneLine "2026-10-12T08:29:00Z".toList ∧ "2026-10-12T08:29:00Z".toList.dropWhile isSpace ≠ [] := by
      decide
    exact hTime

/-- A note whose second line looks like the loom's stays a note. -/
theorem boundary_unforged_note : Unforged bareHost (notePage "Hi\nsettled: done") := by
  have hStrays : (notePage "Hi\nsettled: done").strays bareHost = [] := by decide +kernel
  apply (boundary_unforged (notePage_ok _)).mpr
  constructor
  case words =>
    intro letter hLetter
    obtain rfl := List.mem_singleton.mp hLetter
    have hWords : "a-1".toList ≠ [] ∧ "p-1".toList ≠ [] ∧ "chat:1".toList ≠ [] := by decide
    exact hWords
  case settled => exact nofun
  all_goals
    rw [hStrays]
    exact nofun

/-- A carriage return in a note settles the thread. -/
theorem boundary_forged : PageOk bareHost (notePage "Hi\rsettled: done") ∧
    (∃ text boundary, renderBoundary bareHost (notePage "Hi\rsettled: done") = .ok text ∧
      parseBoundary text = .ok boundary ∧ boundary.settled = some "done".toList) ∧
    ¬Unforged bareHost (notePage "Hi\rsettled: done") := by
  have hSettled : (match renderBoundary bareHost (notePage "Hi\rsettled: done") with
      | .ok text => match parseBoundary text with
          | .ok boundary => boundary.settled
          | .error _ => none
      | .error _ => none) = some "done".toList := by
    decide +kernel
  cases hRender : renderBoundary bareHost (notePage "Hi\rsettled: done") with
  | error => simp [hRender] at hSettled
  | ok text =>
      cases hParse : parseBoundary text with
      | error => simp [hRender, hParse] at hSettled
      | ok boundary =>
          simp only [hRender, hParse] at hSettled
          refine ⟨notePage_ok _, ⟨text, boundary, rfl, hParse, hSettled⟩, ?_⟩
          rintro ⟨other, read, hText, hRead, -, hNone, -⟩
          rw [hRender] at hText
          cases hText
          rw [hParse] at hRead
          cases hRead
          rw [hSettled] at hNone
          cases hNone

end Brnrd.Port
