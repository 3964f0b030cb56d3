import Brnrd.Events.Event
import Brnrd.Port.Marks
import Brnrd.Trailers.Block
import Mathlib.Data.Finset.Sort

/-! The trailers that a send stamps on a strand's commits, and what the label check of the
incumbent tree reads of them. -/
namespace Brnrd.Stamps

open Python
open Events (Text lstrip rstripNewlines)
open Readme (universal)
open Trailers (Git)

def loomStrand : Text := "Loom-Strand".toList

def loomLabel : Text := "Loom-Label".toList

def wideningKey : Text := "Widening".toList

def loomKeys : List Text := [loomStrand, loomLabel, wideningKey]

/-- `Label`. -/
structure Label where
  taint : Bool
  audience : Finset String

instance isTransString : IsTrans String (· ≤ ·) :=
  inferInstance

instance antisymmString : Std.Antisymm fun a b : String => a ≤ b :=
  inferInstance

/-- `label.trailer()`. -/
def Label.trailer (label : Label) : Text :=
  "taint=".toList ++ (if label.taint then '1' else '0') :: "; audience=".toList ++
    [','].intercalate ((label.audience.sort (· ≤ ·)).map String.toList)

/-- `text.partition(":")`, where there is a colon. -/
def partition (text : Text) : Option (Text × Text) :=
  match text.dropWhile (· ≠ ':') with
  | [] => none
  | _ :: value => some (text.takeWhile (· ≠ ':'), value)

/-- `line.split(":", 1)[0].strip()`. -/
def keyOf (line : Text) : Text :=
  strip (line.takeWhile (· ≠ ':'))

/-- `_looks_like_trailer(line)`. -/
def looksLikeTrailer (line : Text) : Bool :=
  line.head?.any (fun c => c = ' ' || c = '\t') ||
    (partition line).any fun (key, _) => strip key ≠ [] && ' ' ∉ strip key

/-- `_split_message(message)`. -/
def splitMessage (message : Text) : Text × List Text :=
  let lines := (splitlines message).rdropWhile fun line => strip line = []
  let trailers := lines.rtakeWhile looksLikeTrailer
  let front := lines.rdropWhile looksLikeTrailer
  let blankBefore := front.getLast?.any fun line => strip line = []
  let known := trailers.any fun line => keyOf line ∈ loomKeys
  if trailers ≠ [] ∧ (blankBefore || known) then (joinLines (front.rdropWhile fun line => strip line = []), trailers)
  else (joinLines lines, [])

/-- The message without the trailers that were found in it, as it is given to git. -/
def stripped (message : Text) : Text :=
  let (body, trailers) := splitMessage message
  let kept := trailers.filter fun line => keyOf line ∉ loomKeys
  let text := if kept = [] then body else if body = [] then joinLines kept else body ++ '\n' :: '\n' :: joinLines kept
  if text.getLast? = some '\n' then text else text ++ ['\n']

/-- The lines of a text whose last line is ended. -/
def linesOf (text : Text) : List Text :=
  (text.splitOn '\n').dropLast

/-- Each line with its end. -/
def unlines (lines : List Text) : Text :=
  lines.flatMap (· ++ ['\n'])

/-- `if widening:`. -/
def named (widening : Option Text) : List Text :=
  widening.toList.filter (· ≠ [])

/-- The `--trailer` arguments. -/
def stamps (strand : Text) (label : Label) (widening : Option Text) : List (Text × Text) :=
  (loomStrand, strand) :: (loomLabel, label.trailer) :: (named widening).map fun cite => (wideningKey, cite)

variable (git : Git)

/-- `git interpret-trailers --if-exists replace`; what is given on the command line is trimmed. -/
def interpret (text : Text) (entries : List (Text × Text)) : Text :=
  unlines (git.add (linesOf text) (entries.map fun entry => (entry.1, Trailers.trim entry.2)))

/-- `_stamp_message(message, strand=, label=, widening=)`. -/
def stampMessage (message strand : Text) (label : Label) (widening : Option Text) : Text :=
  let out := universal (interpret git (stripped message) (stamps strand label widening))
  if out.getLast? = some '\n' then out else out ++ ['\n']

/-- What `trailers(message)` of the label check reads, in order. -/
def trailers (message : Text) : List (Text × Text) :=
  let out := universal (unlines ((git.parse (linesOf (message ++ ['\n']))).map Trailers.line))
  (out.splitOn '\n').filterMap fun line => (partition line).map fun (key, value) => (key, lstrip value)

/-- `values.get(key, [])`. -/
def values (items : List (Text × Text)) (key : Text) : List Text :=
  items.filterMap fun item => if item.1 = key then some item.2 else none

/-- What the check asks git about the tree: the text of a file in the new revision, where
there is one, and the emails that are enrolled. -/
structure Tree where
  show_ : Text → Option Text
  people : List Text

/-- `valid_widening(value, new)`. -/
def validWidening (tree : Tree) (value : Text) : Bool :=
  let file := value.takeWhile (· ≠ '#')
  let clause := (value.dropWhile (· ≠ '#')).tail
  match file.splitOn '/' with
  | [first, who, last] =>
      clause ≠ [] && clause.all (fun c => asciiLetter c || asciiDigit c || c = '_' || c = '-') &&
        first = "people".toList && last = "agreement.md".toList && who ≠ [] && who.head? ≠ some '.' &&
        (tree.show_ file).any fun blob => blob.tails.any (('\x7b' :: '#' :: clause) ++ ['\x7d']).isPrefixOf
  | _ => false

/-- What stands behind the last occurrence of a word. -/
def afterLast (word text : Text) : Option Text :=
  (text.tails.filter word.isPrefixOf).getLast?.map (·.drop word.length)

/-- `re.search(r".*taint=([01])", label)`: the last bit behind such a word. -/
def taintIn (label : Text) : Option Bool :=
  (label.tails.filterMap fun text =>
    if "taint=1".toList.isPrefixOf text then some true
    else if "taint=0".toList.isPrefixOf text then some false else none).getLast?

/-- `re.search(r".*audience=([^;]*)", label)`, with the self among its names. -/
def selfIn (label : Text) : Bool :=
  (afterLast "audience=".toList label).any fun rest => "self".toList ∈ (rest.takeWhile (· ≠ ';')).splitOn ','

/-- What `main` says of a label that is there. -/
def judged (opened : Bool) (strand label : Text) : List Text :=
  match taintIn label with
  | none => ["Loom-Label unreadable".toList]
  | some taint =>
      (if taint && !opened then ["taint=1 strand ".toList ++ strand] else []) ++
        if selfIn label then [] else ["audience missing self".toList]

/-- The reasons for which `main` refuses a commit with this committer and message. -/
def refusals (tree : Tree) (email message : Text) : List Text :=
  let read := values (trailers git (rstripNewlines message))
  let label := (read loomLabel).head?.getD []
  let first := (read loomStrand).head?.getD []
  let strand := if first = [] then ['?'] else first
  let cites := (read wideningKey).filter (· ≠ [])
  let bad := (cites.filter fun cite => !validWidening tree cite).map fun cite => "widening ".toList ++ cite
  let opened := cites.any (validWidening tree)
  bad ++
    if label = [] then if email ∈ tree.people then [] else ["no Loom-Label".toList]
    else judged opened strand label

end Brnrd.Stamps

/-! When the label check reads of a stamped message what was stamped on it, and nothing
that the body wrote. -/
namespace Brnrd.Stamps

open Python
open Events (Text lstrip rstripNewlines universal_self return_not_mem_universal not_mem_joinLines)
open Trailers (Git)

variable {key line strand message : Text}

theorem linesOf_append (h : '\n' ∉ line) (rest : Text) : linesOf (line ++ '\n' :: rest) = line :: linesOf rest := by
  rw [linesOf, List.splitOn_append_cons_self_of_not_mem h, linesOf, List.dropLast_cons_of_ne_nil (List.splitOn_ne_nil '\n' rest)]

variable {lines : List Text}

theorem linesOf_unlines (h : ∀ line ∈ lines, '\n' ∉ line) : linesOf (unlines lines) = lines := by
  induction lines with
  | nil => rfl
  | cons line lines ih =>
      have hRest := ih fun other hOther => h other (List.mem_cons_of_mem _ hOther)
      rw [unlines, List.flatMap_cons, List.append_assoc, List.singleton_append, linesOf_append (h line (by simp))]
      exact congrArg _ hRest

theorem mem_linesOf {text : Text} (h : line ∈ linesOf text) : '\n' ∉ line ∧ line ⊆ text :=
  Joined.mem_splitOn line (List.mem_of_mem_dropLast h)

theorem mem_unlines {c : Char} (h : c ∈ unlines lines) : c = '\n' ∨ ∃ line ∈ lines, c ∈ line := by
  obtain ⟨line, hLine, hMem⟩ := List.mem_flatMap.mp h
  rcases List.mem_append.mp hMem with hMem | hMem
  · exact .inr ⟨line, hLine, hMem⟩
  · exact .inl (List.mem_singleton.mp hMem)

theorem splitOn_unlines (h : ∀ line ∈ lines, '\n' ∉ line) : (unlines lines).splitOn '\n' = lines ++ [[]] := by
  induction lines with
  | nil => rfl
  | cons line lines ih =>
      have hRest := ih fun other hOther => h other (List.mem_cons_of_mem _ hOther)
      rw [unlines, List.flatMap_cons, List.append_assoc, List.singleton_append,
        List.splitOn_append_cons_self_of_not_mem (h line (by simp)), ← unlines, hRest, List.cons_append]

variable {git : Git}

theorem partition_line {entry : Text × Text} (h : ':' ∉ entry.1) : partition (Trailers.line entry) = some (entry.1, ' ' :: entry.2) := by
  have hAll : ∀ c ∈ entry.1, (decide (c ≠ ':')) = true := fun c hc => decide_eq_true fun hSame => h (hSame ▸ hc)
  simp only [partition, Trailers.line, List.takeWhile_append_of_pos hAll, List.dropWhile_append_of_pos hAll]
  simp

/-- The check reads what git reads, without white space in front. -/
theorem trailers_eq (h : '\r' ∉ message) :
    trailers git message = (git.parse (linesOf (message ++ ['\n']))).map fun item => (item.1, lstrip item.2) := by
  have hClean : ∀ item ∈ git.parse (linesOf (message ++ ['\n'])), '\n' ∉ Trailers.line item ∧ '\r' ∉ Trailers.line item := by
    intro item hItem
    obtain ⟨-, -, hPiece⟩ := Git.parse_piece hItem
    have hChar : ∀ c ∈ Trailers.line item, c ≠ '\n' ∧ c ≠ '\r' := by
      intro c hc
      simp only [Trailers.line, List.mem_append, List.mem_cons] at hc
      have hCases : c = ':' ∨ c ∈ item.1 ++ item.2 ∨ c = ' ' := by
        rcases hc with hc | hc | hc | hc
        · exact .inr (.inl (List.mem_append_left _ hc))
        · exact .inl hc
        · exact .inr (.inr hc)
        · exact .inr (.inl (List.mem_append_right _ hc))
      rcases hCases with rfl | hc | rfl
      · decide
      · rcases hPiece c hc with rfl | ⟨line, hLine, hMem⟩
        · decide
        · obtain ⟨hNot, hSubset⟩ := mem_linesOf hLine
          refine ⟨fun hSame => hNot (hSame ▸ hMem), fun hSame => ?_⟩
          have hReturn := hSubset (hSame ▸ hMem)
          simp [h] at hReturn
      · decide
    exact ⟨fun hc => (hChar _ hc).1 rfl, fun hc => (hChar _ hc).2 rfl⟩
  have hLines : ∀ line ∈ (git.parse (linesOf (message ++ ['\n']))).map Trailers.line, '\n' ∉ line ∧ '\r' ∉ line := by
    intro line hLine
    obtain ⟨item, hItem, rfl⟩ := List.mem_map.mp hLine
    exact hClean item hItem
  have hReturn : '\r' ∉ unlines ((git.parse (linesOf (message ++ ['\n']))).map Trailers.line) := by
    intro hMem
    rcases mem_unlines hMem with hSame | ⟨line, hLine, hMem⟩
    · exact absurd hSame (by decide)
    · exact (hLines line hLine).2 hMem
  have hPartition : ∀ item ∈ git.parse (linesOf (message ++ ['\n'])),
      (partition (Trailers.line item)).map (fun (read : Text × Text) => (read.1, lstrip read.2)) = some (item.1, lstrip item.2) := by
    intro item hItem
    rw [partition_line (Git.parse_piece hItem).1]
    rfl
  simp only [trailers]
  rw [universal_self hReturn, splitOn_unlines fun line hLine => (hLines line hLine).1, List.filterMap_append]
  have hEmpty : partition [] = none := rfl
  simp only [List.filterMap_cons, hEmpty, Option.map_none, List.filterMap_nil, List.append_nil, List.filterMap_map]
  rw [← List.filterMap_eq_map]
  exact List.filterMap_congr hPartition

/-- Newlines at the end are nothing to git. -/
theorem parse_rstrip (h : ∀ line ∈ lines, '\n' ∉ line) :
    git.parse (linesOf (rstripNewlines (unlines lines) ++ ['\n'])) = git.parse lines := by
  induction lines using List.reverseRecOn with
  | nil => exact git.parse_append_empty []
  | append_singleton lines last ih =>
      have hRest := ih fun line hLine => h line (List.mem_append_left _ hLine)
      have hUnlines : unlines (lines ++ [last]) = (unlines lines ++ last) ++ ['\n'] := by
        simp [unlines]
      have hStrip : rstripNewlines (unlines (lines ++ [last])) = rstripNewlines (unlines lines ++ last) := by
        rw [hUnlines, rstripNewlines, List.rdropWhile_concat_pos _ _ _ (by decide)]
        rfl
      by_cases hLast : last = []
      · rw [hStrip, hLast, List.append_nil, hRest, git.parse_append_empty]
      · have hEnd : rstripNewlines (unlines lines ++ last) = unlines lines ++ last := by
          rw [rstripNewlines, List.rdropWhile_eq_self_iff]
          intro hSome hNewline
          rw [List.getLast_append_of_ne_nil hSome hLast] at hNewline
          exact h last (by simp) ((of_decide_eq_true hNewline) ▸ List.getLast_mem hLast)
        rw [hStrip, hEnd, ← hUnlines, linesOf_unlines h]

theorem return_not_mem_stripped (message : Text) : '\r' ∉ stripped message := by
  have hPiece : ∀ line ∈ splitlines message, '\r' ∉ line := by
    intro line hLine hMem
    exact absurd (Python.splitlines_pieces message line hLine '\r' hMem) (by decide)
  have hLines : ∀ line ∈ (splitlines message).rdropWhile fun line => strip line = [], '\r' ∉ line := fun line hLine =>
    hPiece line ((List.rdropWhile_prefix _ _).subset hLine)
  have hSplit : '\r' ∉ (splitMessage message).1 ∧ ∀ line ∈ (splitMessage message).2, '\r' ∉ line := by
    simp only [splitMessage]
    split
    · refine ⟨not_mem_joinLines (by decide) fun line hLine => ?_, fun line hLine => ?_⟩
      · exact hLines line ((List.rdropWhile_prefix _ _).subset ((List.rdropWhile_prefix _ _).subset hLine))
      · exact hLines line ((List.rtakeWhile_suffix _ _).subset hLine)
    · exact ⟨not_mem_joinLines (by decide) hLines, nofun⟩
  have hKept : '\r' ∉ joinLines ((splitMessage message).2.filter fun line => keyOf line ∉ loomKeys) :=
    not_mem_joinLines (by decide) fun line hLine => hSplit.2 line (List.mem_of_mem_filter hLine)
  have hNewline : '\r' ≠ '\n' := by decide
  simp only [stripped]
  split_ifs <;> simp only [List.mem_append, List.mem_cons, List.not_mem_nil, or_self, hSplit.1, hKept, hNewline,
    not_false_eq_true]

/-- A value that is read as it was written: one line, without white space at its ends. -/
structure Written (value : Text) : Prop where
  plain : Trailers.Plain value
  line : '\r' ∉ value
  front : lstrip value = value

/-- Git keeps the loom's keys apart and has none of them configured. -/
structure Unaware (git : Git) : Prop where
  apart : ∀ a ∈ loomKeys, ∀ b ∈ loomKeys, a ≠ b → git.same a b = false
  foreign : ∀ key ∈ loomKeys, ∀ text old, git.field text = some old → git.same old.1 key = true → git.known text = false

/-- The trailers of the body that are left when the loom's have replaced the last ones. -/
def stays (git : Git) (message strand : Text) (label : Label) (widening : Option Text) : List (Text × Text) :=
  (git.spared (git.parse (linesOf (stripped message))) (stamps strand label widening)).map fun item => (item.1, lstrip item.2)

theorem key_of_mem (h : key ∈ loomKeys) : Trailers.Key key := by
  simp only [loomKeys, List.mem_cons, List.not_mem_nil, or_false] at h
  rcases h with rfl | rfl | rfl
  · exact ⟨⟨'L', "oom-Strand".toList, by decide, by decide⟩, by decide⟩
  · exact ⟨⟨'L', "oom-Label".toList, by decide, by decide⟩, by decide⟩
  · exact ⟨⟨'W', "idening".toList, by decide, by decide⟩, by decide⟩

theorem named_cases (widening : Option Text) : named widening = [] ∨ ∃ cite, cite ≠ [] ∧ named widening = [cite] := by
  cases widening with
  | none => exact .inl rfl
  | some cite =>
      by_cases hCite : cite = []
      · exact .inl (by simp [named, hCite])
      · exact .inr ⟨cite, hCite, by simp [named, hCite]⟩

variable {widening : Option Text} {label : Label}

theorem stamps_keys {entry : Text × Text} (h : entry ∈ stamps strand label widening) : entry.1 ∈ loomKeys := by
  simp only [stamps, List.mem_cons, List.mem_map] at h
  rcases h with rfl | rfl | ⟨cite, -, rfl⟩ <;> simp [loomKeys]

theorem stamps_apart (hGit : Unaware git) (strand : Text) (label : Label) (widening : Option Text) :
    (stamps strand label widening).Pairwise fun a b => git.same a.1 b.1 = false := by
  have hStrand := hGit.apart loomStrand (by decide) loomLabel (by decide) (by decide)
  have hStrand' := hGit.apart loomStrand (by decide) wideningKey (by decide) (by decide)
  have hLabel := hGit.apart loomLabel (by decide) wideningKey (by decide) (by decide)
  rcases named_cases widening with hNone | ⟨cite, -, hSome⟩
  · simp [stamps, hNone, hStrand]
  · simp [stamps, hSome, hStrand, hStrand', hLabel]

/-- The texts of a send, as they are stamped. -/
def Stampable (strand : Text) (label : Label) (widening : Option Text) : Prop :=
  ∀ entry ∈ stamps strand label widening, Written entry.2

/-- The check reads the trailers of the body that are left, and then the ones stamped. -/
theorem read_stamped (hGit : Unaware git) (hWritten : Stampable strand label widening) :
    trailers git (rstripNewlines (stampMessage git message strand label widening)) =
      stays git message strand label widening ++ stamps strand label widening := by
  have hTrim : (stamps strand label widening).map (fun entry => (entry.1, Trailers.trim entry.2)) = stamps strand label widening := by
    refine (List.map_congr_left fun entry hEntry => ?_).trans (List.map_id _)
    exact Prod.ext rfl (hWritten entry hEntry).plain.trimmed
  have hLstrip : (stamps strand label widening).map (fun entry => (entry.1, lstrip entry.2)) = stamps strand label widening := by
    refine (List.map_congr_left fun entry hEntry => ?_).trans (List.map_id _)
    exact Prod.ext rfl (hWritten entry hEntry).front
  have hAdded : ∀ entry ∈ stamps strand label widening, git.Added entry := fun entry hEntry =>
    ⟨key_of_mem (stamps_keys hEntry), (hWritten entry hEntry).plain, hGit.foreign entry.1 (stamps_keys hEntry)⟩
  have hLines : ∀ line ∈ git.add (linesOf (stripped message)) (stamps strand label widening), '\n' ∉ line ∧ '\r' ∉ line := by
    intro line hLine
    rcases Git.mem_add hLine with hOld | rfl | ⟨entry, hEntry, rfl⟩
    · obtain ⟨hNot, hSubset⟩ := mem_linesOf hOld
      exact ⟨hNot, fun hMem => return_not_mem_stripped message (hSubset hMem)⟩
    · exact ⟨List.not_mem_nil, List.not_mem_nil⟩
    · have hKey : '\n' ∉ entry.1 ∧ '\r' ∉ entry.1 := by
        have hAll : ∀ key ∈ loomKeys, '\n' ∉ key ∧ '\r' ∉ key := by decide
        exact hAll entry.1 (stamps_keys hEntry)
      have hValue := hWritten entry hEntry
      simp [Trailers.line, hKey, hValue.plain.line, hValue.line]
  have hReturn : '\r' ∉ unlines (git.add (linesOf (stripped message)) (stamps strand label widening)) := by
    intro hMem
    rcases mem_unlines hMem with hSame | ⟨line, hLine, hMem⟩
    · exact absurd hSame (by decide)
    · exact (hLines line hLine).2 hMem
  have hEnd : '\r' ∉ rstripNewlines (unlines (git.add (linesOf (stripped message)) (stamps strand label widening))) := fun hMem =>
    hReturn ((List.rdropWhile_prefix _ _).subset hMem)
  have hStrip : ∀ text : Text, rstripNewlines (if text.getLast? = some '\n' then text else text ++ ['\n']) = rstripNewlines text := by
    intro text
    split_ifs
    · rfl
    · exact List.rdropWhile_concat_pos _ _ _ (by decide)
  simp only [stampMessage, interpret, hTrim]
  rw [universal_self hReturn, hStrip, trailers_eq hEnd,
    parse_rstrip fun line hLine => (hLines line hLine).1, Git.parse_add hAdded (List.cons_ne_nil _ _),
    Git.merge_eq (stamps_apart hGit strand label widening), List.map_append, hLstrip]
  rfl

theorem isSpace_of_space {c : Char} (h : Trailers.space c = true) : isSpace c = true := by
  simp only [Trailers.space, Bool.or_eq_true, decide_eq_true_eq] at h
  rcases h with ((rfl | rfl) | rfl) | rfl <;> decide

/-- What the check reads is one line without white space at its ends. -/
theorem written_of_read {value : Text} (hReturn : '\r' ∉ message) (h : value ∈ values (trailers git message) key) :
    Written value := by
  rw [trailers_eq hReturn] at h
  obtain ⟨read, hRead, hValue⟩ := List.mem_filterMap.mp h
  obtain ⟨item, hItem, rfl⟩ := List.mem_map.mp hRead
  split_ifs at hValue
  obtain rfl := Option.some.inj hValue
  obtain ⟨-, hTrim, hPiece⟩ := Git.parse_piece hItem
  have hSuffix : lstrip item.2 <:+ item.2 := List.dropWhile_suffix _
  have hChar : ∀ c ∈ lstrip item.2, c ≠ '\n' ∧ c ≠ '\r' := by
    intro c hc
    rcases hPiece c (List.mem_append_right _ (hSuffix.subset hc)) with rfl | ⟨line, hLine, hMem⟩
    · decide
    · obtain ⟨hNot, hSubset⟩ := mem_linesOf hLine
      refine ⟨fun hSame => hNot (hSame ▸ hMem), fun hSame => ?_⟩
      have hOld := hSubset (hSame ▸ hMem)
      simp [hReturn] at hOld
  refine ⟨⟨fun hc => (hChar _ hc).1 rfl, Trailers.trim_eq_self (fun c hHead => ?_) fun c hLast => ?_⟩,
    fun hc => (hChar _ hc).2 rfl, List.dropWhile_idempotent _ _⟩
  · have hFirst := List.head?_dropWhile_not isSpace item.2
    have hHead : (item.2.dropWhile isSpace).head? = some c := hHead
    rw [hHead] at hFirst
    apply Bool.eq_false_iff.mpr
    intro hSpace
    simp [isSpace_of_space hSpace] at hFirst
  · have hEnd := (Trailers.trim_ends item.2).2
    rw [hTrim] at hEnd
    refine hEnd c ?_
    obtain ⟨front, hFront⟩ := hSuffix
    rw [← hFront, List.getLast?_append, Option.mem_def.mp hLast]
    rfl

theorem return_not_mem_stamped (message strand : Text) (label : Label) (widening : Option Text) :
    '\r' ∉ stampMessage git message strand label widening := by
  simp only [stampMessage]
  split_ifs
  · exact return_not_mem_universal _
  · simp [return_not_mem_universal]

/-- The check reads the strand's label and id first, and the widening of the send alone. -/
def Clean (git : Git) (message strand : Text) (label : Label) (widening : Option Text) : Prop :=
  let read := values (trailers git (rstripNewlines (stampMessage git message strand label widening)))
  (read loomStrand).head? = some strand ∧ (read loomLabel).head? = some label.trailer ∧ read wideningKey = named widening

/-- A tainted strand's commit is accepted only with the widening of the send, and a valid one. -/
def Guarded (git : Git) (message strand : Text) (label : Label) (widening : Option Text) : Prop :=
  ∀ tree email, label.taint = true → refusals git tree email (stampMessage git message strand label widening) = [] →
    ∃ cite ∈ named widening, validWidening tree cite = true

/-- No trailer that the body wrote stands where the check looks. -/
structure Clear (git : Git) (message strand : Text) (label : Label) (widening : Option Text) : Prop where
  first : ∀ value ∈ (values (stays git message strand label widening) loomStrand).head?, value = strand
  second : ∀ value ∈ (values (stays git message strand label widening) loomLabel).head?, value = label.trailer
  third : values (stays git message strand label widening) wideningKey = []

theorem values_stamps (strand : Text) (label : Label) (widening : Option Text) :
    values (stamps strand label widening) loomStrand = [strand] ∧
      values (stamps strand label widening) loomLabel = [label.trailer] ∧
      values (stamps strand label widening) wideningKey = named widening := by
  have hKeys : loomStrand ≠ loomLabel ∧ loomStrand ≠ wideningKey ∧ loomLabel ≠ wideningKey := by decide
  obtain ⟨hSL, hSW, hLW⟩ := hKeys
  rcases named_cases widening with hNone | ⟨cite, -, hSome⟩
  · simp [values, stamps, hNone, hSL, hSL.symm, hSW, hLW]
  · simp [values, stamps, hSome, hSL, hSL.symm, hSW, hSW.symm, hLW, hLW.symm]

theorem values_append (a b : List (Text × Text)) (key : Text) : values (a ++ b) key = values a key ++ values b key :=
  List.filterMap_append

/-- With texts that are stamped as they are, the check's reading is clean when the body's
trailers are out of its way. -/
theorem clean_iff (hGit : Unaware git) (hWritten : Stampable strand label widening) :
    Clean git message strand label widening ↔ Clear git message strand label widening := by
  obtain ⟨hStrand, hLabel, hWidening⟩ := values_stamps strand label widening
  have hHead : ∀ {items : List Text} {own : Text}, (items ++ [own]).head? = some own ↔ ∀ value ∈ items.head?, value = own := by
    intro items own
    cases items <;> simp
  simp only [Clean, read_stamped hGit hWritten, values_append, hStrand, hLabel, hWidening, hHead, List.append_left_eq_self]
  exact ⟨fun ⟨hFirst, hSecond, hThird⟩ => ⟨hFirst, hSecond, hThird⟩, fun h => ⟨h.first, h.second, h.third⟩⟩

theorem stampable_of_clean (h : Clean git message strand label widening) : Stampable strand label widening := by
  obtain ⟨hStrand, hLabel, hWidening⟩ := h
  have hReturn : '\r' ∉ rstripNewlines (stampMessage git message strand label widening) := fun hMem =>
    return_not_mem_stamped message strand label widening ((List.rdropWhile_prefix _ _).subset hMem)
  intro entry hEntry
  simp only [stamps, List.mem_cons, List.mem_map] at hEntry
  rcases hEntry with rfl | rfl | ⟨cite, hCite, rfl⟩
  · exact written_of_read hReturn (List.mem_of_mem_head? hStrand)
  · exact written_of_read hReturn (List.mem_of_mem_head? hLabel)
  · exact written_of_read hReturn (hWidening ▸ hCite)

/-- The text of a label that the check takes for a clean one that the self may hear. -/
def passes (label : Text) : Bool :=
  taintIn label = some false && selfIn label

theorem judged_closed {label : Text} : judged false strand label = [] ↔ passes label = true := by
  rw [judged, passes]
  cases taintIn label with
  | none => simp only [reduceCtorEq, decide_false, Bool.false_and, Bool.false_eq_true, List.cons_ne_nil]
  | some taint =>
      cases taint <;> cases selfIn label <;> simp only [Bool.not_false, Bool.and_true, Bool.false_eq_true, if_true, if_false,
        List.nil_append, List.append_nil, List.cons_ne_nil, List.cons_append, decide_true, Option.some.injEq,
        Bool.true_eq_false, decide_false, Bool.false_and, Bool.true_and]

/-- A clean message is guarded unless its label's own text reads as clean. -/
theorem guarded_iff (h : Clean git message strand label widening) :
    Guarded git message strand label widening ↔
      (label.taint = true → named widening = [] → passes label.trailer = false) := by
  obtain ⟨-, hLabel, hWidening⟩ := h
  have hSome : label.trailer ≠ [] :=
    List.append_ne_nil_of_left_ne_nil (List.append_ne_nil_of_left_ne_nil (by decide) _) _
  have hCites : (named widening).filter (· ≠ []) = named widening := by simp [named]
  generalize label.trailer = text at hLabel hSome ⊢
  constructor
  · intro hGuarded hTaint hNone
    apply Bool.eq_false_iff.mpr
    intro hPasses
    have hAccepted : refusals git ⟨fun _ => none, []⟩ [] (stampMessage git message strand label widening) = [] := by
      simp [refusals, hLabel, hWidening, hNone, hSome, judged_closed.mpr hPasses]
    obtain ⟨cite, hCite, -⟩ := hGuarded _ _ hTaint hAccepted
    rw [hNone] at hCite
    cases hCite
  · intro hPasses tree email hTaint hAccepted
    simp only [refusals, hLabel, hWidening, hCites, Option.getD_some, if_neg hSome, List.append_eq_nil_iff, List.map_eq_nil_iff,
      List.filter_eq_nil_iff] at hAccepted
    obtain ⟨hValid, hJudged⟩ := hAccepted
    rcases named_cases widening with hNone | ⟨cite, -, hNamed⟩
    · rw [hNone] at hJudged
      rw [judged_closed.mp hJudged] at hPasses
      cases hPasses hTaint hNone
    · refine ⟨cite, by simp [hNamed], ?_⟩
      have hCite := hValid cite (by simp [hNamed])
      simpa using hCite

/-- The check reads the label, the strand and the widening of the send, and accepts a
tainted strand's commit only with that widening. -/
theorem stamp_owns_label (hGit : Unaware git) (message strand : Text) (label : Label) (widening : Option Text) :
    (Clean git message strand label widening ∧ Guarded git message strand label widening) ↔
      Stampable strand label widening ∧ Clear git message strand label widening ∧
        (label.taint = true → named widening = [] → passes label.trailer = false) := by
  constructor
  · rintro ⟨hClean, hGuarded⟩
    have hWritten := stampable_of_clean hClean
    exact ⟨hWritten, (clean_iff hGit hWritten).mp hClean, (guarded_iff hClean).mp hGuarded⟩
  · rintro ⟨hWritten, hClear, hPasses⟩
    have hClean := (clean_iff hGit hWritten).mpr hClear
    exact ⟨hClean, (guarded_iff hClean).mpr hPasses⟩

theorem unaware_standard : Unaware Trailers.standard where
  apart := by decide +kernel
  foreign := by
    intro key hKey text old hField hSame
    apply Bool.eq_false_iff.mpr
    intro hKnown
    have hCases : "Signed-off-by: ".toList <+: text ∨ "(cherry picked from commit ".toList <+: text := by
      have hAny : (["Signed-off-by: ".toList, "(cherry picked from commit ".toList].any (·.isPrefixOf text)) = true := hKnown
      simpa only [List.any_cons, List.any_nil, Bool.or_false, Bool.or_eq_true, List.isPrefixOf_iff_prefix] using hAny
    have hFieldOf : Trailers.fieldOf text = some old := hField
    rcases hCases with ⟨rest, rfl⟩ | ⟨rest, rfl⟩
    · have hOwn : old.1 = "Signed-off-by".toList := by
        have hRead : Trailers.fieldOf ("Signed-off-by: ".toList ++ rest) = some ("Signed-off-by".toList, Trailers.trim (' ' :: rest)) := rfl
        rw [hRead] at hFieldOf
        exact (congrArg Prod.fst (Option.some.inj hFieldOf)).symm
      have hNot : ∀ key ∈ loomKeys, Trailers.standard.same "Signed-off-by".toList key = false := by decide +kernel
      rw [hOwn, hNot key hKey] at hSame
      cases hSame
    · have hRead : Trailers.fieldOf ("(cherry picked from commit ".toList ++ rest) = none := rfl
      rw [hRead] at hFieldOf
      cases hFieldOf

/-- A tainted strand that only the self hears. -/
def tainted : Label := ⟨true, {"self"}⟩

/-- A widening that the body wrote among its trailers is gone. -/
theorem ordinary_is_owned :
    let message := "Fix the lamp\n\nIt was dark.\n\nCo-authored-by: Ada\nWidening: people/ada/agreement.md#lamps\n".toList
    Clean Trailers.standard message "s1".toList tainted none ∧ Guarded Trailers.standard message "s1".toList tainted none := by
  refine (stamp_owns_label unaware_standard _ _ _ _).mpr ⟨fun entry hEntry => ?_, ⟨?_, ?_, ?_⟩, fun _ _ => ?_⟩
  · have hCases : entry = (loomStrand, "s1".toList) ∨ entry = (loomLabel, tainted.trailer) := by
      simpa [stamps, named] using hEntry
    rcases hCases with rfl | rfl
    · exact ⟨⟨by decide, by decide⟩, by decide, by decide⟩
    · exact ⟨⟨by decide +kernel, by decide +kernel⟩, by decide +kernel, by decide +kernel⟩
  · decide +kernel
  · decide +kernel
  · decide +kernel
  · decide +kernel

/-- One line that is no trailer keeps the ones above it from the send, and a sign-off lets
git read them all. -/
theorem mixed_paragraph_forges :
    let message := "Fix\n\nWidening: people/ada/agreement.md#lamps\nnot a trailer\nSigned-off-by: Ada\n".toList
    ¬Clean Trailers.standard message "s1".toList tainted none ∧ ¬Guarded Trailers.standard message "s1".toList tainted none := by
  constructor
  · rintro ⟨-, -, hWidening⟩
    revert hWidening
    decide +kernel
  · intro hGuarded
    let tree : Tree := ⟨fun file => if file = "people/ada/agreement.md".toList then some "\x7b#lamps\x7d".toList else none, []⟩
    have hAccepted : refusals Trailers.standard tree [] (stampMessage Trailers.standard
        "Fix\n\nWidening: people/ada/agreement.md#lamps\nnot a trailer\nSigned-off-by: Ada\n".toList "s1".toList tainted none) = [] := by
      decide +kernel
    obtain ⟨cite, hCite, -⟩ := hGuarded tree [] rfl hAccepted
    cases hCite

end Brnrd.Stamps
