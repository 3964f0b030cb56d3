import Brnrd.Events.Event
import Brnrd.Ledger.LetterIndex

/-! What a wake says has happened since its predecessor: the lines that the ledger's rows
give, and the text that is made of the newest of them. -/
namespace Brnrd.Since

open Python Facts Project
open Ledger (nameOf isLetter)

abbrev Text := List Char

/-- `CAP`. -/
def cap : ℕ := 1500

/-- `SILENT`. -/
def silent : ℚ := 600

/-- `ROOM_KINDS`. -/
def roomKinds : List String :=
  ["room.repaired", "room.unseeded", "room.seeded", "room.fallback", "wake.fallback"]

/-- `HEADER`. -/
def header : Text :=
  "since your predecessor's last boundary (each line names its fact):".toList

/-- `_brief(value, size)`. -/
def brief (value : Value) (size : ℕ) : Text :=
  let text := match value with
    | .str s => s.toList
    | value => dumpsWith ", ".toList ": ".toList value
  let text := Events.singleSpaced text
  if text.length ≤ size then text else text.take (size - 1) ++ ['…']

/-- A number with two digits. -/
def twoDigits (n : ℤ) : Text :=
  let text := (toString n).toList
  List.replicate (2 - text.length) '0' ++ text

/-- `_span(seconds)`. -/
def span (seconds : ℚ) : Text :=
  let minutes := (seconds / 60).floor
  if 60 ≤ minutes then (toString (minutes / 60)).toList ++ 'h' :: twoDigits (minutes % 60) ++ ['m']
  else (toString minutes).toList ++ ['m']

section Rows

variable (host : Host)

/-- `str(data.get(key))`. -/
def shown (data : Dict) (key : String) : Text :=
  ((Dict.get data key).toStr host).toList

/-- ` ({fact.id})`, behind a line. -/
def naming (f : Fact) : Text :=
  " (".toList ++ f.id.toList ++ [')']

/-- A strand and a generation, as a fact's data has them. -/
def bodyOf (f : Fact) : Value × Value :=
  (Dict.get f.data "strand", Dict.get f.data "gen")

/-- The predecessor of a body on its thread. -/
def predecessor (rows : List Fact) (strand : String) (gen : ℤ) (thread : String) : Option (String × Value) :=
  let leases := rows.filter fun f => f.kind = "lease" && Dict.get f.data "thread" = .str thread
  let before := leases.takeWhile fun f => !decide (bodyOf f = (.str strand, .int gen))
  before.getLast?.map fun f => ((Dict.get f.data "strand").toStr host, Dict.get f.data "gen")

/-- `_cut(rows, strand, gen, thread)`; `none` is the position -1. -/
def cutOf (rows : List Fact) (strand : String) (gen : ℤ) (thread : String) : Option ℕ × Option (String × Value) :=
  let pred := predecessor host rows strand gen thread
  let ends := fun f : Fact =>
    f.kind = "shown" && pred.any (fun body => bodyOf f = (.str body.1, body.2)) ||
      f.kind = "attempt.ended" && Dict.get f.data "thread" = .str thread && !decide (bodyOf f = (.str strand, .int gen))
  (((rows.zipIdx.filter fun row => ends row.1).getLast?).map Prod.snd, pred)

/-- `_wrote(fact, install)`. -/
def wrote (install : String) (f : Fact) : Bool :=
  match f.hlc with
  | none => true
  | some hlc => hlc.install = install

/-- `install_of(strand)`. -/
def installOf (strand : String) : Option String :=
  match strand.toList.splitOn '-' with
  | [['s'], install, _] => if install.length = 4 then some (String.ofList install) else none
  | _ => none

/-- The loop of `_ended`, with the position of the body's start. -/
def endedFrom (rows : List Fact) (pred : String × Value) (home : String) (began : Option ℕ) :
    List (Fact × ℕ) → Option (ℕ × Text)
  | [] => none
  | (f, i) :: rest =>
      if bodyOf f ≠ (.str pred.1, pred.2) then endedFrom rows pred home began rest
      else
        let began := if f.kind = "body.started" && began.isNone then some i else began
        if f.kind = "attempt.ended" then
          let restart := began.any fun start => ((rows.take i).drop start).any fun r =>
            r.kind = "loom.started" && Dict.get r.data "install" = .str home
          let told := shown host f.data "cause" ++ ", code ".toList ++ shown host f.data "code"
          let how := if restart && Dict.get f.data "cause" = .str "failed" then
              "was lost to a loom restart (recorded ".toList ++ told ++ [')']
            else "ended ".toList ++ told
          some (i, "your predecessor ".toList ++ pred.1.toList ++ " gen ".toList ++ (pred.2.toStr host).toList ++ ' ' :: how ++
            naming f)
        else endedFrom rows pred home began rest

/-- `_ended(rows, pred, install)`. -/
def ended (rows : List Fact) (pred : String × Value) (install : String) : Option (ℕ × Text) :=
  endedFrom host rows pred ((installOf pred.1).getD install) none rows.zipIdx

/-- `_seconds(iso)`. -/
def instant (iso : String) : Except Raised ℚ :=
  match host.seconds (String.ofList (iso.toList.flatMap fun c => if c = 'Z' then "+00:00".toList else [c])) with
  | some seconds => .ok seconds
  | none => .error .value

/-- `value or default`, as `str` prints it. -/
def shownOr (data : Dict) (key default : String) : Text :=
  (((Dict.get data key).orElse (.str default)).toStr host).toList

/-- The line of the loom's starts. -/
def startsLine (rows : List Fact) (install : String) (after : List (Fact × ℕ)) : Except Raised (List (ℕ × Text)) :=
  let starts := after.filter fun row => row.1.kind = "loom.started" && Dict.get row.1.data "install" = .str install
  match starts with
  | [] => .ok []
  | (first, i) :: _ => do
      let commits := (starts.map fun row => (shownOr host row.1.data "commit" "?").take 8).reverse.dedup.reverse
      let text := "the loom started ".toList ++ (toString starts.length).toList ++ " time".toList ++
        (if 1 < starts.length then ['s'] else []) ++ " (at ".toList ++ ", ".toList.intercalate commits ++ [')']
      let gap ← match ((rows.take i).filter (wrote install)).getLast? with
        | some last => do .ok ((← instant host first.at_) - (← instant host last.at_))
        | none => .ok 0
      let quiet := if silent < gap then
          "; the ledger was silent ".toList ++ span gap ++ " before the first (a power-off or a stopped loop)".toList
        else []
      .ok [(i, text ++ quiet ++ naming first)]

/-- `fact.id.replace("loom.recovered:", "loom.degraded:", 1)`. -/
def degradedId (f : Fact) : Text :=
  Events.replaceFirst "loom.recovered:".toList "loom.degraded:".toList f.id.toList

/-- `moved_text(fact)`. -/
def movedText (f : Fact) : Except Raised Text := do
  let merges ← iterate ((Dict.get f.data "merges").orElse (.arr []))
  let names ← merges.mapM fun merge => match merge with
    | .str name => .ok name.toList
    | _ => .error .type
  let joined := ", ".toList.intercalate names
  let loaded := if joined = [] then "no merged pull requests".toList else joined
  .ok ("loom moved ".toList ++ (shown host f.data "from").take 8 ++ " → ".toList ++ (shown host f.data "to").take 8 ++
    ", loaded ".toList ++ loaded)

/-- The lines of one row that tells the outcomes of letters. -/
def bouncedLines (rows : List Fact) (threads : List (String × String)) (thread : String) (i : ℕ) (f : Fact) :
    Except Raised (List (ℕ × Text)) := do
  let dispositions ← iterate ((Dict.get f.data "dispositions").orElse (.arr []))
  let lines ← dispositions.mapM fun d => do
    let d ← fields d
    let ident := (Dict.get d "id").toStr host
    let bounced := Dict.get d "outcome" = .str "bounced" || Dict.get d "reason" = .str "bounced"
    let letter := (rows.filter fun f => isLetter f && nameOf host f = ident).getLast?
    .ok (if bounced && letter.any fun letter => threads.lookup ((Dict.get letter.data "from").toStr host) = some thread then
        [(i, "bounced: your letter ".toList ++ ident.toList ++ naming f)]
      else [])
  .ok lines.flatten

/-- The line of one row, but for a degradation's. -/
def rowLines (rows : List Fact) (threads : List (String × String)) (strand thread install : String) (row : Fact × ℕ) :
    Except Raised (List (ℕ × Text)) :=
  let (f, i) := row
  if f.kind ∈ roomKinds && Dict.get f.data "strand" = .str strand then
    if f.kind = "room.seeded" && Dict.get f.data "source" = .str ("strand/" ++ (Dict.get f.data "parent").toStr host) then .ok []
    else
      let rest := f.data.filter fun item => item.1 ≠ "strand" && item.1 ≠ "gen"
      .ok [(i, f.kind.toList ++ ": ".toList ++ brief (.obj rest) 160 ++ naming f)]
  else if f.kind = "note" &&
      (startsWith f.by_ "person:" || !(f.by_ = "loom:" ++ install || startsWith f.by_ "strand:")) then
    let why := (Dict.get f.data "why").orElse ((Dict.get f.data "body").orElse (.obj f.data))
    .ok [(i, "note by ".toList ++ f.by_.toList ++ ": ".toList ++ brief why 160 ++ naming f)]
  else if f.kind = "attempt.ended" || f.kind = "letter.disposed" then bouncedLines host rows threads thread i f
  else if f.kind = "loom.moved" && Dict.get f.data "install" = .str install then do
    .ok [(i, (← movedText host f) ++ naming f)]
  else .ok []

/-- An episode of a step: its last dip, with its place and its recovery. -/
abbrev Episodes := List ((Value × Value) × (ℕ × Fact × Fact))

/-- The episodes that have ended, by their steps and their firsts. -/
def episodesOf (install : String) (after : List (Fact × ℕ)) : Except Raised Episodes :=
  let recovered := (after.map Prod.fst).filter fun f =>
    f.kind = "loom.recovered" && Dict.get f.data "install" = .str install
  after.foldlM (fun (episodes : Episodes) (row : Fact × ℕ) =>
    match if row.1.kind = "loom.degraded" then (recovered.filter fun back => degradedId back = row.1.id.toList).getLast?
      else none with
    | none => .ok episodes
    | some back =>
        let key := (Dict.get row.1.data "step", (Dict.get row.1.data "episode").orElse (Dict.get row.1.data "since"))
        if key.1.hashable && key.2.hashable then .ok (Entries.set key (row.2, row.1, back) episodes) else .error .type) []

/-- The line of an episode. -/
def episodeLine (episode : (Value × Value) × (ℕ × Fact × Fact)) : Except Raised (ℕ × Text) := do
  let ((step, first), (i, f, back)) := episode
  let dips ← int ((Dict.get f.data "dips").orElse (.int 1))
  let times := if 1 < dips then
      "dipped ".toList ++ (toString dips).toList ++ " times since ".toList ++ (first.toStr host).toList ++
        ", the last at ".toList ++ shown host f.data "since" ++ ", and".toList
    else "degraded at ".toList ++ shown host f.data "since" ++ " and".toList
  .ok (i, (step.toStr host).toList ++ ' ' :: times ++ " recovered after ".toList ++ shown host back.data "count" ++
    " failures, the last ".toList ++ brief (Dict.get back.data "last") 80 ++ naming back)

/-- `open_streaks(facts, install)`. -/
def openStreaks (rows : List Fact) (install : String) : List Fact :=
  let closed := (rows.filter fun f => f.kind = "loom.recovered").map degradedId
  rows.filter fun f => f.kind = "loom.degraded" && !closed.contains f.id.toList && Dict.get f.data "install" = .str install

/-- The line of a degradation that stands: its place is behind the rows. -/
def standingLine (rows : List Fact) (f : Fact) : ℕ × Text :=
  (rows.length, "degraded now: ".toList ++ shown host f.data "step" ++ " since ".toList ++ shown host f.data "since" ++
    ": ".toList ++ brief (Dict.get f.data "error") 120 ++ " at ".toList ++ shown host f.data "where" ++ naming f)

/-- The lines of `since_gone`, each with its place in the ledger, before they are sorted. -/
def toSay (rows : List Fact) (strand : String) (gen : ℤ) (thread : String) (threads : List (String × String))
    (install : String) : Except Raised (List (ℕ × Text)) :=
  match cutOf host rows strand gen thread with
  | (none, _) => .ok []
  | (some cut, pred) => do
      let last := (pred.bind fun pred => ended host rows pred install).toList
      let after := rows.zipIdx.drop (cut + 1)
      let starts ← startsLine host rows install after
      let episodes ← episodesOf install after
      let told ← after.mapM (rowLines host rows threads strand thread install)
      let dips ← episodes.mapM (episodeLine host)
      .ok (last ++ starts ++ told.flatten ++ dips ++ (openStreaks rows install).map (standingLine host rows))

end Rows

/-- `({dropped} earlier lines dropped)`. -/
def droppedLine (dropped : ℕ) : Text :=
  '(' :: (toString dropped).toList ++ " earlier lines dropped)".toList

/-- The bytes of the draft that is measured. -/
def draftSize (dropped : ℕ) (body : List Text) : ℕ :=
  size (['\n'].intercalate (header :: droppedLine dropped :: body))

/-- The loop that drops lines: how many it drops, and what it leaves. -/
def dropFrom (dropped : ℕ) : List Text → ℕ × List Text
  | [] => (dropped, [])
  | line :: rest =>
      if cap < draftSize dropped (line :: rest) then dropFrom (dropped + 1) rest else (dropped, line :: rest)

/-- The lines of the text, each but the head's with its bullet. -/
def sectionLines (dropped : ℕ) (body : List Text) : List Text :=
  header :: ((if dropped = 0 then [] else [droppedLine dropped]) ++ body.map fun text => "- ".toList ++ text)

/-- The text that is joined at last. -/
def sectionText (dropped : ℕ) (body : List Text) : Text :=
  ['\n'].intercalate (sectionLines dropped body) ++ ['\n']

/-- `sorted(lines, key=lambda row: row[0])`. -/
def sorted (lines : List (ℕ × Text)) : List (ℕ × Text) :=
  lines.insertionSort fun a b => a.1 ≤ b.1

/-- `since_gone(facts, strand, gen, thread, threads, install)`. -/
def sinceGone (host : Host) (facts : List Fact) (strand : String) (gen : ℤ) (thread : String)
    (threads : List (String × String)) (install : String) : Except Raised Text := do
  let lines ← toSay host facts strand gen thread threads install
  if lines = [] then .ok []
  else
    let (dropped, body) := dropFrom 0 ((sorted lines).map Prod.snd)
    .ok (sectionText dropped body)

/-- The first of the lines are dropped, the fewest with which the draft of the others is
within the bytes. -/
structure Dropped (earlier kept : List Text) : Prop where
  fits : kept = [] ∨ draftSize earlier.length kept ≤ cap
  fewest : ∀ n < earlier.length, cap < draftSize n ((earlier ++ kept).drop n)

/-- The draft leaves room for two bytes a line and the newline at the end; where nothing is
dropped, the line that would tell how many makes room. -/
def Roomy (lines : List Text) : Prop :=
  ∀ earlier kept, lines = earlier ++ kept → Dropped earlier kept →
    draftSize earlier.length kept + 2 * kept.length + 1 ≤ cap + if earlier = [] then size (droppedLine 0) + 1 else 0

/-- The text is empty where there is nothing to say. Otherwise it says the lines in the order
of the ledger, less the earliest ones, whose number it tells; and it is within the bytes. -/
def Right (lines : List (ℕ × Text)) (text : Text) : Prop :=
  (text = [] ↔ lines = []) ∧ size text ≤ cap ∧
    (lines ≠ [] → ∃ earlier kept : List (ℕ × Text), (earlier ++ kept).Perm lines ∧
      ((earlier ++ kept).Pairwise fun a b => a.1 ≤ b.1) ∧ text = sectionText earlier.length (kept.map Prod.snd))

theorem sorted_perm (lines : List (ℕ × Text)) : (sorted lines).Perm lines :=
  List.perm_insertionSort _ lines

theorem sorted_pairwise (lines : List (ℕ × Text)) : (sorted lines).Pairwise fun a b => a.1 ≤ b.1 := by
  have : Std.Total fun a b : ℕ × Text => a.1 ≤ b.1 := ⟨fun a b => le_total a.1 b.1⟩
  have : IsTrans (ℕ × Text) fun a b => a.1 ≤ b.1 := ⟨fun a b c => le_trans⟩
  exact List.pairwise_insertionSort _ lines

theorem size_intercalate_newline (parts : List Text) (hSome : parts ≠ []) :
    size (['\n'].intercalate parts) + 1 = (parts.map size).sum + parts.length := by
  induction parts with
  | nil => exact absurd rfl hSome
  | cons part parts ih =>
      cases parts with
      | nil => simp
      | cons next parts =>
          have hRest := ih (by simp)
          rw [List.intercalate_cons_cons, size_append, size_append]
          simp only [List.map_cons, List.sum_cons, List.length_cons] at hRest ⊢
          have hNewline : size ['\n'] = 1 := by decide
          omega

theorem sum_sectionLines (dropped : ℕ) (body : List Text) :
    ((sectionLines dropped body).map size).sum + (sectionLines dropped body).length +
        (if dropped = 0 then size (droppedLine 0) + 1 else 0) =
      ((header :: droppedLine dropped :: body).map size).sum + (header :: droppedLine dropped :: body).length +
        2 * body.length := by
  have hBullets : ((body.map fun text => "- ".toList ++ text).map size).sum = (body.map size).sum + 2 * body.length := by
    have hDash : size "- ".toList = 2 := by decide
    rw [List.map_map]
    induction body with
    | nil => rfl
    | cons text body ih =>
        simp only [List.map_cons, List.sum_cons, List.length_cons, Function.comp_apply, size_append, hDash] at ih ⊢
        omega
  rw [sectionLines]
  simp only [List.map_cons, List.sum_cons, List.length_cons, List.map_append, List.sum_append, List.length_append,
    List.length_map, hBullets]
  split
  · rename_i hZero
    subst hZero
    simp only [List.map_nil, List.sum_nil, List.length_nil]
    omega
  · simp only [List.map_cons, List.map_nil, List.sum_cons, List.sum_nil, List.length_cons, List.length_nil]
    omega

/-- The text is larger than the draft by the two bytes of each line and the newline at its
end, and smaller by the line it leaves out. -/
theorem size_sectionText (dropped : ℕ) (body : List Text) :
    size (sectionText dropped body) + (if dropped = 0 then size (droppedLine 0) + 1 else 0) =
      draftSize dropped body + 2 * body.length + 1 := by
  have hNewline : size ['\n'] = 1 := by decide
  have hDraft := size_intercalate_newline (header :: droppedLine dropped :: body) (by simp)
  have hText := size_intercalate_newline (sectionLines dropped body) (by simp [sectionLines])
  have hSum := sum_sectionLines dropped body
  rw [sectionText, draftSize, size_append, hNewline]
  omega

/-- The loop drops the fewest lines with which the draft fits. -/
theorem dropFrom_spec (first lines : List Text) (hFirst : ∀ n < first.length, cap < draftSize n ((first ++ lines).drop n)) :
    ∃ earlier kept, first ++ lines = earlier ++ kept ∧ Dropped earlier kept ∧
      dropFrom first.length lines = (earlier.length, kept) := by
  induction lines generalizing first with
  | nil => exact ⟨first, [], rfl, ⟨.inl rfl, hFirst⟩, rfl⟩
  | cons line rest ih =>
      by_cases hOver : cap < draftSize first.length (line :: rest)
      · have hSame : (first ++ [line]) ++ rest = first ++ line :: rest := by simp
        obtain ⟨earlier, kept, hSplit, hDropped, hLoop⟩ := ih (first ++ [line]) fun n hn => by
          rw [hSame]
          rw [List.length_append, List.length_singleton] at hn
          rcases Nat.lt_succ_iff_lt_or_eq.mp hn with hLess | rfl
          · exact hFirst n hLess
          · rwa [List.drop_left]
        refine ⟨earlier, kept, hSame ▸ hSplit, hDropped, ?_⟩
        rw [dropFrom, if_pos hOver, ← hLoop, List.length_append]
        rfl
      · refine ⟨first, line :: rest, rfl, ⟨.inr (not_lt.mp hOver), hFirst⟩, ?_⟩
        rw [dropFrom, if_neg hOver]

theorem Dropped.unique {earlier kept earlier' kept' : List Text} (h : Dropped earlier kept) (h' : Dropped earlier' kept')
    (hSame : earlier ++ kept = earlier' ++ kept') : earlier = earlier' ∧ kept = kept' := by
  have hLess : ∀ {a b a' b' : List Text}, Dropped a b → Dropped a' b' → a ++ b = a' ++ b' → ¬ a.length < a'.length := by
    intro a b a' b' hOne hOther hEq hLt
    have hOver := hOther.fewest a.length hLt
    rw [← hEq, List.drop_left] at hOver
    rcases hOne.fits with rfl | hFits
    · have hLength := congrArg List.length hEq
      simp only [List.length_append, List.length_nil] at hLength
      omega
    · omega
  have hLength : earlier.length = earlier'.length :=
    Nat.le_antisymm (not_lt.mp (hLess h' h hSame.symm)) (not_lt.mp (hLess h h' hSame))
  exact List.append_inj hSame hLength

theorem right_iff (lines : List (ℕ × Text)) (hSome : lines ≠ []) :
    Right lines (let (dropped, body) := dropFrom 0 ((sorted lines).map Prod.snd); sectionText dropped body) ↔
      Roomy ((sorted lines).map Prod.snd) := by
  obtain ⟨earlier, kept, hSplit, hDropped, hLoop⟩ := dropFrom_spec [] ((sorted lines).map Prod.snd) (by simp)
  rw [List.nil_append] at hSplit
  rw [List.length_nil] at hLoop
  rw [hLoop]
  dsimp only
  have hSize := size_sectionText earlier.length kept
  simp only [List.length_eq_zero_iff] at hSize
  constructor
  · rintro ⟨-, hCap, -⟩ earlier' kept' hSplit' hDropped'
    obtain ⟨rfl, rfl⟩ := hDropped.unique hDropped' (hSplit.symm.trans hSplit')
    omega
  · intro hRoomy
    refine ⟨iff_of_false (fun hNil => ?_) hSome, ?_, fun _ => ?_⟩
    · exact absurd (congrArg List.length hNil) (by simp [sectionText])
    · have hRoom := hRoomy earlier kept hSplit hDropped
      omega
    · refine ⟨(sorted lines).take earlier.length, (sorted lines).drop earlier.length, ?_, ?_, ?_⟩
      · rw [List.take_append_drop]
        exact sorted_perm lines
      · rw [List.take_append_drop]
        exact sorted_pairwise lines
      · have hLength : earlier.length ≤ (sorted lines).length := by
          have := congrArg List.length hSplit
          rw [List.length_map, List.length_append] at this
          omega
        rw [List.length_take, Nat.min_eq_left hLength, List.map_drop, hSplit, List.drop_left]

theorem roomy_nil : Roomy [] := by
  intro earlier kept hSplit _
  obtain ⟨rfl, rfl⟩ := List.append_eq_nil_iff.mp hSplit.symm
  decide

/-- Where the section is made, it is within its bytes, in the order of the ledger, less the
earliest lines, and empty for want of any, if and only if the draft leaves the room that its
text takes. -/
theorem since_gone_iff {host : Host} {facts : List Fact} {strand : String} {gen : ℤ} {thread : String}
    {threads : List (String × String)} {install : String} {text : Text}
    (h : sinceGone host facts strand gen thread threads install = .ok text) :
    ∃ lines, toSay host facts strand gen thread threads install = .ok lines ∧
      (Right lines text ↔ Roomy ((sorted lines).map Prod.snd)) := by
  obtain ⟨lines, hLines, hRest⟩ := Fallible.peel h
  refine ⟨lines, hLines, ?_⟩
  split at hRest
  · rename_i hNone
    obtain rfl := Except.ok.inj hRest
    subst hNone
    exact iff_of_true ⟨iff_of_true rfl rfl, Nat.zero_le _, fun hSome => (hSome rfl).elim⟩ roomy_nil
  · rename_i hSome
    obtain rfl := Except.ok.inj hRest
    exact right_iff lines hSome

/-- The lease of a predecessor, and its last boundary. -/
def predecessorLease : Fact :=
  ⟨"lease", "loom:aaaa", [("gen", .int 1), ("strand", .str "s-aaaa-a"), ("thread", .str "inbox")], "", "lease:1", version,
    none, []⟩

def lastShown : Fact :=
  ⟨"shown", "loom:aaaa", [("gen", .int 1), ("strand", .str "s-aaaa-a")], "", "shown:1", version, none, []⟩

/-- A note by an outside hand of so many characters. -/
def outsideNote (ident : String) (length : ℕ) : Fact :=
  ⟨"note", "person:p", [("why", .str (String.ofList (List.replicate length 'x')))], "", ident, version, none, []⟩

def noted (notes : List Fact) : Except Raised Text :=
  sinceGone bareHost (predecessorLease :: lastShown :: notes) "s-aaaa-b" 1 "inbox" [] "aaaa"

theorem since_gone_iff_noted : ∃ text lines, noted [outsideNote "n-1" 3] = .ok text ∧
    toSay bareHost [predecessorLease, lastShown, outsideNote "n-1" 3] "s-aaaa-b" 1 "inbox" [] "aaaa" = .ok lines ∧
      (Right lines text ↔ Roomy ((sorted lines).map Prod.snd)) := by
  have hOk : (noted [outsideNote "n-1" 3]).map (fun _ => ()) = .ok () := by decide +kernel
  obtain ⟨text, hText, -⟩ := Fallible.map_eq_ok.mp hOk
  obtain ⟨lines, hLines, hIff⟩ := since_gone_iff hText
  exact ⟨text, lines, hText, hLines, hIff⟩

def nineNotes : List Fact :=
  ["n-1", "n-2", "n-3", "n-4", "n-5", "n-6", "n-7", "n-8", "n-9"].map fun ident => outsideNote ident 151

/-- Nine notes of 175 bytes a line: one is dropped, and the text of the others is 17 bytes
more than the measure says. -/
theorem since_gone_over : ∃ text lines, noted nineNotes = .ok text ∧
    toSay bareHost (predecessorLease :: lastShown :: nineNotes) "s-aaaa-b" 1 "inbox" [] "aaaa" = .ok lines ∧
      ¬ Right lines text := by
  have hSize : (noted nineNotes).map size = .ok 1517 := by decide +kernel
  obtain ⟨text, hText, hOver⟩ := Fallible.map_eq_ok.mp hSize
  obtain ⟨lines, hLines, -⟩ := Fallible.peel hText
  refine ⟨text, lines, hText, hLines, fun hRight => ?_⟩
  have hCap := hRight.2.1
  rw [hOver] at hCap
  exact absurd hCap (by decide)

end Brnrd.Since
