import Brnrd.Events.Frontmatter
import Brnrd.Machine.Reach

/-! The card of a run as a text: the open lines that the frame ticks, and the ledger
block that it projects. -/
namespace Brnrd.Cards

open Python
open Events (Text singleSpaced)

/-- A thing that a line names. -/
inductive Coordinate where
  | pr (number : Text)
  | branch (name : Text)
  | strand (id : Text)

def Coordinate.value : Coordinate → Text
  | .pr number => number
  | .branch name => name
  | .strand id => id

/-- What is told of a coordinate that has happened. -/
def Coordinate.why : Coordinate → Text
  | .pr number => '#' :: number ++ " merged".toList
  | .branch name => name ++ "'s PR merged".toList
  | .strand id => id ++ " returned".toList

/-- What the frame takes from outside: the coordinates that the patterns find on a
line, and for each the time it happened, where it has one. -/
structure Facts where
  coordinates : Text → List Coordinate
  happened : Coordinate → Option (Option ℚ)

/-- `text.split("\n")`. -/
def splitNewlines : Text → List Text
  | [] => [[]]
  | c :: rest => if c = '\n' then [] :: splitNewlines rest else (splitNewlines rest).modifyHead (c :: ·)

/-- `_OPEN_RE`: what stands before and behind the open box of a line. -/
def openBox (line : Text) : Option (Text × Text) :=
  let indent := line.takeWhile isSpace
  match line.drop indent.length with
  | bullet :: rest =>
      let gap := rest.takeWhile isSpace
      match rest.drop gap.length with
      | '[' :: ' ' :: ']' :: c :: tail =>
          if bullet ∈ ['-', '*', '+'] ∧ gap ≠ [] ∧ isSpace c = true then some (indent ++ bullet :: gap, c :: tail) else none
      | _ => none
  | [] => none

/-- `Tick`. -/
structure Tick where
  index : ℕ
  line : Text
  coordinate : Text
  why : Text

/-- The tick of one line, where all that it names has happened since it was seen. -/
def proposeTick (facts : Facts) (firstSeen : List (Text × ℚ)) (index : ℕ) (line : Text) : Option Tick :=
  match openBox line, Entries.get (singleSpaced line) firstSeen, facts.coordinates line with
  | some _, some seenAt, first :: rest =>
      let done (coordinate : Coordinate) : Bool :=
        match facts.happened coordinate with
        | none => false
        | some time => time.all (seenAt ≤ ·)
      if (first :: rest).all done then
        some ⟨index, line, first.value, " · ".toList.intercalate ((first :: rest).map Coordinate.why)⟩
      else none
  | _, _, _ => none

/-- `propose_ticks`. -/
def proposeTicks (facts : Facts) (firstSeen : List (Text × ℚ)) (cardText : Text) : List Tick :=
  (splitNewlines cardText).zipIdx.filterMap fun item => proposeTick facts firstSeen item.2 item.1

/-- `apply_ticks`. -/
def applyTicks (cardText : Text) (ticks : List Tick) : Text :=
  let tick (lines : List Text) (tick : Tick) : List Text :=
    match openBox tick.line with
    | some (head, tail) => if lines[tick.index]? = some tick.line then lines.set tick.index (head ++ "[x]".toList ++ tail) else lines
    | none => lines
  ['\n'].intercalate (ticks.foldl tick (splitNewlines cardText))

/-- `_section_span`: what stands before a section, in it and behind it. -/
def sectionSpan (text heading : Text) : Option (Text × Text × Text) :=
  let lines := keptFrom [] text
  let before := lines.takeWhile fun line => line.rdropWhile isSpace ≠ heading
  match lines.drop before.length with
  | [] => none
  | first :: rest =>
      let block := rest.takeWhile fun line => !"## ".toList.isPrefixOf line
      some (before.flatten, first ++ block.flatten, (rest.drop block.length).flatten)

def saidHeading : Text := "## Said".toList

def ledgerHeading : Text := "## Ledger".toList

def ledgerLegend : Text :=
  ("⇐ projected by the frame from the HUD and the run's ledgers · rebuilt every heartbeat · " ++
    "edits here are overwritten").toList

/-- `render_ledger`. -/
def renderLedger (lines : List Text) : Text :=
  ['\n'].intercalate (ledgerHeading :: ledgerLegend :: lines)

/-- The newlines that part a text from a block behind it. -/
def gapAfter (text : Text) : Text :=
  if ['\n', '\n'].isSuffixOf text then [] else if ['\n'].isSuffixOf text then ['\n'] else ['\n', '\n']

/-- `splice_ledger`. -/
def spliceLedger (text block : Text) : Text :=
  match sectionSpan text ledgerHeading with
  | some (before, _, after) => before ++ block ++ (if after = [] then ['\n'] else ['\n', '\n']) ++ after
  | none =>
      match sectionSpan text saidHeading with
      | some (before, said, after) =>
          before ++ (if before = [] then [] else gapAfter before) ++ block ++ ['\n', '\n'] ++ said ++ after
      | none => if text = [] then block ++ ['\n'] else text ++ gapAfter text ++ block ++ ['\n']

/-- `_cap_dict`. -/
def capDict (store : List (Text × ℚ)) (limit : ℕ) : List (Text × ℚ) :=
  if store.length ≤ limit then store
  else (store.insertionSort fun a b => a.2 ≤ b.2).drop (store.length - limit)

/-- The first sight of each open line of a card. -/
def firstSights (cardText : Text) (now : ℚ) (seen : List (Text × ℚ)) : List (Text × ℚ) :=
  (splitNewlines cardText).foldl (fun seen line =>
    if (openBox line).isSome ∧ Entries.get (singleSpaced line) seen = none then Entries.set (singleSpaced line) now seen
    else seen) seen

end Brnrd.Cards

/-! The frame and the weaver at one card file: the frame reads it, ticks it and projects
the ledger into it, and the weaver writes the whole of it at any time. -/
namespace Brnrd.Cards

open Python
open Events (Text)

abbrev Bytes := List UInt8

/-- The codec of the card: `read_text(errors="replace")` and `write_text`. -/
structure Codec where
  decode : Bytes → Text
  encode : Text → Bytes

/-- The card file: who has written it, and as the how manieth write. -/
structure Card where
  bytes : Bytes
  byWeaver : Bool
  stamp : ℕ

/-- What the frame keeps from one pass to the next. -/
structure FrameState where
  seenLines : List (Text × ℚ) := []
  ledgerWritten : Bool := false
  ledgerReadded : Bool := false

/-- Where a pass of the frame stands: the text it goes on with, and how many writes
there had been when it read the card. -/
inductive Phase where
  | idle
  | ticking (cardText updated : Text) (read : ℕ)
  | ledger (cardText : Text) (read : ℕ)

/-- The card, the pass, and what the frame has written over: each card with how many
writes there had been at the read that the new text was built from. -/
structure World where
  card : Option Card := none
  writes : ℕ := 0
  phase : Phase := .idle
  state : FrameState := {}
  overwritten : List (ℕ × Card) := []

inductive Action where
  | weave (bytes : Bytes)
  | readCard (facts : Facts) (now : ℚ)
  /-- `_write_card` of the ticks, and whether the file system lets it. -/
  | writeTicks (lands : Bool)
  /-- `_project_ledger`, with the lines of the ledger. -/
  | project (lines : List Text) (lands : Bool)
  /-- The pass ends by an exception. -/
  | breakOff

variable (codec : Codec)

/-- The frame's own write of a text that it has built from a read. -/
def World.frameWrite (w : World) (text : Text) (read : ℕ) : World :=
  { w with
    card := some ⟨codec.encode text, false, w.writes + 1⟩
    writes := w.writes + 1
    overwritten := w.overwritten ++ (w.card.toList.map fun card => (read, card)) }

def World.cardText (w : World) : Option Text :=
  w.card.map fun card => codec.decode card.bytes

/-- The text the ledger's projection would put there, and whether that adds the block
again; none where it leaves the card alone. -/
def projected (state : FrameState) (cardText : Text) (lines : List Text) : Option (Text × Bool) :=
  if strip cardText = [] then none
  else
    let updated := spliceLedger cardText (renderLedger lines)
    if (sectionSpan cardText ledgerHeading).isSome then some (updated, false)
    else if state.ledgerWritten then (if state.ledgerReadded then none else some (updated, true))
    else if lines = [] then none
    else some (updated, false)

/-- `_project_ledger`: the compare and the replace of `_write_card_if_unchanged` are one
step. -/
def World.project (w : World) (cardText : Text) (read : ℕ) (lines : List Text) (lands : Bool) : World :=
  match projected w.state cardText lines with
  | none => { w with phase := .idle }
  | some (updated, readding) =>
      if updated = cardText then { w with phase := .idle, state := { w.state with ledgerWritten := true } }
      else if w.cardText codec = some cardText ∧ lands = true then
        { w.frameWrite codec updated read with
          phase := .idle
          state := { w.state with
            ledgerWritten := true
            ledgerReadded := readding || w.state.ledgerReadded } }
      else { w with phase := .idle }

/-- One read, one write, or the weaver's. -/
def World.step (w : World) : Action → Option World
  | .weave bytes => some { w with card := some ⟨bytes, true, w.writes + 1⟩, writes := w.writes + 1 }
  | .readCard facts now =>
      match w.phase with
      | .idle =>
          let cardText := (w.cardText codec).getD []
          let seen := firstSights cardText now w.state.seenLines
          let updated := applyTicks cardText (proposeTicks facts seen cardText)
          some { w with
            phase := if updated = cardText then .ledger cardText w.writes else .ticking cardText updated w.writes
            state := { w.state with seenLines := capDict seen 200 } }
      | _ => none
  | .writeTicks lands =>
      match w.phase with
      | .ticking cardText updated read =>
          if lands then some { w.frameWrite codec updated read with phase := .ledger updated read }
          else some { w with phase := .ledger cardText read }
      | _ => none
  | .project lines lands =>
      match w.phase with
      | .ledger cardText read => some (w.project codec cardText read lines lands)
      | _ => none
  | .breakOff => some { w with phase := .idle }

/-- No write of the weaver has been overwritten by a text that the frame built from a
read older than that write. -/
def World.Lossless (w : World) : Prop :=
  ∀ item ∈ w.overwritten, item.2.byWeaver = true → item.2.stamp ≤ item.1

/-- Whether the card is as the weaver left it after a read. -/
def World.wovenSince (w : World) (read : ℕ) : Bool :=
  w.card.any fun card => card.byWeaver && read < card.stamp

/-- The ticks are not written over what the weaver has written since the read. -/
def World.ticksCalm (w : World) : Phase → Prop
  | .ticking _ _ read => w.wovenSince read = false
  | _ => True

/-- The ledger is not put in place of a card that the weaver has left with the same text
since the read. -/
def World.projectCalm (w : World) (lines : List Text) : Phase → Prop
  | .ledger cardText read =>
      (∀ text ∈ projected w.state cardText lines, text.1 ≠ cardText) → w.cardText codec = some cardText →
        w.wovenSince read = false
  | _ => True

def World.Calm (w : World) : Action → Prop
  | .writeTicks true => w.ticksCalm w.phase
  | .project lines true => w.projectCalm codec lines w.phase
  | _ => True

variable {codec}

theorem World.Lossless.frameWrite {w : World} {read : ℕ} (h : w.Lossless) (codec : Codec) (text : Text)
    (hCalm : w.wovenSince read = false) : (w.frameWrite codec text read).Lossless := by
  intro item hItem hWeaver
  rcases List.mem_append.mp hItem with hOld | hNew
  · exact h item hOld hWeaver
  · obtain ⟨card, hCard, rfl⟩ := List.mem_map.mp hNew
    rw [World.wovenSince, Option.mem_toList.mp hCard] at hCalm
    have hWeaver : card.byWeaver = true := hWeaver
    simpa [hWeaver] using hCalm

theorem World.Lossless.project {w : World} {cardText : Text} {read : ℕ} {lines : List Text} {lands : Bool} (h : w.Lossless)
    (hCalm : lands = true → (∀ text ∈ projected w.state cardText lines, text.1 ≠ cardText) →
      w.cardText codec = some cardText → w.wovenSince read = false) :
    (w.project codec cardText read lines lands).Lossless := by
  unfold World.project
  split
  · exact h
  · rename_i updated readding hProjected
    split
    · exact h
    · rename_i hNew
      split
      · rename_i hSame
        refine h.frameWrite codec updated (hCalm hSame.2 (fun text hText => ?_) hSame.1)
        obtain rfl := Option.mem_unique hProjected hText
        exact hNew
      · exact h

/-- One step. -/
theorem World.Lossless.step {w next : World} {action : Action} (h : w.Lossless) (hCalm : w.Calm codec action)
    (hStep : w.step codec action = some next) : next.Lossless := by
  cases action with
  | weave bytes =>
      obtain rfl := Option.some.inj hStep
      exact h
  | readCard facts now =>
      unfold World.step at hStep
      dsimp only at hStep
      split at hStep
      · obtain rfl := Option.some.inj hStep
        exact h
      · cases hStep
  | writeTicks lands =>
      unfold World.step at hStep
      dsimp only at hStep
      split at hStep
      · rename_i cardText updated read hPhase
        cases lands with
        | false =>
            obtain rfl := Option.some.inj hStep
            exact h
        | true =>
            obtain rfl := Option.some.inj hStep
            rw [World.Calm, hPhase] at hCalm
            exact h.frameWrite codec updated hCalm
      · cases hStep
  | project lines lands =>
      unfold World.step at hStep
      dsimp only at hStep
      split at hStep
      · rename_i cardText read hPhase
        obtain rfl := Option.some.inj hStep
        refine h.project fun hLands => ?_
        subst hLands
        rw [World.Calm, hPhase] at hCalm
        exact hCalm
      · cases hStep
  | breakOff =>
      obtain rfl := Option.some.inj hStep
      exact h

instance (w : World) : DecidablePred w.ticksCalm
  | .ticking _ _ _ => inferInstanceAs (Decidable (_ = _))
  | .idle | .ledger _ _ => isTrue trivial

instance (w : World) (lines : List Text) : DecidablePred (w.projectCalm codec lines)
  | .ledger _ _ => inferInstanceAs (Decidable (_ → _ → _ = _))
  | .idle | .ticking _ _ _ => isTrue trivial

instance (w : World) : DecidablePred (w.Calm codec)
  | .writeTicks true => inferInstanceAs (Decidable (w.ticksCalm w.phase))
  | .project lines true => inferInstanceAs (Decidable (w.projectCalm codec lines w.phase))
  | .writeTicks false | .project _ false | .weave _ | .readCard _ _ | .breakOff => isTrue trivial

end Brnrd.Cards
