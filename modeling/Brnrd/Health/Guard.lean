import Brnrd.Events.Event

/-! The guard that the loop passes its steps through: the streaks it holds in memory, and
the rows it writes when one opens, is told of and closes. -/
namespace Brnrd.Health

abbrev Text := List Char

/-- An install id, of the length that `check_install` asks for. -/
structure Install where
  text : Text
  length_text : text.length = 4
deriving DecidableEq

/-- An instant as `_iso` writes one, in milliseconds. -/
structure Stamp where
  text : Text
  length_text : text.length = 24
deriving DecidableEq

/-- What the guard takes from its host: an instant written and read back, and ten digits of
a digest. -/
structure Host where
  iso : ℚ → Stamp
  seconds : Stamp → ℚ
  digest : Text → Text

/-- `MAX_BACKOFF`. -/
def maxBackoff : ℕ := 300

/-- `NOTICE_AFTER`. -/
def noticeAfter : ℚ := 300

/-- `CLEAR_AFTER`. -/
def clearAfter : ℚ := 4 * 3600

structure Streak where
  since : Stamp
  error : Text
  count : ℕ
  skip : ℕ
  told : Bool

/-- Streaks of one step that follow each other within `clearAfter`. The last three fields
are the cause and the grade last told, and when the last streak recovered, 0 while one is open. -/
structure Episode where
  since : Stamp
  dips : ℕ
  told : Text
  grade : ℤ
  up : ℚ

/-- `Episode(since)`. -/
def Episode.new (since : Stamp) : Episode :=
  ⟨since, 1, [], 0, 0⟩

/-- A raised error: its type, what it says, the innermost frame inside brr/, and the grade
it carries, if any. -/
structure Raised where
  type_ : Text
  text : Text
  frame : Text
  grade : Option ℤ
deriving DecidableEq

/-- `grade(exc)`. -/
def grade (exc : Raised) : ℤ :=
  exc.grade.getD 0

/-- The error as rows have it. -/
def Raised.error (exc : Raised) : Text :=
  (exc.type_ ++ ": ".toList ++ exc.text).take 300

/-- `Path(at).name`. -/
def fileName (at_ : Text) : Text :=
  (at_.reverse.takeWhile (· ≠ '/')).reverse

/-- `cause(error, at)`. -/
def cause (error at_ : Text) : Text :=
  let kind := error.takeWhile (· ≠ ':')
  if at_ = [] then kind else kind ++ " at ".toList ++ fileName at_

/-- The facts that the guard reads and writes, with the data it reads of them. What a
recovered row says of its time is `up`, or else the fact's own time. -/
inductive Row where
  | degraded (install : Install) (step error frame : Text) (since : Stamp) (episode : Option Stamp) (dips : Option ℕ)
  | recovered (install : Install) (step : Text) (since : Stamp) (count : ℕ) (last : Text) (episode : Option Stamp)
      (told : Option Text) (grade : Option ℤ) (up : Stamp)
  | notice (kind subject what can : Text) (passive : Bool)

/-- `f"{kind}:{install}:{step}:{since}"`. -/
def streakId (kind : Text) (install : Install) (step : Text) (since : Stamp) : Text :=
  kind ++ ':' :: install.text ++ ':' :: step ++ ':' :: since.text

/-- `notice_id(kind, subject)`. -/
def noticeId (host : Host) (kind subject : Text) : Text :=
  "loom/".toList ++ kind ++ '-' :: host.digest subject

/-- The id that a row is written under. -/
def Row.id (host : Host) : Row → Text
  | .degraded install step _ _ since _ _ => streakId "loom.degraded".toList install step since
  | .recovered install step since .. => streakId "loom.recovered".toList install step since
  | .notice kind subject .. => noticeId host kind subject

/-- A degraded or a recovered row. -/
def Row.isStreak : Row → Bool
  | .notice .. => false
  | _ => true

/-- The guard's memory. -/
structure Memory where
  streaks : List (Text × Streak)
  episodes : List (Text × Episode)

section Start

variable (host : Host) (install : Install)

/-- The id that a recovered row's streak was opened under. -/
def Row.opener (row : Row) : Text :=
  Events.replaceFirst "loom.recovered:".toList "loom.degraded:".toList (row.id host)

/-- `open_streaks(facts, install)`. -/
def openStreaks (rows : List Row) : List Row :=
  let closed := rows.filterMap fun row => match row with
    | .recovered .. => some (row.opener host)
    | _ => none
  rows.filter fun row => match row with
    | .degraded own .. => row.id host ∉ closed && own = install
    | _ => false

/-- A streak as the ledger has it open. -/
def Row.streak : Row → Option (Text × Streak)
  | .degraded _ step error _ since _ _ => some (step, ⟨since, error, 1, 0, false⟩)
  | _ => none

/-- The recovered row that is read for a degraded row's id. -/
def backOf (rows : List Row) (ident : Text) : Option Row :=
  (rows.filter fun row => match row with
    | .recovered own .. => own = install && row.opener host = ident
    | _ => false).getLast?

/-- The latest degraded row of each step. -/
def latest (rows : List Row) : List (Text × Row) :=
  rows.foldl (fun latest row => match row with
    | .degraded own step _ _ since _ _ =>
        if own = install then
          match Entries.get step latest with
          | some (.degraded _ _ _ _ before _ _) =>
              if before.text ≤ since.text then Entries.set step row latest else latest
          | _ => Entries.set step row latest
        else latest
    | _ => latest) []

/-- The episode of a step's latest streak, while it stands: a streak is open, or the cause
told rides on a recovery younger than `clearAfter`. -/
def standing (now : ℚ) (rows : List Row) (row : Row) : Option Episode :=
  match row with
  | .degraded _ _ _ _ since episode dips =>
      match backOf host install rows (row.id host) with
      | some (.recovered _ _ _ _ _ _ told grade up) =>
          if told.getD [] ≠ [] ∧ now - host.seconds up < clearAfter then
            some ⟨episode.getD since, dips.getD 1, told.getD [], grade.getD 0, host.seconds up⟩
          else none
      | _ => some ⟨episode.getD since, dips.getD 1, [], 0, 0⟩
  | _ => none

/-- `Health(home, facts, log)`: what it reads from the ledger at the start. -/
def start (now : ℚ) (rows : List Row) : Memory where
  streaks := ((openStreaks host install rows).filterMap Row.streak).foldl
    (fun streaks item => Entries.set item.1 item.2 streaks) []
  episodes := (latest install rows).filterMap fun item =>
    (standing host install now rows item.2).map (item.1, ·)

end Start

section Steps

variable (host : Host) (install : Install)

/-- The memory with a step's streak. -/
def Memory.withStreak (m : Memory) (step : Text) (streak : Streak) : Memory :=
  { m with streaks := Entries.set step streak m.streaks }

/-- The memory with a step's episode. -/
def Memory.withEpisode (m : Memory) (step : Text) (episode : Episode) : Memory :=
  { m with episodes := Entries.set step episode m.episodes }

/-- The episode that a new streak belongs to: one that still stands, with a dip more, or a
new one. -/
def nextEpisode (step : Text) (since : Stamp) (now : ℚ) (m : Memory) : Episode :=
  match Entries.get step m.episodes with
  | some episode =>
      if episode.up = 0 ∨ now - episode.up < clearAfter then { episode with dips := episode.dips + 1, up := 0 }
      else .new since
  | none => .new since

/-- A number as it is printed. -/
def shown (n : ℤ) : Text :=
  (toString n).toList

/-- What home is told of a streak that lasts. -/
def tellRow (step : Text) (streak : Streak) (episode : Episode) (said : Text) : Row :=
  let dips := if 1 < episode.dips then
      ", dip ".toList ++ shown episode.dips ++ " of an episode since ".toList ++ episode.since.text
    else []
  .notice "degraded".toList (step ++ ':' :: episode.since.text ++ ':' :: said ++ ':' :: shown episode.grade)
    ("the loom's ".toList ++ step ++ " step has failed since ".toList ++ streak.since.text ++ dips ++ ", ".toList ++
      shown streak.count ++ " times: ".toList ++ streak.error)
    ("the traceback is in loom/loom.log; the step retries with backoff, the ".toList ++
      "degraded: line on the boundary is its gauge, and further dips of the same ".toList ++
      "cause stay silent until it worsens or clears (fact ".toList ++
      streakId "loom.degraded".toList install step streak.since ++ [')']) false

/-- What `_failed` tells of a streak that was not told of before, and what it remembers
of that. -/
def telling (step : Text) (exc : Raised) (now : ℚ) (streak : Streak) (m : Memory) : Memory × List Row :=
  if streak.told = false ∧ noticeAfter ≤ now - host.seconds streak.since then
    let m := m.withStreak step { streak with told := true }
    let episode := (Entries.get step m.episodes).getD (.new streak.since)
    let said := cause exc.error exc.frame
    if said ≠ episode.told ∨ episode.grade < grade exc then
      let episode := { episode with
        told := said, grade := max (grade exc) (if said = episode.told then episode.grade else 0) }
      (m.withEpisode step episode, [tellRow install step streak episode said])
    else (m.withEpisode step episode, [])
  else (m.withStreak step streak, [])

/-- The back-off of a streak. -/
def Streak.paced (streak : Streak) (backoff : Bool) : Streak :=
  if backoff then { streak with skip := min (2 ^ (streak.count - 1)) maxBackoff } else streak

/-- `_failed(step, exc, backoff)`: the memory after it, and the rows it writes in turn. -/
def failed (step : Text) (exc : Raised) (backoff : Bool) (now : ℚ) (m : Memory) : Memory × List Row :=
  match Entries.get step m.streaks with
  | some streak =>
      telling host install step exc now
        (Streak.paced { streak with count := streak.count + 1, error := exc.error } backoff) m
  | none =>
      let since := host.iso now
      let episode := nextEpisode step since now m
      let done := telling host install step exc now (Streak.paced ⟨since, exc.error, 1, 0, false⟩ backoff)
        (m.withEpisode step episode)
      (done.1, .degraded install step exc.error exc.frame since (some episode.since) (some episode.dips) :: done.2)

/-- `_passed(step, streak)`. -/
def passed (step : Text) (streak : Streak) (up : ℚ) (m : Memory) : Memory × List Row :=
  let episode := { (Entries.get step m.episodes).getD (.new streak.since) with up := up }
  (({ m with streaks := m.streaks.filter fun item => item.1 ≠ step }).withEpisode step episode,
    [.recovered install step streak.since streak.count streak.error (some episode.since) (some episode.told)
      (some episode.grade) (host.iso up)])

/-- A step that passes without a streak: an episode that was told and has been up long
enough is cleared. -/
def rested (step : Text) (now : ℚ) (m : Memory) : Memory × List Row :=
  match Entries.get step m.episodes with
  | some episode =>
      if episode.up ≠ 0 ∧ clearAfter ≤ now - episode.up then
        ({ m with episodes := m.episodes.filter fun item => item.1 ≠ step },
          if episode.told = [] then [] else
            [.notice "cleared".toList (step ++ ':' :: episode.since.text)
              ("the loom's ".toList ++ step ++ " step is clear: up since ".toList ++ (host.iso episode.up).text ++
                " after ".toList ++ shown episode.dips ++ " dip".toList ++ (if 1 < episode.dips then ['s'] else []) ++
                " since ".toList ++ episode.since.text ++ " (".toList ++ episode.told ++ [')'])
              "nothing to do".toList true])
      else (m, [])
  | none => (m, [])

/-- What a step's function does: it returns, it raises an error, or it ends the loop. -/
inductive Outcome where
  | returns
  | raises (exc : Raised)
  | breaks
deriving DecidableEq

/-- The watchdog of a step: the limit as it is printed, when it fired, if it did, and the
time at the step's end. -/
structure Overrun where
  limit : Text
  fired : Option ℚ
  ended : ℚ

/-- One call of the guard: the step, how its function ends and when, and the order in
which the rows of the step and of its watchdog, which runs beside it, come to be written. -/
structure Call where
  step : Text
  backoff : Bool
  outcome : Outcome
  now : ℚ
  overrun : Option Overrun
  order : List Bool

/-- `step + ".overrun"`. -/
def late (step : Text) : Text :=
  step ++ ".overrun".toList

/-- The error that `_overran` fails with. -/
def stillRunning (step limit : Text) : Raised :=
  ⟨"TimeoutError".toList, step ++ " still running after ".toList ++ limit ++ "s, past the router lease".toList,
    "loom/runtime/health.py:229".toList, none⟩

/-- What a call leaves: the memory, and the rows that the step's outcome, its watchdog
and its end write. -/
structure Done where
  memory : Memory
  outcome : List Row
  watchdog : List Row
  ended : List Row

/-- The end of a step's function. -/
def settled (call : Call) (m : Memory) : Memory × List Row :=
  match call.outcome, Entries.get call.step m.streaks with
  | .breaks, _ => (m, [])
  | .raises exc, _ => failed host install call.step exc call.backoff call.now m
  | .returns, some streak => passed host install call.step streak call.now m
  | .returns, none => rested host call.step call.now m

/-- The watchdog of a step fires, or not. -/
def watched (call : Call) (m : Memory) : Memory × List Row :=
  match call.overrun.bind fun overrun => overrun.fired.map (overrun.limit, ·) with
  | some (limit, fired) => failed host install (late call.step) (stillRunning call.step limit) false fired m
  | none => (m, [])

/-- The watchdog of a step that has ended closes its streak. -/
def unwatched (call : Call) (m : Memory) : Memory × List Row :=
  match call.overrun, Entries.get (late call.step) m.streaks with
  | some overrun, some streak => passed host install (late call.step) streak overrun.ended m
  | _, _ => (m, [])

/-- `guard(step, fn, backoff, overrun)`. -/
def guard (call : Call) (m : Memory) : Done :=
  match Entries.get call.step m.streaks with
  | some streak =>
      if 0 < streak.skip then ⟨m.withStreak call.step { streak with skip := streak.skip - 1 }, [], [], []⟩ else run
  | none => run
where
  run : Done :=
    let outcome := settled host install call m
    let watchdog := watched host install call outcome.1
    let ended := unwatched host install call watchdog.1
    ⟨ended.1, outcome.2, watchdog.2, ended.2⟩

end Steps

end Brnrd.Health
