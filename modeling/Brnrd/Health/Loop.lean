import Brnrd.Health.Guard
import Brnrd.Lists.Interleaved
import Brnrd.Machine.Reach

/-! The loop that runs its steps through the guard, over a ledger that other installs
write too: calls of the guard, ends and starts of the loop at any point, and the router's
own streak. -/
namespace Brnrd.Health

/-- What becomes of a row that is to be written: the ledger takes it; the ledger refuses it,
which is logged; or nothing more is written where it stands, since a line of the log could not
be written before it, or since the loop was killed. -/
inductive Reply where
  | takes
  | refuses
  | stops
deriving DecidableEq

/-- The ledger, and the memory of the loop while it runs. -/
structure World where
  memory : Option Memory
  ledger : List Row

section Write

variable (host : Host)

/-- `append(home, fact)`: an id that is there is not written again. -/
def put (ledger : List Row) (row : Row) : List Row :=
  if row.id host ∈ ledger.map (Row.id host) then ledger else ledger ++ [row]

/-- The rows that come to be written of those that are to be written in turn. -/
def written (reply : Row → Reply) (rows : List Row) : List Row :=
  (rows.takeWhile fun row => reply row ≠ .stops).filter fun row => reply row = .takes

/-- A row is where nothing more is written. -/
def isStopped (reply : Row → Reply) (rows : List Row) : Bool :=
  rows.any fun row => reply row = .stops

/-- The ledger after a call of the guard. -/
def Done.ledger (done : Done) (order : List Bool) (reply : Row → Reply) (ledger : List Row) : List Row :=
  (Interleaved.interleave order (written reply done.outcome) (written reply done.watchdog) ++
    written reply done.ended).foldl (put host) ledger

/-- The loop ends with a call whose function ends it, or whose own writing does. -/
def Done.ends (done : Done) (call : Call) (reply : Row → Reply) : Bool :=
  call.outcome = .breaks || isStopped reply done.outcome || isStopped reply done.ended

end Write

/-- `lease`, the step that the router keeps a streak of. -/
def leaseStep : Text :=
  "lease".toList

/-- The step of a streak's row. -/
def Row.step : Row → Option Text
  | .degraded _ step .. => some step
  | .recovered _ step .. => some step
  | .notice .. => none

/-- A row that another install wrote, or a notice. -/
def Row.foreign (install : Install) : Row → Bool
  | .degraded own .. => own ≠ install
  | .recovered own .. => own ≠ install
  | .notice .. => true

/-- What happens: the loop starts or ends, runs a step through the guard, the router is
fenced or takes its lease back, and a row of another install arrives among the others. -/
inductive Act where
  | start (now : ℚ)
  | stop
  | call (call : Call) (reply : Row → Reply)
  | fence (error : Text) (now : ℚ) (takes : Bool)
  | retake (now : ℚ) (takes : Bool)
  | arrive (place : ℕ) (row : Row)

section Step

variable (host : Host) (install : Install)

/-- `_lease_streak(facts)`. -/
def leaseStreak (ledger : List Row) : Option Row :=
  (openStreaks host install ledger).find? fun row => row.step = some leaseStep

/-- The row that `_fence` writes. -/
def fenceRow (error : Text) (now : ℚ) : Row :=
  .degraded install leaseStep error [] (host.iso now) none none

/-- The row that `_recovered` writes for a streak. -/
def retakeRow (now : ℚ) : Row → Option Row
  | .degraded _ _ error _ since _ _ => some (.recovered install leaseStep since 1 error none none none (host.iso now))
  | _ => none

/-- One thing that happens, where it can. The guard runs no step of the router's name. -/
def World.step (w : World) : Act → Option World
  | .start now => if w.memory = none then some { w with memory := some (start host install now w.ledger) } else none
  | .stop => some { w with memory := none }
  | .call call reply => do
      let m ← w.memory
      if call.step = leaseStep then none else
        let done := guard host install call m
        some ⟨if done.ends call reply then none else some done.memory, done.ledger host call.order reply w.ledger⟩
  | .fence error now takes =>
      match leaseStreak host install w.ledger with
      | some _ => some w
      | none => some (if takes then { w with ledger := put host w.ledger (fenceRow host install error now) } else w)
  | .retake now takes =>
      match (leaseStreak host install w.ledger).bind (retakeRow host install now) with
      | some row => some (if takes then { w with ledger := put host w.ledger row } else w)
      | none => some w
  | .arrive place row =>
      if row.foreign install then
        some (if row.id host ∈ w.ledger.map (Row.id host) then w
          else { w with ledger := w.ledger.take place ++ row :: w.ledger.drop place })
      else none

/-- The home before its first loop. -/
def World.first : World :=
  ⟨none, []⟩

end Step

/-- A row as its install and step know it: a streak opens, or closes. -/
inductive Mark where
  | down (since : Stamp)
  | back (since : Stamp)
deriving DecidableEq

/-- What a row is to a step of an install. -/
def Row.mark (install : Install) (step : Text) : Row → Option Mark
  | .degraded own named _ _ since _ _ => if own = install ∧ named = step then some (.down since) else none
  | .recovered own named since .. => if own = install ∧ named = step then some (.back since) else none
  | .notice .. => none

/-- The degraded and the recovered facts of a step, in their order. -/
def marks (install : Install) (step : Text) (ledger : List Row) : List Mark :=
  ledger.filterMap (Row.mark install step)

/-- A streak opens, closes, and the next one opens. -/
def Alternates : List Mark → Bool
  | [] => true
  | [.down _] => true
  | .down since :: .back other :: rest => since = other && Alternates rest
  | _ => false

/-- The streaks of a step that are open in the ledger. -/
def openAt (host : Host) (install : Install) (step : Text) (ledger : List Row) : List Row :=
  (openStreaks host install ledger).filter fun row => row.step = some step

/-- The degraded notices about a step, an episode, a cause and a grade. -/
def told (step : Text) (episode : Stamp) (said : Text) (grade : ℤ) (ledger : List Row) : List Row :=
  ledger.filter fun row => match row with
    | .notice kind subject .. =>
        kind = "degraded".toList && subject = step ++ ':' :: episode.text ++ ':' :: said ++ ':' :: shown grade
    | _ => false

/-- The ledger takes the degraded and the recovered rows that a call writes; where one is
not written, nothing that follows it is, and no end of the step that its watchdog reported. -/
def Kept (host : Host) (install : Install) (w : World) : Act → Prop
  | .call call reply => ∀ m, w.memory = some m →
      let done := guard host install call m
      (∀ row ∈ done.outcome ++ done.watchdog ++ done.ended, row.isStreak = true → reply row ≠ .refuses) ∧
        ∀ row ∈ done.watchdog, row.isStreak = true → reply row = .stops → ∀ last ∈ done.ended, reply last = .stops
  | _ => True

end Brnrd.Health
