import Brnrd.Events.Event
import Mathlib.Algebra.Order.Field.Rat

/-! Replies on their way out of one event: the carriers and durable rows that a run stages,
and the passes of a gate that sends them. A carrier is what `read_partial` and
`message_path_from_queue` read of its file. -/
namespace Brnrd.Gates

open Events (Text padded)

inductive Status where
  | pending
  | processing
  | done
  | delivered
  | error
  deriving DecidableEq

/-- The statuses of a durable message. -/
inductive RowStatus where
  | pending
  | delivered
  | collected
  | undeliverable
  | carried
  deriving DecidableEq

/-- `number` is the place of the carrier among all that were staged. -/
structure Carrier (ρ : Type) where
  number : ℕ
  text : Text
  row : Option ρ
  deriving DecidableEq

/-- The fields of the event's file that deliveries read; `held` is a deferral for a
resource hold. -/
structure EventFile where
  status : Status
  suppressed : Bool
  held : Bool

/-- The key under which the fence keeps a send. -/
inductive SendKey where
  | interim (name : Text)
  | terminal
  deriving DecidableEq

/-- What a pass read of the event when it began. -/
structure Pass where
  now : ℚ
  status : Status
  suppressed : Bool

inductive Stage where
  | idle
  | read (pass : Pass)
  | sending (pass : Pass) (queue : List ℕ)

/-- How `deliver_partial` or `deliver_terminal` ends. -/
inductive Outcome where
  | sent
  | failed
  | impossible
  deriving DecidableEq

/-- The event, its carriers by their sequence numbers, its rows, the sends the fence knows,
the backoff and the gate; and of the past, the carriers staged, the numbers of those a send
was tried for and whether it was confirmed, how many were staged before the done status,
and the rows that were pending when the event left the active set. -/
structure World (ρ : Type) where
  event : EventFile
  partials : List (ℕ × Carrier ρ)
  response : Option (Carrier ρ)
  rows : List (ρ × RowStatus)
  facts : List SendKey
  retry : Option (ℕ × ℚ)
  stage : Stage
  staged : List (Carrier ρ)
  attempts : List (ℕ × Bool)
  before : Option ℕ
  left : Option (List ρ)

inductive Action (ρ : Type) where
  | wake
  | stage (row : ρ)
  | writePartial (text : Text) (row : Option ρ)
  | writeResponse (text : Text) (row : Option ρ)
  | suppress
  | done
  | poll (now : ℚ)
  | list
  | deliver (outcome : Outcome)
  | restart

variable {ρ : Type} [DecidableEq ρ]

/-- `transition(path, status)`. -/
def transition (row : ρ) (status : RowStatus) (rows : List (ρ × RowStatus)) : Bool × List (ρ × RowStatus) :=
  match Entries.get row rows with
  | none => (false, rows)
  | some .pending => (true, Entries.set row status rows)
  | some current => (current = status, rows)

/-- A transition of the row of a carrier that has one. -/
def settle (row : Option ρ) (status : RowStatus) (rows : List (ρ × RowStatus)) : List (ρ × RowStatus) :=
  match row with
  | none => rows
  | some row => (transition row status rows).2

def pendingRows (rows : List (ρ × RowStatus)) : List ρ :=
  (rows.map Prod.fst).filter fun row => Entries.get row rows = some .pending

/-- `f"{seq:06d}.md"`. -/
def fileName (seq : ℕ) : Text :=
  padded 6 seq ++ ".md".toList

def nextSeq {ρ : Type} (partials : List (ℕ × Carrier ρ)) : ℕ :=
  (partials.map Prod.fst).foldr max 0 + 1

/-- `list_partials(responses_dir, event_id)`. -/
def listPartials {ρ : Type} (partials : List (ℕ × Carrier ρ)) : List ℕ :=
  (partials.insertionSort fun a b => fileName a.1 ≤ fileName b.1).map Prod.fst

/-- `DELIVERY_BACKOFF_BASE_S` and its doubling up to `DELIVERY_BACKOFF_CAP_S`. -/
def delay (attempts : ℕ) : ℚ :=
  min (60 * 2 ^ (attempts - 1)) 900

/-- `_DELIVERY_FAILURE_CEILING`. -/
def failureCeiling : ℕ := 10

namespace World

/-- Whether `_deliverable` has the event. -/
def deliverable (w : World ρ) : Bool :=
  w.event.status = .processing || w.event.status = .done ||
    (w.event.status = .pending && w.event.held && !w.partials.isEmpty)

/-- `_delivery_due`. -/
def due (w : World ρ) (now : ℚ) : Bool :=
  w.retry.all fun state => decide (state.2 ≤ now)

/-- Whether a carrier is still to be sent: it has no row, or none that is settled. -/
def isOpen (w : World ρ) (c : Carrier ρ) : Bool :=
  c.row.all fun row => (Entries.get row w.rows).all (· = .pending)

/-- `set_status(event, status)` by a pass: the file has the status that the pass read, or
stays as it is. -/
def setStatus (w : World ρ) (pass : Pass) (status : Status) : World ρ :=
  if w.event.status = pass.status then
    { w with event := { w.event with status := status }, left := some (pendingRows w.rows) }
  else w

/-- `_abandon_delivery`, for the row in flight. -/
def abandon (w : World ρ) (pass : Pass) (row : Option ρ) : World ρ :=
  { w with retry := none, rows := settle row .undeliverable w.rows, stage := .idle }.setStatus pass .error

/-- How many failures in a row this one makes. -/
def tries (w : World ρ) : ℕ :=
  (w.retry.map Prod.fst).getD 0 + 1

/-- A failure that is not permanent. -/
def fail (w : World ρ) (pass : Pass) (row : Option ρ) : World ρ :=
  if failureCeiling ≤ w.tries then w.abandon pass row
  else { w with retry := some (w.tries, pass.now + delay w.tries), stage := .idle }

/-- The send, behind the fence where there is one: a send that it knows is not made again. -/
def send (fenced : Bool) (w : World ρ) (key : SendKey) (c : Carrier ρ) (outcome : Outcome) : World ρ × Outcome :=
  if fenced ∧ key ∈ w.facts then (w, .sent)
  else if outcome = .sent then
    ({ w with attempts := w.attempts ++ [(c.number, true)], facts := if fenced then w.facts ++ [key] else w.facts }, .sent)
  else ({ w with attempts := w.attempts ++ [(c.number, false)] }, outcome)

/-- A carrier that was sent: its row has the receipt, or its file is moved aside. -/
def recordSent (w : World ρ) (seq : ℕ) (c : Carrier ρ) : World ρ :=
  match c.row with
  | none => { w with partials := w.partials.filter (·.1 ≠ seq) }
  | some row => { w with rows := (transition row .delivered w.rows).2 }

/-- The end of a pass that closed the event. -/
def close (w : World ρ) (pass : Pass) : World ρ :=
  { w.setStatus pass .delivered with retry := none, stage := .idle }

def deliverPartial (fenced : Bool) (w : World ρ) (pass : Pass) (seq : ℕ) (rest : List ℕ) (outcome : Outcome) : World ρ :=
  match Entries.get seq w.partials with
  | none => w.fail pass none
  | some c =>
      if !w.isOpen c then { w with stage := .sending pass rest }
      else if c.text = [] then { w.recordSent seq c with stage := .sending pass rest }
      else
        match w.send fenced (.interim (fileName seq)) c outcome with
        | (w, .sent) => { w.recordSent seq c with stage := .sending pass rest }
        | (w, .failed) => w.fail pass c.row
        | (w, .impossible) => w.abandon pass c.row

def deliverTerminal (fenced : Bool) (w : World ρ) (pass : Pass) (outcome : Outcome) : World ρ :=
  match w.response with
  | none => w.close pass
  | some c =>
      if pass.suppressed || !w.isOpen c then w.close pass
      else
        match w.send fenced .terminal c outcome with
        | (w, .sent) => { w with rows := settle c.row .delivered w.rows }.close pass
        | (w, .failed) => w.fail pass c.row
        | (w, .impossible) => w.abandon pass c.row

/-- The next carrier of a pass, the terminal one behind the others, or the end of it. -/
def deliver (fenced : Bool) (w : World ρ) (pass : Pass) (queue : List ℕ) (outcome : Outcome) : World ρ :=
  match queue with
  | seq :: rest => w.deliverPartial fenced pass seq rest outcome
  | [] =>
      if pass.status = .done then w.deliverTerminal fenced pass outcome
      else { w with retry := none, stage := .idle }

/-- `write_partial`. -/
def writePartial (w : World ρ) (text : Text) (row : Option ρ) : World ρ :=
  let c : Carrier ρ := ⟨w.staged.length, text, row⟩
  { w with partials := w.partials ++ [(nextSeq w.partials, c)], staged := w.staged ++ [c] }

/-- `write_response`. -/
def writeResponse (w : World ρ) (text : Text) (row : Option ρ) : World ρ :=
  let c : Carrier ρ := ⟨w.staged.length, text, row⟩
  { w with response := some c, staged := w.staged ++ [c] }

/-- One step of the run, of the gate or of the daemon that restarts it. -/
def step (fenced : Bool) (w : World ρ) : Action ρ → Option (World ρ)
  | .wake => if w.event.status = .pending then some { w with event := { w.event with status := .processing } } else none
  -- `message_store.stage`: a row that is there is given back
  | .stage row =>
      some (if (Entries.get row w.rows).isSome then w else { w with rows := w.rows ++ [(row, .pending)] })
  | .writePartial text row => some (w.writePartial text row)
  | .writeResponse text row => some (w.writeResponse text row)
  -- a terminal that is not the carrier of its text
  | .suppress =>
      some { w with
        rows := settle (w.response.bind Carrier.row) .carried w.rows
        event := { w.event with suppressed := true } }
  | .done =>
      if w.event.status = .processing then
        some { w with event := { w.event with status := .done }, before := some w.staged.length }
      else none
  | .poll now =>
      match w.stage with
      | .idle =>
          some (if w.deliverable && w.due now then { w with stage := .read ⟨now, w.event.status, w.event.suppressed⟩ } else w)
      | _ => none
  | .list =>
      match w.stage with
      | .read pass => some { w with stage := .sending pass (listPartials w.partials) }
      | _ => none
  | .deliver outcome =>
      match w.stage with
      | .sending pass queue => some (w.deliver fenced pass queue outcome)
      | _ => none
  | .restart =>
      match w.stage with
      | .idle => some { w with retry := none }
      | _ => none

/-- The row that a pass has in flight at its next step. -/
def inFlight (fenced : Bool) (w : World ρ) : Option (Pass × Option ρ) :=
  match w.stage with
  | .sending pass (seq :: _) =>
      (Entries.get seq w.partials).bind fun c =>
        if w.isOpen c ∧ c.text ≠ [] ∧ ¬(fenced ∧ .interim (fileName seq) ∈ w.facts) then some (pass, c.row) else none
  | .sending pass [] =>
      if pass.status = .done then
        w.response.bind fun c =>
          if ¬pass.suppressed ∧ w.isOpen c ∧ ¬(fenced ∧ .terminal ∈ w.facts) then some (pass, c.row) else none
      else none
  | _ => none

/-- Whether a send that ends so is the last one for the event. -/
def givesUp (w : World ρ) (outcome : Outcome) : Prop :=
  outcome = .impossible ∨ (outcome = .failed ∧ failureCeiling ≤ w.tries)

instance (w : World ρ) (outcome : Outcome) : Decidable (w.givesUp outcome) :=
  inferInstanceAs (Decidable (_ ∨ _))

end World

end Brnrd.Gates

/-! The order of the names under which partial responses are staged. Names of six digits
stand in the order of their numbers; the millionth stands before the one in front of it. -/
namespace Brnrd.Gates

open Events (Text padded)

theorem isDigit_padded {width n : ℕ} : ∀ c ∈ padded width n, c.isDigit = true := by
  intro c hc
  simp only [padded, List.leftpad, List.mem_append, List.mem_replicate] at hc
  rcases hc with ⟨-, rfl⟩ | hc
  · decide
  · exact Nat.isDigit_of_mem_toDigits (by decide) (by decide) hc

@[simp] theorem value_padded (width n : ℕ) : Nat.ofDigitChars 10 (padded width n) 0 = n := by
  rw [padded, List.leftpad, Nat.ofDigitChars_append, Nat.ofDigitChars_replicate_zero, Nat.mul_zero, Nat.ofDigitChars_ten_toDigits]

theorem length_padded {width n : ℕ} (h : n < 10 ^ (width + 1)) : (padded (width + 1) n).length = width + 1 := by
  have hDigits := (Nat.length_toDigits_le_iff (by decide : 1 < 10) (Nat.succ_pos width)).mpr h
  rw [padded, List.length_leftpad, Nat.max_eq_left hDigits]

theorem digit_bounds {c : Char} (h : c.isDigit = true) : 48 ≤ c.toNat ∧ c.toNat ≤ 57 := by
  simp only [Char.isDigit, Bool.and_eq_true, decide_eq_true_eq] at h
  exact h

theorem value_lt {digits : Text} (h : ∀ c ∈ digits, c.isDigit = true) : Nat.ofDigitChars 10 digits 0 < 10 ^ digits.length := by
  induction digits with
  | nil => simp
  | cons c digits ih =>
      have hRest := ih fun d hd => h d (List.mem_cons_of_mem _ hd)
      have hDigit := (digit_bounds (h c (by simp))).2
      have hZero : '0'.toNat = 48 := rfl
      rw [Nat.ofDigitChars_cons, Nat.ofDigitChars_eq_ofDigitChars_zero, List.length_cons, Nat.pow_succ, hZero]
      have hNine : 10 * 0 + (c.toNat - 48) ≤ 9 := by omega
      calc 10 ^ digits.length * (10 * 0 + (c.toNat - 48)) + Nat.ofDigitChars 10 digits 0
          < 10 ^ digits.length * 9 + 10 ^ digits.length :=
            Nat.add_lt_add_of_le_of_lt (Nat.mul_le_mul_left _ hNine) hRest
        _ = 10 ^ digits.length * 10 := by rw [← Nat.mul_succ]

/-- Of two numbers with as many digits the one whose text comes first is smaller. -/
theorem value_lt_value {a b rest : Text} (hLength : a.length = b.length) (ha : ∀ c ∈ a, c.isDigit = true)
    (hb : ∀ c ∈ b, c.isDigit = true) (h : a ++ rest < b ++ rest) :
    Nat.ofDigitChars 10 a 0 < Nat.ofDigitChars 10 b 0 := by
  induction a generalizing b with
  | nil =>
      obtain rfl := List.length_eq_zero_iff.mp hLength.symm
      exact absurd h (List.lt_irrefl _)
  | cons c a ih =>
      obtain ⟨d, b, rfl⟩ := List.exists_cons_of_length_eq_add_one hLength.symm
      have hLess := value_lt fun e he => ha e (List.mem_cons_of_mem _ he)
      obtain ⟨hLow, -⟩ := digit_bounds (ha c (by simp))
      have hZero : '0'.toNat = 48 := rfl
      have hSame : a.length = b.length := by simpa using hLength
      rw [@Nat.ofDigitChars_cons _ c a, Nat.ofDigitChars_eq_ofDigitChars_zero, @Nat.ofDigitChars_cons _ d b,
        Nat.ofDigitChars_eq_ofDigitChars_zero (l := b), hZero, ← hSame]
      rw [List.cons_append, List.cons_append, List.cons_lt_cons_iff] at h
      rcases h with hFirst | ⟨rfl, hRest⟩
      · have hNext : 10 * 0 + (c.toNat - 48) + 1 ≤ 10 * 0 + (d.toNat - 48) := by
          have hToNat : c.toNat < d.toNat := hFirst
          omega
        calc 10 ^ a.length * (10 * 0 + (c.toNat - 48)) + Nat.ofDigitChars 10 a 0
            < 10 ^ a.length * (10 * 0 + (c.toNat - 48) + 1) := by
              rw [Nat.mul_add (10 ^ a.length) _ 1, Nat.mul_one]
              exact Nat.add_lt_add_left hLess _
          _ ≤ 10 ^ a.length * (10 * 0 + (d.toNat - 48)) := Nat.mul_le_mul_left _ hNext
          _ ≤ _ := Nat.le_add_right ..
      · exact Nat.add_lt_add_left
          (ih hSame (fun e he => ha e (List.mem_cons_of_mem _ he)) (fun e he => hb e (List.mem_cons_of_mem _ he)) hRest) _

/-- The names of six digits are in the order of their numbers. -/
theorem fileName_le {m n : ℕ} (h : m ≤ n) (hn : n ≤ 999999) : fileName m ≤ fileName n := by
  have hLength : (padded 6 n).length = (padded 6 m).length := by
    rw [length_padded (by omega), length_padded (by omega)]
  by_contra hNot
  have hLess : fileName n < fileName m := not_le.mp hNot
  have hValues := value_lt_value hLength isDigit_padded isDigit_padded hLess
  rw [value_padded, value_padded] at hValues
  omega

theorem fileName_injective : Function.Injective fileName := by
  intro m n h
  have hPadded := List.append_cancel_right h
  have hValues := congrArg (fun digits => Nat.ofDigitChars 10 digits 0) hPadded
  simpa using hValues

/-- The millionth name is the first of the two. -/
example : fileName 1000000 < fileName 999999 := by decide +kernel

variable {ρ : Type}

variable {partials : List (ℕ × Carrier ρ)}

/-- Partials that are kept in the order of their numbers are listed in it. -/
theorem listPartials_sorted (hSorted : (partials.map Prod.fst).Pairwise (· < ·))
    (hSmall : ∀ item ∈ partials, item.1 ≤ 999999) : listPartials partials = partials.map Prod.fst := by
  rw [List.pairwise_map] at hSorted
  have hNames : partials.Pairwise fun a b => fileName a.1 ≤ fileName b.1 :=
    hSorted.imp_of_mem fun _ hb hLess => fileName_le (Nat.le_of_lt hLess) (hSmall _ hb)
  rw [listPartials, hNames.insertionSort_eq]

theorem lt_nextSeq {item : ℕ × Carrier ρ} (h : item ∈ partials) : item.1 < nextSeq partials := by
  have hMember : item.1 ∈ partials.map Prod.fst := List.mem_map_of_mem h
  rw [nextSeq]
  generalize partials.map Prod.fst = seqs at hMember
  induction seqs with
  | nil => cases hMember
  | cons seq seqs ih =>
      rw [List.foldr_cons]
      rcases List.mem_cons.mp hMember with rfl | hMember
      · omega
      · have := ih hMember
        omega

end Brnrd.Gates
