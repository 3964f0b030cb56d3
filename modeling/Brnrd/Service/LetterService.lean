import Brnrd.Leases.Local
import Brnrd.Ledger.ViewGrowth
import Brnrd.Stores.FactStore

/-! The service that claims, answers, retires and releases one letter. Each call is
a row of transactions: on the letter's lease, on its facts, on the send's lease, on
the sends; other calls may come between any two of them. -/
namespace Brnrd.Service

open Python Facts Leases Stores

/-- What a letter folds to. -/
inductive LetterState where
  | pending
  | claimed
  | answered
  | retired
  deriving DecidableEq

structure Letter where
  state : LetterState
  claim : Option Dict
  answer : Option Dict
  retirement : Option Dict
  anomalies : List String

def LetterState.terminal : LetterState → Bool
  | .answered | .retired => true
  | _ => false

/-- `float` of a JSON value, where it does not raise, and the value of a float. -/
structure Floats where
  read : Value → Option ℚ
  value : ℚ → Value

def Letter.fresh (state : LetterState) : Letter :=
  ⟨state, none, none, none, []⟩

def LetterState.name : LetterState → String
  | .pending => "pending"
  | .claimed => "claimed"
  | .answered => "answered"
  | .retired => "retired"

/-- One turn of the loop of `fold_letter`: the state, and the anomalies. -/
def foldFact (folded : Option Letter × List String) (f : Fact) : Option Letter × List String :=
  let (letter, anomalies) := folded
  let odd (text : String) := (letter, anomalies ++ [f.id ++ ": " ++ text])
  if f.kind = "pending" then
    match letter with
    | none => (some (.fresh .pending), anomalies)
    | some l => if l.state = .pending then folded else odd ("pending after " ++ l.state.name)
  else if f.kind = "claimed" then
    match letter.map Letter.state with
    | some .pending => (some { Letter.fresh .claimed with claim := some f.data }, anomalies)
    | _ => odd "claim without pending letter"
  else if f.kind = "released" then
    match letter.map Letter.state with
    | some .claimed => (some (.fresh .pending), anomalies)
    | _ => odd "release without claim"
  else if f.kind = "answered" then
    match letter.map Letter.state with
    | some .pending | some .claimed => (some { Letter.fresh .answered with answer := some f.data }, anomalies)
    | _ => odd "answer after terminal or without letter"
  else if f.kind = "retired" then
    match letter.map Letter.state with
    | some .pending | some .claimed => (some { Letter.fresh .retired with retirement := some f.data }, anomalies)
    | _ => odd "retire after terminal or without letter"
  else odd ("unknown letter fact " ++ f.kind)

/-- `fold_letter(facts)` without a time. -/
def foldFacts (facts : List Fact) : Option Letter :=
  let (letter, anomalies) := facts.foldl foldFact (none, [])
  letter.map fun l => { l with anomalies := anomalies }

section
variable (host : Host) (floats : Floats)

/-- `store.read`, `none` where it raises. -/
def readLog (log : List Fact) : Option (List Fact) :=
  (union host [log]).toOption

/-- `fold_letter(facts, now=now)`, `none` where it raises. -/
def foldLetter (facts : List Fact) (now : Option ℚ) : Option (Option Letter) := do
  let folded := foldFacts (← readLog host facts)
  match folded, now with
  | some letter, some t =>
      match letter.state, letter.claim with
      | .claimed, some claim => do
          let heldUntil ← floats.read ((claim.lookup "until").getD (.int 0))
          some (if heldUntil ≤ t then some { Letter.fresh .pending with anomalies := letter.anomalies } else folded)
      | _, _ => some folded
  | _, _ => some folded

/-- `service.state(letter_id, now=now)`. -/
def stateOf (log : List Fact) (now : Option ℚ) : Option (Option Letter) := do
  foldLetter host floats (← readLog host log) now

end

structure Claim where
  letter : String
  lease : Lease
  deriving DecidableEq

/-- The arguments of `claim`. -/
structure ClaimArgs where
  holder : String
  ttl : ℚ
  now : ℚ
  capabilities : Option (Finset String)
  required : Option (Finset String)

/-- The arguments of `answer`. -/
structure Reply where
  claim : Claim
  response : Value

/-- The transaction a call comes to next, with what it has read so far. -/
inductive Point where
  -- claim
  | acquire (a : ClaimArgs)
  | look (a : ClaimArgs) (lease : Lease) (again : Bool)
  | door (a : ClaimArgs) (lease : Lease)
  | last (a : ClaimArgs) (lease : Lease) (letter : Letter)
  | reopen (a : ClaimArgs) (lease : Lease) (gen : Value)
  | take (a : ClaimArgs) (lease : Lease)
  | decline (lease : Lease)
  -- answer, with effect_once from `enter` to `settle`
  | check (r : Reply)
  | current (r : Reply)
  | enter (r : Reply)
  | prior (r : Reply)
  | sendLease (r : Reply)
  | priorAgain (r : Reply) (send : Lease)
  | intend (r : Reply) (send : Lease)
  | recheck (r : Reply) (send : Lease)
  | send (r : Reply) (send : Lease)
  | sent (r : Reply) (send : Lease) (receipt : Value)
  | settle (r : Reply) (send : Lease) (receipt : Option Value)
  | answered (r : Reply) (receipt : Value)
  -- retire and release
  | retire (claim : Claim) (by_ why : String)
  | retired (claim : Claim) (by_ why : String)
  | release (claim : Claim) (why : String)
  | released (claim : Claim) (why : String)
  | leave (lease : Lease)
  | over

/-- What a transaction takes from outside: the clock of a fact and its id, a new
holder for a send, and how the effect ends: it raises, or it completes with a
receipt, if that is JSON. -/
structure Input where
  physical : Int
  at_ : String
  id : String
  holder : String
  outcome : Option (Option Value)

/-- A call under way, and the letter's facts as they were when it began. -/
structure Call where
  point : Point
  began : List Fact

/-- A claim that was granted, and the letter's facts when its call began. -/
structure Granted where
  claim : Claim
  began : List Fact

structure World where
  letter : String
  clock : ℚ
  row : Row
  sendRow : Row
  facts : List Fact
  sends : List Fact
  calls : List Call
  granted : List Granted
  completed : Nat

def World.what (w : World) : String := "letter:" ++ w.letter

/-- The key of the reply's effect. -/
def World.key (w : World) : String := "reply:" ++ w.letter

/-- `facts.record(…)`: the log with a new fact behind it, `none` where it raises. -/
def record (host : Host) (log : List Fact) (input : Input) (kind by_ : String) (data : Dict) : Option (List Fact) :=
  (readLog host log).map fun seen =>
    log ++ [Recording.fact ⟨kind, by_, some data, [], input.physical, input.at_, input.id⟩ seen]

/-- `self.leases.authorize(lease)`. -/
def authorized (row : Row) (now : ℚ) (lease : Lease) : Option Bool :=
  ((authorize row now lease).toOption).map Prod.snd

/-- `self.leases.release(lease)`. -/
def freed (row : Row) (now : ℚ) (lease : Lease) : Option Row :=
  ((Leases.release row now lease).toOption).map Prod.fst

section
variable (host : Host) (floats : Floats)

/-- The receipt of a send in the log, `none` where its fact has none. -/
def receiptOf (f : Fact) : Option Value :=
  f.data.lookup "receipt"

/-- The transactions of `claim`. -/
def World.claim (w : World) (began : List Fact) (input : Input) : Point → Option (World × Point)
  | .acquire a => do
      let (row, lease) ← (acquire w.row w.clock w.what a.holder a.ttl a.capabilities a.required none).toOption
      some ({ w with row := row }, match lease with
        | none => .over
        | some lease => .look a lease false)
  | .look a lease again => do
      some (w, match ← stateOf host floats w.facts (some a.now) with
        | none => if again then .decline lease else .door a lease
        | some letter => if letter.state.terminal then .decline lease else .last a lease letter)
  | .door a lease => do
      some ({ w with facts := ← record host w.facts input "pending" "door" [] }, .look a lease true)
  | .last a lease letter => do
      let claims := (← readLog host w.facts).filter fun f => f.kind = "claimed"
      match claims.getLast?, letter.state with
      | some last, .pending =>
          let heldUntil ← floats.read ((last.data.lookup "until").getD (.int 0))
          some (w, if heldUntil ≤ a.now then .reopen a lease (Dict.get last.data "gen") else .take a lease)
      | _, .claimed =>
          if letter.claim.any fun claim => Dict.get claim "gen" = .int lease.gen then
            some ({ w with granted := w.granted ++ [⟨⟨w.letter, lease⟩, began⟩] }, .over)
          else some (w, .decline lease)
      | _, _ => some (w, .take a lease)
  | .reopen a lease gen => do
      some ({ w with facts := ← record host w.facts input "released" "lease" [("gen", gen), ("why", .str "expired")] },
        .take a lease)
  | .take a lease => do
      let facts ← record host w.facts input "claimed" a.holder
        [("gen", .int lease.gen), ("run", .str a.holder), ("until", floats.value lease.heldUntil)]
      some ({ w with facts := facts, granted := w.granted ++ [⟨⟨w.letter, lease⟩, began⟩] }, .over)
  | .decline lease => do
      some ({ w with row := ← freed w.row w.clock lease }, .over)
  | _ => none

/-- The transactions of `answer` before its effect, and behind it. -/
def World.answer (w : World) (input : Input) : Point → Option (World × Point)
  | .check r => do
      if ← authorized w.row w.clock r.claim.lease then some (w, .current r) else none
  | .current r => do
      match ← stateOf host floats w.facts none with
      | some letter =>
          if letter.state = .claimed ∧ letter.claim.any (fun claim => claim ≠ [] ∧
              Dict.get claim "gen" = .int r.claim.lease.gen) then some (w, .enter r)
          else none
      | none => none
  | .answered r receipt => do
      let facts ← record host w.facts input "answered" r.claim.lease.holder
        [("gen", .int r.claim.lease.gen), ("receipt", receipt), ("response", r.response)]
      some ({ w with facts := facts }, .leave r.claim.lease)
  | _ => none

/-- The transactions of `effect_once(claim.lease, "reply:" + claim.letter, send)`. -/
def World.effectOnce (w : World) (input : Input) : Point → Option (World × Point)
  | .enter r => do
      if ← authorized w.row w.clock r.claim.lease then some (w, .prior r) else none
  | .prior r => do
      match (← readLog host w.sends).filter fun f => f.kind = "sent" with
      | first :: _ => some (w, .answered r (← receiptOf first))
      | [] => some (w, .sendLease r)
  | .sendLease r => do
      let (row, lease) ← (acquire w.sendRow w.clock ("send:" ++ w.key) input.holder 300 none none none).toOption
      some ({ w with sendRow := row }, .priorAgain r (← lease))
  -- from here on a raise goes through `finally`, which lets the send's lease go
  | .priorAgain r send => match readLog host w.sends with
      | none => some (w, .settle r send none)
      | some sends => match sends.filter fun f => f.kind = "sent" with
          | first :: _ => some (w, .settle r send (receiptOf first))
          | [] => some (w, .intend r send)
  | .intend r send => match record host w.sends input "intended" r.claim.lease.holder
        [("gen", .int r.claim.lease.gen), ("key", .str w.key), ("what", .str w.what)] with
      | none => some (w, .settle r send none)
      | some sends => some ({ w with sends := sends }, .recheck r send)
  | .recheck r send =>
      some (w, if authorized w.row w.clock r.claim.lease = some true then .send r send else .settle r send none)
  | .send r send => match input.outcome with
      | none => some (w, .settle r send none)
      | some none => some ({ w with completed := w.completed + 1 }, .settle r send none)
      | some (some receipt) => some ({ w with completed := w.completed + 1 }, .sent r send receipt)
  | .sent r send receipt => match record host w.sends input "sent" r.claim.lease.holder
        [("gen", .int r.claim.lease.gen), ("key", .str w.key), ("receipt", receipt)] with
      | none => some (w, .settle r send none)
      | some sends => some ({ w with sends := sends }, .settle r send (some receipt))
  | .settle r send receipt => do
      some ({ w with sendRow := ← freed w.sendRow w.clock send }, match receipt with
        | none => .over
        | some receipt => .answered r receipt)
  | _ => none

/-- The transactions of `retire` and of `release`, and the end of all three. -/
def World.letGo (w : World) (input : Input) : Point → Option (World × Point)
  | .retire claim by_ why => do
      if ← authorized w.row w.clock claim.lease then some (w, .retired claim by_ why) else none
  | .retired claim by_ why => do
      let facts ← record host w.facts input "retired" by_ [("gen", .int claim.lease.gen), ("why", .str why)]
      some ({ w with facts := facts }, .leave claim.lease)
  | .release claim why => do
      if ← authorized w.row w.clock claim.lease then some (w, .released claim why) else none
  | .released claim why => do
      let facts ← record host w.facts input "released" claim.lease.holder
        [("gen", .int claim.lease.gen), ("why", .str why)]
      some ({ w with facts := facts }, .leave claim.lease)
  | .leave lease => do
      some ({ w with row := ← freed w.row w.clock lease }, .over)
  | _ => none

/-- The next transaction of a call, `none` where it raises or has ended. -/
def World.transact (w : World) (call : Call) (input : Input) : Option (World × Point) :=
  match call.point with
  | .acquire _ | .look _ _ _ | .door _ _ | .last _ _ _ | .reopen _ _ _ | .take _ _ | .decline _ =>
      w.claim host floats call.began input call.point
  | .check _ | .current _ | .answered _ _ => w.answer host floats input call.point
  | .enter _ | .prior _ | .sendLease _ | .priorAgain _ _ | .intend _ _ | .recheck _ _ | .send _ _ | .sent _ _ _
  | .settle _ _ _ => w.effectOnce host input call.point
  | .retire _ _ _ | .retired _ _ _ | .release _ _ | .released _ _ | .leave _ => w.letGo host input call.point
  | .over => none

/-- What can happen: time passes, a call begins, or one comes to its next transaction. -/
inductive Step where
  | tick (clock : ℚ)
  | claim (holder : String) (ttl : ℚ) (capabilities required : Option (Finset String))
  | answer (claim : Claim) (response : Value)
  | retire (claim : Claim) (by_ why : String)
  | release (claim : Claim) (why : String)
  | advance (call : Nat) (input : Input)

def World.begin (w : World) (point : Point) : World :=
  { w with calls := w.calls ++ [⟨point, w.facts⟩] }

def World.advance (w : World) (i : Nat) (input : Input) : World :=
  match w.calls[i]? with
  | none => w
  | some call => match w.transact host floats call input with
      | none => { w with calls := w.calls.set i { call with point := .over } }
      | some (w', point) => { w' with calls := w.calls.set i { call with point := point } }

def Step.apply (w : World) : Step → World
  | .tick clock => { w with clock := clock }
  | .claim holder ttl capabilities required => w.begin (.acquire ⟨holder, ttl, w.clock, capabilities, required⟩)
  | .answer held response => w.begin (.check ⟨held, response⟩)
  | .retire held by_ why => w.begin (.retire held by_ why)
  | .release held why => w.begin (.release held why)
  | .advance i input => w.advance host floats i input

end

end Brnrd.Service

/-! The logs of the service stay in the order of their clocks, so a read gives back
what was recorded; and a letter that has folded to its end stays there. -/
namespace Brnrd.Service

open Python Facts Stores

/-- Every fact has a clock above those before it, and names only facts below it. -/
structure InOrder (log : List Fact) : Prop where
  ids : (log.map Fact.id).Nodup
  stamped : ∀ f ∈ log, f.hlc.isSome
  ascending : log.Pairwise Below
  named : ∀ f ∈ log, ∀ g ∈ log, Before g f → Below g f

theorem InOrder.nil : InOrder [] :=
  ⟨List.nodup_nil, by simp, .nil, by simp⟩

variable {host : Host}

variable {log : List Fact}

theorem InOrder.keyed (h : InOrder log) : ∀ f ∈ log, order host f = .ok (orderKey host f) := by
  intro f hf
  obtain ⟨stamp, hStamp⟩ := Option.isSome_iff_exists.mp (h.stamped f hf)
  simp only [orderKey, order, hStamp]

/-- Such a log is its own union. -/
theorem InOrder.read (h : InOrder log) : readLog host log = some log := by
  have hForward : Ledger.Forward log := by
    refine ⟨h.ascending.imp_of_mem fun {f g} hf hg hBelow hBefore => ?_, fun f hf hSelf => ?_⟩
    · exact hBelow.asymm (h.named f hf g hg hBefore)
    · exact (h.named f hf f hf hSelf).asymm (h.named f hf f hf hSelf)
  obtain ⟨out, hUnion⟩ := hForward.union_ok h.ids h.keyed
  have hFlat : [log].flatten = log := by simp
  have hLedger := hFlat ▸ union_ledger hUnion
  have hSelf : Facts.Ledger host log log := .self h.ids
    (.of_sorted (h.ascending.imp fun hBelow => hBelow.orderKey_lt host)
      fun f hf g hg hBefore => (h.named g hg f hf hBefore).orderKey_lt host) h.keyed
  obtain rfl := hLedger.unique hSelf fun _ => Iff.rfl
  rw [readLog, hUnion]
  rfl

/-- No clock in the log is above the one `record` starts from. -/
theorem le_prior {f : Fact} {stamp : Hlc} (hf : f ∈ log) (hStamp : f.hlc = some stamp) : stamp ≤ prior log := by
  have hMem : stamp ∈ log.filterMap Fact.hlc := List.mem_filterMap.mpr ⟨f, hf, hStamp⟩
  unfold prior
  cases hMax : (log.filterMap Fact.hlc).max? with
  | none =>
      rw [List.max?_eq_none_iff] at hMax
      rw [hMax] at hMem
      cases hMem
  | some newest => exact (List.max?_le_iff hMax).mp le_rfl stamp hMem

/-- The tick is above every clock seen. -/
theorem prior_lt (log : List Fact) (r : Recording) : ∃ tick, (r.fact log).hlc = some tick ∧ prior log < tick := by
  refine ⟨_, rfl, ?_⟩
  rw [Hlc.lt_iff]
  by_cases hLate : r.physical ≤ (prior log).ms
  · refine .inr ⟨?_, .inl ?_⟩
    · simp [hLate]
    · simp [hLate]
  · refine .inl ?_
    simp [not_le.mp hLate]

/-- An id that no fact has or names. -/
def FreshId (log : List Fact) (id : String) : Prop :=
  ∀ f ∈ log, f.id ≠ id ∧ id ∉ f.after

instance (log : List Fact) (id : String) : Decidable (FreshId log id) :=
  inferInstanceAs (Decidable (∀ f ∈ log, f.id ≠ id ∧ id ∉ f.after))

/-- A record goes behind the log, which stays in order. -/
theorem InOrder.record (h : InOrder log) {input : Input} (hFresh : FreshId log input.id) (kind by_ : String) (data : Dict) :
    ∃ f, f.kind = kind ∧ f.data = data ∧ record host log input kind by_ data = some (log ++ [f]) ∧ InOrder (log ++ [f]) := by
  let r : Recording := ⟨kind, by_, some data, [], input.physical, input.at_, input.id⟩
  obtain ⟨tick, hTick, hAbove⟩ := prior_lt log r
  have hBelow : ∀ g ∈ log, Below g (r.fact log) := by
    intro g hg
    obtain ⟨stamp, hStamp⟩ := Option.isSome_iff_exists.mp (h.stamped g hg)
    exact ⟨stamp, tick, hStamp, hTick, (le_prior hg hStamp).trans_lt hAbove⟩
  have hNone : ∀ g, ¬Before g (r.fact log) := fun g hBefore => List.not_mem_nil hBefore
  refine ⟨r.fact log, rfl, rfl, by rw [Service.record, h.read]; rfl, ?_, ?_, ?_, ?_⟩
  · rw [List.map_append, List.nodup_append]
    refine ⟨h.ids, List.nodup_singleton _, fun a ha b hb hab => ?_⟩
    obtain ⟨g, hg, rfl⟩ := List.mem_map.mp ha
    obtain rfl := List.mem_singleton.mp hb
    exact (hFresh g hg).1 hab
  · intro g hg
    rcases List.mem_append.mp hg with hg | hg
    · exact h.stamped g hg
    · rw [List.mem_singleton.mp hg, hTick]
      rfl
  · refine List.pairwise_append.mpr ⟨h.ascending, List.pairwise_singleton _ _, fun g hg k hk => ?_⟩
    exact List.mem_singleton.mp hk ▸ hBelow g hg
  · intro f hf g hg hBefore
    rcases List.mem_append.mp hf with hf | hf
    · rcases List.mem_append.mp hg with hg | hg
      · exact h.named f hf g hg hBefore
      · obtain rfl := List.mem_singleton.mp hg
        exact absurd hBefore (hFresh f hf).2
    · exact absurd (List.mem_singleton.mp hf ▸ hBefore) (hNone g)

variable {letter : Letter}

/-- A letter at its end is moved by no fact. -/
theorem foldFact_terminal (h : letter.state.terminal = true) (anomalies : List String) (f : Fact) :
    (foldFact (some letter, anomalies) f).1 = some letter := by
  obtain ⟨state, claim, answer, retirement, _⟩ := letter
  cases state with
  | pending => cases h
  | claimed => cases h
  | answered =>
      simp only [foldFact]
      split_ifs <;> simp_all
  | retired =>
      simp only [foldFact]
      split_ifs <;> simp_all

theorem foldl_terminal (h : letter.state.terminal = true) (later : List Fact) (anomalies : List String) :
    (later.foldl foldFact (some letter, anomalies)).1 = some letter := by
  induction later generalizing anomalies with
  | nil => rfl
  | cons f later ih =>
      have hStep := foldFact_terminal h anomalies f
      rw [List.foldl_cons, ← Prod.mk.eta (p := foldFact (some letter, anomalies) f), hStep]
      exact ih _

/-- The letter, its anomalies aside. -/
def Letter.plain (letter : Letter) : Letter :=
  { letter with anomalies := [] }

/-- A log that folds to the end of its letter. -/
def Terminal (log : List Fact) : Prop :=
  ∃ letter, foldFacts log = some letter ∧ letter.state.terminal = true

theorem foldFacts_terminal (h : foldFacts log = some letter) (hTerminal : letter.state.terminal = true) (later : List Fact) :
    ∃ letter', foldFacts (log ++ later) = some letter' ∧ letter'.plain = letter.plain := by
  simp only [foldFacts, Option.map_eq_some_iff] at h
  obtain ⟨folded, hFolded, rfl⟩ := h
  have hKept := @foldl_terminal folded hTerminal later (log.foldl foldFact (none, [])).2
  rw [← hFolded, Prod.mk.eta] at hKept
  refine ⟨{ folded with anomalies := ((log ++ later).foldl foldFact (none, [])).2 }, ?_, rfl⟩
  simp only [foldFacts, List.foldl_append]
  rw [hKept, hFolded]
  rfl

theorem Terminal.append (h : Terminal log) (later : List Fact) : Terminal (log ++ later) := by
  obtain ⟨letter, hFold, hTerminal⟩ := h
  obtain ⟨letter', hFold', hSame⟩ := foldFacts_terminal hFold hTerminal later
  refine ⟨letter', hFold', ?_⟩
  have hState : letter'.plain.state = letter.plain.state := congrArg Letter.state hSame
  exact (congrArg LetterState.terminal hState).trans hTerminal

/-- The state of a letter at its end is the same at any time. -/
theorem stateOf_terminal {floats : Floats} (h : InOrder log) (hFold : foldFacts log = some letter)
    (hTerminal : letter.state.terminal = true) (now : Option ℚ) :
    stateOf host floats log now = some (some letter) := by
  have hNot : letter.state ≠ .claimed := by
    intro hClaimed
    rw [hClaimed] at hTerminal
    cases hTerminal
  simp only [stateOf, foldLetter, h.read, Option.bind_eq_bind, Option.bind_some, hFold]
  cases now with
  | none => rfl
  | some t =>
      cases hState : letter.state <;> simp_all

end Brnrd.Service
