import Brnrd.Machine.Reach
import Brnrd.Raises.Raise

/-! Rooms that send letters to channels and a ledger that their ports are drained into: what
keeps two letters from raising an unmoved ask within a day. -/
namespace Brnrd.Raises

open Python Facts Wishes

/-- A letter to a channel that `refuse` let pass: the asks that it went through, and when.
`captured` is the ask that `capture` makes of its questions. -/
structure Letter where
  id : String
  room : String
  channel : String
  links : List String
  captured : Option String
  asks : List Wish
  passed : ℤ

/-- The field `links` of the letter. -/
def Letter.linksField (letter : Letter) : String :=
  " ".intercalate (letter.links ++ letter.captured.toList)

/-- What `parse_frontmatter` reads of the letter's file, with `rest` for the fields that no
raise depends on. -/
def Letter.front (letter : Letter) (rest : Dict) : Dict :=
  [("kind", .str "letter"), ("id", .str letter.id), ("to", .str letter.channel), ("from", .str letter.room)] ++
    (if letter.linksField = "" then [] else [("links", .str letter.linksField)]) ++ rest

/-- `fact_from_port(fm, strand, gen)` of the letter's file. -/
def Letter.fact (letter : Letter) (rest : Dict) (at_ : String) : Fact where
  kind := "letter"
  by_ := "strand:" ++ letter.room
  data := [("id", .str letter.id), ("to", .str letter.channel), ("from", .str letter.room)] ++
    (if letter.linksField = "" then [] else [("links", .arr ((words letter.linksField).map .str))]) ++ rest
  at_ := at_
  id := letter.id
  v := 1
  hlc := none
  after := []

/-- The loom and its rooms. A letter that has passed is later written to the port of its
room, and then drained into the ledger. -/
structure World where
  clock : ℤ
  ledger : List Fact
  out : String → List File
  passed : List Letter
  written : List (Letter × File)
  drained : List (Letter × Fact)

def World.start : World where
  clock := 0
  ledger := []
  out _ := []
  passed := []
  written := []
  drained := []

/-- `check` is the `refuse` of a `send` that has read the ledger's facts before; `record` is
a fact that is no drained letter, `put` a file that is no letter of a `send`, and `reject` a
drain that refuses a file. The letters that passed and those that are written are counted
from the last. -/
inductive Act where
  | wait (elapsed : ℕ)
  | record (fact : Fact)
  | put (room : String) (file : File)
  | check (room : String) (facts : List Fact) (expired : String → Bool) (id channel : String) (links : List String)
      (captured : Option String)
  | write (n : ℕ) (rest : Dict)
  | drain (n : ℕ) (rest : Dict) (at_ : String)
  | reject (room : String) (file : File)

variable (env : Env)

def World.setOut (s : World) (room : String) (files : List File) : World :=
  { s with out := Function.update s.out room files }

/-- The world behind one act, `none` where it can not be made. A fact is written down at its
time or later. -/
def World.act (s : World) : Act → Option World
  | .wait elapsed => some { s with clock := s.clock + elapsed }
  | .record fact =>
      if ∀ t ∈ env.stamp fact.at_, t ≤ s.clock then some { s with ledger := s.ledger ++ [fact] } else none
  | .put room file => some (s.setOut room (s.out room ++ [file]))
  | .check room facts expired id channel links captured =>
      if facts ⊆ s.ledger ∧ startsWith channel "channel:" then
        match asked env expired facts links, refuse env expired facts (s.out room) links s.clock with
        | .ok rows, .ok () => some { s with passed := ⟨id, room, channel, links, captured, rows, s.clock⟩ :: s.passed }
        | _, _ => some s
      else none
  | .write n rest => s.passed[n]?.map fun letter =>
      let file : File := ⟨some (letter.front rest), s.clock⟩
      { s.setOut letter.room (s.out letter.room ++ [file]) with written := (letter, file) :: s.written }
  | .drain n rest at_ => s.written[n]?.bind fun (letter, file) =>
      if file ∈ s.out letter.room ∧ env.stamp at_ = some s.clock then
        let fact := letter.fact rest at_
        some { s.setOut letter.room ((s.out letter.room).erase file) with
          ledger := s.ledger ++ [fact]
          drained := (letter, fact) :: s.drained }
      else none
  | .reject room file => some (s.setOut room ((s.out room).erase file))

/-- The letter links the ask. -/
def Letter.Links (letter : Letter) (ask : Value) : Prop :=
  ∃ link ∈ words letter.linksField, .str link = ask

/-- A person wrote, the ask or its parent was restated, or a pull request that it names was
opened or merged. -/
def Moves (ask : Wish) (f : Fact) : Prop :=
  f.kind = "letter" ∧ isPerson env.host f = true ∨
    f.kind = "wish" ∧ (Dict.get f.data "wish" = ask.id ∨ Dict.get f.data "wish" = ask.parent) ∨
      (f.kind = "pr.opened" ∨ f.kind = "pr.merged") ∧ (Dict.get f.data "number").toStr env.host ∈ prs env ask

/-- For each open ask that a letter to a channel links, each letter before it that links it
passed a day before, or the ask moved between the two. -/
def World.Daily (s : World) : Prop :=
  s.passed.Pairwise fun later earlier => ∀ ask ∈ later.asks, earlier.Links ask.id →
    raiseGap ≤ later.passed - earlier.passed ∨
      ∃ f ∈ s.ledger, Moves env ask f ∧ ∃ t ∈ env.stamp f.at_, earlier.passed ≤ t ∧ t ≤ later.passed

/-- A letter that a check sees: in the facts that it has read, or in its own room's port. -/
def World.Seen (s : World) (room : String) (facts : List Fact) (letter : Letter) : Prop :=
  (∃ fact ∈ facts, (letter, fact) ∈ s.drained) ∨ ∃ file ∈ s.out room, (letter, file) ∈ s.written

/-- The condition: each letter that links an ask of the check, and that it does not see, has
passed a day ago, or the ask has moved since. -/
def Clear (s : World) : Act → Prop
  | .check room facts expired _ _ links _ => ∀ rows, asked env expired facts links = .ok rows → ∀ ask ∈ rows,
      ∀ letter ∈ s.passed, letter.Links ask.id → s.Seen room facts letter ∨
        raiseGap ≤ s.clock - letter.passed ∨ ∃ why ≠ "", move env ask letter.passed facts = .ok why
  | _ => True

variable {env} {s t : World} {ask : Wish} {facts : List Fact} {out : List File} {letter : Letter} {rest : Dict}

/-- A letter's links are not empty where it links something. -/
theorem Letter.Links.nonempty {value : Value} (h : letter.Links value) : letter.linksField ≠ "" := by
  obtain ⟨link, hLink, -⟩ := h
  intro hEmpty
  rw [hEmpty] at hLink
  cases hLink

theorem front_raises (hChannel : startsWith letter.channel "channel:" = true) (h : letter.Links ask.id) :
    raisesAsk env (letter.front rest) ask.id = .ok true := by
  have hTo : toChannel env (letter.front rest) = true := hChannel
  have hGet : Dict.get (letter.front rest) "links" = .str letter.linksField := by
    rw [Dict.get, Letter.front, if_neg h.nonempty]
    rfl
  have hTruthy : (Value.str letter.linksField).truthy = true := by simp [Value.truthy, h.nonempty]
  have hLinks : links env (letter.front rest) = .ok (words letter.linksField) := by
    rw [links, hGet, Value.orElse, if_pos hTruthy]
  rw [raisesAsk, hTo, if_pos rfl, hLinks, Fallible.ok_bind]
  simpa [Letter.Links] using h

theorem fact_raises {at_ : String} (hChannel : startsWith letter.channel "channel:" = true) (h : letter.Links ask.id) :
    raisesAsk env (letter.fact rest at_).data ask.id = .ok true := by
  have hTo : toChannel env (letter.fact rest at_).data = true := hChannel
  have hGet : Dict.get (letter.fact rest at_).data "links" = .arr ((words letter.linksField).map .str) := by
    rw [Dict.get, Letter.fact, if_neg h.nonempty]
    rfl
  have hSome : words letter.linksField ≠ [] := by
    obtain ⟨link, hLink, -⟩ := h
    exact List.ne_nil_of_mem hLink
  have hTruthy : (Value.arr ((words letter.linksField).map .str)).truthy = true := by simp [Value.truthy, hSome]
  have hLinks : links env (letter.fact rest at_).data = .ok (words letter.linksField) := by
    rw [links, hGet, Value.orElse, if_pos hTruthy]
    dsimp only
    rw [elements, if_pos hTruthy, ofWish, Fallible.ok_bind, List.map_map]
    exact congrArg Except.ok (List.map_id _)
  rw [raisesAsk, hTo, if_pos rfl, hLinks, Fallible.ok_bind]
  simpa [Letter.Links] using h

variable {found : Option ℤ}

theorem max_ge {times : List (Option ℤ)} {t : ℤ} (h : times.reduceOption.max? = found) (ht : some t ∈ times) :
    ∃ last, found = some last ∧ t ≤ last := by
  have hIn : t ∈ times.reduceOption := List.reduceOption_mem_iff.mpr ht
  cases found with
  | none =>
      rw [List.max?_eq_none_iff] at h
      rw [h] at hIn
      cases hIn
  | some last => exact ⟨last, rfl, (List.max?_eq_some_iff.mp h).2 t hIn⟩

/-- The last raise is no earlier than that of a letter in the ledger. -/
theorem lastRaise_told {f : Fact} {t : ℤ} (h : lastRaise env facts out ask.id = .ok found) (hf : f ∈ facts)
    (hLetter : f.kind = "letter") (hRaises : raisesAsk env f.data ask.id = .ok true) (hTime : env.stamp f.at_ = some t) :
    ∃ last, found = some last ∧ t ≤ last := by
  obtain ⟨told, hTold, h⟩ := Fallible.peel h
  obtain ⟨sent, -, h⟩ := Fallible.peel h
  obtain ⟨told', hTold', hAt⟩ := Fallible.mapM_mem hTold (List.mem_filter.mpr ⟨hf, by simpa using hLetter⟩)
  have hHere : toldAt env ask.id f = .ok (some t) := by
    rw [toldAt, hRaises, Fallible.ok_bind, if_pos rfl, time, hTime]
    rfl
  obtain rfl := Fallible.same hAt hHere
  exact max_ge (Except.ok.inj h) (List.mem_append_left _ hTold')

/-- Nor than that of a file in the room's port. -/
theorem lastRaise_sent {file : File} {sent : Dict} (h : lastRaise env facts out ask.id = .ok found) (hFile : file ∈ out)
    (hSent : file.sent = some sent) (hRaises : raisesAsk env sent ask.id = .ok true) :
    ∃ last, found = some last ∧ file.mtime ≤ last := by
  obtain ⟨told, -, h⟩ := Fallible.peel h
  obtain ⟨times, hTimes, h⟩ := Fallible.peel h
  obtain ⟨at_, hAt, hRead⟩ := Fallible.mapM_mem hTimes hFile
  have hHere : sentAt env ask.id file = .ok (some file.mtime) := by
    rw [sentAt, hSent]
    dsimp only
    rw [hRaises, Fallible.ok_bind, if_pos rfl]
    rfl
  obtain rfl := Fallible.same hRead hHere
  exact max_ge (Except.ok.inj h) (List.mem_append_right _ hAt)

theorem moveBy_moves {f : Fact} (h : moveBy env ask f ≠ "") : Moves env ask f := by
  unfold moveBy at h
  dsimp only at h
  split at h
  · exact .inl ‹_›
  · split at h
    · exact .inr (.inl ‹_›)
    · split at h
      · exact .inr (.inr ‹_›)
      · cases h rfl

/-- What `move` finds is a fact behind the time that moves the ask. -/
theorem move_ok {since : ℤ} {why : String} (h : move env ask since facts = .ok why) (hWhy : why ≠ "") :
    ∃ f ∈ facts, Moves env ask f ∧ ∃ t ∈ env.stamp f.at_, since < t := by
  induction facts with
  | nil =>
      cases h
      cases hWhy rfl
  | cons f facts ih =>
      obtain ⟨t, hTime, h⟩ := Fallible.peel h
      have hStamp : env.stamp f.at_ = some t := by
        unfold time at hTime
        split at hTime
        · rename_i hSome
          rw [hSome, Except.ok.inj hTime]
        · cases hTime
      split at h
      · obtain ⟨g, hg, hMoves⟩ := ih h
        exact ⟨g, List.mem_cons_of_mem _ hg, hMoves⟩
      · rename_i hHere
        obtain ⟨hAfter, hBy⟩ := not_or.mp hHere
        exact ⟨f, List.mem_cons_self, moveBy_moves hBy, t, hStamp, lt_of_not_ge hAfter⟩

/-- An ask that `refuse` lets pass has not been raised within a day, or it has moved since. -/
theorem refuseAsk_ok {now : ℤ} {last : ℤ} (h : refuseAsk env facts out now ask = .ok ())
    (hLast : lastRaise env facts out ask.id = .ok (some last)) :
    raiseGap ≤ now - last ∨ ∃ why ≠ "", move env ask last facts = .ok why := by
  rw [refuseAsk, hLast, Fallible.ok_bind] at h
  dsimp only at h
  split at h
  · obtain ⟨why, hMove, h⟩ := Fallible.peel h
    split at h
    · cases h
    · exact .inr ⟨why, ‹_›, hMove⟩
  · exact .inl (not_lt.mp ‹_›)

/-- What each run keeps: letters to channels that passed, files and facts of them that are
no older than they are, and a ledger of the past. -/
structure World.Sound (env : Env) (s : World) : Prop where
  passed : ∀ letter ∈ s.passed, startsWith letter.channel "channel:" = true ∧ letter.passed ≤ s.clock
  written : ∀ p ∈ s.written, p.1 ∈ s.passed ∧ p.1.passed ≤ p.2.mtime ∧ ∃ rest, p.2.sent = some (p.1.front rest)
  drained : ∀ p ∈ s.drained, p.1 ∈ s.passed ∧ ∃ rest at_, p.2 = p.1.fact rest at_ ∧ ∃ t ∈ env.stamp at_, p.1.passed ≤ t
  told : ∀ f ∈ s.ledger, ∀ t ∈ env.stamp f.at_, t ≤ s.clock
  daily : s.Daily env

theorem World.Daily.mono (h : s.Daily env) (hPassed : t.passed = s.passed) (hLedger : s.ledger ⊆ t.ledger) : t.Daily env := by
  unfold World.Daily
  rw [hPassed]
  refine h.imp fun hDaily ask hAsk hLinks => ?_
  rcases hDaily ask hAsk hLinks with hDay | ⟨f, hf, hMoves⟩
  · exact .inl hDay
  · exact .inr ⟨f, hLedger hf, hMoves⟩

/-- A letter that a passing check sees passed a day before it, or the ask has moved since. -/
theorem World.Sound.seen {room : String} (hSound : s.Sound env) (hFacts : facts ⊆ s.ledger)
    (hPass : refuseAsk env facts (s.out room) s.clock ask = .ok ()) (hSeen : s.Seen room facts letter)
    (hLinks : letter.Links ask.id) :
    raiseGap ≤ s.clock - letter.passed ∨
      ∃ f ∈ s.ledger, Moves env ask f ∧ ∃ t ∈ env.stamp f.at_, letter.passed ≤ t ∧ t ≤ s.clock := by
  have hPassed : letter ∈ s.passed := by
    rcases hSeen with ⟨fact, -, hDrained⟩ | ⟨file, -, hWritten⟩
    · exact (hSound.drained _ hDrained).1
    · exact (hSound.written _ hWritten).1
  have hChannel := (hSound.passed letter hPassed).1
  obtain ⟨found, hFound⟩ : ∃ found, lastRaise env facts (s.out room) ask.id = .ok found := by
    obtain ⟨found, hFound, -⟩ := Fallible.peel hPass
    exact ⟨found, hFound⟩
  have hLast : ∃ last, found = some last ∧ letter.passed ≤ last := by
    rcases hSeen with ⟨fact, hFact, hDrained⟩ | ⟨file, hFile, hWritten⟩
    · obtain ⟨-, rest, at_, hSame, t, hStamp, hOld⟩ := hSound.drained _ hDrained
      obtain rfl : fact = letter.fact rest at_ := hSame
      obtain ⟨last, hSome, hLe⟩ := lastRaise_told hFound hFact rfl (fact_raises hChannel hLinks) hStamp
      exact ⟨last, hSome, hOld.trans hLe⟩
    · obtain ⟨-, hOld, rest, hSent⟩ := hSound.written _ hWritten
      obtain ⟨last, hSome, hLe⟩ := lastRaise_sent hFound hFile hSent (front_raises hChannel hLinks)
      exact ⟨last, hSome, hOld.trans hLe⟩
  obtain ⟨last, rfl, hOld⟩ := hLast
  rcases refuseAsk_ok hPass hFound with hDay | ⟨why, hWhy, hMove⟩
  · exact .inl (by omega)
  · obtain ⟨f, hf, hMoves, t, hStamp, hAfter⟩ := move_ok hMove hWhy
    exact .inr ⟨f, hFacts hf, hMoves, t, hStamp, by omega, hSound.told f (hFacts hf) t hStamp⟩

/-- A check that lets its letter pass under the condition keeps the law. -/
theorem World.Sound.check {room id channel : String} {expired : String → Bool} {links : List String} {captured : Option String}
    {rows : List Wish} (hSound : s.Sound env) (hClear : Clear env s (.check room facts expired id channel links captured))
    (hFacts : facts ⊆ s.ledger) (hChannel : startsWith channel "channel:" = true)
    (hAsked : asked env expired facts links = .ok rows)
    (hPass : refuse env expired facts (s.out room) links s.clock = .ok ()) :
    World.Sound env { s with passed := ⟨id, room, channel, links, captured, rows, s.clock⟩ :: s.passed } := by
  have hEach : ∀ ask ∈ rows, refuseAsk env facts (s.out room) s.clock ask = .ok () := by
    rw [refuse, hAsked, Fallible.ok_bind] at hPass
    exact Fallible.forM_eq_ok.mp hPass
  refine ⟨?_, ?_, ?_, hSound.told, ?_⟩
  · intro letter hLetter
    rcases List.mem_cons.mp hLetter with rfl | hOld
    · exact ⟨hChannel, le_refl _⟩
    · exact hSound.passed letter hOld
  · intro p hp
    obtain ⟨hPassed, hRest⟩ := hSound.written p hp
    exact ⟨List.mem_cons_of_mem _ hPassed, hRest⟩
  · intro p hp
    obtain ⟨hPassed, hRest⟩ := hSound.drained p hp
    exact ⟨List.mem_cons_of_mem _ hPassed, hRest⟩
  · refine List.pairwise_cons.mpr ⟨fun letter hLetter ask hAsk hLinks => ?_, hSound.daily⟩
    rcases hClear rows hAsked ask hAsk letter hLetter hLinks with hSeen | hDay | ⟨why, hWhy, hMove⟩
    · exact hSound.seen hFacts (hEach ask hAsk) hSeen hLinks
    · exact .inl hDay
    · obtain ⟨f, hf, hMoves, t, hStamp, hAfter⟩ := move_ok hMove hWhy
      exact .inr ⟨f, hFacts hf, hMoves, t, hStamp, hAfter.le, hSound.told f (hFacts hf) t hStamp⟩

theorem World.Sound.step {a : Act} (hSound : s.Sound env) (hClear : Clear env s a) (hStep : s.act env a = some t) :
    t.Sound env := by
  cases a with
  | wait elapsed =>
      cases hStep
      refine ⟨fun letter hLetter => ?_, hSound.written, hSound.drained, fun f hf time hTime => ?_, hSound.daily⟩
      · obtain ⟨hChannel, hOld⟩ := hSound.passed letter hLetter
        exact ⟨hChannel, by dsimp only; omega⟩
      · have hOld := hSound.told f hf time hTime
        dsimp only
        omega
  | record fact =>
      obtain ⟨hPast, hStep⟩ := Option.ite_none_right_eq_some.mp hStep
      cases hStep
      refine ⟨hSound.passed, hSound.written, hSound.drained, fun f hf => ?_,
        hSound.daily.mono rfl (List.subset_append_left _ _)⟩
      rcases List.mem_append.mp hf with hOld | hNew
      · exact hSound.told f hOld
      · obtain rfl := List.mem_singleton.mp hNew
        exact hPast
  | put room file =>
      cases hStep
      exact ⟨hSound.passed, hSound.written, hSound.drained, hSound.told, hSound.daily⟩
  | check room facts expired id channel links captured =>
      obtain ⟨⟨hFacts, hChannel⟩, hStep⟩ := Option.ite_none_right_eq_some.mp hStep
      split at hStep
      · rename_i rows hAsked hPass
        cases hStep
        exact hSound.check hClear hFacts hChannel hAsked hPass
      · cases hStep
        exact hSound
  | write n rest =>
      obtain ⟨letter, hAt, rfl⟩ := Option.map_eq_some_iff.mp hStep
      have hLetter := List.mem_of_getElem? hAt
      refine ⟨hSound.passed, fun p hp => ?_, hSound.drained, hSound.told, hSound.daily⟩
      rcases List.mem_cons.mp hp with rfl | hOld
      · exact ⟨hLetter, (hSound.passed letter hLetter).2, rest, rfl⟩
      · exact hSound.written p hOld
  | drain n rest at_ =>
      obtain ⟨⟨letter, file⟩, hAt, hStep⟩ := Option.bind_eq_some_iff.mp hStep
      obtain ⟨⟨-, hNow⟩, hStep⟩ := Option.ite_none_right_eq_some.mp hStep
      cases hStep
      have hLetter := (hSound.written _ (List.mem_of_getElem? hAt)).1
      refine ⟨hSound.passed, hSound.written, fun p hp => ?_, fun f hf => ?_,
        hSound.daily.mono rfl (List.subset_append_left _ _)⟩
      · rcases List.mem_cons.mp hp with rfl | hOld
        · exact ⟨hLetter, rest, at_, rfl, s.clock, hNow, (hSound.passed letter hLetter).2⟩
        · exact hSound.drained p hOld
      · rcases List.mem_append.mp hf with hOld | hNew
        · exact hSound.told f hOld
        · obtain rfl := List.mem_singleton.mp hNew
          intro time hTime
          exact (Option.mem_unique hNow hTime).ge
  | reject room file =>
      cases hStep
      exact ⟨hSound.passed, hSound.written, hSound.drained, hSound.told, hSound.daily⟩

theorem World.Sound.start : World.start.Sound env where
  passed letter hLetter := by cases hLetter
  written p hp := by cases hp
  drained p hp := by cases hp
  told f hf := by cases hf
  daily := .nil

/-- In each run whose checks see what links their asks, an unmoved ask is raised at most once
a day. -/
theorem raised_daily (h : Machine.Reach (World.act env) (Clear env) World.start s) : s.Daily env := by
  have hSound : s.Sound env := h.invariant (World.Sound env) World.Sound.start fun _ _ _ hSound hClear hStep =>
    hSound.step hClear hStep
  exact hSound.daily

/-- A loom without a checkout, all of whose timestamps are its first microsecond. -/
def earlyEnv : Env where
  host := ⟨fun _ => some 0, fun _ => some 0, fun _ => "", fun _ => none⟩
  checkout := ⟨false, "", fun _ => none, fun _ => false, fun _ => []⟩
  stamp _ := some 0
  alphabet := asciiOnly
  decimal _ := false

/-- An ask of the resident under a wish. -/
def askFact : Fact where
  kind := "wish"
  by_ := "strand:s-a"
  data := [("wish", .str "w-ask"), ("from", .str "resident"), ("line", .str "which?"), ("thread", .str "t"),
    ("parent", .str "w-top")]
  at_ := "0"
  id := "wish:1"
  v := version
  hlc := none
  after := []

/-- A check of a letter of a room that links the ask. -/
def raiseFrom (room : String) : Act :=
  .check room [askFact] (fun _ => false) room "channel:tg" ["w-ask"] none

/-- A check comes a day after each letter that has passed. -/
def aged (s : World) : Act → Bool
  | .check .. => s.passed.all fun letter => raiseGap ≤ s.clock - letter.passed
  | _ => true

theorem aged_clear {a : Act} (h : aged s a = true) : Clear env s a := by
  cases a with
  | check room facts expired id channel links captured =>
      intro rows hRows ask hAsk letter hLetter hLinks
      have hDay := List.all_eq_true.mp h letter hLetter
      exact .inr (.inl (of_decide_eq_true hDay))
  | _ => trivial

/-- An ask that two rooms raise a day apart, the first letter still in its port. -/
theorem raised_daily_apart : ∃ s : World, s.passed.length = 2 ∧ s.Daily earlyEnv := by
  have hRun : (Machine.follow (World.act earlyEnv) (fun s a => aged s a = true) World.start
      [.record askFact, .wait 1, raiseFrom "a", .write 0 [], .wait 86400000000, raiseFrom "b"]).map
        (fun s => s.passed.length) = some 2 := by decide +kernel
  obtain ⟨s, hFollow, hTwo⟩ := Option.map_eq_some_iff.mp hRun
  have hAged := Machine.Reach.refl.follow hFollow
  have hReach : Machine.Reach (World.act earlyEnv) (Clear earlyEnv) World.start s :=
    hAged.invariant (Machine.Reach (World.act earlyEnv) (Clear earlyEnv) World.start) .refl fun _ a _ hReach hOld hStep =>
      .step a hReach (aged_clear hOld) hStep
  exact ⟨s, hTwo, raised_daily hReach⟩

/-- The first letter passed right before the second one, which raises the same ask. -/
def raisedTwice (s : World) : Bool :=
  match s.passed with
  | [later, earlier] => later.passed = earlier.passed && earlier.passed = 1 && later.asks.map (·.id) = [.str "w-ask"] &&
      earlier.links = ["w-ask"] && earlier.captured = none
  | _ => false

theorem raisedTwice_not_daily (h : raisedTwice s = true) : ¬ s.Daily earlyEnv := by
  unfold raisedTwice at h
  split at h
  · rename_i later earlier hPassed
    simp only [Bool.and_eq_true, decide_eq_true_eq] at h
    obtain ⟨⟨⟨⟨hSame, hOne⟩, hAsks⟩, hLinks⟩, hCaptured⟩ := h
    intro hDaily
    rw [World.Daily, hPassed] at hDaily
    obtain ⟨ask, hAsk, hId⟩ : ∃ ask ∈ later.asks, ask.id = .str "w-ask" := by
      have hIn : Value.str "w-ask" ∈ later.asks.map (·.id) := hAsks ▸ List.mem_singleton_self _
      simpa using hIn
    have hLinked : earlier.Links ask.id := by
      rw [hId, Letter.Links, Letter.linksField, hLinks, hCaptured]
      exact ⟨"w-ask", by decide +kernel, rfl⟩
    have hPair := (List.pairwise_cons.mp hDaily).1 earlier (List.mem_singleton_self _) ask hAsk hLinked
    rcases hPair with hDay | ⟨f, -, -, t, ht, hAfter, -⟩
    · rw [hSame, sub_self, raiseGap] at hDay
      omega
    · obtain rfl : 0 = t := Option.some.inj ht
      omega
  · cases h

/-- Two rooms raise one ask within a day: the first letter is still in its room's port when
the second one is checked. -/
theorem other_room_raises : ¬ ∀ s, Machine.Reach (World.act earlyEnv) (fun _ _ => True) World.start s → s.Daily earlyEnv := by
  intro h
  have hRun : (Machine.follow (World.act earlyEnv) (fun _ _ => True) World.start
      [.record askFact, .wait 1, raiseFrom "a", .write 0 [], raiseFrom "b"]).map raisedTwice = some true := by decide +kernel
  obtain ⟨s, hFollow, hTwice⟩ := Option.map_eq_some_iff.mp hRun
  exact raisedTwice_not_daily hTwice (h s (Machine.Reach.refl.follow hFollow))

end Brnrd.Raises
