import Brnrd.Python.Value

/-! Reading the comments on a repo's pull requests: two lists behind one cursor,
and the reviews of each open pull request. What the server holds may change
between any two reads of a poll. -/
namespace Brnrd.Comments

open Python

/-- `FIRST`, in seconds. -/
def firstLook : Int := 3 * 86400

/-- `OVERLAP`, in seconds. -/
def overlap : Int := 3600

/-- `PAGES`. -/
def pageLimit : Nat := 10

/-- `per_page`. -/
def perPage : Nat := 100

/-- `STANDING`. -/
def standing : List String := ["OWNER", "MEMBER", "COLLABORATOR"]

/-- A comment or a review as GitHub answers it. `number` is what `_NUMBER` finds in
the address of its pull request or issue. -/
structure Raw where
  number : Option Nat
  id : Nat
  login : String
  userType : String
  association : String
  created : Option Int
  submitted : Option Int
  updated : Int
  url : String
  path : Option String
  line : Option Nat
  originalLine : Option Nat
  state : Option String
  body : String
  deriving DecidableEq

inductive Kind where
  | reviewComment
  | comment
  | review
  deriving DecidableEq

structure Row where
  number : Nat
  kind : Kind
  id : Nat
  login : String
  bot : Bool
  standing : Bool
  at_ : Option Int
  url : String
  path : Option String
  line : Option Nat
  state : Option String
  body : String
  deriving DecidableEq

/-- `_row(repo, number, kind, raw)`; `marked` is the search for brnrd's own mark. -/
def Raw.row (marked : String → Bool) (number : Nat) (kind : Kind) (raw : Raw) : Row where
  number := number
  kind := kind
  id := raw.id
  login := raw.login
  bot := raw.userType = "Bot" || marked raw.body
  standing := standing.contains raw.association
  at_ := raw.submitted.orElse fun _ => raw.created
  url := raw.url
  path := raw.path
  line := (raw.line.filter (· ≠ 0)).orElse fun _ => raw.originalLine
  state := raw.state
  body := raw.body

/-- What the repo holds: its review-line comments, its conversation comments, and
the reviews of each pull request. -/
structure Server where
  pulls : List Raw
  issues : List Raw
  reviews : Nat → List Raw

/-- The lists a reader asks for. -/
inductive Source where
  | pulls (since : Int)
  | issues (since : Int)
  | reviews (number : Nat)
  deriving DecidableEq

def Server.listing (server : Server) : Source → List Raw
  | .pulls since => server.pulls.filter fun c => since ≤ c.updated
  | .issues since => server.issues.filter fun c => since ≤ c.updated
  | .reviews number => server.reviews number

/-- The address of one page of a list, its pages counted from 0. -/
structure Url where
  source : Source
  page : Nat
  deriving DecidableEq

/-- How a request is answered: not at all, with 304, or with the page, under an
`ETag` or without one. -/
inductive Answer where
  | fail
  | notModified
  | fresh (tagged : Bool)

/-- `reader.etags`; an `ETag` stands for the page it was given with. -/
abbrev Etags := Url → Option (List Raw)

def pageOf (listing : List Raw) (page : Nat) : List Raw :=
  (listing.drop (perPage * page)).take perPage

/-- `reader.get(url)`: the page and whether it names a next one, `none` where it raises. -/
def get (etags : Etags) (source : Source) (listing : List Raw) (page : Nat) (answer : Answer) :
    Etags × Option (List Raw × Bool) :=
  match answer with
  | .fail => (etags, none)
  | .notModified => (etags, (etags ⟨source, page⟩).map fun body => (body, false))
  | .fresh tagged =>
      let body := pageOf listing page
      (if tagged then Function.update etags ⟨source, page⟩ (some body) else etags,
        some (body, perPage * (page + 1) < listing.length))

/-- The loop of `reader.pages(url)`. -/
def pages (source : Source) (listing : List Raw) (answers : Nat → Answer) :
    Nat → Nat → Etags → Etags × Option (List Raw)
  | 0, _, etags => (etags, some [])
  | fuel + 1, page, etags => match get etags source listing page (answers page) with
      | (etags', none) => (etags', none)
      | (etags', some (body, false)) => (etags', some body)
      | (etags', some (body, true)) => match pages source listing answers fuel (page + 1) etags' with
          | (etags'', none) => (etags'', none)
          | (etags'', some rows) => (etags'', some (body ++ rows))

def Server.read (server : Server) (source : Source) (answers : Nat → Answer) (etags : Etags) :
    Etags × Option (List Raw) :=
  pages source (server.listing source) answers pageLimit 0 etags

/-- A repo's row of the cursor; `floor` is its `from`. -/
structure CursorRow where
  since : Int
  floor : Int
  deriving DecidableEq

/-- `cursor.move(repo, updated)`. -/
def CursorRow.move (row : CursorRow) (updated : List Int) : CursorRow :=
  match updated.max? with
  | some newest => if row.since < newest then { row with since := newest } else row
  | none => row

/-- A poll's arguments: the thread that claimed each pull request, and the open ones. -/
structure Args where
  owners : Nat → Option String
  openPrs : List Nat

/-- `open_prs & set(owners)`. -/
def Args.todo (args : Args) : List Nat :=
  args.openPrs.filter fun number => (args.owners number).isSome

/-- Where a poll stands: before it, behind the first list, and behind both, with the
pull requests whose reviews are still to be read and the rows found. `due` notes the
reviews it has to tell; no step reads it. -/
inductive Phase where
  | idle
  | issues (args : Args) (pulls : List Raw)
  | reviews (args : Args) (todo : List Nat) (found due : List Row)

/-- A row with its `thread`. -/
structure Told where
  row : Row
  thread : String

/-- The server, the reader's cache, the cursor's row in memory and in the file, and
the rows returned so far. `owed` notes the reviews the finished polls had to tell. -/
structure World where
  clock : Int
  server : Server
  etags : Etags
  memory : Option CursorRow
  stored : Option CursorRow
  phase : Phase
  returned : List Told
  owed : List Row

section
variable (marked : String → Bool)

/-- The rows `reader.comments` makes of one list, with their `updated`. -/
def commentRows (kind : Kind) (raws : List Raw) : List (Row × Int) :=
  raws.filterMap fun raw => raw.number.map fun number => (raw.row marked number kind, raw.updated)

/-- The reviews of a pull request that a poll finds. -/
def reviewRows (floor : Int) (number : Nat) (raws : List Raw) : List Row :=
  (raws.map (Raw.row marked number .review)).filter fun row =>
    strip row.body.toList ≠ [] ∧ row.at_.any (floor ≤ ·)

/-- The rows a poll keeps. -/
def keep (owners : Nat → Option String) (found : List Row) : List Told :=
  found.filterMap fun row => (owners row.number).bind fun thread =>
    if !row.bot ∧ row.url ≠ "" then some ⟨row, thread⟩ else none

/-- The row `cursor.since(repo, now)` reads, behind `cursor.load(now)` at a start. -/
def World.cursor (w : World) (now : Int) : CursorRow :=
  match w.memory, w.stored with
  | some row, _ => row
  | none, some row => ⟨row.since - overlap, row.floor⟩
  | none, none => ⟨now - firstLook, now - firstLook⟩

/-- A poll begins and reads the first list. -/
def World.begin (w : World) (args : Args) (now : Int) (answers : Nat → Answer) : World :=
  let row := w.cursor now
  match w.server.read (.pulls row.since) answers w.etags with
  | (etags, some pulls) => { w with etags := etags, memory := some row, phase := .issues args pulls }
  | (etags, none) => { w with etags := etags, memory := some row, phase := .reviews args args.todo [] [] }

/-- It reads the second list and moves the cursor over both. -/
def World.readIssues (w : World) (answers : Nat → Answer) : World :=
  match w.phase, w.memory with
  | .issues args pulls, some row => match w.server.read (.issues row.since) answers w.etags with
      | (etags, some issues) =>
          let rows := commentRows marked .reviewComment pulls ++ commentRows marked .comment issues
          { w with
            etags := etags
            memory := some (row.move (rows.map Prod.snd))
            phase := .reviews args args.todo (rows.map Prod.fst) [] }
      | (etags, none) => { w with etags := etags, phase := .reviews args args.todo [] [] }
  | _, _ => w

/-- It reads the reviews of the next open pull request. -/
def World.readReviews (w : World) (answers : Nat → Answer) : World :=
  match w.phase, w.memory with
  | .reviews args (number :: todo) found due, some row => match w.server.read (.reviews number) answers w.etags with
      | (etags, some raws) =>
          let owed := (reviewRows marked row.floor number (w.server.reviews number)).filter fun r => !r.bot ∧ r.url ≠ ""
          { w with
            etags := etags
            phase := .reviews args todo (found ++ reviewRows marked row.floor number raws) (due ++ owed) }
      | (etags, none) => { w with etags := etags, phase := .reviews args todo found due }
  | _, _ => w

/-- It saves the cursor, where that does not fail, and returns. -/
def World.finish (w : World) (saved : Bool) : World :=
  match w.phase with
  | .reviews args [] found due =>
      { w with
        stored := if saved then w.memory else w.stored
        phase := .idle
        returned := w.returned ++ keep args.owners found
        owed := w.owed ++ due }
  | _ => w

/-- The process starts anew. -/
def World.restart (w : World) : World :=
  { w with etags := fun _ => none, memory := none, phase := .idle }

/-- What can happen next. -/
inductive Step where
  | serve (clock : Int) (server : Server)
  | restart
  | begin (args : Args) (now : Int) (answers : Nat → Answer)
  | issues (answers : Nat → Answer)
  | reviews (answers : Nat → Answer)
  | finish (saved : Bool)

def Step.apply (w : World) : Step → World
  | .serve clock server => { w with clock := clock, server := server }
  | .restart => w.restart
  | .begin args now answers => w.begin args now answers
  | .issues answers => w.readIssues marked answers
  | .reviews answers => w.readReviews marked answers
  | .finish saved => w.finish saved

end

/-- The comments of both lists, each with its kind. -/
def Server.Has (server : Server) (kind : Kind) (c : Raw) : Prop :=
  kind = .reviewComment ∧ c ∈ server.pulls ∨ kind = .comment ∧ c ∈ server.issues

/-- A server that answers in ascending order, with nothing from the future. -/
structure Server.Proper (server : Server) (clock : Int) : Prop where
  pulls : server.pulls.Pairwise fun c d => c.updated ≤ d.updated
  issues : server.issues.Pairwise fun c d => c.updated ≤ d.updated
  past : ∀ kind c, server.Has kind c → c.updated ≤ clock

/-- A page is answered with 304 only where it is the page of the `ETag`. -/
def World.Honest (w : World) (source : Source) (answers : Nat → Answer) : Prop :=
  ∀ page, answers page = .notModified → w.etags ⟨source, page⟩ = some (pageOf (w.server.listing source) page)

/-- A step that can happen to the readers of a repo whose pull request `n` is claimed
throughout. What is new on the server is updated no earlier than its last change. -/
def Step.Real (n : Nat) (w : World) : Step → Prop
  | .serve clock server => w.clock ≤ clock ∧ server.Proper clock ∧
      ∀ kind c, server.Has kind c → w.server.Has kind c ∨ w.clock ≤ c.updated
  | .begin args now answers => w.phase matches .idle ∧ (args.owners n).isSome ∧
      w.Honest (.pulls (w.cursor now).since) answers
  | .issues answers => ∀ row, w.memory = some row → w.Honest (.issues row.since) answers
  | .reviews answers => ∀ args number todo found due, w.phase = .reviews args (number :: todo) found due →
      w.Honest (.reviews number) answers
  | .restart | .finish _ => True

/-- A reader that has read nothing yet. -/
def World.start (clock : Int) (server : Server) : World :=
  ⟨clock, server, fun _ => none, none, none, .idle, [], []⟩

/-- The worlds some run reaches, each step meeting `Cond` where it is taken. -/
inductive World.Reach (marked : String → Bool) (n : Nat) (Cond : World → Step → Prop) : World → Prop where
  | start {clock : Int} {server : Server} (hServer : server.Proper clock) : Reach marked n Cond (.start clock server)
  | step {w : World} (prior : Reach marked n Cond w) (step : Step) (hReal : step.Real n w) (hCond : Cond w step) :
      Reach marked n Cond (step.apply marked w)

end Brnrd.Comments

/-! What a cursor has left behind it: every comment below it has been returned, as
long as no poll gets a comment newer than one it misses. -/
namespace Brnrd.Comments

/-- How many pages a read takes before it stops. -/
def pagesRead (length : Nat) (answers : Nat → Answer) : Nat → Nat → Nat
  | 0, _ => 0
  | fuel + 1, page => match answers page with
      | .fresh _ => if perPage * (page + 1) < length then pagesRead length answers fuel (page + 1) + 1 else 1
      | _ => 1

/-- The part of a list that a read with these answers gets to. -/
def readTo (listing : List Raw) (answers : Nat → Answer) : Nat :=
  perPage * pagesRead listing.length answers pageLimit 0

/-- The answers a read asks for are no failures. -/
def Lands (listing : List Raw) (answers : Nat → Answer) : Prop :=
  ∀ page < pagesRead listing.length answers pageLimit 0, answers page ≠ .fail

theorem take_pages (listing : List Raw) (page count : Nat) :
    (listing.drop (perPage * page)).take (perPage * (count + 1)) =
      pageOf listing page ++ (listing.drop (perPage * (page + 1))).take (perPage * count) := by
  rw [pageOf, Nat.mul_succ perPage count, Nat.add_comm, List.take_add, List.drop_drop, ← Nat.mul_succ]

/-- The loop's spec: from page `page` on, the pages it takes, none of them a failure. -/
theorem pages_eq {source : Source} {listing : List Raw} {answers : Nat → Answer} (fuel page : Nat) {etags : Etags}
    (hHonest : ∀ p ≥ page, answers p = .notModified → etags ⟨source, p⟩ = some (pageOf listing p))
    {rows : List Raw} (h : (pages source listing answers fuel page etags).2 = some rows) :
    rows = (listing.drop (perPage * page)).take (perPage * pagesRead listing.length answers fuel page) ∧
      ∀ p, page ≤ p → p < page + pagesRead listing.length answers fuel page → answers p ≠ .fail := by
  induction fuel generalizing page etags rows with
  | zero =>
      obtain rfl : [] = rows := Option.some.inj h
      exact ⟨rfl, fun p hLow hHigh => absurd hHigh (not_lt.mpr hLow)⟩
  | succ fuel ih =>
      have hOne : ∀ p, page ≤ p → p < page + 1 → p = page := fun p hLow hHigh => by omega
      have hPage : pageOf listing page = (listing.drop (perPage * page)).take (perPage * 1) := by
        rw [pageOf, Nat.mul_one]
      cases hAnswer : answers page with
      | fail => simp [pages, get, hAnswer] at h
      | notModified =>
          simp only [pages, get, hAnswer, hHonest page le_rfl hAnswer] at h
          obtain rfl : pageOf listing page = rows := Option.some.inj h
          refine ⟨by simpa [pagesRead, hAnswer] using hPage, fun p hLow hHigh => ?_⟩
          rw [hOne p hLow (by simpa [pagesRead, hAnswer] using hHigh), hAnswer]
          nofun
      | fresh tagged =>
          simp only [pages, get, hAnswer] at h
          by_cases hMore : perPage * (page + 1) < listing.length
          · generalize hEtags : (if tagged = true then Function.update etags ⟨source, page⟩ (some (pageOf listing page))
              else etags) = etags' at h
            have hLater : ∀ p ≥ page + 1, answers p = .notModified → etags' ⟨source, p⟩ = some (pageOf listing p) := by
              intro p hp hNot
              rw [← hHonest p (by omega) hNot, ← hEtags]
              split
              · rw [Function.update_of_ne]
                simp only [ne_eq, Url.mk.injEq, true_and]
                omega
              · rfl
            simp only [hMore, decide_true] at h
            split at h
            · cases h
            · rename_i etags'' rest hRest
              obtain rfl := Option.some.inj h
              obtain ⟨hRows, hFine⟩ := ih (page + 1) hLater (congrArg Prod.snd hRest)
              simp only [pagesRead, hAnswer, hMore, if_true]
              refine ⟨by rw [take_pages, hRows], fun p hLow hHigh => ?_⟩
              by_cases hp : p = page
              · rw [hp, hAnswer]
                nofun
              · exact hFine p (by omega) (by omega)
          · simp only [hMore, decide_false] at h
            obtain rfl : pageOf listing page = rows := Option.some.inj h
            refine ⟨by simpa [pagesRead, hAnswer, hMore] using hPage, fun p hLow hHigh => ?_⟩
            rw [hOne p hLow (by simpa [pagesRead, hAnswer, hMore] using hHigh), hAnswer]
            nofun

/-- A read that lands gets the first part of its list. -/
theorem read_eq {w : World} {source : Source} {answers : Nat → Answer} (hHonest : w.Honest source answers)
    {rows : List Raw} (h : (w.server.read source answers w.etags).2 = some rows) :
    rows = (w.server.listing source).take (readTo (w.server.listing source) answers) ∧
      Lands (w.server.listing source) answers := by
  obtain ⟨hRows, hFine⟩ := pages_eq pageLimit 0 (fun p _ => hHonest p) h
  exact ⟨hRows, fun page hPage => hFine page (Nat.zero_le _) (by omega)⟩

/-- A comment on pull request `n` by a person, with an address. -/
def Wanted (marked : String → Bool) (n : Nat) (c : Raw) : Prop :=
  c.number = some n ∧ c.userType ≠ "Bot" ∧ marked c.body = false ∧ c.url ≠ ""

/-- The condition on a step. Where the cursor moves, no comment on the pull request
that the poll misses, behind the end of a read or newly come between the two, is
older than one it gets; and the reviews of a pull request are read to their end. -/
def Step.Meets (marked : String → Bool) (n : Nat) (w : World) : Step → Prop
  | .issues answers => ∀ args pulls row, w.phase = .issues args pulls → w.memory = some row →
      let listing := w.server.listing (.issues row.since)
      Lands listing answers → ∀ c, Wanted marked n c →
        (c ∈ w.server.listing (.pulls row.since) ∧ c ∉ pulls ∨ c ∈ listing.drop (readTo listing answers)) →
        ∀ d ∈ pulls ++ listing.take (readTo listing answers), d.number.isSome → d.updated ≤ c.updated
  | .reviews answers => ∀ args number todo found due, w.phase = .reviews args (number :: todo) found due →
      (w.server.reviews number).length ≤ readTo (w.server.reviews number) answers
  | _ => True

def World.Returned (w : World) (row : Row) : Prop :=
  ∃ thread, ⟨row, thread⟩ ∈ w.returned

/-- Every comment on pull request `n` between the floor and the cursor is told. -/
def Covered (marked : String → Bool) (n : Nat) (server : Server) (row : CursorRow) (told : Row → Prop) : Prop :=
  ∀ kind c, server.Has kind c → Wanted marked n c → row.floor ≤ c.updated → c.updated < row.since →
    told (c.row marked n kind)

/-- What the poll under way has found. -/
def Phase.found : Phase → List Row
  | .reviews _ _ found _ => found
  | _ => []

structure Phase.Holds (n : Nat) (w : World) (args : Args) : Prop where
  claimed : (args.owners n).isSome
  memory : w.memory.isSome

/-- What every step keeps. -/
structure World.Holds (marked : String → Bool) (n : Nat) (w : World) : Prop where
  past : ∀ kind c, w.server.Has kind c → c.updated ≤ w.clock
  bounded : ∀ row, w.memory = some row ∨ w.stored = some row → row.since ≤ max w.clock row.floor
  memory : ∀ row, w.memory = some row → Covered marked n w.server row fun r => w.Returned r ∨ r ∈ w.phase.found
  stored : ∀ row, w.stored = some row → Covered marked n w.server row w.Returned
  between : ∀ args pulls, w.phase = .issues args pulls → Phase.Holds n w args ∧ ∀ c ∈ pulls, c.updated ≤ w.clock
  reading : ∀ args todo found due, w.phase = .reviews args todo found due → Phase.Holds n w args ∧
    (∀ number ∈ todo, (args.owners number).isSome) ∧
    ∀ r ∈ due, r ∈ found ∧ (args.owners r.number).isSome ∧ r.bot = false ∧ r.url ≠ ""
  owed : ∀ r ∈ w.owed, w.Returned r

variable {marked : String → Bool} {n : Nat}

variable {server : Server}

theorem Covered.mono {row : CursorRow} {told told' : Row → Prop} (h : Covered marked n server row told)
    (hMono : ∀ r, told r → told' r) : Covered marked n server row told' :=
  fun kind c hc hWanted hLow hHigh => hMono _ (h kind c hc hWanted hLow hHigh)

/-- What is new on the server is not below the cursor. -/
theorem Covered.serve {server' : Server} {clock : Int} {row : CursorRow} {told : Row → Prop}
    (h : Covered marked n server row told) (hBound : row.since ≤ max clock row.floor)
    (hNew : ∀ kind c, server'.Has kind c → server.Has kind c ∨ clock ≤ c.updated) :
    Covered marked n server' row told := by
  intro kind c hc hWanted hLow hHigh
  rcases hNew kind c hc with hOld | hLate
  · exact h kind c hOld hWanted hLow hHigh
  · rcases le_max_iff.mp hBound with hClock | hFloor
    · omega
    · omega

theorem World.start_holds {clock : Int} (h : server.Proper clock) :
    (World.start clock server).Holds marked n where
  past := h.past
  bounded := by rintro row (h | h) <;> cases h
  memory := by rintro row h; cases h
  stored := by rintro row h; cases h
  between := by rintro args pulls h; cases h
  reading := by rintro args todo found due h; cases h
  owed := by simp [World.start]

theorem World.Holds.serve {w : World} (h : w.Holds marked n) {clock : Int} (hClock : w.clock ≤ clock)
    (hProper : server.Proper clock) (hNew : ∀ kind c, server.Has kind c → w.server.Has kind c ∨ w.clock ≤ c.updated) :
    World.Holds marked n { w with clock := clock, server := server } where
  past := hProper.past
  bounded := fun row hRow => (h.bounded row hRow).trans (max_le_max hClock le_rfl)
  memory := fun row hRow => (h.memory row hRow).serve (h.bounded row (.inl hRow)) hNew
  stored := fun row hRow => (h.stored row hRow).serve (h.bounded row (.inr hRow)) hNew
  between := fun args pulls hPhase => by
    obtain ⟨⟨hClaimed, hMemory⟩, hPast⟩ := h.between args pulls hPhase
    exact ⟨⟨hClaimed, hMemory⟩, fun c hc => (hPast c hc).trans hClock⟩
  reading := fun args todo found due hPhase => by
    obtain ⟨⟨hClaimed, hMemory⟩, hRest⟩ := h.reading args todo found due hPhase
    exact ⟨⟨hClaimed, hMemory⟩, hRest⟩
  owed := h.owed

theorem World.Holds.restart {w : World} (h : w.Holds marked n) : w.restart.Holds marked n where
  past := h.past
  bounded := by
    rintro row (hRow | hRow)
    · cases hRow
    · exact h.bounded row (.inr hRow)
  memory := by rintro row hRow; cases hRow
  stored := h.stored
  between := by rintro args pulls hPhase; cases hPhase
  reading := by rintro args todo found due hPhase; cases hPhase
  owed := h.owed

end Brnrd.Comments
