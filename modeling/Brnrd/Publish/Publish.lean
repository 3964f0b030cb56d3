import Brnrd.Monad.Fallible
import Brnrd.Python.Value
import Mathlib.Data.Finset.Card

/-! The `publish` call of a room: what it reads of the checkout, command by
command, while the room's body goes on moving branches there. -/
namespace Brnrd.Publish

open Python Relation

/-- A commit by its full id. -/
abbrev Commit := String

/-- What the git commands of a publish read of a checkout: its branches and the
commits its `origin` refs are at. -/
structure Checkout where
  heads : String → Option Commit
  origin : List Commit

/-- The body commits to a branch, resets it, moves it or deletes it. -/
def Checkout.Moves (c c' : Checkout) : Prop :=
  ∃ branch tip, c' = { c with heads := Function.update c.heads branch tip }

/-- What git knows of commits. `names` resolves a name that is no branch ref. -/
structure Git where
  names : Checkout → String → Option Commit
  history : Commit → List Commit
  author : Commit → String
  short : Commit → String

structure PublishError where
  text : String
deriving DecidableEq

/-- What the home answers the call: its fence and the strand's label, the thread
pages' `opened-by`, the repos of each seat and the library's sources, the ids that
`check_thread_id` refuses, the path guards of a commit, the home's author, the
lane of a push to a source, and the generation of the strand's lease. -/
structure Home where
  fenced : Bool
  tainted : Bool
  openedBy : List (String × String)
  seats : String → List (String × String)
  library : List (String × String)
  threadError : String → Option String
  violations : Checkout → Commit → List String
  email : String
  lane : String → Except PublishError (String × String)
  gen : Option Int

/-- `_Caller`: the room's strand and thread, and the repo it publishes. -/
structure Caller where
  strand : String
  thread : String
  name : String
  checkout : String

/-- The checkout at each git command of the call, moved by the body in between. -/
structure Interleaving where
  tip : Checkout
  named : Checkout
  guards : Checkout
  authors : Checkout
  push : Checkout
  hNamed : ReflTransGen Checkout.Moves tip named
  hGuards : ReflTransGen Checkout.Moves named guards
  hAuthors : ReflTransGen Checkout.Moves guards authors
  hPush : ReflTransGen Checkout.Moves authors push

structure Published where
  thread : String
  repo : String
  branch : String
  commit : Commit
  lane : String
  note : String
deriving DecidableEq

/-- The data of a `branch.published` fact, and its writer and id. -/
structure PublishedFact where
  writer : String
  ident : String
  thread : String
  repo : String
  branch : String
  commit : Commit
  strand : String
  gen : Option Int
deriving DecidableEq

/-- A push that succeeded: the commit the path guards judged, the commit whose
log was read for its authors, the commit that arrived, and what was recorded. -/
structure Outcome where
  published : Published
  fact : PublishedFact
  guarded : Commit
  authored : Commit
  arrived : Commit
deriving DecidableEq

/-- `_declared`. -/
def declared (home : Home) (thread name : String) : Except PublishError String :=
  match (home.seats thread).lookup name with
  | some source => .ok source
  | none =>
      match home.library.lookup name with
      | some source => .ok source
      | none => .error ⟨"publish: thread " ++ thread ++ "'s seat on main declares no repo named " ++ name ++
          ", and the library has no library/" ++ name ++ ".md with a source; add it with `lib add " ++ name ++
          " <url> --kind known --whose <person> --for <why>` and land it"⟩

/-- `_opener`. -/
def opener (home : Home) (thread : String) : Option String :=
  (home.openedBy.lookup thread).bind fun opened =>
    if startsWith opened "thread:" then some (removePrefix opened "thread:") else none

/-- The loop of `_opened` from the thread it is at. A thread that has no page, or
one seen before, ends it. -/
def openedFrom (home : Home) (own : String) (seen : List String) (current : String) : Bool :=
  if h : current = "" ∨ current ∈ seen ∨ current ∉ home.openedBy.map Prod.fst then false
  else match opener home current with
    | none => false
    | some next => next = own || openedFrom home own (current :: seen) next
termination_by ((home.openedBy.map Prod.fst).toFinset \ seen.toFinset).card
decreasing_by
  simp only [not_or, not_not] at h
  apply Finset.card_lt_card
  rw [Finset.ssubset_iff_of_subset fun thread => by simp; tauto]
  exact ⟨current, Finset.mem_sdiff.mpr ⟨List.mem_toFinset.mpr h.2.2, by simpa using h.2.1⟩, by simp⟩

/-- `_for_worker`: the branch and the source of a worker the caller opened. -/
def forWorker (home : Home) (who : Caller) (worker : String) : Except PublishError (String × String) := do
  match home.threadError worker with
  | some text => throw ⟨"publish: " ++ text⟩
  | none =>
      if worker = who.thread then
        throw ⟨"publish: " ++ worker ++ " is this room's own thread; leave out --from"⟩
      if home.tainted then
        throw ⟨"publish: this strand has read untrusted text, so it cannot push, for itself or for a worker."⟩
      if !openedFrom home who.thread [] worker then
        throw ⟨"publish: thread " ++ who.thread ++ " did not open " ++ worker ++
          "; a worker's branch is published by the thread that opened it"⟩
      let source ← declared home worker who.name
      let own := (declared home who.thread who.name).toOption
      if own ≠ some source then
        throw ⟨"publish: " ++ who.checkout ++ " is not a checkout of " ++ worker ++ "'s " ++ who.name ++ " (" ++
          source ++ "); this thread's seat declares " ++ own.getD "no repo of that name"⟩
      return ("loom/" ++ worker, source)

/-- `_SHA.fullmatch(commit)`. -/
def isSha (commit : String) : Bool :=
  7 ≤ commit.length && commit.length ≤ 64 &&
    commit.toList.all fun c => ('0' ≤ c && c ≤ '9') || ('a' ≤ c && c ≤ 'f')

/-- The log `_other_authors` reads: the commits behind a tip that no `origin` ref holds. -/
def Git.log (git : Git) (c : Checkout) (tip : Commit) : List Commit :=
  (git.history tip).filter fun commit => c.origin.all fun held => decide (commit ∉ git.history held)

/-- `_other_authors` at a tip. -/
def Git.otherAuthors (git : Git) (c : Checkout) (tip : Commit) (email : String) : List String :=
  ((git.log c tip).filter fun commit => git.author commit ≠ email).map fun commit =>
    git.short commit ++ " " ++ git.author commit

/-- The thread, the branch, the source and the commit the call is about, before
any check of the commit. -/
structure Target where
  thread : String
  branch : String
  source : String
  commit : Commit

/-- `publish` up to the path guards. -/
def target (home : Home) (git : Git) (who : Caller) (worker commit : Option String) (run : Interleaving) :
    Except PublishError Target := do
  if home.fenced then
    throw ⟨"publish: this machine lost the inbox lease; a push would go out from here. Land locally."⟩
  match worker with
  | some worker =>
      let (branch, source) ← forWorker home who worker
      match run.tip.heads branch, commit.filter isSha with
      | some tip, some named =>
          if git.names run.named named ≠ some tip then
            throw ⟨"publish: " ++ branch ++ " in this room is at " ++ tip ++ ", not " ++ named ++
              ". Push the commit you read, or fetch again with: publish " ++ who.name ++ " --from " ++ worker⟩
          return ⟨worker, branch, source, tip⟩
      | _, _ =>
          throw ⟨"publish: fetch " ++ branch ++ " and read it before pushing it:\n  publish " ++ who.name ++
            " --from " ++ worker⟩
  | none =>
      let branch := "loom/" ++ who.thread
      if commit.any (· ≠ "") then throw ⟨"publish: --commit goes with --from"⟩
      match run.tip.heads branch with
      | none => throw ⟨"publish: " ++ who.checkout ++ " has no branch " ++ branch⟩
      | some tip =>
          if home.tainted then
            let opened := opener home who.thread
            let to_ := match opened with
              | some thread => if thread ≠ "" then "thread:" ++ thread else "<opener>"
              | none => "<opener>"
            throw ⟨"publish: this strand has read untrusted text, so it cannot push. Commit your work, " ++
              "then send your opener a clean letter that names this checkout:\n  send --to " ++ to_ ++
              " --clean --kind done --ref " ++ who.name ++
              "\nThe opener reads the diff and publishes it with `publish " ++ who.name ++ " --from " ++
              who.thread ++ "`. The branch is " ++ branch ++ " at " ++ tip ++ " in " ++ who.checkout ++ "."⟩
          let source ← declared home who.thread who.name
          return ⟨who.thread, branch, source, tip⟩

/-- What git says to a push of a branch the checkout no longer has. -/
def noBranch (branch : String) : PublishError :=
  ⟨"error: src refspec refs/heads/" ++ branch ++ " does not match any"⟩

/-- `publish`. The push names the branch on both sides, and `receive` is what the
source answers a commit pushed to that branch. -/
def publish (home : Home) (git : Git) (receive : String → String → Commit → Except PublishError Unit) (who : Caller)
    (worker commit : Option String) (run : Interleaving) : Except PublishError Outcome := do
  let target ← target home git who worker commit run
  let broken := home.violations run.guards target.commit
  if broken ≠ [] then
    throw ⟨"publish: a path guard refuses " ++ target.branch ++ " at " ++ target.commit ++ ":\n" ++
      "\n".intercalate broken⟩
  match run.authors.heads target.branch with
  | none => throw (noBranch target.branch)
  | some authored =>
      let others := git.otherAuthors run.authors authored home.email
      if others ≠ [] then
        throw ⟨"publish: " ++ target.branch ++ " carries commits whose author is not " ++ home.email ++ ":\n" ++
          String.join (others.map fun line => "  " ++ line ++ "\n") ++
          "Rewrite them under this home's author, or leave them out."⟩
      let (lane, note) ← home.lane target.source
      match run.push.heads target.branch with
      | none => throw (noBranch target.branch)
      | some arrived =>
          receive target.source target.branch arrived
          return {
            published := ⟨target.thread, who.name, target.branch, target.commit, lane, note⟩
            fact := {
              writer := "strand:" ++ who.strand
              ident := "published:" ++ target.thread ++ ":" ++ who.name ++ ":" ++ target.commit
              thread := target.thread
              repo := who.name
              branch := target.branch
              commit := target.commit
              strand := who.strand
              gen := home.gen }
            guarded := target.commit
            authored := authored
            arrived := arrived }

end Brnrd.Publish

/-! What a successful publish put at the source, against what it checked there. -/
namespace Brnrd.Publish

/-- The branch a call pushes. -/
def branchOf (who : Caller) (worker : Option String) : String :=
  "loom/" ++ worker.getD who.thread

/-- The commit that arrived is the one whose guards and authors were checked, the
one the recorded fact names, and the one the opener named. -/
structure Outcome.Checked (git : Git) (run : Interleaving) (worker commit : Option String) (out : Outcome) : Prop where
  guarded : out.arrived = out.guarded
  authored : out.arrived = out.authored
  recorded : out.fact.commit = out.arrived
  named : worker.isSome → ∀ name, commit = some name → git.names run.named name = some out.arrived

/-- The branch is where it was when its tip was resolved, at the read of its
authors and at the push. -/
def Interleaving.Still (run : Interleaving) (branch : String) : Prop :=
  run.authors.heads branch = run.tip.heads branch ∧ run.push.heads branch = run.tip.heads branch

variable {home : Home} {git : Git} {who : Caller} {worker commit : Option String} {run : Interleaving}

/-- A guard that did not raise was not met. -/
theorem raised_eq_ok {α : Type} {condition : Prop} [Decidable condition] {error : PublishError}
    {rest : Except PublishError α} {f : PUnit → Except PublishError α} {a : α}
    (h : (if condition then throw error >>= f else rest) = .ok a) : ¬condition ∧ rest = .ok a := by
  split at h
  · cases h
  · exact ⟨‹_›, h⟩

theorem forWorker_eq_ok {worker branch source : String} (h : forWorker home who worker = .ok (branch, source)) :
    branch = "loom/" ++ worker := by
  unfold forWorker at h
  split at h
  · cases h
  obtain ⟨-, h⟩ := raised_eq_ok h
  obtain ⟨-, h⟩ := raised_eq_ok h
  obtain ⟨-, h⟩ := raised_eq_ok h
  obtain ⟨found, -, h⟩ := Fallible.peel h
  obtain ⟨-, h⟩ := raised_eq_ok h
  cases h
  rfl

/-- The call is about the tip of its branch, which an opener named. -/
theorem target_eq_ok {t : Target} (h : target home git who worker commit run = .ok t) :
    t.branch = branchOf who worker ∧ run.tip.heads t.branch = some t.commit ∧
      (worker.isSome → ∀ name, commit = some name → git.names run.named name = some t.commit) := by
  unfold target at h
  obtain ⟨-, h⟩ := raised_eq_ok h
  cases worker with
  | some worker =>
      obtain ⟨⟨branch, source⟩, hWorker, h⟩ := Fallible.peel h
      dsimp only at h
      split at h
      · rename_i tip named hTip hNamed
        obtain ⟨hSame, h⟩ := raised_eq_ok h
        cases h
        refine ⟨forWorker_eq_ok hWorker, hTip, fun _ name hName => ?_⟩
        obtain rfl : name = named := by
          rw [hName] at hNamed
          simpa using (Option.filter_eq_some_iff.mp hNamed).1
        exact not_not.mp hSame
      · cases h
  | none =>
      obtain ⟨-, h⟩ := raised_eq_ok h
      split at h
      · cases h
      · rename_i tip hTip
        obtain ⟨-, h⟩ := raised_eq_ok h
        obtain ⟨source, -, h⟩ := Fallible.peel h
        cases h
        exact ⟨rfl, hTip, fun hWorker => by cases hWorker⟩

variable {receive : String → String → Commit → Except PublishError Unit} {out : Outcome}

/-- What a successful publish read at each of its commands. -/
theorem publish_eq_ok (h : publish home git receive who worker commit run = .ok out) :
    ∃ t, target home git who worker commit run = .ok t ∧ out.guarded = t.commit ∧ out.fact.commit = t.commit ∧
      home.violations run.guards t.commit = [] ∧ run.authors.heads t.branch = some out.authored ∧
      git.otherAuthors run.authors out.authored home.email = [] ∧ run.push.heads t.branch = some out.arrived := by
  unfold publish at h
  obtain ⟨t, hTarget, h⟩ := Fallible.peel h
  obtain ⟨hGuards, h⟩ := raised_eq_ok h
  split at h
  · cases h
  rename_i authored hAuthored
  obtain ⟨hAuthors, h⟩ := raised_eq_ok h
  obtain ⟨⟨lane, note⟩, -, h⟩ := Fallible.peel h
  dsimp only at h
  split at h
  · cases h
  rename_i arrived hArrived
  obtain ⟨-, -, h⟩ := Fallible.peel h
  cases h
  exact ⟨t, hTarget, rfl, rfl, not_not.mp hGuards, hAuthored, not_not.mp hAuthors, hArrived⟩

/-- What a publish pushed is what it checked exactly where its branch was still
where the call had found it, at the read of the authors and at the push. -/
theorem publish_checked_iff (h : publish home git receive who worker commit run = .ok out) :
    out.Checked git run worker commit ↔ run.Still (branchOf who worker) := by
  obtain ⟨t, hTarget, hGuarded, hFact, -, hAuthored, -, hArrived⟩ := publish_eq_ok h
  obtain ⟨hBranch, hTip, hNamed⟩ := target_eq_ok hTarget
  rw [hBranch] at hTip hAuthored hArrived
  constructor
  · intro hChecked
    have hCommit : out.arrived = t.commit := hChecked.guarded.trans hGuarded
    exact ⟨by rw [hAuthored, hTip, ← hChecked.authored, hCommit], by rw [hArrived, hTip, hCommit]⟩
  · intro hStill
    have hCommit : out.arrived = t.commit := by
      have hSame := hStill.2
      rw [hArrived, hTip] at hSame
      exact Option.some.inj hSame
    have hRead : out.authored = t.commit := by
      have hSame := hStill.1
      rw [hAuthored, hTip] at hSame
      exact Option.some.inj hSame
    exact ⟨hCommit.trans hGuarded.symm, hCommit.trans hRead.symm, hFact.trans hCommit.symm,
      fun hWorker name hName => hCommit ▸ hNamed hWorker name hName⟩

/-- A home whose one guard refuses the commit `bad`. -/
def guardedHome : Home where
  fenced := false
  tainted := false
  openedBy := []
  seats := fun _ => [("site", "https://forge/site")]
  library := []
  threadError := fun _ => none
  violations := fun _ commit => if commit = "bad" then ["guard site"] else []
  email := "home@loom"
  lane := fun _ => .ok ("token", "")
  gen := some 1

/-- Each commit is its own history, by the home's author. -/
def flatGit : Git where
  names := fun _ name => some name
  history := fun commit => [commit]
  author := fun _ => "home@loom"
  short := id

def siteCaller : Caller :=
  ⟨"t.1", "t", "site", "/rooms/t.1/site"⟩

def siteAt (tip : Commit) : Checkout :=
  ⟨Function.update (fun _ => none) "loom/t" (some tip), []⟩

/-- The body commits `bad` between the read of the authors and the push. -/
def lateCommit : Interleaving where
  tip := siteAt "good"
  named := siteAt "good"
  guards := siteAt "good"
  authors := siteAt "good"
  push := siteAt "bad"
  hNamed := .refl
  hGuards := .refl
  hAuthors := .refl
  hPush := .single ⟨"loom/t", some "bad", by simp [siteAt]⟩

def quietBody : Interleaving where
  tip := siteAt "good"
  named := siteAt "good"
  guards := siteAt "good"
  authors := siteAt "good"
  push := siteAt "good"
  hNamed := .refl
  hGuards := .refl
  hAuthors := .refl
  hPush := .refl

def siteOutcome (arrived : Commit) : Outcome where
  published := ⟨"t", "site", "loom/t", "good", "token", ""⟩
  fact := ⟨"strand:t.1", "published:t:site:good", "t", "site", "loom/t", "good", "t.1", some 1⟩
  guarded := "good"
  authored := "good"
  arrived := arrived

theorem publish_checked_iff_quiet :
    (siteOutcome "good").Checked flatGit quietBody none none ↔ quietBody.Still (branchOf siteCaller none) :=
  publish_checked_iff (by decide +kernel :
    publish guardedHome flatGit (fun _ _ _ => .ok ()) siteCaller none none quietBody = .ok (siteOutcome "good"))

/-- A guarded commit arrives at the source, and the fact names another. -/
theorem publish_pushes_late :
    publish guardedHome flatGit (fun _ _ _ => .ok ()) siteCaller none none lateCommit = .ok (siteOutcome "bad") ∧
      ¬(siteOutcome "bad").Checked flatGit lateCommit none none := by
  refine ⟨by decide +kernel, fun h => ?_⟩
  exact absurd h.guarded (by decide)

end Brnrd.Publish
