import Brnrd.Machine.Reach
import Brnrd.Python.Value

/-! The mirror of the home's own repository: what it asks the forge, what it keeps of the
answer, and what goes out to the origin. -/
namespace Brnrd.Mirrors

open Python

/-- The parts of `urlsplit` that are read; reading the port may raise. -/
structure Parts where
  scheme : String
  hostname : Option String
  port : Except String (Option ℕ)

/-- `urlsplit`, `none` where it raises, and `str.lower`; no result depends on which functions
these are. -/
structure Calls where
  urlsplit : String → Option Parts
  lower : String → String

/-- `EVERY`. -/
def every : ℚ := 30

/-- What git says of `self`: whether it is a checkout at all, its `origin`, the commits of
`main` and of `origin/main`, and whether the second is an ancestor of the first. -/
structure Checkout where
  exists_ : Bool
  origin : String
  main : String
  seen : String
  isAncestor : Bool

def stripped (text : String) : String :=
  String.ofList (strip text.toList)

/-- `pending(self_dir)`. -/
def pending (self_dir : Checkout) : Option (String × String) :=
  let url := stripped self_dir.origin
  let head := stripped self_dir.main
  let seen := stripped self_dir.seen
  if url = "" || head = "" then none
  else if seen = head then none
  else if seen != "" && !self_dir.isAncestor then none
  else some (url, head)

/-- What comes of the request: a body, an HTTP error with the two headers that tell a limit,
or another exception. -/
inductive Reply where
  | body (json : Value)
  | http (code : ℕ) (remaining retryAfter : Option String)
  | failed

/-- The part of `is_private` in its `try`. -/
def Reply.answer : Reply → Option Bool
  | .body (.obj fields) => some (Dict.get fields "private" = .bool true)
  | .body _ => none
  | .http code remaining retryAfter =>
      let limited := remaining = some "0" || retryAfter.isSome
      if code = 404 || code = 403 && !limited then some false else none
  | .failed => none

/-- `is_private(url, forge_token)`; `urlsplit` stands before its `try`. -/
def is_private (calls : Calls) (url : String) (reply : Reply) : Except String (Option Bool) :=
  match calls.urlsplit url with
  | none => .error "ValueError"
  | some parts => .ok (if parts.scheme ≠ "https" || parts.hostname ≠ some "github.com" then some false else reply.answer)

/-- `_is_local`, and the test of `_attempt`. -/
def isLocal (source : String) : Bool :=
  startsWith source "/" || startsWith source "file://"

/-- The answer of a local path, or the forge's. -/
def ask (calls : Calls) (url : String) (reply : Reply) : Except String (Option Bool) :=
  if isLocal url then .ok (some true) else is_private calls url reply

/-- A push, as a worker was given it. -/
structure Push where
  url : String
  sha : String
  token : String

/-- `Mirror`; a worker that has come to its end is none. -/
structure Mirror where
  checked : Option ℚ
  worker : Option Push
  failing : Option String
  private_ : Option Bool
  asking : Bool

/-- What happens: an answer to the question whether a URL is private, a line of the log, and a
push by git. -/
inductive Event where
  | answered (url : String) (isPrivate : Bool)
  | logged (text : String)
  | pushed (url sha : String)
  deriving DecidableEq

structure World where
  mirror : Mirror
  events : List Event

/-- `Mirror(home, log)`. -/
def World.start : World :=
  ⟨⟨none, none, none, none, false⟩, []⟩

/-- A token is set, no worker is alive, and the last look is `EVERY` ago. -/
def due (m : Mirror) (token : String) (now : ℚ) : Bool :=
  token != "" && m.worker.isNone && !m.checked.any fun checked => now - checked < every

/-- What a due attempt finds to push. -/
def findPending (self_dir : Checkout) : Option (String × String) :=
  if self_dir.exists_ then pending self_dir else none

def askedLog : String :=
  "mirror: could not ask the forge whether origin is private; will retry"

def publicLog : String :=
  "mirror: origin is not private; not mirroring"

/-- A silence is not kept: the next step asks again. -/
def World.unanswered (w : World) : World where
  mirror := { w.mirror with asking := true, checked := none }
  events := if w.mirror.asking then w.events else w.events ++ [.logged askedLog]

def World.answered (w : World) (url : String) (answer : Bool) : World where
  mirror := { w.mirror with asking := false, private_ := some answer }
  events := w.events ++ .answered url answer :: if answer then [] else [.logged publicLog]

/-- The end of `_attempt`. -/
def World.launch (w : World) (push : Push) : World :=
  if w.mirror.private_ = some true then { w with mirror := { w.mirror with worker := some push } } else w

/-- `_attempt(config)`, with what it raises. -/
def World.attempt (calls : Calls) (w : World) (token : String) (now : ℚ) (self_dir : Checkout) (reply : Reply) :
    World × Option String :=
  if due w.mirror token now then
    let w := { w with mirror := { w.mirror with checked := some now } }
    match findPending self_dir with
    | none => (w, none)
    | some (url, sha) =>
        if w.mirror.private_ = none then
          match ask calls url reply with
          | .error e => (w, some e)
          | .ok none => (w.unanswered, none)
          | .ok (some answer) => ((w.answered url answer).launch ⟨url, sha, token⟩, none)
        else (w.launch ⟨url, sha, token⟩, none)
  else (w, none)

/-- `step(config)`: the last push failure is raised again. -/
def World.step (calls : Calls) (w : World) (token : String) (now : ℚ) (self_dir : Checkout) (reply : Reply) :
    World × Option String :=
  match w.attempt calls token now self_dir reply with
  | (w, some e) => (w, some e)
  | (w, none) => (w, if token = "" then none else w.mirror.failing)

/-- `remote_command(source, tail, forge_token)`, as far as it refuses: the secret is what
`resolve_secret` makes of the token. -/
def refusal (calls : Calls) (push : Push) (secret : Except String Unit) : Option String :=
  if isLocal push.url then none
  else match calls.urlsplit push.url with
    | none => some "ValueError"
    | some parts =>
        if parts.scheme ≠ "https" || parts.hostname.getD "" = "" then
          some ("publish: the home's token is only sent over https, and this repo's source is " ++ push.url ++
            ". Pushing it would go out under this machine's own keys. Declare the https URL in the seat's repo: line.")
        else match secret, parts.port with
          | .ok (), .ok _ => none
          | .ok (), .error e => some e
          | .error e, _ => some ("publish: forge_token " ++ push.token ++ ": " ++ e)

/-- What comes of the command and of `update-ref` after it. -/
inductive Outcome where
  | exit (code : ℤ) (stderr stdout : String) (moved : Except String Unit)
  | raised (text : String)

/-- The text of a push that git refuses. -/
def refused (calls : Calls) (stderr stdout : String) : String :=
  let said := if stripped stderr = "" then stripped stdout else stripped stderr
  let text := if said = "" then "push failed" else said
  let low := (calls.lower text).toList
  if ["non-fast-forward", "fetch first", "[rejected]"].any fun part => decide (part.toList <:+: low) then
    "remote diverged from self main; mirror paused"
  else String.ofList (text.toList.drop (text.toList.length - 400))

/-- How `push` ends once git has run, `none` where nothing is raised. -/
def Outcome.failing (calls : Calls) : Outcome → Option String
  | .exit 0 _ _ (.ok ()) => none
  | .exit 0 _ _ (.error e) => some e
  | .exit _ stderr stdout _ => some (refused calls stderr stdout)
  | .raised text => some text

/-- `_push`, by the worker that is alive. -/
def World.push (calls : Calls) (w : World) (secret : Except String Unit) (outcome : Outcome) : Option World :=
  w.mirror.worker.map fun push =>
    match refusal calls push secret with
    | some e => { w with mirror := { w.mirror with worker := none, failing := some e } }
    | none =>
        { mirror := { w.mirror with worker := none, failing := outcome.failing calls }
          events := w.events ++ [.pushed push.url push.sha] }

/-- The steps of the loop, whose origin, token and forge may be others each time, and the end
of a worker. -/
inductive Action where
  | step (token : String) (now : ℚ) (self_dir : Checkout) (reply : Reply)
  | push (secret : Except String Unit) (outcome : Outcome)

def next (calls : Calls) (w : World) : Action → Option World
  | .step token now self_dir reply => some (w.step calls token now self_dir reply).1
  | .push secret outcome => w.push calls secret outcome

end Brnrd.Mirrors

/-! Where the mirror pushes to, against what it was told of the URL: over every run of its
steps, whatever becomes of the origin and of the forge between them. -/
namespace Brnrd.Mirrors

/-- Each push goes to a URL that was answered private before it, and was not answered not
private. -/
def Safe (events : List Event) : Prop :=
  ∀ before url sha after, events = before ++ .pushed url sha :: after →
    .answered url true ∈ before ∧ .answered url false ∉ before

/-- The URL that an answer is about. -/
def Event.about : Event → Option String
  | .answered url _ => some url
  | _ => none

/-- The URL that the kept answer is about. -/
def World.about (w : World) : Option String :=
  w.events.findSome? Event.about

/-- A push to the URL may get to git: it is local, or an `https` one. -/
def Sendable (calls : Calls) (url : String) : Prop :=
  isLocal url = true ∨ ∃ parts ∈ calls.urlsplit url, parts.scheme = "https" ∧ parts.hostname.getD "" ≠ ""

/-- A step that is due while a private answer is kept finds the origin that the answer is
about, or one that no push gets to. -/
def Unmoved (calls : Calls) (w : World) : Action → Prop
  | .step token now self_dir _ => due w.mirror token now = true → w.mirror.private_ = some true →
      ∀ found ∈ findPending self_dir, Sendable calls found.1 → w.about = some found.1
  | .push _ _ => True

/-- At most one URL was answered; the answer is kept, and a push that has begun is to it. -/
structure World.Sound (calls : Calls) (w : World) : Prop where
  unasked : w.mirror.private_ = none → ∀ url answer, .answered url answer ∉ w.events
  kept : ∀ answer, w.mirror.private_ = some answer → ∃ url, w.about = some url ∧
    ∀ other given, .answered other given ∈ w.events ↔ other = url ∧ given = answer
  worker : ∀ push, w.mirror.worker = some push → Sendable calls push.url →
    w.mirror.private_ = some true ∧ w.about = some push.url
  safe : Safe w.events

variable {calls : Calls} {w w' : World} {token : String} {now : ℚ} {self_dir : Checkout} {reply : Reply} {events : List Event}

theorem World.Sound.start : World.start.Sound calls where
  unasked := fun _ _ _ => List.not_mem_nil
  kept := nofun
  worker := nofun
  safe := fun before url sha after h => absurd (congrArg List.length h) (by simp [World.start])

/-- What comes after the pushes so far makes none of them unsafe. -/
theorem Safe.append (h : Safe events) {more : List Event}
    (hMore : ∀ before url sha after, more = before ++ .pushed url sha :: after →
      .answered url true ∈ events ++ before ∧ .answered url false ∉ events ++ before) : Safe (events ++ more) := by
  intro before url sha after hSplit
  rcases List.append_eq_append_iff.mp hSplit with ⟨first, rfl, hRest⟩ | ⟨rest, rfl, hRest⟩
  · exact hMore first url sha after hRest
  · cases rest with
    | nil => simpa using hMore [] url sha after (by simpa using hRest.symm)
    | cons event rest =>
        obtain ⟨rfl, -⟩ := List.cons.inj hRest
        exact h before url sha rest rfl

theorem Safe.quiet (h : Safe events) {more : List Event} (hMore : ∀ url sha, .pushed url sha ∉ more) : Safe (events ++ more) :=
  h.append fun _ url sha _ hSplit => (hMore url sha (hSplit ▸ List.mem_append_right _ List.mem_cons_self)).elim

/-- A step that leaves the answer, the worker and the events as they are. -/
theorem World.Sound.same (h : w.Sound calls) (hPrivate : w'.mirror.private_ = w.mirror.private_)
    (hWorker : w'.mirror.worker = w.mirror.worker) (hEvents : w'.events = w.events) : w'.Sound calls where
  unasked := by
    rw [hPrivate, hEvents]
    exact h.unasked
  kept := by
    rw [hPrivate, World.about, hEvents]
    exact h.kept
  worker := by
    rw [hPrivate, hWorker, World.about, hEvents]
    exact h.worker
  safe := hEvents ▸ h.safe

/-- An event that is no answer tells nothing about a URL. -/
theorem about_append {event : Event} (hEvents : w'.events = w.events ++ [event]) (hAbout : event.about = none) :
    w'.about = w.about ∧ ∀ url answer, .answered url answer ∈ w'.events ↔ .answered url answer ∈ w.events := by
  constructor
  · rw [World.about, hEvents, List.findSome?_append, List.findSome?_singleton, hAbout, Option.or_none]
    rfl
  · intro url answer
    rw [hEvents, List.mem_append, List.mem_singleton, or_iff_left]
    rintro rfl
    cases hAbout

theorem World.Sound.unanswered (h : w.Sound calls) : w.unanswered.Sound calls := by
  cases hAsking : w.mirror.asking with
  | true => exact h.same rfl rfl (by simp [World.unanswered, hAsking])
  | false =>
      have hEvents : w.unanswered.events = w.events ++ [.logged askedLog] := by simp [World.unanswered, hAsking]
      obtain ⟨hAbout, hAnswers⟩ := about_append hEvents rfl
      constructor
      · simp only [hAnswers]
        exact h.unasked
      · simp only [hAbout, hAnswers]
        exact h.kept
      · simp only [hAbout]
        exact h.worker
      · exact hEvents ▸ h.safe.quiet (by simp)

theorem World.Sound.answered (h : w.Sound calls) (hNone : w.mirror.private_ = none) (hIdle : w.mirror.worker = none)
    (url : String) (answer : Bool) : (w.answered url answer).Sound calls ∧ (w.answered url answer).about = some url := by
  have hNot := h.unasked hNone
  have hAbout : (w.answered url answer).about = some url := by
    have hBefore : w.events.findSome? Event.about = none := by
      rw [List.findSome?_eq_none_iff]
      intro event hEvent
      cases event with
      | answered other given => exact (hNot other given hEvent).elim
      | logged text => rfl
      | pushed other sha => rfl
    rw [World.about, World.answered, List.findSome?_append, hBefore]
    rfl
  refine ⟨⟨nofun, fun given hGiven => ⟨url, hAbout, fun other told => ?_⟩, fun push hPush => ?_, ?_⟩, hAbout⟩
  · obtain rfl := Option.some.inj hGiven
    have hLog : Event.answered other told ∉ if answer then [] else [Event.logged publicLog] := by split <;> simp
    rw [World.answered, List.mem_append, List.mem_cons, or_iff_right (hNot other told), or_iff_left hLog, Event.answered.injEq]
  · rw [show (w.answered url answer).mirror.worker = w.mirror.worker from rfl, hIdle] at hPush
    cases hPush
  · refine h.safe.quiet fun other sha => ?_
    split <;> simp

theorem World.Sound.launch (h : w.Sound calls) {push : Push}
    (hPush : w.mirror.private_ = some true → Sendable calls push.url → w.about = some push.url) :
    (w.launch push).Sound calls := by
  unfold World.launch
  split
  · rename_i hPrivate
    refine ⟨h.unasked, h.kept, fun given hGiven hSend => ?_, h.safe⟩
    obtain rfl := Option.some.inj hGiven
    exact ⟨hPrivate, hPush hPrivate hSend⟩
  · exact h

theorem World.Sound.attempt (h : w.Sound calls) (hUnmoved : Unmoved calls w (.step token now self_dir reply)) :
    (w.attempt calls token now self_dir reply).1.Sound calls := by
  unfold World.attempt
  split
  swap
  · exact h
  rename_i hDue
  have hChecked : World.Sound calls { w with mirror := { w.mirror with checked := some now } } := h.same rfl rfl rfl
  have hIdle : w.mirror.worker = none := by
    rw [due, Bool.and_eq_true, Bool.and_eq_true] at hDue
    exact Option.isNone_iff_eq_none.mp hDue.1.2
  dsimp only
  cases hFound : findPending self_dir with
  | none => exact hChecked
  | some found =>
      dsimp only
      split
      · rename_i hNone
        rcases ask calls found.1 reply with e | answer
        · exact hChecked
        · cases answer with
          | none => exact hChecked.unanswered
          | some answer =>
              obtain ⟨hAnswered, hAbout⟩ := hChecked.answered hNone hIdle found.1 answer
              exact hAnswered.launch fun _ _ => hAbout
      · exact hChecked.launch fun hPrivate hSend => hUnmoved hDue hPrivate found hFound hSend

theorem sendable_of_refusal {push : Push} {secret : Except String Unit} (h : refusal calls push secret = none) :
    Sendable calls push.url := by
  unfold refusal at h
  split at h
  · exact .inl ‹_›
  · split at h
    · cases h
    · rename_i parts hParts
      split at h
      · cases h
      · rename_i hHttps
        simp only [Bool.or_eq_true, decide_eq_true_eq, not_or, not_not] at hHttps
        exact .inr ⟨parts, hParts, hHttps⟩

theorem World.Sound.push (h : w.Sound calls) {secret : Except String Unit} {outcome : Outcome}
    (hPush : w.push calls secret outcome = some w') : w'.Sound calls := by
  obtain ⟨push, hWorker, rfl⟩ := Option.map_eq_some_iff.mp hPush
  cases hRefusal : refusal calls push secret with
  | some e => exact ⟨h.unasked, h.kept, nofun, h.safe⟩
  | none =>
      obtain ⟨hPrivate, hUrl⟩ := h.worker push hWorker (sendable_of_refusal hRefusal)
      obtain ⟨url, hAbout, hAnswers⟩ := h.kept true hPrivate
      obtain rfl := Option.mem_unique hAbout hUrl
      dsimp only
      obtain ⟨hSame, hEvents⟩ := @about_append w
        { mirror := { w.mirror with worker := none, failing := outcome.failing calls }
          events := w.events ++ [.pushed push.url push.sha] } _ rfl rfl
      refine ⟨fun hNone => absurd (hNone.symm.trans hPrivate) nofun, ?_, nofun, h.safe.append ?_⟩
      · simpa only [hSame, hEvents] using h.kept
      · rintro (_ | ⟨first, before⟩) url sha after hSplit
        · obtain ⟨rfl, rfl⟩ := Event.pushed.inj (List.cons.inj hSplit).1
          rw [List.append_nil, hAnswers, hAnswers]
          exact ⟨⟨rfl, rfl⟩, nofun⟩
        · exact absurd (List.cons.inj hSplit).2 (by simp)

theorem step_fst : (w.step calls token now self_dir reply).1 = (w.attempt calls token now self_dir reply).1 := by
  unfold World.step
  rcases w.attempt calls token now self_dir reply with ⟨after, _ | e⟩ <;> rfl

theorem World.Sound.next (h : w.Sound calls) {action : Action} (hUnmoved : Unmoved calls w action)
    (hNext : next calls w action = some w') : w'.Sound calls := by
  cases action with
  | step token now self_dir reply =>
      obtain rfl := Option.some.inj hNext
      rw [step_fst]
      exact h.attempt hUnmoved
  | push secret outcome => exact h.push hNext

/-- Over every run whose due steps find the origin that the kept answer is about, each push
goes to a URL that was answered private before it, and never not private. -/
theorem pushes_private (h : Machine.Reach (next calls) (Unmoved calls) .start w) : Safe w.events :=
  (h.invariant (World.Sound calls) .start fun _ _ _ hSound hUnmoved hNext => hSound.next hUnmoved hNext).safe

instance (url : String) : Decidable (Sendable calls url) :=
  inferInstanceAs (Decidable (_ ∨ ∃ parts ∈ calls.urlsplit url, _))

instance (action : Action) : Decidable (Unmoved calls w action) := by
  cases action with
  | step token now self_dir reply =>
      exact inferInstanceAs (Decidable (_ → _ → ∀ found ∈ findPending self_dir, _))
  | push secret outcome => exact instDecidableTrue

/-- Two repositories of the forge. -/
def forgeCalls : Calls where
  urlsplit url :=
    if url = "https://github.com/o/home" || url = "https://github.com/o/site" then
      some ⟨"https", some "github.com", .ok none⟩
    else none
  lower := id

/-- A commit on `main` that the origin lacks. -/
def ahead (origin : String) : Checkout :=
  ⟨true, origin, "c2", "c1", true⟩

/-- A step at the origin, which the forge calls private when it is asked, and the push that
the step begins. -/
def pushTo (origin : String) (now : ℚ) : List Action :=
  [.step "file: token" now (ahead origin) (.body (.obj [("private", .bool true)])), .push (.ok ()) (.exit 0 "" "" (.ok ()))]

theorem pushes_private_twice : ∃ w, Machine.Reach (next forgeCalls) (Unmoved forgeCalls) .start w ∧
    w.events = [.answered "https://github.com/o/home" true, .pushed "https://github.com/o/home" "c2",
      .pushed "https://github.com/o/home" "c2"] ∧ Safe w.events := by
  have hEvents : (Machine.follow (next forgeCalls) (Unmoved forgeCalls) .start
      (pushTo "https://github.com/o/home" 0 ++ pushTo "https://github.com/o/home" 40)).map World.events =
        some [.answered "https://github.com/o/home" true, .pushed "https://github.com/o/home" "c2",
          .pushed "https://github.com/o/home" "c2"] := by decide +kernel
  obtain ⟨w, hFollow, hEq⟩ := Option.map_eq_some_iff.mp hEvents
  have hReach := Machine.Reach.follow .refl hFollow
  exact ⟨w, hReach, hEq, pushes_private hReach⟩

/-- After an answer about one origin the mirror pushes to another, which the forge was not
asked about. -/
theorem pushes_unasked : ∃ w, Machine.Reach (next forgeCalls) (fun _ _ => True) .start w ∧ ¬ Safe w.events := by
  have hEvents : (Machine.follow (next forgeCalls) (fun _ _ => True) .start
      (pushTo "https://github.com/o/home" 0 ++ pushTo "https://github.com/o/site" 40)).map World.events =
        some [.answered "https://github.com/o/home" true, .pushed "https://github.com/o/home" "c2",
          .pushed "https://github.com/o/site" "c2"] := by decide +kernel
  obtain ⟨w, hFollow, hEq⟩ := Option.map_eq_some_iff.mp hEvents
  refine ⟨w, .follow .refl hFollow, fun hSafe => ?_⟩
  have hAsked := (hSafe [.answered "https://github.com/o/home" true, .pushed "https://github.com/o/home" "c2"]
    "https://github.com/o/site" "c2" [] hEq).1
  exact absurd hAsked (by decide)

end Brnrd.Mirrors
