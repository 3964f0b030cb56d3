import Brnrd.Graph.Followed
import Brnrd.Lists.Entries
import Brnrd.Python.Value

/-! The router: the conversation that a letter is addressed to, by its own fields or
those of the event it is about. -/
namespace Brnrd.Router

open Python

abbrev Text := List Char

/-- What a route may raise: a letter without an address, or what the interpreter raises
of a field of the wrong type. -/
inductive Raised where
  | unaddressed (why : Text)
  | attribute
  | value

structure Address where
  conversation : Text
  ask : Option Text
  repoHint : Option Text
  parent : Option Text
  edge : Option Text
  routable : Bool
  reason : Option Text

/-- A component of the key of a gate's thread. -/
structure Part where
  fields : List String
  required : Bool
  asInt : Bool

structure ThreadRule where
  channel : Text
  parts : List Part
  fallback : Option Text

/-- `THREAD_RULES`. -/
def THREAD_RULES : List (Text × ThreadRule) :=
  [("telegram".toList, ⟨"telegram".toList, [⟨["telegram_chat_id"], true, false⟩, ⟨["telegram_topic_id"], false, false⟩], none⟩),
    ("slack".toList, ⟨"slack".toList, [⟨["slack_channel"], true, false⟩, ⟨["slack_thread_ts", "slack_ts"], false, false⟩],
      none⟩),
    ("github".toList, ⟨"github".toList, [⟨["github_repo"], true, false⟩, ⟨["github_issue_number"], true, true⟩], none⟩),
    ("signal".toList, ⟨"signal".toList, [⟨["signal_sender"], true, false⟩, ⟨[], false, false⟩],
      some "signal:default".toList⟩),
    ("cloud".toList, ⟨"cloud".toList, [⟨["cloud_platform"], true, false⟩, ⟨["cloud_chat_id"], true, false⟩,
      ⟨["cloud_topic_id"], false, false⟩], some "cloud:default".toList⟩)]

def INTERNAL_SOURCES : List Text :=
  ["bench", "cli", "dispatch_message", "fold", "init", "mark", "measured-refill", "pr_checks_concluded", "respawn",
    "schedule", "spawn", "spawn_allowance_requested", "spawn_completed", "spawn_message_delivered", "spawn_queued",
    "spawn_submitted"].map String.toList

variable (host : Host) (alphabet : Alphabet)

/-- `str(a or b or … or "")`, over some fields of an event. -/
def textOf (event : Dict) (keys : List String) : Text :=
  match keys.find? fun key => (event.get key).truthy with
  | some key => ((event.get key).toStr host).toList
  | none => []

/-- What a field says of a component, `none` where it says nothing. -/
def fieldValue (asInt : Bool) (raw : Value) : Except Raised (Option Text) :=
  if asInt then
    match raw with
    | .bool b => .ok (some ((Value.bool b).toStr host).toList)
    | .int n => .ok (some (toString n).toList)
    | .str s =>
        if strip s.toList ≠ [] && (strip s.toList).all (isdigit alphabet) then
          match parseInt s with
          | some n => .ok (some (toString n).toList)
          | none => .error .value
        else .ok none
    | _ => .ok none
  else
    match raw with
    | .null => .ok none
    | .str s => .ok (if strip s.toList = [] then none else some (strip s.toList))
    | other => .ok (if other.toStr host = "" then none else some (other.toStr host).toList)

/-- `_thread_part_value`, over the fields that are left. -/
def partValue (event : Dict) (asInt : Bool) : List String → Except Raised (Option Text)
  | [] => .ok none
  | field :: rest =>
      match fieldValue host alphabet asInt (event.get field) with
      | .error raised => .error raised
      | .ok (some text) => .ok (some text)
      | .ok none => partValue event asInt rest

/-- `_render_thread_key`, with the components so far. -/
def renderFrom (event : Dict) (fallback : Option Text) (found : List Text) : List Part → Except Raised (Option Text)
  | [] => .ok (some ([':'].intercalate found))
  | part :: rest =>
      match partValue host alphabet event part.asInt part.fields with
      | .error raised => .error raised
      | .ok (some text) => renderFrom event fallback (found ++ [text]) rest
      | .ok none => if part.required then .ok fallback else renderFrom event fallback (found ++ [[]]) rest

/-- `gate_thread_key`. -/
def gateThreadKey (event : Dict) : Except Raised (Option Text) :=
  match if (event.get "source").truthy then event.get "source" else .str "" with
  | .str source =>
      let source := strip source.toList
      if source = [] then .ok none
      else
        match Entries.get source THREAD_RULES with
        | none => .ok (some (source ++ ":default".toList))
        | some rule => renderFrom host alphabet event rule.fallback [rule.channel] rule.parts
  | _ => .error .attribute

/-- `conversation_key_for_event`. -/
def conversationKeyForEvent (event : Dict) : Except Raised (Option Text) :=
  match event.get "conversation_key" with
  | .str key => if strip key.toList = [] then gateThreadKey host alphabet event else .ok (some (strip key.toList))
  | _ => gateThreadKey host alphabet event

def sourceOf (letter : Dict) : Text :=
  textOf host letter ["source"]

def isInternal (letter : Dict) : Bool :=
  sourceOf host letter ∈ INTERNAL_SOURCES

/-- The conversation that a letter names. -/
def namedConversation (letter : Dict) : Text :=
  strip (textOf host letter ["conversation_key", "thread", "thread_key", "spawn_parent_conversation_key"])

def parentOf (letter : Dict) : Text :=
  strip (textOf host letter ["parent_run_id", "spawn_parent_run_id", "spawned_by_run", "parent"])

def edgeOf (letter : Dict) : Text :=
  let edge := strip (textOf host letter ["spawn_edge", "spawned_by_event", "edge"])
  if sourceOf host letter = "spawn".toList ∧ edge = [] then strip (textOf host letter ["id"]) else edge

def isChild (letter : Dict) : Bool :=
  sourceOf host letter = "spawn".toList || "spawn_".toList.isPrefixOf (sourceOf host letter)

/-- The address that a person's letter has from its transport. -/
def transportConversation (letter : Dict) : Except Raised Text := do
  let key ← conversationKeyForEvent host alphabet letter
  if key.getD [] ≠ [] then .ok (key.getD [])
  else
    let channel := strip (if (letter.get "channel").truthy then textOf host letter ["channel"] else sourceOf host letter)
    let correspondent := strip (textOf host letter ["correspondent", "sender_id"])
    if channel = [] ∨ correspondent = [] then .error (.unaddressed "person letter has no transport address".toList)
    else .ok (channel ++ ':' :: correspondent)

/-- The conversation of a letter, behind the one that it or its origin names. -/
def settledConversation (letter : Dict) (conversation : Text) : Except Raised Text :=
  if isInternal host letter then
    if conversation = [] ∨ isChild host letter ∧ ¬(parentOf host letter ≠ [] ∧ edgeOf host letter ≠ []) then
      .error (.unaddressed "internal letter needs exact conversation and child edge".toList)
    else .ok conversation
  else if conversation = [] then transportConversation host alphabet letter
  else .ok conversation

/-- A text that is not empty, or `None`. -/
def orNone (text : Text) : Option Text :=
  if text = [] then none else some text

def addressOf (letter : Dict) (conversation : Text) : Except Raised Address := do
  let conversation ← settledConversation host alphabet letter conversation
  let ask := if (letter.get "ask_id").truthy || (letter.get "item").truthy then some (textOf host letter ["ask_id", "item"])
    else none
  .ok ⟨conversation, ask, orNone (textOf host letter ["repo_label"]), orNone (parentOf host letter),
    orNone (edgeOf host letter), true, none⟩

/-- The event that a letter without a conversation is about, unless it is itself. -/
def originOf (lookup : Text → Option Dict) (letter : Dict) : Option Dict :=
  if sourceOf host letter = "dispatch_message".toList ∧ namedConversation host letter = [] then
    (lookup (textOf host letter ["spawn_message_for_event"])).filter fun origin => origin.get "id" ≠ letter.get "id"
  else none

/-- `Router.route` in a number of calls, `none` where they do not suffice. -/
def route (lookup : Text → Option Dict) : Nat → Dict → Option (Except Raised Address)
  | 0, _ => none
  | calls + 1, letter =>
      match originOf host lookup letter with
      | none => some (addressOf host alphabet letter (namedConversation host letter))
      | some origin => (route lookup calls origin).map fun answer =>
          answer.bind fun address => addressOf host alphabet letter address.conversation

/-- The visible seat of a letter without an address. -/
def triageAddress (letter : Dict) (why : Text) : Except Raised Address :=
  let eventId := strip (textOf host letter ["id"])
  let source := strip (if (letter.get "source").truthy then sourceOf host letter else "unknown".toList)
  if eventId = [] then .error (.unaddressed why)
  else .ok ⟨"triage:".toList ++ source ++ ':' :: eventId, some ("triage:".toList ++ eventId),
    orNone (textOf host letter ["repo_label"]), none, none, false, some why⟩

/-- `route_or_triage`. -/
def routeOrTriage (lookup : Text → Option Dict) (calls : Nat) (letter : Dict) : Option (Except Raised Address) :=
  (route host alphabet lookup calls letter).map fun answer =>
    match answer with
    | .error (.unaddressed why) => triageAddress host letter why
    | other => other

end Brnrd.Router

/-! Where a route comes to an end: the events that a letter is about, one behind the
other, never come back to one that was passed. -/
namespace Brnrd.Router

open Python

variable (host : Host) (alphabet : Alphabet)

/-- The events, by the name they are looked up under. -/
abbrev Events := List (Text × Dict)

def Events.lookup (events : Events) (name : Text) : Option Dict :=
  Entries.get name events

/-- An event that a letter without a conversation is about. -/
def Origin (events : Events) (letter origin : Dict) : Prop :=
  originOf host events.lookup letter = some origin

/-- The conversation that an event has by itself, empty where it has none. -/
def ownConversation (event : Dict) : Text :=
  if namedConversation host event ≠ [] then namedConversation host event
  else if isInternal host event then []
  else match transportConversation host alphabet event with
    | .ok conversation => conversation
    | .error _ => []

/-- The conversation of a letter is that of the first event on its chain that has one. -/
def FirstConversation (events : Events) (letter : Dict) (conversation : Text) : Prop :=
  ∃ event, Relation.ReflTransGen (Origin host events) letter event ∧ ownConversation host alphabet event = conversation ∧
    conversation ≠ [] ∧ ∀ passed, Relation.ReflTransGen (Origin host events) letter passed →
      Relation.TransGen (Origin host events) passed event → ownConversation host alphabet passed = []

/-- Both routes come to an end, and a message that is addressed has the conversation of
the first event on its chain. -/
def Routed (events : Events) (letter : Dict) : Prop :=
  (∃ calls answer, route host alphabet events.lookup calls letter = some answer) ∧
    (∃ calls answer, routeOrTriage host alphabet events.lookup calls letter = some answer) ∧
    (sourceOf host letter = "dispatch_message".toList → ∀ calls address,
      route host alphabet events.lookup calls letter = some (.ok address) →
        FirstConversation host alphabet events letter address.conversation)

/-- An event comes back to itself on the chain behind the letter. -/
def Circles (events : Events) (letter : Dict) : Prop :=
  ∃ event, Relation.ReflTransGen (Origin host events) letter event ∧ Relation.TransGen (Origin host events) event event

variable {host alphabet} {events : Events} {letter origin : Dict} {calls : Nat}

theorem Origin.dispatch (h : Origin host events letter origin) :
    sourceOf host letter = "dispatch_message".toList ∧ namedConversation host letter = [] := by
  unfold Origin originOf at h
  split at h
  · assumption
  · cases h

theorem Origin.mem (h : Origin host events letter origin) : origin ∈ events.map Prod.snd := by
  unfold Origin originOf at h
  split at h
  · obtain ⟨hFound, -⟩ := Option.filter_eq_some_iff.mp h
    exact List.mem_map.mpr ⟨_, Entries.mem_of_get hFound, rfl⟩
  · cases h

theorem isInternal_dispatch (h : sourceOf host letter = "dispatch_message".toList) :
    isInternal host letter = true ∧ isChild host letter = false := by
  unfold isInternal isChild
  rw [h]
  decide

/-- A message between its origin and its conversation has none of its own. -/
theorem Origin.own_nil (h : Origin host events letter origin) : ownConversation host alphabet letter = [] := by
  obtain ⟨hSource, hNamed⟩ := h.dispatch
  rw [ownConversation, if_neg (by simp [hNamed]), if_pos (isInternal_dispatch hSource).1]

theorem route_last (h : originOf host events.lookup letter = none) :
    route host alphabet events.lookup (calls + 1) letter =
      some (addressOf host alphabet letter (namedConversation host letter)) := by
  rw [route, h]

theorem route_origin (h : Origin host events letter origin) :
    route host alphabet events.lookup (calls + 1) letter =
      (route host alphabet events.lookup calls origin).map fun answer =>
        answer.bind fun address => addressOf host alphabet letter address.conversation := by
  rw [route, h]

/-- A route ends where the chain behind the letter does. -/
theorem route_ends_iff :
    (∃ calls answer, route host alphabet events.lookup calls letter = some answer) ↔
      Followed.Ends (originOf host events.lookup) letter := by
  constructor
  · rintro ⟨calls, answer, hRoute⟩
    induction calls generalizing letter answer with
    | zero => cases hRoute
    | succ calls ih =>
        refine ⟨_, fun origin hOrigin => ?_⟩
        rw [route_origin hOrigin] at hRoute
        obtain ⟨between, hBetween, -⟩ := Option.map_eq_some_iff.mp hRoute
        exact ih between hBetween
  · intro h
    induction h with
    | intro letter _ ih =>
        cases hOrigin : originOf host events.lookup letter with
        | none => exact ⟨1, _, route_last hOrigin⟩
        | some origin =>
            obtain ⟨calls, answer, hAnswer⟩ := ih origin hOrigin
            exact ⟨calls + 1, _, by rw [route_origin hOrigin, hAnswer, Option.map_some]⟩

theorem routeOrTriage_ends_iff :
    (∃ calls answer, routeOrTriage host alphabet events.lookup calls letter = some answer) ↔
      ∃ calls answer, route host alphabet events.lookup calls letter = some answer := by
  refine exists_congr fun calls => ?_
  unfold routeOrTriage
  cases route host alphabet events.lookup calls letter <;> simp

variable {conversation : Text}

theorem transport_ne_nil (h : transportConversation host alphabet letter = .ok conversation) : conversation ≠ [] := by
  unfold transportConversation at h
  obtain ⟨key, -, h⟩ := Fallible.peel h
  split at h
  · rename_i hKey
    exact Except.ok.inj h ▸ hKey
  · dsimp only at h
    generalize (if (letter.get "channel").truthy then textOf host letter ["channel"] else sourceOf host letter) = channel at h
    split at h
    · cases h
    · rw [← Except.ok.inj h]
      simp

/-- A letter at the end of its chain has the conversation of its own. -/
theorem settled_own (h : settledConversation host alphabet letter (namedConversation host letter) = .ok conversation) :
    ownConversation host alphabet letter = conversation ∧ conversation ≠ [] := by
  unfold settledConversation at h
  unfold ownConversation
  by_cases hNamed : namedConversation host letter = []
  · rw [if_neg (by simp [hNamed])]
    rw [if_pos hNamed] at h
    split at h
    · simp [hNamed] at h
    · rename_i hPerson
      rw [if_neg hPerson, h]
      exact ⟨rfl, transport_ne_nil h⟩
  · rw [if_pos hNamed]
    have hSame : namedConversation host letter = conversation := by
      rw [if_neg hNamed] at h
      split at h
      · split at h
        · cases h
        · exact Except.ok.inj h
      · exact Except.ok.inj h
    exact ⟨hSame, hSame ▸ hNamed⟩

/-- A message keeps the conversation of its origin. -/
theorem settled_dispatch (hSource : sourceOf host letter = "dispatch_message".toList) (hNew : conversation ≠ []) :
    settledConversation host alphabet letter conversation = .ok conversation := by
  obtain ⟨hInternal, hChild⟩ := isInternal_dispatch hSource
  rw [settledConversation, if_pos hInternal, if_neg]
  rintro (h | ⟨h, -⟩)
  · exact hNew h
  · rw [hChild] at h
    cases h

theorem addressOf_conversation {address : Address} (h : addressOf host alphabet letter conversation = .ok address) :
    settledConversation host alphabet letter conversation = .ok address.conversation := by
  obtain ⟨settled, hSettled, h⟩ := Fallible.peel h
  rw [hSettled, ← Except.ok.inj h]

/-- An addressed route has the conversation of the first event that has one. -/
theorem route_first {address : Address} (h : route host alphabet events.lookup calls letter = some (.ok address)) :
    FirstConversation host alphabet events letter address.conversation := by
  induction calls generalizing letter address with
  | zero => cases h
  | succ calls ih =>
      cases hOrigin : originOf host events.lookup letter with
      | none =>
          rw [route_last hOrigin] at h
          obtain ⟨hOwn, hNew⟩ := settled_own (addressOf_conversation (Option.some.inj h))
          refine ⟨letter, .refl, hOwn, hNew, fun passed hPassed hBefore => ?_⟩
          have hEnd : ∀ other, ¬Origin host events letter other := fun other hOther => by
            cases hOrigin.symm.trans hOther
          rcases Relation.ReflTransGen.cases_head hPassed with rfl | ⟨other, hOther, -⟩
          · obtain ⟨other, hOther, -⟩ := Relation.TransGen.head'_iff.mp hBefore
            exact absurd hOther (hEnd other)
          · exact absurd hOther (hEnd other)
      | some origin =>
          rw [route_origin hOrigin] at h
          obtain ⟨answer, hAnswer, h⟩ := Option.map_eq_some_iff.mp h
          obtain ⟨between, rfl, h⟩ := Fallible.peel h
          obtain ⟨event, hReach, hOwn, hNew, hFirst⟩ := ih hAnswer
          have hSame : between.conversation = address.conversation :=
            Except.ok.inj ((settled_dispatch (Origin.dispatch hOrigin).1 hNew).symm.trans (addressOf_conversation h))
          rw [← hSame]
          refine ⟨event, .head hOrigin hReach, hOwn, hNew, fun passed hPassed hBefore => ?_⟩
          rcases Relation.ReflTransGen.cases_head hPassed with rfl | ⟨other, hOther, hRest⟩
          · exact Origin.own_nil hOrigin
          · obtain rfl := Option.mem_unique hOrigin hOther
            exact hFirst passed hRest hBefore

variable (host alphabet) in
/-- A letter is routed exactly where no event comes back to itself on the chain behind
it. -/
theorem routed_iff (events : Events) (letter : Dict) : Routed host alphabet events letter ↔ ¬Circles host events letter := by
  have hEnds := @Followed.ends_iff Dict (originOf host events.lookup) (events.map Prod.snd)
    (fun _ _ h => Origin.mem h) letter
  constructor
  · rintro ⟨hRoute, -, -⟩
    exact hEnds.mp (route_ends_iff.mp hRoute)
  · intro h
    have hRoute := (@route_ends_iff host alphabet events letter).mpr (hEnds.mpr h)
    exact ⟨hRoute, routeOrTriage_ends_iff.mpr hRoute, fun _ calls address hAddress => route_first hAddress⟩

/-- A message about another one, by their names. -/
def plainMessage (name about : String) : Dict :=
  [("id", .str name), ("source", .str "dispatch_message"), ("spawn_message_for_event", .str about)]

/-- Two messages about each other are never routed. -/
theorem messages_circle : ¬∀ (host : Host) (alphabet : Alphabet) (events : Events) (letter : Dict),
    Routed host alphabet events letter := by
  intro h
  let host : Host := ⟨fun _ => none, fun _ => none, fun _ => "", fun _ => none⟩
  have hNot := (routed_iff host asciiOnly [(['a'], plainMessage "a" "b"), (['b'], plainMessage "b" "a")]
    (plainMessage "a" "b")).mp (h _ _ _ _)
  refine hNot ⟨plainMessage "a" "b", .refl, .head (b := plainMessage "b" "a") ?_ (.single ?_)⟩ <;>
    unfold Origin <;> decide +kernel

end Brnrd.Router
