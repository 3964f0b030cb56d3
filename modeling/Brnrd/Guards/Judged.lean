import Brnrd.Guards.Grants
import Mathlib.Data.List.ReduceOption

/-! What a verdict rests on: a call that runs has each judged target named by a letter
of the owner, and a call that is refused leaves no grant. -/
namespace Brnrd.Guards

open Python Facts Wishes

variable {alphabet : Alphabet} {host : Host} {room : Room}

/-- A letter of an owner that nobody held names the target and a verb of the class,
and is on an open wish of the thread. -/
def Granted (alphabet : Alphabet) (host : Host) (room : Room) (ask : Ask) : Prop :=
  ∃ table, wishes host.python room.checkout room.facts = .ok table ∧
    ∃ w ∈ table, w.thread = .str room.thread ∧ isOpen room.expired w = .ok true ∧
      ∃ ident ∈ citedBy host room.facts w, ∃ letter, (letters host room.facts).lookup ident = some letter ∧
        ident ∉ held host.python room.facts ∧ senderOf host letter ∈ room.owner ∧
          states alphabet (textOf host letter.data "body") ask = true

variable {ask : Ask}

/-- What a text that states the one ask states of the other is granted with it. -/
theorem Granted.mono {other : Ask} (h : Granted alphabet host room ask)
    (hStates : ∀ text, states alphabet text ask = true → states alphabet text other = true) :
    Granted alphabet host room other := by
  obtain ⟨table, hTable, w, hw, hThread, hOpen, ident, hCited, letter, hLetter, hHeld, hOwner, hBody⟩ := h
  exact ⟨table, hTable, w, hw, hThread, hOpen, ident, hCited, letter, hLetter, hHeld, hOwner, hStates _ hBody⟩

theorem qualifies_eq_some {ident : String} {letter : Fact} :
    qualifies alphabet host room ask ident = some letter ↔
      (letters host room.facts).lookup ident = some letter ∧ ident ∉ held host.python room.facts ∧
        senderOf host letter ∈ room.owner ∧ states alphabet (textOf host letter.data "body") ask = true := by
  rw [qualifies, Option.filter_eq_some_iff]
  simp [and_assoc]

/-- A fold of `better` finds a letter where it had one or some letter qualifies. -/
theorem foldl_better_isSome {w : Wish} (idents : List String) (best : Option (String × Grant)) :
    (idents.foldl (better alphabet host room ask w) best).isSome = true ↔
      best.isSome = true ∨ ∃ ident ∈ idents, (qualifies alphabet host room ask ident).isSome = true := by
  induction idents generalizing best with
  | nil => simp
  | cons ident idents ih =>
      rw [List.foldl_cons, ih]
      have hStep : (better alphabet host room ask w best ident).isSome = true ↔
          best.isSome = true ∨ (qualifies alphabet host room ask ident).isSome = true := by
        unfold better
        split
        · rename_i hNone
          simp [hNone]
        · rename_i letter hSome
          cases best with
          | none => simp [hSome]
          | some found => split <;> simp
      rw [hStep]
      simp [or_assoc]

/-- What `find` returns is granted. -/
theorem find_granted {grant : Grant} (h : find alphabet host room ask = .ok (some grant)) :
    Granted alphabet host room ask := by
  obtain ⟨table, hTable, h⟩ := Fallible.peel h
  obtain ⟨best, hBest, h⟩ := Fallible.peel h
  have hSome : best.isSome = true := by
    cases best with
    | none => cases h
    | some found => rfl
  have hRun := Fallible.foldlM_invariant (f := onOpenWish alphabet host room ask)
    (fun seen best => seen ⊆ table → best.isSome = true → Granted alphabet host room ask)
    (fun _ hNone => by cases hNone) ?_ hBest
  · exact hRun (fun _ hw => hw) hSome
  · intro seen w best next hSeen hStep hSub hNext
    have hBefore : best.isSome = true → Granted alphabet host room ask :=
      hSeen fun v hv => hSub (List.mem_append_left _ hv)
    unfold onOpenWish at hStep
    split at hStep
    · obtain rfl := Except.ok.inj hStep
      exact hBefore hNext
    · rename_i hThread
      obtain ⟨open_, hOpen, hStep⟩ := Fallible.peel hStep
      cases open_ with
      | false =>
          obtain rfl := Except.ok.inj hStep
          exact hBefore hNext
      | true =>
          obtain rfl := Except.ok.inj hStep
          rcases (foldl_better_isSome _ _).mp hNext with hOld | ⟨ident, hCited, hQualifies⟩
          · exact hBefore hOld
          · obtain ⟨letter, hLetter⟩ := Option.isSome_iff_exists.mp hQualifies
            obtain ⟨hLookup, hHeld, hOwner, hBody⟩ := qualifies_eq_some.mp hLetter
            exact ⟨table, hTable, w, hSub (by simp), by simpa using hThread, hOpen, ident, hCited, letter, hLookup,
              hHeld, hOwner, hBody⟩

/-- What one of the calls of `find` in `judge` returns. -/
def foundFor (alphabet : Alphabet) (host : Host) (room : Room) (ask : Ask) : Except WishError (Ask × Option Grant) :=
  if room.thread = "" then .ok (ask, none) else (find alphabet host room ask).map (ask, ·)

theorem foundFor_eq_ok {item : Ask × Option Grant} (h : foundFor alphabet host room ask = .ok item) :
    item.1 = ask ∧ ∀ grant, item.2 = some grant → find alphabet host room ask = .ok (some grant) := by
  unfold foundFor at h
  split at h
  · obtain rfl := Except.ok.inj h
    exact ⟨rfl, nofun⟩
  · obtain ⟨found, hFind, rfl⟩ := Fallible.map_eq_ok.mp h
    refine ⟨rfl, ?_⟩
    rintro grant rfl
    exact hFind

/-- The verdict of `judge`: it lets a call run where each refusal names an ask that is
granted, and it records a grant only then. -/
theorem judge_asks {asks : List (Option Ask)} {verdict : Verdict}
    (h : judge alphabet host room asks = .ok verdict) :
    (verdict.refuse = false → ∀ item ∈ asks, ∃ ask, item = some ask ∧ Granted alphabet host room ask) ∧
      (verdict.refuse = true → ∀ fact ∈ verdict.written, fact.kind ≠ "guard.granted") := by
  unfold judge at h
  split at h
  · obtain rfl := Except.ok.inj h
    exact ⟨nofun, nofun⟩
  · rename_i hAsks
    obtain ⟨hSome, hNone⟩ := not_or.mp hAsks
    obtain ⟨found, hFound, h⟩ := Fallible.peel h
    dsimp only at h
    split at h
    · obtain rfl := Except.ok.inj h
      refine ⟨nofun, fun _ fact hFact => ?_⟩
      obtain ⟨ask, -, rfl⟩ := List.mem_map.mp hFact
      exact fun hKind => absurd hKind (by decide : "guard.refused" ≠ "guard.granted")
    · rename_i hMissing
      obtain rfl := Except.ok.inj h
      refine ⟨fun _ item hItem => ?_, nofun⟩
      cases item with
      | none => exact absurd hItem hNone
      | some ask =>
          have hAsk : ask ∈ asks.reduceOption.eraseDups := by
            rw [List.mem_eraseDups, List.reduceOption_mem_iff]
            exact hItem
          obtain ⟨entry, hEntry, hRead⟩ := Fallible.mapM_mem hFound hAsk
          obtain ⟨rfl, hGrant⟩ := foundFor_eq_ok hRead
          have hGranted : entry.2.isSome = true := by
            by_contra hNot
            refine hMissing (fun hNil => ?_)
            have hIn : entry ∈ found.filter fun item => item.2.isNone :=
              List.mem_filter.mpr ⟨hEntry, by simpa using hNot⟩
            rw [List.map_eq_nil_iff.mp hNil] at hIn
            cases hIn
          obtain ⟨grant, hGrantSome⟩ := Option.isSome_iff_exists.mp hGranted
          exact ⟨entry.1, rfl, find_granted (hGrant grant hGrantSome)⟩

end Brnrd.Guards

/-! A refusing pattern is judged by its first occurrence in a call. The condition on
guards and call under which that covers every occurrence, whatever the ledger. -/
namespace Brnrd.Guards

open Python

variable {alphabet : Alphabet} {host : Host} {room : Room} {guards : List Guard} {moment : Moment} {call : Call}

/-- Each occurrence of each pattern that refuses the call has its target granted. -/
def AllGranted (alphabet : Alphabet) (host : Host) (room : Room) (guards : List Guard) (moment : Moment) (call : Call) :
    Prop :=
  ∀ guard ∈ guards, ∀ m ∈ guard.matches_, m.refuse = true → m.tripped moment call = true →
    ∃ cls, m.grant = some cls ∧ ∀ found ∈ m.occurrences call, Granted alphabet host room (cls, targetOf found)

/-- The first occurrences of a guard's refusing patterns all name one ask. -/
def Guard.Asks (guard : Guard) (moment : Moment) (call : Call) (ask : Ask) : Prop :=
  guard.asks moment call ≠ [] ∧ ∀ item ∈ guard.asks moment call, item = some ask

/-- Some guard refuses without naming one ask, or a text that states one of the asks
states the target of every occurrence. -/
def Covered (alphabet : Alphabet) (guards : List Guard) (moment : Moment) (call : Call) : Prop :=
  (∃ guard ∈ guards, guard.asks moment call ≠ [] ∧ ∀ ask, ¬guard.Asks moment call ask) ∨
    ∀ guard ∈ guards, ∀ m ∈ guard.matches_, m.refuse = true → m.tripped moment call = true →
      ∃ cls, m.grant = some cls ∧ ∀ found ∈ m.occurrences call, ∃ other ∈ guards, ∃ ask, other.Asks moment call ask ∧
        ∀ text, states alphabet text ask = true → states alphabet text (cls, targetOf found) = true

theorem wholeAsk_eq_some {items : List (Option Ask)} {ask : Ask} :
    wholeAsk items = some ask ↔ items ≠ [] ∧ ∀ item ∈ items, item = some ask := by
  cases items with
  | nil => simp [wholeAsk]
  | cons item rest =>
      cases item with
      | none => simp [wholeAsk]
      | some first =>
          simp only [wholeAsk, Option.ite_none_right_eq_some, Option.some.injEq, List.all_eq_true, decide_eq_true_eq,
            ne_eq, List.cons_ne_nil, not_false_iff, true_and, List.forall_mem_cons]
          constructor
          · rintro ⟨hRest, rfl⟩
            exact ⟨rfl, hRest⟩
          · rintro ⟨rfl, hRest⟩
            exact ⟨hRest, rfl⟩

theorem mem_guard_asks {guard : Guard} {item : Option Ask} : item ∈ guard.asks moment call ↔
    ∃ m ∈ guard.matches_, m.tripped moment call = true ∧ m.refuse = true ∧ m.ask call = item := by
  simp [Guard.asks, and_assoc]

/-- The asks that `_guard_warnings` hands to `judge`. -/
theorem mem_judged {item : Option Ask} :
    item ∈ ((trips host guards moment call).filter Hit.refuse).map Hit.ask ↔
      ∃ guard ∈ guards, guard.asks moment call ≠ [] ∧ wholeAsk (guard.asks moment call) = item := by
  have hHit : ∀ guard : Guard, (∃ hit, guard.trip host moment call = some hit ∧ hit.refuse = true ∧ hit.ask = item) ↔
      guard.asks moment call ≠ [] ∧ wholeAsk (guard.asks moment call) = item := by
    intro guard
    simp only [Guard.trip, Option.map_eq_some_iff]
    constructor
    · rintro ⟨hit, ⟨label, -, rfl⟩, hRefuse, hAsk⟩
      exact ⟨by simpa using hRefuse, hAsk⟩
    · rintro ⟨hSome, hAsk⟩
      have hAny : guard.matches_.any (·.tripped moment call) = true := by
        obtain ⟨first, hFirst⟩ := List.exists_mem_of_ne_nil _ hSome
        obtain ⟨m, hm, hTripped, -, -⟩ := mem_guard_asks.mp hFirst
        exact List.any_eq_true.mpr ⟨m, hm, hTripped⟩
      exact ⟨_, ⟨guard.label, by rw [if_pos hAny], rfl⟩, by simpa using hSome, hAsk⟩
  simp only [trips, List.mem_map, List.mem_filter, List.mem_filterMap]
  constructor
  · rintro ⟨hit, ⟨⟨guard, hGuard, hTrip⟩, hRefuse⟩, hAsk⟩
    exact ⟨guard, hGuard, (hHit guard).mp ⟨hit, hTrip, hRefuse, hAsk⟩⟩
  · rintro ⟨guard, hGuard, hCase⟩
    obtain ⟨hit, hTrip, hRefuse, hAsk⟩ := (hHit guard).mpr hCase
    exact ⟨hit, ⟨⟨guard, hGuard, hTrip⟩, hRefuse⟩, hAsk⟩

variable {verdict : Verdict}

/-- A call that runs has, for each guard that refuses it, the one ask of that guard
granted. -/
theorem runs_granted (h : guardWarnings alphabet host room guards moment call = .ok verdict)
    (hRuns : verdict.refuse = false) {guard : Guard} (hGuard : guard ∈ guards) (hRefuses : guard.asks moment call ≠ []) :
    ∃ ask, guard.Asks moment call ask ∧ Granted alphabet host room ask := by
  have hJudged := (@mem_judged host guards moment call (wholeAsk (guard.asks moment call))).mpr
    ⟨guard, hGuard, hRefuses, rfl⟩
  unfold guardWarnings at h
  dsimp only at h
  split at h
  · rename_i hNone
    rw [hNone] at hJudged
    cases hJudged
  · obtain ⟨inner, hJudge, rfl⟩ := Fallible.map_eq_ok.mp h
    obtain ⟨ask, hAsk, hGranted⟩ := (judge_asks hJudge).1 hRuns _ hJudged
    exact ⟨ask, wholeAsk_eq_some.mp hAsk, hGranted⟩

/-- A call that is refused leaves no grant. -/
theorem refused_writes (h : guardWarnings alphabet host room guards moment call = .ok verdict)
    (hRefused : verdict.refuse = true) : ∀ fact ∈ verdict.written, fact.kind ≠ "guard.granted" := by
  unfold guardWarnings at h
  dsimp only at h
  split at h
  · obtain rfl := Except.ok.inj h
    cases hRefused
  · obtain ⟨inner, hJudge, rfl⟩ := Fallible.map_eq_ok.mp h
    exact (judge_asks hJudge).2 hRefused

theorem asks_of_refuses {guard : Guard} {m : Match} (hm : m ∈ guard.matches_) (hRefuse : m.refuse = true)
    (hTripped : m.tripped moment call = true) : m.ask call ∈ guard.asks moment call :=
  mem_guard_asks.mpr ⟨m, hm, hTripped, hRefuse, rfl⟩

/-- Where the first occurrences cover the rest, a call runs only when all are granted. -/
theorem Covered.granted (hCovered : Covered alphabet guards moment call)
    (h : guardWarnings alphabet host room guards moment call = .ok verdict) (hRuns : verdict.refuse = false) :
    AllGranted alphabet host room guards moment call := by
  rcases hCovered with ⟨guard, hGuard, hRefuses, hNoAsk⟩ | hAll
  · obtain ⟨ask, hAsk, -⟩ := runs_granted h hRuns hGuard hRefuses
    exact absurd hAsk (hNoAsk ask)
  · intro guard hGuard m hm hRefuse hTripped
    obtain ⟨cls, hClass, hFound⟩ := hAll guard hGuard m hm hRefuse hTripped
    refine ⟨cls, hClass, fun found hIn => ?_⟩
    obtain ⟨other, hOther, ask, hAsk, hStates⟩ := hFound found hIn
    obtain ⟨ask', hAsk', hGranted⟩ := runs_granted h hRuns hOther hAsk.1
    obtain ⟨item, hItem⟩ := List.exists_mem_of_ne_nil _ hAsk.1
    obtain rfl : ask' = ask := Option.some.inj ((hAsk'.2 item hItem).symm.trans (hAsk.2 item hItem))
    exact hGranted.mono hStates

end Brnrd.Guards
