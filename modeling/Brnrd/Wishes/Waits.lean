import Brnrd.Graph.Followed
import Brnrd.Lists.Entries
import Brnrd.Wishes.Wish

/-! Whom an open ask waits on: the opener of its thread, and from there the opener of each
thread that has asked onward for it. -/
namespace Brnrd.Wishes

open Python

/-- `{w.id: w for w in found.values() if w.open and w.sender == "resident"}`; whether a wish
is open depends on the clock. -/
def asksOf (isOpen : Wish → Bool) (found : List Wish) : List (Value × Wish) :=
  (found.filter fun w => isOpen w && w.sender = .str "resident").foldl (fun asks w => Entries.set w.id w asks) []

/-- The first ask of each thread for each parent. -/
def onwardOf (asks : List (Value × Wish)) : List ((Value × Value) × Wish) :=
  asks.foldl (fun onward item => Entries.setDefault (item.2.thread, item.2.parent) item.2 onward) []

/-- `LOOM_OPENER`. -/
def loomOpener : String :=
  "person:loom"

/-- `CLOSED`. -/
def closedStatuses : List Value :=
  [.str "settled", .str "retired"]

/-- Main: the README of each thread, by its name. -/
abbrev Main := List (String × Dict)

/-- `main.get(thread, {})`. -/
def readmeOf (main : Main) : Value → Dict
  | .str thread => (Entries.get thread main).getD []
  | _ => []

variable (host : Host) (main : Main)

/-- The opener on record of an ask's thread. -/
def recorded (ask : Wish) : String :=
  let head := ((Dict.get (readmeOf main ask.thread) "opened-by").orElse (.str "operator")).toStr host
  if head = loomOpener then "operator" else head

def openerOf (ask : Wish) : String :=
  removePrefix (recorded host main ask) "thread:"

/-- A thread that is not on main, or is closed there; `_require` leaves no status that is
not a text. -/
def gone (thread : String) : Bool :=
  match Entries.get thread main with
  | none => true
  | some readme => closedStatuses.contains (Dict.get readme "status")

/-- Whom an ask waits on, if no thread has asked onward for it. -/
def headOf (ask : Wish) : String :=
  if startsWith (recorded host main ask) "thread:" && gone main (openerOf host main ask) then "operator"
  else recorded host main ask

/-- One turn of the loop of `waits_on`: the head, and the ask that the wait passes to. -/
def turn (asks : List (Value × Wish)) (ask : Wish) : String × Option Wish :=
  let next := if startsWith (headOf host main ask) "thread:" then
    Entries.get (.str (openerOf host main ask), ask.id) (onwardOf asks) else none
  (if next.isNone && relays.contains (openerOf host main ask) then "operator" else headOf host main ask, next)

variable {host main} {isOpen : Wish → Bool} {found : List Wish} {asks : List (Value × Wish)} {ask next : Wish}

/-- The thread that an ask waits on has asked onward for it. -/
def Passes (host : Host) (main : Main) (asks : List (Value × Wish)) (ask next : Wish) : Prop :=
  startsWith (headOf host main ask) "thread:" = true ∧ next ∈ asks.map Prod.snd ∧
    next.thread = .str (openerOf host main ask) ∧ next.parent = ask.id

instance : Decidable (Passes host main asks ask next) :=
  inferInstanceAs (Decidable (_ ∧ _))

theorem get_onwardOf (key : Value × Value) :
    Entries.get key (onwardOf asks) = (asks.map Prod.snd).find? fun w => (w.thread, w.parent) = key := by
  rw [onwardOf, Entries.get_foldl_setDefault, List.find?_map]
  rfl

/-- The wait passes to the first of the asks that it can pass to. -/
theorem passes_of_turn (h : (turn host main asks ask).2 = some next) : Passes host main asks ask next := by
  unfold turn at h
  dsimp only at h
  split at h
  · rename_i hThread
    rw [get_onwardOf] at h
    have hKey : (next.thread, next.parent) = (.str (openerOf host main ask), ask.id) := by simpa using List.find?_some h
    exact ⟨hThread, List.mem_of_find?_eq_some h, congrArg Prod.fst hKey, congrArg Prod.snd hKey⟩
  · cases h

theorem turn_eq_none : (turn host main asks ask).2 = none ↔ ∀ next, ¬ Passes host main asks ask next := by
  constructor
  · rintro h next ⟨hThread, hMem, hOpener, hParent⟩
    unfold turn at h
    dsimp only at h
    rw [if_pos hThread, get_onwardOf, List.find?_eq_none] at h
    exact h next hMem (by simp [hOpener, hParent])
  · intro h
    cases hTurn : (turn host main asks ask).2 with
    | none => rfl
    | some next => exact (h next (passes_of_turn hTurn)).elim

attribute [irreducible] turn

variable (host main) in
/-- The loop of `waits_on`; `none` where the rounds do not suffice. -/
def walk (asks : List (Value × Wish)) : ℕ → List Value → Wish → Option String
  | 0, _, _ => none
  | rounds + 1, seen, current =>
      let seen := current.id :: seen
      match (turn host main asks current).2 with
      | none => some (turn host main asks current).1
      | some next => if next.id ∈ seen then some (turn host main asks current).1 else walk asks rounds seen next

variable (host main) in
/-- `waits_on`, with so many rounds for each walk. -/
def waits_on (isOpen : Wish → Bool) (rounds : ℕ) (found : List Wish) : Option (List (Value × String)) :=
  let asks := asksOf isOpen found
  asks.mapM fun item => (walk host main asks rounds [] item.2).map fun head => (item.1, head)

theorem asksOf_nodup : ((asksOf isOpen found).map Prod.fst).Nodup := by
  unfold asksOf
  generalize found.filter (fun w => isOpen w && w.sender = .str "resident") = rows
  have hFold : ∀ asks : List (Value × Wish), (asks.map Prod.fst).Nodup →
      ((rows.foldl (fun asks w => Entries.set w.id w asks) asks).map Prod.fst).Nodup := by
    induction rows with
    | nil => exact fun _ h => h
    | cons w rows ih => exact fun asks h => ih _ (Entries.nodup_set h)
  exact hFold [] List.nodup_nil

theorem asksOf_id {item : Value × Wish} (h : item ∈ asksOf isOpen found) : item.1 = item.2.id := by
  rcases Entries.mem_foldl_set h with h | ⟨w, -, rfl⟩
  · cases h
  · rfl

/-- No two asks have one id. -/
theorem asksOf_injOn : Set.InjOn Wish.id {ask | ask ∈ (asksOf isOpen found).map Prod.snd} := by
  intro a ha b hb hSame
  obtain ⟨x, hx, rfl⟩ := List.mem_map.mp ha
  obtain ⟨y, hy, rfl⟩ := List.mem_map.mp hb
  have hFst : x.1 = y.1 := (asksOf_id hx).trans (hSame.trans (asksOf_id hy).symm)
  exact congrArg Prod.snd (List.inj_on_of_nodup_map asksOf_nodup hx hy hFst)

theorem walk_succ (rounds : ℕ) (seen : List Value) (ask : Wish) :
    walk host main asks (rounds + 1) seen ask =
      match (turn host main asks ask).2 with
      | none => some (turn host main asks ask).1
      | some next =>
          if next.id ∈ ask.id :: seen then some (turn host main asks ask).1
          else walk host main asks rounds (ask.id :: seen) next :=
  rfl

/-- The walk follows the wait from ask to ask, and answers with the head of the last. -/
theorem walk_eq (rounds : ℕ) (seen : List Value) (ask : Wish) :
    walk host main asks rounds seen ask =
      (Followed.last (fun ask => (turn host main asks ask).2) Wish.id rounds seen ask).map
        fun last => (turn host main asks last).1 := by
  induction rounds generalizing seen ask with
  | zero => rfl
  | succ rounds ih =>
      rw [walk_succ, Followed.last]
      cases (turn host main asks ask).2 with
      | none => rfl
      | some next =>
          dsimp only
          split
          · rfl
          · exact ih _ _

/-- A thread opener is written as one. -/
theorem removePrefix_thread {head : String} (h : startsWith head "thread:" = true) :
    "thread:" ++ removePrefix head "thread:" = head := by
  obtain ⟨rest, hRest⟩ := List.isPrefixOf_iff_prefix.mp h
  have hDrop : head.toList.drop "thread:".toList.length = rest := by rw [← hRest, List.drop_left]
  rw [removePrefix, if_pos h, hDrop, ← String.toList_inj, String.toList_append, ← hRest]
  exact congrArg _ String.toList_ofList

/-- A head that is a thread is the opener on record. -/
theorem headOf_thread (h : startsWith (headOf host main ask) "thread:" = true) :
    headOf host main ask = "thread:" ++ openerOf host main ask := by
  unfold headOf at h ⊢
  split at h
  · exact absurd h (by decide)
  · rename_i hOpen
    rw [if_neg hOpen]
    exact (removePrefix_thread h).symm

/-- The thread that an ask is on, as a head. -/
def ownThread (ask : Wish) : String :=
  match ask.thread with
  | .str thread => "thread:" ++ thread
  | _ => ""

theorem head_of_passes (h : (turn host main asks ask).2 = some next) : (turn host main asks ask).1 = ownThread next := by
  obtain ⟨hThread, -, hOpener, -⟩ := passes_of_turn h
  have hHead : (turn host main asks ask).1 = headOf host main ask := by
    unfold turn at h ⊢
    dsimp only at h ⊢
    rw [h]
    rfl
  rw [hHead, headOf_thread hThread, ownThread, hOpener]

/-- The wait gets from ask to ask, by any of the asks onward, to one that no thread has asked
onward for; its head is whom that one waits on. -/
def Arrives (host : Host) (main : Main) (asks : List (Value × Wish)) (ask : Wish) (head : String) : Prop :=
  ∃ last, Relation.ReflTransGen (Passes host main asks) ask last ∧ (∀ next, ¬ Passes host main asks last next) ∧
    head = (turn host main asks last).1

/-- Every chain runs into a cycle: none comes to an end. -/
def Endless (host : Host) (main : Main) (asks : List (Value × Wish)) (ask : Wish) : Prop :=
  ∀ last, Relation.ReflTransGen (Passes host main asks) ask last → ∃ next, Passes host main asks last next

/-- The chain of the first asks onward comes back to the ask. -/
def Returns (host : Host) (main : Main) (asks : List (Value × Wish)) (ask : Wish) : Prop :=
  Relation.TransGen (fun ask next => (turn host main asks ask).2 = some next) ask ask

theorem reaches_of_first (h : Relation.ReflTransGen (fun ask next => (turn host main asks ask).2 = some next) ask next) :
    Relation.ReflTransGen (Passes host main asks) ask next :=
  h.lift id fun _ _ => passes_of_turn

variable (host main) in
/-- The walk of an ask ends within as many rounds as there are asks. Its head is whom some
chain of asks onward comes to, unless the first asks onward come back to the ask: then it is
the ask's own thread. -/
theorem walk_spec (h : ask ∈ (asksOf isOpen found).map Prod.snd) :
    ∃ head, (∀ extra, walk host main (asksOf isOpen found) ((asksOf isOpen found).length + extra) [] ask = some head) ∧
      (Arrives host main (asksOf isOpen found) ask head ∧ ¬ Returns host main (asksOf isOpen found) ask ∨
        head = ownThread ask ∧ Returns host main (asksOf isOpen found) ask) := by
  have hClosed : ∀ x ∈ (asksOf isOpen found).map Prod.snd, ∀ y, (turn host main (asksOf isOpen found) x).2 = some y →
      y ∈ (asksOf isOpen found).map Prod.snd := fun _ _ _ hTurn => (passes_of_turn hTurn).2.1
  have hBack : ∀ x ∈ (asksOf isOpen found).map Prod.snd, ∀ y ∈ (asksOf isOpen found).map Prod.snd, ∀ z,
      (turn host main (asksOf isOpen found) x).2 = some z → (turn host main (asksOf isOpen found) y).2 = some z → x = y :=
    fun x hx y hy z hxz hyz =>
      asksOf_injOn hx hy ((passes_of_turn hxz).2.2.2.symm.trans (passes_of_turn hyz).2.2.2)
  have hLast := Followed.last_spec hClosed asksOf_injOn hBack h
  rw [List.length_map] at hLast
  obtain ⟨last, hFound, hReach, hEnd⟩ := hLast
  refine ⟨(turn host main (asksOf isOpen found) last).1, fun extra => ?_, ?_⟩
  · rw [walk_eq, Followed.last_add hFound extra]
    rfl
  rcases hEnd with hNone | hReturn
  · refine .inl ⟨⟨last, reaches_of_first hReach, turn_eq_none.mp hNone, rfl⟩, fun hReturns => ?_⟩
    exact Followed.next_ne_none_of_cycle hReturns hReach hNone
  · exact .inr ⟨head_of_passes hReturn, Relation.TransGen.trans_right hReach (.single hReturn)⟩

/-- `waits_on` terminates, and finds for each ask whom some chain of asks onward comes to, if
any comes to an end: but for an ask that the first asks onward come back to, where it answers
with the ask's own thread whether a chain ends there or not. -/
theorem waits_on_iff (host : Host) (main : Main) (isOpen : Wish → Bool) (found : List Wish) :
    ∃ heads, (∀ extra, waits_on host main isOpen ((asksOf isOpen found).length + extra) found = some heads) ∧
      heads.map Prod.fst = (asksOf isOpen found).map Prod.fst ∧
      ∀ id ask, (id, ask) ∈ asksOf isOpen found → ∃ head, (id, head) ∈ heads ∧
        (Arrives host main (asksOf isOpen found) ask head ∨ Endless host main (asksOf isOpen found) ask ↔
          ¬ Returns host main (asksOf isOpen found) ask ∨ Endless host main (asksOf isOpen found) ask ∨
            Arrives host main (asksOf isOpen found) ask (ownThread ask)) := by
  have hWalk : ∀ item : Value × Wish, ∃ head, item ∈ asksOf isOpen found →
      (∀ extra, walk host main (asksOf isOpen found) ((asksOf isOpen found).length + extra) [] item.2 = some head) ∧
        (Arrives host main (asksOf isOpen found) item.2 head ∧ ¬ Returns host main (asksOf isOpen found) item.2 ∨
          head = ownThread item.2 ∧ Returns host main (asksOf isOpen found) item.2) := by
    intro item
    by_cases hItem : item ∈ asksOf isOpen found
    · obtain ⟨head, hHead⟩ := walk_spec host main (List.mem_map_of_mem hItem)
      exact ⟨head, fun _ => hHead⟩
    · exact ⟨"", fun h => (hItem h).elim⟩
  obtain ⟨head, hHead⟩ := Classical.axiomOfChoice hWalk
  refine ⟨(asksOf isOpen found).map fun item => (item.1, head item), fun extra => ?_, ?_, fun id ask hAsk => ?_⟩
  · refine Fallible.mapM_some fun item hItem => ?_
    rw [(hHead item hItem).1 extra]
    rfl
  · rw [List.map_map]
    rfl
  · refine ⟨head (id, ask), List.mem_map.mpr ⟨_, hAsk, rfl⟩, ?_⟩
    rcases (hHead (id, ask) hAsk).2 with ⟨hArrives, hNot⟩ | ⟨hOwn, hReturns⟩
    · exact iff_of_true (.inl hArrives) (.inl hNot)
    · rw [hOwn, or_comm]
      exact (or_iff_right (not_not_intro hReturns)).symm

/-- An ask of the resident on a thread, for a parent. -/
def askFor (id thread parent : String) : Wish :=
  { Wish.new (.str id) "" with
    sender := .str "resident"
    thread := .str thread
    parent := .str parent }

/-- Three threads that have opened each other in a ring. -/
def ring : Main :=
  [("a", [("opened-by", .str "thread:b"), ("status", .str "open")]),
   ("b", [("opened-by", .str "thread:c"), ("status", .str "open")]),
   ("c", [("opened-by", .str "thread:a"), ("status", .str "open")])]

/-- Their asks, each the parent of the next, and a second ask onward for the first. -/
def ringAsks : List Wish :=
  [askFor "ask" "a" "third", askFor "second" "b" "ask", askFor "third" "c" "second", askFor "other" "b" "ask"]

def bareHost : Host where
  seconds _ := none
  millis _ := none
  repr _ := ""
  loads _ := none

/-- The first asks onward come back to the ask, and its wait is said to be with its own
thread; by the second one it comes to a thread that has not asked onward. -/
theorem waits_on_own_thread :
    (waits_on bareHost ring (fun _ => true) 4 ringAsks).any ((.str "ask", "thread:a") ∈ ·) = true ∧
    ¬ (Arrives bareHost ring (asksOf (fun _ => true) ringAsks) (askFor "ask" "a" "third") "thread:a" ∨
      Endless bareHost ring (asksOf (fun _ => true) ringAsks) (askFor "ask" "a" "third")) := by
  have hAsks : ∀ x, Relation.ReflTransGen (Passes bareHost ring (asksOf (fun _ => true) ringAsks)) (askFor "ask" "a" "third") x →
      x ∈ ringAsks := by
    intro x hReach
    cases hReach with
    | refl => decide +kernel
    | tail _ hPasses =>
        have hMem : (asksOf (fun _ => true) ringAsks).map Prod.snd = ringAsks := by decide +kernel
        exact hMem ▸ hPasses.2.1
  refine ⟨by decide +kernel, ?_⟩
  rintro (⟨last, hReach, hEnd, hHead⟩ | hEndless)
  · have hNone : ∀ x ∈ ringAsks, (∀ next ∈ ringAsks, ¬ Passes bareHost ring (asksOf (fun _ => true) ringAsks) x next) →
        "thread:a" ≠ (turn bareHost ring (asksOf (fun _ => true) ringAsks) x).1 := by decide +kernel
    exact hNone last (hAsks last hReach) (fun next _ => hEnd next) hHead
  · have hFirst : Passes bareHost ring (asksOf (fun _ => true) ringAsks) (askFor "ask" "a" "third") (askFor "other" "b" "ask") := by
      decide +kernel
    obtain ⟨next, hNext⟩ := hEndless _ (.single hFirst)
    have hNone : ∀ next ∈ ringAsks, ¬ Passes bareHost ring (asksOf (fun _ => true) ringAsks) (askFor "other" "b" "ask") next := by
      decide +kernel
    exact hNone next (hAsks next (.tail (.single hFirst) hNext)) hNext

end Brnrd.Wishes
