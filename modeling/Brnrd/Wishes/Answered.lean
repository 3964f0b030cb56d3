import Brnrd.Ledger.LetterIndex
import Brnrd.Wishes.Wish
import Mathlib.Data.List.TakeWhile

/-! The letter that answers what a park waits for, looked for over the view of the ledger and
over the plain list of its facts. -/
namespace Brnrd.Wishes

open Python Facts Ledger

section Search

variable (host : Host) (citer : Fact → Bool) (target since : String)

/-- `letter.data.get("re") == target or (target in (letter.data.get("links") or ()) and citer(letter))`. -/
def hits (letter : Fact) : Except WishError Bool :=
  if Dict.get letter.data "re" = .str target then .ok true
  else do .ok ((← isIn (.str target) (Dict.get letter.data "links")) && citer letter)

/-- The loop of `_answers` over the letters, newest first. -/
def scan : List Fact → Except WishError (Option String)
  | [] => .ok none
  | letter :: older =>
      if letter.at_ < since then .ok none
      else do if ← hits citer target letter then .ok (some (nameOf host letter)) else scan older

/-- `_answers(facts, target, since, replied, citer)` over a plain list. -/
def answersList (facts : List Fact) : Except WishError (Option String) :=
  scan host citer target since (facts.filter fun f => f.kind = "letter").reverse

/-- The letters of the reply index that reply at or after `replied`. The order of a set is
not the program's to say, and only the name that is found depends on it. -/
def repliesOf (v : LedgerView) (replied : Option String) : List Fact :=
  (((v.lettersByReply.lookup (.str target)).getD []).filterMap fun ident => v.byId.lookup ident).filter
    fun letter => replied.getD since ≤ letter.at_

/-- `_answers(facts, target, since, replied, citer)` over a view. -/
def answersView (v : LedgerView) (replied : Option String) : Except WishError (Option String) :=
  match (repliesOf target since v replied).head? with
  | some letter => .ok (some (nameOf host letter))
  | none => scan host citer target since (kindRows v "letter").reverse

/-- The letter replies to the target, or cites it for a citer that is admitted. -/
def Direct (letter : Fact) : Prop :=
  Dict.get letter.data "re" = .str target ∨
    isIn (.str target) (Dict.get letter.data "links") = .ok true ∧ citer letter = true

/-- A letter that replies at or after `replied`, or replies or cites at or after `since`. -/
def Answers (replied : Option String) (letter : Fact) : Prop :=
  isLetter letter ∧ (Dict.get letter.data "re" = .str target ∧ replied.getD since ≤ letter.at_ ∨
    since ≤ letter.at_ ∧ Direct citer target letter)

/-- The letters that the loop comes to: from the newest down to the first one before `since`. -/
def recent (facts : List Fact) : List Fact :=
  (facts.filter fun f => f.kind = "letter").reverse.takeWhile fun letter => since ≤ letter.at_

/-- Both searches come to an end, with a letter that answers or with none, and with one where
the ledger holds one. -/
def Agree (v : LedgerView) (replied : Option String) : Prop :=
  ∃ found listed, answersView host citer target since v replied = .ok found ∧
    answersList host citer target since v.facts = .ok listed ∧ (found.isSome ↔ listed.isSome) ∧
    (found.isSome ↔ ∃ letter ∈ v.facts, Answers citer target since replied letter) ∧
    ∀ name, found = some name ∨ listed = some name →
      ∃ letter ∈ v.facts, Answers citer target since replied letter ∧ nameOf host letter = name

/-- Every letter that the loop asks, until one answers, has links that can be searched. -/
def Readable (facts : List Fact) : Prop :=
  ∀ first letter rest, recent since facts = first ++ letter :: rest → (∀ prior ∈ first, ¬ Direct citer target prior) →
    ∃ answer, hits citer target letter = .ok answer

/-- Where a letter answers, one that replies or cites has no letter before `since` on its way
from the newest one, itself included. -/
def Near (replied : Option String) (facts : List Fact) : Prop :=
  (∃ letter ∈ facts, Answers citer target since replied letter) → ∃ letter ∈ recent since facts, Direct citer target letter

end Search

variable {host : Host} {citer : Fact → Bool} {target since : String} {replied : Option String} {v : LedgerView}
  {facts letters : List Fact} {letter : Fact}

theorem hits_eq_true : hits citer target letter = .ok true ↔ Direct citer target letter := by
  unfold hits Direct
  split
  · rename_i hReply
    simp [hReply]
  · rename_i hReply
    cases hLinks : isIn (.str target) (Dict.get letter.data "links") with
    | error e => simp [hReply, bind, Except.bind]
    | ok cites => simp [hReply, bind, Except.bind]

theorem scan_cons (older : List Fact) :
    scan host citer target since (letter :: older) = if letter.at_ < since then .ok none
      else hits citer target letter >>= fun found =>
        if found then .ok (some (nameOf host letter)) else scan host citer target since older :=
  rfl

/-- The loop is a search of the letters that it comes to. -/
theorem scan_eq : scan host citer target since letters =
    (firstM (hits citer target) (letters.takeWhile fun letter => since ≤ letter.at_)).map (Option.map (nameOf host)) := by
  induction letters with
  | nil => rfl
  | cons letter older ih =>
      rw [scan_cons]
      by_cases hOld : letter.at_ < since
      · rw [if_pos hOld, List.takeWhile_cons, if_neg (by simpa using not_le.mpr hOld)]
        rfl
      · rw [if_neg hOld, List.takeWhile_cons, if_pos (decide_eq_true (not_lt.mp hOld)), firstM, ih]
        cases hits citer target letter with
        | error e => rfl
        | ok answer => cases answer <;> rfl

/-- A search finds the first that satisfies its test, and those before it do not. -/
theorem firstM_eq_ok {α : Type} {test : α → Except WishError Bool} {items : List α} {found : Option α}
    (h : firstM test items = .ok found) :
    (found = none ∧ ∀ x ∈ items, test x = .ok false) ∨
      ∃ first x rest, items = first ++ x :: rest ∧ found = some x ∧ test x = .ok true ∧ ∀ prior ∈ first, test prior = .ok false := by
  induction items with
  | nil => exact .inl ⟨(Except.ok.inj h).symm, by simp⟩
  | cons x items ih =>
      obtain ⟨answer, hTest, hRest⟩ := Fallible.peel h
      cases answer with
      | true => exact .inr ⟨[], x, items, rfl, (Except.ok.inj hRest).symm, hTest, by simp⟩
      | false =>
          rcases ih hRest with ⟨hNone, hAll⟩ | ⟨first, y, rest, rfl, hSome, hTrue, hFirst⟩
          · exact .inl ⟨hNone, List.forall_mem_cons.mpr ⟨hTest, hAll⟩⟩
          · exact .inr ⟨x :: first, y, rest, rfl, hSome, hTrue, List.forall_mem_cons.mpr ⟨hTest, hFirst⟩⟩

/-- A search comes to an end where every test does that it makes. -/
theorem firstM_ok {α : Type} {test : α → Except WishError Bool} {items : List α}
    (h : ∀ first x rest, items = first ++ x :: rest → (∀ prior ∈ first, test prior = .ok false) → ∃ answer, test x = .ok answer) :
    ∃ found, firstM test items = .ok found := by
  induction items with
  | nil => exact ⟨none, rfl⟩
  | cons x items ih =>
      obtain ⟨answer, hTest⟩ := h [] x items rfl (by simp)
      cases answer with
      | true => exact ⟨some x, by rw [firstM, hTest]; rfl⟩
      | false =>
          obtain ⟨found, hFound⟩ := ih fun first y rest hSplit hFirst =>
            h (x :: first) y rest (by rw [hSplit]; rfl) (List.forall_mem_cons.mpr ⟨hTest, hFirst⟩)
          exact ⟨found, by rw [firstM, hTest, ← hFound]; rfl⟩

theorem answersList_eq : answersList host citer target since facts =
    (firstM (hits citer target) (recent since facts)).map (Option.map (nameOf host)) :=
  scan_eq

theorem mem_recent (h : letter ∈ recent since facts) : letter ∈ facts ∧ isLetter letter ∧ since ≤ letter.at_ := by
  have hMem := List.mem_filter.mp (List.mem_reverse.mp (List.takeWhile_subset _ h))
  have hAt : decide (since ≤ letter.at_) = true := List.mem_takeWhile_imp (p := fun f : Fact => since ≤ f.at_) h
  exact ⟨hMem.1, hMem.2, of_decide_eq_true hAt⟩

theorem answers_of_recent (h : letter ∈ recent since facts) (hDirect : Direct citer target letter) :
    Answers citer target since replied letter :=
  ⟨(mem_recent h).2.1, .inr ⟨(mem_recent h).2.2, hDirect⟩⟩

theorem answersList_none (h : answersList host citer target since facts = .ok none) (hMem : letter ∈ recent since facts) :
    ¬ Direct citer target letter := by
  rw [answersList_eq] at h
  obtain ⟨found, hFound, hNone⟩ := Fallible.map_eq_ok.mp h
  obtain rfl := Option.map_eq_none_iff.mp hNone
  rcases firstM_eq_ok hFound with ⟨-, hAll⟩ | ⟨_, _, _, _, hSome, -⟩
  · intro hDirect
    exact absurd (Except.ok.inj ((hAll letter hMem).symm.trans (hits_eq_true.mpr hDirect))) (by decide)
  · cases hSome

theorem answersList_some {name : String} (h : answersList host citer target since facts = .ok (some name)) :
    ∃ letter ∈ recent since facts, Direct citer target letter ∧ nameOf host letter = name := by
  rw [answersList_eq] at h
  obtain ⟨found, hFound, hName⟩ := Fallible.map_eq_ok.mp h
  rcases firstM_eq_ok hFound with ⟨rfl, -⟩ | ⟨first, letter, rest, hSplit, rfl, hTrue, -⟩
  · cases hName
  · exact ⟨letter, hSplit ▸ List.mem_append_right _ List.mem_cons_self, hits_eq_true.mp hTrue, Option.some.inj hName⟩

/-- The plain list names a letter where one that it comes to replies or cites. -/
theorem answersList_isSome {listed : Option String} (h : answersList host citer target since facts = .ok listed) :
    listed.isSome ↔ ∃ letter ∈ recent since facts, Direct citer target letter := by
  cases listed with
  | none => exact iff_of_false (by simp) fun ⟨_, hMem, hDirect⟩ => answersList_none h hMem hDirect
  | some name =>
      obtain ⟨letter, hMem, hDirect, -⟩ := answersList_some h
      exact iff_of_true rfl ⟨letter, hMem, hDirect⟩

theorem answersList_ok : (∃ listed, answersList host citer target since facts = .ok listed) ↔
    Readable citer target since facts := by
  rw [answersList_eq]
  constructor
  · rintro ⟨listed, hListed⟩ first letter rest hSplit hFirst
    obtain ⟨found, hFound, -⟩ := Fallible.map_eq_ok.mp hListed
    rcases firstM_eq_ok hFound with ⟨-, hNone⟩ | ⟨before, hit, after, hCut, -, hTrue, hBefore⟩
    · exact ⟨false, hNone letter (hSplit ▸ List.mem_append_right _ List.mem_cons_self)⟩
    · rw [hSplit] at hCut
      rcases List.append_eq_append_iff.mp hCut with ⟨more, rfl, hRest⟩ | ⟨more, rfl, hRest⟩
      · cases more with
        | nil => exact ⟨true, (List.cons.inj hRest).1 ▸ hTrue⟩
        | cons x more =>
            obtain rfl := (List.cons.inj hRest).1
            exact ⟨false, hBefore letter (by simp)⟩
      · cases more with
        | nil => exact ⟨true, (List.cons.inj hRest).1 ▸ hTrue⟩
        | cons x more =>
            obtain rfl := (List.cons.inj hRest).1
            exact (hFirst hit (by simp) (hits_eq_true.mp hTrue)).elim
  · intro hReadable
    obtain ⟨found, hFound⟩ := firstM_ok fun first letter rest hSplit hFirst => hReadable first letter rest hSplit
      fun prior hPrior hDirect => absurd (Except.ok.inj ((hFirst prior hPrior).symm.trans (hits_eq_true.mpr hDirect))) (by decide)
    exact ⟨found.map (nameOf host), by rw [hFound]; rfl⟩

/-- The reply index leads to the letters of the view that reply. -/
theorem mem_repliesOf (hBuilt : v.Built host) (hLettered : v.Lettered host) : letter ∈ repliesOf target since v replied ↔
    letter ∈ v.facts ∧ isLetter letter ∧ Dict.get letter.data "re" = .str target ∧ replied.getD since ≤ letter.at_ := by
  unfold repliesOf
  rw [List.mem_filter, List.mem_filterMap, decide_eq_true_eq]
  constructor
  · rintro ⟨⟨ident, hIdent, hById⟩, hAt⟩
    obtain ⟨hMem, hId⟩ := (hBuilt.indexed.byId _ _).mp hById
    obtain ⟨reply, hReply, hLetter, hRe, hReplyId⟩ := (hLettered.byReply _ _).mp hIdent
    obtain rfl := List.inj_on_of_nodup_map hBuilt.indexed.ids hMem hReply (hId.trans hReplyId.symm)
    exact ⟨hMem, hLetter, hRe, hAt⟩
  · rintro ⟨hMem, hLetter, hRe, hAt⟩
    exact ⟨⟨letter.id, (hLettered.byReply _ _).mpr ⟨letter, hMem, hLetter, hRe, rfl⟩,
      (hBuilt.indexed.byId _ _).mpr ⟨hMem, rfl⟩⟩, hAt⟩

/-- The view asks its reply index, and then does what the plain list does. -/
theorem answersView_eq (hBuilt : v.Built host) : answersView host citer target since v replied =
    match (repliesOf target since v replied).head? with
    | some letter => .ok (some (nameOf host letter))
    | none => answersList host citer target since v.facts := by
  rw [answersView, kindRows, hBuilt.indexed.byKind]
  rfl

/-- The view and the plain list agree, and name a letter where one answers, where the plain
list can be searched and one that answers lies near. -/
theorem agree_iff (hBuilt : v.Built host) (hLettered : v.Lettered host) :
    Agree host citer target since v replied ↔
      Readable citer target since v.facts ∧ Near citer target since replied v.facts := by
  constructor
  · rintro ⟨found, listed, -, hListed, hSame, hFound, -⟩
    refine ⟨answersList_ok.mp ⟨listed, hListed⟩, fun hAnswers => ?_⟩
    exact (answersList_isSome hListed).mp (hSame.mp (hFound.mpr hAnswers))
  · rintro ⟨hReadable, hNear⟩
    obtain ⟨listed, hListed⟩ := answersList_ok.mpr hReadable
    have hSome : listed.isSome ↔ ∃ letter ∈ v.facts, Answers citer target since replied letter := by
      refine ⟨fun h => ?_, fun h => (answersList_isSome hListed).mpr (hNear h)⟩
      obtain ⟨letter, hRecent, hDirect⟩ := (answersList_isSome hListed).mp h
      exact ⟨letter, (mem_recent hRecent).1, answers_of_recent hRecent hDirect⟩
    have hNamed : ∀ name, listed = some name → ∃ letter ∈ v.facts, Answers citer target since replied letter ∧
        nameOf host letter = name := by
      rintro name rfl
      obtain ⟨letter, hRecent, hDirect, hName⟩ := answersList_some hListed
      exact ⟨letter, (mem_recent hRecent).1, answers_of_recent hRecent hDirect, hName⟩
    cases hReplies : (repliesOf target since v replied).head? with
    | none =>
        refine ⟨listed, listed, ?_, hListed, .rfl, hSome, fun name hName => hNamed name (or_self_iff.mp hName)⟩
        rw [answersView_eq hBuilt, hReplies]
        exact hListed
    | some letter =>
        obtain ⟨hMem, hLetter, hRe, hAt⟩ := (mem_repliesOf hBuilt hLettered).mp (List.mem_of_head? hReplies)
        have hAnswers : Answers citer target since replied letter := ⟨hLetter, .inl ⟨hRe, hAt⟩⟩
        have hSomeone : ∃ letter ∈ v.facts, Answers citer target since replied letter := ⟨letter, hMem, hAnswers⟩
        refine ⟨some (nameOf host letter), listed, ?_, hListed, iff_of_true rfl (hSome.mpr hSomeone),
          iff_of_true rfl hSomeone, ?_⟩
        · rw [answersView_eq hBuilt, hReplies]
        · rintro name (hName | hName)
          · exact ⟨letter, hMem, hAnswers, Option.some.inj hName⟩
          · exact hNamed name hName

/-- A view that extensions have made, with the indexes over its letters. -/
theorem extended_view {batches : List (List Fact)}
    (h : batches.foldlM (fun v batch => LedgerView.extend host v batch) LedgerView.empty = .ok v) :
    v.Built host ∧ v.Lettered host := by
  refine Fallible.foldlM_invariant (fun _ v => v.Built host ∧ v.Lettered host) ⟨.empty host, (Lettered.grows host).empty⟩ ?_ h
  rintro _ batch v w ⟨hBuilt, hLettered⟩ hExtend
  obtain ⟨⟨u, delta, repair⟩, hIncoming, hApply⟩ := Fallible.peel hExtend
  exact ⟨(hBuilt.apply hIncoming hApply).1,
    (Lettered.grows host).apply ((Lettered.grows host).incoming hLettered hIncoming) hApply⟩

/-- Over every view that extensions make and the plain list of its facts, for every target,
times and citer, the answer is found the same way, and where there is one, if and only if the
letters on the way can be searched and no older letter hides it. -/
theorem answers_iff {batches : List (List Fact)}
    (h : batches.foldlM (fun v batch => LedgerView.extend host v batch) LedgerView.empty = .ok v)
    (citer : Fact → Bool) (target since : String) (replied : Option String) :
    Agree host citer target since v replied ↔
      Readable citer target since v.facts ∧ Near citer target since replied v.facts :=
  agree_iff (extended_view h).1 (extended_view h).2

/-- A person's letter, at a time of its install's clock. -/
def personLetter (ident at_ re : String) (links : List String) (ms : Int) : Fact :=
  ⟨"letter", "person:p-a", [("from", .str "person:p-a"), ("id", .str ident), ("links", .arr (links.map .str)),
    ("re", .str re)], at_, ident, version, some ⟨ms, 0, "aaaa"⟩, []⟩

theorem answers_iff_cited : ∃ v, [[personLetter "l-1" "1" "" [] 1, personLetter "l-2" "3" "" ["w-1"] 2]].foldlM
    (fun v batch => LedgerView.extend timedHost v batch) LedgerView.empty = .ok v ∧
      (Agree timedHost (isPerson timedHost) "w-1" "2" v none ↔
        Readable (isPerson timedHost) "w-1" "2" v.facts ∧ Near (isPerson timedHost) "w-1" "2" none v.facts) := by
  have hOk : (([[personLetter "l-1" "1" "" [] 1, personLetter "l-2" "3" "" ["w-1"] 2]].foldlM
      (fun v batch => LedgerView.extend timedHost v batch) LedgerView.empty).map fun _ => ()) = .ok () := by decide +kernel
  obtain ⟨v, hView, -⟩ := Fallible.map_eq_ok.mp hOk
  exact ⟨v, hView, answers_iff hView (isPerson timedHost) "w-1" "2" none⟩

/-- What the two searches find over a view of some letters. -/
def searched (letters : List Fact) (citer : Fact → Bool) (target since : String) (replied : Option String) :
    Except ViewError (Bool × Option (Option String) × Option (Option String)) := do
  let v ← LedgerView.empty.extend timedHost letters
  .ok (v.facts = letters, (answersView timedHost citer target since v replied).toOption,
    (answersList timedHost citer target since v.facts).toOption)

/-- A reply from before the park is found over the view alone; a letter that cites the target
is found over neither, where a letter of an install whose clock is behind has come after it. -/
theorem answers_hidden :
    (∃ v, LedgerView.empty.extend timedHost [personLetter "l-1" "1" "q-1" [] 1] = .ok v ∧
      ¬ Agree timedHost (fun _ => true) "q-1" "2" v (some "")) ∧
    ∃ v, LedgerView.empty.extend timedHost [personLetter "l-1" "3" "" ["w-1"] 1, personLetter "l-2" "1" "" [] 2] = .ok v ∧
      ¬ Agree timedHost (isPerson timedHost) "w-1" "2" v none := by
  constructor
  · have hFound : searched [personLetter "l-1" "1" "q-1" [] 1] (fun _ => true) "q-1" "2" (some "") =
        .ok (true, some (some "l-1"), some none) := by decide +kernel
    obtain ⟨v, hView, hRest⟩ := Fallible.peel hFound
    refine ⟨v, hView, ?_⟩
    rintro ⟨found, listed, hOver, hListed, hSame, -⟩
    rw [hOver, hListed] at hRest
    obtain ⟨-, hPair⟩ := Fallible.pair hRest
    obtain ⟨hOne, hOther⟩ := Prod.mk.inj hPair
    obtain rfl := Option.some.inj hOne
    obtain rfl := Option.some.inj hOther
    exact absurd (hSame.mp rfl) (by decide)
  · have hFound : searched [personLetter "l-1" "3" "" ["w-1"] 1, personLetter "l-2" "1" "" [] 2] (isPerson timedHost) "w-1" "2" none =
        .ok (true, some none, some none) := by decide +kernel
    obtain ⟨v, hView, hRest⟩ := Fallible.peel hFound
    refine ⟨v, hView, ?_⟩
    rintro ⟨found, listed, hOver, -, -, hAnswers, -⟩
    rw [hOver] at hRest
    obtain ⟨hFacts, hPair⟩ := Fallible.pair hRest
    obtain rfl := Option.some.inj (Prod.mk.inj hPair).1
    refine absurd (hAnswers.mpr ⟨personLetter "l-1" "3" "" ["w-1"] 1, ?_, by decide, .inr ⟨by decide, .inr ⟨by decide, by decide⟩⟩⟩)
      (by decide)
    rw [of_decide_eq_true hFacts]
    exact List.mem_cons_self

end Brnrd.Wishes
