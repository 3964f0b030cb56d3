import Brnrd.Facts.Succeeds
import Brnrd.Guards.Judged

/-! The condition is exact: where the first occurrences do not cover the rest, some
ledger grants the first ones only. Its letters are one for each judged ask. -/
namespace Brnrd.Guards

open Python Facts Wishes

variable {alphabet : Alphabet} {host : Host}

/-- A letter of the owner on the one wish. -/
def letterFact (i : Nat) (body : Text) : Fact where
  kind := "letter"
  by_ := "loom:aaaa"
  data := [("body", .str (String.ofList body)), ("from", .str "person:o"), ("wish", .str "w")]
  at_ := ""
  id := String.ofList (List.replicate (i + 1) 'l')
  v := 1
  hlc := some ⟨0, 0, "aaaa"⟩
  after := []

/-- The one wish, of the thread. -/
def wishFact : Fact where
  kind := "wish"
  by_ := "strand:s"
  data := [("from", .str "person"), ("line", .str ""), ("thread", .str "t"), ("wish", .str "w")]
  at_ := ""
  id := "w"
  v := 1
  hlc := some ⟨0, 0, "aaaa"⟩
  after := []

def ledgerOf (bodies : List Text) : List Fact :=
  bodies.mapIdx letterFact ++ [wishFact]

/-- The room of the thread, with such a ledger and one owner. -/
def roomOf (bodies : List Text) : Room where
  facts := ledgerOf bodies
  thread := "t"
  owner := ["person:o"]
  strand := "s"
  gen := .null
  checkout := ⟨false, "", fun _ => none, fun _ => false, fun _ => []⟩
  expired := fun _ => false

variable {bodies : List Text}

theorem mem_ledgerOf {f : Fact} :
    f ∈ ledgerOf bodies ↔ (∃ i, ∃ h : i < bodies.length, f = letterFact i bodies[i]) ∨ f = wishFact := by
  simp [ledgerOf, List.mem_mapIdx, eq_comm]

theorem letterFact_id_ne_wish (i : Nat) (body : Text) : (letterFact i body).id ≠ wishFact.id := by
  intro hSame
  have hList := congrArg String.toList hSame
  rw [letterFact, String.toList_ofList, List.replicate_succ] at hList
  exact absurd (List.cons.inj hList).1 (by decide)

theorem letterFact_id_inj {i j : Nat} {body body' : Text} (h : (letterFact i body).id = (letterFact j body').id) : i = j := by
  have hLength := congrArg (fun s : String => s.toList.length) h
  simp only [letterFact, String.toList_ofList, List.length_replicate] at hLength
  omega

/-- The ids of the ledger are distinct. -/
theorem ledgerOf_ids {f g : Fact} (hf : f ∈ ledgerOf bodies) (hg : g ∈ ledgerOf bodies) (hId : f.id = g.id) : f = g := by
  rcases mem_ledgerOf.mp hf with ⟨i, hi, rfl⟩ | rfl <;> rcases mem_ledgerOf.mp hg with ⟨j, hj, rfl⟩ | rfl
  · obtain rfl := letterFact_id_inj hId
    rfl
  · exact absurd hId (letterFact_id_ne_wish _ _)
  · exact absurd hId.symm (letterFact_id_ne_wish _ _)
  · rfl

theorem ledgerOf_shape {f : Fact} (hf : f ∈ ledgerOf bodies) : f.after = [] ∧ ∃ stamp, f.hlc = some stamp := by
  rcases mem_ledgerOf.mp hf with ⟨i, hi, rfl⟩ | rfl <;> exact ⟨rfl, _, rfl⟩

/-- The union of the ledger is the ledger, in some order. -/
theorem ledgerOf_union (host : Python.Host) (bodies : List Text) :
    ∃ l, union host [ledgerOf bodies] = .ok l ∧ l.Nodup ∧ ∀ f, f ∈ l ↔ f ∈ ledgerOf bodies := by
  have hFlat : [ledgerOf bodies].flatten = ledgerOf bodies := by simp
  obtain ⟨l, hUnion⟩ := @union_succeeds host [ledgerOf bodies]
    (by
      rw [hFlat]
      exact fun f hf g hg hClash => hClash.2.1 (ledgerOf_ids hf hg hClash.1))
    (by
      rw [hFlat]
      intro f hf
      obtain ⟨-, stamp, hStamp⟩ := ledgerOf_shape hf
      simp [orderKey, order, hStamp])
    (fun _ => 0)
    (by
      rw [hFlat]
      intro f hf g hg hBefore
      rw [Before, (ledgerOf_shape hf).1] at hBefore
      cases hBefore)
  have hLedger := union_ledger hUnion
  rw [hFlat] at hLedger
  refine ⟨l, hUnion, hLedger.ids.of_map _, fun f => ?_⟩
  rw [hLedger.mem]
  exact ⟨fun hKept => hKept.1, fun hf => ⟨hf, fun g hg hId => .inl (ledgerOf_ids hg hf hId)⟩⟩

/-- The wishes of the ledger: the one wish, which is open. -/
theorem ledgerOf_wishes (host : Python.Host) (bodies : List Text) :
    ∃ w, wishes host (roomOf bodies).checkout (ledgerOf bodies) = .ok [w] ∧ w.id = .str "w" ∧
      w.thread = .str (roomOf bodies).thread ∧ isOpen (roomOf bodies).expired w = .ok true := by
  obtain ⟨l, hUnion, hNodup, hMem⟩ := ledgerOf_union host bodies
  have hTable : (l.filter fun f => f.kind ∈ tableKinds) = [wishFact] := by
    refine List.perm_singleton.mp ((List.perm_ext_iff_of_nodup (hNodup.filter _) (by simp)).mpr fun f => ?_)
    rw [List.mem_filter, hMem, mem_ledgerOf, List.mem_singleton]
    constructor
    · rintro ⟨⟨i, hi, rfl⟩ | rfl, hKind⟩
      · exact absurd (of_decide_eq_true hKind) (show "letter" ∉ tableKinds by decide)
      · rfl
    · rintro rfl
      exact ⟨.inr rfl, by decide⟩
  have hFold : [wishFact].foldlM foldFact [] = .ok [{ Wish.new (.str "w") "" with thread := .str "t" }] := rfl
  unfold wishes
  rw [hUnion]
  dsimp only
  unfold wishTable
  rw [hTable, hFold]
  refine ⟨_, rfl, rfl, rfl, rfl⟩

/-- A table filled with distinct names is the list of its entries. -/
theorem foldl_putKey {facts : List Fact} {found : List (String × Fact)} (name : Fact → String)
    (hDistinct : ((found.map Prod.fst) ++ facts.map name).Nodup) :
    facts.foldl (fun found f => putKey found (name f) f) found = found ++ facts.map fun f => (name f, f) := by
  induction facts generalizing found with
  | nil => simp
  | cons f facts ih =>
      have hNew : found.any (fun item => decide (item.1 = name f)) = false := by
        rw [List.any_eq_false]
        intro item hItem hSame
        rw [List.nodup_append] at hDistinct
        exact hDistinct.2.2 _ (List.mem_map_of_mem hItem) _ (by simp) (of_decide_eq_true hSame)
      have hPut : putKey found (name f) f = found ++ [(name f, f)] := by
        rw [putKey, if_neg (by simp [hNew])]
      rw [List.foldl_cons, hPut, ih (by simpa [List.append_assoc] using hDistinct)]
      simp

theorem letterName_letterFact (host : Python.Host) (i : Nat) (body : Text) :
    letterName host (letterFact i body) = (letterFact i body).id := rfl

theorem ledgerOf_letters (host : Host) (bodies : List Text) :
    letters host (ledgerOf bodies) = (bodies.mapIdx letterFact).map fun f => (f.id, f) := by
  have hLetters : (ledgerOf bodies).filter (fun f => f.kind = "letter") = bodies.mapIdx letterFact := by
    rw [ledgerOf, List.filter_append, List.filter_eq_self.mpr]
    · simp [wishFact]
    · intro f hf
      obtain ⟨i, hi, rfl⟩ := List.mem_mapIdx.mp hf
      rfl
  have hNames : ∀ f ∈ bodies.mapIdx letterFact, letterName host.python f = f.id := by
    intro f hf
    obtain ⟨i, hi, rfl⟩ := List.mem_mapIdx.mp hf
    exact letterName_letterFact _ _ _
  have hNodup : ((bodies.mapIdx letterFact).map (letterName host.python)).Nodup := by
    rw [List.map_congr_left hNames, List.Nodup, List.pairwise_map, List.pairwise_iff_getElem]
    intro i j hi hj hLt hSame
    rw [List.getElem_mapIdx, List.getElem_mapIdx] at hSame
    have hEqual := letterFact_id_inj hSame
    omega
  rw [letters, lettersOf, hLetters, foldl_putKey _ (by simpa using hNodup), List.nil_append]
  exact List.map_congr_left fun f hf => by rw [hNames f hf]

theorem mem_of_lookup {items : List (String × Fact)} {ident : String} {letter : Fact}
    (h : items.lookup ident = some letter) : (ident, letter) ∈ items := by
  induction items with
  | nil => cases h
  | cons item items ih =>
      rw [List.lookup_cons] at h
      split at h
      · rename_i hSame
        obtain rfl := Option.some.inj h
        rw [beq_iff_eq.mp hSame]
        exact List.mem_cons_self
      · exact List.mem_cons_of_mem _ (ih h)

/-- Every letter of the ledger is found by its id. -/
theorem ledgerOf_lookup {i : Nat} (hi : i < bodies.length) :
    (letters host (ledgerOf bodies)).lookup (letterFact i bodies[i]).id = some (letterFact i bodies[i]) := by
  rw [ledgerOf_letters]
  have hMem : letterFact i bodies[i] ∈ bodies.mapIdx letterFact := List.mem_mapIdx.mpr ⟨i, hi, rfl⟩
  have hIds : ∀ f ∈ bodies.mapIdx letterFact, f.id = (letterFact i bodies[i]).id → f = letterFact i bodies[i] :=
    fun f hf hId => ledgerOf_ids (List.mem_append_left _ hf) (List.mem_append_left _ hMem) hId
  generalize bodies.mapIdx letterFact = facts at hMem hIds
  induction facts with
  | nil => cases hMem
  | cons f facts ih =>
      rw [List.map_cons, List.lookup_cons]
      split
      · rename_i hSame
        rw [hIds f List.mem_cons_self (beq_iff_eq.mp hSame).symm]
      · rename_i hSame
        refine ih ?_ fun g hg => hIds g (List.mem_cons_of_mem _ hg)
        rcases List.mem_cons.mp hMem with rfl | hMem
        · simp at hSame
        · exact hMem

theorem ledgerOf_held (host : Python.Host) (bodies : List Text) : held host (ledgerOf bodies) = [] := by
  rw [held, List.filterMap_eq_nil_iff]
  intro f hf
  rcases mem_ledgerOf.mp (List.mem_of_mem_filter hf) with ⟨i, hi, rfl⟩ | rfl <;> rfl

theorem letterFact_body (i : Nat) (body : Text) : textOf host (letterFact i body).data "body" = body := by
  have hValue : textOf host (letterFact i body).data "body" =
      (((Value.str (String.ofList body)).orElse (.str "")).toStr host.python).toList := rfl
  rw [hValue]
  unfold Value.orElse
  split
  · exact String.toList_ofList
  · rename_i hEmpty
    have hNil : String.ofList body = "" := by simpa [Value.truthy] using hEmpty
    have hBody := congrArg String.toList hNil
    rw [String.toList_ofList] at hBody
    rw [hBody]
    rfl

/-- `find` finds the letter that states an ask. -/
theorem ledgerOf_find {ask : Ask} {body : Text} (hBody : body ∈ bodies) (hStates : states alphabet body ask = true) :
    ∃ grant, find alphabet host (roomOf bodies) ask = .ok (some grant) := by
  obtain ⟨i, hi, rfl⟩ := List.mem_iff_getElem.mp hBody
  obtain ⟨w, hWishes, hId, hThread, hOpen⟩ := ledgerOf_wishes host.python bodies
  have hQualifies : qualifies alphabet host (roomOf bodies) ask (letterFact i bodies[i]).id =
      some (letterFact i bodies[i]) := by
    refine qualifies_eq_some.mpr ⟨ledgerOf_lookup hi, ?_, ?_, by rw [letterFact_body]; exact hStates⟩
    · rw [show (roomOf bodies).facts = ledgerOf bodies from rfl, ledgerOf_held]
      exact List.not_mem_nil
    · have hSender : senderOf host (letterFact i bodies[i]) = String.ofList "person:o".toList := rfl
      rw [hSender, String.ofList_toList]
      exact List.mem_singleton.mpr rfl
  have hCited : (letterFact i bodies[i]).id ∈ citedBy host (ledgerOf bodies) w := by
    rw [citedBy, List.mem_eraseDups]
    refine List.mem_append_right _ (List.mem_map.mpr ⟨((letterFact i bodies[i]).id, letterFact i bodies[i]), ?_, rfl⟩)
    refine List.mem_filter.mpr ⟨mem_of_lookup (ledgerOf_lookup hi), decide_eq_true ?_⟩
    rw [hId]
    rfl
  have hBest : ((citedBy host (ledgerOf bodies) w).foldl (better alphabet host (roomOf bodies) ask w) none).isSome = true :=
    (foldl_better_isSome _ _).mpr (.inr ⟨_, hCited, by rw [hQualifies]; rfl⟩)
  obtain ⟨best, hSome⟩ := Option.isSome_iff_exists.mp hBest
  refine ⟨best.2, ?_⟩
  have hStep : onOpenWish alphabet host (roomOf bodies) ask none w = .ok (some best) := by
    rw [onOpenWish, if_neg (not_not.mpr hThread), hOpen, Fallible.ok_bind, if_pos rfl]
    exact congrArg Except.ok hSome
  rw [find, show (roomOf bodies).facts = ledgerOf bodies from rfl, hWishes, Fallible.ok_bind, List.foldlM_cons, hStep,
    Fallible.ok_bind, List.foldlM_nil]
  rfl

/-- What is granted on the ledger, one of its letters states. -/
theorem ledgerOf_granted {ask : Ask} (h : Granted alphabet host (roomOf bodies) ask) :
    ∃ body ∈ bodies, states alphabet body ask = true := by
  obtain ⟨-, -, -, -, -, -, ident, -, letter, hLookup, -, -, hStates⟩ := h
  rw [show (roomOf bodies).facts = ledgerOf bodies from rfl] at hLookup
  have hMem := mem_of_lookup hLookup
  rw [ledgerOf_letters] at hMem
  obtain ⟨f, hf, hPair⟩ := List.mem_map.mp hMem
  obtain ⟨i, hi, rfl⟩ := List.mem_mapIdx.mp hf
  obtain ⟨-, rfl⟩ := Prod.mk.inj hPair
  rw [letterFact_body] at hStates
  exact ⟨bodies[i], List.getElem_mem hi, hStates⟩

/-- `judge` lets a call run where each ask is found. -/
theorem judge_runs {room : Room} {asks : List (Option Ask)} (hSome : asks ≠ []) (hThread : room.thread ≠ "")
    (hFound : ∀ item ∈ asks, ∃ ask grant, item = some ask ∧ find alphabet host room ask = .ok (some grant)) :
    ∃ verdict, judge alphabet host room asks = .ok verdict ∧ verdict.refuse = false := by
  have hNone : none ∉ asks := by
    intro hIn
    obtain ⟨ask, grant, hAsk, -⟩ := hFound none hIn
    cases hAsk
  have hEach : ∀ ask ∈ asks.reduceOption.eraseDups, ∃ grant, foundFor alphabet host room ask = .ok (ask, some grant) := by
    intro ask hAsk
    rw [List.mem_eraseDups, List.reduceOption_mem_iff] at hAsk
    obtain ⟨ask', grant, hSame, hFind⟩ := hFound _ hAsk
    obtain rfl := Option.some.inj hSame
    exact ⟨grant, by rw [foundFor, if_neg hThread, hFind]; rfl⟩
  obtain ⟨found, hRun⟩ : ∃ found, asks.reduceOption.eraseDups.mapM (foundFor alphabet host room) = .ok found := by
    refine Fallible.mapM_isOk.mpr fun ask hAsk => ?_
    obtain ⟨grant, hGrant⟩ := hEach ask hAsk
    exact ⟨_, hGrant⟩
  have hMissing : found.filter (fun item => item.2.isNone) = [] := by
    rw [List.filter_eq_nil_iff]
    intro item hItem
    obtain ⟨ask, hAsk, hRead⟩ := Fallible.mapM_from hRun hItem
    obtain ⟨grant, hGrant⟩ := hEach ask hAsk
    obtain rfl := Fallible.same hRead hGrant
    simp
  have hVerdict : judge alphabet host room asks = (asks.reduceOption.eraseDups.mapM (foundFor alphabet host room)) >>= _ :=
    if_neg (not_or.mpr ⟨hSome, hNone⟩)
  rw [hVerdict, hRun, Fallible.ok_bind]
  dsimp only
  rw [hMissing, List.map_nil, if_neg (not_not.mpr rfl)]
  exact ⟨_, rfl, rfl⟩

/-- So does `_guard_warnings`. -/
theorem guardWarnings_runs {room : Room} {guards : List Guard} {moment : Moment} {call : Call} (hThread : room.thread ≠ "")
    (hFound : ∀ item ∈ ((trips host guards moment call).filter Hit.refuse).map Hit.ask,
      ∃ ask grant, item = some ask ∧ find alphabet host room ask = .ok (some grant)) :
    ∃ verdict, guardWarnings alphabet host room guards moment call = .ok verdict ∧ verdict.refuse = false := by
  unfold guardWarnings
  dsimp only
  split
  · exact ⟨_, rfl, rfl⟩
  · rename_i hSome
    obtain ⟨verdict, hJudge, hRuns⟩ := judge_runs hSome hThread hFound
    rw [hJudge]
    exact ⟨_, rfl, hRuns⟩

/-- Where the first occurrences do not cover the rest, some ledger lets the call run
with an occurrence that no letter names. -/
theorem not_covered (host : Host) {guards : List Guard} {moment : Moment} {call : Call} (h : ¬Covered alphabet guards moment call) :
    ∃ room verdict, guardWarnings alphabet host room guards moment call = .ok verdict ∧ verdict.refuse = false ∧
      ¬AllGranted alphabet host room guards moment call := by
  obtain ⟨hWhole, hPlain⟩ := not_or.mp h
  push Not at hWhole
  obtain ⟨guard, hGuard, m, hm, hRefuse, hTripped, hNot⟩ : ∃ guard ∈ guards, ∃ m ∈ guard.matches_, m.refuse = true ∧
      m.tripped moment call = true ∧ ¬∃ cls, m.grant = some cls ∧ ∀ found ∈ m.occurrences call, ∃ other ∈ guards,
        ∃ ask, other.Asks moment call ask ∧
          ∀ text, states alphabet text ask = true → states alphabet text (cls, targetOf found) = true := by
    by_contra hAll
    push Not at hAll
    exact hPlain fun guard hGuard m hm hRefuse hTripped => hAll guard hGuard m hm hRefuse hTripped
  have hOwn := asks_of_refuses hm hRefuse hTripped
  obtain ⟨own, hOwnAsk⟩ := hWhole guard hGuard (List.ne_nil_of_mem hOwn)
  obtain ⟨cls, hClass⟩ : ∃ cls, m.grant = some cls := by
    have hAsk := hOwnAsk.2 _ hOwn
    obtain ⟨cls, hClass, -⟩ := Option.bind_eq_some_iff.mp hAsk
    exact ⟨cls, hClass⟩
  obtain ⟨found, hFound, hFree⟩ : ∃ found ∈ m.occurrences call, ∀ other ∈ guards, ∀ ask, other.Asks moment call ask →
      ∃ text, states alphabet text ask = true ∧ ¬states alphabet text (cls, targetOf found) = true := by
    by_contra hAll
    push Not at hAll
    exact hNot ⟨cls, hClass, hAll⟩
  have hText : ∀ item ∈ ((trips host guards moment call).filter Hit.refuse).map Hit.ask, ∃ body : Text, ∃ ask,
      item = some ask ∧ states alphabet body ask = true ∧ ¬states alphabet body (cls, targetOf found) = true := by
    intro item hItem
    obtain ⟨other, hOther, hSome, rfl⟩ := mem_judged.mp hItem
    obtain ⟨ask, hAsk⟩ := hWhole other hOther hSome
    obtain ⟨body, hStates, hOccurrence⟩ := hFree other hOther ask hAsk
    exact ⟨body, ask, wholeAsk_eq_some.mpr hAsk, hStates, hOccurrence⟩
  choose! textFor hTextFor using hText
  generalize hAsks : ((trips host guards moment call).filter Hit.refuse).map Hit.ask = asks at hTextFor
  obtain ⟨verdict, hVerdict, hRuns⟩ := @guardWarnings_runs alphabet host (roomOf (asks.map textFor)) guards moment call
    (show "t" ≠ "" by decide) fun item hItem => by
      rw [hAsks] at hItem
      obtain ⟨ask, hAsk, hStates, -⟩ := hTextFor item hItem
      obtain ⟨grant, hFind⟩ := ledgerOf_find (List.mem_map_of_mem hItem) hStates
      exact ⟨ask, grant, hAsk, hFind⟩
  refine ⟨_, verdict, hVerdict, hRuns, fun hGranted => ?_⟩
  obtain ⟨cls', hClass', hAll⟩ := hGranted guard hGuard m hm hRefuse hTripped
  obtain rfl := Option.mem_unique hClass hClass'
  obtain ⟨body, hBody, hStates⟩ := ledgerOf_granted (hAll found hFound)
  obtain ⟨item, hItem, rfl⟩ := List.mem_map.mp hBody
  obtain ⟨ask, -, -, hOccurrence⟩ := hTextFor item hItem
  exact hOccurrence hStates

/-- In every room a call runs only if each occurrence of each refusing pattern is
granted, and a refused call leaves no grant, exactly where the first occurrences of
the patterns cover the rest. -/
theorem granted_whole (alphabet : Alphabet) (host : Host) (guards : List Guard) (moment : Moment) (call : Call) :
    (∀ room verdict, guardWarnings alphabet host room guards moment call = .ok verdict →
      (verdict.refuse = false → AllGranted alphabet host room guards moment call) ∧
        (verdict.refuse = true → ∀ fact ∈ verdict.written, fact.kind ≠ "guard.granted")) ↔
      Covered alphabet guards moment call := by
  constructor
  · intro hProper
    by_contra hNot
    obtain ⟨room, verdict, hVerdict, hRuns, hGranted⟩ := not_covered host hNot
    exact hGranted ((hProper room verdict hVerdict).1 hRuns)
  · intro hCovered room verdict hVerdict
    exact ⟨hCovered.granted hVerdict, refused_writes hVerdict⟩

/-- `gh pr merge (?P<target>\d+)`. -/
def mergeInput : Regex where
  fullmatch := fun _ => false
  finditer := fun text => text.tails.filterMap fun rest =>
    let number := (rest.drop 12).takeWhile asciiDigit
    if "gh pr merge ".toList.isPrefixOf rest && number ≠ [] then some (some number) else none

/-- A merge whose checks are not green goes only on the owner's letter. -/
def mergeGuard : Guard where
  id := "merge"
  words := "A merge whose checks are not green goes only on the owner's letter."
  setBy := "letter:10181"
  scope := "self"
  paths := []
  matches_ := [{
    at_ := .pre
    tool := ⟨fun tool => tool = "Bash", fun _ => []⟩
    input := some mergeInput
    unless_ := none
    path := none
    cwd := none
    output := none
    refuse := true
    grant := some .mergeRed
    refuse_pre := fun _ => rfl
    grant_refuse := fun _ => ⟨rfl, rfl⟩ }]

def bareCalls : Host := ⟨bareHost, fun _ => [], fun _ => [], fun _ _ => none⟩

/-- Two merges in one line. -/
def twoMerges : Call := ⟨"Bash", "gh pr merge 2610 && gh pr merge 2611".toList, [], [], []⟩

/-- A letter that names the first pull request lets the line run, and no letter names
the second. -/
theorem second_merge_runs : ¬∀ (alphabet : Alphabet) (host : Host) (room : Room) (guards : List Guard) (moment : Moment)
    (call : Call) (verdict : Verdict), guardWarnings alphabet host room guards moment call = .ok verdict →
      verdict.refuse = false → AllGranted alphabet host room guards moment call := by
  intro hClaim
  have hAsks : ((trips bareCalls [mergeGuard] .pre twoMerges).filter Hit.refuse).map Hit.ask =
      [some (.mergeRed, "2610".toList)] := by decide +kernel
  obtain ⟨verdict, hVerdict, hRuns⟩ := @guardWarnings_runs asciiOnly bareCalls (roomOf ["go, merge 2610".toList])
    [mergeGuard] .pre twoMerges (show "t" ≠ "" by decide) fun item hItem => by
      rw [hAsks, List.mem_singleton] at hItem
      obtain ⟨grant, hFind⟩ := @ledgerOf_find asciiOnly bareCalls _ _ _ (List.mem_singleton.mpr rfl)
        (show states asciiOnly "go, merge 2610".toList (.mergeRed, "2610".toList) = true by decide +kernel)
      exact ⟨_, grant, hItem, hFind⟩
  have hGranted := hClaim _ _ _ _ _ _ verdict hVerdict hRuns mergeGuard (by simp) _ (List.mem_singleton.mpr rfl) rfl
    (by decide +kernel)
  obtain ⟨cls, hClass, hAll⟩ := hGranted
  obtain rfl : Class.mergeRed = cls := Option.some.inj hClass
  obtain ⟨body, hBody, hStates⟩ := ledgerOf_granted (hAll (some "2611".toList) (by decide +kernel))
  rw [List.mem_singleton.mp hBody] at hStates
  exact absurd hStates (by decide +kernel)

end Brnrd.Guards
