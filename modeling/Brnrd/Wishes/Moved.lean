import Brnrd.Wishes.Owed
import Brnrd.Wishes.Single

/-! What a listed wish owes: it has moved since everything that said what is left of it. -/
namespace Brnrd.Wishes

open Python Facts

variable {host : Host} {checkout : Checkout} {expired : String → Bool} {strand since thread : String} {ident : Value}
  {w w' : Wish} {fact : Fact} {found : List Wish} {facts : List Fact}

section Times

variable {times : List String} {t : String}

theorem foldl_max_le {start : String} : times.foldl max start ≤ t ↔ start ≤ t ∧ ∀ x ∈ times, x ≤ t := by
  induction times generalizing start with
  | nil => simp
  | cons x times ih =>
      rw [List.foldl_cons, ih, max_le_iff, List.forall_mem_cons]
      exact and_assoc

theorem empty_le (text : String) : "" ≤ text := by
  rw [String.le_iff_toList_le]
  exact not_lt.mp (List.not_lt_nil _)

theorem latestOf_le : latestOf times ≤ t ↔ ∀ x ∈ times, x ≤ t := by
  unfold latestOf
  rw [foldl_max_le]
  exact and_iff_right (empty_le t)

theorem lt_of_latestOf_lt (h : latestOf times < t) {x : String} (hx : x ∈ times) : x < t :=
  lt_of_le_of_lt (latestOf_le.mp le_rfl x hx) h

/-- The latest of some times is one of them. -/
theorem latestOf_mem (h : latestOf times ≠ "") : latestOf times ∈ times := by
  have hFold : ∀ start, times.foldl max start = start ∨ times.foldl max start ∈ times := by
    intro start
    clear h
    induction times generalizing start with
    | nil => exact .inl rfl
    | cons x times ih =>
        rw [List.foldl_cons]
        rcases ih (max start x) with hSame | hIn
        · rw [hSame]
          rcases max_choice start x with hMax | hMax
          · exact .inl hMax
          · exact .inr (hMax.symm ▸ List.mem_cons_self)
        · exact .inr (List.mem_cons_of_mem _ hIn)
  exact (hFold "").resolve_left h

end Times

/-- A fact about a wish. -/
def About (ident : Value) (fact : Fact) : Prop :=
  fact.data.lookup "wish" = some ident

/-- A fact that moves a wish: it is stamped, gets a result or is read, or a body is leased. -/
def MoveOn (strand : String) (ident : Value) (fact : Fact) : Prop :=
  About ident fact ∧ (fact.kind = "wish" ∨ fact.kind = "wish.result" ∨ fact.kind = "wish.read") ∨
    fact.kind = "lease" ∧ Dict.get fact.data "strand" = .str strand

/-- Every thing on a wish is told by a fact about it. -/
structure Recounts (facts : List Fact) (ident : Value) (w : Wish) : Prop where
  id : w.id = ident
  born : ∃ f ∈ facts, About ident f ∧ f.kind = "wish" ∧ f.at_ = w.born
  stamps : ∀ stamp ∈ w.stamps, ∃ f ∈ facts, About ident f ∧ f.kind = "wish" ∧ f.at_ = stamp.at_
  results : ∀ row ∈ w.results.map Result.toRow, ∃ f ∈ facts, About ident f ∧ f.kind = "wish.result" ∧ f.at_ = row.at_
  reads : ∀ read ∈ w.reads, ∃ f ∈ facts, About ident f ∧ f.kind = "wish.read" ∧ f.at_ = read.at_

theorem Recounts.mono {more : List Fact} (h : Recounts facts ident w) (hMore : facts ⊆ more) : Recounts more ident w where
  id := h.id
  born := h.born.imp fun _ hf => ⟨hMore hf.1, hf.2⟩
  stamps := fun stamp hStamp => (h.stamps stamp hStamp).imp fun _ hf => ⟨hMore hf.1, hf.2⟩
  results := fun row hRow => (h.results row hRow).imp fun _ hf => ⟨hMore hf.1, hf.2⟩
  reads := fun read hRead => (h.reads read hRead).imp fun _ hf => ⟨hMore hf.1, hf.2⟩

/-- What a stamp sets. -/
theorem told_eq_ok (h : w.told fact = .ok w') : ∃ rows : List Say,
    w'.stamps = (if .str fact.id = w.id then w.stamps else w.stamps ++ [⟨fact.at_, fact.by_, rows.map Say.letter⟩]) ∧
      w'.born = w.born ∧ w'.results = w.results ∧ w'.reads = w.reads ∧ w'.lefts = w.lefts ∧ w'.verdict = none ∧
      fact.data.lookup "from" = some w'.sender ∧
      w'.parent = (Dict.get fact.data "parent").orElse w.parent := by
  obtain ⟨rows, -, h⟩ := Fallible.peel h
  obtain ⟨sender, hSender, h⟩ := Fallible.peel h
  obtain ⟨line, -, h⟩ := Fallible.peel h
  obtain ⟨thread, -, h⟩ := Fallible.peel h
  rw [← Except.ok.inj h]
  exact ⟨rows, rfl, rfl, rfl, rfl, rfl, rfl, need_eq_ok.mp hSender, rfl⟩

theorem Recounts.told (h : Recounts facts ident w) (hAbout : About ident fact) (hKind : fact.kind = "wish")
    (hTold : w.told fact = .ok w') : Recounts (facts ++ [fact]) ident w' := by
  have hKept := h.mono (List.subset_append_left facts [fact])
  obtain ⟨rows, hStamps, hBorn, hResults, hReads, -⟩ := told_eq_ok hTold
  refine ⟨(told_id hTold).trans h.id, hBorn ▸ hKept.born, fun stamp hStamp => ?_, hResults ▸ hKept.results,
    hReads ▸ hKept.reads⟩
  rw [hStamps] at hStamp
  split at hStamp
  · exact hKept.stamps stamp hStamp
  · rcases List.mem_append.mp hStamp with hOld | hNew
    · exact hKept.stamps stamp hOld
    · rw [List.mem_singleton.mp hNew]
      exact ⟨fact, by simp, hAbout, hKind, rfl⟩

theorem Recounts.touched (h : Recounts facts ident w) (hAbout : About ident fact)
    (hTouched : w.touched fact = .ok w') : Recounts (facts ++ [fact]) ident w' := by
  have hKept := h.mono (List.subset_append_left facts [fact])
  have hSelf : fact ∈ facts ++ [fact] := by simp
  unfold Wish.touched at hTouched
  dsimp only at hTouched
  split at hTouched
  · rename_i hKind
    obtain ⟨reading, -, hTouched⟩ := Fallible.peel hTouched
    rw [← Except.ok.inj hTouched]
    refine ⟨h.id, hKept.born, hKept.stamps, hKept.results, fun read hRead => ?_⟩
    rcases List.mem_append.mp hRead with hOld | hNew
    · exact hKept.reads read hOld
    · rw [List.mem_singleton.mp hNew]
      exact ⟨fact, hSelf, hAbout, hKind, rfl⟩
  split at hTouched
  · rename_i hKind
    rw [← Except.ok.inj hTouched]
    refine ⟨h.id, hKept.born, hKept.stamps, fun row hRow => ?_, hKept.reads⟩
    rw [List.map_append] at hRow
    rcases List.mem_append.mp hRow with hOld | hNew
    · exact hKept.results row hOld
    · rw [List.mem_singleton.mp hNew]
      exact ⟨fact, hSelf, hAbout, hKind, rfl⟩
  have hOther : ∀ w', w'.id = w.id → w'.born = w.born → w'.stamps = w.stamps → w'.results = w.results →
      w'.reads = w.reads → Recounts (facts ++ [fact]) ident w' := fun w' hId hBorn hStamps hResults hReads =>
    ⟨hId.trans h.id, hBorn ▸ hKept.born, hStamps ▸ hKept.stamps, hResults ▸ hKept.results, hReads ▸ hKept.reads⟩
  split at hTouched
  · exact Except.ok.inj hTouched ▸ hOther _ rfl rfl rfl rfl rfl
  split at hTouched
  · exact Except.ok.inj hTouched ▸ hOther _ rfl rfl rfl rfl rfl
  split at hTouched
  · split at hTouched
    · exact Except.ok.inj hTouched ▸ hOther _ rfl rfl rfl rfl rfl
    · obtain ⟨steps, -, hTouched⟩ := Fallible.peel hTouched
      exact Except.ok.inj hTouched ▸ hOther _ rfl rfl rfl rfl rfl
  · exact Except.ok.inj hTouched ▸ hOther _ rfl rfl rfl rfl rfl

/-- The step of one wish, by its fact. -/
theorem wishStep_eq_ok {before after : Option Wish} (h : wishStep ident before fact = .ok after) :
    (¬ About ident fact ∧ after = before) ∨
      (About ident fact ∧ fact.kind = "wish" ∧
        ∃ w', (before.getD (Wish.new ident fact.at_)).told fact = .ok w' ∧ after = some w') ∨
      (About ident fact ∧ fact.kind ≠ "wish" ∧ before = none ∧ after = none) ∨
      (About ident fact ∧ fact.kind ≠ "wish" ∧ ∃ w w', before = some w ∧ w.touched fact = .ok w' ∧ after = some w') := by
  unfold wishStep at h
  split at h
  · rename_i hNot
    exact .inl ⟨hNot, (Except.ok.inj h).symm⟩
  rename_i hAbout
  have hAbout := not_not.mp hAbout
  split at h
  · rename_i hKind
    obtain ⟨w', hTold, hAfter⟩ := Fallible.map_eq_ok.mp h
    exact .inr (.inl ⟨hAbout, hKind, w', hTold, hAfter.symm⟩)
  rename_i hKind
  split at h
  · exact .inr (.inr (.inl ⟨hAbout, hKind, rfl, (Except.ok.inj h).symm⟩))
  · rename_i w
    obtain ⟨w', hTouched, hAfter⟩ := Fallible.map_eq_ok.mp h
    exact .inr (.inr (.inr ⟨hAbout, hKind, w, w', rfl, hTouched, hAfter.symm⟩))

/-- What the facts make of a wish is told by them. -/
theorem recounts {w : Option Wish} (h : facts.foldlM (wishStep ident) none = .ok w) :
    ∀ w', w = some w' → Recounts facts ident w' := by
  refine Fallible.foldlM_invariant (fun read w => ∀ w', w = some w' → Recounts read ident w') (fun _ h => by cases h) ?_ h
  intro read fact before after hBefore hStep w' hAfter
  rcases wishStep_eq_ok hStep with ⟨-, hSame⟩ | ⟨hAbout, hKind, told, hTold, hIs⟩ | ⟨-, -, -, hNone⟩ |
    ⟨hAbout, -, w, touched, hWas, hTouched, hIs⟩
  · exact (hBefore w' (hSame ▸ hAfter)).mono (List.subset_append_left _ _)
  · obtain rfl := Option.mem_unique hIs hAfter
    cases before with
    | some w => exact (hBefore w rfl).told hAbout hKind hTold
    | none =>
        have hSelf : ∃ f ∈ read ++ [fact], About ident f ∧ f.kind = "wish" ∧ f.at_ = fact.at_ :=
          ⟨fact, by simp, hAbout, hKind, rfl⟩
        obtain ⟨rows, hStamps, hBorn, hResults, hReads, -⟩ := told_eq_ok hTold
        refine ⟨told_id hTold, hBorn ▸ hSelf, fun stamp hStamp => ?_, hResults ▸ fun _ h => (List.not_mem_nil h).elim,
          hReads ▸ fun _ h => (List.not_mem_nil h).elim⟩
        rw [hStamps] at hStamp
        split at hStamp
        · exact (List.not_mem_nil hStamp).elim
        · rw [List.mem_singleton.mp hStamp]
          exact hSelf
  · exact absurd (hAfter.symm.trans hNone) (by simp)
  · obtain rfl := Option.mem_unique hIs hAfter
    exact (hBefore w hWas).touched hAbout hTouched

/-- Every wish of a table is told by the facts. -/
theorem wishTable_recounts (h : wishTable host checkout facts = .ok found) (hw : w ∈ found) : Recounts facts w.id w := by
  obtain ⟨folded, hFold, hFinished⟩ := wishTable_finished h
  have hHere := findWish_of_mem (wishTable_nodup h) hw
  rcases findWish_forall₂ w.id (fun _ _ => Finished.id) hFinished with ⟨-, hNone⟩ | ⟨v, w', hv, hw', hDone⟩
  · rw [hHere] at hNone
    cases hNone
  obtain rfl := Option.mem_unique hHere hw'
  have hTold := (recounts (foldlM_find w.id hFold) v hv).mono fun f hf => List.mem_of_mem_filter hf
  have hBorn : w.born = v.born := by rw [hDone.same]
  have hStamps : w.stamps = v.stamps := by rw [hDone.same]
  have hReads : w.reads = v.reads := by rw [hDone.same]
  exact ⟨rfl, hBorn ▸ hTold.born, hStamps ▸ hTold.stamps, hDone.rows ▸ hTold.results, hReads ▸ hTold.reads⟩

theorem latestOf_mono {times more : List String} (h : times ⊆ more) : latestOf times ≤ latestOf more :=
  latestOf_le.mpr fun x hx => latestOf_le.mp le_rfl x (h hx)

/-- Each move on a wish is a fact. -/
theorem moves_from {alone : Bool} {moves : List (String × String)} (h : Recounts facts w.id w)
    (hMoves : w.moves host strand (bodyStart strand facts) alone = .ok moves) {move : String × String}
    (hMove : move ∈ moves) : ∃ f ∈ facts, MoveOn strand w.id f ∧ f.at_ = move.1 := by
  obtain ⟨waiting, hWaiting, hMoves⟩ := Fallible.peel hMoves
  obtain ⟨results, hResults, hMoves⟩ := Fallible.peel hMoves
  obtain ⟨named, hNamed, hMoves⟩ := Fallible.peel hMoves
  rw [← Except.ok.inj hMoves] at hMove
  have hOf : ∀ {at_ kind}, (kind = "wish" ∨ kind = "wish.result" ∨ kind = "wish.read") →
      (∃ f ∈ facts, About w.id f ∧ f.kind = kind ∧ f.at_ = at_) → ∃ f ∈ facts, MoveOn strand w.id f ∧ f.at_ = at_ :=
    fun hKind ⟨f, hf, hAbout, hIs, hAt⟩ => ⟨f, hf, .inl ⟨hAbout, hIs ▸ hKind⟩, hAt⟩
  simp only [List.cons_append, List.mem_cons, List.mem_append] at hMove
  rcases hMove with rfl | (((hSteered | hResult) | hStamp) | hRead) | hWork
  · exact hOf (.inl rfl) h.born
  · obtain ⟨stamp, hStamp, rfl⟩ := List.mem_map.mp hSteered
    exact hOf (.inl rfl) (h.stamps stamp (List.mem_of_mem_filter hStamp))
  · obtain ⟨r, hr, hLine⟩ := Fallible.mapM_from hResults hResult
    obtain ⟨ref, -, hLine⟩ := Fallible.peel hLine
    rw [← Except.ok.inj hLine]
    have hGiven := ((Fallible.mem_keep (Fallible.mapError_eq_ok.mp hWaiting)).mp hr).1
    exact hOf (.inr (.inl rfl)) (h.results r.toRow (List.mem_map_of_mem hGiven))
  · obtain ⟨stamp, hIn, rfl⟩ := List.mem_map.mp hStamp
    exact hOf (.inl rfl) (h.stamps stamp (List.mem_of_mem_filter hIn))
  · obtain ⟨read, hIn, rfl⟩ := List.mem_map.mp hRead
    have hGiven := ((Fallible.mem_keep hNamed).mp hIn).1
    exact hOf (.inr (.inr rfl)) (h.reads read (List.mem_of_mem_filter hGiven))
  · split at hWork
    · rename_i hAlone
      obtain rfl := List.mem_singleton.mp hWork
      have hSince : bodyStart strand facts ≠ "" := of_decide_eq_true ((Bool.and_eq_true _ _).mp hAlone).2
      obtain ⟨f, hf, hAt⟩ := List.mem_map.mp (latestOf_mem hSince)
      obtain ⟨hIn, hLease⟩ := List.mem_filter.mp hf
      exact ⟨f, hIn, .inr (by simpa using hLease), hAt⟩
    · cases hWork

/-- Every thing that says what is left of a wish is before a time. -/
structure SaidBefore (found : List Wish) (facts : List Fact) (strand : String) (w : Wish) (t : String) : Prop where
  lefts : ∀ left ∈ w.lefts, left.at_ < t
  parks : ∀ read ∈ w.reads, read.isPark = .ok true → read.at_ < t
  asks : ∀ ask ∈ found, ask.sender = .str "resident" → ask.parent = w.id → ask.born < t
  asked : ∀ f ∈ facts, f.kind = "left.asked" → Dict.get f.data "strand" = .str strand → bodyStart strand facts ≤ f.at_ →
    (∃ idents, elements (Dict.get f.data "wishes") = .ok idents ∧ w.id ∈ idents) → f.at_ < t

variable {asked : List (Value × String)}

/-- What was asked about a wish, by its facts. -/
theorem mem_askedAbout (h : askedAbout strand since facts = .ok asked) {item : Value × String} :
    item ∈ asked ↔ ∃ f ∈ facts, f.kind = "left.asked" ∧
      Dict.get f.data "strand" = .str strand ∧ since ≤ f.at_ ∧
      ∃ idents, elements (Dict.get f.data "wishes") = .ok idents ∧ item.1 ∈ idents ∧ item.2 = f.at_ := by
  obtain ⟨named, hNamed, h⟩ := Fallible.peel h
  rw [← Except.ok.inj h, List.mem_flatten]
  have hRow : ∀ {f : Fact} {row : List (Value × String)},
      (do
        let idents ← (elements (Dict.get f.data "wishes")).mapError OwedError.wish
        if idents.all Value.hashable then .ok (idents.map fun ident => (ident, f.at_))
        else .error (OwedError.wish .type)) = Except.ok row →
      ∃ idents, elements (Dict.get f.data "wishes") = .ok idents ∧ row = idents.map fun ident => (ident, f.at_) := by
    intro f row hRow
    obtain ⟨idents, hIdents, hRow⟩ := Fallible.peel hRow
    split at hRow
    · exact ⟨idents, Fallible.mapError_eq_ok.mp hIdents, (Except.ok.inj hRow).symm⟩
    · cases hRow
  constructor
  · rintro ⟨row, hIn, hItem⟩
    obtain ⟨f, hf, hRead⟩ := Fallible.mapM_from hNamed hIn
    obtain ⟨idents, hIdents, rfl⟩ := hRow hRead
    obtain ⟨ident, hIdent, rfl⟩ := List.mem_map.mp hItem
    obtain ⟨hf, hWanted⟩ := List.mem_filter.mp hf
    simp only [Bool.and_eq_true, decide_eq_true_eq] at hWanted
    exact ⟨f, hf, hWanted.1.1, hWanted.1.2, hWanted.2, idents, hIdents, hIdent, rfl⟩
  · rintro ⟨f, hf, hKind, hStrand, hSince, idents, hIdents, hIdent, hAt⟩
    obtain ⟨row, hIn, hRead⟩ := Fallible.mapM_mem hNamed (List.mem_filter.mpr ⟨hf, by simp [hKind, hStrand, hSince]⟩)
    obtain ⟨idents', hIdents', rfl⟩ := hRow hRead
    obtain rfl := Fallible.same hIdents hIdents'
    exact ⟨_, hIn, List.mem_map.mpr ⟨item.1, hIdent, Prod.ext rfl hAt.symm⟩⟩

/-- What a row owes. -/
theorem owes_eq_ok {alone : Bool} {line : Option (Value × String)} :
    w.owes host expired strand since found asked alone = .ok line ↔ ∃ answered moves,
      w.answered found = .ok answered ∧ w.counted host expired strand since alone = .ok moves ∧
        (match moves.filter fun m => decide (max answered (askedAt asked w.id) < m.1) with
          | [] => none
          | first :: rest => some (w.id, if w.lefts = [] then "no left yet" else (rest.foldl laterMove first).2)) = line := by
  unfold Wish.owes
  rw [Fallible.bind_eq_ok]
  refine exists_congr fun answered => ?_
  rw [Fallible.bind_eq_ok]
  constructor
  · rintro ⟨hAnswered, moves, hMoves, h⟩
    refine ⟨moves, hAnswered, hMoves, ?_⟩
    cases hLate : moves.filter fun m => decide (max answered (askedAt asked w.id) < m.1) with
    | nil =>
        simp only [hLate] at h
        exact Except.ok.inj h
    | cons first rest =>
        simp only [hLate] at h
        exact Except.ok.inj h
  · rintro ⟨moves, hAnswered, hMoves, rfl⟩
    refine ⟨hAnswered, moves, hMoves, ?_⟩
    cases hLate : moves.filter fun m => decide (max answered (askedAt asked w.id) < m.1) with
    | nil => rfl
    | cons first rest => rfl

/-- The lines are those of the rows that owe something. -/
theorem owedLefts_eq_ok {out : List (Value × String)}
    (h : owedLefts host expired strand found facts thread = .ok out) : ∃ rows, openRows expired found thread = .ok rows ∧
      (rows = [] ∧ out = [] ∨ ∃ asked, askedAbout strand (bodyStart strand facts) facts = .ok asked ∧
        (∀ w ∈ rows, ∃ line, w.owes host expired strand (bodyStart strand facts) found asked (rows.length = 1) = .ok line) ∧
        ∀ line, line ∈ out ↔ ∃ w ∈ rows,
          w.owes host expired strand (bodyStart strand facts) found asked (rows.length = 1) = .ok (some line)) := by
  obtain ⟨rows, hRows, h⟩ := Fallible.peel h
  refine ⟨rows, Fallible.mapError_eq_ok.mp hRows, ?_⟩
  split at h
  · rename_i hEmpty
    exact .inl ⟨hEmpty, (Except.ok.inj h).symm⟩
  obtain ⟨asked, hAsked, h⟩ := Fallible.peel h
  obtain ⟨lines, hLines, h⟩ := Fallible.peel h
  refine .inr ⟨asked, hAsked, fun w hw => ?_, fun line => ?_⟩
  · obtain ⟨line, -, hLine⟩ := Fallible.mapM_mem hLines (List.mem_mergeSort.mpr hw)
    exact ⟨line, hLine⟩
  · rw [← Except.ok.inj h, List.mem_filterMap]
    constructor
    · rintro ⟨found, hIn, rfl⟩
      obtain ⟨w, hw, hLine⟩ := Fallible.mapM_from hLines hIn
      exact ⟨w, List.mem_mergeSort.mp hw, hLine⟩
    · rintro ⟨w, hw, hLine⟩
      obtain ⟨found, hIn, hFound⟩ := Fallible.mapM_mem hLines (List.mem_mergeSort.mpr hw)
      exact ⟨found, hIn, Fallible.same hFound hLine⟩

/-- The rows are the open wishes of a person on the thread. -/
theorem mem_openRows {rows : List Wish} (h : openRows expired found thread = .ok rows) :
    w ∈ rows ↔ w ∈ found ∧ w.thread = .str thread ∧ isOpen expired w = .ok true ∧ w.sender = .str "person" := by
  rw [Fallible.mem_keep h]
  refine and_congr_right fun _ => ?_
  by_cases hThread : w.thread = .str thread
  · rw [if_pos hThread, Fallible.map_eq_ok]
    simp [hThread]
  · simp [hThread]

/-- A wish that is listed has moved since everything that said what is left of it. -/
theorem owes_moved {alone : Bool} {line : Value × String} (h : Recounts facts w.id w)
    (hAsked : askedAbout strand (bodyStart strand facts) facts = .ok asked)
    (hOwes : w.owes host expired strand (bodyStart strand facts) found asked alone = .ok (some line)) :
    w.id = line.1 ∧ ∃ moves, w.counted host expired strand (bodyStart strand facts) alone = .ok moves ∧
      ∃ move ∈ moves, SaidBefore found facts strand w move.1 ∧ ∃ f ∈ facts, MoveOn strand w.id f ∧ f.at_ = move.1 := by
  obtain ⟨answered, counted, hAnswered, hCounted, hLine⟩ := owes_eq_ok.mp hOwes
  obtain ⟨moves, hMoves, hState⟩ := Fallible.peel hCounted
  obtain ⟨state, -, hState⟩ := Fallible.peel hState
  split at hLine
  · cases hLine
  rename_i first rest hLate
  obtain ⟨hFirst, hAfter⟩ := List.mem_filter.mp (hLate ▸ List.mem_cons_self : first ∈ _)
  refine ⟨congrArg Prod.fst (Option.some.inj hLine), counted, hCounted, first, hFirst, ?_, ?_⟩
  rotate_left
  · refine moves_from h hMoves ?_
    rw [← Except.ok.inj hState] at hFirst
    split at hFirst
    · exact List.mem_of_mem_filter hFirst
    · exact hFirst
  obtain ⟨hBefore, hAskedBefore⟩ := max_lt_iff.mp (of_decide_eq_true hAfter)
  obtain ⟨parks, hParks, hAnswered⟩ := Fallible.peel hAnswered
  obtain ⟨given, -, hAnswered⟩ := Fallible.peel hAnswered
  rw [← Except.ok.inj hAnswered] at hBefore
  have hAll := fun x hx => lt_of_latestOf_lt hBefore (x := x) hx
  exact
    { lefts := fun left hLeft => hAll _ (by simp [List.mem_map_of_mem hLeft])
      parks := fun read hRead hPark => hAll _ (by simp [List.mem_map_of_mem ((Fallible.mem_keep hParks).mpr ⟨hRead, hPark⟩)])
      asks := fun ask hAsk hSender hParent => hAll _ (by
        have : ask ∈ found.filter fun ask => ask.sender = .str "resident" && ask.parent = w.id :=
          List.mem_filter.mpr ⟨hAsk, by simp [hSender, hParent]⟩
        simp [List.mem_map_of_mem this])
      asked := fun g hg hKind hStrand hSince ⟨idents, hIdents, hIdent⟩ => lt_of_latestOf_lt hAskedBefore (by
        have hIn : (w.id, g.at_) ∈ asked :=
          (mem_askedAbout hAsked).mpr ⟨g, hg, hKind, hStrand, hSince, idents, hIdents, hIdent, rfl⟩
        exact List.mem_map.mpr ⟨_, List.mem_filter.mpr ⟨hIn, by simp⟩, rfl⟩) }

end Brnrd.Wishes
