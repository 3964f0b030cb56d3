import Brnrd.Ledger.Directory

/-! What `refresh` finds in a folder of whole lines, from any offsets behind whole lines:
the index then describes the whole folder, as one made from nothing does. -/
namespace Brnrd.Ledger

open Python Facts
open Stores (factRow fromRow_factRow)

variable {host : Host} {format : Format host}

/-- A fact whose line is read back as it was: it holds plain values, and no old name. -/
structure Format.Keeps (format : Format host) (f : Fact) : Prop where
  writable : (format.dumps (factRow f)).isSome
  version : f.v = version
  modern : renamed (factRow f) = factRow f

theorem Format.Keeps.dumps {f : Fact} (h : format.Keeps f) : format.dumps (factRow f) = some (format.text f) := by
  obtain ⟨text, hText⟩ := Option.isSome_iff_exists.mp h.writable
  rw [Format.text, hText, Option.getD_some]

theorem Format.Keeps.oneLine {f : Fact} (h : format.Keeps f) : OneLine (format.text f) :=
  format.oneLine _ _ h.dumps

theorem Format.Keeps.solid {f : Fact} (h : format.Keeps f) : strip (format.text f) ≠ [] :=
  strip_ne_nil (format.opens _ _ h.dumps) (by decide)

def Format.encode (format : Format host) (facts : List Fact) : List Char :=
  facts.flatMap format.line

theorem Format.encode_append (a b : List Fact) : format.encode (a ++ b) = format.encode a ++ format.encode b :=
  List.flatMap_append ..

theorem Format.encode_ends (facts : List Fact) : facts = [] ∨ ∃ first, format.encode facts = first ++ ['\n'] := by
  rcases List.eq_nil_or_concat facts with rfl | ⟨rest, f, rfl⟩
  · exact .inl rfl
  · refine .inr ⟨format.encode rest ++ format.text f, ?_⟩
    rw [List.concat_eq_append, Format.encode_append]
    simp [Format.encode, Format.line]

theorem wholeLines_torn {torn : List Char} (h : '\n' ∉ torn) (text : List Char) :
    wholeLines (text ++ torn) = wholeLines text := by
  have hTorn : ∀ c ∈ torn.reverse, (decide (c ≠ '\n')) = true := by
    intro c hc
    rw [decide_eq_true_iff]
    rintro rfl
    exact h (List.mem_reverse.mp hc)
  rw [wholeLines, wholeLines, List.rdropWhile, List.rdropWhile, List.reverse_append, List.dropWhile_append_of_pos hTorn]

theorem wholeLines_ended (first : List Char) : wholeLines (first ++ ['\n']) = first ++ ['\n'] := by
  rw [wholeLines, List.rdropWhile_concat_neg _ _ _ (by simp)]

/-- A file of whole lines and an unfinished one has the whole lines. -/
theorem wholeLines_encode (facts : List Fact) {torn : List Char} (h : '\n' ∉ torn) :
    wholeLines (format.encode facts ++ torn) = format.encode facts := by
  rw [wholeLines_torn h]
  rcases format.encode_ends facts with rfl | ⟨first, hFirst⟩
  · rfl
  · rw [hFirst, wholeLines_ended]

theorem byteLinesFrom_line {first : List Char} (h : OneLine first) (line : List Char) (returned : Bool)
    (rest : List Char) (hStart : first = [] → returned = false) :
    byteLinesFrom line returned (first ++ '\n' :: rest) = (line ++ first) :: byteLines rest := by
  induction first generalizing line returned with
  | nil =>
      obtain rfl := hStart rfl
      simp [byteLinesFrom, byteLines]
  | cons c first ih =>
      have hBreak : isLineBreak c = false := h c (by simp)
      have hNewline : c ≠ '\n' := by
        rintro rfl
        exact absurd hBreak (by decide)
      have hReturn : c ≠ '\r' := by
        rintro rfl
        exact absurd hBreak (by decide)
      have hRest := ih (fun d hd => h d (List.mem_cons_of_mem _ hd)) (line ++ [c]) false (fun _ => rfl)
      simp [byteLinesFrom, hNewline, hReturn, hRest]

/-- Both ways to split see the lines that were written. -/
theorem lines_encode {facts : List Fact} (h : ∀ f ∈ facts, format.Keeps f) :
    byteLines (format.encode facts) = facts.map (fun f => format.text f) ∧
      splitlines (format.encode facts) = facts.map fun f => format.text f := by
  induction facts with
  | nil => exact ⟨rfl, rfl⟩
  | cons f facts ih =>
      obtain ⟨hBytes, hText⟩ := ih fun g hg => h g (List.mem_cons_of_mem _ hg)
      have hLine := (h f (by simp)).oneLine
      have hEncode : format.encode (f :: facts) = format.text f ++ '\n' :: format.encode facts := by
        simp [Format.encode, Format.line]
      rw [hEncode, byteLines, byteLinesFrom_line hLine [] false _ (fun _ => rfl), hBytes,
        splitlines_break hLine (by decide)]
      exact ⟨rfl, congrArg (_ :: ·) hText⟩

theorem linesFacts_dumps {facts : List Fact} (h : ∀ f ∈ facts, format.Keeps f) :
    linesFacts host (facts.map fun f => format.text f) = some facts := by
  unfold linesFacts
  have hSolid : (facts.map fun f => format.text f).filter (fun line => strip line ≠ []) =
      facts.map fun f => format.text f := by
    rw [List.filter_eq_self]
    intro line hLine
    obtain ⟨f, hf, rfl⟩ := List.mem_map.mp hLine
    simpa using (h f hf).solid
  rw [hSolid]
  induction facts with
  | nil => rfl
  | cons f facts ih =>
      have hFirst := h f (by simp)
      have hFact : lineFact host (format.text f) = some f := by
        rw [lineFact, format.loads_dumps _ _ hFirst.dumps]
        simp only
        rw [hFirst.modern, fromRow_factRow hFirst.version]
      have hRest := ih (fun g hg => h g (List.mem_cons_of_mem _ hg)) (by
        rw [List.filter_eq_self]
        intro line hLine
        obtain ⟨g, hg, rfl⟩ := List.mem_map.mp hLine
        simpa using (h g (List.mem_cons_of_mem _ hg)).solid)
      rw [List.map_cons, List.mapM_cons, hFact, hRest]
      rfl

/-- What each file of a folder holds, as whole lines, with an unfinished line behind
them. -/
def Format.Holds (format : Format host) (held : String → List Fact) (dir : Directory) : Prop :=
  ∀ entry ∈ dir, (∃ torn, entry.2.text = format.encode (held entry.1) ++ torn ∧ '\n' ∉ torn) ∧
    ∀ f ∈ held entry.1, format.Keeps f

theorem Format.Holds.wholeLines {held : String → List Fact} {dir : Directory} (h : format.Holds held dir)
    {entry : String × Shard} (hEntry : entry ∈ dir) : wholeLines entry.2.text = format.encode (held entry.1) := by
  obtain ⟨torn, hText, hTorn⟩ := (h entry hEntry).1
  rw [hText, wholeLines_encode _ hTorn]

theorem shardFacts_eq {held : String → List Fact} {dir : Directory} (h : format.Holds held dir) {entry : String × Shard}
    (hEntry : entry ∈ dir) : shardFacts host entry = .ok (held entry.1) := by
  have hKeeps := (h entry hEntry).2
  rw [shardFacts, h.wholeLines hEntry, (lines_encode hKeeps).2, linesFacts_dumps hKeeps]

/-- The index has read so many facts of each file, and stands behind them; a file whose stamp
it has, it has read. -/
structure Format.Knows (format : Format host) (stamps : List (String × Stamp × ℕ)) (held : String → List Fact)
    (count : String → ℕ) (dir : Directory) : Prop where
  absent : ∀ name, stamps.lookup name = none → count name = 0
  short : ∀ name, count name ≤ (held name).length
  offset : ∀ name known, stamps.lookup name = some known → known.2 = (format.encode ((held name).take (count name))).length
  stamp : ∀ entry ∈ dir, ∀ known, stamps.lookup entry.1 = some known → known.1 = entry.2.stamp →
    count entry.1 = (held entry.1).length
  names : ∀ known ∈ stamps, known.1 ∈ dir.map Prod.fst

/-- What the index says of a file it has just read. -/
def Format.cursor (format : Format host) (held : String → List Fact) (entry : String × Shard) : String × Stamp × ℕ :=
  (entry.1, entry.2.stamp, (format.encode (held entry.1)).length)

/-- One file read from behind the first of its facts. -/
theorem Refreshing.read_eq {held : String → List Fact} {dir : Directory} (h : format.Holds held dir)
    {entry : String × Shard} (hEntry : entry ∈ dir) (v : Refreshing) {prior : Option (Stamp × ℕ)} {count : ℕ}
    (hPrior : ∀ known ∈ prior, known.2 = (format.encode ((held entry.1).take count)).length)
    (hNone : prior = none → count = 0) :
    ∃ added rebuild, v.read host prior entry.1 entry.2 =
        .ok ⟨v.stamps ++ [format.cursor held entry], v.additions ++ added, v.rebuild || rebuild⟩ ∧
      (rebuild = false → added = (held entry.1).drop count) := by
  obtain ⟨⟨torn, hText, hTorn⟩, hKeeps⟩ := h entry hEntry
  have hDrop : ∀ k, wholeLines (entry.2.text.drop (format.encode ((held entry.1).take k)).length) =
      format.encode ((held entry.1).drop k) := by
    intro k
    have hSplit : format.encode (held entry.1) =
        format.encode ((held entry.1).take k) ++ format.encode ((held entry.1).drop k) := by
      rw [← Format.encode_append, List.take_append_drop]
    rw [hText, hSplit, List.append_assoc, List.drop_left, wholeLines_encode _ hTorn]
  have hRead : ∀ k, linesFacts host (byteLines (format.encode ((held entry.1).drop k))) = some ((held entry.1).drop k) := by
    intro k
    have hSome : ∀ f ∈ (held entry.1).drop k, format.Keeps f := fun f hf => hKeeps f (List.mem_of_mem_drop hf)
    rw [(lines_encode hSome).1, linesFacts_dumps hSome]
  have hLength : ∀ k, (format.encode ((held entry.1).take k)).length + (format.encode ((held entry.1).drop k)).length =
      (format.encode (held entry.1)).length := by
    intro k
    rw [← List.length_append, ← Format.encode_append, List.take_append_drop]
  have hZero : (0 : ℕ) = (format.encode ((held entry.1).take 0)).length := rfl
  let grows := prior.filter fun known => known.1.dev = entry.2.dev ∧ known.1.ino = entry.2.ino ∧
    known.1.size < entry.2.text.length
  cases hGrows : grows with
  | some known =>
      have hKnown : known ∈ prior := (Option.filter_eq_some_iff.mp hGrows).1
      refine ⟨(held entry.1).drop count, false, ?_, fun _ => rfl⟩
      rw [Refreshing.read]
      simp only [show (prior.filter _) = some known from hGrows, Option.map_some, Option.getD_some, hPrior known hKnown, hDrop,
        hRead, hLength, Option.isNone_some, Bool.and_false]
      rfl
  | none =>
      refine ⟨held entry.1, prior.isSome, ?_, fun hNot => ?_⟩
      · rw [Refreshing.read]
        simp only [show (prior.filter _) = none from hGrows, Option.map_none, Option.getD_none, Option.isNone_none, Bool.and_true]
        rw [hZero, hDrop, hRead, hLength]
        rfl
      · rw [hNone (by simpa using hNot)]
        rfl

/-- One path. -/
theorem Refreshing.visit_eq {stamps : List (String × Stamp × ℕ)} {held : String → List Fact} {count : String → ℕ}
    {dir : Directory} (h : format.Holds held dir) (hKnows : format.Knows stamps held count dir) {entry : String × Shard}
    (hEntry : entry ∈ dir) (v : Refreshing) :
    ∃ added rebuild, v.visit host stamps entry =
        .ok ⟨v.stamps ++ [format.cursor held entry], v.additions ++ added, v.rebuild || rebuild⟩ ∧
      (rebuild = false → added = (held entry.1).drop (count entry.1)) := by
  unfold Refreshing.visit
  cases hLookup : stamps.lookup entry.1 with
  | none =>
      exact read_eq h hEntry v (by simp) fun _ => hKnows.absent _ hLookup
  | some known =>
      by_cases hStamp : known.1 = entry.2.stamp
      · have hAll := hKnows.stamp entry hEntry known hLookup hStamp
        refine ⟨[], false, ?_, fun _ => by rw [hAll, List.drop_length]⟩
        have hOffset := hKnows.offset _ _ hLookup
        rw [hAll, List.take_length] at hOffset
        simp only [if_pos hStamp, List.append_nil, Bool.or_false]
        rw [Format.cursor, ← hStamp, ← hOffset]
      · simp only [if_neg hStamp]
        exact read_eq h hEntry v (by simpa using hKnows.offset _ _ hLookup) (by simp)

/-- All paths. -/
theorem Refreshing.fold_eq {stamps : List (String × Stamp × ℕ)} {held : String → List Fact} {count : String → ℕ}
    {dir : Directory} (h : format.Holds held dir) (hKnows : format.Knows stamps held count dir) {rest : Directory}
    (hRest : rest ⊆ dir) (v : Refreshing) :
    ∃ added rebuild, rest.foldlM (Refreshing.visit host stamps) v =
        .ok ⟨v.stamps ++ rest.map (format.cursor held), v.additions ++ added, v.rebuild || rebuild⟩ ∧
      (rebuild = false → added = rest.flatMap fun entry => (held entry.1).drop (count entry.1)) := by
  induction rest generalizing v with
  | nil => exact ⟨[], false, by simp [pure, Except.pure], fun _ => rfl⟩
  | cons entry rest ih =>
      obtain ⟨first, again, hVisit, hFirst⟩ := visit_eq h hKnows (hRest List.mem_cons_self) v
      obtain ⟨more, later, hFold, hMore⟩ := ih (fun e he => hRest (List.mem_cons_of_mem _ he))
        ⟨v.stamps ++ [format.cursor held entry], v.additions ++ first, v.rebuild || again⟩
      refine ⟨first ++ more, again || later, ?_, fun hNot => ?_⟩
      · rw [List.foldlM_cons, hVisit, Fallible.ok_bind, hFold]
        simp [List.append_assoc, Bool.or_assoc]
      · obtain ⟨hAgain, hLater⟩ := Bool.or_eq_false_iff.mp hNot
        rw [hFirst hAgain, hMore hLater, List.flatMap_cons]

/-- The facts of the folder, file by file. -/
def Directory.facts (dir : Directory) (held : String → List Fact) : List Fact :=
  dir.flatMap fun entry => held entry.1

theorem takeIn_ok {index : WriterIndex} {first rest : List Fact} (h : index.Describes first)
    (hIds : ((first ++ rest).map Fact.id).Nodup) :
    ∃ later, index.takeIn rest = .ok later ∧ later.Describes (first ++ rest) := by
  obtain ⟨later, hFold⟩ := h.refresh_eq_ok hIds
  have hRefresh : index.refresh (first ++ rest) = .ok later := by
    rw [WriterIndex.refresh, h.read, List.drop_left, hFold]
  have hDescribes : later.Describes (first ++ rest) := h.refresh hRefresh
  refine ⟨later, ?_, hDescribes⟩
  rw [WriterIndex.takeIn, hFold]
  rfl

theorem describes_empty : DirIndex.empty.facts.Describes [] :=
  ⟨rfl, fun _ => rfl, nofun, nofun⟩

/-- From whatever part of the folder the index has read, a refresh reads the rest: it stands
behind every file, and describes all facts. -/
theorem DirIndex.refresh_eq {index : DirIndex} {held : String → List Fact} {count : String → ℕ} {dir : Directory}
    {taken : List Fact} (h : format.Holds held dir) (hIds : ((dir.facts held).map Fact.id).Nodup)
    (hKnows : format.Knows index.stamps held count dir) (hTaken : index.facts.Describes taken)
    (hPerm : taken.Perm (dir.flatMap fun entry => (held entry.1).take (count entry.1))) :
    ∃ facts known, index.refresh host dir = .ok ⟨dir.map (format.cursor held), facts⟩ ∧ facts.Describes known ∧
      known.Perm (dir.facts held) := by
  have hRemoved : (index.stamps.any fun known => decide (known.1 ∉ dir.map Prod.fst)) = false := by
    rw [List.any_eq_false]
    intro known hKnown
    simpa using hKnows.names known hKnown
  obtain ⟨added, rebuild, hFold, hAdded⟩ := Refreshing.fold_eq h hKnows (List.Subset.refl dir) ⟨[], [], false⟩
  simp only [List.nil_append, Bool.false_or] at hFold
  unfold DirIndex.refresh
  simp only [hRemoved, hFold, Fallible.ok_bind]
  cases rebuild with
  | false =>
      have hAll : (taken ++ added).Perm (dir.facts held) := by
        rw [hAdded rfl]
        refine (hPerm.append_right _).trans ((List.flatMap_append_perm dir _ _).trans ?_)
        simp only [List.take_append_drop]
        exact List.Perm.refl _
      obtain ⟨facts, hTake, hDescribes⟩ := takeIn_ok hTaken ((hAll.map Fact.id).nodup_iff.mpr hIds)
      exact ⟨facts, _, by rw [hTake]; rfl, hDescribes, hAll⟩
  | true =>
      have hMap : dir.mapM (shardFacts host) = .ok (dir.map fun entry => held entry.1) := by
        have hAll : ∀ rest ⊆ dir, rest.mapM (shardFacts host) = .ok (rest.map fun entry => held entry.1) := by
          intro rest hRest
          induction rest with
          | nil => rfl
          | cons entry rest ih =>
              rw [List.mapM_cons, shardFacts_eq h (hRest List.mem_cons_self),
                ih fun e he => hRest (List.mem_cons_of_mem _ he)]
              rfl
        exact hAll dir (List.Subset.refl dir)
      have hFlatten : (dir.map fun entry => held entry.1).flatten = dir.facts held := rfl
      have hDistinct : (([] ++ dir.facts held).map Fact.id).Nodup := hIds
      obtain ⟨facts, hTake, hDescribes⟩ := takeIn_ok describes_empty hDistinct
      refine ⟨facts, dir.facts held, ?_, by simpa using hDescribes, List.Perm.refl _⟩
      rw [hMap]
      simp only [if_true, Fallible.ok_bind, hFlatten, hTake]

theorem knows_empty (format : Format host) (held : String → List Fact) (dir : Directory) :
    format.Knows DirIndex.empty.stamps held (fun _ => 0) dir where
  absent := fun _ _ => rfl
  short := fun _ => Nat.zero_le _
  offset := fun _ _ h => by cases h
  stamp := fun _ _ _ h => by cases h
  names := fun _ h => by cases h

/-- A refresh from nothing. -/
theorem refresh_empty {held : String → List Fact} {dir : Directory} (h : format.Holds held dir)
    (hIds : ((dir.facts held).map Fact.id).Nodup) :
    ∃ facts known, DirIndex.empty.refresh host dir = .ok ⟨dir.map (format.cursor held), facts⟩ ∧ facts.Describes known ∧
      known.Perm (dir.facts held) := by
  refine DirIndex.refresh_eq h hIds (knows_empty format held dir) describes_empty ?_
  have hNone : (dir.flatMap fun entry => (held entry.1).take 0) = [] := by simp
  rw [hNone]

theorem later_eq_max (a b : Int × Int) : toLex (later a b) = max (toLex a) (toLex b) := by
  unfold later
  split
  · rename_i hLess
    exact (max_eq_right hLess.le).symm
  · rename_i hNot
    exact (max_eq_left (not_lt.mp hNot)).symm

theorem later_right_comm (a b c : Int × Int) : later (later a b) c = later (later a c) b := by
  have hSame : toLex (later (later a b) c) = toLex (later (later a c) b) := by
    rw [later_eq_max, later_eq_max, later_eq_max, later_eq_max, max_right_comm]
  exact hSame

/-- The newest stamp is that of the facts in any order. -/
theorem lastStamp_perm (install : String) {a b : List Fact} (h : a.Perm b) : lastStamp install a = lastStamp install b := by
  unfold lastStamp
  refine h.foldl_eq' (fun f _ g _ best => ?_) _
  cases f.hlc with
  | none => rfl
  | some s =>
      cases g.hlc with
      | none => rfl
      | some t =>
          by_cases hs : s.install = install <;> by_cases ht : t.install = install <;>
            simp only [hs, ht, if_true, if_false]
          exact later_right_comm _ _ _

/-- Two indexes of the same facts say the same. -/
structure WriterIndex.Same (a b : WriterIndex) : Prop where
  existing : ∀ id, a.existing.lookup id = b.existing.lookup id
  clock : ∀ install, a.clock install = b.clock install

theorem WriterIndex.Describes.lookup {index : WriterIndex} {facts : List Fact} (h : index.Describes facts)
    (hIds : (facts.map Fact.id).Nodup) {f : Fact} (hf : f ∈ facts) : index.existing.lookup f.id = some f := by
  obtain ⟨old, hOld⟩ := h.known f hf
  obtain ⟨hMem, hId⟩ := h.existing _ _ hOld
  rw [hOld, Option.some.injEq]
  exact List.inj_on_of_nodup_map hIds hMem hf hId

theorem WriterIndex.Describes.same {a b : WriterIndex} {first second : List Fact} (ha : a.Describes first)
    (hb : b.Describes second) (hPerm : first.Perm second) (hIds : (first.map Fact.id).Nodup) : a.Same b := by
  have hOther := (hPerm.map Fact.id).nodup_iff.mp hIds
  refine ⟨fun id => ?_, fun install => ?_⟩
  · cases hLookup : a.existing.lookup id with
    | some f =>
        obtain ⟨hMem, rfl⟩ := ha.existing _ _ hLookup
        exact (hb.lookup hOther (hPerm.mem_iff.mp hMem)).symm
    | none =>
        cases hSecond : b.existing.lookup id with
        | none => rfl
        | some f =>
            obtain ⟨hMem, rfl⟩ := hb.existing _ _ hSecond
            rw [ha.lookup hIds (hPerm.mem_iff.mpr hMem)] at hLookup
            cases hLookup
  · rw [ha.clock, hb.clock, lastStamp_perm install hPerm]

end Brnrd.Ledger
