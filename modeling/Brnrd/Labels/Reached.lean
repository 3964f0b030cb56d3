import Brnrd.Graph.Simple
import Brnrd.Labels.Label

/-! Taint is reachability. A strand at a history is a node; a letter it was
shown leads to its sender, and its birth to its parent with the facts there
were then. The label is tainted where a tainted node is reached without
visiting a strand twice. -/
namespace Brnrd.Labels

open Python Facts Project NamedGraph

/-- A strand, with the facts it is looked at in. -/
structure Node where
  history : History
  strand : String
  named : strand ≠ ""

/-- The letters that a strand was shown. -/
def Node.Shown (host : Host) (n : Node) (letter : Fact) : Prop :=
  ∃ row ∈ n.history.facts, (row.kind = "shown" ∧ Dict.get row.data "strand" = .str n.strand) ∧
    ∃ ids, shownIds row = .ok ids ∧ ∃ ident ∈ ids,
      (letterMap host n.history.facts).lookup (ident.toStr host) = some letter

/-- A stranger's letter, with no label of its own and no exception made for it. -/
structure Strange (host : Host) (root : Option SelfRoot) (h : History) (letter : Fact) : Prop where
  stale : isFresh host h letter = .ok false
  bare : explicitLabel letter = .ok none
  stranger : isStranger root (senderOf host letter) = true

/-- The ways a strand is tainted in its own right. `log` is its jack error log. -/
inductive Tainted (host : Host) (root : Option SelfRoot) (log : String → String) (n : Node) : Prop where
  | stranger {letter : Fact} (hShown : n.Shown host letter) (hStrange : Strange host root n.history letter)
      (hUnknown : knownStrand n.history.facts (senderOf host letter) = false)
  | labelled {letter : Fact} {label : Label} (hShown : n.Shown host letter)
      (hStale : isFresh host n.history letter = .ok false) (hLabel : explicitLabel letter = .ok (some label))
      (hTaint : label.taint = true)
  | declared {row : Fact} (hRow : row ∈ n.history.facts) (hKind : row.kind = "label.tainted")
      (hAbout : about row n.strand = true)
  | source {row : Fact} (hRow : row ∈ n.history.facts) (hKind : row.kind = "source")
      (hAbout : about row n.strand = true) (hUrl : isUrl (Dict.get row.data "origin") = true)
  | log (hSpeaks : speaks (log n.strand) = true)

/-- What a strand's label is joined with. -/
inductive Link (host : Host) (root : Option SelfRoot) (n : Node) : Node → Prop where
  | sender {letter : Fact} (hShown : n.Shown host letter) (hStrange : Strange host root n.history letter)
      (hKnown : knownStrand n.history.facts (senderOf host letter) = true) (hNamed : senderOf host letter ≠ "") :
      Link host root n ⟨n.history, senderOf host letter, hNamed⟩
  | birth {early : History} {parent : String} (hParent : parentAt n.history n.strand = some (early, parent))
      (hNamed : parent ≠ "") : Link host root n ⟨early, parent, hNamed⟩

/-- The logs of all strands, where the one of `strand` may be given. -/
def logs (root : Option SelfRoot) (strand : String) (jackLog : Option String) (other : String) : String :=
  if other = strand then jackLog.getD (siblingLog root strand) else siblingLog root other

theorem parentAt_named {h early : History} {strand parent : String} (hParent : parentAt h strand = some (early, parent)) :
    parent ≠ "" := by
  obtain ⟨⟨lease, index⟩, -, hParent⟩ := Option.bind_eq_some_iff.mp hParent
  obtain ⟨name, hName, hPair⟩ := Option.bind_eq_some_iff.mp hParent
  obtain rfl : name = parent := congrArg Prod.snd (Option.some.inj hPair)
  unfold parentOf at hName
  split at hName
  · split at hName
    · next hNew => exact Option.some.inj hName ▸ hNew.1
    · cases hName
  · cases hName

theorem raising_ne_depth {α : Type} (x : Except Raised α) : raising x ≠ .error .depth := by
  cases x <;> simp [raising, Except.mapError]

section Taint

variable {host : Host} {root : Option SelfRoot} {n : Node} {recur : String → Labelled Label}
  {carries : String → Prop}

/-- A letter that taints a strand it is shown to. `carries` are the tainted
senders. -/
def Carries (host : Host) (root : Option SelfRoot) (h : History) (carries : String → Prop) (letter : Fact) : Prop :=
  (Strange host root h letter ∧ (knownStrand h.facts (senderOf host letter) = true → carries (senderOf host letter))) ∨
    isFresh host h letter = .ok false ∧ ∃ label, explicitLabel letter = .ok (some label) ∧ label.taint = true

variable {label start : Label}

theorem senderLabel_taint {h : History} (hRecur : ∀ s l, recur s = .ok l → (l.taint = true ↔ carries s)) {letter : Fact}
    (hOk : senderLabel host root h recur letter = .ok label) :
    label.taint = true ↔ Carries host root h carries letter := by
  obtain ⟨fresh, hFresh, hOk⟩ := Fallible.peel hOk
  cases fresh with
  | true =>
      obtain rfl : clean = label := Except.ok.inj hOk
      refine ⟨fun hTaint => absurd hTaint (by decide), ?_⟩
      rintro (⟨hStrange, -⟩ | ⟨hStale, -⟩)
      · exact absurd (hFresh.symm.trans hStrange.stale) (by simp)
      · exact absurd (hFresh.symm.trans hStale) (by simp)
  | false =>
      obtain ⟨given, hGiven, hOk⟩ := Fallible.peel (show explicitLabel letter >>= _ = .ok label from hOk)
      cases given with
      | some own =>
          obtain rfl : own = label := Except.ok.inj hOk
          constructor
          · exact fun hTaint => Or.inr ⟨hFresh, own, hGiven, hTaint⟩
          · rintro (⟨hStrange, -⟩ | ⟨-, other, hOther, hTaint⟩)
            · exact absurd (hGiven.symm.trans hStrange.bare) (by simp)
            · obtain rfl : own = other := Option.some.inj (Fallible.same hGiven hOther)
              exact hTaint
      | none =>
          have hOnly : Carries host root h carries letter ↔ isStranger root (senderOf host letter) = true ∧
              (knownStrand h.facts (senderOf host letter) = true → carries (senderOf host letter)) := by
            constructor
            · rintro (⟨hStrange, hSender⟩ | ⟨-, other, hOther, -⟩)
              · exact ⟨hStrange.stranger, hSender⟩
              · exact absurd (hGiven.symm.trans hOther) (by simp)
            · exact fun ⟨hStranger, hSender⟩ => Or.inl ⟨⟨hFresh, hGiven, hStranger⟩, hSender⟩
          rw [hOnly]
          simp only at hOk
          split at hOk
          · next hFriend =>
              obtain rfl : clean = label := Except.ok.inj hOk
              simp only [Bool.not_eq_eq_eq_not, Bool.not_true] at hFriend
              simp [hFriend, clean]
          · next hStranger =>
              simp only [Bool.not_eq_eq_eq_not, Bool.not_true, Bool.not_eq_false] at hStranger
              split at hOk
              · next hKnown => simp [hStranger, hKnown, hRecur _ _ hOk]
              · next hUnknown =>
                  obtain rfl : (⟨true, selfAudience⟩ : Label) = label := Except.ok.inj hOk
                  simp [hStranger, hUnknown]

/-- A row that taints the strand of a node. -/
def RowTaints (host : Host) (root : Option SelfRoot) (n : Node) (carries : String → Prop) (row : Fact) : Prop :=
  ((row.kind = "shown" ∧ Dict.get row.data "strand" = .str n.strand) ∧ ∃ ids, shownIds row = .ok ids ∧ ∃ ident ∈ ids,
    ∃ letter, (letterMap host n.history.facts).lookup (ident.toStr host) = some letter ∧
      Carries host root n.history carries letter) ∨
  (row.kind = "label.tainted" ∧ about row n.strand) ∨
  (row.kind = "source" ∧ about row n.strand ∧ isUrl (Dict.get row.data "origin"))

theorem joinShown_taint {h : History} (hRecur : ∀ s l, recur s = .ok l → (l.taint = true ↔ carries s)) {ident : Value}
    (hOk : joinShown host root h recur start ident = .ok label) :
    label.taint = true ↔ start.taint = true ∨
      ∃ letter, (letterMap host h.facts).lookup (ident.toStr host) = some letter ∧ Carries host root h carries letter := by
  unfold joinShown at hOk
  split at hOk
  · next letter hLetter =>
      obtain ⟨sent, hSent, hOk⟩ := Fallible.peel hOk
      obtain rfl := Except.ok.inj hOk
      rw [Label.join_taint, Bool.or_eq_true, senderLabel_taint hRecur hSent]
      simp [hLetter]
  · next hNone =>
      obtain rfl := Except.ok.inj hOk
      simp [hNone]

theorem joinRow_taint (hRecur : ∀ s l, recur s = .ok l → (l.taint = true ↔ carries s)) {row : Fact}
    (hOk : joinRow host root n.history recur n.strand start row = .ok label) :
    label.taint = true ↔ start.taint = true ∨ RowTaints host root n carries row := by
  unfold joinRow at hOk
  split at hOk
  · next hShown =>
      obtain ⟨ids, hIds, hOk⟩ := Fallible.peel hOk
      rw [Fallible.foldlM_flag (fun _ _ _ hStep => joinShown_taint hRecur hStep) hOk]
      simp [RowTaints, hShown, hIds]
  · next hShown =>
      split at hOk
      · next hDeclared =>
          obtain rfl := Except.ok.inj hOk
          simp [RowTaints, hDeclared]
      · next hDeclared =>
          split at hOk
          · next hSource =>
              obtain rfl := Except.ok.inj hOk
              simp [RowTaints, hSource]
          · next hSource =>
              obtain rfl := Except.ok.inj hOk
              simp only [RowTaints, hShown, hDeclared, hSource, false_and, or_self, or_false]

/-- What taints a node: its parent at birth, a row, or its log. -/
theorem strandLabelTo_taint {depth : Nat} {jackLog : Option String} {seen : Finset String} {born : Prop}
    (hGuard : guardOff root = false) (hNew : n.strand ∉ seen)
    (hBorn : ∀ early parent l, parentAt n.history n.strand = some (early, parent) → strandLabelTo host root depth early parent none (insert n.strand seen) = .ok l → (l.taint = true ↔ born))
    (hOrphan : parentAt n.history n.strand = none → ¬ born)
    (hRecur : ∀ s l, strandLabelTo host root depth n.history s none (insert n.strand seen) = .ok l → (l.taint = true ↔ carries s))
    (hOk : strandLabelTo host root (depth + 1) n.history n.strand jackLog seen = .ok label) :
    label.taint = true ↔ (born ∨ ∃ row ∈ n.history.facts, RowTaints host root n carries row) ∨
      speaks (jackLog.getD (siblingLog root n.strand)) = true := by
  rw [strandLabelTo, if_neg (not_or.mpr ⟨n.named, hNew⟩), if_neg (by simp [hGuard])] at hOk
  obtain ⟨start, hStart, hOk⟩ := Fallible.peel hOk
  obtain ⟨joined, hJoined, hOk⟩ := Fallible.peel hOk
  obtain rfl := Except.ok.inj hOk
  have hStartTaint : start.taint = true ↔ born := by
    split at hStart
    · next early parent hParent =>
        obtain ⟨label, hLabel, rfl⟩ := Fallible.map_eq_ok.mp hStart
        rw [Label.join_taint, Bool.or_eq_true, hBorn early parent label hParent hLabel]
        simp [clean]
    · next hNone =>
        obtain rfl : clean = start := Except.ok.inj hStart
        simp [clean, hOrphan hNone]
  rw [← hStartTaint, ← Fallible.foldlM_flag (fun _ _ _ hStep => joinRow_taint hRecur hStep) hJoined]
  split
  · next hSpeaks => simp [hSpeaks]
  · next hSilent => simp [hSilent]

end Taint

/-- The nodes that the search finds tainted. -/
abbrev FoundTaint (host : Host) (root : Option SelfRoot) (log : String → String) (seen : Finset String) (n : Node) : Prop :=
  Found Node.strand (Link host root) (Tainted host root log) (↑seen) n

section Search

variable {host : Host} {root : Option SelfRoot} {log : String → String} {seen : Finset String} {n : Node}

/-- A node the search is at is found where it is tainted itself, or a link leads
to one that is found. -/
theorem found_step (hNew : n.strand ∉ seen) :
    FoundTaint host root log seen n ↔
      Tainted host root log n ∨ ∃ m, Link host root n m ∧ FoundTaint host root log (insert n.strand seen) m := by
  rw [FoundTaint]
  simp only [FoundTaint, Finset.coe_insert]
  constructor
  · rintro (⟨-, hGoal⟩ | ⟨-, hLink, hNext⟩)
    · exact .inl hGoal
    · exact .inr ⟨_, hLink, hNext⟩
  · rintro (hGoal | ⟨m, hLink, hNext⟩)
    · exact Found.here (by simpa using hNew) hGoal
    · exact Found.step (by simpa using hNew) hLink hNext

theorem not_found_seen (hSeen : n.strand ∈ seen) : ¬ FoundTaint host root log seen n := by
  rintro (⟨hNew, -⟩ | ⟨hNew, -, -⟩) <;> exact hNew (by simpa using hSeen)

/-- The senders that the search finds tainted. -/
def carriedBy (host : Host) (root : Option SelfRoot) (log : String → String) (seen : Finset String) (h : History)
    (sender : String) : Prop :=
  ∃ hNamed : sender ≠ "", FoundTaint host root log seen ⟨h, sender, hNamed⟩

/-- The search at one node is what its label joins. -/
theorem found_iff_rows (hNew : n.strand ∉ seen) :
    FoundTaint host root log seen n ↔
      ((∃ early parent, ∃ hParent : parentAt n.history n.strand = some (early, parent),
          FoundTaint host root log (insert n.strand seen) ⟨early, parent, parentAt_named hParent⟩) ∨
        ∃ row ∈ n.history.facts, RowTaints host root n (carriedBy host root log (insert n.strand seen) n.history) row) ∨
      speaks (log n.strand) = true := by
  rw [found_step hNew]
  constructor
  · rintro (hTainted | ⟨m, hLink, hFound⟩)
    · cases hTainted with
      | stranger hShown hStrange hUnknown =>
          obtain ⟨row, hRow, hKind, ids, hIds, ident, hIdent, hLetter⟩ := hShown
          refine Or.inl (Or.inr ⟨row, hRow, .inl ⟨hKind, ids, hIds, ident, hIdent, _, hLetter, .inl ⟨hStrange, ?_⟩⟩⟩)
          exact fun hKnown => absurd (hUnknown.symm.trans hKnown) (by simp)
      | labelled hShown hStale hLabel hTaint =>
          obtain ⟨row, hRow, hKind, ids, hIds, ident, hIdent, hLetter⟩ := hShown
          exact .inl (Or.inr ⟨row, hRow, .inl ⟨hKind, ids, hIds, ident, hIdent, _, hLetter,
            Or.inr ⟨hStale, _, hLabel, hTaint⟩⟩⟩)
      | declared hRow hKind hAbout => exact .inl (Or.inr ⟨_, hRow, .inr (Or.inl ⟨hKind, hAbout⟩)⟩)
      | source hRow hKind hAbout hUrl => exact .inl (Or.inr ⟨_, hRow, .inr (Or.inr ⟨hKind, hAbout, hUrl⟩)⟩)
      | log hSpeaks => exact .inr hSpeaks
    · cases hLink with
      | sender hShown hStrange hKnown hNamed =>
          obtain ⟨row, hRow, hKind, ids, hIds, ident, hIdent, hLetter⟩ := hShown
          exact .inl (Or.inr ⟨row, hRow, .inl ⟨hKind, ids, hIds, ident, hIdent, _, hLetter,
            Or.inl ⟨hStrange, fun _ => ⟨hNamed, hFound⟩⟩⟩⟩)
      | birth hParent hNamed => exact .inl (Or.inl ⟨_, _, hParent, hFound⟩)
  · rintro ((⟨early, parent, hParent, hFound⟩ | ⟨row, hRow, hTaints⟩) | hSpeaks)
    · exact .inr ⟨_, Link.birth hParent (parentAt_named hParent), hFound⟩
    · rcases hTaints with ⟨hKind, ids, hIds, ident, hIdent, letter, hLetter, hCarries⟩ | hDeclared | hSource
      · have hShown : n.Shown host letter := ⟨row, hRow, hKind, ids, hIds, ident, hIdent, hLetter⟩
        rcases hCarries with ⟨hStrange, hSender⟩ | ⟨hStale, label, hLabel, hTaint⟩
        · cases hKnown : knownStrand n.history.facts (senderOf host letter) with
          | true =>
              obtain ⟨hNamed, hFound⟩ := hSender hKnown
              exact .inr ⟨_, Link.sender hShown hStrange hKnown hNamed, hFound⟩
          | false => exact .inl (Tainted.stranger hShown hStrange hKnown)
        · exact .inl (Tainted.labelled hShown hStale hLabel hTaint)
      · exact .inl (Tainted.declared hRow hDeclared.1 hDeclared.2)
      · exact .inl (Tainted.source hRow hSource.1 hSource.2.1 hSource.2.2)
    · exact .inl (Tainted.log hSpeaks)

/-- A label that is returned is tainted where the search finds its strand. -/
theorem strandLabelTo_found (hGuard : guardOff root = false) {depth : Nat} {jackLog : Option String} {label : Label}
    (hHere : n.strand ∉ seen → log n.strand = jackLog.getD (siblingLog root n.strand))
    (hThere : ∀ other, other ∉ insert n.strand seen → log other = siblingLog root other)
    (hOk : strandLabelTo host root depth n.history n.strand jackLog seen = .ok label) :
    label.taint = true ↔ FoundTaint host root log seen n := by
  induction depth generalizing n jackLog seen label with
  | zero => cases hOk
  | succ depth ih =>
      by_cases hSeen : n.strand ∈ seen
      · rw [strandLabelTo, if_pos (Or.inr hSeen)] at hOk
        obtain rfl : clean = label := Except.ok.inj hOk
        simp [clean, not_found_seen hSeen]
      · have hNext : ∀ (m : Node) l, strandLabelTo host root depth m.history m.strand none (insert n.strand seen) = .ok l →
            (l.taint = true ↔ FoundTaint host root log (insert n.strand seen) m) := fun m l hLabel =>
          ih (fun hNew => show log m.strand = (none : Option String).getD (siblingLog root m.strand) from
              hThere m.strand hNew)
            (fun other hOther => hThere other fun hMem => hOther (Finset.mem_insert_of_mem hMem)) hLabel
        rw [found_iff_rows hSeen, hHere hSeen]
        refine strandLabelTo_taint hGuard hSeen (fun early parent l hParent hLabel => ?_) (fun hNone => ?_)
          (fun sender l hLabel => ?_) hOk
        · rw [hNext ⟨early, parent, parentAt_named hParent⟩ l hLabel]
          constructor
          · exact fun hFound => ⟨early, parent, hParent, hFound⟩
          · rintro ⟨early', parent', hParent', hFound⟩
            obtain ⟨rfl, rfl⟩ := Prod.mk.inj (Option.mem_unique hParent hParent')
            exact hFound
        · rintro ⟨early, parent, hParent, -⟩
          exact absurd (hNone.symm.trans hParent) (by simp)
        · by_cases hNamed : sender = ""
          · cases depth with
            | zero => cases hLabel
            | succ depth =>
                rw [strandLabelTo, if_pos (Or.inl hNamed)] at hLabel
                obtain rfl : clean = l := Except.ok.inj hLabel
                simp [clean, carriedBy, hNamed]
          · rw [hNext ⟨n.history, sender, hNamed⟩ l hLabel]
            exact ⟨fun hFound => ⟨hNamed, hFound⟩, fun ⟨_, hFound⟩ => hFound⟩

end Search

end Brnrd.Labels
