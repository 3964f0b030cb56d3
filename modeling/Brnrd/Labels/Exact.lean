import Brnrd.Labels.Reached

/-! The recursion ends, and in a history where a letter keeps its meaning the
search of a label is complete: what a strand was tainted by at an earlier time
it is still tainted by. -/
namespace Brnrd.Labels

open Python Facts Ledger NamedGraph

variable {facts : List Fact}

theorem mem_leaseNames {name : String} :
    name ∈ leaseNames facts ↔ ∃ fact ∈ facts, fact.kind = "lease" ∧
      (Dict.get fact.data "strand" = .str name ∨ Dict.get fact.data "parent" = .str name) := by
  simp only [leaseNames, List.mem_toFinset, List.mem_flatMap]
  refine exists_congr fun fact => and_congr_right fun _ => ?_
  split
  · next hKind =>
      simp only [List.mem_filterMap, textOf_eq_some, exists_eq_right, List.mem_pair, hKind, true_and]
      exact or_congr eq_comm eq_comm
  · next hKind => simp [hKind]

theorem leaseNames_mono {facts' : List Fact} (h : facts ⊆ facts') : leaseNames facts ⊆ leaseNames facts' := by
  intro name hName
  obtain ⟨fact, hFact, hRest⟩ := mem_leaseNames.mp hName
  exact mem_leaseNames.mpr ⟨fact, h hFact, hRest⟩

variable {parent strand : String}

theorem leases_iff {fact : Fact} :
    leases strand fact = true ↔ fact.kind = "lease" ∧ Dict.get fact.data "strand" = .str strand := by
  simp [leases]

theorem known_mem_leaseNames {sender : String} (h : knownStrand facts sender = true) : sender ∈ leaseNames facts := by
  obtain ⟨fact, hFact, hLease⟩ := List.any_eq_true.mp h
  obtain ⟨hKind, hStrand⟩ := leases_iff.mp hLease
  exact mem_leaseNames.mpr ⟨fact, hFact, hKind, .inl hStrand⟩

theorem birth_eq_some {lease : Fact} {index : Nat} (h : birth facts strand = some (lease, index)) :
    facts[index]? = some lease ∧ leases strand lease = true := by
  have hMem := List.mem_of_find?_eq_some h
  exact ⟨List.mem_zipIdx_iff_getElem?.mp hMem, by simpa using List.find?_some h⟩

theorem parentOf_eq_some {lease : Fact} (h : parentOf lease strand = some parent) :
    Dict.get lease.data "parent" = .str parent := by
  unfold parentOf at h
  split at h
  · next name hName =>
      split at h
      · exact Option.some.inj h ▸ hName
      · cases h
  · cases h

theorem parentAt_eq_some {h early : History} :
    parentAt h strand = some (early, parent) ↔ ∃ lease index, birth h.facts strand = some (lease, index) ∧
      parentOf lease strand = some parent ∧ early = h.before index := by
  unfold parentAt
  cases hBirth : birth h.facts strand with
  | none => simp
  | some row =>
      obtain ⟨lease, index⟩ := row
      cases hParent : parentOf lease strand with
      | none => simp [hParent]
      | some name => simp [hParent, and_comm, eq_comm]

theorem parent_mem_leaseNames {h early : History} (hParent : parentAt h strand = some (early, parent)) :
    parent ∈ leaseNames h.facts := by
  obtain ⟨lease, index, hBirth, hName, -⟩ := parentAt_eq_some.mp hParent
  obtain ⟨hRow, hLease⟩ := birth_eq_some hBirth
  exact mem_leaseNames.mpr ⟨lease, List.mem_of_getElem? hRow, (leases_iff.mp hLease).1, .inr (parentOf_eq_some hName)⟩

section Ends

variable {host : Host} {root : Option SelfRoot} {h : History} {recur recur' : String → Labelled Label}

theorem isFresh_ne_depth (letter : Fact) : isFresh host h letter ≠ .error .depth := by
  refine Fallible.bind_ne_error ?_ fun threads => Fallible.bind_ne_error (raising_ne_depth _) fun _ => ?_
  · unfold History.senderThreads
    split
    · exact raising_ne_depth _
    · refine Fallible.bind_ne_error ?_ fun rows => Fallible.bind_ne_error (raising_ne_depth _) fun folded =>
        Fallible.bind_ne_error (raising_ne_depth _) fun found => by simp
      cases union host [h.facts] <;> simp [Except.mapError]
  · split <;> simp

theorem explicitLabel_ne_depth (letter : Fact) : explicitLabel letter ≠ .error .depth := by
  unfold explicitLabel
  split
  · split
    · exact Fallible.bind_ne_error (raising_ne_depth _) fun _ => by simp
    · simp
  · simp

theorem senderLabel_ne_depth (hRecur : ∀ s, knownStrand h.facts s = true → recur s ≠ .error .depth) (letter : Fact) :
    senderLabel host root h recur letter ≠ .error .depth := by
  refine Fallible.bind_ne_error (isFresh_ne_depth letter) fun fresh => ?_
  split
  · simp
  · refine Fallible.bind_ne_error (explicitLabel_ne_depth letter) fun given => ?_
    split
    · simp
    · simp only
      split
      · simp
      · split
        · next hKnown => exact hRecur _ hKnown
        · simp

theorem joinRow_ne_depth (hRecur : ∀ s, knownStrand h.facts s = true → recur s ≠ .error .depth) (strand : String)
    (label : Label) (row : Fact) : joinRow host root h recur strand label row ≠ .error .depth := by
  unfold joinRow
  split
  · refine Fallible.bind_ne_error (raising_ne_depth _) fun ids => Fallible.foldlM_ne_error (fun label ident => ?_) ids label
    unfold joinShown
    split
    · exact Fallible.bind_ne_error (senderLabel_ne_depth hRecur _) fun _ => by simp
    · simp
  · split
    · simp
    · split <;> simp

theorem senderLabel_congr (hRecur : ∀ s, knownStrand h.facts s = true → recur s = recur' s) (letter : Fact) :
    senderLabel host root h recur letter = senderLabel host root h recur' letter := by
  refine bind_congr fun fresh => ?_
  split
  · rfl
  · refine bind_congr fun given => ?_
    split
    · rfl
    · simp only
      split
      · rfl
      · split
        · next hKnown => exact hRecur _ hKnown
        · rfl

theorem joinRow_congr (hRecur : ∀ s, knownStrand h.facts s = true → recur s = recur' s) (strand : String) :
    joinRow host root h recur strand = joinRow host root h recur' strand := by
  have hShown : joinShown host root h recur = joinShown host root h recur' := by
    funext label ident
    unfold joinShown
    split
    · rw [senderLabel_congr hRecur]
    · rfl
  funext label row
  rw [joinRow, joinRow, hShown]

/-- The strands still to be met on a path. -/
def unmet (facts : List Fact) (strand : String) (seen : Finset String) : Finset String :=
  insert strand (leaseNames facts) \ seen

/-- Each strand on a path is one that leases name, and uses up itself. -/
theorem unmet_lt {facts facts' : List Fact} {strand next : String} {seen : Finset String} (hNew : strand ∉ seen)
    (hFacts : facts' ⊆ facts) (hNext : next ∈ leaseNames facts) :
    (unmet facts' next (insert strand seen)).card < (unmet facts strand seen).card := by
  refine Finset.card_lt_card ((Finset.ssubset_iff_of_subset fun name hName => ?_).mpr ⟨strand, ?_, ?_⟩)
  · obtain ⟨hNamed, hUnmet⟩ := Finset.mem_sdiff.mp hName
    refine Finset.mem_sdiff.mpr ⟨Finset.mem_insert_of_mem ?_, fun hSeen => hUnmet (Finset.mem_insert_of_mem hSeen)⟩
    rcases Finset.mem_insert.mp hNamed with rfl | hNamed
    · exact hNext
    · exact leaseNames_mono hFacts hNamed
  · exact Finset.mem_sdiff.mpr ⟨Finset.mem_insert_self _ _, hNew⟩
  · exact fun hName => (Finset.mem_sdiff.mp hName).2 (Finset.mem_insert_self _ _)

/-- Deep enough for the strands it can meet, the recursion is never cut off, and
any greater depth gives the same. -/
theorem strandLabelTo_ends {depth depth' : Nat} {strand : String} {jackLog : Option String} {seen : Finset String}
    (hDeep : (unmet h.facts strand seen).card < depth) (hDeep' : (unmet h.facts strand seen).card < depth') :
    strandLabelTo host root depth h strand jackLog seen ≠ .error .depth ∧
      strandLabelTo host root depth h strand jackLog seen = strandLabelTo host root depth' h strand jackLog seen := by
  induction depth generalizing depth' h strand jackLog seen with
  | zero => omega
  | succ depth ih =>
      obtain ⟨depth', rfl⟩ : ∃ d, depth' = d + 1 := ⟨depth' - 1, by omega⟩
      unfold strandLabelTo
      split
      · simp
      · next hStrand =>
          split
          · simp
          · have hNew : strand ∉ seen := fun hSeen => hStrand (Or.inr hSeen)
            have hParent : ∀ early parent, parentAt h strand = some (early, parent) →
                strandLabelTo host root depth early parent none (insert strand seen) ≠ .error .depth ∧
                  strandLabelTo host root depth early parent none (insert strand seen) =
                    strandLabelTo host root depth' early parent none (insert strand seen) := by
              intro early parent hParent
              obtain ⟨lease, index, -, -, rfl⟩ := parentAt_eq_some.mp hParent
              have hLess := unmet_lt hNew (List.take_subset index h.facts) (parent_mem_leaseNames hParent)
              exact ih (by simp only [History.before]; omega) (by simp only [History.before]; omega)
            have hSender : ∀ s, knownStrand h.facts s = true →
                strandLabelTo host root depth h s none (insert strand seen) ≠ .error .depth ∧
                  strandLabelTo host root depth h s none (insert strand seen) =
                    strandLabelTo host root depth' h s none (insert strand seen) := by
              intro s hKnown
              have hLess := unmet_lt hNew (List.Subset.refl h.facts) (known_mem_leaseNames hKnown)
              exact ih (by omega) (by omega)
            refine ⟨Fallible.bind_ne_error ?_ fun start => Fallible.bind_ne_error
              (Fallible.foldlM_ne_error (joinRow_ne_depth (fun s hKnown => (hSender s hKnown).1) strand) _ _)
              fun _ => by simp, ?_⟩
            · split
              · next early parent hSome =>
                  have hEnds := (hParent early parent hSome).1
                  cases hLabel : strandLabelTo host root depth early parent none (insert strand seen) with
                  | error e => simpa [Except.map, hLabel] using hEnds
                  | ok label => simp [Except.map]
              · simp
            · simp only
              rw [joinRow_congr fun s hKnown => (hSender s hKnown).2]
              congr 1
              split
              · next early parent hSome => rw [(hParent early parent hSome).2]
              · rfl

/-- A label of a strand never meets the end of its depth. -/
theorem strandLabel_ends (strand : String) (jackLog : Option String) :
    strandLabel host root h strand jackLog ≠ .error .depth ∧ ∀ depth, (leaseNames h.facts).card + 2 ≤ depth →
      strandLabelTo host root depth h strand jackLog ∅ = strandLabel host root h strand jackLog := by
  have hUnmet : (unmet h.facts strand ∅).card < (leaseNames h.facts).card + 2 := by
    rw [unmet, Finset.sdiff_empty]
    exact Nat.lt_succ_of_le (Finset.card_insert_le _ _)
  exact ⟨(strandLabelTo_ends hUnmet hUnmet).1, fun depth hDepth =>
    (strandLabelTo_ends (hUnmet.trans_le hDepth) hUnmet).2⟩

end Ends

section Settled

variable {host : Host} {root : Option SelfRoot} {log : String → String} {h : History}

/-- The same facts, or those before some time. -/
def History.Earlier (e h : History) : Prop :=
  e = h ∨ ∃ index, e = h.before index

theorem History.Earlier.trans {d e h : History} (hFirst : d.Earlier e) (hSecond : e.Earlier h) : d.Earlier h := by
  rcases hFirst with rfl | ⟨i, rfl⟩
  · exact hSecond
  · rcases hSecond with rfl | ⟨j, rfl⟩
    · exact .inr ⟨i, rfl⟩
    · exact .inr ⟨min i j, by simp [History.before, List.take_take]⟩

theorem History.Earlier.isPrefix {e h : History} (hEarlier : e.Earlier h) : e.facts <+: h.facts := by
  rcases hEarlier with rfl | ⟨i, rfl⟩
  · exact List.prefix_rfl
  · exact List.take_prefix i h.facts

/-- A letter keeps its meaning: its id is its own, a sender that is leased was
leased before it wrote, and no letter becomes a fresh reincarnation's later. -/
structure Settled (host : Host) (h : History) : Prop where
  oneLetter : ∀ f ∈ h.facts, ∀ g ∈ h.facts, f.kind = "letter" → g.kind = "letter" →
    identOf host f = identOf host g → f = g
  leased : ∀ first letter rest, h.facts = first ++ letter :: rest → letter.kind = "letter" →
    knownStrand h.facts (senderOf host letter) = true → knownStrand first (senderOf host letter) = true
  stale : ∀ early late letter, early.Earlier late → late.Earlier h → letter ∈ early.facts → letter.kind = "letter" →
    isFresh host early letter = .ok false → isFresh host late letter = .ok false

theorem letterMap_snoc (host : Host) (facts : List Fact) (fact : Fact) :
    letterMap host (facts ++ [fact]) = addLetter host (letterMap host facts) fact :=
  List.foldl_concat ..

variable {key strand : String} {facts facts' : List Fact}

theorem letterMap_from {letter : Fact} (hLetter : (letterMap host facts).lookup key = some letter) :
    letter ∈ facts ∧ letter.kind = "letter" ∧ identOf host letter = key := by
  induction facts using List.reverseRecOn with
  | nil => cases hLetter
  | append_singleton facts fact ih =>
      have hOld : (letterMap host facts).lookup key = some letter →
          letter ∈ facts ++ [fact] ∧ letter.kind = "letter" ∧ identOf host letter = key := fun hLetter =>
        ⟨List.mem_append_left _ (ih hLetter).1, (ih hLetter).2⟩
      rw [letterMap_snoc, addLetter] at hLetter
      split at hLetter
      · next hKind =>
          rw [lookup_cons_if] at hLetter
          split at hLetter
          · next hKey =>
              obtain rfl := Option.some.inj hLetter
              exact ⟨by simp, hKind.1, hKey.symm⟩
          · exact hOld hLetter
      · exact hOld hLetter

/-- An id that has a letter has one in any longer history. -/
theorem letterMap_keeps (hPrefix : facts <+: facts') {letter : Fact}
    (hLetter : (letterMap host facts).lookup key = some letter) :
    ∃ later, (letterMap host facts').lookup key = some later := by
  obtain ⟨rest, rfl⟩ := hPrefix
  induction rest using List.reverseRecOn with
  | nil => exact ⟨letter, by rwa [List.append_nil]⟩
  | append_singleton rest fact ih =>
      obtain ⟨later, hLater⟩ := ih
      rw [← List.append_assoc, letterMap_snoc, addLetter]
      split
      · rw [lookup_cons_if]
        split
        · exact ⟨fact, rfl⟩
        · exact ⟨later, hLater⟩
      · exact ⟨later, hLater⟩

theorem knownStrand_mono (h : facts ⊆ facts') {sender : String} (hKnown : knownStrand facts sender = true) :
    knownStrand facts' sender = true := by
  obtain ⟨fact, hFact, hLease⟩ := List.any_eq_true.mp hKnown
  exact List.any_eq_true.mpr ⟨fact, h hFact, hLease⟩

theorem birth_keeps (hPrefix : facts <+: facts') {row : Fact × Nat} (hBirth : birth facts strand = some row) :
    birth facts' strand = some row := by
  obtain ⟨rest, rfl⟩ := hPrefix
  rw [birth, List.zipIdx_append, List.find?_append, ← birth, hBirth]
  rfl

theorem History.before_keeps {e h : History} (hPrefix : e.facts <+: h.facts) {index : Nat} (hIndex : index ≤ e.facts.length) :
    h.before index = e.before index := by
  obtain ⟨rest, hRest⟩ := hPrefix
  rw [History.before, History.before, ← hRest, List.take_append_of_le_length hIndex]

theorem parentAt_keeps {e h early : History} (hPrefix : e.facts <+: h.facts) {parent : String}
    (hParent : parentAt e strand = some (early, parent)) : parentAt h strand = some (early, parent) := by
  obtain ⟨lease, index, hBirth, hName, rfl⟩ := parentAt_eq_some.mp hParent
  have hIndex : index ≤ e.facts.length := by
    obtain ⟨hRow, -⟩ := birth_eq_some hBirth
    exact ((List.getElem?_eq_some_iff.mp hRow).1).le
  exact parentAt_eq_some.mpr ⟨lease, index, birth_keeps hPrefix hBirth, hName, (History.before_keeps hPrefix hIndex).symm⟩

/-- The node `n'` is `n` at a later time, up to the one of `h`. -/
def Later (h : History) (n n' : Node) : Prop :=
  n.strand = n'.strand ∧ n.history.Earlier n'.history ∧ n'.history.Earlier h

variable {n n' : Node} {letter : Fact}

theorem Node.Shown.from (hShown : n.Shown host letter) : letter ∈ n.history.facts ∧ letter.kind = "letter" := by
  obtain ⟨_, _, _, _, _, _, _, hLetter⟩ := hShown
  exact ⟨(letterMap_from hLetter).1, (letterMap_from hLetter).2.1⟩

theorem Node.Shown.later (hSettled : Settled host h) (hLater : Later h n n') (hShown : n.Shown host letter) :
    n'.Shown host letter := by
  obtain ⟨hStrand, hEarlier, hWithin⟩ := hLater
  obtain ⟨row, hRow, hKind, ids, hIds, ident, hIdent, hLetter⟩ := hShown
  obtain ⟨later, hLookup⟩ := letterMap_keeps hEarlier.isPrefix hLetter
  obtain ⟨hMem, hLetterKind, hKey⟩ := letterMap_from hLetter
  obtain ⟨hMem', hLetterKind', hKey'⟩ := letterMap_from hLookup
  have hSame : later = letter := hSettled.oneLetter _ (hWithin.isPrefix.subset hMem') _
    ((hEarlier.trans hWithin).isPrefix.subset hMem) hLetterKind' hLetterKind (hKey'.trans hKey.symm)
  exact ⟨row, hEarlier.isPrefix.subset hRow, hStrand ▸ hKind, ids, hIds, ident, hIdent, hSame ▸ hLookup⟩

theorem Strange.later (hSettled : Settled host h) (hLater : Later h n n') (hShown : n.Shown host letter)
    (hStrange : Strange host root n.history letter) : Strange host root n'.history letter where
  stale := hSettled.stale _ _ _ hLater.2.1 hLater.2.2 hShown.from.1 hShown.from.2 hStrange.stale
  bare := hStrange.bare
  stranger := hStrange.stranger

/-- A sender that is unknown when its letter is there stays unknown. -/
theorem unknown_later (hSettled : Settled host h) (hLater : Later h n n') (hShown : n.Shown host letter)
    (hUnknown : knownStrand n.history.facts (senderOf host letter) = false) :
    knownStrand n'.history.facts (senderOf host letter) = false := by
  obtain ⟨-, hEarlier, hWithin⟩ := hLater
  obtain ⟨hMem, hKind⟩ := hShown.from
  obtain ⟨first, rest, hFacts⟩ := List.append_of_mem hMem
  obtain ⟨more, hMore⟩ := (hEarlier.trans hWithin).isPrefix
  have hSplit : h.facts = first ++ letter :: (rest ++ more) := by simp [← hMore, hFacts]
  rw [← Bool.not_eq_true] at hUnknown ⊢
  intro hKnown
  have hLeased := hSettled.leased _ _ _ hSplit hKind (knownStrand_mono hWithin.isPrefix.subset hKnown)
  exact hUnknown (knownStrand_mono (by simp [hFacts]) hLeased)

theorem Tainted.later (hSettled : Settled host h) (hLater : Later h n n') (hTainted : Tainted host root log n) :
    Tainted host root log n' := by
  have hSubset := hLater.2.1.isPrefix.subset
  cases hTainted with
  | stranger hShown hStrange hUnknown =>
      exact Tainted.stranger (hShown.later hSettled hLater) (hStrange.later hSettled hLater hShown)
        (unknown_later hSettled hLater hShown hUnknown)
  | labelled hShown hStale hLabel hTaint =>
      exact Tainted.labelled (hShown.later hSettled hLater)
        (hSettled.stale _ _ _ hLater.2.1 hLater.2.2 hShown.from.1 hShown.from.2 hStale) hLabel hTaint
  | declared hRow hKind hAbout => exact Tainted.declared (hSubset hRow) hKind (hLater.1 ▸ hAbout)
  | source hRow hKind hAbout hUrl => exact Tainted.source (hSubset hRow) hKind (hLater.1 ▸ hAbout) hUrl
  | log hSpeaks => exact Tainted.log (hLater.1 ▸ hSpeaks)

theorem Link.later (hSettled : Settled host h) (hLater : Later h n n') {m : Node} (hLink : Link host root n m) :
    ∃ m', Link host root n' m' ∧ Later h m m' := by
  cases hLink with
  | sender hShown hStrange hKnown hNamed =>
      exact ⟨_, Link.sender (hShown.later hSettled hLater) (hStrange.later hSettled hLater hShown)
        (knownStrand_mono hLater.2.1.isPrefix.subset hKnown) hNamed, rfl, hLater.2⟩
  | birth hParent hNamed =>
      obtain ⟨lease, index, -, -, rfl⟩ := parentAt_eq_some.mp hParent
      have hParent' := parentAt_keeps hLater.2.1.isPrefix hParent
      rw [hLater.1] at hParent'
      have hBefore : (n.history.before index).Earlier n.history := Or.inr ⟨index, rfl⟩
      exact ⟨_, Link.birth hParent' hNamed, rfl, .inl rfl, hBefore.trans (hLater.2.1.trans hLater.2.2)⟩

theorem Link.earlier {m : Node} (hLink : Link host root n m) : m.history.Earlier n.history := by
  cases hLink with
  | sender => exact .inl rfl
  | birth hParent =>
      obtain ⟨-, index, -, -, rfl⟩ := parentAt_eq_some.mp hParent
      exact .inr ⟨index, rfl⟩

/-- In a settled history a strand has at a later time what it had before. -/
theorem Settled.steady (hSettled : Settled host h) :
    Steady Node.strand (Link host root) (Tainted host root log) (fun n => n.history.Earlier h) (Later h) where
  keepsGoal := fun hLater hTainted => hTainted.later hSettled hLater
  keepsLink := fun hLater hLink => hLink.later hSettled hLater
  staysInside := fun hInside hLink => hLink.earlier.trans hInside
  behind := by
    intro n m hInside hReach hName
    refine ⟨hName, ?_, hInside⟩
    clear hName
    induction hReach with
    | refl => exact .inl rfl
    | tail _ hLink ih => exact hLink.earlier.trans ih

end Settled

section Exact

variable {host : Host} {root : Option SelfRoot} {h : History} {strand : String}

/-- A label that is returned is tainted where a tainted node is reached without
visiting a strand twice. -/
theorem strandLabel_taint (hGuard : guardOff root = false) (hNamed : strand ≠ "") {jackLog : Option String} {label : Label}
    (hOk : strandLabel host root h strand jackLog = .ok label) :
    label.taint = true ↔
      Found Node.strand (Link host root) (Tainted host root (logs root strand jackLog)) ∅ ⟨h, strand, hNamed⟩ := by
  have hFound := @strandLabelTo_found host root (logs root strand jackLog) ∅ ⟨h, strand, hNamed⟩ hGuard _ jackLog label
    (fun _ => if_pos rfl) (fun other hOther => if_neg (by simpa using hOther)) hOk
  rw [hFound, FoundTaint, Finset.coe_empty]

/-- With the guard on, the recursion ends; a label that is returned is tainted
exactly where a chain of links that visits no strand twice leads to a node that
is tainted in its own right; and in a settled history that is where any chain
of links does. -/
theorem taint_is_reachability (hGuard : guardOff root = false) (hNamed : strand ≠ "") (jackLog : Option String) :
    (strandLabel host root h strand jackLog ≠ .error .depth ∧ ∀ depth, (leaseNames h.facts).card + 2 ≤ depth →
      strandLabelTo host root depth h strand jackLog ∅ = strandLabel host root h strand jackLog) ∧
    ∀ label, strandLabel host root h strand jackLog = .ok label →
      (label.taint = true ↔ ∃ nodes, Chain (Link host root) (Tainted host root (logs root strand jackLog))
        ⟨h, strand, hNamed⟩ nodes ∧ (nodes.map Node.strand).Nodup) ∧
      (Settled host h → (label.taint = true ↔ ∃ n, Relation.ReflTransGen (Link host root) ⟨h, strand, hNamed⟩ n ∧
        Tainted host root (logs root strand jackLog) n)) := by
  refine ⟨strandLabel_ends strand jackLog, fun label hOk => ?_⟩
  rw [strandLabel_taint hGuard hNamed hOk]
  constructor
  · rw [found_iff]
    simp
  · exact fun hSettled => found_iff_reached hSettled.steady (Or.inl rfl)

end Exact

def rowAt (ms : Int) (kind by_ : String) (data : Dict) : Fact :=
  ⟨kind, by_, data, "", toString ms, version, some ⟨ms, 0, "aaaa"⟩, []⟩

def leaseAt (ms : Int) (strand : String) (parent : Value) : Fact :=
  rowAt ms "lease" "loom:aaaa" [("gen", .int ms), ("parent", parent), ("strand", .str strand), ("thread", .str strand)]

def letterAt (ms : Int) (sender ident : String) : Fact :=
  rowAt ms "letter" ("strand:" ++ sender) [("from", .str sender), ("gen", .int ms), ("id", .str ident), ("to", .str "thread:a")]

def shownAt (ms : Int) (strand ident : String) : Fact :=
  rowAt ms "shown" ("strand:" ++ strand) [("gen", .int ms), ("ids", .arr [.str ident]), ("strand", .str strand)]

/-- A self with no threads, people or logs yet. -/
def bareSelf : SelfRoot :=
  ⟨fun _ => false, fun _ => false, fun _ => "", false⟩

/-- A strand is shown a letter of one that nobody has leased. -/
def strangersLetter : History :=
  ⟨[leaseAt 0 "a" .null, letterAt 1 "x" "l0", shownAt 2 "a" "l0"], false⟩

/-- The stranger is leased in the end; a child of the strand was born before,
and wrote back. -/
def leasedLate : History :=
  ⟨strangersLetter.facts ++ [leaseAt 3 "b" (.str "a"), letterAt 4 "b" "l1", shownAt 5 "a" "l1", leaseAt 6 "x" .null], false⟩

theorem strangersLetter_settled : Settled timedHost strangersLetter := by
  have hOnly : ∀ f ∈ strangersLetter.facts, f.kind = "letter" → f = letterAt 1 "x" "l0" := by decide +kernel
  have hFresh : ∀ late : History, late.Earlier strangersLetter →
      isFresh timedHost late (letterAt 1 "x" "l0") = .ok false := by
    rintro late (rfl | ⟨index, rfl⟩)
    · decide +kernel
    · have hFew : ∀ index < 3, isFresh timedHost (strangersLetter.before index) (letterAt 1 "x" "l0") = .ok false := by
        decide +kernel
      by_cases hShort : index < 3
      · exact hFew index hShort
      · have hWhole : strangersLetter.before index = strangersLetter := by
          rw [History.before, List.take_of_length_le (by simpa [strangersLetter] using hShort)]
          rfl
        rw [hWhole]
        decide +kernel
  refine ⟨fun f hf g hg hKind hKind' _ => (hOnly f hf hKind).trans (hOnly g hg hKind').symm, ?_, ?_⟩
  · intro first letter rest hFacts hKind hKnown
    rw [hOnly letter (by simp [hFacts]) hKind] at hKnown
    exact absurd hKnown (by decide +kernel)
  · intro early late letter hEarly hLate hMem hKind _
    rw [hOnly letter ((hEarly.trans hLate).isPrefix.subset hMem) hKind]
    exact hFresh late hLate

theorem taint_is_reachability_strangers_letter :
    ∃ n, Relation.ReflTransGen (Link timedHost (some bareSelf)) ⟨strangersLetter, "a", by decide⟩ n ∧
      Tainted timedHost (some bareSelf) (logs (some bareSelf) "a" none) n :=
  (((taint_is_reachability rfl (by decide) none).2 ⟨true, selfAudience⟩ (by decide +kernel)).2
    strangersLetter_settled).mp rfl

/-- In the child's past the stranger taints the strand; in the whole history it
does not, and the search from the strand does not go back to it. -/
theorem late_lease_clears :
    strandLabel timedHost (some bareSelf) leasedLate "a" none = .ok clean ∧
      ∃ n, Relation.ReflTransGen (Link timedHost (some bareSelf)) ⟨leasedLate, "a", by decide⟩ n ∧
        Tainted timedHost (some bareSelf) (logs (some bareSelf) "a" none) n := by
  refine ⟨by decide +kernel, ⟨strangersLetter, "a", by decide⟩, ?_, ?_⟩
  · have hSender : Link timedHost (some bareSelf) ⟨leasedLate, "a", by decide⟩ ⟨leasedLate, "b", by decide⟩ :=
      @Link.sender _ _ _ (letterAt 4 "b" "l1")
        ⟨shownAt 5 "a" "l1", by decide +kernel, by decide +kernel, [.str "l1"], by decide +kernel, .str "l1", by decide +kernel,
          by decide +kernel⟩
        ⟨by decide +kernel, by decide +kernel, by decide +kernel⟩ (by decide +kernel) (by decide +kernel)
    exact Relation.ReflTransGen.head hSender (Relation.ReflTransGen.single (Link.birth (by decide +kernel) (by decide)))
  · exact @Tainted.stranger _ _ _ _ (letterAt 1 "x" "l0")
      ⟨shownAt 2 "a" "l0", by decide +kernel, by decide +kernel, [.str "l0"], by decide +kernel, .str "l0", by decide +kernel,
        by decide +kernel⟩
      ⟨by decide +kernel, by decide +kernel, by decide +kernel⟩ (by decide +kernel)

end Brnrd.Labels
