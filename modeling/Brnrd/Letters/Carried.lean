import Brnrd.Letters.Projections

/-! The three projections letter by letter, and what new facts at the tail leave
of a letter's entry in each. -/
namespace Brnrd.Letters

open Python Facts Ledger Project

section Lookups

variable {host : Host} {v w : LedgerView} {more : List Fact}

/-- A fact of one kind under an id is the same where no new fact has both. -/
theorem lookup_kind_eq (hv : v.Indexed host) (hw : w.Indexed host) (hFacts : w.facts = v.facts ++ more)
    (kind ref : String) (hNew : ∀ g ∈ more, g.kind = kind → g.id ≠ ref) :
    (w.byId.lookup ref).filter (fun f => f.kind = kind) = (v.byId.lookup ref).filter fun f => f.kind = kind := by
  ext f
  simp only [Option.filter_eq_some_iff, hv.byId, hw.byId, hFacts, List.mem_append, decide_eq_true_eq]
  constructor
  · rintro ⟨⟨hOld | hMore, hId⟩, hKind⟩
    · exact ⟨⟨hOld, hId⟩, hKind⟩
    · exact absurd hId (hNew f hMore hKind)
  · rintro ⟨⟨hOld, hId⟩, hKind⟩
    exact ⟨⟨.inl hOld, hId⟩, hKind⟩

theorem sourceOf_eq_some (hv : v.Indexed host) {f s : Fact} (h : sourceOf v f = some s) :
    s ∈ v.facts ∧ s.kind = "source" ∧ Dict.get f.data "cites" = .str s.id := by
  obtain ⟨hGet, hKind⟩ := Option.filter_eq_some_iff.mp h
  cases hCites : Dict.get f.data "cites" with
  | str key =>
      rw [hCites] at hGet
      obtain ⟨hMem, rfl⟩ := (hv.byId key s).mp hGet
      exact ⟨hMem, of_decide_eq_true hKind, rfl⟩
  | _ =>
      rw [hCites] at hGet
      cases hGet

theorem sourceOf_eq (hv : v.Indexed host) (hw : w.Indexed host) (hFacts : w.facts = v.facts ++ more) {f : Fact}
    (hNew : ∀ g ∈ more, g.kind = "source" → Dict.get f.data "cites" ≠ .str g.id) : sourceOf w f = sourceOf v f := by
  unfold sourceOf
  cases hCites : Dict.get f.data "cites" with
  | str key =>
      refine lookup_kind_eq hv hw hFacts "source" key fun g hg hKind hId => hNew g hg hKind ?_
      rw [hCites, hId]
  | _ => rfl

/-- The source of a letter that new facts do not touch is the same. -/
theorem sourceOf_untouched (hv : v.Indexed host) (hw : w.Indexed host) (hFacts : w.facts = v.facts ++ more) {f : Fact}
    (kinds : List String) (hSource : "source" ∈ kinds)
    (h : ¬Touched w.facts more f ∨ ∀ g ∈ more, g.kind ∉ kinds) : sourceOf w f = sourceOf v f := by
  refine sourceOf_eq hv hw hFacts fun g hg hKind hCites => ?_
  rcases h with hNot | hNone
  · exact hNot ⟨g, hg, .inr (.inl ⟨hKind, hCites⟩)⟩
  · exact hNone g hg (hKind ▸ hSource)

theorem kindRows_letter (hv : v.Built host) : kindRows v "letter" = v.facts.filter isLetter :=
  hv.indexed.byKind "letter"

end Lookups

section Channels

variable {host : Host} {v w : LedgerView} {more : List Fact}

theorem channels_entrywise (host : Host) : (channelsProjection host).Entrywise host channelEntry
    (fun letter => (Dict.get letter.data "id").toStr host) where
  whole := by
    intro v i hv
    show buildWith _ _ (kindRows v "letter") = _
    rw [kindRows_letter hv]
  part := fun v i p hv => rfl
  letter := by simp [channelsProjection]

theorem channels_steady (hv : v.Indexed host) (hw : w.Indexed host) (hFacts : w.facts = v.facts ++ more) :
    Steady (channelsProjection host) channelEntry v w more := by
  intro f hf hLetter h enabled
  have hSource := sourceOf_untouched hv hw hFacts _ (by simp [channelsProjection]) (h.imp_left And.right)
  unfold channelEntry
  rw [hSource]

end Channels

section Attachments

variable {host : Host} {calls : Calls} {v w : LedgerView} {more : List Fact}

theorem attachments_entrywise (host : Host) (calls : Calls) : (attachmentsProjection host calls).Entrywise host
    (attachmentEntry host calls) Fact.id where
  whole := by
    intro v i hv
    show buildWith _ _ (kindRows v "letter") = _
    rw [kindRows_letter hv]
  part := fun v i p hv => rfl
  letter := by simp [attachmentsProjection]

theorem attachments_steady (hv : v.Indexed host) (hw : w.Indexed host) (hFacts : w.facts = v.facts ++ more) :
    Steady (attachmentsProjection host calls) (attachmentEntry host calls) v w more := by
  intro f hf hLetter h root
  have hSource := sourceOf_untouched hv hw hFacts _ (by simp [attachmentsProjection]) (h.imp_left And.right)
  unfold attachmentEntry
  rw [hSource, if_pos (of_decide_eq_true hLetter)]
  cases hCited : sourceOf v f with
  | none => rfl
  | some source =>
      obtain ⟨hMem, hKind, hCites⟩ := sourceOf_eq_some hv hCited
      have hLines : ∀ ref ∈ source.after, blobLine host calls w root source ref = blobLine host calls v root source ref := by
        intro ref hRef
        have hBlob := lookup_kind_eq hv hw hFacts "blob" ref fun g hg hBlob hId => ?_
        · unfold blobLine
          rw [hBlob]
        · rcases h with ⟨-, hNot⟩ | hNone
          · exact hNot ⟨g, hg, .inr (.inr ⟨hBlob, source, hFacts ▸ List.mem_append_left _ hMem, hKind, hId ▸ hRef,
              hCites⟩)⟩
          · exact hNone g hg (by simp [hBlob, attachmentsProjection])
      simp only
      rw [Fallible.mapM_congr hLines]

end Attachments

section Context

variable {host : Host} {calls : Calls} {v w : LedgerView} {more : List Fact}

/-- The turns before a letter on its channel. -/
def turnsBefore (host : Host) (v : LedgerView) (letter : Fact) : List Fact :=
  if letterChannel host v letter = "" then []
  else ((kindRows v "letter").takeWhile (· ≠ letter)).filter fun f =>
    letterChannel host v f = letterChannel host v letter

/-- The context of one letter of the view. -/
def contextEntry (host : Host) (calls : Calls) (v : LedgerView) (_ : Unit) (letter : Fact) :
    Except Raised (Option String) :=
  if Dict.get letter.data "to" = .str (letterChannel host v letter) then .ok none
  else contextOf host calls v letter (turnsBefore host v letter)

/-- The dict of turns holds, for each channel, the letters read so far on it. -/
def Turns.Holds (host : Host) (v : LedgerView) (done : List Fact) (s : Turns) : Prop :=
  ∀ channel, channel ≠ "" →
    (s.turns.lookup channel).getD [] = done.filter fun f => letterChannel host v f = channel

variable {f letter : Fact} {done todo : List Fact}

theorem takeWhile_ne (hNew : letter ∉ done) : (done ++ letter :: todo).takeWhile (· ≠ letter) = done := by
  have hDone : ∀ f ∈ done, decide (f ≠ letter) = true := fun f hf => decide_eq_true fun hEq => hNew (hEq ▸ hf)
  rw [List.takeWhile_append_of_pos hDone, List.takeWhile_cons_of_neg (by simp), List.append_nil]

variable {s : Turns}

theorem Turns.Holds.put (h : s.Holds host v done) :
    Turns.Holds host v (done ++ [letter]) ⟨s.put (letterChannel host v letter) letter, s.found⟩ := by
  intro channel hChannel
  rw [List.filter_append]
  unfold Turns.put Turns.before
  by_cases hEmpty : letterChannel host v letter = ""
  · have hOther : letterChannel host v letter ≠ channel := hEmpty ▸ Ne.symm hChannel
    rw [if_pos hEmpty, h channel hChannel, List.filter_cons_of_neg (by simpa using hOther), List.filter_nil,
      List.append_nil]
  · rw [if_neg hEmpty, if_neg hEmpty, lookup_cons_if]
    by_cases hSame : channel = letterChannel host v letter
    · simp [hSame, h _ hEmpty]
    · simp [hSame, Ne.symm hSame, h _ hChannel]

theorem Turns.Holds.before (h : s.Holds host v done) (hRows : kindRows v "letter" = done ++ letter :: todo)
    (hNew : letter ∉ done) :
    (s.before (letterChannel host v letter) letter).dropLast = turnsBefore host v letter := by
  unfold Turns.before turnsBefore
  split
  · rfl
  · next hSome => rw [List.dropLast_concat, h _ hSome, hRows, takeWhile_ne hNew]

/-- One turn of the loop: the letter joins its channel's turns, and enters the
dict if it is picked and has a context. -/
theorem Turns.Holds.read (h : s.Holds host v done) (hRows : kindRows v "letter" = done ++ letter :: todo)
    (hNew : letter ∉ done) (picked : Option (List String)) :
    Turns.read host calls v picked s letter =
      (if passedOver picked letter then .ok none else contextEntry host calls v () letter).map fun line =>
        ⟨s.put (letterChannel host v letter) letter, line.elim s.found fun line => (letter.id, line) :: s.found⟩ := by
  unfold Turns.read contextEntry
  simp only [h.before hRows hNew]
  cases passedOver picked letter with
  | true => rfl
  | false =>
      by_cases hTo : Dict.get letter.data "to" = .str (letterChannel host v letter)
      · simp only [hTo]
        rfl
      · simp only [hTo, decide_false, Bool.or_false, Bool.false_eq_true, if_false]
        cases contextOf host calls v letter (turnsBefore host v letter) with
        | error e => rfl
        | ok line => cases line <;> rfl

/-- The loop over the rest of the letters makes the entries of those picked. -/
theorem Turns.Holds.loop (h : s.Holds host v done) (hRows : kindRows v "letter" = done ++ todo)
    (hNodup : (kindRows v "letter").Nodup) (picked : Option (List String)) :
    (todo.foldlM (Turns.read host calls v picked) s).map Turns.found =
      (todo.filter fun f => !passedOver picked f).foldlM
        (enter (contextEntry host calls v ()) Fact.id) s.found := by
  induction todo generalizing done s with
  | nil => rfl
  | cons letter todo ih =>
      have hNew : letter ∉ done := by
        rw [hRows, List.nodup_append] at hNodup
        exact fun hIn => hNodup.2.2 letter hIn letter List.mem_cons_self rfl
      have hNext : kindRows v "letter" = (done ++ [letter]) ++ todo := by simpa using hRows
      rw [List.foldlM_cons, h.read hRows hNew]
      cases hPicked : passedOver picked letter with
      | true =>
          rw [List.filter_cons_of_neg (by simp [hPicked])]
          exact ih h.put hNext
      | false =>
          rw [List.filter_cons_of_pos (by simp [hPicked]), List.foldlM_cons]
          have hPut : ∀ found, Turns.Holds host v (done ++ [letter])
              ⟨s.put (letterChannel host v letter) letter, found⟩ := fun found => h.put
          unfold enter
          cases hEntry : contextEntry host calls v () letter with
          | error e => rfl
          | ok line =>
              cases line with
              | none => exact ih (hPut s.found) hNext
              | some line => exact ih (hPut ((letter.id, line) :: s.found)) hNext

/-- The loop over all the letters. -/
theorem letterReplies_eq (hv : v.Built host) (selected : Option (List Fact)) :
    letterReplies host calls v selected = buildWith (contextEntry host calls v ()) Fact.id
      ((v.facts.filter isLetter).filter fun f => !passedOver (selected.map (List.map Fact.id)) f) := by
  have hRows := kindRows_letter hv
  have hStart : Turns.start.Holds host v [] := fun _ _ => rfl
  have hNodup : (kindRows v "letter").Nodup := hRows ▸ hv.indexed.ids.of_map.filter _
  rw [letterReplies, hRows]
  exact hStart.loop hRows hNodup _

theorem context_entrywise (host : Host) (calls : Calls) : (contextProjection host calls).Entrywise host
    (contextEntry host calls) Fact.id where
  whole := by
    intro v i hv
    refine (letterReplies_eq hv none).trans ?_
    have hAll : (v.facts.filter isLetter).filter (fun f => !passedOver none f) = v.facts.filter isLetter :=
      List.filter_eq_self.mpr fun f _ => rfl
    exact congrArg _ hAll
  part := by
    intro v i p hv
    refine (letterReplies_eq hv _).trans (congrArg _ ?_)
    rw [List.filter_filter]
    refine List.filter_congr fun f hf => ?_
    cases hLetter : isLetter f with
    | false => simp
    | true =>
        -- The ids of the selected letters are no other letter's.
        have hPicked : f.id ∈ (v.facts.filter fun g => isLetter g && p g).map Fact.id ↔ p f = true := by
          rw [List.mem_map]
          constructor
          · rintro ⟨g, hg, hId⟩
            obtain ⟨hMem, hBoth⟩ := List.mem_filter.mp hg
            rw [← eq_of_id hv.indexed.ids hMem hf hId]
            exact (Bool.and_eq_true_iff.mp hBoth).2
          · exact fun hp => ⟨f, List.mem_filter.mpr ⟨hf, by rw [hLetter, hp]; rfl⟩, rfl⟩
        cases hp : p f <;> simp_all [passedOver]
  letter := by simp [contextProjection]

/-- The turns that a letter's context quotes. -/
def quotedTurns (host : Host) (calls : Calls) (v : LedgerView) (letter : Fact) : List Fact :=
  if Dict.get letter.data "to" = .str (letterChannel host v letter) then []
  else turnsAgainst host calls v letter (turnsBefore host v letter)

/-- No new source is one that a letter of the view cites. -/
def NoLateSource (v : LedgerView) (more : List Fact) : Prop :=
  ∀ f ∈ v.facts, isLetter f → ∀ g ∈ more, g.kind = "source" → Dict.get f.data "cites" ≠ .str g.id

/-- Over more facts, each turn that a letter of the view quotes has the sender it had. -/
def SameSenders (host : Host) (calls : Calls) (v : LedgerView) (more : List Fact) : Prop :=
  ∀ f ∈ v.facts, isLetter f → quotedTurns host calls v f ≠ [] →
    (senderThreads host (v.facts ++ more)).map (fun threads => (quotedTurns host calls v f).map (turnSender host threads)) =
      (senderThreads host v.facts).map fun threads => (quotedTurns host calls v f).map (turnSender host threads)

theorem letterChannel_eq (hv : v.Indexed host) (hw : w.Indexed host) (hFacts : w.facts = v.facts ++ more)
    (hSources : NoLateSource v more) (hf : f ∈ v.facts) (hLetter : isLetter f) :
    letterChannel host w f = letterChannel host v f := by
  unfold letterChannel
  rw [sourceOf_eq hv hw hFacts (hSources f hf hLetter)]

theorem turnsBefore_eq (hv : v.Built host) (hw : w.Built host) (hFacts : w.facts = v.facts ++ more)
    (hSources : NoLateSource v more) (hf : f ∈ v.facts) (hLetter : isLetter f) :
    turnsBefore host w f = turnsBefore host v f := by
  have hChannel := fun g hg hLetter => letterChannel_eq hv.indexed hw.indexed hFacts hSources (f := g) hg hLetter
  unfold turnsBefore
  rw [hChannel f hf hLetter, kindRows_letter hv, kindRows_letter hw, hFacts, List.filter_append]
  have hIn : f ∈ v.facts.filter isLetter := List.mem_filter.mpr ⟨hf, hLetter⟩
  have hTake : (v.facts.filter isLetter ++ more.filter isLetter).takeWhile (· ≠ f) =
      (v.facts.filter isLetter).takeWhile (· ≠ f) := by
    obtain ⟨first, rest, hSplit, hNew⟩ := List.eq_append_cons_of_mem hIn
    rw [hSplit, List.append_assoc, List.cons_append, takeWhile_ne hNew, takeWhile_ne hNew]
  rw [hTake]
  split
  · rfl
  · refine List.filter_congr fun g hg => ?_
    obtain ⟨hMem, hIs⟩ := List.mem_filter.mp ((List.takeWhile_sublist _).subset hg)
    rw [hChannel g hMem hIs]

theorem canonical_name (hLettered : w.Lettered host) (hNamed : w.noncanonicalLetters = false) {g : Fact}
    (hg : g ∈ w.facts) (hLetter : isLetter g) : nameOf host g = g.id := by
  rw [hLettered.noncanonical, List.any_eq_false] at hNamed
  simpa [hLetter] using hNamed g hg

/-- The letter that a reply names is the same where no new fact touches the reply. -/
theorem named_untouched (hv : v.Lettered host) (hw : w.Lettered host) (hFacts : w.facts = v.facts ++ more)
    {kinds : List String} (hLetters : "letter" ∈ kinds)
    (h : w.noncanonicalLetters = false ∧ ¬Touched w.facts more f ∨ ∀ g ∈ more, g.kind ∉ kinds) :
    getFact w.namedLetters (Dict.get f.data "re") = getFact v.namedLetters (Dict.get f.data "re") := by
  cases hRe : Dict.get f.data "re" with
  | str name =>
      have hNone : more.filter (fun g => isLetter g && nameOf host g = name) = [] := by
        rw [List.filter_eq_nil_iff]
        intro g hg hBoth
        obtain ⟨hLetter, hName⟩ := Bool.and_eq_true_iff.mp hBoth
        have hKind : g.kind = "letter" := of_decide_eq_true hLetter
        rcases h with ⟨hNamed, hNot⟩ | hOther
        · have hId := canonical_name hw hNamed (hFacts ▸ List.mem_append_right _ hg) hLetter
          exact hNot ⟨g, hg, .inl ⟨hKind, .inr (by rw [hRe, ← of_decide_eq_true hName, hId])⟩⟩
        · exact hOther g hg (hKind ▸ hLetters)
      show w.namedLetters.lookup name = v.namedLetters.lookup name
      rw [hw.named, hv.named, hFacts, List.filter_append, hNone, List.append_nil]
  | _ => rfl

theorem turnLine_eq {threads threads' : Value → Option String} {turn : Fact}
    (h : turnSender host threads turn = turnSender host threads' turn) :
    turnLine host calls threads letter turn = turnLine host calls threads' letter turn := by
  unfold turnLine
  rw [h]

/-- Quoted turns that have the senders they had are quoted as they were. -/
theorem quote_eq (calls : Calls) (letter : Fact) {x y : Except Raised (Value → Option String)} {turns : List Fact}
    (h : x.map (fun threads => turns.map (turnSender host threads)) =
      y.map fun threads => turns.map (turnSender host threads)) :
    x.map (fun threads => turns.map (turnLine host calls threads letter)) =
      y.map fun threads => turns.map (turnLine host calls threads letter) := by
  match x, y with
  | .error e, .error e' => exact congrArg Except.error (Except.error.inj h)
  | .ok threads, .ok threads' =>
      refine congrArg Except.ok (List.map_congr_left fun turn hTurn => turnLine_eq ?_)
      exact List.map_inj_left.mp (Except.ok.inj h) turn hTurn
  | .error e, .ok threads => cases h
  | .ok threads, .error e => cases h

/-- A context is the same where its source, the turns it quotes with their
senders, and the letter it replies to are. -/
theorem contextOf_eq {before : List Fact} (hSource : sourceOf w f = sourceOf v f)
    (hNamed : getFact w.namedLetters (Dict.get f.data "re") = getFact v.namedLetters (Dict.get f.data "re"))
    (hSenders : turnsAgainst host calls v f before ≠ [] → (senderThreads host w.facts).map (fun threads => (turnsAgainst host calls v f before).map (turnSender host threads)) = (senderThreads host v.facts).map fun threads => (turnsAgainst host calls v f before).map (turnSender host threads)) :
    contextOf host calls w f before = contextOf host calls v f before := by
  have hNative : nativeReply w f = nativeReply v f := by rw [nativeReply, nativeReply, hSource]
  have hAgainst : turnsAgainst host calls w f before = turnsAgainst host calls v f before := by
    rw [turnsAgainst, turnsAgainst, hNative]
  unfold contextOf
  simp only [hNative, hAgainst, hNamed]
  split
  · split
    · rfl
    · next turn turns hTurns =>
        have hQuote := quote_eq calls f (hSenders (by simp [hTurns]))
        rw [hTurns] at hQuote
        have hLines : ∀ x : Except Raised (Value → Option String), (do
            let threads ← x
            Except.ok (some ("\n".intercalate ("not a reply; the conversation before it on this channel:" ::
              (turn :: turns).map (turnLine host calls threads f))))) =
            (x.map fun threads => (turn :: turns).map (turnLine host calls threads f)).map fun lines =>
              some ("\n".intercalate ("not a reply; the conversation before it on this channel:" :: lines)) := by
          intro x
          cases x <;> rfl
        rw [hLines, hLines, hQuote]
  · rfl

/-- The context of a letter that new facts do not touch is the same, where none
of them is a source that came late or changes the sender of a turn it quotes. -/
theorem context_steady (hv : v.Built host) (hw : w.Built host) (hvLettered : v.Lettered host)
    (hwLettered : w.Lettered host) (hFacts : w.facts = v.facts ++ more) (hSources : NoLateSource v more)
    (hSenders : SameSenders host calls v more) :
    Steady (contextProjection host calls) (contextEntry host calls) v w more := by
  intro f hf hLetter h i
  have hSource := sourceOf_eq hv.indexed hw.indexed hFacts (hSources f hf hLetter)
  have hNamed := named_untouched hvLettered hwLettered hFacts (by simp [contextProjection]) h
  have hQuoted := hSenders f hf hLetter
  unfold contextEntry
  rw [letterChannel_eq hv.indexed hw.indexed hFacts hSources hf hLetter, turnsBefore_eq hv hw hFacts hSources hf hLetter]
  unfold quotedTurns at hQuoted
  split
  · rfl
  · next hTo =>
      rw [if_neg hTo, ← hFacts] at hQuoted
      exact contextOf_eq hSource hNamed hQuoted

end Context

end Brnrd.Letters
