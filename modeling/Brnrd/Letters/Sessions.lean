import Brnrd.Letters.Carried

/-! A view with its three carried projections, over every run of extensions and
readings, against what is built whole over the same facts. -/
namespace Brnrd.Letters

open Python Facts Ledger Project

/-- A view with what it keeps for `reply-channels`, `attachments` and `reply-context`. -/
structure Session where
  view : LedgerView
  channels : Carry (Option (Finset String)) String
  attachments : Carry String (List String)
  context : Carry Unit String

/-- `LedgerView()`. -/
def Session.start : Session :=
  ⟨LedgerView.empty, .start, .start, .start⟩

/-- `view.extend(facts)`: a replayed view keeps nothing. -/
def Session.extend (host : Host) (s : Session) (facts : List Fact) : Except ViewError Session := do
  let (u, delta, repair) ← s.view.incoming host facts
  let v ← u.apply host delta repair
  .ok (if repair ∧ delta ≠ [] then ⟨v, .start, .start, .start⟩ else { s with view := v })

/-- `reply_channels(view, home)`, with the names of the home's enabled instances. -/
def Session.replyChannels (host : Host) (s : Session) (enabled : Option (Finset String)) :
    Session × Except Raised (List (String × String)) :=
  let (channels, found) := projectLetters (channelsProjection host) s.view enabled s.channels
  ({ s with channels := channels }, found)

/-- `letter_attachments(root, view)`. -/
def Session.letterAttachments (host : Host) (calls : Calls) (s : Session) (root : String) :
    Session × Except Raised (List (String × List String)) :=
  let (attachments, found) := projectLetters (attachmentsProjection host calls) s.view root s.attachments
  ({ s with attachments := attachments }, found)

/-- `letter_replies(view)`. -/
def Session.letterReplies (host : Host) (calls : Calls) (s : Session) : Session × Except Raised (List (String × String)) :=
  let (context, found) := projectLetters (contextProjection host calls) s.view () s.context
  ({ s with context := context }, found)

/-- The sessions that runs reach whose extensions all meet `Meets`. -/
inductive Reach (host : Host) (calls : Calls) (Meets : Session → List Fact → Prop) : Session → Prop where
  | start : Reach host calls Meets .start
  | extend {s s' : Session} {facts : List Fact} (prior : Reach host calls Meets s) (hMeets : Meets s facts)
      (hExtend : s.extend host facts = .ok s') : Reach host calls Meets s'
  | replyChannels {s : Session} (prior : Reach host calls Meets s) (enabled : Option (Finset String)) :
      Reach host calls Meets (s.replyChannels host enabled).1
  | letterAttachments {s : Session} (prior : Reach host calls Meets s) (root : String) :
      Reach host calls Meets (s.letterAttachments host calls root).1
  | letterReplies {s : Session} (prior : Reach host calls Meets s) : Reach host calls Meets (s.letterReplies host calls).1

/-- Letters that give their own id, and name the source they cite in `after`. -/
structure WellNamed (facts : List Fact) : Prop where
  ids : ∀ f ∈ facts, isLetter f → (Dict.get f.data "id").truthy
  after : ∀ f ∈ facts, isLetter f → ∀ g ∈ facts, g.kind = "source" → Dict.get f.data "cites" = .str g.id → g.id ∈ f.after

/-- An extension to a ledger of letters that are well named. -/
def Named (host : Host) (s : Session) (facts : List Fact) : Prop :=
  ∀ s', s.extend host facts = .ok s' → WellNamed s'.view.facts

/-- An extension whose facts, where they go to the view's tail, leave the
senders of the turns that its letters quote as they were. -/
def Unmoved (host : Host) (calls : Calls) (s : Session) (facts : List Fact) : Prop :=
  ∀ u delta, s.view.incoming host facts = .ok (u, delta, false) →
    SameSenders host calls s.view (tailOf s.view delta)

section Extend

variable {host : Host} {calls : Calls} {s s' : Session} {facts : List Fact}

/-- What an extension makes of a session: everything anew, or a longer list. -/
theorem Session.extend_cases (hBuilt : s.view.Built host) (hLettered : s.view.Lettered host)
    (hExtend : s.extend host facts = .ok s') : s'.view.Built host ∧ s'.view.Lettered host ∧
      (s' = ⟨s'.view, .start, .start, .start⟩ ∨ ∃ more, s'.view.facts = s.view.facts ++ more ∧
        s' = { s with view := s'.view } ∧
        (more = [] ∨ ∃ u delta, s.view.incoming host facts = .ok (u, delta, false) ∧ more = tailOf s.view delta)) := by
  obtain ⟨⟨u, delta, repair⟩, hIncoming, hRest⟩ := Fallible.peel hExtend
  obtain ⟨v, hApply, hEq⟩ := Fallible.peel hRest
  obtain rfl := Except.ok.inj hEq
  obtain ⟨hGrown, hTail⟩ := hBuilt.apply hIncoming hApply
  have hNewLettered := (Lettered.grows host).apply ((Lettered.grows host).incoming hLettered hIncoming) hApply
  by_cases hReplay : repair = true ∧ delta ≠ []
  · rw [if_pos hReplay]
    exact ⟨hGrown, hNewLettered, .inl rfl⟩
  · rw [if_neg hReplay]
    refine ⟨hGrown, hNewLettered, .inr ⟨tailOf s.view delta, hTail hReplay, rfl, ?_⟩⟩
    cases repair with
    | false => exact .inr ⟨u, delta, hIncoming, rfl⟩
    | true =>
        have hNil : delta = [] := not_not.mp fun hSome => hReplay ⟨rfl, hSome⟩
        exact .inl (hNil ▸ List.sublist_nil.mp (tailOf_sublist s.view []))

/-- A source that a letter of the view names goes to no tail. -/
theorem noLateSource (hBuilt : s.view.Built host) {u : LedgerView} {delta more : List Fact}
    (hIncoming : s.view.incoming host facts = .ok (u, delta, false)) (hMore : more = tailOf s.view delta)
    (hNamed : WellNamed (s.view.facts ++ more)) : NoLateSource s.view more := by
  intro f hf hLetter g hg hSource hCites
  have hAfter := hNamed.after f (List.mem_append_left _ hf) hLetter g (List.mem_append_right _ hg) hSource hCites
  have hDelta : g ∈ delta := (tailOf_sublist s.view delta).subset (hMore ▸ hg)
  obtain ⟨hNew, hMissing⟩ := (hBuilt.indexed.came hIncoming).fresh rfl g hDelta
  exact hMissing ((hBuilt.indexed.missing g.id).mpr ⟨⟨f, hf, hAfter⟩, hNew⟩)

theorem canonical_append {v w : LedgerView} {more : List Fact} (hv : v.Lettered host) (hw : w.Lettered host)
    (hFacts : w.facts = v.facts ++ more) (h : w.noncanonicalLetters = false) : v.noncanonicalLetters = false := by
  rw [hw.noncanonical, hFacts, List.any_append, Bool.or_eq_false_iff] at h
  rw [hv.noncanonical]
  exact h.1

end Extend

variable {s : Session} {Meets : Session → List Fact → Prop} {calls : Calls} {host : Host}

/-- A view's facts, and its letters' indexes, are in order after every run. -/
theorem Reach.view (h : Reach host calls Meets s) : s.view.Built host ∧ s.view.Lettered host := by
  induction h with
  | start => exact ⟨.empty host, (Lettered.grows host).empty⟩
  | extend _ _ hExtend ih =>
      obtain ⟨hBuilt, hLettered, -⟩ := Session.extend_cases ih.1 ih.2 hExtend
      exact ⟨hBuilt, hLettered⟩
  | replyChannels _ _ ih => exact ih
  | letterAttachments _ _ ih => exact ih
  | letterReplies _ ih => exact ih

theorem Reach.mono {Meets' : Session → List Fact → Prop} (hMeets : ∀ s facts, Meets s facts → Meets' s facts)
    (h : Reach host calls Meets s) : Reach host calls Meets' s := by
  induction h with
  | start => exact .start
  | extend _ hStep hExtend ih => exact ih.extend (hMeets _ _ hStep) hExtend
  | replyChannels _ enabled ih => exact ih.replyChannels enabled
  | letterAttachments _ root ih => exact ih.letterAttachments root
  | letterReplies _ ih => exact ih.letterReplies

/-- The letters are well named, and what is carried of the channels and the
attachments is sound. -/
structure Session.Sound (host : Host) (calls : Calls) (s : Session) : Prop where
  named : WellNamed s.view.facts
  channels : s.channels.Sound (channelsProjection host) channelEntry s.view
  attachments : s.attachments.Sound (attachmentsProjection host calls) (attachmentEntry host calls) s.view

/-- Canonical letters are keyed by their ids in the channels' dict. -/
theorem channelKeys {v : LedgerView} (hLettered : v.Lettered host) (hNamed : WellNamed v.facts)
    (hCanonical : v.noncanonicalLetters = false) :
    ∀ f ∈ v.facts, isLetter f → (Dict.get f.data "id").toStr host = f.id := by
  intro f hf hLetter
  have hName := canonical_name hLettered hCanonical hf hLetter
  rwa [nameOf, Value.orElse, if_pos (hNamed.ids f hf hLetter)] at hName

theorem Reach.sound (h : Reach host calls (Named host) s) : s.Sound host calls := by
  induction h with
  | start => exact ⟨⟨nofun, nofun⟩, .start, .start⟩
  | extend prior hMeets hExtend ih =>
      obtain ⟨hBuilt, hLettered⟩ := prior.view
      obtain ⟨hBuilt', hLettered', hAnew | ⟨more, hFacts, hKept, hMore⟩⟩ :=
        Session.extend_cases hBuilt hLettered hExtend
      · have hNamed := hMeets _ hExtend
        rw [hAnew]
        exact ⟨hNamed, .start, .start⟩
      · have hCanonical := canonical_append hLettered hLettered' hFacts
        have hNamed := hMeets _ hExtend
        rw [hKept] at hFacts hBuilt' hLettered' hCanonical hNamed ⊢
        exact ⟨hNamed,
          ih.channels.extend (channels_entrywise host) hBuilt hBuilt' hFacts
            (channels_steady hBuilt.indexed hBuilt'.indexed hFacts) hCanonical,
          ih.attachments.extend (attachments_entrywise host calls) hBuilt hBuilt' hFacts
            (attachments_steady hBuilt.indexed hBuilt'.indexed hFacts) hCanonical⟩
  | replyChannels prior enabled ih =>
      obtain ⟨hBuilt, hLettered⟩ := prior.view
      exact ⟨ih.named, (ih.channels.read (channels_entrywise host) hBuilt hLettered
        (channelKeys hLettered ih.named) enabled).2, ih.attachments⟩
  | letterAttachments prior root ih =>
      obtain ⟨hBuilt, hLettered⟩ := prior.view
      exact ⟨ih.named, ih.channels, (ih.attachments.read (attachments_entrywise host calls) hBuilt hLettered
        (fun _ _ _ _ => rfl) root).2⟩
  | letterReplies prior ih => exact ⟨ih.named, ih.channels, ih.attachments⟩

/-- Where no extension moves the sender of a quoted turn, what is carried of the
context is sound as well. -/
theorem Reach.context (h : Reach host calls (fun s facts => Named host s facts ∧ Unmoved host calls s facts) s) :
    s.context.Sound (contextProjection host calls) (contextEntry host calls) s.view := by
  induction h with
  | start => exact .start
  | @extend s s' facts prior hMeets hExtend ih =>
      obtain ⟨hBuilt, hLettered⟩ := prior.view
      obtain ⟨hBuilt', hLettered', hAnew | ⟨more, hFacts, hKept, hMore⟩⟩ :=
        Session.extend_cases hBuilt hLettered hExtend
      · rw [hAnew]
        exact .start
      · have hCanonical := canonical_append hLettered hLettered' hFacts
        have hNamed := hFacts ▸ hMeets.1 _ hExtend
        have hSteady : NoLateSource s.view more ∧ SameSenders host calls s.view more := by
          rcases hMore with rfl | ⟨u, delta, hIncoming, hTail⟩
          · exact ⟨fun _ _ _ g hg => absurd hg List.not_mem_nil, fun f _ _ _ => by rw [List.append_nil]⟩
          · exact ⟨noLateSource hBuilt hIncoming hTail hNamed, hTail ▸ hMeets.2 u delta hIncoming⟩
        rw [hKept] at hFacts hBuilt' hLettered' hCanonical ⊢
        exact ih.extend (context_entrywise host calls) hBuilt hBuilt' hFacts
          (context_steady hBuilt hBuilt' hLettered hLettered' hFacts hSteady.1 hSteady.2) hCanonical
  | replyChannels _ _ ih => exact ih
  | letterAttachments _ _ ih => exact ih
  | letterReplies prior ih =>
      obtain ⟨hBuilt, hLettered⟩ := prior.view
      exact (ih.read (context_entrywise host calls) hBuilt hLettered (fun _ _ _ _ => rfl) ()).2

/-- What is carried, where it is the whole build over the view, is the build over
any view of the same facts. -/
theorem same_rebuilt {ι ν : Type} [DecidableEq ι] {P : Projection ι ν}
    {entry : LedgerView → ι → Fact → Except Raised (Option ν)} {key : Fact → String} {v w : LedgerView} {i : ι}
    {carried : Except Raised (List (String × ν))} (hP : P.Entrywise host entry key) (hv : v.Built host) (hw : w.Built host)
    (hFacts : w.facts = v.facts ++ []) (hSteady : Steady P entry v w []) (hSame : Same carried (P.build v i none)) :
    Same carried (P.build w i none) := by
  rwa [hP.build_eq hv hw hFacts hSteady (fun g hg => absurd hg List.not_mem_nil) i]

/-- Over a ledger whose letters are well named, the reply channels and the
attachments that a session carries are what any session that holds the same
facts builds whole. So is the reply context, in a run whose extensions leave the
senders of quoted turns as they were. -/
theorem carried_eq_rebuilt (host : Host) (calls : Calls) :
    (∀ s t, Reach host calls (Named host) s → Reach host calls (fun _ _ => True) t → t.view.facts = s.view.facts →
      (∀ enabled, Same (s.replyChannels host enabled).2 (replyChannels host t.view enabled none)) ∧
      ∀ root, Same (s.letterAttachments host calls root).2 (letterAttachments host calls t.view root none)) ∧
    ∀ s t, Reach host calls (fun s facts => Named host s facts ∧ Unmoved host calls s facts) s →
      Reach host calls (fun _ _ => True) t → t.view.facts = s.view.facts →
      Same (s.letterReplies host calls).2 (letterReplies host calls t.view none) := by
  constructor
  · intro s t hs ht hFacts
    obtain ⟨hBuilt, hLettered⟩ := hs.view
    have hSound := hs.sound
    have hSame : t.view.facts = s.view.facts ++ [] := by rw [hFacts, List.append_nil]
    constructor
    · intro enabled
      have hRead := hSound.channels.read (channels_entrywise host) hBuilt hLettered
        (channelKeys hLettered hSound.named) enabled
      exact same_rebuilt (channels_entrywise host) hBuilt ht.view.1 hSame
        (channels_steady hBuilt.indexed ht.view.1.indexed hSame) hRead.1
    · intro root
      have hRead := hSound.attachments.read (attachments_entrywise host calls) hBuilt hLettered
        (fun _ _ _ _ => rfl) root
      exact same_rebuilt (attachments_entrywise host calls) hBuilt ht.view.1 hSame
        (attachments_steady hBuilt.indexed ht.view.1.indexed hSame) hRead.1
  · intro s t hs ht hFacts
    obtain ⟨hBuilt, hLettered⟩ := hs.view
    have hSame : t.view.facts = s.view.facts ++ [] := by rw [hFacts, List.append_nil]
    have hRead := hs.context.read (context_entrywise host calls) hBuilt hLettered (fun _ _ _ _ => rfl) ()
    have hSteady : Steady (contextProjection host calls) (contextEntry host calls) s.view t.view [] :=
      context_steady hBuilt ht.view.1 hLettered ht.view.2 hSame (fun _ _ _ g hg => absurd hg List.not_mem_nil)
        (fun f _ _ _ => by rw [List.append_nil])
    exact same_rebuilt (context_entrywise host calls) hBuilt ht.view.1 hSame hSteady hRead.1

theorem Same.lookup {ν : Type} {x y : Except Raised (List (String × ν))} (h : Same x y) (key : String) :
    x.map (fun found => found.lookup key) = y.map fun found => found.lookup key := by
  match x, y with
  | .ok a, .ok b => exact congrArg Except.ok (h key)
  | .error e, .error e' => exact congrArg Except.error h
  | .ok a, .error e => exact h.elim
  | .error e, .ok b => exact h.elim

instance (facts : List Fact) : Decidable (WellNamed facts) :=
  decidable_of_iff ((∀ f ∈ facts, isLetter f → (Dict.get f.data "id").truthy) ∧ ∀ f ∈ facts, isLetter f → ∀ g ∈ facts,
    g.kind = "source" → Dict.get f.data "cites" = .str g.id → g.id ∈ f.after) ⟨fun h => ⟨h.1, h.2⟩, fun h => ⟨h.ids, h.after⟩⟩

instance (host : Host) (calls : Calls) (v : LedgerView) (more : List Fact) : Decidable (SameSenders host calls v more) :=
  inferInstanceAs (Decidable (∀ f ∈ v.facts, isLetter f → quotedTurns host calls v f ≠ [] → _ = _))

/-- A strand's lease on a thread. -/
def leaseOn (ident thread : String) (gen ms : Int) : Fact :=
  ⟨"lease", "loom:aaaa", [("gen", .int gen), ("strand", .str "s-1"), ("thread", .str thread)], "", ident, version,
    some ⟨ms, 0, "aaaa"⟩, []⟩

/-- What the strand said in a chat, and what a person then wrote there. -/
def chatTurn : Fact :=
  ⟨"letter", "strand:s-1", [("body", .str "done"), ("from", .str "s-1"), ("id", .str "o-1"), ("to", .str "channel:tg")],
    "", "o-1", version, some ⟨2, 0, "aaaa"⟩, []⟩

def chatSource (ident : String) (ms : Int) : Fact :=
  ⟨"source", "connector:tg", [("channel", .str "channel:tg")], "", ident, version, some ⟨ms, 0, "aaaa"⟩, []⟩

def chatLetter (ident source : String) (ms : Int) : Fact :=
  ⟨"letter", "person:p-a", [("body", .str "and now?"), ("cites", .str source), ("from", .str "p-a"), ("id", .str ident),
    ("to", .str "thread:t-a")], "", ident, version, some ⟨ms, 0, "aaaa"⟩, [source]⟩

def noCalls : Calls where
  blobPath := fun root sha => root ++ "/blobs/" ++ sha
  between := fun _ _ => none

/-- The session after the batches, its context read after each. -/
def sessionAfter (batches : List (List Fact)) : Except ViewError Session :=
  batches.foldlM (fun s batch => (s.extend timedHost batch).map fun s => (s.letterReplies timedHost noCalls).1) .start

/-- Whether a batch leaves the letters well named, and the quoted senders as they were. -/
def stepMeets (first : List (List Fact)) (batch : List Fact) : Except ViewError (Bool × Bool) := do
  let s ← sessionAfter first
  let (_, delta, _) ← s.view.incoming timedHost batch
  let s' ← s.extend timedHost batch
  .ok (WellNamed s'.view.facts, SameSenders timedHost noCalls s.view (tailOf s.view delta))

theorem meets_of_step {first : List (List Fact)} {batch : List Fact} {same : Bool} {t : Session}
    (h : stepMeets first batch = .ok (true, same)) (hFirst : sessionAfter first = .ok t) :
    Named timedHost t batch ∧ (same = true → Unmoved timedHost noCalls t batch) := by
  obtain ⟨t', hFirst', hRest⟩ := Fallible.peel h
  obtain rfl := Fallible.same hFirst hFirst'
  obtain ⟨came, hCame, hRest⟩ := Fallible.peel hRest
  obtain ⟨s', hExtend, hEq⟩ := Fallible.peel hRest
  obtain ⟨hNamed, hSame⟩ := Fallible.pair hEq
  refine ⟨fun s hs => ?_, fun hTrue u delta hIncoming => ?_⟩
  · obtain rfl := Fallible.same hExtend hs
    exact of_decide_eq_true hNamed
  · obtain rfl := Fallible.same hIncoming hCame
    exact of_decide_eq_true (hSame.trans hTrue)

theorem Reach.after {batches : List (List Fact)} (hAfter : sessionAfter batches = .ok s)
    (hMeets : ∀ first batch rest, batches = first ++ batch :: rest → ∀ t, sessionAfter first = .ok t → Meets t batch) :
    Reach timedHost noCalls Meets s := by
  induction batches using List.reverseRecOn generalizing s with
  | nil =>
      obtain rfl : Session.start = s := Except.ok.inj hAfter
      exact .start
  | append_singleton batches batch ih =>
      obtain ⟨t, hPrior, hLast⟩ := Fallible.foldlM_snoc.mp hAfter
      obtain ⟨t', hExtend, rfl⟩ := Fallible.map_eq_ok.mp hLast
      have hReach := ih hPrior fun first b rest hSplit => hMeets first b (rest ++ [batch]) (by simp [hSplit])
      exact .letterReplies (hReach.extend (hMeets batches batch [] rfl t hPrior) hExtend)

/-- A chat in which a strand of the thread `t-a` has said something. -/
def opening : List Fact :=
  [leaseOn "l-1" "t-a" 1 1, chatTurn, chatSource "c-1" 3, chatLetter "in-1" "c-1" 4]

def later : List Fact :=
  [chatSource "c-2" 5, chatLetter "in-2" "c-2" 6]

theorem carried_eq_rebuilt_later : ∃ s t, sessionAfter [opening, later] = .ok s ∧
    sessionAfter [opening ++ later] = .ok t ∧
    (∀ enabled, Same (s.replyChannels timedHost enabled).2 (replyChannels timedHost t.view enabled none)) ∧
    (∀ root, Same (s.letterAttachments timedHost noCalls root).2 (letterAttachments timedHost noCalls t.view root none)) ∧
    Same (s.letterReplies timedHost noCalls).2 (letterReplies timedHost noCalls t.view none) := by
  have hCarried : (sessionAfter [opening, later]).map (fun s => s.view.facts) = .ok (opening ++ later) := by
    decide +kernel
  have hAtOnce : (sessionAfter [opening ++ later]).map (fun s => s.view.facts) = .ok (opening ++ later) := by
    decide +kernel
  obtain ⟨s, hs, hsFacts⟩ := Fallible.map_eq_ok.mp hCarried
  obtain ⟨t, ht, htFacts⟩ := Fallible.map_eq_ok.mp hAtOnce
  have hOpening : stepMeets [] opening = .ok (true, true) := by decide +kernel
  have hLater : stepMeets [opening] later = .ok (true, true) := by decide +kernel
  have hReach : Reach timedHost noCalls (fun s facts => Named timedHost s facts ∧ Unmoved timedHost noCalls s facts) s := by
    refine .after hs fun first batch rest hSplit t hFirst => ?_
    obtain ⟨rfl, rfl⟩ | ⟨rfl, rfl⟩ := split_pair hSplit
    · exact (meets_of_step hOpening hFirst).imp_right fun h => h rfl
    · exact (meets_of_step hLater hFirst).imp_right fun h => h rfl
  have hAny : Reach timedHost noCalls (fun _ _ => True) t := .after ht fun _ _ _ _ _ _ => trivial
  have hFacts : t.view.facts = s.view.facts := htFacts.trans hsFacts.symm
  obtain ⟨hLetters, hContext⟩ := carried_eq_rebuilt timedHost noCalls
  obtain ⟨hChannels, hAttachments⟩ := hLetters s t (hReach.mono fun _ _ h => h.1) hAny hFacts
  exact ⟨s, t, hs, ht, hChannels, hAttachments, hContext s t hReach hAny hFacts⟩

/-- The strand's lease on another thread leaves the line that quotes it as it was. -/
theorem carried_stale : ∃ s, Reach timedHost noCalls (Named timedHost) s ∧
    ¬Same (s.letterReplies timedHost noCalls).2 (letterReplies timedHost noCalls s.view none) := by
  have hStale : (sessionAfter [opening, [leaseOn "l-2" "t-b" 2 5]]).map (fun s =>
      decide ((s.letterReplies timedHost noCalls).2.map (fun found => found.lookup "in-1") =
        (letterReplies timedHost noCalls s.view none).map fun found => found.lookup "in-1")) = .ok false := by
    decide +kernel
  obtain ⟨s, hAfter, hNot⟩ := Fallible.map_eq_ok.mp hStale
  have hOpening : stepMeets [] opening = .ok (true, true) := by decide +kernel
  have hLease : stepMeets [opening] [leaseOn "l-2" "t-b" 2 5] = .ok (true, false) := by decide +kernel
  refine ⟨s, .after hAfter fun first batch rest hSplit t hFirst => ?_, fun hSame => ?_⟩
  · obtain ⟨rfl, rfl⟩ | ⟨rfl, rfl⟩ := split_pair hSplit
    · exact (meets_of_step hOpening hFirst).1
    · exact (meets_of_step hLease hFirst).1
  · exact of_decide_eq_false hNot (hSame.lookup "in-1")

end Brnrd.Letters
