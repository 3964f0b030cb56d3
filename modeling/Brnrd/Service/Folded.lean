import Brnrd.Service.LetterService

/-! What facts about a letter fold to, whatever the order and the number of the copies
that carry them: one state, one end, and a list of what came after it. -/
namespace Brnrd.Service

open Python Facts

variable (host : Host) (floats : Floats)

/-- Streams that carry these facts and no others, in any order and any number of times. -/
def Carries (streams : List (List Fact)) (facts : List Fact) : Prop :=
  ∀ f, f ∈ streams.flatten ↔ f ∈ facts

/-- A fact that may end a letter. -/
def Ends (f : Fact) : Prop :=
  f.kind = "answered" ∨ f.kind = "retired"

/-- The letter that such a fact ends. -/
def ended (f : Fact) : Letter :=
  if f.kind = "answered" then { Letter.fresh .answered with answer := some f.data }
  else { Letter.fresh .retired with retirement := some f.data }

/-- The anomaly that such a fact is when it ends nothing. -/
def refusal (f : Fact) : String :=
  f.id ++ ": " ++
    if f.kind = "answered" then "answer after terminal or without letter" else "retire after terminal or without letter"

/-- The laws of one history, facts in the order of their union. -/
structure Settled (l : List Fact) : Prop where
  once : ∀ first second letter, l = first ++ second → foldFacts first = some letter → letter.state.terminal = true →
    ∃ later, foldFacts l = some later ∧ later.plain = letter.plain
  one : ∀ letter, foldFacts l = some letter → letter.state.terminal = true →
    ∃ first f second, l = first ++ f :: second ∧ Ends f ∧ letter.plain = ended f ∧
      ∀ g ∈ first ++ second, Ends g → refusal g ∈ letter.anomalies
  open_ : ∀ letter, foldFacts l = some letter → letter.state.terminal = false →
    ∀ g ∈ l, Ends g → refusal g ∈ letter.anomalies
  released : ∀ first f second, l = first ++ f :: second → f.kind = "released" →
    ((first.foldl foldFact (none, [])).1.map Letter.state = some .claimed ∧
      (foldFact (first.foldl foldFact (none, [])) f).1 = some (.fresh .pending)) ∨
    (foldFact (first.foldl foldFact (none, [])) f).1 = (first.foldl foldFact (none, [])).1

/-- The laws of `fold_letter` on the facts about one letter. -/
structure FoldsAlike (facts : List Fact) : Prop where
  conflict : ∀ streams streams', Carries streams facts → Carries streams' facts →
    RaisesConflict host streams → RaisesConflict host streams'
  same : ∀ streams streams' now, Carries streams facts → Carries streams' facts →
    foldLetter host floats streams.flatten now = foldLetter host floats streams'.flatten now
  settled : ∀ streams l, Carries streams facts → union host streams = .ok l → Settled l
  expiry : ∀ streams now letter, Carries streams facts → foldLetter host floats streams.flatten (some now) = some (some letter) →
    foldLetter host floats streams.flatten none = some (some letter) ∨
      ∃ claimed, foldLetter host floats streams.flatten none = some (some claimed) ∧ claimed.state = .claimed ∧
        letter = { Letter.fresh .pending with anomalies := claimed.anomalies }

/-- Anomalies are only added to. -/
theorem foldFact_anomalies (letter : Option Letter) (anomalies : List String) (f : Fact) :
    anomalies <+: (foldFact (letter, anomalies) f).2 := by
  simp only [foldFact]
  repeat' split
  all_goals first
    | exact List.prefix_rfl
    | exact List.prefix_append ..

/-- A fact that may end a letter ends it, or is an anomaly. -/
theorem foldFact_ends {f : Fact} (h : Ends f) (letter : Option Letter) (anomalies : List String) :
    ((∀ l ∈ letter, l.state.terminal = false) ∧ letter.isSome ∧ foldFact (letter, anomalies) f = (some (ended f), anomalies)) ∨
      foldFact (letter, anomalies) f = (letter, anomalies ++ [refusal f]) := by
  cases letter with
  | none =>
      refine .inr ?_
      rcases h with h | h <;> simp [foldFact, refusal, h]
  | some l =>
      obtain ⟨state, claim, answer, retirement, kept⟩ := l
      rcases h with h | h <;> cases state <;>
        simp [foldFact, refusal, ended, h, LetterState.terminal]

/-- Any other fact leaves a letter that has not ended so. -/
theorem foldFact_open {f : Fact} (h : ¬ Ends f) {letter : Option Letter} (hOpen : ∀ l ∈ letter, l.state.terminal = false)
    (anomalies : List String) : ∀ l ∈ (foldFact (letter, anomalies) f).1, l.state.terminal = false := by
  obtain ⟨hAnswered, hRetired⟩ := not_or.mp h
  simp only [foldFact, if_neg hAnswered, if_neg hRetired]
  repeat' split
  all_goals first
    | exact hOpen
    | (intro l hl
       obtain rfl := Option.some.inj hl
       rfl)

/-- What a fold has listed: every fact that may end the letter, but for the one that did. -/
theorem foldl_ends (l : List Fact) :
    (∀ letter, (l.foldl foldFact (none, [])).1 = some letter → letter.state.terminal = true →
      ∃ first f second, l = first ++ f :: second ∧ Ends f ∧ letter = ended f ∧
        ∀ g ∈ first ++ second, Ends g → refusal g ∈ (l.foldl foldFact (none, [])).2) ∧
    ((∀ letter ∈ (l.foldl foldFact (none, [])).1, letter.state.terminal = false) →
      ∀ g ∈ l, Ends g → refusal g ∈ (l.foldl foldFact (none, [])).2) := by
  induction l using List.reverseRecOn with
  | nil => exact ⟨fun letter h => (nomatch h), fun _ g hg => (nomatch hg)⟩
  | append_singleton l f ih =>
      obtain ⟨hEnded, hOpen⟩ := ih
      simp only [List.foldl_append, List.foldl_cons, List.foldl_nil]
      generalize l.foldl foldFact (none, []) = folded at hEnded hOpen ⊢
      obtain ⟨letter, anomalies⟩ := folded
      have hMore := (foldFact_anomalies letter anomalies f).subset
      by_cases hTerminal : ∃ l ∈ letter, l.state.terminal = true
      · obtain ⟨kept, rfl, hKept⟩ := hTerminal
        have hStays := foldFact_terminal hKept anomalies f
        obtain ⟨first, winner, second, rfl, hWinner, rfl, hRest⟩ := hEnded kept rfl hKept
        refine ⟨fun later hLater _ => ?_, fun hNone => ?_⟩
        · obtain rfl := Option.mem_unique hStays hLater
          refine ⟨first, winner, second ++ [f], by simp, hWinner, rfl, fun g hg hEnds => ?_⟩
          rw [← List.append_assoc] at hg
          rcases List.mem_append.mp hg with hg | hg
          · exact hMore (hRest g hg hEnds)
          · obtain rfl := List.mem_singleton.mp hg
            rcases foldFact_ends hEnds (some (ended winner)) anomalies with ⟨hNot, -, -⟩ | hEq
            · rw [hNot _ rfl] at hKept
              cases hKept
            · rw [hEq]
              simp
        · rw [hNone _ hStays] at hKept
          cases hKept
      · have hAll : ∀ l ∈ letter, l.state.terminal = false := fun l hl =>
          Bool.eq_false_iff.mpr fun hTrue => hTerminal ⟨l, hl, hTrue⟩
        by_cases hEnds : Ends f
        · rcases foldFact_ends hEnds letter anomalies with ⟨-, -, hEq⟩ | hEq
          · rw [hEq]
            refine ⟨fun later hLater _ => ?_, fun hNone => ?_⟩
            · obtain rfl := Option.some.inj hLater
              exact ⟨l, f, [], rfl, hEnds, rfl, fun g hg => hOpen hAll g (by simpa using hg)⟩
            · have hEnd : (ended f).state.terminal = true := by
                unfold ended
                split <;> rfl
              rw [hNone _ rfl] at hEnd
              cases hEnd
          · rw [hEq]
            refine ⟨fun later hLater hEnd => absurd hEnd (by rw [hAll later hLater]; decide), fun _ g hg hg' => ?_⟩
            rcases List.mem_append.mp hg with hg | hg
            · exact List.mem_append_left _ (hOpen hAll g hg hg')
            · obtain rfl := List.mem_singleton.mp hg
              simp
        · have hStill := foldFact_open hEnds hAll anomalies
          refine ⟨fun later hLater hEnd => absurd hEnd (by rw [hStill later hLater]; decide), fun _ g hg hg' => ?_⟩
          rcases List.mem_append.mp hg with hg | hg
          · exact hMore (hOpen hAll g hg hg')
          · exact absurd (List.mem_singleton.mp hg ▸ hg') hEnds

theorem foldFacts_eq_some {l : List Fact} {letter : Letter} (h : foldFacts l = some letter) :
    ∃ kept, (l.foldl foldFact (none, [])).1 = some kept ∧
      letter = { kept with anomalies := (l.foldl foldFact (none, [])).2 } := by
  obtain ⟨kept, hKept, rfl⟩ := Option.map_eq_some_iff.mp h
  exact ⟨kept, hKept, rfl⟩

/-- A release reopens a claim, and is an anomaly otherwise. -/
theorem foldFact_released {f : Fact} (h : f.kind = "released") (letter : Option Letter) (anomalies : List String) :
    (letter.map Letter.state = some .claimed ∧ (foldFact (letter, anomalies) f).1 = some (.fresh .pending)) ∨
      (foldFact (letter, anomalies) f).1 = letter := by
  cases letter with
  | none => simp [foldFact, h]
  | some l =>
      obtain ⟨state, claim, answer, retirement, kept⟩ := l
      cases state <;> simp [foldFact, h]

/-- The laws hold of every history. -/
theorem settled (l : List Fact) : Settled l where
  once := by
    rintro first second letter rfl hFold hTerminal
    exact foldFacts_terminal hFold hTerminal second
  one := by
    intro letter hFold hTerminal
    obtain ⟨kept, hKept, rfl⟩ := foldFacts_eq_some hFold
    obtain ⟨first, f, second, hSplit, hEnds, rfl, hRest⟩ := (foldl_ends l).1 kept hKept hTerminal
    refine ⟨first, f, second, hSplit, hEnds, ?_, hRest⟩
    unfold ended
    split <;> rfl
  open_ := by
    intro letter hFold hOpen
    obtain ⟨kept, hKept, rfl⟩ := foldFacts_eq_some hFold
    refine (foldl_ends l).2 fun other hOther => ?_
    obtain rfl := Option.mem_unique hKept hOther
    exact hOpen
  released := by
    rintro first f second - hKind
    exact foldFact_released hKind _ _

variable {host floats}

theorem Carries.same {facts : List Fact} {streams streams' : List (List Fact)} (h : Carries streams facts)
    (h' : Carries streams' facts) (f : Fact) : f ∈ [streams.flatten].flatten ↔ f ∈ [streams'.flatten].flatten := by
  simpa using (h f).trans (h' f).symm

variable {facts : List Fact}

/-- Two presentations that meet no clash are read as the same history, or neither is. -/
theorem readLog_same {streams streams' : List (List Fact)} (h : Carries streams facts) (h' : Carries streams' facts)
    (hPeaceful : Peaceful streams.flatten) (hPeaceful' : Peaceful streams'.flatten) :
    readLog host streams.flatten = readLog host streams'.flatten := by
  unfold readLog
  cases hUnion : union host [streams.flatten] with
  | ok l => rw [union_kept (Kept.congr (h.same h')) hUnion (by simpa using hPeaceful')]
  | error e =>
      cases hUnion' : union host [streams'.flatten] with
      | ok l =>
          rw [union_kept (Kept.congr (h'.same h)) hUnion' (by simpa using hPeaceful)] at hUnion
          cases hUnion
      | error e' => rfl

/-- What clashes is not read. -/
theorem readLog_clash (h : ¬ Peaceful facts) : readLog host facts = none := by
  have hFlat : ¬ Peaceful [facts].flatten := by simpa using h
  obtain ⟨ident, hError⟩ : RaisesConflict host [facts] := raisesConflict_iff.mpr hFlat
  rw [readLog, hError]
  rfl

theorem foldLetter_congr {a b : List Fact} (h : readLog host a = readLog host b) (now : Option ℚ) :
    foldLetter host floats a now = foldLetter host floats b now := by
  simp only [foldLetter, h]

/-- A time reopens a claim or changes nothing. -/
theorem foldLetter_expiry {now : ℚ} {letter : Letter} (h : foldLetter host floats facts (some now) = some (some letter)) :
    foldLetter host floats facts none = some (some letter) ∨
      ∃ claimed, foldLetter host floats facts none = some (some claimed) ∧ claimed.state = .claimed ∧
        letter = { Letter.fresh .pending with anomalies := claimed.anomalies } := by
  unfold foldLetter at h ⊢
  cases hRead : readLog host facts with
  | none =>
      rw [hRead] at h
      cases h
  | some l =>
      simp only [hRead, Option.bind_eq_bind, Option.bind_some] at h ⊢
      cases hFold : foldFacts l with
      | none =>
          rw [hFold] at h
          cases Option.some.inj h
      | some folded =>
          simp only [hFold] at h ⊢
          split at h
          · rename_i claim hState hClaim
            obtain ⟨heldUntil, -, hAnswer⟩ := Option.bind_eq_some_iff.mp h
            split at hAnswer
            · obtain rfl := Option.some.inj (Option.some.inj hAnswer)
              exact .inr ⟨folded, rfl, hState, rfl⟩
            · exact .inl hAnswer
          · exact .inl h

/-- The facts about a letter fold alike in every order exactly where a clash among their
copies, if there is any, is seen in every order. -/
theorem fold_letter_iff (host : Host) (floats : Floats) (facts : List Fact) :
    FoldsAlike host floats facts ↔
      ((∃ f ∈ facts, ∃ g ∈ facts, Clash f g) → ∃ f ∈ facts, ∃ g ∈ facts, Exposed facts f g) := by
  constructor
  · rintro hLaws ⟨f, hf, g, hg, hClash⟩
    by_contra hNone
    have hHidden : Hidden facts := fun f hf g hg hExposed => hNone ⟨f, hf, g, hg, hExposed⟩
    obtain ⟨loud, quiet, hLoud, hQuiet, hMeets, hPeaceful⟩ := hHidden.orders hf hg hClash
    have hRaises := hLaws.conflict [loud] [quiet] (fun k => by simpa using hLoud.mem_iff) (fun k => by simpa using hQuiet.mem_iff)
      (raisesConflict_iff.mpr (by simpa using hMeets))
    exact raisesConflict_iff.mp hRaises (by simpa using hPeaceful)
  · intro hExposed
    -- a presentation that meets a clash has one, so every presentation meets the exposed one
    have hAll : ∀ streams streams', Carries streams facts → Carries streams' facts → ¬ Peaceful streams.flatten →
        ¬ Peaceful streams'.flatten := by
      intro streams streams' h h' hMeets
      obtain ⟨old, hOld, fact, hFact, hClash⟩ := clash_of_not_peaceful hMeets
      obtain ⟨f, hf, g, hg, hfg⟩ := hExposed ⟨old, (h old).mp hOld, fact, (h fact).mp hFact, hClash⟩
      exact hfg.not_peaceful (fun k hk => (h' k).mp hk) ((h' f).mpr hf) ((h' g).mpr hg)
    refine ⟨fun streams streams' h h' hRaises => ?_, fun streams streams' now h h' => ?_, fun streams l _ _ => settled l,
      fun streams now letter _ hFold => foldLetter_expiry hFold⟩
    · rw [raisesConflict_iff] at hRaises ⊢
      exact hAll streams streams' h h' hRaises
    · refine foldLetter_congr ?_ now
      by_cases hPeaceful : Peaceful streams.flatten
      · have hPeaceful' : Peaceful streams'.flatten := by
          by_contra hNot
          exact hAll streams' streams h' h hNot hPeaceful
        exact readLog_same h h' hPeaceful hPeaceful'
      · rw [readLog_clash hPeaceful, readLog_clash (hAll streams streams' h h' hPeaceful)]

/-- A letter's first fact in three copies, two of them by one install. -/
def pendingCopy (install : String) (ms : Int) : Fact :=
  ⟨"pending", "loom:" ++ install, [], "", "letter:1", version, some ⟨ms, 0, install⟩, []⟩

/-- One order of the copies folds to a pending letter, another raises. -/
theorem fold_letter_order_dependent : ¬ ∀ host floats facts, FoldsAlike host floats facts := by
  intro h
  let floats : Floats := ⟨fun _ => none, fun _ => .null⟩
  have hSame := (h bareHost floats [pendingCopy "aaaa" 1, pendingCopy "aaaa" 3, pendingCopy "bbbb" 2]).same
    [[pendingCopy "aaaa" 1, pendingCopy "aaaa" 3, pendingCopy "bbbb" 2]]
    [[pendingCopy "bbbb" 2, pendingCopy "aaaa" 3, pendingCopy "aaaa" 1]] none (fun f => by simp) (fun f => by simp; tauto)
  have hRaises : foldLetter bareHost floats [pendingCopy "aaaa" 1, pendingCopy "aaaa" 3, pendingCopy "bbbb" 2] none = none := by
    have hRead : readLog bareHost [pendingCopy "aaaa" 1, pendingCopy "aaaa" 3, pendingCopy "bbbb" 2] = none := by decide
    simp only [foldLetter, hRead]
    rfl
  have hFolds : foldLetter bareHost floats [pendingCopy "bbbb" 2, pendingCopy "aaaa" 3, pendingCopy "aaaa" 1] none =
      some (some (.fresh .pending)) := by
    have hRead : readLog bareHost [pendingCopy "bbbb" 2, pendingCopy "aaaa" 3, pendingCopy "aaaa" 1] =
        some [pendingCopy "aaaa" 1] := by decide
    simp only [foldLetter, hRead, Option.bind_eq_bind, Option.bind_some]
    rfl
  simp only [List.flatten_cons, List.flatten_nil, List.append_nil] at hSame
  rw [hRaises, hFolds] at hSame
  cases hSame

end Brnrd.Service
