import Brnrd.Monad.Fallible
import Brnrd.Python.Value
import Mathlib.Data.List.MinMax
import Mathlib.Data.String.Basic

/-! Versioned facts and their identity union: one copy for each id, released in
causal order and, among the ready ones, in clock order. -/
namespace Brnrd.Facts

open Python

/-- A hybrid logical clock stamp. Its tuple order compares the install last. -/
structure Hlc where
  ms : Int
  counter : Int
  install : String
  deriving DecidableEq

def Hlc.key (stamp : Hlc) : Int ×ₗ Int ×ₗ String :=
  toLex (stamp.ms, toLex (stamp.counter, stamp.install))

theorem Hlc.key_injective : Function.Injective Hlc.key := by
  rintro ⟨ms, counter, install⟩ ⟨ms', counter', install'⟩ h
  simpa [Hlc.key] using h

instance : LinearOrder Hlc := LinearOrder.lift' Hlc.key Hlc.key_injective

theorem Hlc.lt_iff {a b : Hlc} : a < b ↔ a.ms < b.ms ∨ a.ms = b.ms ∧
    (a.counter < b.counter ∨ a.counter = b.counter ∧ a.install < b.install) := by
  change a.key < b.key ↔ _
  simp [Hlc.key, Prod.Lex.toLex_lt_toLex]

/-- `VERSION`. -/
def version : Int := 1

/-- `by_` and `at_` are the source's `by` and `at`. -/
structure Fact where
  kind : String
  by_ : String
  data : Dict
  at_ : String
  id : String
  v : Int
  hlc : Option Hlc
  after : List String
  deriving DecidableEq

/-- The ways `union` raises. -/
inductive UnionError where
  /-- `conflicting fact id: {id}`. -/
  | conflict (id : String)
  /-- `datetime.fromisoformat` on a legacy fact's `at`. -/
  | timestamp (at_ : String)
  /-- `causal fact cycle`. -/
  | cycle
  deriving DecidableEq

/-- The copy a union keeps of one fact id. The lower clock wins across
installs; within one install, or without clocks, it is a conflict. -/
def keep (old new : Fact) : Except UnionError Fact :=
  if old = new then .ok old
  else match old.hlc, new.hlc with
    | some a, some b =>
        if a.install ≠ b.install then .ok (if b < a then new else old)
        else .error (.conflict new.id)
    | _, _ => .error (.conflict new.id)

/-- `by_id` in insertion order, with the copies that lost `keep`. -/
structure Merged where
  byId : List Fact
  duplicates : List Fact
  deriving DecidableEq

/-- One turn of the merge loop: `setdefault`, then `keep` on a differing copy. -/
def Merged.add (m : Merged) (fact : Fact) : Except UnionError Merged :=
  match m.byId.find? fun f => f.id = fact.id with
  | none => .ok { m with byId := m.byId ++ [fact] }
  | some old =>
      if old = fact then .ok m
      else do
        let kept ← keep old fact
        .ok { byId := m.byId.map fun f => if f.id = fact.id then kept else f
              duplicates := m.duplicates ++ [if kept = old then fact else old] }

def merge (facts : List Fact) (duplicates : List Fact) : Except UnionError Merged :=
  facts.foldlM Merged.add ⟨[], duplicates⟩

abbrev Key := Hlc ×ₗ String

/-- `order(ident)`: legacy facts have no clock and keep their timestamp order. -/
def order (host : Host) (fact : Fact) : Except UnionError Key :=
  match fact.hlc with
  | some stamp => .ok (toLex (stamp, fact.id))
  | none => match host.millis fact.at_ with
      | some ms => .ok (toLex (⟨ms, 0, fact.by_⟩, fact.id))
      | none => .error (.timestamp fact.at_)

/-- `predecessor in by_id`. -/
def present (byId : List Fact) (ident : String) : Bool :=
  byId.any fun f => f.id = ident

/-- `outgoing[ident]`, one entry for each time a fact names `ident`. -/
def outgoing (byId : List Fact) (ident : String) : List Fact :=
  byId.flatMap fun fact => (fact.after.filter fun p => p = ident ∧ present byId p).map fun _ => fact

/-- `incoming[fact.id]` before the loop. -/
def incomingOf (byId : List Fact) (fact : Fact) : Nat :=
  (fact.after.filter (present byId)).length

/-- The loop's variables; an ident in the heap stands with the fact it names. -/
structure Drain where
  ready : List (Key × Fact)
  incoming : String → Nat
  result : List Fact

/-- `heapq.heappop`: the least entry, and the heap without it. -/
def heappop (ready : List (Key × Fact)) : Option ((Key × Fact) × List (Key × Fact)) :=
  (ready.argmin Prod.fst).map fun entry => (entry, ready.erase entry)

/-- `heapq.heappush(ready, (order(successor), successor))`. -/
def heappush (host : Host) (ready : List (Key × Fact)) (fact : Fact) :
    Except UnionError (List (Key × Fact)) := do
  let key ← order host fact
  .ok (ready ++ [(key, fact)])

/-- One successor of the released fact. -/
def Drain.decrement (host : Host) (s : Drain) (successor : Fact) : Except UnionError Drain :=
  let s := { s with
    incoming := Function.update s.incoming successor.id (s.incoming successor.id - 1) }
  if s.incoming successor.id = 0 then do
    let ready ← heappush host s.ready successor
    .ok { s with ready := ready }
  else .ok s

/-- `while ready`. Every turn releases a fact, so the number of facts is fuel
enough (`drain_ok`). -/
def drain (host : Host) (successors : String → List Fact) :
    Nat → Drain → Except UnionError (List Fact)
  | 0, s => .ok s.result
  | fuel + 1, s => match heappop s.ready with
      | none => .ok s.result
      | some ((_, fact), rest) => do
          let s' ← (successors fact.id).foldlM (Drain.decrement host)
            { s with ready := rest, result := s.result ++ [fact] }
          drain host successors fuel s'

/-- The loop's start: every fact with no predecessor is in the heap. -/
def Drain.start (host : Host) (byId : List Fact) : Except UnionError Drain := do
  let ready ← (byId.filter fun f => incomingOf byId f = 0).foldlM (heappush host) []
  .ok ⟨ready, fun ident => ((byId.find? fun f => f.id = ident).map (incomingOf byId)).getD 0, []⟩

/-- `union(*streams, duplicates=duplicates)`: the ordered list, and what the
caller's list of displaced copies has become. -/
def unionWith (host : Host) (streams : List (List Fact)) (duplicates : List Fact) :
    Except UnionError (List Fact × List Fact) := do
  let merged ← merge streams.flatten duplicates
  let start ← Drain.start host merged.byId
  let result ← drain host (outgoing merged.byId) merged.byId.length start
  if result.length ≠ merged.byId.length then .error .cycle
  else .ok (result, merged.duplicates)

/-- `union(*streams)`. -/
def union (host : Host) (streams : List (List Fact)) : Except UnionError (List Fact) :=
  (unionWith host streams []).map Prod.fst

end Brnrd.Facts

/-! Which copy of an id the merge keeps, and when it raises. Both are
described by the facts alone, so the order of arrival matters only through
the conflicts it does or does not compare. -/
namespace Brnrd.Facts

/-- Both facts carry a clock, and `f`'s is the lower one. -/
def Below (f g : Fact) : Prop :=
  ∃ a b, f.hlc = some a ∧ g.hlc = some b ∧ a < b

/-- The copy of its id that every other copy in `facts` loses to. -/
def Kept (facts : List Fact) (f : Fact) : Prop :=
  f ∈ facts ∧ ∀ g ∈ facts, g.id = f.id → g = f ∨ Below f g

/-- Two differing copies of one id that `keep` refuses to choose between. -/
def Clash (f g : Fact) : Prop :=
  f.id = g.id ∧ f ≠ g ∧
    ¬ ∃ a b, f.hlc = some a ∧ g.hlc = some b ∧ a.install ≠ b.install

variable {f g old fact : Fact}

theorem Below.trans {k : Fact} (h : Below f g) (h' : Below g k) : Below f k := by
  obtain ⟨a, b, ha, hb, hab⟩ := h
  obtain ⟨b', c, hb', hc, hbc⟩ := h'
  obtain rfl : b = b' := Option.mem_unique hb hb'
  exact ⟨a, c, ha, hc, hab.trans hbc⟩

theorem Below.asymm (h : Below f g) : ¬ Below g f := by
  intro h'
  obtain ⟨a, b, ha, hb, hab⟩ := h
  obtain ⟨b', a', hb', ha', hba⟩ := h'
  obtain rfl : b = b' := Option.mem_unique hb hb'
  obtain rfl : a = a' := Option.mem_unique ha ha'
  exact lt_asymm hab hba

theorem Clash.symm (h : Clash f g) : Clash g f := by
  refine ⟨h.1.symm, h.2.1.symm, ?_⟩
  rintro ⟨a, b, ha, hb, hab⟩
  exact h.2.2 ⟨b, a, hb, ha, hab.symm⟩

variable {facts duplicates : List Fact}

theorem Kept.unique (hf : Kept facts f) (hg : Kept facts g) (hId : f.id = g.id) : f = g := by
  rcases hf.2 g hg.1 hId.symm with h | h
  · exact h.symm
  · rcases hg.2 f hf.1 hId with h' | h'
    · exact h'
    · exact absurd h' h.asymm

theorem Kept.congr {facts' : List Fact} (h : ∀ f, f ∈ facts ↔ f ∈ facts') (f : Fact) : Kept facts f ↔ Kept facts' f := by
  simp only [Kept, h]

/-- `keep` raises on a clash and on nothing else. -/
theorem keep_cases {new : Fact} (hId : old.id = new.id) :
    (Clash old new ∧ keep old new = .error (.conflict new.id)) ∨
    (¬ Clash old new ∧ ∃ k, keep old new = .ok k ∧ (k = old ∨ k = new) ∧
      (old = k ∨ Below k old) ∧ (new = k ∨ Below k new)) := by
  unfold keep
  by_cases hEq : old = new
  · exact .inr ⟨fun h => h.2.1 hEq, old, by simp [hEq], .inl rfl, .inl rfl, .inl hEq.symm⟩
  · rw [if_neg hEq]
    cases ha : old.hlc with
    | none => exact .inl ⟨⟨hId, hEq, by simp [ha]⟩, rfl⟩
    | some a =>
        cases hb : new.hlc with
        | none => exact .inl ⟨⟨hId, hEq, by simp [hb]⟩, rfl⟩
        | some b =>
            by_cases hInstall : a.install = b.install
            · exact .inl ⟨⟨hId, hEq, by simp [ha, hb, hInstall]⟩, by simp [hInstall]⟩
            · refine Or.inr ⟨fun h => h.2.2 ⟨a, b, ha, hb, hInstall⟩, ?_⟩
              by_cases hba : b < a
              · exact ⟨new, by simp [hInstall, hba], .inr rfl, .inr ⟨b, a, hb, ha, hba⟩, .inl rfl⟩
              · have hab : a < b :=
                  lt_of_le_of_ne (not_lt.mp hba) (fun h => hInstall (congrArg Hlc.install h))
                exact ⟨old, by simp [hInstall, hba], .inl rfl, .inl rfl, .inr ⟨a, b, ha, hb, hab⟩⟩

/-- What a merge of `facts` without a conflict has made: one entry for each id,
the kept copy. -/
structure Merged.Holds (facts : List Fact) (m : Merged) : Prop where
  nodup : (m.byId.map Fact.id).Nodup
  mem : ∀ f, f ∈ m.byId ↔ Kept facts f
  covers : ∀ g ∈ facts, ∃ f ∈ m.byId, f.id = g.id

theorem Merged.Holds.find_none {m : Merged} {ident : String} (h : m.Holds facts)
    (hFind : m.byId.find? (fun f => f.id = ident) = none) :
    ∀ g ∈ facts, g.id ≠ ident := by
  intro g hg hId
  obtain ⟨f, hf, hfg⟩ := h.covers g hg
  exact absurd (hfg.trans hId) (by simpa using List.find?_eq_none.mp hFind f hf)

theorem Merged.Holds.find_some {m : Merged} {ident : String} (h : m.Holds facts)
    (hFind : m.byId.find? (fun f => f.id = ident) = some old) :
    Kept facts old ∧ old.id = ident :=
  ⟨(h.mem old).mp (List.mem_of_find?_eq_some hFind), by simpa using List.find?_some hFind⟩

theorem kept_snoc_of_ne (hne : f.id ≠ fact.id) : Kept (facts ++ [fact]) f ↔ Kept facts f := by
  constructor
  · rintro ⟨hMem, hAll⟩
    have hf : f ∈ facts := by
      rcases List.mem_append.mp hMem with h | h
      · exact h
      · exact absurd (by simpa using congrArg Fact.id (List.mem_singleton.mp h)) hne
    exact ⟨hf, fun g hg => hAll g (List.mem_append_left _ hg)⟩
  · rintro ⟨hMem, hAll⟩
    refine ⟨List.mem_append_left _ hMem, fun g hg hId => ?_⟩
    rcases List.mem_append.mp hg with hg | hg
    · exact hAll g hg hId
    · exact absurd (by rw [← hId, List.mem_singleton.mp hg]) hne

theorem Merged.Holds.add {m m' : Merged} (h : m.Holds facts) (hAdd : m.add fact = .ok m') : m'.Holds (facts ++ [fact]) := by
  unfold Merged.add at hAdd
  split at hAdd
  · next hFind =>
      obtain rfl := Except.ok.inj hAdd
      have hFresh := h.find_none hFind
      refine ⟨?_, ?_, ?_⟩
      · have hNot : fact.id ∉ m.byId.map Fact.id := by
          intro hMem
          obtain ⟨f, hf, hId⟩ := List.mem_map.mp hMem
          exact hFresh f ((h.mem f).mp hf).1 hId
        simpa [List.nodup_append, h.nodup] using hNot
      · intro f
        rw [List.mem_append, List.mem_singleton]
        by_cases hId : f.id = fact.id
        · constructor
          · rintro (hf | rfl)
            · exact absurd hId (hFresh f ((h.mem f).mp hf).1)
            · refine ⟨by simp, fun g hg hgf => ?_⟩
              rcases List.mem_append.mp hg with hg | hg
              · exact absurd hgf (hFresh g hg)
              · exact .inl (List.mem_singleton.mp hg)
          · rintro ⟨hMem, -⟩
            rcases List.mem_append.mp hMem with hf | hf
            · exact absurd hId (hFresh f hf)
            · exact .inr (List.mem_singleton.mp hf)
        · rw [kept_snoc_of_ne hId, h.mem f]
          exact ⟨fun hf => hf.resolve_right (fun hEq => hId (hEq ▸ rfl)), Or.inl⟩
      · intro g hg
        rcases List.mem_append.mp hg with hg | hg
        · obtain ⟨f, hf, hId⟩ := h.covers g hg
          exact ⟨f, List.mem_append_left _ hf, hId⟩
        · exact ⟨fact, by simp, by rw [List.mem_singleton.mp hg]⟩
  · next old hFind =>
      obtain ⟨hOld, hOldId⟩ := h.find_some hFind
      by_cases hEq : old = fact
      · rw [if_pos hEq] at hAdd
        obtain rfl := Except.ok.inj hAdd
        have hMem : ∀ f, f ∈ facts ++ [fact] ↔ f ∈ facts := by
          intro f
          rw [List.mem_append, List.mem_singleton]
          exact ⟨fun hf => hf.elim id (fun hf => hf ▸ hEq ▸ hOld.1), Or.inl⟩
        exact ⟨h.nodup, fun f => (h.mem f).trans (Kept.congr hMem f).symm,
          fun g hg => h.covers g ((hMem g).mp hg)⟩
      · rw [if_neg hEq] at hAdd
        obtain ⟨k, hk, hAdd⟩ := Fallible.peel hAdd
        obtain rfl := Except.ok.inj hAdd
        obtain ⟨-, hErr⟩ | ⟨-, k', hk', hWhich, hBelowOld, hBelowNew⟩ := keep_cases hOldId
        · rw [hErr] at hk
          cases hk
        obtain rfl : k' = k := Fallible.same hk' hk
        have hId : k'.id = fact.id := by rcases hWhich with rfl | rfl <;> simp [hOldId]
        have hKept : Kept (facts ++ [fact]) k' := by
          refine ⟨?_, fun g hg hgk => ?_⟩
          · rcases hWhich with rfl | rfl
            · exact List.mem_append_left _ hOld.1
            · simp
          · rcases List.mem_append.mp hg with hg | hg
            · rcases hOld.2 g hg (hgk.trans (hId.trans hOldId.symm)) with rfl | hBelow
              · exact hBelowOld
              · rcases hBelowOld with rfl | hk
                · exact .inr hBelow
                · exact .inr (hk.trans hBelow)
            · exact List.mem_singleton.mp hg ▸ hBelowNew
        refine ⟨?_, ?_, ?_⟩
        · have hSame : (m.byId.map fun f => if f.id = fact.id then k' else f).map Fact.id =
              m.byId.map Fact.id := by
            rw [List.map_map]
            apply List.map_congr_left
            intro f _
            by_cases hf : f.id = fact.id <;> simp [hf, hId]
          exact hSame ▸ h.nodup
        · intro f
          rw [List.mem_map]
          by_cases hf : f.id = fact.id
          · constructor
            · rintro ⟨g, hg, rfl⟩
              by_cases hgId : g.id = fact.id
              · simpa [hgId] using hKept
              · rw [if_neg hgId] at hf
                exact absurd hf hgId
            · intro hfKept
              refine ⟨old, (h.mem old).mpr hOld, ?_⟩
              rw [if_pos hOldId]
              exact hKept.unique hfKept (hId.trans hf.symm)
          · rw [kept_snoc_of_ne hf, ← h.mem f]
            constructor
            · rintro ⟨g, hg, rfl⟩
              by_cases hgId : g.id = fact.id
              · rw [if_pos hgId] at hf
                exact absurd hId hf
              · rwa [if_neg hgId]
            · exact fun hMem => ⟨f, hMem, if_neg hf⟩
        · intro g hg
          have hCover : ∃ f ∈ m.byId, f.id = g.id := by
            rcases List.mem_append.mp hg with hg | hg
            · exact h.covers g hg
            · exact ⟨old, (h.mem old).mpr hOld, by rw [hOldId, List.mem_singleton.mp hg]⟩
          obtain ⟨f, hf, hfg⟩ := hCover
          refine ⟨_, List.mem_map.mpr ⟨f, hf, rfl⟩, ?_⟩
          by_cases hfId : f.id = fact.id
          · rw [if_pos hfId, hId, ← hfg, hfId]
          · rwa [if_neg hfId]

theorem Merged.Holds.nil (duplicates : List Fact) : Merged.Holds [] ⟨[], duplicates⟩ :=
  ⟨by simp, by simp [Kept], by simp⟩

/-- A merge that does not raise has kept exactly the lowest copies. -/
theorem merge_holds {m : Merged} (h : merge facts duplicates = .ok m) : m.Holds facts :=
  Fallible.foldlM_invariant (fun l m => m.Holds l) (Merged.Holds.nil duplicates)
    (fun _ _ _ _ hPrior hAdd => hPrior.add hAdd) h

/-- The merge raises at a fact that clashes with the copy kept so far. -/
theorem merge_error {e : UnionError} (h : merge facts duplicates = .error e) :
    ∃ first fact rest old, facts = first ++ fact :: rest ∧ Kept first old ∧ Clash old fact ∧
      e = .conflict fact.id := by
  obtain ⟨first, fact, rest, m, hSplit, hFirst, hAdd⟩ := Fallible.foldlM_error h
  have hHolds := merge_holds hFirst
  unfold Merged.add at hAdd
  split at hAdd
  · cases hAdd
  · next old hFind =>
      obtain ⟨hOld, hOldId⟩ := hHolds.find_some hFind
      by_cases hEq : old = fact
      · rw [if_pos hEq] at hAdd
        cases hAdd
      · rw [if_neg hEq] at hAdd
        obtain ⟨hClash, hErr⟩ | ⟨-, k, hk, -⟩ := keep_cases hOldId
        · rw [hErr] at hAdd
          exact ⟨first, fact, rest, old, hSplit, hOld, hClash, (Except.error.inj hAdd).symm⟩
        · rw [hk] at hAdd
          cases hAdd

/-- The displaced copies recorded so far change nothing else of a merge. -/
theorem merge_duplicates (facts duplicates : List Fact) :
    merge facts duplicates =
      (merge facts []).map fun m => { m with duplicates := duplicates ++ m.duplicates } := by
  have hAdd : ∀ (m : Merged) (f : Fact),
      Merged.add { m with duplicates := duplicates ++ m.duplicates } f =
        (m.add f).map fun m => { m with duplicates := duplicates ++ m.duplicates } := by
    intro m f
    unfold Merged.add
    cases m.byId.find? (fun g => g.id = f.id) with
    | none => rfl
    | some old =>
        by_cases hEq : old = f
        · simp [hEq, Except.map]
        · simp only [hEq, if_false]
          cases keep old f with
          | error e => rfl
          | ok kept => simp [bind, Except.bind, Except.map]
  have hFold : ∀ (l : List Fact) (m : Merged),
      l.foldlM Merged.add { m with duplicates := duplicates ++ m.duplicates } =
        (l.foldlM Merged.add m).map fun m => { m with duplicates := duplicates ++ m.duplicates } := by
    intro l
    induction l with
    | nil => exact fun m => rfl
    | cons f l ih =>
        intro m
        rw [List.foldlM_cons, List.foldlM_cons, hAdd]
        cases m.add f with
        | error e => rfl
        | ok m' => exact ih m'
  simpa [merge] using hFold facts ⟨[], []⟩

end Brnrd.Facts
