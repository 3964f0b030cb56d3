import Brnrd.Ledger.Appends

/-! What a run of appends keeps for its readers: each fact once, in the order it was
appended, and an index that says what the files say. -/
namespace Brnrd.Ledger

open Python Facts LinearExtension
open Stores (factRow)

variable {host : Host} {format : Format host}

/-- In a union, facts that name no others stand by their keys. -/
theorem independent_sorted {l : List Fact} (h : PriorityOrder Before (orderKey host) l) (p : Fact → Bool)
    (hFree : ∀ f, p f = true → f.after = []) : (l.filter p).Pairwise fun a b => orderKey host a < orderKey host b := by
  rw [List.pairwise_filter]
  induction l with
  | nil => exact List.Pairwise.nil
  | cons f l ih =>
      refine List.Pairwise.cons (fun g hg _ hLater => h.2.1 g hg fun other _ hBefore => ?_) (ih h.tail)
      have hNamed : other.id ∈ g.after := hBefore
      rw [hFree g hLater] at hNamed
      cases hNamed

/-- A fact that was stamped, and names no others. -/
def Appending.own (w : Appending) (f : Fact) : Bool :=
  decide (f ∈ w.stamped) && decide (f.after = [])

/-- What holds of a folder and its processes: an append of a fact that is there changes
nothing, and raises where the content differs; the facts that were stamped have rising
clocks, and replay in the order of their appends; and each index is refreshed to what one
made from the files is. -/
structure Orderly (format : Format host) (install : String) (w : Appending) : Prop where
  found : ∀ old ∈ w.log, ∀ fact : Fact, fact.id = old.id → ∀ p now reach disk,
    (w.append format install p now fact reach disk).1.dir = w.dir ∧
      (content fact = content old → (w.append format install p now fact reach disk).2 = .ok old) ∧
      (content fact ≠ content old → ∃ e, (w.append format install p now fact reach disk).2 = .error e)
  rising : w.stamped.Pairwise Below
  replay : ∃ streams, w.dir.mapM (shardFacts host) = .ok streams ∧ (∀ f ∈ w.log, f ∈ streams.flatten) ∧
    ∀ l, union host streams = .ok l → l.filter w.own = w.stamped.filter fun f => f.after = []
  rebuilt : ∀ p, ∃ kept made, (w.index p).refresh host w.dir = .ok kept ∧ DirIndex.empty.refresh host w.dir = .ok made ∧
    kept.stamps = made.stamps ∧ kept.facts.Same made.facts

theorem Appending.Inv.replay {install : String} {w : Appending} {held : String → List Fact}
    (h : w.Inv format install held) : ∃ streams, w.dir.mapM (shardFacts host) = .ok streams ∧
      (∀ f ∈ w.log, f ∈ streams.flatten) ∧
      ∀ l, union host streams = .ok l → l.filter w.own = w.stamped.filter fun f => f.after = [] := by
  have hRead : w.dir.mapM (shardFacts host) = .ok (w.dir.map fun entry => held entry.1) := by
    have hAll := Fallible.mapM_congr (f := shardFacts host) (g := fun entry => .ok (held entry.1))
      fun entry hEntry => shardFacts_eq h.holds hEntry
    rw [hAll]
    exact List.mapM_pure
  have hFlatten : (w.dir.map fun entry => held entry.1).flatten = w.dir.facts held := rfl
  refine ⟨_, hRead, fun f hf => by rw [hFlatten]; exact h.log.mem_iff.mp hf, fun l hUnion => ?_⟩
  have hLedger := union_ledger hUnion
  rw [hFlatten] at hLedger
  have hMem : ∀ f ∈ w.stamped, f ∈ l := by
    intro f hf
    have hFact : f ∈ w.dir.facts held := h.log.mem_iff.mp (h.stamped f hf).1
    obtain ⟨g, hg, hId⟩ := hLedger.covers f hFact
    have hSame : g = f := List.inj_on_of_nodup_map h.facts_ids ((hLedger.mem g).mp hg).1 hFact hId
    exact hSame ▸ hg
  have hKeys : (w.stamped.filter fun f => f.after = []).Pairwise fun a b => orderKey host a < orderKey host b :=
    (h.rising.imp fun hBelow => hBelow.orderKey_lt host).filter _
  have hSorted : (l.filter w.own).Pairwise fun a b => orderKey host a < orderKey host b :=
    independent_sorted hLedger.ordered _ fun f hf => by
      have hBoth : f ∈ w.stamped ∧ f.after = [] := by simpa [Appending.own] using hf
      exact hBoth.2
  have hDistinct : ∀ {facts : List Fact}, (facts.Pairwise fun a b => orderKey host a < orderKey host b) → facts.Nodup :=
    fun hPairwise => hPairwise.imp fun hLess hSame => absurd (hSame ▸ hLess) (lt_irrefl _)
  have hPerm : (l.filter w.own).Perm (w.stamped.filter fun f => f.after = []) := by
    rw [List.perm_ext_iff_of_nodup (hDistinct hSorted) (hDistinct hKeys)]
    intro f
    simp only [List.mem_filter, Appending.own, Bool.and_eq_true, decide_eq_true_eq]
    exact ⟨fun hf => hf.2, fun hf => ⟨hMem f hf.1, hf⟩⟩
  exact hPerm.eq_of_pairwise (fun a b _ _ hab hba => absurd hab (lt_asymm hba)) hSorted hKeys

end Brnrd.Ledger
