import Brnrd.Board.Room
import Mathlib.Data.Fintype.Pi

/-! The patches between beads are true: on beads of the hash they start from they give
those of the hash they end at, also where several are composed and where the beads come
back to an earlier hash. -/
namespace Brnrd.Board

open Patches

variable {ι J δ : Type} [DecidableEq ι] [DecidableEq J] [DecidableEq δ] {digest : Part ι J → δ}
  {maps : Set (ι → Option J)}

/-- Some of the beads in question have the hash it starts from, and it makes them beads in
question of the hash it ends at. -/
def BeadsDelta.Sound (digest : Part ι J → δ) (maps : Set (ι → Option J)) (delta : BeadsDelta ι J δ) : Prop :=
  ∃ was ∈ maps, digest (.beads was) = delta.since ∧ delta.patch.read was ∈ maps ∧
    digest (.beads (delta.patch.read was)) = delta.hash

/-- The patches that `?since=` is answered from, each under the hash it starts from. -/
def Truly (digest : Part ι J → δ) (maps : Set (ι → Option J)) (deltas : List (δ × BeadsDelta ι J δ)) : Prop :=
  ∀ item ∈ deltas, item.2.since = item.1 ∧ item.2.Sound digest maps

variable {deltas : List (δ × BeadsDelta ι J δ)}

omit [DecidableEq J] in
theorem walk_sound (hDigest : Set.InjOn (fun rows => digest (.beads rows)) maps) {since current : δ} {rounds : ℕ} {cur : δ}
    {merged patch : Patch ι J} (hDeltas : Truly digest maps deltas)
    (hMerged : BeadsDelta.Sound digest maps ⟨since, cur, merged⟩) (h : walk current rounds deltas cur merged = some patch) :
    BeadsDelta.Sound digest maps ⟨since, current, patch⟩ := by
  induction rounds generalizing deltas cur merged with
  | zero =>
      rw [walk] at h
      split at h
      · rename_i hThere
        obtain rfl := Option.some.inj h
        exact hThere ▸ hMerged
      · cases h
  | succ rounds ih =>
      rw [walk] at h
      split at h
      · rename_i hThere
        obtain rfl := Option.some.inj h
        exact hThere ▸ hMerged
      · split at h
        · cases h
        · rename_i step hStep
          obtain ⟨hKey, was, hWas, hSince, hThere, hHash⟩ := hDeltas _ (Entries.mem_of_get hStep)
          refine ih (fun item hItem => hDeltas item (List.mem_filter.mp hItem).1) ?_ h
          obtain ⟨first, hMem, hFirst, hBetween, hCur⟩ := hMerged
          have hSame : was = merged.read first := hDigest hWas hBetween (hSince.trans (hKey.trans hCur.symm))
          have hMerge : (merged.merge step.patch).read first = step.patch.read was := by rw [Patch.read_merge, hSame]
          refine ⟨first, hMem, hFirst, ?_, ?_⟩
          · exact hMerge ▸ hThere
          · rw [hMerge]
            exact hHash

omit [DecidableEq J] in
/-- A composed patch turns the beads of its hash into those of the current one. -/
theorem compose_deltas_sound (hDigest : Set.InjOn (fun rows => digest (.beads rows)) maps) {delta : BeadsDelta ι J δ}
    {was : ι → Option J} {current : δ} (hDeltas : Truly digest maps deltas) (hWas : was ∈ maps)
    (h : compose_deltas deltas (digest (.beads was)) current = some delta) :
    delta.since = digest (.beads was) ∧ delta.hash = current ∧ delta.Sound digest maps := by
  obtain ⟨patch, hWalk, rfl⟩ := Option.map_eq_some_iff.mp h
  refine ⟨rfl, rfl, walk_sound hDigest hDeltas ⟨was, hWas, rfl, ?_, ?_⟩ hWalk⟩ <;> rw [Patch.read_empty]
  exact hWas

/-- What the beads of a compute read. -/
def Server.rows (server : Server ι J δ) : ι → Option J :=
  fun id => Entries.get id server.parts.beads

/-- What an index says of its own patch. -/
def Index.Sound (digest : Part ι J → δ) (maps : Set (ι → Option J)) (index : Index ι J δ) : Prop :=
  ∀ delta ∈ index.beadsDelta, delta.1.Sound digest maps ∧ delta.1.hash = index.beads

structure Server.Sound (digest : Part ι J → δ) (maps : Set (ι → Option J)) (server : Server ι J δ) : Prop where
  rows : server.rows ∈ maps
  deltas : Truly digest maps server.beadDeltas
  index : (server.index digest).Sound digest maps

omit [DecidableEq J] [DecidableEq δ] in
variable (digest) in
theorem Server.start_sound {parts : Parts ι J} (h : (Server.start parts : Server ι J δ).rows ∈ maps) :
    (Server.start parts : Server ι J δ).Sound digest maps :=
  ⟨h, nofun, nofun⟩

variable (digest) in
omit [DecidableEq δ] in
theorem beads_delta_sound {was : List (ι × J)} {now : Parts ι J} (hWas : (fun id => Entries.get id was) ∈ maps)
    (hNow : (fun id => Entries.get id now.beads) ∈ maps) :
    (beads_delta (digest (.beads fun id => Entries.get id was)) was now
      (digest (.beads fun id => Entries.get id now.beads))).Sound digest maps := by
  have hRead : (between was now.beads now.distinct).read (fun id => Entries.get id was) =
      fun id => Entries.get id now.beads := read_between now.distinct
  exact ⟨_, hWas, rfl, hRead.symm ▸ hNow, congrArg (fun rows => digest (.beads rows)) hRead⟩

variable {server : Server ι J δ}

theorem Server.Sound.recomputed (h : server.Sound digest maps) {parts : Parts ι J}
    (hParts : (fun id => Entries.get id parts.beads) ∈ maps) : (server.recomputed digest parts).Sound digest maps := by
  unfold Server.recomputed
  dsimp only
  split
  · exact ⟨hParts, h.deltas, nofun⟩
  · have hNew := beads_delta_sound digest h.rows hParts
    refine ⟨hParts, fun item hItem => ?_, fun delta hDelta => ?_⟩
    · rcases Entries.mem_set (List.mem_of_mem_drop hItem) with rfl | hOld
      · exact ⟨rfl, hNew⟩
      · exact h.deltas item hOld
    · obtain rfl := Option.some.inj hDelta
      exact ⟨hNew, rfl⟩

/-- A step leaves true patches where the beads it publishes are in question. -/
theorem Server.Sound.step (h : server.Sound digest maps) (move : Move ι J) (hRows : (server.step digest move).rows ∈ maps) :
    (server.step digest move).Sound digest maps := by
  unfold Server.step at hRows ⊢
  split
  · rename_i hMoved
    rw [if_pos hMoved] at hRows
    cases move with
    | recompute parts =>
        have hParts : (server.recomputed digest parts).parts = parts := by
          unfold Server.recomputed
          dsimp only
          split <;> rfl
        have hNew : (server.recomputed digest parts).rows = fun id => Entries.get id parts.beads := by
          unfold Server.rows
          rw [hParts]
        exact h.recomputed (hNew ▸ hRows)
    | splice tapes fuel => exact ⟨h.rows, h.deltas, h.index⟩
  · exact h

/-- The beads that a run publishes, one compute after the other. -/
def published (digest : Part ι J → δ) (server : Server ι J δ) : List (Move ι J) → List (ι → Option J)
  | [] => [server.rows]
  | move :: moves => server.rows :: published digest (server.step digest move) moves

theorem Server.Sound.run (h : server.Sound digest maps) {moves : List (Move ι J)}
    (hMaps : ∀ rows ∈ published digest server moves, rows ∈ maps) :
    (moves.foldl (Server.step digest) server).Sound digest maps := by
  induction moves generalizing server with
  | nil => exact h
  | cons move moves ih =>
      have hRest : ∀ rows ∈ published digest (server.step digest move) moves, rows ∈ maps :=
        fun rows hRows => hMaps rows (List.mem_cons_of_mem _ hRows)
      have hNext : (server.step digest move).rows ∈ published digest (server.step digest move) moves := by
        cases moves <;> exact List.mem_cons_self ..
      exact ih (h.step move (hRest _ hNext)) hRest

/-- A run in which no two beads published have one hash: what `?since=` composes from the
hash of any of them makes a dictionary of that hash the current one, key by key. -/
theorem deltas_compose (parts : Parts ι J) (moves : List (Move ι J))
    (hDigest : Set.InjOn (fun rows => digest (.beads rows)) {rows | rows ∈ published digest (.start parts) moves})
    (held : List (ι × J)) (hHeld : (fun id => Entries.get id held) ∈ published digest (.start parts) moves)
    (delta : BeadsDelta ι J δ)
    (hDelta : compose_deltas (moves.foldl (Server.step digest) (.start parts)).beadDeltas
      (digest (.beads fun id => Entries.get id held))
      ((moves.foldl (Server.step digest) (.start parts)).beadsHash digest) = some delta) (id : ι) :
    Entries.get id (delta.patch.apply held) =
      Entries.get id (moves.foldl (Server.step digest) (.start parts)).parts.beads := by
  have hFirst : (Server.start parts : Server ι J δ).rows ∈ published digest (.start parts) moves := by
    cases moves <;> exact List.mem_cons_self ..
  have hSound := (Server.start_sound digest hFirst).run fun rows hRows => hRows
  obtain ⟨hSince, hHash, was, hWas, hFrom, hThere, hTo⟩ := compose_deltas_sound hDigest hSound.deltas hHeld hDelta
  have hSame := hDigest hWas hHeld (hFrom.trans hSince)
  have hNow := hDigest hThere hSound.rows (hTo.trans hHash)
  rw [Patch.get_apply, ← hSame, hNow]
  rfl

/-- A digest of beads with two ids, and a compute that has nothing else. -/
def pairDigest : Part Bool ℕ → Option ℕ × Option ℕ
  | .beads rows => (rows false, rows true)
  | _ => (none, none)

theorem pairDigest_injective : Function.Injective fun rows => pairDigest (.beads rows) := by
  intro a b h
  obtain ⟨hFalse, hTrue⟩ := Prod.mk.inj (show (a false, a true) = (b false, b true) from h)
  funext id
  cases id
  · exact hFalse
  · exact hTrue

def pairParts (a b : Option ℕ) : Parts Bool ℕ where
  head := 0
  fuel := 0
  threads := []
  beads := a.toList.map (false, ·) ++ b.toList.map (true, ·)
  topics := []
  unthreaded := []
  distinct := by cases a <;> cases b <;> simp

/-- Beads with an id more, without it again, then with another; a reader of the first
change is behind by two. -/
theorem deltas_compose_revisit :
    ∃ delta, compose_deltas (([Move.recompute (pairParts (some 1) none), .recompute (pairParts none none),
        .recompute (pairParts none (some 2))].foldl (Server.step pairDigest) (.start (pairParts none none))).beadDeltas)
        (some 1, none) (none, some 2) = some delta ∧
      ∀ id, Entries.get id (delta.patch.apply [(false, 1)]) = Entries.get id [(true, 2)] := by
  have hSome : (compose_deltas (([Move.recompute (pairParts (some 1) none), .recompute (pairParts none none),
      .recompute (pairParts none (some 2))].foldl (Server.step pairDigest) (.start (pairParts none none))).beadDeltas)
      (some 1, none) (none, some 2)).isSome = true := by decide +kernel
  obtain ⟨delta, hDelta⟩ := Option.isSome_iff_exists.mp hSome
  exact ⟨delta, hDelta, deltas_compose (pairParts none none) _ pairDigest_injective.injOn [(false, 1)] (by decide +kernel)
    delta hDelta⟩

end Brnrd.Board
