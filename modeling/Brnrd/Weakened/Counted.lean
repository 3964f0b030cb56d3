import Brnrd.Weakened.Weakened

/-! Every weakening of a hunk is counted once: in an entry of its own, or in the entry of
the deletion whose run of removed lines it stands in. -/
namespace Brnrd.Weakened

open Python

/-- An entry, and the assertions folded into it. -/
inductive Entry where
  | drops (line : Text)
  | loosens (line loosened : Text)
  | deletes (name : Text) (folded : ℕ)
  | skips (line : Text)

def Entry.what : Entry → Text
  | .drops line => "drops ".toList ++ quoted line
  | .loosens line loosened => "loosens ".toList ++ quoted line ++ " to ".toList ++ quoted loosened
  | .deletes name folded => "deletes ".toList ++ name ++ foldWords folded
  | .skips line => "skips with ".toList ++ quoted line

/-- How many weakenings an entry counts. -/
def Entry.size : Entry → ℕ
  | .deletes _ folded => 1 + folded
  | _ => 1

/-- The entry as `found` holds it. -/
def Entry.text (path : Text) (entry : Entry) : Text :=
  path ++ nul :: entry.what

variable (alphabet : Alphabet) (added removed : List Text)

/-- A removed definition of a test that no test file adds back. -/
def deletion (changed : Line) : Option Text :=
  if changed.1 = '-' ∧ strip changed.2 ∉ added then testDef alphabet (strip changed.2) else none

/-- A removed assertion that no test file adds back. -/
def Dropped (changed : Line) : Prop :=
  changed.1 = '-' ∧ strip changed.2 ∉ added ∧ testDef alphabet (strip changed.2) = none ∧
    isAssert alphabet (strip changed.2) = true

instance (changed : Line) : Decidable (Dropped alphabet added changed) :=
  inferInstanceAs (Decidable (_ ∧ _))

/-- An added skip that no test file removes. -/
def Skipped (changed : Line) : Prop :=
  changed.1 = '+' ∧ isSkip alphabet (strip changed.2) = true ∧ strip changed.2 ∉ removed

instance (changed : Line) : Decidable (Skipped alphabet removed changed) :=
  inferInstanceAs (Decidable (_ ∧ _))

/-- The changed lines that weaken a test. -/
def Weakening (changed : Line) : Prop :=
  (deletion alphabet added changed).isSome = true ∨ Dropped alphabet added changed ∨ Skipped alphabet removed changed

instance (changed : Line) : Decidable (Weakening alphabet added removed changed) :=
  inferInstanceAs (Decidable (_ ∨ _))

/-- Where the run of a deletion ends: at the end of the hunk, at a line that is not
removed, or at the next deletion. -/
def RunEnds : Hunk → Prop
  | [] => True
  | changed :: _ => changed.1 ≠ '-' ∨ (deletion alphabet added changed).isSome = true

/-- The entries count each weakening of a hunk once: a deletion with the assertions that
are removed in its run, an assertion outside every run, and a skip. -/
inductive Counted (loose : List Text) : Hunk → List Entry → Prop where
  | nil : Counted loose [] []
  | quiet {changed : Line} {rest : Hunk} {entries : List Entry} (hQuiet : ¬ Weakening alphabet added removed changed)
      (hRest : Counted loose rest entries) : Counted loose (changed :: rest) entries
  | drops {changed : Line} {rest : Hunk} {entries : List Entry} (hDropped : Dropped alphabet added changed)
      (hRest : Counted loose rest entries) : Counted loose (changed :: rest) (.drops (strip changed.2) :: entries)
  | loosens {changed : Line} {rest : Hunk} {entries : List Entry} {loosened : Text}
      (hDropped : Dropped alphabet added changed) (hLoose : loosened ∈ loose) (hRest : Counted loose rest entries) :
      Counted loose (changed :: rest) (.loosens (strip changed.2) loosened :: entries)
  | skips {changed : Line} {rest : Hunk} {entries : List Entry} (hSkipped : Skipped alphabet removed changed)
      (hRest : Counted loose rest entries) : Counted loose (changed :: rest) (.skips (strip changed.2) :: entries)
  | deletes {changed : Line} {run rest : Hunk} {entries : List Entry} {name : Text}
      (hDeletion : deletion alphabet added changed = some name)
      (hRun : ∀ line ∈ run, line.1 = '-' ∧ deletion alphabet added line = none) (hEnds : RunEnds alphabet added rest)
      (hRest : Counted loose rest entries) :
      Counted loose (changed :: (run ++ rest))
        (.deletes name (run.countP fun line => Dropped alphabet added line) :: entries)

variable {alphabet added removed}

theorem not_skipped_of_removed {changed : Line} (h : changed.1 = '-') : ¬ Skipped alphabet removed changed :=
  fun hSkipped => absurd (h.symm.trans hSkipped.1) (by decide)

/-- The sizes of the entries come to the number of weakenings. -/
theorem Counted.total {loose : List Text} {hunk : Hunk} {entries : List Entry}
    (h : Counted alphabet added removed loose hunk entries) :
    (entries.map Entry.size).sum = hunk.countP fun line => Weakening alphabet added removed line := by
  induction h with
  | nil => rfl
  | quiet hQuiet _ ih => rw [ih, List.countP_cons_of_neg (by simpa using hQuiet)]
  | drops hDropped _ ih =>
      rw [List.countP_cons_of_pos (by simpa using .inr (.inl hDropped)), List.map_cons, List.sum_cons, ih]
      exact Nat.add_comm 1 _
  | loosens hDropped _ _ ih =>
      rw [List.countP_cons_of_pos (by simpa using .inr (.inl hDropped)), List.map_cons, List.sum_cons, ih]
      exact Nat.add_comm 1 _
  | skips hSkipped _ ih =>
      rw [List.countP_cons_of_pos (by simpa using .inr (.inr hSkipped)), List.map_cons, List.sum_cons, ih]
      exact Nat.add_comm 1 _
  | @deletes changed run rest entries name hDeletion hRun _ _ ih =>
      have hSame : run.countP (fun line => Weakening alphabet added removed line) =
          run.countP fun line => Dropped alphabet added line := by
        refine List.countP_congr fun line hLine => ?_
        obtain ⟨hSign, hNone⟩ := hRun line hLine
        simp [Weakening, hNone, not_skipped_of_removed hSign]
      rw [List.countP_cons_of_pos (by simp [Weakening, hDeletion]), List.countP_append, hSame, List.map_cons,
        List.sum_cons, ih, Entry.size]
      omega

variable {path : Text} {s : Scan} {changed : Line} {loose : List Text}

end Brnrd.Weakened
