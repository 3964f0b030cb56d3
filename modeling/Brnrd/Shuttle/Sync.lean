import Brnrd.Facts.Succeeds
import Brnrd.Shuttle.Shuttle

/-! What a sync makes of a peer's folder, which a crash may have left in the
middle of an earlier write. -/
namespace Brnrd.Shuttle

open Ledger

theorem ofDigitChars_zeros (count : Nat) (digits : List Char) (n : Nat) :
    Nat.ofDigitChars 10 (List.replicate count '0' ++ digits) 0 = n ↔ Nat.ofDigitChars 10 digits 0 = n := by
  induction count with
  | zero => rfl
  | succ count ih => simpa [List.replicate_succ, Nat.ofDigitChars] using ih

theorem segmentFile_injective : Function.Injective segmentFile := by
  intro n m h
  have hDigits : (Nat.toDigits 10 n).leftpad 4 '0' = (Nat.toDigits 10 m).leftpad 4 '0' := by
    have hText := congrArg String.toList h
    simp only [segmentFile, String.toList_append, String.toList_ofList] at hText
    exact List.append_cancel_left (List.append_cancel_right hText)
  have hValue : ∀ k : Nat, Nat.ofDigitChars 10 ((Nat.toDigits 10 k).leftpad 4 '0') 0 = k := by
    intro k
    exact (ofDigitChars_zeros _ _ _).mpr (Nat.ofDigitChars_toDigits (by decide) (by decide))
  rw [← hValue n, hDigits, hValue m]

theorem Strand.file_injective : Function.Injective Strand.file := by
  intro a b h
  have hText := congrArg String.toList h
  simp only [Strand.file, String.toList_append] at hText
  have hId : a.id = b.id := String.toList_injective (List.append_cancel_right hText)
  cases a
  cases b
  simpa using hId

/-- No strand's file is taken for a segment of the loom's. -/
theorem segmentFile_ne (n : Nat) (strand : Strand) : segmentFile n ≠ strand.file := by
  intro h
  obtain ⟨rest, hRest⟩ := strand.hMinted
  have hText := congrArg String.toList h
  simp only [segmentFile, Strand.file, String.toList_append, ← hRest] at hText
  have hHead := congrArg List.head? hText
  simp at hHead

theorem isStreamName_of_toList {name : String} (stem : List Char) (hName : name.toList = stem ++ ".jsonl".toList)
    (hFlat : '/' ∉ stem) : isStreamName name = true := by
  have hExtension : '/' ∉ ".jsonl".toList := by decide
  simp only [isStreamName, Bool.and_eq_true, Bool.not_eq_true', List.contains_eq_mem, decide_eq_false_iff_not,
    List.isSuffixOf_iff_suffix]
  rw [hName]
  exact ⟨fun h => (List.mem_append.mp h).elim hFlat hExtension, List.suffix_append _ _⟩

theorem isStreamName_segment (n : Nat) : isStreamName (segmentFile n) = true := by
  refine isStreamName_of_toList ("loom.".toList ++ (Nat.toDigits 10 n).leftpad 4 '0') ?_ ?_
  · simp [segmentFile]
  · intro h
    rcases List.mem_append.mp h with h | h
    · revert h
      decide
    · rcases List.mem_append.mp h with h | h
      · exact absurd (List.eq_of_mem_replicate h) (by decide)
      · exact absurd (Nat.isDigit_of_mem_toDigits (by decide) (by decide) h) (by decide)

theorem isStreamName_strand (strand : Strand) : isStreamName strand.file = true :=
  isStreamName_of_toList strand.id.toList (by simp [Strand.file]) strand.hFlat

/-- The names of a tree are those of different files, each of which `_write` takes. -/
structure Tree.Named (tree : Tree) : Prop where
  distinct : (tree.map Prod.fst).Nodup
  taken : ∀ e ∈ tree, isStreamName e.1 = true

theorem named_names (pieces : List Bytes) : (named pieces).map Prod.fst = (List.range pieces.length).map segmentFile := by
  simp only [named, List.map_map]
  rw [List.range_eq_range', ← List.zipIdx_map_snd 0 pieces, List.map_map]
  rfl

theorem treeOf_named {size : ℕ+} {files : Snapshot} (h : (files.strands.map Prod.fst).Nodup) :
    Tree.Named (treeOf size files) := by
  have hStrands : (files.strands.map fun e => (e.1.file, complete e.2)).map Prod.fst =
      (files.strands.map Prod.fst).map Strand.file := by
    simp
  constructor
  · rw [treeOf, List.map_append, named_names, hStrands]
    refine List.nodup_append.mpr ⟨List.nodup_range.map segmentFile_injective, h.map Strand.file_injective, ?_⟩
    intro name hName other hOther hSame
    obtain ⟨n, -, rfl⟩ := List.mem_map.mp hName
    obtain ⟨strand, -, rfl⟩ := List.mem_map.mp hOther
    exact segmentFile_ne n strand hSame
  · intro e he
    rcases List.mem_append.mp he with he | he
    · obtain ⟨piece, -, rfl⟩ := List.mem_map.mp he
      exact isStreamName_segment _
    · obtain ⟨strand, -, rfl⟩ := List.mem_map.mp he
      exact isStreamName_strand _

/-- A folder whose every file begins one of the tree's. -/
def Folder.Begins (folder : Folder) (tree : Tree) : Prop :=
  ∀ name raw, folder.lookup name = some raw → ∃ whole, (name, whole) ∈ tree ∧ raw <+: whole

variable {folder : Folder}

/-- One entry, written over any beginning of it. -/
theorem Folder.lookup_writeEntry {entry : String × Bytes} (hName : isStreamName entry.1 = true)
    (hBegins : ∀ raw, folder.lookup entry.1 = some raw → raw <+: entry.2) (name : String) :
    (folder.writeEntry entry).lookup name = if name = entry.1 then some entry.2 else folder.lookup name := by
  unfold Folder.writeEntry
  rw [hName, if_neg (by simp)]
  by_cases hSame : name = entry.1
  · subst hSame
    rw [if_pos rfl]
    split
    · exact AList.lookup_insert _
    · rename_i found hFound
      obtain ⟨rest, hRest⟩ := hBegins found hFound
      split
      · rename_i hEq
        rw [hFound, hEq]
      · have hPrefix : found.isPrefixOf entry.2 = true := List.isPrefixOf_iff_prefix.mpr ⟨rest, hRest⟩
        rw [if_pos hPrefix, AList.lookup_insert, ← hRest, List.drop_left]
  · rw [if_neg hSame]
    split
    · exact AList.lookup_insert_ne hSame
    · split
      · rfl
      · split
        · exact AList.lookup_insert_ne hSame
        · exact AList.lookup_insert_ne hSame

variable {tree : Tree}

/-- A tree written over beginnings of its files: its names hold its blobs, and no
other name is touched. -/
theorem Folder.lookup_write (hNamed : tree.Named) (hBegins : ∀ e ∈ tree, ∀ raw, folder.lookup e.1 = some raw → raw <+: e.2) :
    (∀ e ∈ tree, (folder.write tree).lookup e.1 = some e.2) ∧
      ∀ name, name ∉ tree.map Prod.fst → (folder.write tree).lookup name = folder.lookup name := by
  induction tree generalizing folder with
  | nil => exact ⟨fun e he => absurd he List.not_mem_nil, fun name _ => rfl⟩
  | cons e tree ih =>
      obtain ⟨hFresh, hDistinct⟩ := List.nodup_cons.mp hNamed.distinct
      have hEntry := Folder.lookup_writeEntry (hNamed.taken e List.mem_cons_self) (hBegins e List.mem_cons_self)
      have hOther : ∀ e' ∈ tree, e'.1 ≠ e.1 := fun e' he' hSame => hFresh (hSame ▸ List.mem_map_of_mem he')
      have hRest : ∀ e' ∈ tree, ∀ raw, (folder.writeEntry e).lookup e'.1 = some raw → raw <+: e'.2 := by
        intro e' he' raw hRaw
        rw [hEntry, if_neg (hOther e' he')] at hRaw
        exact hBegins e' (List.mem_cons_of_mem _ he') raw hRaw
      obtain ⟨hIn, hOut⟩ := ih ⟨hDistinct, fun e' he' => hNamed.taken e' (List.mem_cons_of_mem _ he')⟩ hRest
      constructor
      · intro e' he'
        rcases List.mem_cons.mp he' with rfl | he'
        · exact (hOut e'.1 hFresh).trans (by rw [hEntry, if_pos rfl])
        · exact hIn e' he'
      · intro name hName
        rw [List.map_cons, List.mem_cons, not_or] at hName
        exact (hOut name hName.2).trans (by rw [hEntry, if_neg hName.1])

theorem Tree.Named.unique (h : tree.Named) {name : String} {a b : Bytes} (ha : (name, a) ∈ tree) (hb : (name, b) ∈ tree) :
    a = b :=
  congrArg Prod.snd (List.inj_on_of_nodup_map h.distinct ha hb rfl)

theorem Folder.Begins.entry (h : folder.Begins tree) (hNamed : tree.Named) {e : String × Bytes} (he : e ∈ tree)
    {raw : Bytes} (hRaw : folder.lookup e.1 = some raw) : raw <+: e.2 := by
  obtain ⟨whole, hWhole, hBegins⟩ := h e.1 raw hRaw
  exact hNamed.unique hWhole he ▸ hBegins

/-- A completed write leaves exactly the tree. -/
theorem Folder.Begins.write (h : folder.Begins tree) (hNamed : tree.Named) (name : String) (raw : Bytes) :
    (folder.write tree).lookup name = some raw ↔ (name, raw) ∈ tree := by
  obtain ⟨hIn, hOut⟩ := Folder.lookup_write hNamed fun e he raw hRaw => h.entry hNamed he hRaw
  constructor
  · intro hRaw
    by_cases hName : name ∈ tree.map Prod.fst
    · obtain ⟨e, he, rfl⟩ := List.mem_map.mp hName
      rw [hIn e he] at hRaw
      exact Option.some.inj hRaw ▸ he
    · rw [hOut name hName] at hRaw
      obtain ⟨whole, hWhole, -⟩ := h name raw hRaw
      exact absurd (List.mem_map_of_mem hWhole) hName
  · exact fun hMem => hIn _ hMem

/-- A write that a crash cut off leaves beginnings of the tree's files. -/
theorem Folder.Begins.crash {written rest : Tree} (h : folder.Begins (written ++ rest))
    (hNamed : Tree.Named (written ++ rest)) (count : Nat) :
    ((folder.write written).torn count rest).Begins (written ++ rest) := by
  have hWritten : Tree.Named written := by
    refine ⟨?_, fun e he => hNamed.taken e (List.mem_append_left _ he)⟩
    have hDistinct := hNamed.distinct
    rw [List.map_append] at hDistinct
    exact hDistinct.of_append_left
  obtain ⟨hIn, hOut⟩ := Folder.lookup_write hWritten fun e he raw hRaw =>
    h.entry hNamed (List.mem_append_left _ he) hRaw
  have hBegins : (folder.write written).Begins (written ++ rest) := by
    intro name raw hRaw
    by_cases hName : name ∈ written.map Prod.fst
    · obtain ⟨e, he, rfl⟩ := List.mem_map.mp hName
      rw [hIn e he] at hRaw
      obtain rfl := Option.some.inj hRaw
      exact ⟨e.2, List.mem_append_left _ he, List.prefix_refl _⟩
    · rw [hOut name hName] at hRaw
      exact h name raw hRaw
  cases rest with
  | nil => exact hBegins
  | cons entry rest =>
      have hEntry : entry ∈ written ++ entry :: rest := by simp
      simp only [Folder.torn, Folder.tornEntry]
      split
      · exact hBegins
      split
      · exact hBegins
      rename_i found hFound
      split
      · obtain ⟨tail, hTail⟩ := hBegins.entry hNamed hEntry hFound
        intro name raw hRaw
        by_cases hSame : name = entry.1
        · subst hSame
          rw [AList.lookup_insert] at hRaw
          obtain rfl := Option.some.inj hRaw
          refine ⟨entry.2, hEntry, ?_⟩
          rw [← hTail, List.drop_left, List.prefix_append_right_inj]
          exact List.take_prefix _ _
        · rw [AList.lookup_insert_ne hSame] at hRaw
          exact hBegins name raw hRaw
      · exact hBegins

end Brnrd.Shuttle

/-! Runs of an install's writes and packs and of a peer's syncs and crashes: a
completed sync leaves the facts the install had at the commit. -/
namespace Brnrd.Shuttle

open Python Facts Ledger

/-- Two readings of the same facts, in some orders, or two that raise. -/
def SameFacts (a b : Option (List Fact)) : Prop :=
  (a = none ∧ b = none) ∨ ∃ x y, a = some x ∧ b = some y ∧ x.Perm y

theorem SameFacts.refl (a : Option (List Fact)) : SameFacts a a := by
  cases a with
  | none => exact .inl ⟨rfl, rfl⟩
  | some x => exact .inr ⟨x, x, rfl, rfl, List.Perm.refl _⟩

theorem SameFacts.trans {a b c : Option (List Fact)} (h : SameFacts a b) (h' : SameFacts b c) : SameFacts a c := by
  rcases h with ⟨rfl, rfl⟩ | ⟨x, y, rfl, rfl, hPerm⟩
  · rcases h' with ⟨-, rfl⟩ | ⟨y, z, hNone, -, -⟩
    · exact .inl ⟨rfl, rfl⟩
    · cases hNone
  · rcases h' with ⟨hNone, -⟩ | ⟨y', z, hSame, rfl, hPerm'⟩
    · cases hNone
    · obtain rfl := Option.some.inj hSame
      exact .inr ⟨x, z, rfl, rfl, hPerm.trans hPerm'⟩

/-- Another reading before each of two that agree. -/
theorem SameFacts.cons {a b : Option (List Fact)} (h : SameFacts a b) (first : Option (List Fact)) :
    SameFacts (first.bind fun x => a.map (x ++ ·)) (first.bind fun x => b.map (x ++ ·)) := by
  cases first with
  | none => exact .inl ⟨rfl, rfl⟩
  | some x =>
      rcases h with ⟨rfl, rfl⟩ | ⟨y, z, rfl, rfl, hPerm⟩
      · exact .inl ⟨rfl, rfl⟩
      · exact .inr ⟨x ++ y, x ++ z, rfl, rfl, hPerm.append_left x⟩

section Files

variable {host : Host}

end Files

end Brnrd.Shuttle
