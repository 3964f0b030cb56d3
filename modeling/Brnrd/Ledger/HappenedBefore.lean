import Brnrd.Facts.Union
import Brnrd.Ledger.Writer

/-! Runs in which installs append and exchange streams. A union keeps a writer's
order as long as no stamp falls below what its writer had read. -/
namespace Brnrd.Ledger

open Python Facts

/-- An install: its own folder, and the facts of other installs' folders that
have reached it. -/
structure Install where
  folder : Folder
  peers : List Fact

/-- The facts an install's ledger unions. -/
def Install.ledger (s : Install) : List Fact :=
  s.folder.own ++ s.peers

/-- The installs of one home. `log` is not part of the program: it keeps, for
each fact written, what its writer's ledger held at that moment. -/
structure Installs where
  state : String → Install
  log : List (Fact × List Fact)

def Installs.empty : Installs :=
  ⟨fun _ => ⟨Folder.empty, []⟩, []⟩

/-- Some install has written the fact. -/
def Installs.Written (s : Installs) (fact : Fact) : Prop :=
  ∃ install, fact ∈ (s.state install).folder.own

/-- The state after `install` appended and its folder became `folder`. -/
def Installs.wrote (s : Installs) (install : String) (folder : Folder) (stored : Fact) : Installs where
  state := Function.update s.state install { s.state install with folder := folder }
  log := if folder.own = (s.state install).folder.own then s.log
    else (stored, (s.state install).ledger) :: s.log

def Installs.received (s : Installs) (install : String) (facts : List Fact) : Installs where
  state := Function.update s.state install
    { s.state install with peers := (s.state install).peers ++ facts }
  log := s.log

/-- What a step of a run does: an install appends at some reading of its wall
clock, or facts that were written somewhere reach an install. -/
inductive Event where
  | append (install : String) (now : Int) (fact : Fact)
  | deliver (install : String) (facts : List Fact)

inductive Step : Installs → Event → Installs → Prop
  | append {s : Installs} {install : String} {now : Int} {fact stored : Fact} {folder : Folder}
      (h : append now install (s.state install).folder fact = .ok (folder, stored)) :
      Step s (.append install now fact) (s.wrote install folder stored)
  | deliver {s : Installs} {install : String} {facts : List Fact}
      (h : ∀ f ∈ facts, s.Written f) :
      Step s (.deliver install facts) (s.received install facts)

/-- A run whose steps all meet `allowed` in the state they start from. -/
def Run (allowed : Installs → Event → Prop) : Installs → Prop :=
  Relation.ReflTransGen (fun s s' => ∃ event, allowed s event ∧ Step s event s') Installs.empty

/-- `a` is below the stamp `fact` brings. A fact that brings none is stamped
with the clock's reading, or right above the writer's own newest stamp where
the clock has not passed it. -/
def Ahead (own : List Fact) (install : String) (now : Int) (fact : Fact) (a : Hlc) : Prop :=
  match fact.hlc with
  | some stamp => a < stamp
  | none => if (lastStamp install own).1 < now then a < ⟨now, 0, install⟩
      else a < ⟨(lastStamp install own).1, (lastStamp install own).2 + 1, install⟩

def Behind (own : List Fact) (install : String) (now : Int) (fact : Fact) (a : Hlc) : Prop :=
  match fact.hlc with
  | some stamp => stamp < a
  | none => if (lastStamp install own).1 < now then ⟨now, 0, install⟩ < a
      else ⟨(lastStamp install own).1, (lastStamp install own).2 + 1, install⟩ < a

/-- A fact that is new to its writer's folder is stamped above every fact that
the writer's ledger holds, and along every `after` edge between it and a fact
written before. -/
def InOrder (s : Installs) : Event → Prop
  | .deliver _ _ => True
  | .append install now fact =>
      let own := (s.state install).folder.own
      (∀ g ∈ own, g.id ≠ fact.id) →
        (∀ g ∈ (s.state install).ledger, ∀ a, g.hlc = some a → Ahead own install now fact a) ∧
        ∀ g, s.Written g → ∀ a, g.hlc = some a →
          (g.id ∈ fact.after → Ahead own install now fact a) ∧
          (fact.id ∈ g.after → Behind own install now fact a)

theorem stamp_of_describes {index : WriterIndex} {own : List Fact} (h : index.Describes own)
    (install : String) (now : Int) (fact : Fact) (a : Hlc) :
    (Ahead own install now fact a ↔ a < fact.hlc.getD (index.nextHlc now install)) ∧
    (Behind own install now fact a ↔ fact.hlc.getD (index.nextHlc now install) < a) := by
  unfold Ahead Behind WriterIndex.nextHlc
  rw [h.clock install]
  cases fact.hlc with
  | some stamp => exact ⟨Iff.rfl, Iff.rfl⟩
  | none => by_cases hNow : (lastStamp install own).1 < now <;> simp [hNow]

/-- What a run of in-order steps has made. -/
structure Installs.Consistent (s : Installs) : Prop where
  folders : ∀ install, (s.state install).folder.InStep
  peers : ∀ install, ∀ f ∈ (s.state install).peers, s.Written f
  stamped : ∀ f, s.Written f → ∃ a, f.hlc = some a
  edges : ∀ f g, s.Written f → s.Written g → g.id ∈ f.after → f = g ∨ Below g f
  log : ∀ entry ∈ s.log, s.Written entry.1 ∧ ∀ g ∈ entry.2, s.Written g ∧ Below g entry.1

theorem Installs.Consistent.empty : Installs.empty.Consistent where
  folders := fun _ => ⟨[], [], rfl, ⟨rfl, fun _ => rfl, by simp [Installs.empty, Folder.empty],
    by simp⟩⟩
  peers := by simp [Installs.empty]
  stamped := by simp [Installs.Written, Installs.empty, Folder.empty]
  edges := by simp [Installs.Written, Installs.empty, Folder.empty]
  log := by simp [Installs.empty]

variable {install : String} {s : Installs}

theorem Installs.Consistent.ledger (h : s.Consistent) {f : Fact} (hf : f ∈ (s.state install).ledger) : s.Written f := by
  rcases List.mem_append.mp hf with hf | hf
  · exact ⟨install, hf⟩
  · exact h.peers install f hf

theorem Installs.written_received {facts : List Fact} (f : Fact) : (s.received install facts).Written f ↔ s.Written f := by
  have hOwn : ∀ i, ((s.received install facts).state i).folder = (s.state i).folder := by
    intro i
    by_cases hi : i = install
    · subst hi
      simp [Installs.received]
    · simp [Installs.received, hi]
  simp [Installs.Written, hOwn]

theorem Installs.Consistent.received (h : s.Consistent) {facts : List Fact} (hFacts : ∀ f ∈ facts, s.Written f) :
    (s.received install facts).Consistent := by
  refine ⟨fun i => ?_, fun i f hf => ?_, fun f hf => ?_, fun f g hf hg => ?_, fun entry he => ?_⟩
  · by_cases hi : i = install
    · subst hi
      simpa [Installs.received] using h.folders i
    · simpa [Installs.received, hi] using h.folders i
  · rw [Installs.written_received]
    by_cases hi : i = install
    · subst hi
      simp only [Installs.received, Function.update_self, List.mem_append] at hf
      exact hf.elim (h.peers i f) (hFacts f)
    · simp only [Installs.received, Function.update_of_ne hi] at hf
      exact h.peers i f hf
  · exact h.stamped f ((Installs.written_received f).mp hf)
  · exact h.edges f g ((Installs.written_received f).mp hf) ((Installs.written_received g).mp hg)
  · obtain ⟨hMem, hSeen⟩ := h.log entry he
    exact ⟨(Installs.written_received _).mpr hMem,
      fun g hg => ⟨(Installs.written_received g).mpr (hSeen g hg).1, (hSeen g hg).2⟩⟩

variable {folder : Folder}

/-- A writer's folder grew by `stored`, or by nothing. -/
theorem Installs.written_wrote (stored : Fact) (extra : List Fact)
    (hOwn : folder.own = (s.state install).folder.own ++ extra) (f : Fact) :
    (s.wrote install folder stored).Written f ↔ s.Written f ∨ f ∈ extra := by
  constructor
  · rintro ⟨i, hf⟩
    by_cases hi : i = install
    · subst hi
      simp only [Installs.wrote, Function.update_self, hOwn, List.mem_append] at hf
      exact hf.imp (fun hf => ⟨i, hf⟩) id
    · simp only [Installs.wrote, Function.update_of_ne hi] at hf
      exact .inl ⟨i, hf⟩
  · rintro (⟨i, hf⟩ | hf)
    · refine ⟨i, ?_⟩
      by_cases hi : i = install
      · subst hi
        simp [Installs.wrote, hOwn, hf]
      · simpa [Installs.wrote, hi] using hf
    · exact ⟨install, by simp [Installs.wrote, hOwn, hf]⟩

theorem Installs.peers_wrote {stored : Fact} (i : String) :
    ((s.wrote install folder stored).state i).peers = (s.state i).peers := by
  by_cases hi : i = install
  · subst hi
    simp [Installs.wrote]
  · simp [Installs.wrote, hi]

theorem Installs.inStep_wrote (h : ∀ i, (s.state i).folder.InStep) {stored : Fact} (hFolder : folder.InStep) (i : String) :
    ((s.wrote install folder stored).state i).folder.InStep := by
  by_cases hi : i = install
  · subst hi
    simpa [Installs.wrote] using hFolder
  · simpa [Installs.wrote, hi] using h i

/-- One in-order append. -/
theorem Installs.Consistent.wrote (h : s.Consistent) {now : Int} {fact stored : Fact}
    (hInOrder : InOrder s (.append install now fact))
    (hAppend : append now install (s.state install).folder fact = .ok (folder, stored)) :
    (s.wrote install folder stored).Consistent := by
  obtain ⟨hFolder, ⟨hOwn, -, -⟩ | ⟨hOwn, hNew, index, hIndex, hStored⟩⟩ :=
    append_cases (h.folders install) hAppend
  · have hSame : ∀ f, (s.wrote install folder stored).Written f ↔ s.Written f := by
      intro f
      rw [Installs.written_wrote stored [] (by simpa using hOwn)]
      simp
    refine ⟨Installs.inStep_wrote h.folders hFolder, fun i f hf => ?_, fun f hf => ?_,
      fun f g hf hg => ?_, fun entry he => ?_⟩
    · rw [Installs.peers_wrote] at hf
      exact (hSame f).mpr (h.peers i f hf)
    · exact h.stamped f ((hSame f).mp hf)
    · exact h.edges f g ((hSame f).mp hf) ((hSame g).mp hg)
    · simp only [Installs.wrote, hOwn, if_true] at he
      obtain ⟨hMem, hSeen⟩ := h.log entry he
      exact ⟨(hSame _).mpr hMem, fun g hg => ⟨(hSame g).mpr (hSeen g hg).1, (hSeen g hg).2⟩⟩
  · have hWritten := Installs.written_wrote stored [stored] hOwn
    simp only [List.mem_singleton] at hWritten
    obtain ⟨hHeld, hEdges⟩ := hInOrder hNew
    have hStamp : stored.hlc = some (fact.hlc.getD (index.nextHlc now install)) := by rw [hStored]
    have hAfter : stored.after = fact.after := by rw [hStored]
    have hId : stored.id = fact.id := by rw [hStored]
    have hBelow : ∀ g a, g.hlc = some a →
        Ahead (s.state install).folder.own install now fact a → Below g stored := fun g a ha hAhead =>
      ⟨a, _, ha, hStamp, (stamp_of_describes hIndex install now fact a).1.mp hAhead⟩
    refine ⟨Installs.inStep_wrote h.folders hFolder, fun i f hf => ?_, fun f hf => ?_,
      fun f g hf hg hNamed => ?_, fun entry he => ?_⟩
    · rw [Installs.peers_wrote] at hf
      exact (hWritten f).mpr (Or.inl (h.peers i f hf))
    · rcases (hWritten f).mp hf with hf | rfl
      · exact h.stamped f hf
      · exact ⟨_, hStamp⟩
    · rcases (hWritten f).mp hf with hf' | rfl <;> rcases (hWritten g).mp hg with hg' | rfl
      · exact h.edges f g hf' hg' hNamed
      · obtain ⟨a, ha⟩ := h.stamped f hf'
        have hBehind := (hEdges f hf' a ha).2 (hId ▸ hNamed)
        exact .inr ⟨_, a, hStamp, ha, (stamp_of_describes hIndex install now fact a).2.mp hBehind⟩
      · obtain ⟨a, ha⟩ := h.stamped g hg'
        exact .inr (hBelow g a ha ((hEdges g hg' a ha).1 (hAfter ▸ hNamed)))
      · exact .inl rfl
    · have hGrew : folder.own ≠ (s.state install).folder.own := by simp [hOwn]
      simp only [Installs.wrote, hGrew, if_false] at he
      rcases List.mem_cons.mp he with rfl | he
      · refine ⟨(hWritten stored).mpr (Or.inr rfl), fun g hg => ?_⟩
        have hgWritten := h.ledger hg
        obtain ⟨a, ha⟩ := h.stamped g hgWritten
        exact ⟨(hWritten g).mpr (Or.inl hgWritten), hBelow g a ha (hHeld g hg a ha)⟩
      · obtain ⟨hMem, hSeen⟩ := h.log entry he
        exact ⟨(hWritten _).mpr (Or.inl hMem),
          fun g hg => ⟨(hWritten g).mpr (Or.inl (hSeen g hg).1), (hSeen g hg).2⟩⟩

theorem Run.consistent (h : Run InOrder s) : s.Consistent := by
  induction h with
  | refl => exact Installs.Consistent.empty
  | tail _ hStep ih =>
      obtain ⟨event, hInOrder, hStep⟩ := hStep
      cases hStep with
      | append hAppend => exact ih.wrote hInOrder hAppend
      | deliver hFacts => exact ih.received hFacts

/-- In a run of in-order appends, every union of facts written in it puts a
fact behind all that its writer's ledger held when it was written. -/
theorem happened_before_ordered (host : Host) {s : Installs} (hRun : Run InOrder s)
    {fact g : Fact} {seen : List Fact} (hLog : (fact, seen) ∈ s.log) (hSeen : g ∈ seen)
    {streams : List (List Fact)} {l : List Fact} (hHeld : ∀ st ∈ streams, ∀ f ∈ st, s.Written f)
    (hUnion : union host streams = .ok l) (hFact : fact ∈ l) (hg : g ∈ l) :
    ∃ first second, l = first ++ fact :: second ∧ g ∈ first := by
  have hConsistent := hRun.consistent
  have hLedger := union_ledger hUnion
  have hWritten : ∀ f ∈ l, s.Written f := by
    intro f hf
    obtain ⟨st, hst, hfst⟩ := List.mem_flatten.mp ((hLedger.mem f).mp hf).1
    exact hHeld st hst f hfst
  have hSorted := hLedger.ordered.sorted (by
    intro x hx y hy hxy
    rcases hConsistent.edges y x (hWritten y hy) (hWritten x hx) hxy with rfl | hBelow
    · obtain ⟨first, second, rfl⟩ := List.append_of_mem hx
      exact absurd hxy (hLedger.ordered.not_before List.mem_cons_self)
    · exact hBelow.orderKey_lt host)
  have hBelow := ((hConsistent.log _ hLog).2 g hSeen).2.orderKey_lt host
  obtain ⟨first, second, rfl⟩ := List.append_of_mem hFact
  refine ⟨first, second, rfl, ?_⟩
  rcases List.mem_append.mp hg with hg | hg
  · exact hg
  · rcases List.mem_cons.mp hg with rfl | hg
    · exact absurd hBelow (lt_irrefl _)
    · have hLater := List.rel_of_pairwise_cons (List.pairwise_append.mp hSorted).2.1 hg
      exact absurd hBelow (lt_asymm hLater)

theorem Run.step {allowed : Installs → Event → Prop} {s' : Installs} (h : Run allowed s) (event : Event)
    (hAllowed : allowed s event) (hStep : Step s event s') : Run allowed s' :=
  h.tail ⟨event, hAllowed, hStep⟩

def personNote (ident : String) (hlc : Option Hlc) : Fact :=
  ⟨"note", "person:p-a", [], "", ident, version, hlc, []⟩

def oneNote (first : Int) : Installs :=
  let a := personNote "n-a" (some ⟨first, 0, "aaaa"⟩)
  (Installs.empty.wrote "aaaa" ⟨[a], ⟨0, [], []⟩⟩ a).received "bbbb" [a]

/-- Install `aaaa` writes a note at `first`, and `bbbb`, which has read it,
writes another at `second`. -/
def twoNotes (first second : Int) : Installs :=
  let b := personNote "n-b" (some ⟨second, 0, "bbbb"⟩)
  (oneNote first).wrote "bbbb" ⟨[b], ⟨0, [], []⟩⟩ b

theorem happened_before_ordered_two_notes :
    ∃ first second, [personNote "n-a" (some ⟨5, 0, "aaaa"⟩), personNote "n-b" (some ⟨9, 0, "bbbb"⟩)] =
      first ++ personNote "n-b" (some ⟨9, 0, "bbbb"⟩) :: second ∧
      personNote "n-a" (some ⟨5, 0, "aaaa"⟩) ∈ first := by
  have hNone : ∀ g, ¬ Installs.empty.Written g := by
    simp [Installs.Written, Installs.empty, Folder.empty]
  have hOne : ∀ g, (oneNote 5).Written g → g = personNote "n-a" (some ⟨5, 0, "aaaa"⟩) := by
    intro g hg
    have hOwn : ([personNote "n-a" (some ⟨5, 0, "aaaa"⟩)] : List Fact) =
        (Installs.empty.state "aaaa").folder.own ++ [personNote "n-a" (some ⟨5, 0, "aaaa"⟩)] := rfl
    have hg' := (Installs.written_wrote _ _ hOwn g).mp ((Installs.written_received g).mp hg)
    exact List.mem_singleton.mp (hg'.resolve_left (hNone g))
  have hStart : Run InOrder Installs.empty := Relation.ReflTransGen.refl
  have hRun : Run InOrder (oneNote 5) := by
    have hFirst : InOrder Installs.empty (.append "aaaa" 5 (personNote "n-a" none)) :=
      fun _ => ⟨by simp [Install.ledger, Installs.empty, Folder.empty],
        fun g hg => absurd hg (hNone g)⟩
    refine (hStart.step _ hFirst (.append (by decide))).step (.deliver "bbbb" _) trivial
      (.deliver ?_)
    intro f hf
    exact ⟨"aaaa", by simpa [Installs.wrote] using hf⟩
  have hRun₂ : Run InOrder (twoNotes 5 9) := by
    refine hRun.step (.append "bbbb" 9 (personNote "n-b" none)) ?_ (.append (by decide))
    refine fun _ => ⟨fun g hg a ha => ?_, fun g hg a ha => ?_⟩
    · obtain rfl := hOne g (hRun.consistent.ledger hg)
      obtain rfl := Option.some.inj ha
      simp only [Ahead, personNote]
      rw [if_pos (by decide)]
      decide
    · obtain rfl := hOne g hg
      refine ⟨fun h => absurd h (by decide), fun h => absurd h (by decide)⟩
  have hLog : (personNote "n-b" (some ⟨9, 0, "bbbb"⟩), [personNote "n-a" (some ⟨5, 0, "aaaa"⟩)]) ∈
      (twoNotes 5 9).log := by decide
  have hUnion : union bareHost [((twoNotes 5 9).state "bbbb").ledger] =
      .ok [personNote "n-a" (some ⟨5, 0, "aaaa"⟩), personNote "n-b" (some ⟨9, 0, "bbbb"⟩)] := by
    decide
  refine happened_before_ordered bareHost hRun₂ hLog (by simp) ?_ hUnion (by simp) (by simp)
  intro st hst f hf
  exact hRun₂.consistent.ledger (List.mem_singleton.mp hst ▸ hf)

/-- A writer whose clock is behind stamps its fact below one it has read. -/
theorem happened_before_not_ordered :
    ¬ ∀ (host : Host) (s : Installs), Run (fun _ _ => True) s →
      ∀ fact seen, (fact, seen) ∈ s.log → ∀ g ∈ seen, ∀ install l,
        union host [(s.state install).ledger] = .ok l → fact ∈ l → g ∈ l →
          ∃ first second, l = first ++ fact :: second ∧ g ∈ first := by
  intro h
  have hRun : Run (fun _ _ => True) (twoNotes 1000 500) := by
    have hStart : Run (fun _ _ => True) Installs.empty := Relation.ReflTransGen.refl
    have hOne : Run (fun _ _ => True) (oneNote 1000) := by
      refine (hStart.step (.append "aaaa" 1000 (personNote "n-a" none)) trivial
        (.append (by decide))).step (.deliver "bbbb" _) trivial (.deliver ?_)
      intro f hf
      exact ⟨"aaaa", by simpa [Installs.wrote] using hf⟩
    exact hOne.step (.append "bbbb" 500 (personNote "n-b" none)) trivial
      (.append (by decide))
  obtain ⟨first, second, hSplit, hMem⟩ := h bareHost _ hRun
    (personNote "n-b" (some ⟨500, 0, "bbbb"⟩)) [personNote "n-a" (some ⟨1000, 0, "aaaa"⟩)]
    (by decide) _ (List.mem_singleton_self _) "bbbb"
    [personNote "n-b" (some ⟨500, 0, "bbbb"⟩), personNote "n-a" (some ⟨1000, 0, "aaaa"⟩)]
    (by decide) (by decide) (by decide)
  cases first with
  | nil => exact List.not_mem_nil hMem
  | cons f first =>
      obtain rfl := (List.cons.inj hSplit).1
      exact absurd (congrArg List.length hSplit) (by
        have hTail := (List.cons.inj hSplit).2
        cases first with
        | nil => exact absurd (List.cons.inj hTail).1 (by decide)
        | cons g first => simp)

end Brnrd.Ledger
