import Brnrd.Bodies.Table
import Mathlib.Data.Rat.Encodable

/-! The state that a row declares is the one the facts tell once its commands
have recorded theirs. -/
namespace Brnrd.Bodies

open Python Facts Ledger Project

theorem lookup_map_pair (names : List String) (value : String → Value) (name : String) :
    (names.map fun n => (n, value n)).lookup name = if name ∈ names then some (value name) else none := by
  induction names with
  | nil => rfl
  | cons n names ih =>
      rw [List.map_cons, lookup_cons_if, ih]
      by_cases h : name = n
      · simp [h]
      · simp [h]

/-- A required field is there with its value. -/
theorem recordData_lookup {row : Kind} {value : String → Value} {name : String}
    (h : name ∈ row.names ∧ name ∈ row.required) : (recordData row value).lookup name = some (value name) := by
  rw [recordData, lookup_map_pair, if_pos]
  simp [h.1, h.2, (List.perm_insertionSort _ _).mem_iff]

/-- The mark that a command leaves in its generation. -/
def Command.mark (o : Observation) (command : Command) : Option Mark :=
  match command.name with
  | .shown => some .shown
  | .started | .stayed => some .running
  | .pending => some .pending
  | .park => some (.parked o.until_)
  | .leaving => some (.leaving (command.deadline.getD 0))
  | .stopped => some .stopped
  | .unidentified => some .unidentified
  | .exit => some .exited
  | .end_ | .endSettled | .endFailed | .endReincarnated | .endMoved => some .ended
  | .drained => some .other
  | .release => some .released
  | .prepare | .spawn | .signal | .letGo | .collect | .drain => none

variable {o : Observation}

theorem Command.mark_eq_none {command : Command} : command.mark o = none ↔ records command.name = none := by
  obtain ⟨name, deadline⟩ := command
  cases name <;> simp [Command.mark, records]

/-- Only `leaving` is given a deadline, and it always is. -/
def Command.Decided (command : Command) : Prop :=
  command.deadline.isSome ↔ command.name = .leaving

/-- Every kind of a body's record has its body and the times the fold reads. -/
theorem registry_body : ∀ row ∈ registry, row.resource = "body" →
    ("strand" ∈ row.names ∧ "strand" ∈ row.required) ∧ ("gen" ∈ row.names ∧ "gen" ∈ row.required) ∧
    (row.kind = "body.parked" → "until" ∈ row.names ∧ "until" ∈ row.required) ∧
    (row.kind = "body.leaving" → "deadline" ∈ row.names ∧ "deadline" ∈ row.required) := by
  decide +kernel

theorem ofBody_of_lookup {strand : String} {gen : Int} {fact : Fact}
    (hStrand : fact.data.lookup "strand" = some (.str strand)) (hGen : fact.data.lookup "gen" = some (.int gen)) :
    ofBody strand gen fact := by
  simp [ofBody, Dict.get, hStrand, hGen]

section Record

variable {floats : Floats} {x : Shared} {o : Observation} {command : Command} {row : Kind}

theorem record_lookup {name : String} (h : name ∈ row.names ∧ name ∈ row.required) :
    (x.record floats o command row).data.lookup name = some (x.value floats o command row.kind name) :=
  recordData_lookup h

theorem record_ofBody (hRow : row ∈ registry) (hBody : row.resource = "body") :
    ofBody o.strand o.gen (x.record floats o command row) := by
  obtain ⟨hStrand, hGen, -⟩ := registry_body row hRow hBody
  exact ofBody_of_lookup (record_lookup hStrand) (record_lookup hGen)

theorem record_parked (hRow : row ∈ registry) (hBody : row.resource = "body")
    (hKind : row.kind = "body.parked") :
    markOf floats.read (x.record floats o command row) = .ok (.parked o.until_) := by
  have hUntil : (x.record floats o command row).data.lookup "until" = _ :=
    record_lookup ((registry_body row hRow hBody).2.2.1 hKind)
  have hRecord : (x.record floats o command row).kind = "body.parked" := hKind
  rw [markOf, hRecord]
  simp only [seconds, item, hUntil]
  simp [Shared.value, bind, Except.bind, Except.map]

theorem record_leaving (hRow : row ∈ registry) (hBody : row.resource = "body")
    (hKind : row.kind = "body.leaving") {time : ℚ} (hTime : command.deadline = some time) :
    markOf floats.read (x.record floats o command row) = .ok (.leaving time) := by
  have hDeadline : (x.record floats o command row).data.lookup "deadline" = _ :=
    record_lookup ((registry_body row hRow hBody).2.2.2 hKind)
  have hRecord : (x.record floats o command row).kind = "body.leaving" := hKind
  rw [markOf, hRecord]
  simp only [seconds, item, hDeadline]
  simp [Shared.value, bind, Except.bind, Except.map, hTime]

end Record

/-- The row of a kind whose name is a body's. -/
theorem kindRow_body {kind : String} {row : Kind} (h : kindRow kind = some row)
    (hBody : startsWith kind "body.") : row ∈ registry ∧ row.kind = kind ∧ row.resource = "body" := by
  have hAll : ∀ row ∈ registry, startsWith row.kind "body." → row.resource = "body" := by decide +kernel
  have hMem : row ∈ registry := List.mem_of_find?_eq_some h
  have hKind : row.kind = kind := by simpa using List.find?_some h
  exact ⟨hMem, hKind, hAll row hMem (hKind ▸ hBody)⟩

section Fact

variable {floats : Floats} {x : Shared} {o : Observation} {command : Command} {fact : Fact}

/-- A record of a body's kind is written by `_hand_record`. -/
theorem Command.fact_record {kind : String} (hRecords : records command.name = some kind)
    (hBody : startsWith kind "body.") :
    command.fact floats x o = (kindRow kind).map (x.record floats o command) := by
  have hNot : ∀ other, ¬ startsWith other "body." → kind ≠ other := fun other h hEq => h (hEq ▸ hBody)
  unfold Command.fact
  rw [hRecords]
  split
  · next h => cases h
  · next h => exact absurd (Option.some.inj h) (hNot _ (by decide))
  · next h => exact absurd (Option.some.inj h) (hNot _ (by decide))
  · next h => exact absurd (Option.some.inj h) (hNot _ (by decide))
  · next h => exact absurd (Option.some.inj h) (hNot _ (by decide))
  · next h => rw [Option.some.inj h]

/-- A record of a body's kind is a fact of its generation with that kind. -/
theorem record_kind {kind : String} (hRecords : records command.name = some kind)
    (hBody : startsWith kind "body.") (h : command.fact floats x o = some fact) :
    ofBody o.strand o.gen fact ∧ fact.kind = kind := by
  rw [Command.fact_record hRecords hBody] at h
  obtain ⟨row, hRow, rfl⟩ := Option.map_eq_some_iff.mp h
  obtain ⟨hMem, hKind, hResource⟩ := kindRow_body hRow hBody
  exact ⟨record_ofBody hMem hResource, hKind⟩

/-- A command's fact is one of its generation, and the fold reads its mark. -/
theorem Command.fact_mark (hDecided : command.Decided) (h : command.fact floats x o = some fact) :
    ofBody o.strand o.gen fact ∧
      ∃ mark, command.mark o = some mark ∧ markOf floats.read fact = .ok mark := by
  obtain ⟨name, deadline⟩ := command
  cases name with
  | prepare | spawn | signal | letGo | collect | drain => cases h
  | shown | drained | release | end_ | endSettled | endFailed | endReincarnated | endMoved =>
      obtain rfl := Option.some.inj h
      exact ⟨ofBody_of_lookup rfl rfl, _, rfl, rfl⟩
  | started | pending | stayed | stopped | unidentified | exit =>
      obtain ⟨hBody, hKind⟩ := record_kind rfl (by decide) h
      exact ⟨hBody, _, rfl, by simp only [markOf, hKind]⟩
  | park =>
      rw [Command.fact_record rfl (by decide)] at h
      obtain ⟨row, hRow, rfl⟩ := Option.map_eq_some_iff.mp h
      obtain ⟨hMem, hKind, hResource⟩ := kindRow_body hRow (by decide)
      exact ⟨record_ofBody hMem hResource, _, rfl, record_parked hMem hResource hKind⟩
  | leaving =>
      rw [Command.fact_record rfl (by decide)] at h
      obtain ⟨row, hRow, rfl⟩ := Option.map_eq_some_iff.mp h
      obtain ⟨hMem, hKind, hResource⟩ := kindRow_body hRow (by decide)
      obtain ⟨time, rfl⟩ := Option.isSome_iff_exists.mp (hDecided.mpr rfl)
      exact ⟨record_ofBody hMem hResource, _, rfl, record_leaving hMem hResource hKind rfl⟩

end Fact

/-- The facts by which a list of commands lands: each command that records
leaves its fact, among facts that the fold of the generation does not read. -/
inductive Lands (floats : Floats) (o : Observation) : List Command → List Fact → Prop where
  | nil : Lands floats o [] []
  | other {commands : List Command} {fact : Fact} {facts : List Fact}
      (hOther : ¬ ofBody o.strand o.gen fact) (hRest : Lands floats o commands facts) :
      Lands floats o commands (fact :: facts)
  | silent {command : Command} {commands : List Command} {facts : List Fact}
      (hSilent : records command.name = none) (hRest : Lands floats o commands facts) :
      Lands floats o (command :: commands) facts
  | leaves {command : Command} {commands : List Command} {fact : Fact} {facts : List Fact} (x : Shared)
      (hFact : command.fact floats x o = some fact) (hRest : Lands floats o commands facts) :
      Lands floats o (command :: commands) (fact :: facts)

/-- The marks of the facts by which commands land. -/
theorem Lands.marks {floats : Floats} {commands : List Command} {facts : List Fact} (h : Lands floats o commands facts)
    (hDecided : ∀ command ∈ commands, command.Decided) :
    Bodies.marks floats.read facts o.strand o.gen = .ok (commands.filterMap (Command.mark o)) := by
  induction h with
  | nil => rfl
  | other hOther _ ih =>
      rw [← ih hDecided, Bodies.marks, List.filter_cons_of_neg hOther]
      rfl
  | silent hSilent _ ih =>
      rw [ih fun c hc => hDecided c (List.mem_cons_of_mem _ hc),
        List.filterMap_cons_none (Command.mark_eq_none.mpr hSilent)]
  | leaves x hFact _ ih =>
      obtain ⟨hBody, mark, hMark, hRead⟩ := Command.fact_mark (hDecided _ List.mem_cons_self) hFact
      have hRest := ih fun c hc => hDecided c (List.mem_cons_of_mem _ hc)
      rw [List.filterMap_cons_some hMark, Bodies.marks, List.filter_cons_of_pos hBody, List.mapM_cons, hRead]
      change (_ >>= _) = _
      rw [← Bodies.marks, hRest]
      rfl

section Fold

variable (alive : Bool) (s : Folding) (mark : Mark)

theorem Folding.read_ended : (s.read alive mark).ended = (s.ended || decide (mark = .ended)) := by
  cases mark <;> simp [Folding.read, Folding.setName, apply_ite Folding.ended]

theorem Folding.read_exited : (s.read alive mark).exited = (s.exited || decide (mark = .exited)) := by
  cases mark <;> simp [Folding.read, Folding.setName, apply_ite Folding.exited]

theorem Folding.read_stopped : (s.read alive mark).state.stopped = (s.state.stopped || decide (mark = .stopped)) := by
  cases mark <;> simp [Folding.read, Folding.setName, apply_ite Folding.state, apply_ite State.stopped]

end Fold

theorem folded_snoc (alive : Bool) (found : List Mark) (mark : Mark) :
    folded alive (found ++ [mark]) = (folded alive found).read alive mark := by
  simp [folded]

theorem folded_append (alive : Bool) (found landed : List Mark) :
    folded alive (found ++ landed) = landed.foldl (Folding.read alive) (folded alive found) :=
  List.foldl_append

/-- Only the name depends on whether the body is alive. -/
theorem folded_flags (alive alive' : Bool) (found : List Mark) :
    (folded alive found).ended = (folded alive' found).ended ∧
      (folded alive found).exited = (folded alive' found).exited ∧
      (folded alive found).state.stopped = (folded alive' found).state.stopped := by
  induction found using List.reverseRecOn with
  | nil => exact ⟨rfl, rfl, rfl⟩
  | append_singleton found mark ih =>
      obtain ⟨hEnded, hExited, hStopped⟩ := ih
      simp only [folded_snoc, Folding.read_ended, Folding.read_exited, Folding.read_stopped, hEnded, hExited,
        hStopped, and_self]

/-- The fold itself only names the states before an end. -/
theorem folded_name (alive : Bool) (found : List Mark) : (folded alive found).state.name ∉ [.ended, .exited, .stopping] := by
  induction found using List.reverseRecOn with
  | nil =>
      change Name.wanted ∉ [.ended, .exited, .stopping]
      decide
  | append_singleton found mark ih =>
      rw [folded_snoc]
      cases mark with
      | lease | shown =>
          simp only [Folding.read]
          split
          · simp [Folding.setName]
          · exact ih
      | parked | running | leaving | unidentified => simp [Folding.read, Folding.setName]
      | pending | stopped | exited | ended | released | other => exact ih

section Name

variable {alive : Bool} {s : Folding}

theorem Folding.flags_of_name (h : s.finalName alive ∉ [.ended, .exited, .stopping]) :
    s.ended = false ∧ s.exited = false ∧ s.state.stopped = false := by
  unfold Folding.finalName at h
  split at h
  · exact absurd (by decide) h
  · next hEnded =>
      split at h
      · exact absurd (by decide) h
      · next hExited =>
          split at h
          · exact absurd (by decide) h
          · next hStopped => exact ⟨by simpa using hEnded, by simpa using hExited, by simpa using hStopped⟩

theorem Folding.finalName_of_flags (h : s.ended = false ∧ s.exited = false ∧ s.state.stopped = false) :
    s.finalName alive = if alive ∧ s.state.name ∈ startable then .running else s.state.name := by
  obtain ⟨hEnded, hExited, hStopped⟩ := h
  simp [Folding.finalName, hEnded, hExited, hStopped]

end Name

section Landed

variable {alive : Bool}

theorem foldl_ended (landed : List Mark) (s : Folding) :
    (landed.foldl (Folding.read alive) s).ended = (s.ended || decide (.ended ∈ landed)) := by
  induction landed generalizing s with
  | nil => simp
  | cons mark landed ih =>
      rw [List.foldl_cons, ih, Folding.read_ended, Bool.or_assoc, ← Bool.decide_or]
      simp only [List.mem_cons, eq_comm]

theorem foldl_exited (landed : List Mark) (s : Folding) :
    (landed.foldl (Folding.read alive) s).exited = (s.exited || decide (.exited ∈ landed)) := by
  induction landed generalizing s with
  | nil => simp
  | cons mark landed ih =>
      rw [List.foldl_cons, ih, Folding.read_exited, Bool.or_assoc, ← Bool.decide_or]
      simp only [List.mem_cons, eq_comm]

/-- What the fold says of a generation that has not ended. -/
def Folding.liveName (alive : Bool) (s : Folding) : Name :=
  if s.state.stopped then .stopping
  else if alive ∧ s.state.name ∈ startable then .running
  else s.state.name

theorem Folding.finalName_eq (s : Folding) :
    s.finalName alive = if s.ended then .ended else if s.exited then .exited else s.liveName alive := by
  rfl

/-- Marks that end a generation leave the rest of its fold alone. -/
theorem foldl_ending {landed : List Mark} (h : ∀ mark ∈ landed, mark ∈ [.exited, .ended, .released, .other])
    (s : Folding) : (landed.foldl (Folding.read alive) s).liveName alive = s.liveName alive := by
  induction landed generalizing s with
  | nil => rfl
  | cons mark landed ih =>
      rw [List.foldl_cons, ih fun m hm => h m (List.mem_cons_of_mem _ hm)]
      have hMark := h mark List.mem_cons_self
      cases mark with
      | exited | ended | released | other => rfl
      | lease | pending | parked | shown | running | leaving | stopped | unidentified => simp at hMark

theorem foldl_pending {landed : List Mark} (h : ∀ mark ∈ landed, mark = .pending) (s : Folding) :
    (landed.foldl (Folding.read alive) s).finalName alive = s.finalName alive := by
  induction landed generalizing s with
  | nil => rfl
  | cons mark landed ih =>
      obtain rfl := h mark List.mem_cons_self
      rw [List.foldl_cons, ih fun m hm => h m (List.mem_cons_of_mem _ hm)]
      rfl

end Landed

/-- The marks that the commands of a decision leave, when they all land. -/
def landing (o : Observation) (commands : List Command) : List Mark :=
  commands.filterMap (Command.mark o)

theorem prefix_singleton {M : List Mark} {mark : Mark} (h : M <+: [mark]) : M = [] ∨ M = [mark] := by
  rcases List.prefix_cons_iff.mp h with rfl | ⟨rest, rfl, hRest⟩
  · exact .inl rfl
  · rw [List.prefix_nil.mp hRest]
    exact .inr rfl

theorem not_mem_of_startable {name : Name} (h : name ∈ startable) : name ∉ [.ended, .exited, .stopping] := by
  revert name
  decide

/-- A body that is alive is neither wanted nor parked. -/
theorem alive_of_startable {alive : Bool} {s : Folding} (h : s.finalName alive ∈ startable) : alive = false := by
  have hFlags := Folding.flags_of_name (not_mem_of_startable h)
  rw [Folding.finalName_of_flags hFlags] at h
  split at h
  · exact absurd h (by decide)
  · next hNot => simpa [h] using hNot

section Told

variable {o : Observation} {row : Row} {found M : List Mark} {s : State}

/-- What a decision's marks make of the name: `whole` when all have landed and
`part` when some have. -/
structure Told (o : Observation) (row : Row) (found full : List Mark) : Prop where
  part : ∀ M, M <+: full → ∀ name, (folded o.alive (found ++ M)).finalName o.alive = name →
    name = (folded o.alive found).finalName o.alive ∨ name = row.next ∨ name = .exited ∧ row.next = .ended
  whole : ∀ alive, alive = o.alive ∨ row.next ∉ startable ∧ full ≠ [] →
    (folded alive (found ++ full)).finalName alive = row.next

/-- A decision with one mark. -/
theorem Told.single {mark : Mark} (h : ∀ alive, alive = o.alive ∨ row.next ∉ startable →
    (folded alive (found ++ [mark])).finalName alive = row.next) : Told o row found [mark] where
  part := by
    intro M hM name hName
    rcases prefix_singleton hM with rfl | rfl
    · exact .inl (by rw [← hName, List.append_nil])
    · exact .inr (Or.inl (by rw [← hName, h o.alive (Or.inl rfl)]))
  whole := fun alive hAlive => h alive (hAlive.imp id And.left)

/-- A decision that ends the attempt. -/
theorem Told.ends {full : List Mark} (hNext : row.next = .ended)
    (hFull : ∀ mark ∈ full, mark ∈ [.exited, .ended, .released, .other])
    (hEnds : (folded o.alive found).finalName o.alive = .ended ∨ .ended ∈ full) : Told o row found full where
  part := by
    intro M hM name hName
    rw [folded_append, Folding.finalName_eq, foldl_ended, foldl_exited,
      foldl_ending fun m hm => hFull m (hM.subset hm)] at hName
    split at hName
    · exact .inr (Or.inl (by rw [← hName, hNext]))
    · next hEnded =>
        split at hName
        · exact .inr (Or.inr ⟨hName.symm, hNext⟩)
        · next hExited =>
            simp only [Bool.or_eq_true, not_or, Bool.not_eq_true] at hEnded hExited
            exact .inl (by rw [← hName, Folding.finalName_eq, hEnded.1, hExited.1]; rfl)
  whole := by
    intro alive _
    rw [folded_append, Folding.finalName_eq, foldl_ended, hNext, if_pos]
    rcases hEnds with hEnded | hMem
    · have hFlag : (folded o.alive found).ended = true := by
        rw [Folding.finalName_eq] at hEnded
        split at hEnded
        · assumption
        · unfold Folding.liveName at hEnded
          split_ifs at hEnded
          exact absurd (by simp [hEnded]) (folded_name o.alive found)
      simp [(folded_flags alive o.alive found).1, hFlag]
    · simp [hMem]

/-- A decision that keeps the state. -/
theorem Told.keeps {full : List Mark} (hFull : ∀ mark ∈ full, mark = .pending)
    (hName : (folded o.alive found).finalName o.alive = row.next) (hNext : row.next ∉ startable → full = []) :
    Told o row found full where
  part := by
    intro M hM name h
    rw [folded_append, foldl_pending fun m hm => hFull m (hM.subset hm)] at h
    exact .inl h.symm
  whole := by
    rintro alive (rfl | ⟨hStartable, hSome⟩)
    · rw [folded_append, foldl_pending hFull, hName]
    · exact absurd (hNext hStartable) hSome

end Told

theorem rowFor_eq_ok {float : String → ℚ} {facts : List Fact} {row : Row} (h : rowFor float facts o = .ok row) :
    ∃ found, marks float facts o.strand o.gen = .ok found ∧ row ∈ table ∧
      row.fits ((folded o.alive found).result o.alive) o := by
  obtain ⟨s, hState, hFind⟩ := Fallible.peel h
  obtain ⟨found, hMarks, hEq⟩ := Fallible.peel hState
  obtain rfl := Except.ok.inj hEq
  refine ⟨found, hMarks, ?_⟩
  split at hFind
  · next hSome =>
      obtain rfl := Except.ok.inj hFind
      exact ⟨List.mem_of_find?_eq_some hSome, List.find?_some hSome⟩
  · cases hFind

/-- Floats whose text is a tally of their code. -/
def tallyFloats : Floats where
  read text := ((Encodable.decode text.length : Option ℚ).getD 0)
  text q := String.ofList (List.replicate (Encodable.encode q) '1')
  read_text q := by simp [Encodable.encodek]

def plainShared : Shared :=
  ⟨"aaaa", "work", "", "", "", 7, [], [], ⟨.null, .null, .null, .null, .null⟩, "abcdef"⟩

end Brnrd.Bodies
