import Brnrd.Stores.FactStore

/-! What an entity's store keeps through its calls, and the write that ends it. -/
namespace Brnrd.Stores

open Python Facts

/-- A call on the store, and how each of its writes ends. -/
inductive Op where
  | record (r : Recording)
  | append (f : Fact)
  | merge (incoming : List Fact)

structure Call where
  op : Op
  landing : Fact → Landing

variable {host : Host} (json : Json host)

/-- The entity behind the call, whether it returned or not. -/
def Call.apply (s : Entity) (call : Call) : Entity :=
  match call.op with
  | .record r => (s.record json r call.landing).1
  | .append f => (s.append json f (call.landing f)).1
  | .merge incoming => (s.merge json incoming call.landing).1

/-- The facts a caller hands over, as they are. -/
def Op.given : Op → List Fact
  | .record _ => []
  | .append f => [f]
  | .merge incoming => incoming

/-- The facts a call may write behind what it has seen. -/
def Op.facts (seen : List Fact) : Op → List Fact
  | .record r => [r.fact seen]
  | op => op.given

/-- An id `uuid4` has not given before, in no fact and in no list of predecessors. -/
def Recording.Fresh (s : Entity) (r : Recording) : Prop :=
  r.id ∉ r.after ∧ ∀ f ∈ s.completed ++ s.inFlight, f.id ≠ r.id ∧ r.id ∉ f.after

/-- A call a process can make: its facts are plain JSON, and a new id is new. -/
structure Call.Real (s : Entity) (call : Call) : Prop where
  writable : ∀ seen, s.read host = .ok seen → ∀ f ∈ call.op.facts seen, json.writable f
  fresh : ∀ r, call.op = .record r → r.Fresh s

/-- No write is cut off between its first byte and its last, and the facts handed
over can be ordered with those that are there. -/
structure Call.Meets (s : Entity) (call : Call) : Prop where
  clean : ∀ seen, s.read host = .ok seen → ∀ f ∈ call.op.facts seen, (call.landing f).Clean (json.line f)
  causal : ∀ seen, s.read host = .ok seen → Causal host (seen ++ call.op.given)

/-- The entities some run of calls reaches, each call meeting `Cond` where it starts. -/
inductive Entity.Reach (Cond : Entity → Call → Prop) : Entity → Prop where
  | empty : Reach Cond .empty
  | call {s : Entity} (prior : Reach Cond s) (call : Call) (hReal : call.Real json s) (hCond : Cond s call) :
      Reach Cond (call.apply json s)

/-- A read succeeds with the facts whose writes completed and at most some that were
in flight, and so does a record. -/
def Entity.Survives (s : Entity) : Prop :=
  ∃ l, s.read host = .ok l ∧ s.completed ⊆ l ∧ (∀ f ∈ l, f ∈ s.completed ∨ f ∈ s.inFlight) ∧
    ∀ r landing, landing (r.fact l) = .whole → (s.record json r landing).2 = .ok (r.fact l)

variable {json}

theorem Entity.Holds.survives {s : Entity} {landed : List Fact} (h : s.Holds json landed) : s.Survives json := by
  obtain ⟨l, hRead, hMem⟩ := h.read
  refine ⟨l, hRead, fun f hf => (hMem f).mpr (h.completed hf), fun f hf => h.known f ((hMem f).mp hf), ?_⟩
  intro r landing hWhole
  simp only [Entity.record, hRead, hWhole, Entity.write]

theorem Entity.Holds.append {s : Entity} {landed : List Fact} {f : Fact} {landing : Landing} (h : s.Holds json landed)
    (hWritable : json.writable f) (hCausal : Causal host (landed ++ [f])) (hClean : landing.Clean (json.line f)) :
    ∃ landed', landed' ⊆ landed ++ [f] ∧ (s.append json f landing).1.Holds json landed' := by
  have hSame : ∃ landed', landed' ⊆ landed ++ [f] ∧ s.Holds json landed' := ⟨landed, by simp, h⟩
  obtain ⟨l, hRead, hMem⟩ := h.read
  unfold Entity.append
  split
  · exact hSame
  · rename_i hKnown
    split
    · exact hSame
    · rw [hRead]
      dsimp only
      split
      · exact hSame
      · rename_i hFind
        refine h.write ⟨hWritable, by simpa using (not_or.mp hKnown).1⟩ (fun hId => ?_) hCausal hClean
        obtain ⟨g, hg, hSameId⟩ := List.mem_map.mp hId
        exact absurd hSameId (by simpa using List.find?_eq_none.mp hFind g ((hMem g).mpr hg))

theorem Entity.Holds.appends {landing : Fact → Landing} {facts : List Fact} {s : Entity} {landed : List Fact}
    (h : s.Holds json landed) (hWritable : ∀ f ∈ facts, json.writable f) (hCausal : Causal host (landed ++ facts))
    (hClean : ∀ f ∈ facts, (landing f).Clean (json.line f)) :
    ∃ landed', (s.appends json landing facts).1.Holds json landed' := by
  induction facts generalizing s landed with
  | nil => exact ⟨landed, h⟩
  | cons f rest ih =>
      obtain ⟨landed', hSub, hNext⟩ := h.append (hWritable f (by simp))
        (hCausal.mono (by intro g hg; simp only [List.mem_append, List.mem_cons] at hg ⊢; tauto)) (hClean f (by simp))
      unfold Entity.appends
      rcases hAppend : s.append json f (landing f) with ⟨s', _ | _⟩
      · rw [hAppend] at hNext
        exact ⟨landed', hNext⟩
      · rw [hAppend] at hNext
        refine ih hNext (fun g hg => hWritable g (List.mem_cons_of_mem _ hg)) (hCausal.mono ?_)
          (fun g hg => hClean g (List.mem_cons_of_mem _ hg))
        intro g hg
        rcases List.mem_append.mp hg with hg | hg
        · have hOld := hSub hg
          simp only [List.mem_append, List.mem_cons, List.not_mem_nil, or_false] at hOld ⊢
          tauto
        · simp [hg]

/-- A merge hands on no fact it was not given. -/
theorem union_subset {incoming facts : List Fact} (h : union host [incoming] = .ok facts) : facts ⊆ incoming := by
  intro f hf
  have hKept := ((union_ledger h).mem f).mp hf
  simpa using hKept.1

/-- The step lemma: a real call that meets the condition leaves whole lines. -/
theorem Entity.Holds.call {s : Entity} {landed : List Fact} {call : Call} (h : s.Holds json landed)
    (hReal : call.Real json s) (hMeets : call.Meets json s) :
    ∃ landed', (call.apply json s).Holds json landed' := by
  obtain ⟨l, hRead, hMem⟩ := h.read
  obtain ⟨op, landing⟩ := call
  have hWritable := hReal.writable l hRead
  have hClean := hMeets.clean l hRead
  have hCausal := hMeets.causal l hRead
  cases op with
  | record r =>
      obtain ⟨hSelf, hFresh⟩ := hReal.fresh r rfl
      have hOld : ∀ g ∈ landed, g.id ≠ r.id ∧ r.id ∉ g.after := fun g hg =>
        hFresh g (List.mem_append.mpr (h.known g hg))
      have hBehind : Causal host (landed ++ [r.fact l]) := h.causal.snoc rfl hOld hSelf
      obtain ⟨landed', -, hNext⟩ := @Entity.Holds.write host json landed (r.fact l) s (landing (r.fact l)) h
        ⟨hWritable _ (by simp [Op.facts]), rfl⟩
        (fun hId => (List.mem_map.mp hId).elim fun g hg => (hOld g hg.1).1 hg.2) hBehind
        (hClean _ (by simp [Op.facts]))
      refine ⟨landed', ?_⟩
      simp only [Call.apply, Entity.record, hRead]
      split
      · rename_i hWrite
        rwa [hWrite] at hNext
      · rename_i hWrite
        rwa [hWrite] at hNext
  | append f =>
      obtain ⟨landed', -, hNext⟩ := @Entity.Holds.append _ json _ _ f (landing f) h (hWritable f (by simp [Op.facts, Op.given]))
        (hCausal.mono fun g hg => by
          rcases List.mem_append.mp hg with hg | hg
          · exact List.mem_append_left _ ((hMem g).mpr hg)
          · exact List.mem_append_right _ hg)
        (hClean f (by simp [Op.facts, Op.given]))
      exact ⟨landed', hNext⟩
  | merge incoming =>
      simp only [Call.apply, Entity.merge]
      split
      · exact ⟨landed, h⟩
      · rename_i facts hUnion
        have hSub := union_subset hUnion
        obtain ⟨landed', hNext⟩ := @Entity.Holds.appends _ json landing facts _ _ h (fun f hf => hWritable f (hSub hf))
          (hCausal.mono fun g hg => by
            rcases List.mem_append.mp hg with hg | hg
            · exact List.mem_append_left _ ((hMem g).mpr hg)
            · exact List.mem_append_right _ (hSub hg))
          (fun f hf => hClean f (hSub hf))
        refine ⟨landed', ?_⟩
        split
        · rename_i hAppends
          rwa [hAppends] at hNext
        · rename_i hAppends
          rwa [hAppends] at hNext

theorem Entity.Reach.holds {s : Entity} (h : s.Reach json (Call.Meets json)) : ∃ landed, s.Holds json landed := by
  induction h with
  | empty => exact ⟨[], Entity.empty_holds json⟩
  | call prior call hReal hCond ih =>
      obtain ⟨landed, hHolds⟩ := ih
      exact hHolds.call hReal hCond

/-- Where no write is cut off inside its line and every fact handed over fits the
order, the store survives each step of each run. -/
theorem clean_writes_survive (json : Json host) (s : Entity) (h : s.Reach json (Call.Meets json)) : s.Survives json := by
  obtain ⟨landed, hHolds⟩ := h.holds
  exact hHolds.survives

/-- Two records of one hand, in the same millisecond. -/
def firstRecording : Recording := ⟨"pending", "hand", none, [], 5, "2026-01-01T00:00:00+00:00", "a"⟩

def secondRecording : Recording := ⟨"retired", "hand", none, [], 5, "2026-01-01T00:00:00+00:00", "b"⟩

def firstFact : Fact := firstRecording.fact []

def secondFact : Fact := secondRecording.fact [firstFact]

/-- The text of a row whose clock is `(5, counter, "hand")`. -/
def rowText (counter id kind : String) : List Char :=
  ["\x7b\"after\":[],", "\"at\":\"2026-01-01", "T00:00:00", "+00:00\",", "\"by\":\"hand\",", "\"data\":\x7b\x7d,", "\"hlc\":[5,", counter,
    ",\"hand\"],", "\"id\":\"", id, "\",\"kind\":\"", kind, "\",\"v\":1\x7d"].flatMap String.toList

def firstText : List Char := rowText "0" "a" "pending"

def secondText : List Char := rowText "1" "b" "retired"

/-- What `json.loads` makes of the two lines and of what is left of them. -/
def twoLinesHost : Host where
  seconds := fun _ => none
  millis := fun _ => none
  repr := fun _ => ""
  loads := fun text =>
    if strip text = firstText then some (.obj (factRow firstFact))
    else if strip text = secondText then some (.obj (factRow secondFact))
    else none

def twoLines : Json twoLinesHost where
  dumps := fun row => if row = factRow firstFact then firstText else secondText
  writable := fun f => f = firstFact ∨ f = secondFact
  opens := by
    rintro f (rfl | rfl) <;> decide +kernel
  oneLine := by
    rintro f (rfl | rfl) <;> decide +kernel
  loads_dumps := by
    rintro f (rfl | rfl) <;> decide +kernel

theorem firstRecording_real (landing : Fact → Landing) :
    Call.Real twoLines Entity.empty ⟨.record firstRecording, landing⟩ := by
  refine ⟨fun seen hRead f hf => ?_, ?_⟩
  · obtain rfl : [] = seen := Except.ok.inj hRead
    exact .inl (List.mem_singleton.mp hf)
  · rintro r hr
    obtain rfl := Op.record.inj hr
    exact ⟨by decide, by simp [Entity.empty]⟩

theorem clean_writes_survive_one_record :
    (Call.apply twoLines Entity.empty ⟨.record firstRecording, fun _ => .whole⟩).Survives twoLines :=
  clean_writes_survive twoLines _ (.call .empty _ (firstRecording_real _)
    ⟨fun _ _ _ _ => trivial, fun seen hRead => by
      obtain rfl : [] = seen := Except.ok.inj hRead
      exact ⟨by simp [Op.given], fun _ => 0, by simp [Op.given]⟩⟩)

/-- A second write cut off behind its first byte takes the first fact with it. -/
theorem torn_write_loses_all : ∃ s : Entity, s.Reach twoLines (fun _ _ => True) ∧ s.completed = [firstFact] ∧
    s.read twoLinesHost = .error .line ∧ ¬s.Survives twoLines := by
  have hFirst : Entity.Reach twoLines (fun _ _ => True) _ := .call .empty _ (firstRecording_real fun _ => .whole) trivial
  have hRead : (Call.apply twoLines Entity.empty ⟨.record firstRecording, fun _ => .whole⟩).read twoLinesHost =
      .ok [firstFact] := by decide +kernel
  have hReal : Call.Real twoLines (Call.apply twoLines Entity.empty ⟨.record firstRecording, fun _ => .whole⟩)
      ⟨.record secondRecording, fun _ => .cut 1⟩ := by
    refine ⟨fun seen hSeen f hf => ?_, ?_⟩
    · obtain rfl := Fallible.same hRead hSeen
      exact .inr (List.mem_singleton.mp hf)
    · rintro r hr
      obtain rfl := Op.record.inj hr
      have hCompleted : (Call.apply twoLines Entity.empty ⟨.record firstRecording, fun _ => .whole⟩).completed ++
          (Call.apply twoLines Entity.empty ⟨.record firstRecording, fun _ => .whole⟩).inFlight = [firstFact] := rfl
      refine ⟨by decide, ?_⟩
      rw [hCompleted]
      decide +kernel
  have hTorn := hFirst.call _ hReal trivial
  have hLost : (Call.apply twoLines (Call.apply twoLines Entity.empty ⟨.record firstRecording, fun _ => .whole⟩)
      ⟨.record secondRecording, fun _ => .cut 1⟩).read twoLinesHost = .error .line := by decide +kernel
  refine ⟨_, hTorn, by decide +kernel, hLost, ?_⟩
  rintro ⟨l, hSome, -⟩
  rw [hLost] at hSome
  cases hSome

end Brnrd.Stores
