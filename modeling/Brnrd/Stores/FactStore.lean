import Brnrd.Facts.Succeeds
import Brnrd.Ledger.Rows
import Brnrd.Python.Lines
import Mathlib.Algebra.Order.BigOperators.Group.List

/-! The fact file of one entity. A call appends a line for each new fact with one
write, and a read parses every line the file has. -/
namespace Brnrd.Stores

open Python Facts
open Ledger (fromRow)

/-- `Fact.row()`, with its keys in order. -/
def factRow (f : Fact) : Dict :=
  [("after", .arr (f.after.map .str)), ("at", .str f.at_), ("by", .str f.by_), ("data", .obj f.data),
    ("hlc", match f.hlc with
      | some stamp => .arr [.int stamp.ms, .int stamp.counter, .str stamp.install]
      | none => .null),
    ("id", .str f.id), ("kind", .str f.kind), ("v", .int f.v)]

/-- `json.dumps(row, sort_keys=True, separators=(",", ":"))` beside the host's
`json.loads`. It escapes what is not ASCII, so a character is a byte. `writable`
says which facts hold plain JSON values, those the two carry over unchanged. -/
structure Json (host : Host) where
  dumps : Dict → List Char
  writable : Fact → Prop
  opens : ∀ f, writable f → (dumps (factRow f)).head? = some '{'
  oneLine : ∀ f, writable f → ∀ c ∈ dumps (factRow f), c ≠ '\n' ∧ c ≠ '\r'
  loads_dumps : ∀ f, writable f → host.loads (dumps (factRow f) ++ ['\n']) = some (.obj (factRow f))

/-- The bytes one fact is written as. -/
def Json.line {host : Host} (json : Json host) (f : Fact) : List Char :=
  json.dumps (factRow f) ++ ['\n']

/-- The ways a call raises. -/
inductive Failure where
  /-- `unsupported fact version`, or a row `Fact.from_row` refuses. -/
  | unsupported
  /-- `json.loads` or `Fact.from_row` on a line that was read. -/
  | line
  | union (e : UnionError)
  /-- `conflicting fact id: {id}`. -/
  | conflict (id : String)
  /-- `short fact append`, or the process is gone. -/
  | short
  deriving DecidableEq

/-- The file, and which facts' writes returned or were cut off, in order. No call
reads the last two. -/
structure Entity where
  file : Option (List Char)
  completed : List Fact
  inFlight : List Fact

def Entity.empty : Entity := ⟨none, [], []⟩

/-- How a write ends: it returns, it is cut off behind some bytes, or the process
dies before it opens the file. -/
inductive Landing where
  | whole
  | cut (bytes : Nat)
  | stopped

/-- The lines an open text file gives, each with its newline: every `\n`, `\r` and
`\r\n` is one. -/
def streamLines (line : List Char) (returned : Bool) : List Char → List (List Char)
  | [] => if line = [] then [] else [line]
  | c :: rest =>
      if c = '\n' && returned then streamLines line false rest
      else if c = '\n' || c = '\r' then (line ++ ['\n']) :: streamLines [] (c = '\r') rest
      else streamLines (line ++ [c]) false rest

/-- `Fact.from_row(json.loads(line))`. -/
def lineFact (host : Host) (line : List Char) : Except Failure Fact :=
  match host.loads line with
  | some (.obj row) => match fromRow row with
      | some f => .ok f
      | none => .error .line
  | _ => .error .line

/-- `store.read(scope, entity)`. -/
def Entity.read (host : Host) (s : Entity) : Except Failure (List Fact) :=
  match s.file with
  | none => .ok []
  | some text => do
      let facts ← ((streamLines [] false text).filter fun line => strip line ≠ []).mapM (lineFact host)
      (union host [facts]).mapError .union

section
variable {host : Host} (json : Json host)

/-- `os.open`, `os.write` and `os.fsync` of a fact's line. -/
def Entity.write (s : Entity) (f : Fact) : Landing → Entity × Except Failure Unit
  | .whole => (⟨some (s.file.getD [] ++ json.line f), s.completed ++ [f], s.inFlight⟩, .ok ())
  | .cut bytes => (⟨some (s.file.getD [] ++ (json.line f).take bytes), s.completed, s.inFlight ++ [f]⟩, .error .short)
  | .stopped => (s, .error .short)

/-- `store.append(scope, entity, fact)`. -/
def Entity.append (s : Entity) (f : Fact) (landing : Landing) : Entity × Except Failure Unit :=
  if f.v ≠ version ∨ f.kind = "" ∨ f.by_ = "" then (s, .error .unsupported)
  else if fromRow (factRow f) = none then (s, .error .unsupported)
  else match s.read host with
    | .error e => (s, .error e)
    | .ok existing => match existing.find? fun g => g.id = f.id with
        | some old => (s, if old = f then .ok () else .error (.conflict f.id))
        | none => s.write json f landing

/-- The loop of `merge`. -/
def Entity.appends (landing : Fact → Landing) : Entity → List Fact → Entity × Except Failure Unit
  | s, [] => (s, .ok ())
  | s, f :: rest => match s.append json f (landing f) with
      | (s', .error e) => (s', .error e)
      | (s', .ok ()) => Entity.appends landing s' rest

/-- `store.merge(scope, entity, incoming)`. -/
def Entity.merge (s : Entity) (incoming : List Fact) (landing : Fact → Landing) :
    Entity × Except Failure (List Fact) :=
  match union host [incoming] with
  | .error e => (s, .error (.union e))
  | .ok facts => match s.appends json landing facts with
      | (s', .error e) => (s', .error e)
      | (s', .ok ()) => (s', s'.read host)

end

/-- The arguments of `record`, and what the clock and `uuid4` give it. -/
structure Recording where
  kind : String
  by_ : String
  data : Option Dict
  after : List String
  physical : Int
  at_ : String
  id : String

/-- `max((f.hlc for f in seen if f.hlc is not None), default=(0, 0, ""))`. -/
def prior (seen : List Fact) : Hlc :=
  ((seen.filterMap Fact.hlc).max?).getD ⟨0, 0, ""⟩

/-- The fact `record` makes behind what it has seen. -/
def Recording.fact (r : Recording) (seen : List Fact) : Fact :=
  let last := prior seen
  let tick : Hlc := ⟨max r.physical last.ms, if r.physical ≤ last.ms then last.counter + 1 else 0, r.by_⟩
  ⟨r.kind, r.by_, r.data.getD [], r.at_, r.id, version, some tick, r.after⟩

/-- `store.record(scope, entity, kind, by, data, after=after)`. -/
def Entity.record {host : Host} (json : Json host) (s : Entity) (r : Recording) (landing : Fact → Landing) :
    Entity × Except Failure Fact :=
  match s.read host with
  | .error e => (s, .error e)
  | .ok seen =>
      let f := r.fact seen
      match s.write json f (landing f) with
      | (s', .error e) => (s', .error e)
      | (s', .ok ()) => (s', .ok f)

/-- A row is read back as the fact it was made from. -/
theorem fromRow_factRow {f : Fact} (h : f.v = version) : fromRow (factRow f) = some f := by
  obtain ⟨kind, by_, data, at_, id, v, hlc, after⟩ := f
  obtain rfl : v = version := h
  have hAfter : (after.map Value.str).mapM Ledger.asStr = some after := by
    induction after with
    | nil => rfl
    | cons ident after ih => simp [Ledger.asStr, ih]
  have hHlc : Ledger.asHlc (match hlc with
      | some stamp => .arr [.int stamp.ms, .int stamp.counter, .str stamp.install]
      | none => .null) = some hlc := by
    cases hlc <;> rfl
  simp [fromRow, factRow, Dict.get, Dict.has, List.lookup_cons, Ledger.isVersion, Ledger.asAfter, Ledger.asStr, hAfter, hHlc]

end Brnrd.Stores

/-! Runs of calls on one entity in which a write may be cut off. A file of whole
lines is read back as the facts whose writes landed; what is left of a line is
never taken away, so the lines that follow it are lost with it. -/
namespace Brnrd.Stores

open Python Facts

theorem streamLines_line {first : List Char} (h : ∀ c ∈ first, c ≠ '\n' ∧ c ≠ '\r') (line : List Char)
    (returned : Bool) (rest : List Char) (hStart : first = [] → returned = false) :
    streamLines line returned (first ++ '\n' :: rest) = (line ++ first ++ ['\n']) :: streamLines [] false rest := by
  induction first generalizing line returned with
  | nil =>
      obtain rfl := hStart rfl
      simp [streamLines]
  | cons c first ih =>
      obtain ⟨hNewline, hReturn⟩ := h c (by simp)
      have hRest := ih (fun d hd => h d (List.mem_cons_of_mem _ hd)) (line ++ [c]) false (fun _ => rfl)
      simp [streamLines, hNewline, hReturn, hRest]

variable {host : Host} {json : Json host}

variable {facts landed : List Fact}

theorem streamLines_lines (h : ∀ f ∈ landed, json.writable f) :
    streamLines [] false (landed.flatMap json.line) = landed.map json.line := by
  induction landed with
  | nil => rfl
  | cons f landed ih =>
      have hLine := streamLines_line (json.oneLine f (h f (by simp))) [] false (landed.flatMap json.line) (fun _ => rfl)
      rw [List.flatMap_cons, Json.line, List.append_assoc, List.singleton_append, hLine,
        ih fun g hg => h g (List.mem_cons_of_mem _ hg)]
      rfl

variable {f : Fact}

theorem lineFact_line (h : json.writable f) (hVersion : f.v = version) : lineFact host (json.line f) = .ok f := by
  unfold lineFact Json.line
  rw [json.loads_dumps f h]
  simp only [fromRow_factRow hVersion]

theorem strip_line (h : json.writable f) : strip (json.line f) ≠ [] := by
  have hHead : (json.line f).head? = some '{' := by
    rw [Json.line, List.head?_append, json.opens f h]
    rfl
  exact strip_ne_nil hHead (by decide)

/-- A file of whole lines is read line by line. -/
theorem read_lines {s : Entity} (hText : s.file.getD [] = landed.flatMap json.line)
    (hPlain : ∀ f ∈ landed, json.writable f ∧ f.v = version) :
    s.read host = (union host [landed]).mapError .union := by
  have hFacts : (landed.map json.line).mapM (lineFact host) = .ok landed := by
    clear hText
    induction landed with
    | nil => rfl
    | cons f landed ih =>
        have hFirst := hPlain f (by simp)
        rw [List.map_cons, List.mapM_cons, lineFact_line hFirst.1 hFirst.2,
          ih fun g hg => hPlain g (List.mem_cons_of_mem _ hg)]
        rfl
  unfold Entity.read
  cases hFile : s.file with
  | none =>
      have hNil : landed = [] := by
        rw [hFile] at hText
        cases landed with
        | nil => rfl
        | cons f landed => simp [Json.line] at hText
      subst hNil
      rfl
  | some text =>
      rw [hFile] at hText
      simp only [Option.getD_some] at hText
      have hKeep : (landed.map json.line).filter (fun line => strip line ≠ []) = landed.map json.line := by
        rw [List.filter_eq_self]
        intro line hLine
        obtain ⟨f, hf, rfl⟩ := List.mem_map.mp hLine
        simpa using strip_line (hPlain f hf).1
      simp only [hText, streamLines_lines fun f hf => (hPlain f hf).1, hKeep, hFacts]
      rfl

/-- Every fact has a place in the order, and no chain of predecessors returns to
its start. -/
structure Causal (host : Host) (facts : List Fact) : Prop where
  keyed : ∀ f ∈ facts, order host f = .ok (orderKey host f)
  acyclic : ∃ rank : Fact → Nat, ∀ f ∈ facts, ∀ g ∈ facts, Before g f → rank g < rank f

theorem Causal.mono {facts' : List Fact} (h : Causal host facts) (hSub : facts' ⊆ facts) : Causal host facts' := by
  obtain ⟨rank, hRank⟩ := h.acyclic
  exact ⟨fun f hf => h.keyed f (hSub hf), rank, fun f hf g hg => hRank f (hSub hf) g (hSub hg)⟩

/-- A fact no other names comes behind those that are there. -/
theorem Causal.snoc (h : Causal host facts) (hKey : order host f = .ok (orderKey host f))
    (hFresh : ∀ g ∈ facts, g.id ≠ f.id ∧ f.id ∉ g.after) (hSelf : f.id ∉ f.after) : Causal host (facts ++ [f]) := by
  obtain ⟨rank, hRank⟩ := h.acyclic
  obtain ⟨top, hTop⟩ : ∃ top, ∀ g ∈ facts, rank g < top := by
    refine ⟨(facts.map rank).sum + 1, fun g hg => ?_⟩
    have hLe := List.single_le_sum (by simp) _ (List.mem_map_of_mem (f := rank) hg)
    omega
  refine ⟨?_, fun g => if g.id = f.id then top else rank g, ?_⟩
  · intro g hg
    rcases List.mem_append.mp hg with hg | hg
    · exact h.keyed g hg
    · exact List.mem_singleton.mp hg ▸ hKey
  · intro g hg k hk hBefore
    have hOld : ∀ k ∈ facts ++ [f], k.id ≠ f.id → k ∈ facts := by
      intro k hk hne
      rcases List.mem_append.mp hk with hk | hk
      · exact hk
      · exact absurd (congrArg Fact.id (List.mem_singleton.mp hk)) hne
    have hNamed : k.id ≠ f.id := by
      intro hId
      have hAfter : f.id ∈ g.after := hId ▸ hBefore
      rcases List.mem_append.mp hg with hg | hg
      · exact (hFresh g hg).2 hAfter
      · exact hSelf (List.mem_singleton.mp hg ▸ hAfter)
    simp only [hNamed, if_false]
    split
    · exact hTop k (hOld k hk hNamed)
    · rename_i hg'
      exact hRank g (hOld g hg hg') k (hOld k hk hNamed) hBefore

/-- The file holds the lines of `landed`, each a fact whose write returned or was
cut off behind its last byte. -/
structure Entity.Holds (json : Json host) (s : Entity) (landed : List Fact) : Prop where
  text : s.file.getD [] = landed.flatMap json.line
  ids : (landed.map Fact.id).Nodup
  plain : ∀ f ∈ landed, json.writable f ∧ f.v = version
  causal : Causal host landed
  completed : s.completed ⊆ landed
  known : ∀ f ∈ landed, f ∈ s.completed ∨ f ∈ s.inFlight

theorem Entity.empty_holds (json : Json host) : Entity.empty.Holds json [] where
  text := rfl
  ids := List.nodup_nil
  plain := by simp
  causal := ⟨by simp, fun _ => 0, by simp⟩
  completed := List.Subset.refl _
  known := by simp

/-- Such a file is read back as its facts. -/
theorem Entity.Holds.read {s : Entity} (h : s.Holds json landed) : ∃ l, s.read host = .ok l ∧ ∀ f, f ∈ l ↔ f ∈ landed := by
  obtain ⟨rank, hRank⟩ := h.causal.acyclic
  have hFlat : [landed].flatten = landed := by simp
  obtain ⟨l, hUnion⟩ := @union_succeeds host [landed]
    (by
      rw [hFlat]
      exact fun f hf g hg hClash => hClash.2.1 (eq_of_id h.ids hf hg hClash.1))
    (by rw [hFlat]; exact h.causal.keyed) rank (by rw [hFlat]; exact hRank)
  have hLedger := union_ledger hUnion
  rw [hFlat] at hLedger
  refine ⟨l, by rw [read_lines h.text h.plain, hUnion]; rfl, fun f => ?_⟩
  rw [hLedger.mem]
  exact ⟨fun hf => hf.1, fun hf => ⟨hf, fun g hg hId => .inl (eq_of_id h.ids hg hf hId)⟩⟩

/-- A write that lands with all of its bytes or with none. -/
def Landing.Clean (line : List Char) : Landing → Prop
  | .whole | .stopped => True
  | .cut bytes => bytes = 0 ∨ line.length ≤ bytes

theorem Entity.Holds.write {s : Entity} {landing : Landing} (h : s.Holds json landed)
    (hPlain : json.writable f ∧ f.v = version) (hFresh : f.id ∉ landed.map Fact.id) (hCausal : Causal host (landed ++ [f]))
    (hClean : landing.Clean (json.line f)) :
    ∃ landed', landed' ⊆ landed ++ [f] ∧ (s.write json f landing).1.Holds json landed' := by
  have hIds : ((landed ++ [f]).map Fact.id).Nodup := by
    rw [List.map_append, List.nodup_append]
    refine ⟨h.ids, List.nodup_singleton _, fun a ha b hb hab => hFresh ?_⟩
    rw [List.map_singleton, List.mem_singleton] at hb
    exact hb ▸ hab ▸ ha
  have hAll : ∀ g ∈ landed ++ [f], json.writable g ∧ g.v = version := by
    intro g hg
    rcases List.mem_append.mp hg with hg | hg
    · exact h.plain g hg
    · exact List.mem_singleton.mp hg ▸ hPlain
  have hText : s.file.getD [] ++ json.line f = (landed ++ [f]).flatMap json.line := by
    rw [h.text]
    simp
  cases landing with
  | stopped => exact ⟨landed, by simp, h⟩
  | whole =>
      refine ⟨landed ++ [f], List.Subset.refl _, ⟨hText, hIds, hAll, hCausal, ?_, ?_⟩⟩
      · exact fun g hg => (List.mem_append.mp hg).elim (fun hg => List.mem_append_left _ (h.completed hg))
          (fun hg => List.mem_append_right _ hg)
      · intro g hg
        rcases List.mem_append.mp hg with hg | hg
        · exact (h.known g hg).imp (List.mem_append_left _) id
        · exact .inl (List.mem_append_right _ hg)
  | cut bytes =>
      rcases hClean with rfl | hLong
      · refine ⟨landed, by simp, ⟨?_, h.ids, h.plain, h.causal, h.completed, ?_⟩⟩
        · simpa [Entity.write] using h.text
        · exact fun g hg => (h.known g hg).imp id (List.mem_append_left _)
      · refine ⟨landed ++ [f], List.Subset.refl _, ⟨?_, hIds, hAll, hCausal, ?_, ?_⟩⟩
        · simpa [Entity.write, List.take_of_length_le hLong] using hText
        · exact fun g hg => List.mem_append_left _ (h.completed hg)
        · intro g hg
          rcases List.mem_append.mp hg with hg | hg
          · exact (h.known g hg).imp id (List.mem_append_left _)
          · exact .inr (List.mem_append_right _ hg)

end Brnrd.Stores
