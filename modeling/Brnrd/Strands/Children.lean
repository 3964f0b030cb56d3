import Brnrd.Lists.Entries
import Brnrd.Stores.FactStore

/-! The children of one ask: what its fact file says of each edge, the calls that
read it and write to it, and the order in which it is replayed. -/
namespace Brnrd.Strands

open Python Facts
open Stores (Recording prior)

structure Child where
  ask : String
  conversation : String
  parent : String
  edge : String
  run : String
  status : String
  report : Value
  branch : Value
  generation : Int

/-- `result`, by edge. -/
abbrev Children := List (String × Child)

/-- The ways a call raises. -/
inductive Failure where
  /-- `data[key]`. -/
  | key (name : String)
  /-- `int` of a generation. -/
  | int
  | union (e : UnionError)
  /-- `child needs an ask, conversation, parent, edge and run`. -/
  | incomplete
  /-- `child edge already exists`. -/
  | taken
  /-- `foreign or unknown child return`. -/
  | foreign
  /-- `stopped child cannot submit`. -/
  | stopped
  /-- `stop target is not a child of this conversation`. -/
  | otherConversation
  /-- `stop target is already stopped`. -/
  | alreadyStopped

/-- `data[key]`, where the writers put a text. -/
def field (data : Dict) (key : String) : Except Failure String :=
  match data.get key with
  | .str text => .ok text
  | _ => .error (.key key)

/-- `int(data.get("generation") or prior.generation + 1)`. -/
def generationOf (data : Dict) (prior : Child) : Except Failure Int :=
  match ((data.get "generation").orElse (.int (prior.generation + 1))).toInt with
  | some n => .ok n
  | none => .error .int

/-- `prior and prior.run == data["run"]`: the child a fact speaks of. -/
def spoken (result : Children) (data : Dict) : Except Failure (Option Child) := do
  let edge ← field data "edge"
  match Entries.get edge result with
  | none => .ok none
  | some prior => do
      let run ← field data "run"
      .ok (if prior.run = run then some prior else none)

/-- The loop's body. -/
def fold (ask : String) (result : Children) (fact : Fact) : Except Failure Children :=
  let data := fact.data
  if fact.kind = "child_started" then do
    let edge ← field data "edge"
    let conversation ← field data "conversation"
    let parent ← field data "parent"
    let run ← field data "run"
    .ok (Entries.set edge ⟨ask, conversation, parent, edge, run, "running", .null, .null, 0⟩ result)
  else if fact.kind = "child_returned" then do
    match ← spoken result data with
    | none => .ok result
    | some prior => do
        let generation ← generationOf data prior
        let edge ← field data "edge"
        .ok (Entries.set edge ⟨ask, prior.conversation, prior.parent, prior.edge, prior.run, "returned",
          data.get "report", data.get "branch", generation⟩ result)
  else if fact.kind = "child_stopped" then do
    match ← spoken result data with
    | none => .ok result
    | some prior => do
        let edge ← field data "edge"
        .ok (Entries.set edge ⟨ask, prior.conversation, prior.parent, prior.edge, prior.run, "stopped",
          prior.report, prior.branch, prior.generation⟩ result)
  else if fact.kind = "child_completed" then do
    match ← spoken result data with
    | none => .ok result
    | some prior =>
        if prior.status = "stopped" then .ok result
        else do
          let status ← field data "status"
          let edge ← field data "edge"
          .ok (Entries.set edge ⟨ask, prior.conversation, prior.parent, prior.edge, prior.run, status,
            data.get "report", data.get "branch", prior.generation⟩ result)
  else .ok result

/-- `supervisor.children(ask)`. -/
def children (host : Host) (ask : String) (facts : List Fact) : Except Failure Children := do
  let facts ← (union host [facts]).mapError .union
  facts.foldlM (fold ask) []

/-- A fact that a call has decided to record. -/
inductive Draft where
  | started (conversation parent edge run : String)
  | returned (edge run : String) (report branch : Value) (generation : Int)
  | stopped (by_ edge run reason : String)
  | completed (by_ edge run status report branch : String)
  deriving DecidableEq

/-- What `record` is given: the kind, the writer and the data. -/
def Draft.kind : Draft → String
  | .started .. => "child_started"
  | .returned .. => "child_returned"
  | .stopped .. => "child_stopped"
  | .completed .. => "child_completed"

def Draft.by_ : Draft → String
  | .started _ parent _ _ => parent
  | .returned _ run _ _ _ => run
  | .stopped by_ _ _ _ => by_
  | .completed by_ _ _ _ _ _ => by_

def Draft.data : Draft → Dict
  | .started conversation parent edge run =>
      [("conversation", .str conversation), ("parent", .str parent), ("edge", .str edge), ("run", .str run)]
  | .returned edge run report branch generation =>
      [("edge", .str edge), ("run", .str run), ("report", report), ("branch", branch), ("generation", .int generation)]
  | .stopped _ edge run reason => [("edge", .str edge), ("run", .str run), ("reason", .str reason)]
  | .completed _ edge run status report branch =>
      [("edge", .str edge), ("run", .str run), ("status", .str status), ("report", .str report), ("branch", .str branch)]

/-- The calls that write to the children of an ask. A stop finds its child by edge
or by run and so names the edge it stands at; `by_` is the run that calls. -/
inductive Call where
  | register (conversation parent edge run : String)
  | returned (conversation parent edge run : String) (report branch : Value)
  | stop (conversation by_ edge reason : String)
  | complete (by_ edge status report branch : String)

/-- What a call does with the children it has read: it raises, records nothing, or
goes on to record a fact. -/
def Call.check (ask : String) (read : Children) : Call → Except Failure (Option Draft)
  | .register conversation parent edge run =>
      if ask = "" ∨ conversation = "" ∨ parent = "" ∨ edge = "" ∨ run = "" then .error .incomplete
      else if (Entries.get edge read).isSome then .error .taken
      else .ok (some (.started conversation parent edge run))
  | .returned conversation parent edge run report branch =>
      match Entries.get edge read with
      | none => .error .foreign
      | some child =>
          if (child.conversation, child.parent, child.run) ≠ (conversation, parent, run) then .error .foreign
          else if child.status = "stopped" then .error .stopped
          else .ok (some (.returned edge run report branch (child.generation + 1)))
  | .stop conversation by_ edge reason =>
      match Entries.get edge read with
      | none => .ok none
      | some child =>
          if child.conversation ≠ conversation then .error .otherConversation
          else if child.status = "stopped" then .error .alreadyStopped
          else .ok (some (.stopped by_ child.edge child.run reason))
  | .complete by_ edge status report branch =>
      match Entries.get edge read with
      | none => .ok none
      | some child =>
          if child.status = "stopped" then .ok none
          else .ok (some (.completed by_ child.edge child.run status report branch))

/-- The facts of a file that only `record` writes to: each is stamped behind those
before it, and names no predecessor. -/
structure Recorded (facts : List Fact) : Prop where
  ids : (facts.map Fact.id).Nodup
  free : ∀ f ∈ facts, f.after = []
  stamped : ∀ f ∈ facts, f.hlc.isSome
  ticking : facts.Pairwise Below

theorem Recorded.nil : Recorded [] :=
  ⟨List.nodup_nil, by simp, by simp, List.Pairwise.nil⟩

/-- The tick is past every stamp that was seen. -/
theorem below_record {seen : List Fact} {f : Fact} (r : Recording) (hSeen : f ∈ seen) (hStamped : f.hlc.isSome) :
    Below f (r.fact seen) := by
  obtain ⟨stamp, hStamp⟩ := Option.isSome_iff_exists.mp hStamped
  refine ⟨stamp, _, hStamp, rfl, ?_⟩
  have hLast : stamp ≤ prior seen := by
    have hMem : stamp ∈ seen.filterMap Fact.hlc := List.mem_filterMap.mpr ⟨f, hSeen, hStamp⟩
    unfold prior
    cases hMax : (seen.filterMap Fact.hlc).max? with
    | none =>
        rw [List.max?_eq_none_iff] at hMax
        rw [hMax] at hMem
        cases hMem
    | some top => exact (List.max?_eq_some_iff.mp hMax).2 stamp hMem
  refine lt_of_le_of_lt hLast (Hlc.lt_iff.mpr ?_)
  dsimp only
  split
  · rename_i hBehind
    exact .inr ⟨(max_eq_right hBehind).symm, .inl (by omega)⟩
  · rename_i hAhead
    exact .inl (by omega)

variable {facts : List Fact}

theorem Recorded.record (h : Recorded facts) (r : Recording) (hFresh : r.id ∉ facts.map Fact.id) (hFree : r.after = []) :
    Recorded (facts ++ [r.fact facts]) where
  ids := by
    rw [List.map_append, List.nodup_append]
    refine ⟨h.ids, by simp, ?_⟩
    rintro ident hIdent _ hNew rfl
    obtain rfl : ident = r.id := by simpa [Recording.fact] using hNew
    exact hFresh hIdent
  free := by
    intro f hf
    rcases List.mem_append.mp hf with hf | hf
    · exact h.free f hf
    · exact List.mem_singleton.mp hf ▸ hFree
  stamped := by
    intro f hf
    rcases List.mem_append.mp hf with hf | hf
    · exact h.stamped f hf
    · exact List.mem_singleton.mp hf ▸ rfl
  ticking := by
    rw [List.pairwise_append]
    refine ⟨h.ticking, List.pairwise_singleton _ _, fun f hf g hg => ?_⟩
    exact List.mem_singleton.mp hg ▸ below_record r hf (h.stamped f hf)

theorem order_stamped {host : Host} {f : Fact} {stamp : Hlc} (h : f.hlc = some stamp) :
    order host f = .ok (toLex (stamp, f.id)) := by
  simp [order, h]

/-- Such a file is replayed in the order it was written. -/
theorem Recorded.union_eq (host : Host) (h : Recorded facts) : union host [facts] = .ok facts := by
  have hKeys : ∀ f ∈ facts, order host f = .ok (orderKey host f) := by
    intro f hf
    obtain ⟨stamp, hStamp⟩ := Option.isSome_iff_exists.mp (h.stamped f hf)
    simp only [orderKey, order_stamped hStamp]
  have hOrder : LinearExtension.PriorityOrder Before (orderKey host) facts := by
    have hFree := h.free
    have hTicking := h.ticking
    clear h hKeys
    induction facts with
    | nil => trivial
    | cons f rest ih =>
        obtain ⟨hFirst, hRest⟩ := List.pairwise_cons.mp hTicking
        refine ⟨fun g _ hBefore => ?_, fun g hg _ => ?_, ih (fun g hg => hFree g (List.mem_cons_of_mem _ hg)) hRest⟩
        · rw [Before, hFree f List.mem_cons_self] at hBefore
          cases hBefore
        · obtain ⟨a, b, ha, hb, hab⟩ := hFirst g hg
          simp only [orderKey, order_stamped ha, order_stamped hb]
          exact Prod.Lex.toLex_lt_toLex.mpr (.inl hab)
  have hFlat : [facts].flatten = facts := by simp
  obtain ⟨l, hUnion⟩ := @union_succeeds host [facts]
    (by
      rw [hFlat]
      exact fun f hf g hg hClash => hClash.2.1 (eq_of_id h.ids hf hg hClash.1))
    (by rw [hFlat]; exact hKeys) (fun _ => 0)
    (by
      rw [hFlat]
      intro f hf g _ hBefore
      rw [Before, h.free f hf] at hBefore
      cases hBefore)
  rw [hUnion, (union_ledger hUnion).unique (Ledger.self h.ids hOrder hKeys) (by simp)]

/-- One more fact is one more turn of the fold. -/
theorem children_record {ask : String} (host : Host) (h : Recorded facts) (r : Recording)
    (hFresh : r.id ∉ facts.map Fact.id) (hFree : r.after = []) :
    children host ask (facts ++ [r.fact facts]) = children host ask facts >>= (fold ask · (r.fact facts)) := by
  unfold children
  rw [h.union_eq, (h.record r hFresh hFree).union_eq]
  change (facts ++ [r.fact facts]).foldlM (fold ask) [] = facts.foldlM (fold ask) [] >>= (fold ask · (r.fact facts))
  rw [List.foldlM_append]
  simp only [List.foldlM_cons, List.foldlM_nil, bind_pure]

end Brnrd.Strands
