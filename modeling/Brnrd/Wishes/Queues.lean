import Brnrd.Lists.Entries
import Brnrd.Lists.Sorted
import Brnrd.Wishes.State

/-! Two queues, one per direction, derived at every read: the open wishes of the person in their
order, and what waits on the person, ranked where the wish it hangs from ranks. -/
namespace Brnrd.Wishes

open Python

/-- The ways `queues` raises. -/
inductive QueueError where
  | wish (error : WishError)
  /-- A birth that is no time. -/
  | clock
  deriving DecidableEq

/-- `Wish.ranked_at`. -/
def Wish.rankedAt (w : Wish) : String :=
  (w.tops.map Top.at_).foldl max w.saidAt

/-- `SHOWN`. -/
def shown : Nat :=
  12

/-- `Queues`. -/
structure Queues where
  mine : List Wish
  idle : List Wish
  yours : List Wish
  blocked : List (Value × List Wish)
  next : Option Wish
  why : String
  deriving DecidableEq, Inhabited

/-- `_to_person`. -/
def toPerson (heads : List (Value × String)) (ident : Value) : Bool :=
  let head := (Entries.get ident heads).getD ""
  head ≠ "" && !startsWith head "thread:"

/-- The id of a wish, which the keys of a wish map are: a text. -/
def idText : Value → Except WishError String
  | .str ident => .ok ident
  | _ => .error .type

def textOf (w : Wish) : String :=
  match w.id with
  | .str ident => ident
  | _ => ""

/-- `blocked.setdefault(ask.parent, []).append(ask)`. -/
def block (blocked : List (Value × List Wish)) (ask : Wish) : Except WishError (List (Value × List Wish)) :=
  if ask.parent.hashable then .ok (Entries.set ask.parent ((Entries.get ask.parent blocked).getD [] ++ [ask]) blocked)
  else .error .type

/-- The key of the ranked wishes, and that of those nobody put on top. -/
def rankedKey (w : Wish) : String ×ₗ String :=
  toLex (w.rankedAt, textOf w)

def bornKey (w : Wish) : String ×ₗ String :=
  toLex (w.born, textOf w)

/-- The wish that an entry of `yours` hangs from. -/
def hangsFrom (w : Wish) : Value :=
  if w.sender = .str "resident" then w.parent else w.id

section Read

variable (expired : String → Bool) (epoch : String → Option ℚ)

/-- A wish of the person that is open and not delivered. -/
def isWanted (w : Wish) : Except WishError Bool :=
  if w.sender = .str "person" then do
    if ← isOpen expired w then .ok ((← stateOf expired w) ≠ .str "delivered") else .ok false
  else .ok false

/-- An open ask to the person. -/
def isAsk (heads : List (Value × String)) (w : Wish) : Except WishError Bool :=
  if w.sender = .str "resident" then (isOpen expired w).map (· && toPerson heads w.id) else .ok false

def isDelivered (w : Wish) : Except WishError Bool :=
  if w.sender = .str "person" then (stateOf expired w).map fun state => state = .str "delivered" else .ok false

/-- `_epoch`. -/
def epochOf (at_ : String) : Except QueueError ℚ :=
  if at_ = "" then .ok 0
  else match epoch at_ with
    | some t => .ok t
    | none => .error .clock

/-- The key of an entry of `yours`. -/
def yoursKey (order : List Wish) (w : Wish) : Except QueueError (Nat ×ₗ ℚ ×ₗ String) := do
  let born ← epochOf epoch w.born
  .ok (toLex (order.findIdx fun other => other.id = hangsFrom w, toLex (-born, textOf w)))

/-- `"mine: " + pick["why"]`, or what else makes a wish the next one. -/
def whyOf (pick : Option Value) (top : Bool) : Except QueueError String :=
  match pick with
  | some (.str why) => .ok ("mine: " ++ why)
  | some _ => .error (.wish .type)
  | none => .ok (if top then "top" else "")

/-- `queues`. -/
def queues (found : List Wish) (heads : List (Value × String)) : Except QueueError Queues := do
  let wanted ← (Fallible.keep (isWanted expired) found).mapError .wish
  let _ ← (wanted.mapM fun w => idText w.id).mapError .wish
  let ranked := Sorted.down rankedKey (wanted.filter fun w => w.rankedAt ≠ "")
  let unranked := Sorted.down bornKey (wanted.filter fun w => w.rankedAt = "")
  let order := ranked ++ unranked
  let asks ← (Fallible.keep (isAsk expired heads) found).mapError .wish
  let blocked ← (asks.foldlM block []).mapError .wish
  let delivered ← (Fallible.keep (isDelivered expired) found).mapError .wish
  let _ ← ((asks ++ delivered).mapM fun w => idText w.id).mapError .wish
  let rows ← (asks ++ delivered).mapM fun w => do .ok (← yoursKey epoch order w, w)
  let isFree := fun (w : Wish) => (Entries.get w.id blocked).isNone
  let picks := wanted.filterMap fun w => if isFree w then w.pick.map fun pick => (pick, w) else none
  let next := match Sorted.down (fun item => item.1.at_) picks with
    | (pick, w) :: _ => (some w, some pick.why)
    | [] => (ranked.find? isFree, none)
  let why ← whyOf next.2 next.1.isSome
  .ok {
    mine := ranked.take shown
    idle := ranked.drop shown ++ unranked
    yours := (Sorted.up Prod.fst rows).map Prod.snd
    blocked := blocked
    next := next.1
    why := why }

end Read

section Shape

variable {expired : String → Bool} {epoch : String → Option ℚ} {found : List Wish} {heads : List (Value × String)}
  {q : Queues} {w : Wish}

/-- An id is in the way exactly where an ask hangs from it. -/
theorem get_block {asks : List Wish} {blocked : List (Value × List Wish)} (h : asks.foldlM block [] = .ok blocked)
    (ident : Value) : (Entries.get ident blocked).isSome = true ↔ ∃ ask ∈ asks, ask.parent = ident := by
  refine Fallible.foldlM_invariant (fun read blocked => (Entries.get ident blocked).isSome = true ↔
    ∃ ask ∈ read, ask.parent = ident) (by simp [Entries.get]) ?_ h
  intro read ask before after hBefore hStep
  unfold block at hStep
  split at hStep
  · rw [← Except.ok.inj hStep, Entries.get_set]
    by_cases hIs : ask.parent = ident
    · simp [hIs]
    · rw [if_neg hIs, hBefore]
      simp [hIs]
  · cases hStep

theorem idText_eq_ok {ident : String} (h : idText w.id = .ok ident) : w.id = .str (textOf w) := by
  unfold idText at h
  unfold textOf
  split at h
  · rename_i hId
    rw [hId]
  · cases h

/-- The place of what an entry hangs from, in an order; behind it all where it is not in it. -/
def placeIn (order : List Wish) (w : Wish) : Nat :=
  order.findIdx fun other => other.id = hangsFrom w

/-- What `queues` makes of the wanted wishes, the asks and the delivered ones. -/
structure Made (expired : String → Bool) (found : List Wish) (heads : List (Value × String)) (q : Queues)
    (wanted asks delivered : List Wish) : Prop where
  isWanted : Fallible.keep (isWanted expired) found = .ok wanted
  isAsk : Fallible.keep (isAsk expired heads) found = .ok asks
  isDelivered : Fallible.keep (isDelivered expired) found = .ok delivered
  texts : ∀ w ∈ wanted, w.id = .str (textOf w)
  order : q.mine ++ q.idle = Sorted.down rankedKey (wanted.filter fun w => w.rankedAt ≠ "") ++
    Sorted.down bornKey (wanted.filter fun w => w.rankedAt = "")
  blocked : ∀ ident, (Entries.get ident q.blocked).isSome = true ↔ ∃ ask ∈ asks, ask.parent = ident
  yours : q.yours.Perm (asks ++ delivered)
  places : q.yours.Pairwise fun a b => placeIn (q.mine ++ q.idle) a ≤ placeIn (q.mine ++ q.idle) b
  free : ∀ w, q.next = some w → (Entries.get w.id q.blocked).isNone = true
  top : (∀ w ∈ wanted, w.pick.isSome → (Entries.get w.id q.blocked).isSome = true) →
    q.next = (Sorted.down rankedKey (wanted.filter fun w => w.rankedAt ≠ "")).find?
      fun w => (Entries.get w.id q.blocked).isNone

/-- The entries of a loop that pairs each with its key, sorted by it. -/
theorem pairwise_rows {order l : List Wish} {rows : List ((Nat ×ₗ ℚ ×ₗ String) × Wish)}
    (h : (l.mapM fun w => do .ok (← yoursKey epoch order w, w)) = .ok rows) :
    ((Sorted.up Prod.fst rows).map Prod.snd).Perm l ∧
      ((Sorted.up Prod.fst rows).map Prod.snd).Pairwise fun a b => placeIn order a ≤ placeIn order b := by
  have hRows : ∀ row ∈ rows, (ofLex row.1).1 = placeIn order row.2 := by
    intro row hRow
    obtain ⟨w, -, hw⟩ := Fallible.mapM_from h hRow
    obtain ⟨key, hKey, hw⟩ := Fallible.peel hw
    obtain ⟨born, -, hKey⟩ := Fallible.peel hKey
    rw [← Except.ok.inj hw, ← Except.ok.inj hKey]
    rfl
  have hSnd : rows.map Prod.snd = l := by
    have hAll := Fallible.mapM_eq_ok.mp h
    clear h hRows
    induction hAll with
    | nil => rfl
    | cons hFirst _ ih =>
        obtain ⟨key, -, hFirst⟩ := Fallible.peel hFirst
        exact List.cons_eq_cons.mpr ⟨(congrArg Prod.snd (Except.ok.inj hFirst)).symm, ih⟩
  refine ⟨hSnd ▸ (Sorted.up_perm Prod.fst rows).map Prod.snd, List.pairwise_map.mpr ?_⟩
  refine (Sorted.pairwise_up Prod.fst rows).imp_of_mem fun {a b} ha hb hLe => ?_
  rw [← hRows a ((Sorted.up_perm _ rows).mem_iff.mp ha), ← hRows b ((Sorted.up_perm _ rows).mem_iff.mp hb)]
  exact Prod.Lex.monotone_fst a.1 b.1 hLe

theorem queues_made (h : queues expired epoch found heads = .ok q) :
    ∃ wanted asks delivered, Made expired found heads q wanted asks delivered := by
  obtain ⟨wanted, hWanted, h⟩ := Fallible.peel h
  obtain ⟨texts, hTexts, h⟩ := Fallible.peel h
  obtain ⟨asks, hAsks, h⟩ := Fallible.peel h
  obtain ⟨blocked, hBlocked, h⟩ := Fallible.peel h
  obtain ⟨delivered, hDelivered, h⟩ := Fallible.peel h
  obtain ⟨others, -, h⟩ := Fallible.peel h
  obtain ⟨rows, hRows, h⟩ := Fallible.peel h
  obtain ⟨why, -, h⟩ := Fallible.peel h
  have hBlock := get_block (Fallible.mapError_eq_ok.mp hBlocked)
  rw [← Except.ok.inj h]
  have hOrder : ∀ ranked unranked : List Wish, ranked.take shown ++ (ranked.drop shown ++ unranked) = ranked ++ unranked :=
    fun ranked unranked => by rw [← List.append_assoc, List.take_append_drop]
  have hYours := pairwise_rows hRows
  refine ⟨wanted, asks, delivered, Fallible.mapError_eq_ok.mp hWanted, Fallible.mapError_eq_ok.mp hAsks,
    Fallible.mapError_eq_ok.mp hDelivered, fun w hw => ?_, hOrder _ _, hBlock, hYours.1, ?_, ?_, ?_⟩
  · obtain ⟨text, -, hText⟩ := Fallible.mapM_mem (Fallible.mapError_eq_ok.mp hTexts) hw
    exact idText_eq_ok hText
  · dsimp only
    rw [hOrder]
    exact hYours.2
  · intro w hw
    dsimp only at hw ⊢
    split at hw
    · rename_i pick w' rest hPicks
      obtain rfl := Option.some.inj hw
      have hIn : (pick, w') ∈ wanted.filterMap fun w =>
          if (Entries.get w.id blocked).isNone then w.pick.map fun pick => (pick, w) else none :=
        (Sorted.down_perm (fun item => item.1.at_) _).mem_iff.mp (hPicks ▸ List.mem_cons_self)
      obtain ⟨v, -, hv⟩ := List.mem_filterMap.mp hIn
      split at hv
      · rename_i hFree
        obtain ⟨_, -, hIs⟩ := Option.map_eq_some_iff.mp hv
        obtain rfl : v = w' := congrArg Prod.snd hIs
        exact hFree
      · cases hv
    · exact List.find?_some (p := fun w : Wish => (Entries.get w.id blocked).isNone) hw
  · intro hAll
    dsimp only at hAll ⊢
    split
    · rename_i pick w' rest hPicks
      have hIn : (pick, w') ∈ wanted.filterMap fun w =>
          if (Entries.get w.id blocked).isNone then w.pick.map fun pick => (pick, w) else none :=
        (Sorted.down_perm (fun item => item.1.at_) _).mem_iff.mp (hPicks ▸ List.mem_cons_self)
      obtain ⟨v, hv, hIs⟩ := List.mem_filterMap.mp hIn
      split at hIs
      · rename_i hFree
        obtain ⟨pick', hPick, -⟩ := Option.map_eq_some_iff.mp hIs
        have hSome := hAll v hv (by rw [hPick]; rfl)
        rw [Option.isNone_iff_eq_none.mp hFree] at hSome
        cases hSome
      · cases hIs
    · rfl

end Shape

end Brnrd.Wishes
