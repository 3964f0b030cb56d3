import Brnrd.Wishes.Wish

/-! Where a wish stands, and whether anything is still owed on it. -/
namespace Brnrd.Wishes

open Python

/-- `r["delivered"]`, which the merge of a result sets. -/
def delivered (result : Result) : Except WishError Bool := do
  let value ← need result.data "delivered"
  .ok (result.held.isSome || value.truthy)

/-- `Wish.state`. -/
def stateOf (expired : String → Bool) (w : Wish) : Except WishError Value :=
  match w.verdict with
  | some row => need row.data "as"
  | none =>
      if w.answer ≠ "" then .ok (.str "answered")
      else do
        let flags ← w.results.mapM delivered
        let at_ := (((w.results.zip flags).filter Prod.snd).map fun item => item.1.at_).foldl max ""
        if at_ ≠ "" then .ok (.str (if w.heardAt ≤ at_ && expired at_ then "expired" else "delivered"))
        else if w.results ≠ [] then .ok (.str "granting")
        else
          match ← firstM (fun row => do .ok ((← need row.data "by") = .str "person")) w.reads with
          | some _ => .ok (.str "scoped")
          | none => .ok (.str (if w.reads = [] then "heard" else "read"))

/-- `SHUT`. -/
def shut : List Value :=
  [.str "accepted", .str "dropped", .str "expired", .str "answered"]

/-- `Wish.open`. -/
def isOpen (expired : String → Bool) (w : Wish) : Except WishError Bool := do
  let state ← stateOf expired w
  if state.hashable then .ok (state ∉ shut) else .error .type

end Brnrd.Wishes
