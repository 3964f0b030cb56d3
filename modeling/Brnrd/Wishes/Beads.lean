import Brnrd.Graph.Climbed
import Brnrd.Lists.Entries
import Brnrd.Port.Boundary
import Brnrd.Project.Reducer
import Brnrd.Wishes.Told

/-! Every item's parent, read from the facts, and the chain of its ancestors. -/
namespace Brnrd.Wishes

open Python Facts

/-- `opened-for` of a README: a text, or a list of texts. -/
inductive Opened where
  | text (ident : String)
  | items (idents : List String)

/-- What a chain reads of a README. -/
structure Thread where
  openedFor : Option Opened
  planRows : Option (List (Option Bool × String))

/-- `Beads`; its leases are left out, which no chain reads. -/
structure Beads where
  letters : List (String × Fact)
  facts : List (String × Fact)
  wishes : List Wish
  writers : List (String × String)
  main : List (String × Thread)

/-- The ways a bead's parent, or `Beads` itself, cannot be read. -/
inductive BeadError where
  | union (error : UnionError)
  | fold (error : Project.Raised)
  | wishes (error : WishError)
  /-- `self.letters[ident]`. -/
  | letter (ident : String)
  /-- `d["links"][0]` of what has no first. -/
  | links

/-- `letter_index(facts)`. -/
def letterIndex (host : Host) (facts : List Fact) : List (String × Fact) :=
  lettersOf host (facts.filter fun f => f.kind = "letter")

/-- `_sender_threads(facts)`, of the facts accepted. -/
def senderThreads (host : Host) (accepted : List Fact) : Except WishError (List (String × String)) :=
  (accepted.filter fun f => f.kind = "lease").foldlM (fun found f => do
    let strand ← need f.data "strand"
    let thread ← need f.data "thread"
    .ok (Entries.set (strand.toStr host) (thread.toStr host) found)) []

/-- `Beads(facts, main)`. -/
def Beads.of (host : Host) (checkout : Checkout) (facts : List Fact) (main : List (String × Thread)) :
    Except BeadError Beads := do
  let ordered ← (union host [facts]).mapError .union
  let state ← (Project.fold host ordered).mapError .fold
  let accepted := state.replay.accepted
  let letters := (letterIndex host facts).foldl (fun letters item => Entries.set item.1 item.2 letters)
    (letterIndex host accepted)
  let told ← (Brnrd.Wishes.wishes host checkout (wishRows facts)).mapError .wishes
  let writers ← (senderThreads host accepted).mapError .wishes
  .ok ⟨letters, facts.foldl (fun found f => Entries.set f.id f found) [], told, writers, main⟩

inductive Kind where
  | letter
  | wish
  | fact
  | thread
  | strand
  deriving DecidableEq

/-- `[a-z0-9]`. -/
def lowDigit (c : Char) : Bool :=
  'a' ≤ c && c ≤ 'z' || '0' ≤ c && c ≤ '9'

/-- `STRAND.fullmatch(ident)`. -/
def isStrand (ident : String) : Bool :=
  match ident.toList with
  | 's' :: '-' :: rest => match rest.dropWhile lowDigit with
      | '-' :: second => rest.takeWhile lowDigit ≠ [] && second ≠ [] && second.all lowDigit
      | _ => false
  | _ => false

/-- `kind_of(ident)`. -/
def kindOf (ident : String) : Kind :=
  if startsWith ident "thread:" then .thread
  else if startsWith ident "w-" then .wish
  else if isStrand ident then .strand
  else .letter

/-- `ROOTS`. -/
def rootKinds : List String :=
  ["person", "loom", "unconfirmed"]

/-- What the Plan rows of a thread cite. -/
def cited (rows : List (Option Bool × String)) : List String :=
  rows.flatMap fun row => match behindLast " · re: ".toList row.2.toList with
    | some text => (Port.wordsFrom [] (text.map fun c => if c = ',' then ' ' else c)).map String.ofList
    | none => []

/-- `resolve(letters, raw)`. -/
def resolve (letters : List (String × Fact)) (raw : String) : Option String :=
  if (Entries.get raw letters).isSome then some raw
  else match (letters.map Prod.fst).filter fun ident =>
      ('/' :: raw.toList).isSuffixOf ident.toList || (':' :: raw.toList).isSuffixOf ident.toList with
    | [ident] => some ident
    | _ => none

/-- `opened_for(data)`. -/
def openedFor (data : Thread) : List String :=
  match data.openedFor with
  | some (.text ident) => if ident = "" then [] else [ident]
  | some (.items idents) => idents
  | none => []

section
variable (host : Host) (b : Beads)

/-- `beads.kind(ident)`. -/
def Beads.kind (ident : String) : Kind :=
  if (Entries.get ident b.letters).isSome then .letter
  else if b.wishes.any (·.id = .str ident) then .wish
  else if (Entries.get ident b.facts).isSome then .fact
  else kindOf ident

/-- `d["links"][0]`, where there are links. -/
def firstLink (links : Value) : Except BeadError (Option String) :=
  if !links.truthy then .ok none
  else match links with
    | .arr (link :: _) => .ok (some (link.toStr host))
    | .str text => .ok (some (String.ofList (text.toList.take 1)))
    | _ => .error .links

/-- The letter's branch of `parent`. -/
def Beads.letterParent (f : Fact) : Except BeadError (Option String × String) :=
  let d := f.data
  let sender := (d.lookup "from").getD (.str "")
  if (d.get "re").truthy then .ok (some ((d.get "re").toStr host), "re")
  else do
    match ← firstLink host (d.get "links") with
    | some link => .ok (some link, "link")
    | none =>
        if f.kind = "letter" ∧ (startsWith (sender.toStr host) "p-" ∨ startsWith (sender.toStr host) "person:") ∨
            startsWith (sender.toStr host) "stranger:" then .ok (none, "person")
        else if d.get "from" = .str "loom" then
          match f.after.head?.filter fun ident => (Entries.get ident b.facts).isSome with
          | some ident => .ok (some ident, "after")
          | none => .ok (none, "loom")
        else if startsWith f.by_ "strand:" then
          .ok (some (removePrefix f.by_ "strand:"), if (d.get "reincarnate").truthy then "reincarnate" else "strand")
        else .ok (none, "dangling")

/-- The thread's branch of `parent`. -/
def Beads.threadParent (data : Thread) : Option String × String :=
  match (openedFor data).head? with
  | some ident => (some ident, "opened-for")
  | none =>
      let idents := cited (data.planRows.getD [])
      let found := (idents.find? fun raw => b.wishes.any (·.id = .str raw)) <|>
        (idents.filterMap (resolve b.letters)).head?
      match found with
      | some ident => (some ident, "row")
      | none => (none, "dangling")

/-- The wish's branch of `parent`. -/
def Beads.wishParent (w : Wish) : Option String × String :=
  let verdict := (w.verdict.map Row.data).getD []
  let ref := ((Dict.get verdict "ref").orElse (.str "")).toStr host
  if (Entries.get ref b.letters).isSome then (some ref, "verdict")
  else if w.origin = "derived" then (none, "unconfirmed")
  else match w.said.head? with
    | some say => (some say.letter, "says")
    | none => if w.thread.truthy then (some ("thread:" ++ w.thread.toStr host), "asked") else (none, "dangling")

/-- `beads.parent(ident)`. -/
def Beads.parent (ident : String) : Except BeadError (Option String × String) :=
  match b.kind ident with
  | .letter => match Entries.get ident b.letters with
      | some f => b.letterParent host f
      | none => .error (.letter ident)
  | .fact => .ok (none,
      if (Entries.get ident b.facts).any fun f => startsWith f.by_ "loom:" then "loom" else "dangling")
  | .strand => .ok (match Entries.get ident b.writers with
      | some thread => (some ("thread:" ++ thread), "thread")
      | none => (none, "dangling"))
  | .thread => .ok (b.threadParent ((Entries.get (removePrefix ident "thread:") b.main).getD ⟨none, none⟩))
  | .wish => .ok (match b.wishes.find? (·.id = .str ident) with
      | some w => b.wishParent host w
      | none => (none, "dangling"))

/-- A letter that the ledger does not hold. -/
def Beads.missing (ident : String) : Bool :=
  (Entries.get ident b.letters).isNone && (Entries.get ident b.facts).isNone && b.kind ident = .letter

/-- `beads.chain(ident)`; `seen` holds `ident` and the ids of `out`. -/
def Beads.chain (rounds : ℕ) (ident : String) : Option (Except BeadError (List (String × String) × String)) :=
  Climbed.climb (b.parent host) b.missing "dangling" ident rounds [] ident

/-- Every id that is a parent. -/
def Beads.parents : List String :=
  b.letters.filterMap (fun item => (b.letterParent host item.2).toOption.bind Prod.fst) ++
    b.writers.map (fun item => "thread:" ++ item.2) ++ b.main.filterMap (fun item => (b.threadParent item.2).1) ++
    b.wishes.filterMap fun w => (b.wishParent host w).1

end

variable {host : Host} {b : Beads} {ident other : String}

/-- A parent is read from a letter, a lease, a README or a wish. -/
theorem Beads.mem_parents (h : Climbed.Parent (b.parent host) ident other) : other ∈ b.parents host := by
  obtain ⟨edge, h⟩ := h
  unfold Beads.parent at h
  unfold Beads.parents
  simp only [List.mem_append]
  split at h
  · split at h
    · rename_i f hGet
      exact .inl (.inl (.inl (List.mem_filterMap.mpr ⟨_, Entries.mem_of_get hGet, by simp [h, Except.toOption]⟩)))
    · cases h
  · cases h
  · have hPair := Except.ok.inj h
    split at hPair
    · rename_i thread hGet
      obtain ⟨rfl, -⟩ := (Prod.mk.injEq ..).mp hPair |>.imp_left Option.some.inj
      exact .inl (.inl (.inr (List.mem_map.mpr ⟨_, Entries.mem_of_get hGet, rfl⟩)))
    · cases hPair
  · have hPair := Except.ok.inj h
    cases hGet : Entries.get (removePrefix ident "thread:") b.main with
    | none =>
        rw [hGet] at hPair
        cases hPair
    | some data =>
        rw [hGet] at hPair
        exact .inl (.inr (List.mem_filterMap.mpr ⟨_, Entries.mem_of_get hGet, congrArg Prod.fst hPair⟩))
  · have hPair := Except.ok.inj h
    split at hPair
    · rename_i w hFind
      exact .inr (List.mem_filterMap.mpr ⟨w, List.mem_of_find?_eq_some hFind, congrArg Prod.fst hPair⟩)
    · cases hPair

end Brnrd.Wishes
