import Brnrd.Lists.Entries
import Mathlib.Data.List.Basic

/-! The clone of a strand's run: its branch is landed in the host and pushed before the
clone is removed. Git is what its documentation says of the commands that are called. -/
namespace Brnrd.Placement

/-- The commits that `git rev-list` lists of a commit: itself and those before it. -/
structure History (C : Type) where
  ancestors : C → List C
  self : ∀ c, c ∈ ancestors c
  closed : ∀ c, ∀ a ∈ ancestors c, ancestors a ⊆ ancestors c

/-- Refs by their full names. -/
abbrev Refs (C : Type) := List (String × C)

/-- `HEAD`: a branch, which may have no commit yet, or a commit, or nothing that git can
resolve. -/
inductive Head (C : Type) where
  | branch (name : String)
  | detached (commit : C)
  | broken

/-- A clone; `dirty` is whether it has untracked, unstaged or staged changes. -/
structure Clone (C : Type) where
  head : Head C
  refs : Refs C
  dirty : Bool

structure Remote (C : Type) where
  name : String
  refs : Refs C

/-- The host's repository: its objects and refs, the branch that is checked out, those
checked out in other worktrees, and the remotes. -/
structure Host (C : Type) where
  objects : List C
  refs : Refs C
  current : Option String
  elsewhere : List String
  remotes : List (Remote C)

/-- How the commands end where they can succeed: `git status`, the fetch, the update of
the host's branch and the push; `raises` is an exception out of the landing. -/
structure Outcome where
  status : Bool
  raises : Bool
  fetch : Bool
  update : Bool
  push : Bool

/-- Why a branch is not landed. -/
inductive Refusal where
  /-- The fetch, or the update of the ref. -/
  | git
  /-- `{branch} does not resolve in clone {clone_path}`. -/
  | unresolved (branch : String)
  /-- `cannot resolve source ref: {source_ref}`. -/
  | source
  /-- `{source_ref} is not a fast-forward of {branch}`. -/
  | diverged (branch : String)
  /-- `{branch} is checked out at {checkout_path}`. -/
  | checkedOut (branch : String)

inductive Detail where
  | none
  /-- `clone has no branch`. -/
  | noBranch
  /-- `no commits past the seed; nothing published`. -/
  | empty
  | land (why : Refusal)
  | push
  /-- `clone has uncommitted changes`. -/
  | dirty

structure Publication where
  branch : String
  landed : Bool
  pushed : Bool
  released : Bool
  detail : Detail
  empty : Bool

/-- `BranchUnresolvable`, or `PlacementError`. -/
inductive Raised where
  | branch
  | placement

/-- What a publication leaves: its result, the host, and whether the clone is gone. -/
structure After (C : Type) where
  result : Except Raised Publication
  host : Host C
  removed : Bool

def branchRef (branch : String) : String :=
  "refs/heads/" ++ branch

def tagRef (name : String) : String :=
  "refs/tags/" ++ name

variable {C : Type}

/-- `current_branch(clone)`. -/
def Clone.currentBranch (clone : Clone C) : Except Raised (Option String) :=
  match clone.head with
  | .branch name => .ok (some name)
  | .detached _ => .ok none
  | .broken => .error .branch

/-- `rev_parse(clone, "HEAD")`. -/
def Clone.headCommit (clone : Clone C) : Option C :=
  match clone.head with
  | .branch name => Entries.get (branchRef name) clone.refs
  | .detached commit => some commit
  | .broken => none

/-- The commit that `git fetch <clone> <branch>` resolves the name to: a tag of the name
goes before the branch. -/
def Clone.fetched (clone : Clone C) (branch : String) : Option C :=
  (Entries.get (tagRef branch) clone.refs).or (Entries.get (branchRef branch) clone.refs)

variable [DecidableEq C] (history : History C)

/-- `fast_forward_branch(repo_root, branch, source)`. -/
def Host.fastForward (host : Host C) (branch : String) (source : C) (o : Outcome) : Host C × Option Refusal :=
  if source ∉ host.objects then (host, some .source)
  else if (Entries.get (branchRef branch) host.refs).any (· ∉ history.ancestors source) then (host, some (.diverged branch))
  else if host.current ≠ some branch ∧ branch ∈ host.elsewhere then (host, some (.checkedOut branch))
  else if o.update then ({ host with refs := Entries.set (branchRef branch) source host.refs }, none)
  else (host, some .git)

/-- `land_clone_branch(repo_root, clone, branch)`. -/
def landCloneBranch (clone : Clone C) (host : Host C) (branch : String) (o : Outcome) : Host C × Option Refusal :=
  match if o.fetch then clone.fetched branch else none with
  | none => (host, some .git)
  | some commit =>
      let host := { host with objects := host.objects ++ history.ancestors commit }
      match Entries.get (branchRef branch) clone.refs with
      | none => (host, some (.unresolved branch))
      | some source => host.fastForward history branch source o

/-- The remote named `origin`. -/
def Host.origin (host : Host C) : Option (Remote C) :=
  host.remotes.find? (·.name = "origin")

/-- `git push -u origin branch`: the host's branch goes to the remote's, if no tag has its
name and it is a fast-forward there. -/
def Host.push (host : Host C) (origin : Remote C) (branch : String) (o : Outcome) : Host C × Bool :=
  match Entries.get (branchRef branch) host.refs with
  | none => (host, false)
  | some tip =>
      if (Entries.get (tagRef branch) host.refs).isSome ∨
          (Entries.get (branchRef branch) origin.refs).any (· ∉ history.ancestors tip) then (host, false)
      else if o.push then
        ({ host with remotes := host.remotes.map fun remote => if remote.name = "origin" then
            { remote with refs := Entries.set (branchRef branch) tip remote.refs } else remote }, true)
      else (host, false)

/-- `_no_commits_past_seed(allocation)`. -/
def Clone.noCommitsPast (clone : Clone C) (seed : Option C) : Bool :=
  match seed, clone.headCommit with
  | some seed, some head => head = seed || head ∈ history.ancestors seed
  | _, _ => false

/-- `publish(repo_root, allocation)`, for a clone and the commit that it sprouted from. -/
def publish (host : Host C) (clone : Clone C) (seed : Option C) (o : Outcome) : After C :=
  match clone.currentBranch with
  | .error e => ⟨.error e, host, false⟩
  | .ok none => ⟨.ok ⟨"", false, false, false, .noBranch, false⟩, host, false⟩
  | .ok (some branch) =>
      let dirty := !o.status || clone.dirty
      if !dirty && clone.noCommitsPast history seed then
        ⟨.ok ⟨branch, false, false, true, .empty, true⟩, host, true⟩
      else if o.raises then ⟨.error .placement, host, false⟩
      else
        let (host, refused) := landCloneBranch history clone host branch o
        match refused with
        | some why => ⟨.ok ⟨branch, false, false, false, .land why, false⟩, host, false⟩
        | none => match host.origin with
            | some origin =>
                let (host, pushed) := host.push history origin branch o
                if !pushed then ⟨.ok ⟨branch, true, false, false, .push, false⟩, host, false⟩
                else if dirty then ⟨.ok ⟨branch, true, true, false, .dirty, false⟩, host, false⟩
                else ⟨.ok ⟨branch, true, true, true, .none, false⟩, host, true⟩
            | none =>
                if dirty then ⟨.ok ⟨branch, true, false, false, .dirty, false⟩, host, false⟩
                else ⟨.ok ⟨branch, true, false, true, .none, false⟩, host, true⟩

end Brnrd.Placement
