import LoggerBenchmarks.VendorSync

set_option autoImplicit false

/-!
# The clone cache

What a clone under `.vendor-cache` still has from the runs before, and when it resolves a
ref or the tip of a branch as a new clone does. A fetch prunes nothing, and it moves neither
the local branch nor `origin/HEAD`.
-/
namespace LoggerBenchmarks.CloneCaches
open PythonText PosixPaths StatefulPrograms VendorManifest VendorWorld VendorStaging VendorSync

def isHex (c : Char) : Bool := "0123456789abcdef".toList.contains c

structure Commit where
  id : Text
  hex : id.length = 40 ∧ id.all isHex = true
  deriving DecidableEq

/-- A repository at one time. `commits` are those that a clone gets. No branch may be called `HEAD`. -/
structure Upstream where
  branches : Text → Option Commit
  tags : Text → Option Commit
  head : Text
  commits : Commit → Bool
  named : branches "HEAD".toList = none

/-- `heads` are the local branches, `remotes` the tracking branches, and `head` is the branch
that `origin/HEAD` leads to. -/
structure Clone where
  url : Text
  head : Text
  heads : Text → Option Commit
  remotes : Text → Option Commit
  tags : Text → Option Commit
  commits : Commit → Bool

/-- `git clone --no-checkout` -/
def cloneOf (url : Text) (u : Upstream) : Clone where
  url := url
  head := u.head
  heads name := if name = u.head then u.branches name else none
  remotes := u.branches
  tags := u.tags
  commits := u.commits

/-- `git fetch --force --tags origin` -/
def fetchInto (u : Upstream) (c : Clone) : Clone :=
  { c with
    remotes := fun name => (u.branches name).or (c.remotes name)
    tags := fun name => (u.tags name).or (c.tags name)
    commits := fun commit => u.commits commit || c.commits commit }

def afterPrefix (front t : Text) : Option Text := if front.isPrefixOf t then some (t.drop front.length) else none

def Clone.tracking (c : Clone) (name : Text) : Option Commit :=
  if name = "HEAD".toList then c.remotes c.head else c.remotes name

def commitOf (ref : Text) : Option Commit :=
  if h : (ref.map Char.toLower).length = 40 ∧ (ref.map Char.toLower).all isHex = true then some ⟨_, h⟩ else none

def Clone.lookup (c : Clone) (name : Text) : Option Commit :=
  (c.tags name).or ((c.heads name).or ((afterPrefix "origin/".toList name).bind c.tracking))

/-- A commit id, the name of a tag or a branch, or a tracking branch by its full name. -/
def Clone.revParse (c : Clone) (ref : Text) : Option Commit :=
  match afterPrefix "refs/remotes/origin/".toList ref with
  | some name => c.tracking name
  | none =>
    match commitOf ref with
    | some commit => if c.commits commit then some commit else none
    | none => c.lookup ref

def lastSeen {α : Type} (f : Upstream → Option α) (past : List Upstream) : Option α :=
  past.foldl (fun found u => (f u).or found) none

/-- The name of the default branch when the clone was made. -/
def clonedHead : List Upstream → Text
  | [] => []
  | first :: _ => first.head

def localBranch (past : List Upstream) (name : Text) : Option Commit :=
  match past with
  | [] => none
  | first :: _ => if name = first.head then first.branches name else none

def tracked (past : List Upstream) (name : Text) : Option Commit :=
  lastSeen (fun u => u.branches (if name = "HEAD".toList then clonedHead past else name)) past

def trackedName (past : List Upstream) (name : Text) : Option Commit := (afterPrefix "origin/".toList name).bind (tracked past)

def namedCommit (past : List Upstream) (name : Text) : Option Commit :=
  (lastSeen (fun u => u.tags name) past).or ((localBranch past name).or (trackedName past name))

/-- What `rev-parse` finds in a clone into which the repositories have been fetched, as they were one after the other. -/
def foundCommit (past : List Upstream) (ref : Text) : Option Commit :=
  match afterPrefix "refs/remotes/origin/".toList ref with
  | some name => tracked past name
  | none =>
    match commitOf ref with
    | some commit => if past.any fun u => u.commits commit then some commit else none
    | none => namedCommit past ref

structure Remembers (past : List Upstream) (c : Clone) : Prop where
  head : c.head = clonedHead past
  heads : ∀ name, c.heads name = localBranch past name
  remotes : ∀ name, c.remotes name = lastSeen (fun u => u.branches name) past
  tags : ∀ name, c.tags name = lastSeen (fun u => u.tags name) past
  commits : ∀ commit, c.commits commit = past.any fun u => u.commits commit

def CachedFrom (past : List Upstream) (cache : Option Clone) : Prop :=
  match cache with
  | none => past = []
  | some c => past ≠ [] ∧ Remembers past c

theorem lastSeen_append {α : Type} (f : Upstream → Option α) (past : List Upstream) (u : Upstream) :
    lastSeen f (past ++ [u]) = (f u).or (lastSeen f past) := by
  unfold lastSeen
  rw [List.foldl_append]
  rfl

theorem clonedHead_append {past : List Upstream} (hpast : past ≠ []) (u : Upstream) :
    clonedHead (past ++ [u]) = clonedHead past := by
  obtain ⟨first, later, rfl⟩ := List.exists_cons_of_ne_nil hpast
  rfl

theorem localBranch_append {past : List Upstream} (hpast : past ≠ []) (u : Upstream) (name : Text) :
    localBranch (past ++ [u]) name = localBranch past name := by
  obtain ⟨first, later, rfl⟩ := List.exists_cons_of_ne_nil hpast
  rfl

/-- The first fetch brings what the clone has already. -/
theorem remembers_clone (url : Text) (u : Upstream) : Remembers [u] (fetchInto u (cloneOf url u)) where
  head := rfl
  heads _ := rfl
  remotes name := (Option.or_self (o := u.branches name)).trans Option.or_none.symm
  tags name := (Option.or_self (o := u.tags name)).trans Option.or_none.symm
  commits commit := (Bool.or_self (u.commits commit)).trans (Bool.or_false _).symm

theorem Remembers.setUrl {past : List Upstream} {c : Clone} (h : Remembers past c) (url : Text) :
    Remembers past { c with url := url } :=
  ⟨h.head, h.heads, h.remotes, h.tags, h.commits⟩

theorem Remembers.fetch {past : List Upstream} {c : Clone} (h : Remembers past c) (hpast : past ≠ []) (u : Upstream) :
    Remembers (past ++ [u]) (fetchInto u c) where
  head := h.head.trans (clonedHead_append hpast u).symm
  heads name := (h.heads name).trans (localBranch_append hpast u name).symm
  remotes name := by
    rw [lastSeen_append, ← h.remotes name]
    rfl
  tags name := by
    rw [lastSeen_append, ← h.tags name]
    rfl
  commits commit := by
    rw [List.any_append, ← h.commits commit, List.any_cons, List.any_nil, Bool.or_false, Bool.or_comm]
    rfl

theorem tracking_eq {past : List Upstream} {c : Clone} (h : Remembers past c) (name : Text) :
    c.tracking name = tracked past name := by
  unfold Clone.tracking tracked
  split_ifs with hhead
  · rw [h.remotes, h.head]
  · exact h.remotes name

theorem revParse_eq {past : List Upstream} {c : Clone} (h : Remembers past c) (ref : Text) :
    c.revParse ref = foundCommit past ref := by
  have htracking : c.tracking = tracked past := funext (tracking_eq h)
  unfold Clone.revParse foundCommit Clone.lookup namedCommit trackedName
  simp only [htracking, h.commits, h.tags, h.heads]

section Current

variable {past : List Upstream} {u : Upstream}

end Current

section Runs

variable {γ : Type}

/-- The programs that work on the cache, while the repositories are those of `remote`. -/
def gitAt (git : Git Clone γ) (remote : Text → Option Upstream) : Git Clone γ :=
  { git with
    clone := fun _ url =>
      match remote url with
      | some u => (some (cloneOf url u), true)
      | none => (none, false)
    setUrl := fun _ url c => ({ c with url := url }, true)
    fetch := fun _ c =>
      match remote c.url with
      | some u => (fetchInto u c, true)
      | none => (c, false)
    revParse := fun _ cache ref => (cache.bind fun c => c.revParse ref).map fun commit => commit.id ++ ['\n'] }

def checkoutAt (c : Checkout Clone γ) (remote : Text → Option Upstream) : Checkout Clone γ :=
  { c with git := gitAt c.git remote }

/-- The clone after `ensure_repo_cache`, when the repository is there. -/
def refreshed (url : Text) (u : Upstream) (cache : Option Clone) : Clone :=
  match cache with
  | none => fetchInto u (cloneOf url u)
  | some c => fetchInto u { c with url := url }

variable {c : Checkout Clone γ} {dep : Dependency} {remote : Text → Option Upstream} {u : Upstream} {w : World Clone γ}

theorem cachedFrom_refreshed {past : List Upstream} {cache : Option Clone} (h : CachedFrom past cache) (url : Text)
    (u : Upstream) : CachedFrom (past ++ [u]) (some (refreshed url u cache)) := by
  refine ⟨List.append_ne_nil_of_right_ne_nil past (List.cons_ne_nil u []), ?_⟩
  cases cache with
  | none =>
    obtain rfl : past = [] := h
    exact remembers_clone url u
  | some c => exact (h.2.setUrl url).fetch h.1 u

/-- An earlier run for the dependency, with its URL at that time and the repositories as they were. -/
structure Visit where
  url : Text
  remote : Text → Option Upstream

/-- The repositories that were fetched, as they were. -/
def seen (visits : List Visit) : List Upstream := visits.filterMap fun v => v.remote v.url

theorem printed_eq {past : List Upstream} (h : CachedFrom past (w.caches (cachePath c.root dep))) (n : ℕ) (ref : Text) :
    (checkoutAt c remote).git.revParse n (some (refreshed dep.repoUrl u (w.caches (cachePath c.root dep)))) ref =
      (foundCommit (past ++ [u]) ref).map fun commit => commit.id ++ ['\n'] := by
  have hremembers := (cachedFrom_refreshed h dep.repoUrl u).2
  change ((refreshed dep.repoUrl u (w.caches (cachePath c.root dep))).revParse ref).map _ = _
  rw [revParse_eq hremembers]

end Runs

def firstCommit : Commit := ⟨List.replicate 40 'a', by decide⟩

/-- The default branch is `master`. There was a branch `dev`, which has been deleted since. -/
def before : Upstream where
  branches name := if name = "master".toList ∨ name = "dev".toList then some firstCommit else none
  tags _ := none
  head := "master".toList
  commits commit := commit = firstCommit
  named := by decide

end LoggerBenchmarks.CloneCaches
