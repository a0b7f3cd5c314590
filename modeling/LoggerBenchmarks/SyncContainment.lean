import LoggerBenchmarks.VendorStaging

set_option autoImplicit false

/-!
# Where a synchronisation reaches

Without symbolic links everything `sync_dependency` removes, creates, renames or
fills lies strictly below the repository root, unless the target is the root itself.
-/
namespace LoggerBenchmarks.SyncContainment
open PythonText PosixPaths FileTrees GlobPatterns StatefulPrograms LineEndings VendorManifest VendorWorld
open EolRestoring VendorStaging

variable {κ γ : Type} {root : Path}

def Below (root path : Path) : Prop := root <+: path ∧ path ≠ root

/-- The root is a directory, nothing is a link, and all that was done was done below the root. -/
structure Inside (root : Path) (files : Node Bytes) (log : List Event) : Prop where
  directory : ∃ d, Node.get root files = some d ∧ d.isDirectory = true
  links : Node.NoLinks files
  done : ∀ event ∈ log, ∀ path ∈ event.paths, Below root path

theorem Below.append {path : Path} (h : root <+: path) (n : Name) : Below root (path ++ [n]) := by
  refine ⟨h.trans (List.prefix_append _ _), fun heq => ?_⟩
  have hlen := h.length_le
  rw [← heq, List.length_append, List.length_singleton] at hlen
  omega

theorem Below.exists_append {path : Path} (h : Below root path) : ∃ q, q ≠ [] ∧ path = root ++ q := by
  obtain ⟨q, rfl⟩ := h.1
  refine ⟨q, ?_, rfl⟩
  rintro rfl
  exact h.2 (List.append_nil root)

theorem Below.ne_nil {path : Path} (h : Below root path) : path ≠ [] := by
  rintro rfl
  exact h.2 (List.prefix_nil.1 h.1).symm

theorem Below.parent {target : Path} (h : Below root target) : root <+: target.dropLast := by
  obtain ⟨q, hq, rfl⟩ := h.exists_append
  rw [List.dropLast_append_of_ne_nil hq]
  exact List.prefix_append _ _

theorem Inside.replace {t : Node Bytes} {l : List Event} {path : Path} {new : Option (Node Bytes)}
    (h : Inside root t l) (hbelow : Below root path) (hnew : ∀ c, new = some c → Node.NoLinks c) :
    Inside root (Node.replace path new t) l := by
  obtain ⟨q, hq, rfl⟩ := hbelow.exists_append
  obtain ⟨d, hd, hdir⟩ := h.directory
  exact ⟨Node.isDirectory_replace hd hdir hq new, h.links.replace hnew, h.done⟩

theorem Inside.edit {t : Node Bytes} {l : List Event} {path : Path} {new : Option (Node Bytes)} {event : Event}
    (h : Inside root t l) (hbelow : Below root path) (hnew : ∀ c, new = some c → Node.NoLinks c)
    (hevent : ∀ p ∈ event.paths, Below root p) : Inside root (Node.replace path new t) (event :: l) := by
  obtain ⟨hdir, hlinks, hdone⟩ := h.replace hbelow hnew
  refine ⟨hdir, hlinks, fun e he => ?_⟩
  rcases List.mem_cons.1 he with rfl | he
  · exact hevent
  · exact hdone e he

theorem noLinks_dir_nil : Node.NoLinks (.dir [] : Node Bytes) := by
  intro p target hp
  cases p with
  | nil => cases hp
  | cons n p => cases hp

theorem noLinks_file (data : Bytes) : Node.NoLinks (.file data) := by
  intro p target hp
  cases p with
  | nil => cases hp
  | cons n p => cases hp

/-- The assumptions on the programs: without links in the archive there are none in
what they leave, and git never prints a path with `..`. -/
structure PlainGit (git : Git κ γ) : Prop where
  tar : ∀ n stream t, Node.NoLinks t → Node.NoLinks (git.tar n stream t).1
  apply : ∀ n patch t, Node.NoLinks t → Node.NoLinks (git.apply n patch t).1
  lsFiles : ∀ n repository target listing, git.lsFiles n repository target = some listing →
    ∀ line ∈ listing, dotDot ∉ (parse line.1).parts

/-- Without links a tracked path leads to its own place in the staging directory. -/
theorem staged_place {c : Checkout κ γ} {dep : Dependency} {destination : Path} {repoPath : Text}
    {t : Node Bytes} {place : Path} {data : Bytes} (hgit : PlainGit c.git) (htracked : Tracked c dep repoPath)
    (hdot : dotDot ∉ destination) (ht : Node.NoLinks t)
    (h : stagedFile dep destination repoPath t = some (place, data)) : destination <+: place := by
  obtain ⟨relative, hrel, hfollow, -⟩ := stagedFile_eq_some.1 h
  obtain ⟨n, repository, listing, eolClass, hlist, hmem⟩ := htracked
  have hparts := relativeTo_parts hrel
  have hno : dotDot ∉ destination ++ relative := by
    intro hm
    rcases List.mem_append.1 hm with hm | hm
    · exact hdot hm
    · refine hgit.lsFiles n repository _ listing hlist _ hmem ?_
      rw [hparts]
      exact List.mem_append_right _ hm
  rw [Node.follow_linkFree (ht.linkFree [] _) hno hfollow, List.nil_append]
  exact List.prefix_append _ _

theorem below_of_missing {t : Node Bytes} {q staging : Path} {d : Node Bytes} (hroot : Node.get root t = some d)
    (hstaging : root <+: staging) (hq : q <+: staging) (hnone : Node.get q t = none) : Below root q := by
  rcases List.prefix_or_prefix_of_prefix hstaging hq with hle | hle
  · refine ⟨hle, ?_⟩
    rintro rfl
    rw [hroot] at hnone
    cases hnone
  · obtain ⟨r, rfl⟩ := hle
    obtain ⟨d', hd'⟩ := Node.exists_get_of_append hroot
    rw [hd'] at hnone
    cases hnone

theorem unharmed_inside {c : Checkout κ γ} {dep : Dependency} (hgit : PlainGit c.git) {target : Path}
    (hdot : dotDot ∉ target) (hbelow : Below root target) : Unharmed c dep target fun w => Inside root w.files w.log := by
  have hparent := hbelow.parent
  have hstaging : Below root (stagingPath target c.pid) := Below.append hparent _
  refine ⟨⟨fun w h => h, ?_, ?_, ?_, ?_⟩, ?_⟩
  · intro w d n _ _ _ h
    have hn : Below root (target.dropLast ++ [n]) := Below.append hparent n
    exact h.edit hn (fun _ hc => nomatch hc) fun p hp => (List.mem_singleton.1 hp) ▸ hn
  · intro w q hq _ hnone h
    obtain ⟨d, hd, -⟩ := h.directory
    have hqbelow := below_of_missing hd hstaging.1 hq hnone
    exact h.edit hqbelow (fun _ hc => Option.some.inj hc ▸ noLinks_dir_nil)
      fun p hp => (List.mem_singleton.1 hp) ▸ hqbelow
  · intro w d n stream commit hd h
    exact h.edit hstaging (fun _ hc => Option.some.inj hc ▸ hgit.tar n stream d (h.links.below hd))
      fun p hp => (List.mem_singleton.1 hp) ▸ hstaging
  · intro w d n patch hd h
    exact h.edit hstaging (fun _ hc => Option.some.inj hc ▸ hgit.apply n patch d (h.links.below hd))
      fun p hp => (List.mem_singleton.1 hp) ▸ hstaging
  · intro w repoPath place data after htracked hstaged _ h
    have hplace := staged_place hgit htracked (dotDot_not_mem_stagingPath hdot c.pid) h.links hstaged
    have hplacebelow : Below root place := by
      refine ⟨hstaging.1.trans hplace, ?_⟩
      rintro rfl
      exact hstaging.2 (hplace.eq_of_length_le hstaging.1.length_le)
    exact h.edit hplacebelow (fun _ hc => Option.some.inj hc ▸ noLinks_file after)
      fun p hp => (List.mem_singleton.1 hp) ▸ hplacebelow

theorem inside_syncDependency {c : Checkout κ γ} {dep : Dependency} (hgit : PlainGit c.git)
    (htarget : targetPath c.root dep ≠ c.root) (commit : Text) (applyLocalPatches : Bool) :
    Keeps (fun w => Inside c.root w.files w.log) (syncDependency c dep commit applyLocalPatches) := by
  by_cases hguard : c.root <+: targetPath c.root dep
  · have hbelow : Below c.root (targetPath c.root dep) := ⟨hguard, htarget⟩
    have hstaging : Below c.root (stagingPath (targetPath c.root dep) c.pid) := Below.append hbelow.parent _
    refine keeps_syncDependency (unharmed_inside hgit (dotDot_not_mem_resolve _) hbelow) ?_ ?_
    · intro w d _ _ _ h
      exact h.edit hbelow (fun _ hc => nomatch hc) fun p hp => (List.mem_singleton.1 hp) ▸ hbelow
    · intro w d _ hd _ h
      have hremoved : Inside c.root (Node.replace (stagingPath (targetPath c.root dep) c.pid) none w.files) w.log :=
        h.replace hstaging fun _ hc => nomatch hc
      refine hremoved.edit hbelow (fun _ hc => Option.some.inj hc ▸ h.links.below hd) fun p hp => ?_
      rcases List.mem_cons.1 hp with rfl | hp
      · exact hstaging
      · rw [List.mem_singleton.1 hp]
        exact hbelow
  · rw [syncDependency, if_neg hguard]
    exact keeps_raise _

def chain : Path → Node Bytes
  | [] => .dir []
  | n :: p => .dir [(n, chain p)]

theorem get_chain_append (p q : Path) : Node.get p (chain (p ++ q)) = some (chain q) := by
  induction p with
  | nil => rfl
  | cons n p ih =>
    rw [List.cons_append, chain, Node.get_cons, Node.child, List.lookup_cons_self, Option.bind_some, ih]

theorem isDirectory_chain (p : Path) : ∃ cs, chain p = .dir cs := by
  cases p with
  | nil => exact ⟨_, rfl⟩
  | cons n p => exact ⟨_, rfl⟩

theorem noLinks_chain (p : Path) : Node.NoLinks (chain p) := by
  induction p with
  | nil => exact noLinks_dir_nil
  | cons n p ih =>
    intro q target hq
    cases q with
    | nil => cases hq
    | cons m q =>
      obtain ⟨c, hc, hget⟩ := Option.bind_eq_some_iff.1 hq
      rw [chain, Node.child, List.lookup_cons] at hc
      split at hc
      · rw [← Option.some.inj hc] at hget
        exact ih q target hget
      · cases hc

def idleCheckout (root : Path) : Checkout κ γ where
  root := root
  pid := 0
  git := idleGit
  dumps _ := []

def chainWorld (repository : γ) (root : Path) : World κ γ where
  files := chain root
  caches _ := none
  repository := repository
  manifest := ⟨[], []⟩
  calls := 0
  log := []

theorem plain_idleGit : PlainGit (idleGit : Git κ γ) where
  tar _ _ _ ht := ht
  apply _ _ _ ht := ht
  lsFiles _ _ _ _ hlist line hline := by
    rw [← Option.some.inj hlist] at hline
    cases hline

variable (repository : γ)

/-- With a root below `/` as target the staging directory is made beside the root. -/
theorem created_beside_root (dep : Dependency) {parent : Path} {name : Name}
    (htarget : targetPath (parent ++ [name]) dep = parent ++ [name]) :
    Event.created (stagingPath (parent ++ [name]) 0) ∈
      (syncDependency (idleCheckout (parent ++ [name]) : Checkout κ γ) dep [] false
        (chainWorld repository (parent ++ [name]))).2.log := by
  set c : Checkout κ γ := idleCheckout (parent ++ [name]) with hc
  set w : World κ γ := chainWorld repository (parent ++ [name]) with hw
  set staging := stagingPath (parent ++ [name]) 0 with hstaging
  have hparent : (parent ++ [name]).dropLast = parent := List.dropLast_concat
  have hname : nameOf (parent ++ [name]) = name := by rw [nameOf, List.getLast?_concat, Option.getD_some]
  have hmissing : Node.get staging w.files = none := by
    have hne := stagingName_ne_self name (str 0)
    rw [hstaging, stagingPath, hparent, hname, hw, chainWorld, Node.get_append, get_chain_append, Option.bind_some,
      chain, Node.get_cons, Node.child, List.lookup_cons, beq_false_of_ne hne]
    rfl
  have hstale : removeStale (parent ++ [name]) w = (.ok (), w) := by
    have hnone : staleStagingNames (parent ++ [name]) w.files = [] := by
      rw [staleStagingNames, hparent, hname, hw, chainWorld, get_chain_append, Option.elim_some, chain, Node.names,
        List.map_cons, List.map_nil, List.dedup_cons_of_notMem List.not_mem_nil, List.dedup_nil,
        List.filter_cons_of_neg, List.filter_nil]
      rw [stagingName, fnmatch_dot_cons]
      exact Bool.false_ne_true
    rw [removeStale, observe_bind, hnone]
    rfl
  have hexists : pathExists w.files staging = false := by
    rw [pathExists, Option.isSome_eq_false_iff, Option.isNone_iff_eq_none, Option.eq_none_iff_forall_ne_some]
    rintro ⟨path, t⟩ hstat
    obtain ⟨hfollow, hget⟩ := Node.stat_eq_some.1 hstat
    have hdot : dotDot ∉ staging :=
      dotDot_not_mem_stagingPath (htarget ▸ dotDot_not_mem_resolve _) 0
    rw [Node.follow_linkFree ((noLinks_chain _).linkFree [] _) hdot hfollow, List.nil_append, hmissing] at hget
    cases hget
  have hmkdirs : mkdirs staging w = (.ok (), w.edit (.created staging)
      (Node.replace staging (some (.dir [])) w.files)) := by
    rw [hstaging, stagingPath, hparent]
    refine mkdirs_run (fun q hq => ?_) ?_
    · obtain ⟨r, rfl⟩ := hq
      obtain ⟨cs, hcs⟩ := isDirectory_chain (r ++ [name])
      exact ⟨cs, by rw [hw, chainWorld, List.append_assoc, get_chain_append, hcs]⟩
    · rw [← hmissing, hstaging, stagingPath, hparent]
  let Made : World κ γ → Prop := fun s => Event.created staging ∈ s.log
  have hexport : Triple (fun s => s = w) (exportRef c none [] staging) (fun _ => Made) fun _ => Made := by
    refine triple_bind (Q := fun _ => Made) ?_ fun _ => ?_
    · rintro s rfl
      rw [hmkdirs]
      exact List.mem_cons_self
    · refine keeps_bind (keeps_nextCall fun _ h => h) fun n => keeps_bind (keeps_nextCall fun _ h => h) fun m => ?_
      refine keeps_bind (keeps_workIn fun _ _ _ h => List.mem_cons_of_mem _ h) fun extracted => ?_
      exact keeps_bind (keeps_check _ _) fun _ => keeps_check _ _
  have hprepare : Triple (fun s => s = w) (prepareStaging c dep [] false (parent ++ [name])) (fun _ => Made)
      fun _ => Made := by
    refine triple_bind (Q := fun _ s => s = w) ?_ fun _ => ?_
    · rintro s rfl
      rw [hstale]
    refine triple_bind (Q := fun _ s => s = w) ?_ fun _ => ?_
    · rintro s rfl
      rw [show stagingPath (parent ++ [name]) c.pid = staging from rfl, removeIfExists, observe_bind, hexists,
        if_neg Bool.false_ne_true]
      rfl
    refine triple_bind (Q := fun cache s => cache = none ∧ s = w) ?_ fun cache => ?_
    · rintro s rfl
      exact ⟨rfl, rfl⟩
    refine triple_bind (Q := fun _ => Made) ?_ fun _ => ?_
    · rintro s ⟨rfl, rfl⟩
      exact hexport w rfl
    refine triple_bind (Q := fun _ => Made) (triple_pure _ fun _ hs => hs) fun _ => ?_
    exact keeps_preserve (fun _ h => h) fun _ _ _ _ _ _ _ _ h => List.mem_cons_of_mem _ h
  have hrun : Triple (fun s => s = w) (syncDependency c dep [] false) (fun _ => Made) fun _ => Made := by
    rw [syncDependency, hc, idleCheckout, htarget, if_pos (List.prefix_refl _)]
    refine triple_bind hprepare fun _ => ?_
    refine keeps_bind (keeps_removeIfExists fun _ _ _ _ h => List.mem_cons_of_mem _ h) fun _ => ?_
    exact keeps_rename fun _ _ _ _ h => List.mem_cons_of_mem _ h
  exact triple_left hrun rfl

theorem removed_slash (dep : Dependency) (htarget : targetPath [] dep = []) :
    Event.removed [] ∈ (syncDependency (idleCheckout [] : Checkout κ γ) dep [] false (chainWorld repository [])).2.log := by
  let staging : Path := stagingPath [] 0
  let w : World κ γ := chainWorld repository []
  let made : Node Bytes := .dir [(stagingName [] (str 0), .dir [])]
  let w₁ : World κ γ := w.edit (.created staging) made
  let w₂ : World κ γ := { w₁.edit (.extracted staging []) made with calls := 2 }
  have hmkdirs : mkdirs staging w = (.ok (), w₁) := rfl
  have hwork : workIn staging (.extracted staging []) ((idleGit : Git κ γ).tar 1 []) { w₁ with calls := 2 } = (.ok true, w₂) := rfl
  have hexport : exportRef (idleCheckout [] : Checkout κ γ) none [] staging w = (.ok (), w₂) := by
    rw [exportRef, ok_bind hmkdirs, nextCall_bind, nextCall_bind]
    exact ok_bind hwork _
  let Removed : World κ γ → Prop := fun s => Event.removed [] ∈ s.log
  have hprepare : Triple (fun s => s = w) (prepareStaging (idleCheckout [] : Checkout κ γ) dep [] false [])
      (fun _ s => s = { w₂ with calls := 3 }) fun _ => Removed := by
    refine triple_bind (Q := fun _ s => s = w) ?_ fun _ => ?_
    · rintro s rfl
      exact rfl
    refine triple_bind (Q := fun _ s => s = w) ?_ fun _ => ?_
    · rintro s rfl
      exact rfl
    refine triple_bind (Q := fun cache s => cache = none ∧ s = w) ?_ fun cache => ?_
    · rintro s rfl
      exact ⟨rfl, rfl⟩
    refine triple_bind (Q := fun _ s => s = w₂) ?_ fun _ => ?_
    · rintro s ⟨rfl, rfl⟩
      rw [show stagingPath [] (idleCheckout [] : Checkout κ γ).pid = staging from rfl, hexport]
    refine triple_bind (Q := fun _ s => s = w₂) (triple_pure _ fun _ hs => hs) fun _ => ?_
    rintro s rfl
    exact rfl
  have hrun : Triple (fun s => s = w) (syncDependency (idleCheckout [] : Checkout κ γ) dep [] false)
      (fun _ => Removed) fun _ => Removed := by
    rw [syncDependency, show targetPath (idleCheckout [] : Checkout κ γ).root dep = [] from htarget,
      if_pos (show (idleCheckout [] : Checkout κ γ).root <+: [] from List.nil_prefix)]
    refine triple_bind hprepare fun _ => triple_bind (Q := fun _ => Removed) ?_ fun _ => ?_
    · rintro s rfl
      exact List.mem_cons_self
    · exact keeps_rename fun _ _ _ _ h => List.mem_cons_of_mem _ h
  exact triple_left hrun rfl

theorem contained_iff (repository : γ) (root : Path) (dep : Dependency) :
    (∀ (c : Checkout κ γ) (w : World κ γ) (commit : Text) (applyLocalPatches : Bool), c.root = root →
      PlainGit c.git → w.log = [] → Inside root w.files [] →
      ∀ event ∈ (syncDependency c dep commit applyLocalPatches w).2.log, ∀ path ∈ event.paths, Below root path) ↔
      targetPath root dep ≠ root := by
  constructor
  · intro hall htarget
    have hinside : Inside root (chain root) [] := by
      obtain ⟨cs, hcs⟩ := isDirectory_chain ([] : Path)
      have hget := get_chain_append root []
      rw [List.append_nil] at hget
      exact ⟨⟨_, hget, rfl⟩, noLinks_chain root, fun _ hmem => absurd hmem List.not_mem_nil⟩
    have hrun := hall (idleCheckout root) (chainWorld repository root) [] false rfl plain_idleGit rfl hinside
    rcases List.eq_nil_or_concat root with rfl | ⟨parent, name, rfl⟩
    · have hbelow := hrun _ (removed_slash repository dep htarget) [] List.mem_cons_self
      exact hbelow.2 rfl
    · rw [List.concat_eq_append] at *
      have hbelow := hrun _ (created_beside_root repository dep htarget) _ List.mem_cons_self
      have hlen : (stagingPath (parent ++ [name]) 0).length = (parent ++ [name]).length := by
        rw [stagingPath, List.dropLast_concat, List.length_append, List.length_append]
        rfl
      exact hbelow.2 (hbelow.1.eq_of_length hlen.symm).symm
  · rintro htarget c w commit applyLocalPatches rfl hgit hlog hinside
    have hstart : Inside c.root w.files w.log := by
      rw [hlog]
      exact hinside
    exact (triple_left (inside_syncDependency hgit htarget commit applyLocalPatches) hstart).done

def rootDependency : Dependency := ⟨"d".toList, [], [], parse ".".toList, false, none⟩

theorem root_removed :
    ¬ ∀ event ∈ (syncDependency (idleCheckout ["r".toList] : Checkout Unit Unit) rootDependency [] true
      (chainWorld () ["r".toList])).2.log, ∀ path ∈ event.paths, Below ["r".toList] path := by
  intro hall
  have hremoved : ["r".toList] ∈ (syncDependency (idleCheckout ["r".toList] : Checkout Unit Unit) rootDependency []
      true (chainWorld () ["r".toList])).2.log.flatMap Event.paths := by decide +kernel
  obtain ⟨event, hevent, hpath⟩ := List.mem_flatMap.1 hremoved
  exact (hall event hevent _ hpath).2 rfl

end LoggerBenchmarks.SyncContainment
