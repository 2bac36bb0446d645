import Mathlib.Data.List.Perm.Basic
import Softfig.Vcs.Repo

/-!
The chains a garden is composed of, and the router between them.

A path belongs to the enabled shared chain with the longest mount that is a
prefix of it, else to the device chain. Splitting a unified snapshot sends each
file to its owner, with the owner's mount stripped.

- `owningChain_mem`: the owner is a chain of the registry, and a shared owner's
  mount is a prefix of the path;
- `owningChain_eq`: where mounts are disjoint, a mount owns what is below it;
- `splitSnapshot_eq`: what the split returns, chain by chain;
- `split_snapshot_partitions`: the parts, put back under their mounts, are the
  unified snapshot.
-/

namespace Softfig.Vcs

open Softfig.Lib.PathTree (Forest)

def deviceChainId : String := "device"

inductive ChainKind where
  | device
  | shared
  deriving DecidableEq

/-- One chain: its ref, this device's mount (`none` is the garden root), its
key once established, and the local toggle. -/
structure Chain where
  id : String
  kind : ChainKind
  refName : String
  mountPath : Option Path
  keyId : Option String
  enabled : Bool
  deriving DecidableEq

def Chain.device : Chain := ⟨deviceChainId, .device, tipRef, none, none, true⟩

def Chain.shared (id refName : String) (mountPath : Path) (enabled : Bool) : Chain :=
  ⟨id, .shared, refName, some mountPath, none, enabled⟩

structure ChainRegistry where
  device : Chain
  shared : List Chain

namespace ChainRegistry

def deviceOnly : ChainRegistry := ⟨.device, []⟩

/-- One step of the search: a chain at least as deep as the best so far. -/
def deeper (path : Path) (best : Option Chain × Nat) (c : Chain) : Option Chain × Nat :=
  if c.enabled then
    match c.mountPath with
    | none => best
    | some mount =>
      if path.startsWith mount && decide (best.2 ≤ mount.components.length) then
        (some c, mount.components.length)
      else best
  else best

/-- The enabled shared chain with the longest mount above the path, else the
device chain. -/
def owningChain (reg : ChainRegistry) (path : Path) : Chain :=
  (reg.shared.foldl (deeper path) (none, 0)).1.getD reg.device

def isDeviceOwned (reg : ChainRegistry) (path : Path) : Bool :=
  (reg.owningChain path).kind = .device

/-- The owner of a path, where it is a shared chain still without a key. -/
def unkeyedSharedOwner (reg : ChainRegistry) (path : Path) : Option Chain :=
  let owner := reg.owningChain path
  if owner.kind = .shared ∧ owner.keyId = none then some owner else none

def isEnabledMountRoot (reg : ChainRegistry) (path : Path) : Bool :=
  reg.shared.any fun c => c.enabled && c.mountPath = some path

def enabledChains (reg : ChainRegistry) : List Chain :=
  reg.device :: reg.shared.filter fun c => c.enabled

def allChains (reg : ChainRegistry) : List Chain := reg.device :: reg.shared

/-- The path a file has inside its owner's own tree. -/
def relativeTo (owner : Chain) (path : Path) : Path :=
  match owner.mountPath with
  | some mount => (path.stripPrefix? mount).getD path
  | none => path

/-- Insert a file into the first snapshot of this ref. -/
def insertInto (refName : String) (rel : Path) (file : FileNode) :
    List (String × WalkSnapshot) → List (String × WalkSnapshot)
  | [] => []
  | (r, snap) :: snaps =>
    if r = refName then (r, snap.insertFile rel file.mode file.content) :: snaps
    else (r, snap) :: insertInto refName rel file snaps

def routeFile (reg : ChainRegistry) (snaps : List (String × WalkSnapshot))
    (file : Path × FileNode) : List (String × WalkSnapshot) :=
  let owner := reg.owningChain file.1
  insertInto owner.refName (relativeTo owner file.1) file.2 snaps

/-- One snapshot per enabled chain, with the files it owns. -/
def splitSnapshot (reg : ChainRegistry) (unified : WalkSnapshot) : List (String × WalkSnapshot) :=
  let snaps := reg.enabledChains.map fun c => (c.refName, WalkSnapshot.empty)
  let routed := unified.files.foldl reg.routeFile snaps
  routed.map fun s =>
    (s.1, { s.2 with overlayGeneration := unified.overlayGeneration }.pruneEmptyDirs)

/-! ### Owners -/

/-- What the search keeps true of the best chain so far. -/
theorem foldl_deeper {path : Path} {chains : List Chain} {best : Option Chain × Nat} {c : Chain}
    (h : (chains.foldl (deeper path) best).1 = some c) :
    best.1 = some c ∨ c ∈ chains ∧ c.enabled = true ∧
      ∃ mount, c.mountPath = some mount ∧ path.startsWith mount = true := by
  induction chains generalizing best with
  | nil => exact .inl h
  | cons d chains ih =>
    rcases ih h with hbest | ⟨hmem, hrest⟩
    · unfold deeper at hbest
      split_ifs at hbest with henabled
      · split at hbest
        · exact .inl hbest
        · rename_i mount hmount
          split_ifs at hbest with hbelow
          · cases hbest
            rw [Bool.and_eq_true] at hbelow
            exact .inr ⟨List.mem_cons_self, henabled, mount, hmount, hbelow.1⟩
          · exact .inl hbest
      · exact .inl hbest
    · exact .inr ⟨List.mem_cons_of_mem _ hmem, hrest⟩

/-- The owner of a path: the device chain, or an enabled shared chain mounted
above it. -/
theorem owningChain_cases (reg : ChainRegistry) (path : Path) :
    reg.owningChain path = reg.device ∨
    reg.owningChain path ∈ reg.shared ∧ (reg.owningChain path).enabled = true ∧
      ∃ mount, (reg.owningChain path).mountPath = some mount ∧ path.startsWith mount = true := by
  unfold owningChain
  cases hbest : (reg.shared.foldl (deeper path) (none, 0)).1 with
  | none => exact .inl rfl
  | some c =>
    rcases foldl_deeper hbest with h | h
    · cases h
    · exact .inr h

theorem owningChain_mem (reg : ChainRegistry) (path : Path) :
    reg.owningChain path ∈ reg.enabledChains := by
  rcases reg.owningChain_cases path with h | ⟨hmem, henabled, -⟩
  · exact h ▸ List.mem_cons_self
  · exact List.mem_cons_of_mem _ (List.mem_filter.mpr ⟨hmem, henabled⟩)

/-- A chain found stays found. -/
theorem deeper_isSome {path : Path} {best : Option Chain × Nat} (h : best.1.isSome) (c : Chain) :
    (deeper path best c).1.isSome := by
  unfold deeper
  split_ifs
  · split
    · exact h
    · split_ifs
      · rfl
      · exact h
  · exact h

/-- A step that finds nothing leaves the search where it was. -/
theorem deeper_eq_of_none {path : Path} {best : Option Chain × Nat} {c : Chain}
    (h : ¬ (deeper path best c).1.isSome) : deeper path best c = best := by
  unfold deeper at h ⊢
  by_cases henabled : c.enabled = true
  · rw [if_pos henabled] at h ⊢
    cases hmount : c.mountPath with
    | none => rfl
    | some mount =>
      simp only [hmount] at h ⊢
      split_ifs at h ⊢ with hbelow
      · exact absurd rfl h
      · rfl
  · rw [if_neg henabled]

/-- An enabled chain mounted above the path is enough to find one. -/
theorem foldl_deeper_isSome {path : Path} {chains : List Chain} {best : Option Chain × Nat}
    (h : best.1.isSome ∨ best.2 = 0 ∧ ∃ c ∈ chains, c.enabled = true ∧
      ∃ mount, c.mountPath = some mount ∧ path.startsWith mount = true) :
    (chains.foldl (deeper path) best).1.isSome := by
  induction chains generalizing best with
  | nil =>
    rcases h with h | ⟨-, c, hc, -⟩
    · exact h
    · cases hc
  | cons d chains ih =>
    refine ih ?_
    rcases h with h | ⟨hzero, c, hc, henabled, mount, hmount, hbelow⟩
    · exact .inl (deeper_isSome h d)
    · rcases List.mem_cons.mp hc with rfl | hc
      · refine .inl ?_
        simp [deeper, henabled, hmount, hbelow, hzero]
      · by_cases hfound : (deeper path best d).1.isSome
        · exact .inl hfound
        · rw [deeper_eq_of_none hfound]
          exact .inr ⟨hzero, c, hc, henabled, mount, hmount, hbelow⟩

/-- The mounts of two chains do not lie on one path. -/
def MountsApart (c d : Chain) : Prop :=
  ∀ m ∈ c.mountPath, ∀ n ∈ d.mountPath, Forest.Apart m.components n.components

instance : Std.Symm MountsApart := ⟨fun _ _ h m hm n hn => (h n hn m hm).symm⟩

/-- No two enabled mounts lie on one path. -/
def DisjointMounts (reg : ChainRegistry) : Prop :=
  (reg.shared.filter fun c => c.enabled).Pairwise MountsApart

/-- Where mounts are disjoint, an enabled chain owns everything below its mount. -/
theorem owningChain_eq {reg : ChainRegistry} (hdisjoint : reg.DisjointMounts) {c : Chain}
    (hc : c ∈ reg.shared) (henabled : c.enabled = true) {mount : Path}
    (hmount : c.mountPath = some mount) {path : Path} (hpath : path.startsWith mount = true) :
    reg.owningChain path = c := by
  have hsome : (reg.shared.foldl (deeper path) (none, 0)).1.isSome :=
    foldl_deeper_isSome (.inr ⟨rfl, c, hc, henabled, mount, hmount, hpath⟩)
  obtain ⟨d, hd⟩ := Option.isSome_iff_exists.mp hsome
  have howner : reg.owningChain path = d := by
    unfold owningChain
    rw [hd]
    rfl
  rw [howner]
  obtain ⟨hmem, hdenabled, mount', hmount', hpath'⟩ := (foldl_deeper hd).resolve_left nofun
  by_contra hne
  -- two mounts above one path lie on that path
  have happart : Forest.Apart mount'.components mount.components :=
    List.Pairwise.forall hdisjoint (List.mem_filter.mpr ⟨hmem, hdenabled⟩)
      (List.mem_filter.mpr ⟨hc, henabled⟩) hne mount' hmount' mount hmount
  rw [Path.startsWith_iff] at hpath hpath'
  rcases List.prefix_or_prefix_of_prefix hpath' hpath with h | h
  · exact happart.1 h
  · exact happart.2 h

/-! ### Routing -/

/-- Insert files one by one. -/
def insertFiles (snap : WalkSnapshot) (files : List (Path × FileNode)) : WalkSnapshot :=
  files.foldl (fun s f => s.insertFile f.1 f.2.mode f.2.content) snap

/-- The files of a list a chain owns, at their paths in its own tree. -/
def ownFiles (reg : ChainRegistry) (c : Chain) (files : List (Path × FileNode)) :
    List (Path × FileNode) :=
  (files.filter fun f => reg.owningChain f.1 = c).map fun f => (relativeTo c f.1, f.2)

/-- The snapshot the split makes for one chain. -/
def part (reg : ChainRegistry) (unified : WalkSnapshot) (c : Chain) : WalkSnapshot :=
  { insertFiles .empty (reg.ownFiles c unified.files) with
    overlayGeneration := unified.overlayGeneration }.pruneEmptyDirs

/-- Distinct refs: an insertion reaches the one chain of its ref. -/
theorem insertInto_map {chains : List Chain} (hrefs : (chains.map Chain.refName).Nodup)
    {owner : Chain} (howner : owner ∈ chains) (rel : Path) (file : FileNode)
    (snapOf : Chain → WalkSnapshot) :
    insertInto owner.refName rel file (chains.map fun c => (c.refName, snapOf c)) =
      chains.map fun c => (c.refName,
        if c = owner then (snapOf c).insertFile rel file.mode file.content else snapOf c) := by
  induction chains with
  | nil => rfl
  | cons d chains ih =>
    rw [List.map_cons, List.nodup_cons] at hrefs
    rw [List.map_cons, List.map_cons, insertInto]
    rcases List.mem_cons.mp howner with rfl | hmem
    · rw [if_pos rfl, if_pos rfl]
      congr 1
      refine List.map_congr_left fun c hc => ?_
      have hne : c ≠ owner := fun h => hrefs.1 (List.mem_map.mpr ⟨c, hc, by rw [h]⟩)
      rw [if_neg hne]
    · have hne : d.refName ≠ owner.refName := fun h =>
        hrefs.1 (List.mem_map.mpr ⟨owner, hmem, h.symm⟩)
      have hne' : d ≠ owner := fun h => hne (by rw [h])
      rw [if_neg hne, if_neg hne', ih hrefs.2 hmem]

/-- Routing a list of files is inserting each chain's own files. -/
theorem foldl_routeFile {reg : ChainRegistry}
    (hrefs : (reg.enabledChains.map Chain.refName).Nodup) (files : List (Path × FileNode))
    (snapOf : Chain → WalkSnapshot) :
    files.foldl reg.routeFile (reg.enabledChains.map fun c => (c.refName, snapOf c)) =
      reg.enabledChains.map fun c =>
        (c.refName, insertFiles (snapOf c) (reg.ownFiles c files)) := by
  induction files generalizing snapOf with
  | nil => rfl
  | cons f files ih =>
    rw [List.foldl_cons, routeFile, insertInto_map hrefs (reg.owningChain_mem f.1), ih]
    refine List.map_congr_left fun c _ => ?_
    by_cases howner : reg.owningChain f.1 = c
    · simp [ownFiles, insertFiles, howner]
    · have hne : ¬ c = reg.owningChain f.1 := fun h => howner h.symm
      simp [ownFiles, howner, hne]

/-- **The split, chain by chain.** -/
theorem splitSnapshot_eq {reg : ChainRegistry}
    (hrefs : (reg.enabledChains.map Chain.refName).Nodup) (unified : WalkSnapshot) :
    reg.splitSnapshot unified = reg.enabledChains.map fun c => (c.refName, reg.part unified c) := by
  rw [splitSnapshot]
  simp only
  rw [foldl_routeFile hrefs, List.map_map]
  rfl

theorem insertFiles_root (snap : WalkSnapshot) {files : List (Path × FileNode)}
    (hmodes : ∀ f ∈ files, f.2.mode &&& modeMask = f.2.mode) :
    (insertFiles snap files).root =
      snap.root.insertAll (files.map fun f => (f.1.names, f.2)) := by
  induction files generalizing snap with
  | nil => rfl
  | cons f files ih =>
    have hroot : (snap.insertFile f.1 f.2.mode f.2.content).root =
        snap.root.insertLeaf f.1.names f.2 := by
      have hfile : (⟨f.2.mode &&& modeMask, f.2.content⟩ : FileNode) = f.2 := by
        rw [hmodes f List.mem_cons_self]
      exact congrArg (snap.root.insertLeaf f.1.names) hfile
    rw [insertFiles, List.foldl_cons]
    refine (ih _ fun g hg => hmodes g (List.mem_cons_of_mem _ hg)).trans ?_
    rw [hroot]
    rfl

/-! ### Parts under their mounts -/

/-- Where a chain's own path stands in the garden. -/
def absolute (c : Chain) (rel : Path) : Path :=
  match c.mountPath with
  | some mount => mount.push rel
  | none => rel

/-- A chain's files at their places in the garden. -/
def mountedFiles (c : Chain) (snap : WalkSnapshot) : List (Path × FileNode) :=
  snap.files.map fun f => (absolute c f.1, f.2)

/-- A path goes back to its place from its owner's tree. -/
theorem absolute_relativeTo {reg : ChainRegistry} (hdevice : reg.device.mountPath = none)
    (path : Path) :
    absolute (reg.owningChain path) (relativeTo (reg.owningChain path) path) = path := by
  unfold absolute relativeTo
  rcases reg.owningChain_cases path with h | ⟨-, -, mount, hmount, hbelow⟩
  · rw [h, hdevice]
  · simp only [hmount]
    cases hstrip : path.stripPrefix? mount with
    | none => simp [Path.stripPrefix?, hbelow] at hstrip
    | some rel => exact Path.push_of_stripPrefix? hstrip

/-- The names of a path are its owner's mount's names, then the relative ones. -/
theorem names_relativeTo {reg : ChainRegistry} (hdevice : reg.device.mountPath = none)
    (path : Path) :
    path.names = ((reg.owningChain path).mountPath.elim [] Path.names) ++
      (relativeTo (reg.owningChain path) path).names := by
  unfold relativeTo
  rcases reg.owningChain_cases path with h | ⟨-, -, mount, hmount, hbelow⟩
  · simp [h, hdevice]
  · simp only [hmount, Option.elim_some]
    cases hstrip : path.stripPrefix? mount with
    | none => simp [Path.stripPrefix?, hbelow] at hstrip
    | some rel =>
      simp only [Path.names, Path.stripPrefix?_eq_some hstrip, List.map_append, Option.getD_some]

/-- Only a file at a mount root has no path in its owner's tree. -/
theorem relativeTo_ne_nil {reg : ChainRegistry} (hdevice : reg.device.mountPath = none)
    {path : Path} (hpath : path.components ≠ []) (hroot : reg.isEnabledMountRoot path = false) :
    (relativeTo (reg.owningChain path) path).names ≠ [] := by
  intro hnil
  have hnames := names_relativeTo hdevice path
  rw [hnil, List.append_nil] at hnames
  rcases reg.owningChain_cases path with h | ⟨hmem, henabled, mount, hmount, -⟩
  · rw [h, hdevice] at hnames
    exact hpath (List.map_eq_nil_iff.mp hnames)
  · rw [hmount] at hnames
    have hpathMount : mount = path := (Path.names_injective hnames).symm
    have hany : reg.isEnabledMountRoot path = true := by
      refine List.any_eq_true.mpr ⟨_, hmem, ?_⟩
      simp [henabled, hmount, hpathMount]
    rw [hroot] at hany
    cases hany

section Parts

variable {reg : ChainRegistry} {unified : WalkSnapshot}

theorem mem_ownFiles {c : Chain} {p : Path} {f : FileNode} :
    (p, f) ∈ reg.ownFiles c unified.files ↔
      ∃ path, (path, f) ∈ unified.files ∧ reg.owningChain path = c ∧ relativeTo c path = p := by
  simp [ownFiles, and_assoc]

/-- Own files have distinct paths, none on the way to another. -/
theorem apart_ownFiles (hdevice : reg.device.mountPath = none) (c : Chain) :
    ((reg.ownFiles c unified.files).map fun f => (f.1.names, f.2)).Pairwise
      fun k l => Forest.Apart k.1 l.1 := by
  have hnodup := unified.nodup_files
  rw [List.Nodup, List.pairwise_map] at hnodup
  rw [ownFiles, List.map_map, List.pairwise_map, List.pairwise_filter]
  refine hnodup.imp_of_mem fun {k l} hk hl hne hck hcl => ?_
  simp only [decide_eq_true_eq] at hck hcl
  have hpk := names_relativeTo hdevice k.1
  have hpl := names_relativeTo hdevice l.1
  rw [hck] at hpk
  rw [hcl] at hpl
  -- names are relative to one mount, so a prefix there is a prefix in the garden
  constructor
  · intro hbelow
    have hnames : k.1.names <+: l.1.names := by
      rw [hpk, hpl]
      exact (List.prefix_append_right_inj _).mpr hbelow
    exact hne (Path.names_injective (Forest.fileAt_prefix_eq (WalkSnapshot.mem_files.mp hk)
      (WalkSnapshot.mem_files.mp hl) hnames))
  · intro hbelow
    have hnames : l.1.names <+: k.1.names := by
      rw [hpk, hpl]
      exact (List.prefix_append_right_inj _).mpr hbelow
    exact hne (Path.names_injective (Forest.fileAt_prefix_eq (WalkSnapshot.mem_files.mp hl)
      (WalkSnapshot.mem_files.mp hk) hnames)).symm

theorem ownFiles_ne_nil (hdevice : reg.device.mountPath = none)
    (hroots : ∀ f ∈ unified.files, reg.isEnabledMountRoot f.1 = false) (c : Chain) :
    ∀ l ∈ (reg.ownFiles c unified.files).map fun f => (f.1.names, f.2), l.1 ≠ [] := by
  intro l hl
  obtain ⟨⟨p, f⟩, hf, rfl⟩ := List.mem_map.mp hl
  obtain ⟨path, hmem, rfl, rfl⟩ := mem_ownFiles.mp hf
  refine relativeTo_ne_nil hdevice ?_ (hroots _ hmem)
  intro hnil
  have hfile := WalkSnapshot.mem_files.mp hmem
  rw [Path.names, hnil] at hfile
  cases hfile

theorem part_root (hdevice : reg.device.mountPath = none)
    (hroots : ∀ f ∈ unified.files, reg.isEnabledMountRoot f.1 = false) (c : Chain) :
    (reg.part unified c).root =
      Forest.nil.insertAll ((reg.ownFiles c unified.files).map fun f => (f.1.names, f.2)) := by
  have hmodes : ∀ f ∈ reg.ownFiles c unified.files, f.2.mode &&& modeMask = f.2.mode := by
    rintro ⟨p, f⟩ hf
    obtain ⟨path, hmem, -, -⟩ := mem_ownFiles.mp hf
    exact WalkSnapshot.mode_of_mem_files hmem
  have hnil : (Forest.nil : Children).NoEmptyNodes := trivial
  have hne := Forest.noEmptyNodes_insertAll hnil (ownFiles_ne_nil hdevice hroots c)
  rw [← Forest.prune_eq_self hne]
  exact congrArg Forest.prune (insertFiles_root .empty hmodes)

/-- A part holds the files its chain owns. -/
theorem mem_files_part (hdevice : reg.device.mountPath = none)
    (hroots : ∀ f ∈ unified.files, reg.isEnabledMountRoot f.1 = false) {c : Chain} {p : Path}
    {f : FileNode} : (p, f) ∈ (reg.part unified c).files ↔
      (p, f) ∈ reg.ownFiles c unified.files := by
  have hnil : (Forest.nil : Children).NoEmptyNodes := trivial
  rw [WalkSnapshot.mem_files, part_root hdevice hroots, Forest.fileAt_insertAll hnil
    (ownFiles_ne_nil hdevice hroots c) (apart_ownFiles hdevice c) fun l _ =>
      Forest.free_nil l.1]
  constructor
  · rintro (h | h)
    · obtain ⟨⟨q, g⟩, hmem, heq⟩ := List.mem_map.mp h
      obtain ⟨hq, rfl⟩ := Prod.mk.inj heq
      rwa [← Path.names_injective hq]
    · simp at h
  · intro h
    exact .inl (List.mem_map.mpr ⟨(p, f), h, rfl⟩)

/-- Back under the mount, a part is the unified files its chain owns. -/
theorem mountedFiles_part (hdevice : reg.device.mountPath = none)
    (hroots : ∀ f ∈ unified.files, reg.isEnabledMountRoot f.1 = false) (c : Chain) :
    (mountedFiles c (reg.part unified c)).Perm
      (unified.files.filter fun f => reg.owningChain f.1 = c) := by
  have hfiles : (reg.part unified c).files.Perm (reg.ownFiles c unified.files) := by
    refine (List.perm_ext_iff_of_nodup ?_ ?_).mpr fun _ => mem_files_part hdevice hroots
    · exact .of_map _ (WalkSnapshot.nodup_files _)
    · refine .of_map (fun f => (f.1.names, f.2)) ?_
      refine (apart_ownFiles hdevice c).imp fun {k l} h heq => ?_
      exact h.1 (heq ▸ List.prefix_rfl)
  refine (hfiles.map _).trans (List.Perm.of_eq ?_)
  rw [ownFiles, List.map_map]
  refine (List.map_congr_left fun f hf => ?_).trans (List.map_id _)
  have howner : reg.owningChain f.1 = c := by simpa using (List.mem_filter.mp hf).2
  have hback := absolute_relativeTo hdevice f.1
  rw [howner] at hback
  simp [hback]

end Parts

/-- Filtering by owner, chain by chain, loses and repeats nothing. -/
theorem flatMap_owners_perm {α : Type} {chains : List Chain} (hchains : chains.Nodup)
    {files : List α} (hfiles : files.Nodup) {owner : α → Chain}
    (howner : ∀ f ∈ files, owner f ∈ chains) :
    (chains.flatMap fun c => files.filter fun f => owner f = c).Perm files := by
  refine (List.perm_ext_iff_of_nodup ?_ hfiles).mpr fun f => ?_
  · refine List.nodup_flatMap.mpr ⟨fun c _ => hfiles.filter _, hchains.imp fun {c d} hne => ?_⟩
    intro f hc hd
    have hfc : owner f = c := by simpa using (List.mem_filter.mp hc).2
    have hfd : owner f = d := by simpa using (List.mem_filter.mp hd).2
    exact hne (hfc.symm.trans hfd)
  · rw [List.mem_flatMap]
    constructor
    · rintro ⟨c, -, hf⟩
      exact (List.mem_filter.mp hf).1
    · intro hf
      exact ⟨owner f, howner f hf, List.mem_filter.mpr ⟨hf, by simp⟩⟩

/-- **A split partitions the files.** Put back under its mount, each part is the
files its chain owns; the parts together are the unified files; no part has a
directory without files. -/
theorem split_snapshot_partitions (reg : ChainRegistry) (unified : WalkSnapshot)
    (hdevice : reg.device.mountPath = none)
    (hrefs : (reg.enabledChains.map Chain.refName).Nodup)
    (hroots : ∀ f ∈ unified.files, reg.isEnabledMountRoot f.1 = false) :
    (reg.splitSnapshot unified).map Prod.fst = reg.enabledChains.map Chain.refName ∧
    (∀ c s, (c, s) ∈ reg.enabledChains.zip (reg.splitSnapshot unified) →
      (mountedFiles c s.2).Perm (unified.files.filter fun f => reg.owningChain f.1 = c)) ∧
    ((reg.enabledChains.zip (reg.splitSnapshot unified)).flatMap
      fun cs => mountedFiles cs.1 cs.2.2).Perm unified.files ∧
    ∀ s ∈ reg.splitSnapshot unified, s.2.root.NoEmptyNodes := by
  have hsplit := splitSnapshot_eq hrefs unified
  have hzip : reg.enabledChains.zip (reg.splitSnapshot unified) =
      reg.enabledChains.map fun c => (c, c.refName, reg.part unified c) := by
    rw [hsplit, List.map_prod_left_eq_zip]
  refine ⟨?_, ?_, ?_, ?_⟩
  · rw [hsplit, List.map_map]
    rfl
  · intro c s hmem
    rw [hzip] at hmem
    obtain ⟨d, -, heq⟩ := List.mem_map.mp hmem
    cases heq
    exact mountedFiles_part hdevice hroots c
  · rw [hzip, List.flatMap_map]
    have hparts : (reg.enabledChains.flatMap fun c => mountedFiles c (reg.part unified c)).Perm
        (reg.enabledChains.flatMap fun c =>
          unified.files.filter fun f => reg.owningChain f.1 = c) :=
      List.Perm.flatMap_left _ fun c _ => mountedFiles_part hdevice hroots c
    refine hparts.trans (flatMap_owners_perm (hrefs.of_map _) (.of_map _ unified.nodup_files) ?_)
    exact fun f _ => reg.owningChain_mem f.1
  · intro s hs
    rw [hsplit] at hs
    obtain ⟨c, -, rfl⟩ := List.mem_map.mp hs
    exact Forest.noEmptyNodes_prune _

/-- A garden with one mount enabled and one that is not. -/
def demoRegistry : ChainRegistry :=
  ⟨.device, [.shared "app" "shared/app/tip" (.parse "projects/app") true,
    .shared "notes" "shared/notes/tip" (.parse "notes") false]⟩

def demoUnified : WalkSnapshot :=
  (((WalkSnapshot.empty.insertFile (.parse "README.md") 0o644 [1]).insertFile
    (.parse "projects/app/src/main.rs") 0o755 [2]).insertFile
    (.parse "notes/today.md") 0o644 [3]).ensureDir (.parse "projects/app/empty")

theorem split_snapshot_partitions_app :
    (demoRegistry.splitSnapshot demoUnified).map (fun s => s.2.files.map Prod.fst) =
      [[.parse "README.md", .parse "notes/today.md"], [.parse "src/main.rs"]] ∧
    ((demoRegistry.enabledChains.zip (demoRegistry.splitSnapshot demoUnified)).flatMap
      fun cs => mountedFiles cs.1 cs.2.2).Perm demoUnified.files :=
  ⟨by decide +kernel, (split_snapshot_partitions demoRegistry demoUnified rfl (by decide)
    (by decide +kernel)).2.2.1⟩

end ChainRegistry

end Softfig.Vcs
