import Softfig.Mount.Working

/-!
The view of a mount over several chains: the device's tree at the root, and the tree of every
enabled shared chain at its mount.

A chain owns what is below its mount, so what the device has there is dropped first. Whatever is
missing above a mount is made up as directories.

- `lookup_regraft`: what is copied below a mount;
- `blobAt_graft`: a graft changes the files below its mount, and no other;
- `blobAt_buildUnion`: the file at a path is the one in the tree of the chain that owns it;
- `fileAt_part`: the part of a snapshot that a chain gets holds the files it owns.
-/

namespace Softfig.Mount

open Softfig.Lib
open Softfig.Lib.PathTree (Forest)
open Softfig.Store (Bytes Hash)
open Softfig.Vcs (FileName Path Component Chain ChainRegistry WalkSnapshot FileNode)

/-! ### Mounts and owners -/

/-- Components that are all names. -/
def fileNames : List Component → Option RepoPath
  | [] => some []
  | .normal name :: rest => (fileNames rest).map (name :: ·)
  | _ :: _ => none

/-- Where a chain is mounted; a mount that is not spelled by names is nowhere in the garden. -/
def mountOf (c : Chain) : Option RepoPath :=
  c.mountPath.bind fun mount => fileNames mount.components

/-- The path of the garden root of a chain's tree. -/
def rootOf (c : Chain) : RepoPath := (mountOf c).getD []

def ownerOf (registry : ChainRegistry) (path : RepoPath) : Chain := registry.owningChain path.toPath

/-- The path of a file in the tree of its owner. -/
def within (c : Chain) (path : RepoPath) : RepoPath := path.drop (rootOf c).length

theorem fileNames_eq_some {components : List Component} {names : RepoPath} :
    fileNames components = some names ↔ components = names.map Component.normal := by
  induction components generalizing names with
  | nil => cases names <;> simp [fileNames]
  | cons c rest ih =>
    cases c with
    | normal name =>
      cases names with
      | nil => simp [fileNames]
      | cons first names => simp [fileNames, ih, and_comm]
    | rootDir => cases names <;> simp [fileNames]
    | curDir => cases names <;> simp [fileNames]
    | parentDir => cases names <;> simp [fileNames]

theorem normal_injective : Function.Injective Component.normal := fun _ _ => Component.normal.inj

/-- A path is below a mount where it starts with its names. -/
theorem startsWith_toPath {path : RepoPath} {mount : Path} : path.toPath.startsWith mount = true ↔
    ∃ names, fileNames mount.components = some names ∧ names <+: path := by
  rw [Path.startsWith_iff]
  constructor
  · rintro ⟨rest, hrest⟩
    obtain ⟨names, more, rfl, hnames, -⟩ := List.map_eq_append_iff.mp hrest.symm
    exact ⟨names, fileNames_eq_some.mpr hnames.symm, List.prefix_append _ _⟩
  · rintro ⟨names, hnames, hle⟩
    rw [fileNames_eq_some.mp hnames]
    exact (List.prefix_map_iff_of_injective normal_injective).mpr hle

/-! ### The union -/

/-- A directory that no tree has. -/
def syntheticDir (target : Hash) : Entry := ⟨.dir, 0o040755, target⟩

/-- `or_insert` for one ancestor of a mount. -/
def addAncestor (target : Hash) (view : AList fun _ : RepoPath => Entry) (dir : RepoPath) :
    AList fun _ : RepoPath => Entry :=
  if (view.lookup dir).isSome then view else view.insert dir (syntheticDir target)

/-- Copy the entries of a tree below a mount. -/
def regraft (root : RepoPath) (view : AList fun _ : RepoPath => Entry)
    (entries : List (Sigma fun _ : RepoPath => Entry)) : AList fun _ : RepoPath => Entry :=
  entries.foldl (fun view e => view.insert (root ++ e.1) e.2) view

/-- `graft`: clear what is below the mount, add the directories above it, copy the tree. -/
def graft (target : Hash) (root : RepoPath) (view other : AList fun _ : RepoPath => Entry) :
    AList fun _ : RepoPath => Entry :=
  let kept : AList fun _ : RepoPath => Entry :=
    ⟨view.entries.filter fun e => !decide (root <+: e.1),
      view.nodupKeys.sublist List.filter_sublist⟩
  regraft root ((RepoPath.parents root).foldl (addAncestor target) kept) other.entries

/-- `TreeView::empty` -/
def emptyView (target : Hash) : AList fun _ : RepoPath => Entry :=
  (∅ : AList fun _ : RepoPath => Entry).insert [] (syntheticDir target)

/-- One chain of `build_union`. -/
def graftChain (target : Hash) (refs : String → Option TreeView)
    (view : AList fun _ : RepoPath => Entry) (c : Chain) : AList fun _ : RepoPath => Entry :=
  if c.enabled then
    match mountOf c, refs c.refName with
    | some root, some tree => graft target root view tree.byPath
    | _, _ => view
  else view

/-- `build_union` -/
def buildUnion (target : Hash) (refs : String → Option TreeView) (registry : ChainRegistry) :
    AList fun _ : RepoPath => Entry :=
  registry.shared.foldl (graftChain target refs)
    ((refs registry.device.refName).elim (emptyView target) TreeView.byPath)

/-- The committed file at a path. -/
def blobAt (view : AList fun _ : RepoPath => Entry) (path : RepoPath) : Option Entry :=
  (view.lookup path).filter fun entry => entry.kind = .blob

/-! ### Files of the union -/

section

variable {target : Hash} {view other : AList fun _ : RepoPath => Entry} {root path : RepoPath}

/-- **What is copied below a mount.** -/
theorem lookup_regraft {entries : List (Sigma fun _ : RepoPath => Entry)}
    (hnodup : entries.NodupKeys) : (regraft root view entries).lookup path =
      (if root <+: path then entries.dlookup (path.drop root.length) else none).or
        (view.lookup path) := by
  induction entries generalizing view with
  | nil => simp [regraft]
  | cons e entries ih =>
    obtain ⟨hfresh, hnodup⟩ := List.nodupKeys_cons.mp hnodup
    have hih := @ih (view.insert (root ++ e.1) e.2) hnodup
    rw [regraft, List.foldl_cons, ← regraft, hih]
    by_cases hpath : path = root ++ e.1
    · subst hpath
      rw [if_pos (List.prefix_append _ _), if_pos (List.prefix_append _ _), List.drop_left,
        List.dlookup_eq_none.mpr hfresh, List.dlookup_cons_eq, AList.lookup_insert]
      rfl
    · rw [AList.lookup_insert_ne hpath]
      split_ifs with hle
      · rw [List.dlookup_cons_ne]
        rintro heq
        obtain ⟨rest, rfl⟩ := hle
        rw [List.drop_left] at heq
        exact hpath (by rw [heq])
      · rfl

theorem blobAt_addAncestor (dir : RepoPath) :
    blobAt (addAncestor target view dir) path = blobAt view path := by
  unfold addAncestor blobAt
  split_ifs with hsome
  · rfl
  · by_cases heq : path = dir
    · subst heq
      rw [AList.lookup_insert, Option.not_isSome_iff_eq_none.mp hsome]
      rfl
    · rw [AList.lookup_insert_ne heq]

theorem lookup_addAncestors {dirs : List RepoPath} (h : path ∉ dirs) :
    (dirs.foldl (addAncestor target) view).lookup path = view.lookup path := by
  induction dirs generalizing view with
  | nil => rfl
  | cons dir dirs ih =>
    rw [List.foldl_cons, ih fun hmem => h (List.mem_cons_of_mem _ hmem), addAncestor]
    split_ifs
    · rfl
    · exact AList.lookup_insert_ne fun heq => h (heq ▸ List.mem_cons_self)

theorem blobAt_addAncestors (dirs : List RepoPath) :
    blobAt (dirs.foldl (addAncestor target) view) path = blobAt view path := by
  induction dirs generalizing view with
  | nil => rfl
  | cons dir dirs ih => rw [List.foldl_cons, ih, blobAt_addAncestor]

theorem lookup_filter (keep : RepoPath → Bool) (hnodup) :
    (⟨view.entries.filter fun e => keep e.1, hnodup⟩ :
        AList fun _ : RepoPath => Entry).lookup path =
      if keep path then view.lookup path else none := by
  refine Option.ext fun entry => ?_
  rw [← mem_entries_iff, List.mem_filter, mem_entries_iff]
  split_ifs with hkeep <;> simp [hkeep]

/-- **A graft changes the files below its mount**, and no other. -/
theorem blobAt_graft : blobAt (graft target root view other) path =
    if root <+: path then blobAt other (path.drop root.length) else blobAt view path := by
  have hkept := @lookup_filter view path (fun p => !decide (root <+: p))
    (view.nodupKeys.sublist List.filter_sublist)
  unfold graft
  dsimp only
  rw [blobAt, lookup_regraft other.nodupKeys]
  split_ifs with hle
  · have hout : path ∉ RepoPath.parents root := by
      intro hmem
      obtain ⟨-, hge, hne⟩ := RepoPath.mem_parents.mp hmem
      exact hne (hge.eq_of_length_le hle.length_le)
    rw [lookup_addAncestors hout, hkept, if_neg (by simp [hle]), Option.or_none]
    rfl
  · rw [Option.none_or, ← blobAt, blobAt_addAncestors, blobAt, hkept, if_pos (by simp [hle]),
      blobAt]

end

/-! ### Owners -/

section

variable {refs : String → Option TreeView} {registry : ChainRegistry} {path : RepoPath}

/-- What a registry and the refs must meet to make up a garden: the device is at the root, no ref is
named twice, no enabled mount is below another, and every enabled chain has a tip. -/
structure Composed (refs : String → Option TreeView) (registry : ChainRegistry) : Prop where
  device : registry.device.mountPath = none
  refNames : (registry.enabledChains.map Chain.refName).Nodup
  disjoint : registry.DisjointMounts
  tips : ∀ c ∈ registry.enabledChains, (refs c.refName).isSome

theorem mountOf_eq_some {c : Chain} {root : RepoPath} : mountOf c = some root ↔
    ∃ mount, c.mountPath = some mount ∧ mount.components = root.map Component.normal := by
  rw [mountOf, Option.bind_eq_some_iff]
  exact exists_congr fun mount => and_congr_right fun _ => fileNames_eq_some

/-- A path is owned by the device, or by an enabled chain whose mount is above it. -/
theorem ownerOf_cases (registry : ChainRegistry) (path : RepoPath) :
    ownerOf registry path = registry.device ∨
      ownerOf registry path ∈ registry.shared ∧ (ownerOf registry path).enabled = true ∧
        ∃ root, mountOf (ownerOf registry path) = some root ∧ root <+: path := by
  refine (registry.owningChain_cases path.toPath).imp_right ?_
  rintro ⟨hmem, henabled, mount, hmount, hbelow⟩
  obtain ⟨root, hroot, hle⟩ := startsWith_toPath.mp hbelow
  exact ⟨hmem, henabled, root, mountOf_eq_some.mpr ⟨mount, hmount, fileNames_eq_some.mp hroot⟩, hle⟩

/-- Where mounts are disjoint, an enabled chain owns everything below its mount. -/
theorem ownerOf_eq (hdisjoint : registry.DisjointMounts) {c : Chain} (hc : c ∈ registry.shared)
    (henabled : c.enabled = true) {root : RepoPath} (hroot : mountOf c = some root)
    (hle : root <+: path) : ownerOf registry path = c := by
  obtain ⟨mount, hmount, hnames⟩ := mountOf_eq_some.mp hroot
  refine ChainRegistry.owningChain_eq hdisjoint hc henabled hmount (startsWith_toPath.mpr ?_)
  exact ⟨root, fileNames_eq_some.mpr hnames, hle⟩

theorem names_within (hdevice : registry.device.mountPath = none) (path : RepoPath) :
    (ChainRegistry.relativeTo (ownerOf registry path) path.toPath).names =
      (within (ownerOf registry path) path).names := by
  rcases ownerOf_cases registry path with hown | ⟨-, -, root, hroot, hle⟩
  · have hnone : mountOf registry.device = none := by rw [mountOf, hdevice, Option.bind_none]
    rw [within, hown, rootOf, hnone, ChainRegistry.relativeTo, hdevice]
    exact RepoPath.names_toPath path
  · obtain ⟨mount, hmount, hnames⟩ := mountOf_eq_some.mp hroot
    have hbelow : path.toPath.startsWith mount = true :=
      startsWith_toPath.mpr ⟨root, fileNames_eq_some.mpr hnames, hle⟩
    have hlength : mount.components.length = root.length := by rw [hnames, List.length_map]
    rw [within, rootOf, hroot, ChainRegistry.relativeTo, hmount]
    dsimp only
    rw [Path.stripPrefix?, if_pos hbelow, Option.getD_some, Option.getD_some, Path.names, Path.drop,
      hlength, RepoPath.names, List.map_drop, List.map_drop, ← RepoPath.names,
      ← RepoPath.names_toPath]
    rfl

/-! ### What the union shows -/

theorem blobAt_foldl_graftChain {target : Hash} {chains : List Chain}
    {view : AList fun _ : RepoPath => Entry}
    (h : ∀ c ∈ chains, c.enabled = true → ∀ root, mountOf c = some root → ¬ root <+: path) :
    blobAt (chains.foldl (graftChain target refs) view) path = blobAt view path := by
  induction chains generalizing view with
  | nil => rfl
  | cons c chains ih =>
    rw [List.foldl_cons, ih fun d hd => h d (List.mem_cons_of_mem _ hd), graftChain]
    split_ifs with henabled
    · split
      · rename_i root tree hroot htree
        rw [blobAt_graft, if_neg (h c List.mem_cons_self henabled root hroot)]
      · rfl
    · rfl

/-- Of chains with disjoint mounts the one above a path is grafted there. -/
theorem blobAt_foldl_of_mem {target : Hash} {chains : List Chain}
    {view : AList fun _ : RepoPath => Entry}
    (hdisjoint : (chains.filter fun c => c.enabled).Pairwise ChainRegistry.MountsApart) {c : Chain}
    (hc : c ∈ chains) (henabled : c.enabled = true) {root : RepoPath}
    (hroot : mountOf c = some root) (hle : root <+: path) {tree : TreeView} (htree : refs c.refName = some tree) :
    blobAt (chains.foldl (graftChain target refs) view) path =
      blobAt tree.byPath (path.drop root.length) := by
  induction chains generalizing view with
  | nil => cases hc
  | cons d chains ih =>
    rw [List.foldl_cons]
    rcases List.mem_cons.mp hc with rfl | hmem
    · rw [List.filter_cons_of_pos henabled, List.pairwise_cons] at hdisjoint
      rw [blobAt_foldl_graftChain, graftChain, if_pos henabled, hroot, htree]
      · dsimp only
        rw [blobAt_graft, if_pos hle]
      · intro e he heenabled root' hroot' hle'
        obtain ⟨mount, hmount, hnames⟩ := mountOf_eq_some.mp hroot
        obtain ⟨mount', hmount', hnames'⟩ := mountOf_eq_some.mp hroot'
        have hapart :=
          hdisjoint.1 e (List.mem_filter.mpr ⟨he, heenabled⟩) mount hmount mount' hmount'
        rw [hnames, hnames', Forest.Apart, List.prefix_map_iff_of_injective normal_injective,
          List.prefix_map_iff_of_injective normal_injective] at hapart
        rcases List.prefix_or_prefix_of_prefix hle hle' with hbelow | hbelow
        · exact hapart.1 hbelow
        · exact hapart.2 hbelow
    · refine ih ?_ hmem
      by_cases hd : d.enabled = true
      · rw [List.filter_cons_of_pos hd] at hdisjoint
        exact (List.pairwise_cons.mp hdisjoint).2
      · rwa [List.filter_cons_of_neg hd] at hdisjoint

/-- **The file at a path of the union** is the one in the tree of the chain that owns the path. -/
theorem blobAt_buildUnion (target : Hash) (h : Composed refs registry) (path : RepoPath) :
    ∃ tree, refs (ownerOf registry path).refName = some tree ∧
      blobAt (buildUnion target refs registry) path =
        blobAt tree.byPath (within (ownerOf registry path) path) := by
  have hmem : ownerOf registry path ∈ registry.enabledChains := registry.owningChain_mem path.toPath
  obtain ⟨tree, htree⟩ := Option.isSome_iff_exists.mp (h.tips _ hmem)
  refine ⟨tree, htree, ?_⟩
  rcases ownerOf_cases registry path with hown | ⟨hshared, henabled, root, hroot, hle⟩
  · have hnone : mountOf registry.device = none := by rw [mountOf, h.device, Option.bind_none]
    have hout : ∀ c ∈ registry.shared, c.enabled = true → ∀ root, mountOf c = some root →
        ¬ root <+: path := by
      intro c hc henabled root hroot hle
      rw [← ownerOf_eq h.disjoint hc henabled hroot hle, hown, hnone] at hroot
      cases hroot
    rw [hown] at htree ⊢
    rw [buildUnion, blobAt_foldl_graftChain hout, htree, within, rootOf, hnone]
    rfl
  · rw [buildUnion, blobAt_foldl_of_mem h.disjoint hshared henabled hroot hle htree, within, rootOf,
      hroot]
    rfl

/-! ### What a chain commits -/

/-- **The part of a snapshot that a chain gets** holds the files of the snapshot it owns. -/
theorem fileAt_part {unified : WalkSnapshot} (hdevice : registry.device.mountPath = none)
    (hroots : ∀ f ∈ unified.files, registry.isEnabledMountRoot f.1 = false) (path : RepoPath) :
    (registry.part unified (ownerOf registry path)).root.fileAt
        (within (ownerOf registry path) path).names = unified.root.fileAt path.names := by
  refine Option.ext fun file => ?_
  rw [← names_within hdevice, ← WalkSnapshot.mem_files, ChainRegistry.mem_files_part hdevice hroots,
    ChainRegistry.mem_ownFiles, ← RepoPath.names_toPath, ← WalkSnapshot.mem_files]
  constructor
  · rintro ⟨other, hmem, hown, hrel⟩
    have hother := ChainRegistry.absolute_relativeTo hdevice other
    rw [hown, hrel] at hother
    rwa [← hother, ownerOf, ChainRegistry.absolute_relativeTo hdevice] at hmem
  · exact fun hmem => ⟨path.toPath, hmem, rfl, rfl⟩

/-- Each part of a split snapshot is that of a chain, and holds what the chain owns. -/
theorem fileAt_of_mem_split {unified : WalkSnapshot} (hdevice : registry.device.mountPath = none)
    (hrefs : (registry.enabledChains.map Chain.refName).Nodup)
    (hroots : ∀ f ∈ unified.files, registry.isEnabledMountRoot f.1 = false)
    {part : String × WalkSnapshot} (hpart : part ∈ registry.splitSnapshot unified)
    (hown : (ownerOf registry path).refName = part.1) :
    part.2.overlayGeneration = unified.overlayGeneration ∧
      part.2.root.fileAt (within (ownerOf registry path) path).names =
        unified.root.fileAt path.names := by
  rw [ChainRegistry.splitSnapshot_eq hrefs] at hpart
  obtain ⟨c, hc, rfl⟩ := List.mem_map.mp hpart
  have hself : ownerOf registry path = c :=
    List.inj_on_of_nodup_map hrefs (registry.owningChain_mem path.toPath) hc hown
  refine ⟨rfl, ?_⟩
  have hfile := fileAt_part hdevice hroots path
  rw [hself] at hfile ⊢
  exact hfile

end

end Softfig.Mount
