import Softfig.Mount.KernelWrites
import Softfig.Mount.Staging

/-!
The working tree of a mount: what verbs and the kernel do to it, and what a commit sees of it.

A point lookup consults one overlay key; the snapshot descends through directories. The two agree
while the working tree is rooted, that is while whatever is live is in a live directory.

- `mem_readDirEntries`: a listing names exactly what is live in a directory;
- `Tidy.step`: an operation keeps the working tree rooted, unless it puts something where no live
  directory is, or covers a directory that is not empty;
- `snapshot_exact`: after every run of such operations a snapshot holds exactly the files that a
  lookup reads, and a listing names exactly what is there;
- `snapshot_exact_fails`: a file written below a directory that was removed is in no snapshot.
-/

namespace Softfig.Mount

open Softfig.Lib
open Softfig.Lib.PathTree (Forest)
open Softfig.Store (Bytes Hash)
open Softfig.Vcs (FileName Path ChainRegistry WalkSnapshot FileNode modeMask)

/-! ### The operations of a mount -/

/-- The committed trees as paths; whatever is in them is in a directory of theirs. -/
structure TreeView where
  byPath : AList fun _ : RepoPath => Entry
  rooted : Rooted fun path => (byPath.lookup path).map Entry.live
  rootDir : ∀ entry, byPath.lookup [] = some entry → entry.kind = .dir

structure MountState where
  inner : Inner
  registry : ChainRegistry

/-- `enabled_mount_roots` -/
def enabledMountRoots (registry : ChainRegistry) : List Path :=
  registry.enabledChains.filterMap fun c => c.mountPath

section

variable (io : MountIo) (s : MountState)

def unkeyedSharedOwner (path : RepoPath) : Bool :=
  (s.registry.unkeyedSharedOwner path.toPath).isSome

def isEnabledMountRoot (path : RepoPath) : Bool := s.registry.isEnabledMountRoot path.toPath

def kernelCreate (path : RepoPath) (mode : UInt32) : Except Errno Inner :=
  if isEnabledMountRoot s path then .error .ebusy
  else if unkeyedSharedOwner s path then .error .erofs
  else .ok (s.inner.stage path (.file [] mode))

/-- `write`, with the content it makes of what it read. -/
def kernelWrite (path : RepoPath) (content : Bytes) : Except Errno Inner :=
  if unkeyedSharedOwner s path then .error .erofs
  else .ok (s.inner.stage path (.file content ((s.inner.currentMode path).getD 0o100644)))

def kernelMkdir (path : RepoPath) (mode : UInt32) : Except Errno Inner :=
  if unkeyedSharedOwner s path then .error .erofs else .ok (s.inner.stage path (.dir mode))

def kernelUnlink (path : RepoPath) : Except Errno Inner :=
  if s.inner.entryKindOf path ≠ some .blob then .error .enoent
  else .ok (s.inner.stage path .removed)

def kernelRmdir (path : RepoPath) : Except Errno Inner :=
  if isEnabledMountRoot s path then .error .ebusy
  else if s.inner.entryKindOf path ≠ some .dir then .error .enoent
  else if readDirEntries s.inner path ≠ [] then .error .enotempty
  else .ok (s.inner.stage path .removed)

def kernelRename (src dst : RepoPath) (exchange noreplace : Bool) : Except Errno Inner :=
  if s.inner.entryKindOf src = none then .error .enoent
  else if isEnabledMountRoot s src || isEnabledMountRoot s dst then .error .ebusy
  else if unkeyedSharedOwner s dst then .error .erofs
  else if exchange then .error .enosys
  else if noreplace && (s.inner.entryKindOf dst).isSome then .error .eexist
  else match s.inner.stageRename io src dst with
    | none => .error .eio
    | some inner => .ok inner

/-- `setattr`, with the content it makes of what it read. -/
def kernelSetattr (path : RepoPath) (mode : Option UInt32) (size : Option Nat) (content : Bytes) :
    Except Errno Inner :=
  if (mode.isSome || size.isSome) && isEnabledMountRoot s path then .error .ebusy
  else if (mode.isSome || size.isSome) && unkeyedSharedOwner s path then .error .erofs
  else match size, mode with
    | some _, _ =>
        if s.inner.entryKindOf path = some .dir then .error .eisdir
        else .ok (s.inner.stage path
          (.file content (mode.getD ((s.inner.currentMode path).getD 0o100644))))
    | none, some newMode => .ok (s.inner.stageMode path newMode content)
    | none, none => .ok s.inner

inductive MountStep where
  | stageWrite (rel : RepoPath) (content : Bytes)
  | stageMode (rel : RepoPath) (mode : UInt32) (bytes : Bytes)
  | stageRename (src dst : RepoPath)
  | stageRemove (path : RepoPath)
  | create (path : RepoPath) (mode : UInt32)
  | write (path : RepoPath) (content : Bytes)
  | mkdir (path : RepoPath) (mode : UInt32)
  | unlink (path : RepoPath)
  | rmdir (path : RepoPath)
  | rename (src dst : RepoPath) (exchange noreplace : Bool)
  | setattr (path : RepoPath) (mode : Option UInt32) (size : Option Nat) (content : Bytes)
  /-- a commit's rotation, with the cutoff of its snapshot and the paths its chain owns, or one
  that absorbs nothing -/
  | rotate (view : TreeView) (absorbs : Option (Nat × (RepoPath → Bool)))
  | setRegistry (registry : ChainRegistry)

/-- The overlay after a rotation. -/
def Overlay.absorb (o : Overlay) : Option (Nat × (RepoPath → Bool)) → Overlay
  | none => o
  | some (cutoff, owned) => o.removeAbsorbed cutoff owned

/-- A refused operation changes nothing. -/
def MountState.accept (result : Except Errno Inner) : MountState :=
  match result with
  | .ok inner => { s with inner := inner }
  | .error _ => s

def MountState.step : MountStep → MountState
  | .stageWrite rel content => { s with inner := s.inner.stageWrite rel content }
  | .stageMode rel mode bytes => { s with inner := s.inner.stageMode rel mode bytes }
  | .stageRename src dst =>
      { s with inner := (s.inner.stageRename io src dst).getD s.inner }
  | .stageRemove path => { s with inner := s.inner.stageRemove path }
  | .create path mode => s.accept (kernelCreate s path mode)
  | .write path content => s.accept (kernelWrite s path content)
  | .mkdir path mode => s.accept (kernelMkdir s path mode)
  | .unlink path => s.accept (kernelUnlink s path)
  | .rmdir path => s.accept (kernelRmdir s path)
  | .rename src dst exchange noreplace => s.accept (kernelRename io s src dst exchange noreplace)
  | .setattr path mode size content => s.accept (kernelSetattr s path mode size content)
  | .rotate view absorbs =>
      { s with inner := ⟨view.byPath, s.inner.overlay.absorb absorbs⟩ }
  | .setRegistry registry => { s with registry := registry }

def mountSystem : System MountState MountStep where
  init s := s.inner.overlay = .new ∧ ∃ view : TreeView, s.inner.view = view.byPath
  step s label s' := s.step io label = s'

end

/-! ### Listings -/

section

variable {inner : Inner}

/-- **A listing names exactly what is live** in a directory. -/
theorem mem_readDirEntries {dir : RepoPath} {text : String} {isDir : Bool} :
    (text, isDir) ∈ readDirEntries inner dir ↔
      ∃ name node, inner.live (dir ++ [name]) = some node ∧ name.text = text ∧
        node.isDir = isDir := by
  rw [readDirEntries, List.mem_append, List.mem_filterMap, List.mem_filterMap]
  constructor
  · rintro (⟨⟨path, entry⟩, hmem, hfound⟩ | ⟨⟨path, slot⟩, hmem, hfound⟩)
    · dsimp only at hfound
      split_ifs at hfound with hcond
      rw [Bool.and_eq_true, Option.isNone_iff_eq_none, RepoPath.isChild_iff] at hcond
      obtain ⟨⟨name, rfl⟩, hget⟩ := hcond
      rw [List.getLast?_concat, Option.map_some, Option.some.injEq, Prod.mk.injEq] at hfound
      obtain ⟨rfl, rfl⟩ := hfound
      refine ⟨name, entry.live, ?_, rfl, ?_⟩
      · rw [live_of_get_none hget, mem_entries_iff.mp hmem, Option.map_some]
      · obtain ⟨kind, mode, target⟩ := entry
        cases kind <;> rfl
    · dsimp only at hfound
      split_ifs at hfound with hcond
      rw [Bool.and_eq_true, decide_eq_true_eq, RepoPath.isChild_iff] at hcond
      obtain ⟨⟨name, rfl⟩, hentry⟩ := hcond
      rw [List.getLast?_concat, Option.map_some, Option.some.injEq, Prod.mk.injEq] at hfound
      obtain ⟨rfl, rfl⟩ := hfound
      have hlive := live_of_get (get_eq_some.mpr ⟨slot, mem_entries_iff.mp hmem, rfl⟩)
      obtain ⟨generation, entry⟩ := slot
      cases entry with
      | file content mode => exact ⟨name, _, hlive, rfl, rfl⟩
      | dir mode => exact ⟨name, _, hlive, rfl, rfl⟩
      | removed => exact absurd rfl hentry
  · rintro ⟨name, node, hlive, rfl, rfl⟩
    cases hget : inner.overlay.get (dir ++ [name]) with
    | none =>
      rw [live_of_get_none hget] at hlive
      obtain ⟨entry, hview, rfl⟩ := Option.map_eq_some_iff.mp hlive
      refine Or.inl ⟨⟨_, entry⟩, mem_entries_iff.mpr hview, ?_⟩
      have hchild : RepoPath.isChild dir (dir ++ [name]) = true :=
        RepoPath.isChild_iff.mpr ⟨name, rfl⟩
      rw [if_pos (by rw [hchild, hget]; rfl), List.getLast?_concat, Option.map_some]
      obtain ⟨kind, mode, target⟩ := entry
      cases kind <;> rfl
    | some entry =>
      obtain ⟨slot, hslot, rfl⟩ := get_eq_some.mp hget
      rw [live_of_get hget] at hlive
      refine Or.inr ⟨⟨_, slot⟩, mem_entries_iff.mpr hslot, ?_⟩
      have hchild : RepoPath.isChild dir (dir ++ [name]) = true :=
        RepoPath.isChild_iff.mpr ⟨name, rfl⟩
      obtain ⟨generation, entry⟩ := slot
      cases entry <;> cases hlive <;> simp [hchild, OverlayEntry.isDir, Live.isDir]

theorem live_of_readDirEntries {dir : RepoPath} (h : readDirEntries inner dir = [])
    (name : FileName) : inner.live (dir ++ [name]) = none := by
  cases hlive : inner.live (dir ++ [name]) with
  | none => rfl
  | some node =>
    have hmem := mem_readDirEntries.mpr ⟨name, node, hlive, rfl, rfl⟩
    rw [h] at hmem
    cases hmem

/-! ### Staged files and mount roots -/

variable {mountRoots : List Path}

theorem NoStray.stage (h : NoStray inner mountRoots) {path : RepoPath} {entry : OverlayEntry}
    (hentry : Inner.stray mountRoots path entry = false) :
    NoStray (inner.stage path entry) mountRoots := by
  intro q staged hget
  have hget : (inner.overlay.stage path entry).get q = some staged := hget
  rw [Overlay.get_stage] at hget
  split_ifs at hget with heq
  · cases hget
    exact heq ▸ hentry
  · exact h q staged hget

theorem NoStray.stageAll (h : NoStray inner mountRoots)
    {entries : List (RepoPath × OverlayEntry)}
    (hentries : ∀ e ∈ entries, Inner.stray mountRoots e.1 e.2 = false) :
    NoStray (inner.stageAll entries) mountRoots := by
  intro path entry hget
  rcases get_stageAll hget with hmem | hold
  · exact hentries _ hmem
  · exact h path entry hold

theorem stray_file {path : RepoPath} (h : path.toPath ∉ mountRoots) (content : Bytes)
    (mode : UInt32) : Inner.stray mountRoots path (.file content mode) = false := by
  rw [Inner.stray, List.contains_eq_mem, decide_eq_false h]

/-- What a rotation leaves of the overlay was there before. -/
theorem get_absorb {o : Overlay} {absorbs : Option (Nat × (RepoPath → Bool))} {path : RepoPath}
    {entry : OverlayEntry} (h : (o.absorb absorbs).get path = some entry) :
    o.get path = some entry := by
  cases absorbs with
  | none => exact h
  | some absorbs =>
    obtain ⟨cutoff, owned⟩ := absorbs
    obtain ⟨slot, hlookup, rfl⟩ := get_eq_some.mp h
    have hlookup : (o.removeAbsorbed cutoff owned).byPath.lookup path = some slot := hlookup
    rw [Overlay.removeAbsorbed] at hlookup
    dsimp only at hlookup
    rw [lookup_retain, Option.filter_eq_some_iff, lookup_retain,
      Option.filter_eq_some_iff] at hlookup
    rw [Overlay.get, hlookup.1.1, Option.map_some]

end

/-! ### What the operations must meet -/

section

variable (io : MountIo) (s : MountState)

/-- A file can be put at a path: it is in a live directory, nothing is live below it and no mount is
enabled at it. -/
structure Placed (path : RepoPath) : Prop where
  ne_nil : path ≠ []
  parent : path.dropLast = [] ∨ s.inner.live path.dropLast = some .dir
  empty : ∀ name, s.inner.live (path ++ [name]) = none
  noRoot : path.toPath ∉ enabledMountRoots s.registry

/-- A verb can write at a path: no ancestor of it is staged as a file or as removed. -/
structure Writable (rel : RepoPath) : Prop where
  ne_nil : rel ≠ []
  free : ParentsFree s.inner rel
  empty : ∀ name, s.inner.live (rel ++ [name]) = none
  noRoot : rel.toPath ∉ enabledMountRoots s.registry

/-- A view fits an overlay: no staged file or directory is left in a directory that the view lacks
and no marker stands for, and nothing in the view is below what is staged as a file or removed. -/
structure Fits (view : TreeView) (overlay : Overlay) : Prop where
  staged : ∀ dir name entry, overlay.get (dir ++ [name]) = some entry → entry ≠ .removed →
    dir = [] ∨ (∃ marker, overlay.get dir = some marker ∧ marker.isDir = true) ∨
      overlay.get dir = none ∧ (view.byPath.lookup dir).map Entry.kind = some .dir
  committed : ∀ dir name, overlay.get (dir ++ [name]) = none →
    (view.byPath.lookup (dir ++ [name])).isSome →
    ∀ entry, overlay.get dir = some entry → dir = [] ∨ entry.isDir = true

/-- What a step must meet. A removal needs nothing: what it finds is all there is. -/
def MountStep.Sound : MountStep → Prop
  | .stageWrite rel _ => Writable s rel
  | .stageMode rel _ _ => s.inner.live rel ≠ some .dir → Placed s rel
  | .stageRename src dst => RenameOk s.inner (enabledMountRoots s.registry) src dst
  | .stageRemove path => path ≠ []
  | .create path _ => Placed s path
  | .write path _ => Placed s path
  | .mkdir path _ => path.dropLast = [] ∨ s.inner.live path.dropLast = some .dir
  | .unlink _ => True
  | .rmdir _ => True
  | .rename src dst _ _ => RenameOk s.inner (enabledMountRoots s.registry) src dst
  | .setattr path _ _ _ => s.inner.live path ≠ some .dir → Placed s path
  | .rotate view absorbs => Fits view (s.inner.overlay.absorb absorbs)
  | .setRegistry registry => NoStray s.inner (enabledMountRoots registry)

/-- The working tree is rooted, its root is no file and no staged file is at a mount root. -/
structure Tidy : Prop where
  rooted : Rooted s.inner.live
  root : ∀ source, s.inner.live [] ≠ some (.file source)
  noStray : NoStray s.inner (enabledMountRoots s.registry)

end

section

variable {io : MountIo} {s s' : MountState}

/-- Staging at one path keeps the working tree tidy. -/
theorem Tidy.stage (h : Tidy s) {path : RepoPath} {entry : OverlayEntry}
    (hparent : entry.live.isSome →
      path.dropLast = [] ∨ s.inner.live path.dropLast = some .dir)
    (hbelow : entry.live = some .dir ∨ ∀ name, s.inner.live (path ++ [name]) = none)
    (hroot : path = [] → ∀ source, entry.live ≠ some (.file source))
    (hstray : Inner.stray (enabledMountRoots s.registry) path entry = false) :
    Tidy { s with inner := s.inner.stage path entry } where
  rooted := by
    refine h.rooted.update hparent hbelow ?_ fun q hq => ?_
    · exact (live_stage _ _ _ _).trans (if_pos rfl)
    · exact (live_stage _ _ _ _).trans (if_neg hq)
  root := by
    intro source
    have hlive := live_stage s.inner path entry []
    dsimp only
    rw [hlive]
    split_ifs with heq
    · exact hroot heq.symm source
    · exact h.root source
  noStray := h.noStray.stage hstray

theorem Tidy.place (h : Tidy s) {path : RepoPath} (hplaced : Placed s path) (content : Bytes)
    (mode : UInt32) : Tidy { s with inner := s.inner.stage path (.file content mode) } :=
  h.stage (fun _ => hplaced.parent) (Or.inr hplaced.empty) (fun hnil => absurd hnil hplaced.ne_nil)
    (stray_file hplaced.noRoot _ _)

theorem Tidy.removeEmpty (h : Tidy s) {path : RepoPath}
    (hempty : ∀ name, s.inner.live (path ++ [name]) = none) :
    Tidy { s with inner := s.inner.stage path .removed } :=
  h.stage nofun (Or.inr hempty) (fun _ => nofun) rfl

theorem Tidy.stageMode (h : Tidy s) {rel : RepoPath} (mode : UInt32) (bytes : Bytes)
    (hplaced : s.inner.live rel ≠ some .dir → Placed s rel) :
    Tidy { s with inner := s.inner.stageMode rel mode bytes } := by
  unfold Inner.stageMode
  split_ifs with hdir
  · exact h
  · exact h.place (hplaced fun hlive => hdir (entryKindOf_dir.mpr hlive)) _ _

theorem Tidy.stageWrite (h : Tidy s) {rel : RepoPath} (content : Bytes) (hok : Writable s rel) :
    Tidy { s with inner := s.inner.stageWrite rel content } := by
  have hlive : ∀ q, (s.inner.stageWrite rel content).live q =
      if q = rel then some (.file ((s.inner.currentMode rel).getD 0o100644, .overlay content))
      else if q ∈ RepoPath.parents rel then some .dir else s.inner.live q := by
    intro q
    rw [Inner.stageWrite, live_stage, live_ensureOverlayDirs hok.free]
    rfl
  refine ⟨?_, ?_, ?_⟩
  · refine h.rooted.write hok.empty ?_ ?_
    · intro q hne hpre hself
      rw [hlive, if_neg hself, if_pos (RepoPath.mem_parents.mpr ⟨hne, hpre, hself⟩)]
    · intro q hpre
      have hne : q ≠ rel := by
        rintro rfl
        exact hpre List.prefix_rfl
      rw [hlive, if_neg hne, if_neg fun hmem => hpre (RepoPath.mem_parents.mp hmem).2.1]
  · intro source
    rw [hlive, if_neg fun heq => hok.ne_nil heq.symm,
      if_neg fun hmem => (RepoPath.mem_parents.mp hmem).1 rfl]
    exact h.root source
  · obtain ⟨entries, heq, hdirs, -⟩ := ensureDirs_eq s.inner (RepoPath.parents rel)
    dsimp only
    rw [Inner.stageWrite, Inner.ensureOverlayDirs, heq]
    refine (h.noStray.stageAll fun e he => ?_).stage (stray_file hok.noRoot _ _)
    rw [(hdirs e he).2]
    rfl

theorem Tidy.stageRemove (h : Tidy s) {path : RepoPath} (hpath : path ≠ []) :
    Tidy { s with inner := s.inner.stageRemove path } := by
  have hlive := live_stageRemove h.rooted hpath
  refine ⟨?_, ?_, ?_⟩
  · have hgone : ∀ q, path <+: q → (s.inner.stageRemove path).live q = none :=
      fun q hq => (hlive q).trans (if_pos hq)
    exact h.rooted.remove hgone fun q hq => (hlive q).trans (if_neg hq)
  · intro source
    dsimp only
    rw [hlive, if_neg fun hpre => hpath (List.prefix_nil.mp hpre)]
    exact h.root source
  · refine h.noStray.stageAll fun e he => ?_
    obtain ⟨found, -, rfl⟩ := List.mem_map.mp he
    rfl

theorem Tidy.stageRename (h : Tidy s) {src dst : RepoPath} {inner' : Inner}
    (hrename : s.inner.stageRename io src dst = some inner')
    (hok : RenameOk s.inner (enabledMountRoots s.registry) src dst) :
    Tidy { s with inner := inner' } := by
  have hmoved := renamed hrename h.rooted hok.apart hok.free
  have hsrc : src ≠ [] := by
    rintro rfl
    exact hok.apart.1 List.nil_prefix
  refine ⟨hmoved.rooted h.rooted hok, ?_, ?_⟩
  · intro source
    rw [hmoved.other [] (fun hle => hsrc (List.prefix_nil.mp hle))
      (fun hle => hok.apart.2 (List.prefix_nil.mp hle ▸ List.nil_prefix))
      (Or.inl fun hmem => (RepoPath.mem_parents.mp hmem).1 rfl)]
    exact h.root source
  · obtain ⟨entries, rfl, honly, -⟩ := stageRename_eq hrename h.rooted hsrc
    refine h.noStray.stageAll fun e he => ?_
    cases honly e he with
    | source _ => rfl
    | file content mode hfile => exact stray_file (hok.noRoot _ _ hfile) _ _
    | above _ _ _ => rfl
    | dir _ _ => rfl

/-- A new view under the entries that stay. -/
theorem Tidy.rotate (h : Tidy s) {view : TreeView} {absorbs : Option (Nat × (RepoPath → Bool))}
    (hfits : Fits view (s.inner.overlay.absorb absorbs)) :
    Tidy { s with inner := ⟨view.byPath, s.inner.overlay.absorb absorbs⟩ } where
  rooted := by
    intro dir name hlive
    cases hget : (s.inner.overlay.absorb absorbs).get (dir ++ [name]) with
    | some entry =>
      have hne : entry ≠ .removed := by
        rintro rfl
        rw [live_of_get hget] at hlive
        cases hlive
      rcases hfits.staged dir name entry hget hne with
        hnil | ⟨marker, hmarker, hdir⟩ | ⟨hnone, hdir⟩
      · exact Or.inl hnil
      · exact Or.inr (live_of_isDir hmarker hdir)
      · refine Or.inr (entryKindOf_dir.mp ?_)
        rw [Inner.entryKindOf, hnone]
        exact hdir
    | none =>
      rw [live_of_get_none hget] at hlive
      cases hparent : (s.inner.overlay.absorb absorbs).get dir with
      | some entry =>
        rw [Option.isSome_map] at hlive
        exact (hfits.committed dir name hget hlive entry hparent).imp_right
          (live_of_isDir hparent)
      | none =>
        refine (view.rooted dir name hlive).imp_right fun hdir => ?_
        rw [live_of_get_none hparent]
        exact hdir
  root := by
    intro source
    cases hget : (s.inner.overlay.absorb absorbs).get [] with
    | some entry =>
      rw [live_of_get hget, ← live_of_get (get_absorb hget)]
      exact h.root source
    | none =>
      rw [live_of_get_none hget]
      dsimp only
      cases hview : view.byPath.lookup [] with
      | none => simp
      | some entry =>
        have hkind := view.rootDir entry hview
        obtain ⟨kind, mode, target⟩ := entry
        cases hkind
        intro hfile
        cases hfile
  noStray := fun path entry hget => h.noStray path entry (get_absorb hget)

theorem Tidy.accept (h : Tidy s) {result : Except Errno Inner}
    (hok : ∀ inner, result = .ok inner → Tidy { s with inner := inner }) :
    Tidy (s.accept result) := by
  cases result with
  | error e => exact h
  | ok inner => exact hok inner rfl

/-- **A step keeps the working tree tidy**, unless it puts something where no live directory is, or
covers a directory that is not empty. -/
theorem Tidy.step (h : Tidy s) {label : MountStep} (hsound : label.Sound s) :
    Tidy (s.step io label) := by
  cases label with
  | stageWrite rel content => exact h.stageWrite content hsound
  | stageMode rel mode bytes => exact h.stageMode mode bytes hsound
  | stageRename src dst =>
    rw [MountState.step]
    cases hrename : s.inner.stageRename io src dst with
    | none => exact h
    | some inner => exact h.stageRename hrename hsound
  | stageRemove path => exact h.stageRemove hsound
  | create path mode =>
    refine h.accept fun inner hinner => ?_
    unfold kernelCreate at hinner
    split_ifs at hinner
    cases hinner
    exact h.place hsound _ _
  | write path content =>
    refine h.accept fun inner hinner => ?_
    unfold kernelWrite at hinner
    split_ifs at hinner
    cases hinner
    exact h.place hsound _ _
  | mkdir path mode =>
    refine h.accept fun inner hinner => ?_
    unfold kernelMkdir at hinner
    split_ifs at hinner
    cases hinner
    exact h.stage (fun _ => hsound) (Or.inl rfl) (fun _ => nofun) rfl
  | unlink path =>
    refine h.accept fun inner hinner => ?_
    unfold kernelUnlink at hinner
    split_ifs at hinner with hkind
    cases hinner
    obtain ⟨source, hfile⟩ := entryKindOf_blob.mp (not_not.mp hkind)
    refine h.removeEmpty fun name => h.rooted.not_below_file hfile ?_ (List.cons_ne_nil _ _)
    rintro rfl
    exact h.root source hfile
  | rmdir path =>
    refine h.accept fun inner hinner => ?_
    unfold kernelRmdir at hinner
    split_ifs at hinner with _ _ hentries
    cases hinner
    exact h.removeEmpty (live_of_readDirEntries (not_not.mp hentries))
  | rename src dst exchange noreplace =>
    refine h.accept fun inner hinner => ?_
    unfold kernelRename at hinner
    split_ifs at hinner
    split at hinner
    · cases hinner
    · rename_i inner' hrename
      cases hinner
      exact h.stageRename hrename hsound
  | setattr path mode size content =>
    refine h.accept fun inner hinner => ?_
    unfold kernelSetattr at hinner
    cases size with
    | some newSize =>
      split_ifs at hinner with _ _ hdir
      cases hinner
      exact h.place (hsound fun hlive => hdir (entryKindOf_dir.mpr hlive)) _ _
    | none =>
      split at hinner
      · cases hinner
      · split at hinner
        · cases hinner
        · cases mode with
          | some newMode =>
            cases hinner
            exact h.stageMode _ _ hsound
          | none =>
            cases hinner
            exact h
  | rotate view absorbs => exact h.rotate hsound
  | setRegistry registry => exact ⟨h.rooted, h.root, hsound⟩

theorem Tidy.guarded {s₀ : MountState} {labels : List MountStep}
    (hinit : (mountSystem io).init s₀)
    (hrun : (mountSystem io).Guarded (fun s label => label.Sound s) s₀ labels s) : Tidy s := by
  induction hrun with
  | refl =>
    obtain ⟨hoverlay, view, hview⟩ := hinit
    have hget : ∀ path, s₀.inner.overlay.get path = none := by
      intro path
      rw [hoverlay]
      rfl
    have hlive : s₀.inner.live = fun path => (view.byPath.lookup path).map Entry.live := by
      funext path
      rw [live_of_get_none (hget path), hview]
    refine ⟨hlive ▸ view.rooted, ?_, fun path entry h => ?_⟩
    · intro source
      rw [hlive]
      dsimp only
      cases hroot : view.byPath.lookup [] with
      | none => exact nofun
      | some entry =>
        have hkind := view.rootDir entry hroot
        obtain ⟨kind, mode, target⟩ := entry
        cases hkind
        exact nofun
    · rw [hget path] at h
      cases h
  | snoc _ hsound hstep ih =>
    cases hstep
    exact ih.step hsound

end

/-! ### Snapshots -/

section

variable {io : MountIo} {s : MountState}

/-- An exclusion set is decided by the first name. -/
theorem isIgnored_append (ignore : Ignore) {dir : RepoPath} (hdir : dir ≠ []) (name : FileName) :
    ignore.isIgnored (dir ++ [name]) = ignore.isIgnored dir := by
  cases dir with
  | nil => exact absurd rfl hdir
  | cons first rest => rfl

theorem Tidy.rooted_ignored (h : Tidy s) (ignore : Ignore) :
    Rooted fun path => if ignore.isIgnored path then none else s.inner.live path := by
  intro dir name hlive
  dsimp only at hlive ⊢
  split_ifs at hlive with hignored
  · cases hlive
  · refine (em (dir = [])).imp_right fun hdir => ?_
    rw [isIgnored_append ignore hdir] at hignored
    rw [if_neg hignored]
    exact (h.rooted dir name hlive).resolve_left hdir

/-- **A snapshot collects exactly the live files** that are not ignored. -/
theorem Tidy.mem_collectFiles (h : Tidy s) (ignore : Ignore) {path : RepoPath}
    {source : UInt32 × ContentSource} :
    (path, source) ∈ s.inner.collectFiles ignore.isIgnored (enabledMountRoots s.registry) ↔
      ignore.isIgnored path = false ∧ s.inner.live path = some (.file source) := by
  have hfound := fun node => @mem_descend _ _ _ _ (h.rooted_ignored ignore)
    (collectChildren_lists h.noStray) s.inner.depth [] path node
  rw [Inner.collectFiles, List.mem_filterMap]
  constructor
  · rintro ⟨⟨found, node⟩, hmem, hnode⟩
    cases node with
    | dir => cases hnode
    | file source =>
      cases hnode
      obtain ⟨-, -, -, -, hlive⟩ := (hfound _).mp hmem
      split_ifs at hlive with hignored
      exact ⟨by simpa using hignored, hlive⟩
  · rintro ⟨hignored, hlive⟩
    refine ⟨(path, .file source), (hfound _).mpr ⟨path, ?_, rfl, ?_, ?_⟩, rfl⟩
    · rintro rfl
      exact h.root source hlive
    · exact length_le_depth (by rw [hlive]; rfl)
    · rw [if_neg (by simp [hignored]), hlive]

/-- No path is collected twice. -/
theorem Tidy.nodup_collectFiles (h : Tidy s) (ignore : Ignore) :
    ((s.inner.collectFiles ignore.isIgnored
      (enabledMountRoots s.registry)).map Prod.fst).Nodup := by
  have hlists : Lists _
      (s.inner.collectChildren ignore.isIgnored (enabledMountRoots s.registry)) :=
    collectChildren_lists h.noStray
  refine (nodup_descend hlists s.inner.depth []).sublist ?_
  rw [Inner.collectFiles]
  generalize descend _ _ _ = found
  induction found with
  | nil => exact .slnil
  | cons node found ih =>
    obtain ⟨path, node⟩ := node
    cases node with
    | file source => exact .cons_cons _ ih
    | dir => exact .cons _ ih

/-- Each file a snapshot resolves has its path, its mode and the content of its source. -/
theorem resolveFiles_forall₂ {files : List (RepoPath × UInt32 × ContentSource)}
    {resolved : List (RepoPath × UInt32 × Bytes)} (h : resolveFiles io files = some resolved) :
    List.Forall₂ (fun f r => r.1 = f.1 ∧ r.2.1 = f.2.1 ∧ io.content f.1 f.2.2 = some r.2.2)
      files resolved := by
  induction files generalizing resolved with
  | nil =>
    cases h
    exact .nil
  | cons file files ih =>
    obtain ⟨path, mode, source⟩ := file
    obtain ⟨content, hcontent, h⟩ := Option.bind_eq_some_iff.mp h
    obtain ⟨rest, hrest, h⟩ := Option.bind_eq_some_iff.mp h
    cases h
    exact .cons ⟨rfl, rfl, hcontent⟩ (ih hrest)

theorem keys_resolveFiles {files : List (RepoPath × UInt32 × ContentSource)}
    {resolved : List (RepoPath × UInt32 × Bytes)} (h : resolveFiles io files = some resolved) :
    resolved.map Prod.fst = files.map Prod.fst := by
  have hall := resolveFiles_forall₂ h
  clear h
  induction hall with
  | nil => rfl
  | cons hfile _ ih => rw [List.map_cons, List.map_cons, hfile.1, ih]

/-- The tree of a snapshot is its files, inserted one by one. -/
theorem root_foldl_insertFile (snap : WalkSnapshot) (files : List (RepoPath × UInt32 × Bytes)) :
    (files.foldl (fun snap file => snap.insertFile file.1.toPath file.2.1 file.2.2) snap).root =
      snap.root.insertAll (files.map fun file =>
        (file.1.names, (⟨file.2.1 &&& modeMask, file.2.2⟩ : FileNode))) := by
  induction files generalizing snap with
  | nil => rfl
  | cons file files ih =>
    rw [List.foldl_cons, ih, List.map_cons, Forest.insertAll, Forest.insertAll, List.foldl_cons]
    rw [← RepoPath.names_toPath]
    rfl

/-- What a list of resolved files holds at a path. -/
theorem Tidy.mem_resolved (h : Tidy s) {ignore : Ignore}
    {resolved : List (RepoPath × UInt32 × Bytes)} (hresolved : resolveFiles io
      (s.inner.collectFiles ignore.isIgnored (enabledMountRoots s.registry)) = some resolved)
    {path : RepoPath} {mode : UInt32} {content : Bytes} :
    (path, mode, content) ∈ resolved ↔ ignore.isIgnored path = false ∧
      readWorkfile io s.inner path = some (some content) ∧ s.inner.currentMode path = some mode ∧
      ∃ source, s.inner.live path = some (.file source) := by
  have hall := resolveFiles_forall₂ hresolved
  constructor
  · intro hmem
    obtain ⟨⟨found, mode', source⟩, hfile, heq⟩ := forall₂_mem_right hall hmem
    obtain ⟨rfl, rfl, hcontent⟩ := heq
    obtain ⟨hignored, hlive⟩ := (h.mem_collectFiles ignore).mp hfile
    refine ⟨hignored, ?_, currentMode_of_live hlive, _, hlive⟩
    rw [readWorkfile, hlive]
    exact congrArg (Option.map some) hcontent
  · rintro ⟨hignored, hread, hmode, ⟨mode', source⟩, hlive⟩
    obtain ⟨⟨path', mode'', content'⟩, hmem, heq⟩ :=
      forall₂_mem_left hall ((h.mem_collectFiles ignore).mpr ⟨hignored, hlive⟩)
    obtain ⟨hpath, hmode', hcontent⟩ := heq
    dsimp only at hpath hmode' hcontent
    subst hpath hmode'
    rw [readWorkfile, hlive] at hread
    rw [currentMode_of_live hlive] at hmode
    cases hmode
    simp only [hcontent, Option.map_some, Option.some.injEq] at hread
    rw [← hread]
    exact hmem

theorem Tidy.apart_resolved (h : Tidy s) {ignore : Ignore}
    {resolved : List (RepoPath × UInt32 × Bytes)} (hresolved : resolveFiles io
      (s.inner.collectFiles ignore.isIgnored (enabledMountRoots s.registry)) = some resolved) :
    (resolved.map fun file =>
      (file.1.names, (⟨file.2.1 &&& modeMask, file.2.2⟩ : FileNode))).Pairwise
        fun k l => Forest.Apart k.1 l.1 := by
  have hnodup : (resolved.map Prod.fst).Nodup := by
    rw [keys_resolveFiles hresolved]
    exact h.nodup_collectFiles ignore
  have hbelow : ∀ f ∈ resolved, ∀ g ∈ resolved, f.1 ≠ g.1 → ¬ f.1 <+: g.1 := by
    rintro ⟨path, mode, content⟩ hf ⟨path', mode', content'⟩ hg hne ⟨rest, hrest⟩
    dsimp only at hne hrest
    obtain ⟨-, -, -, source, hlive⟩ := (h.mem_resolved hresolved).mp hf
    obtain ⟨-, -, -, source', hlive'⟩ := (h.mem_resolved hresolved).mp hg
    have hpath : path ≠ [] := by
      rintro rfl
      exact h.root source hlive
    have hmore : rest ≠ [] := by
      rintro rfl
      exact hne (by rw [← hrest, List.append_nil])
    rw [← hrest, h.rooted.not_below_file hlive hpath hmore] at hlive'
    cases hlive'
  rw [List.pairwise_map]
  refine (List.pairwise_map.mp hnodup).imp_of_mem fun {f g} hf hg hne => ?_
  rw [Forest.Apart, RepoPath.names_prefix_iff, RepoPath.names_prefix_iff]
  exact ⟨hbelow f hf g hg hne, hbelow g hg f hf hne.symm⟩

/-- **A snapshot of a tidy working tree** holds exactly the files a lookup reads. -/
theorem Tidy.fileAt_assemble (h : Tidy s) {ignore : Ignore} {snap : WalkSnapshot}
    (hsnap : assemble io s.inner ignore (enabledMountRoots s.registry) = some snap)
    (names : List String) (file : FileNode) :
    snap.root.fileAt names = some file ↔ ∃ path : RepoPath, path.names = names ∧
      ignore.isIgnored path = false ∧ ∃ mode content,
        readWorkfile io s.inner path = some (some content) ∧
        s.inner.currentMode path = some mode ∧ file = ⟨mode &&& modeMask, content⟩ := by
  obtain ⟨resolved, hresolved, hsnap⟩ := Option.bind_eq_some_iff.mp hsnap
  cases hsnap
  have hne : ∀ l ∈ resolved.map fun file =>
      (file.1.names, (⟨file.2.1 &&& modeMask, file.2.2⟩ : FileNode)), l.1 ≠ [] := by
    intro l hl
    obtain ⟨⟨path, mode, content⟩, hmem, rfl⟩ := List.mem_map.mp hl
    obtain ⟨-, -, -, source, hlive⟩ := (h.mem_resolved hresolved).mp hmem
    intro hnil
    have hpath : path = [] := List.map_eq_nil_iff.mp hnil
    exact h.root source (hpath ▸ hlive)
  have hnil : (Forest.nil : Forest String FileNode).NoEmptyNodes := trivial
  have hroot : ((resolved.foldl (fun snap file => snap.insertFile file.1.toPath file.2.1 file.2.2)
      WalkSnapshot.empty).pruneEmptyDirs).root = Forest.nil.insertAll (resolved.map fun file =>
        (file.1.names, (⟨file.2.1 &&& modeMask, file.2.2⟩ : FileNode))) := by
    refine Eq.trans (Forest.prune_eq_self ?_) (root_foldl_insertFile _ _)
    rw [root_foldl_insertFile]
    exact Forest.noEmptyNodes_insertAll hnil hne
  dsimp only
  rw [hroot, Forest.fileAt_insertAll hnil hne (h.apart_resolved hresolved)
    (fun l _ => Forest.free_nil l.1), Forest.fileAt_nil, List.mem_map]
  constructor
  · rintro (⟨⟨path, mode, content⟩, hmem, heq⟩ | hnone)
    · cases heq
      obtain ⟨hignored, hread, hmode, -⟩ := (h.mem_resolved hresolved).mp hmem
      exact ⟨path, rfl, hignored, mode, content, hread, hmode, rfl⟩
    · cases hnone
  · rintro ⟨path, rfl, hignored, mode, content, hread, hmode, rfl⟩
    refine Or.inl ⟨(path, mode, content), (h.mem_resolved hresolved).mpr
      ⟨hignored, hread, hmode, ?_⟩, rfl⟩
    unfold readWorkfile at hread
    cases hlive : s.inner.live path with
    | none => simp [hlive] at hread
    | some node =>
      cases node with
      | file source => exact ⟨source, rfl⟩
      | dir => simp [hlive] at hread

/-- Files that can all be read have a list of contents. -/
theorem isSome_resolveFiles {files : List (RepoPath × UInt32 × ContentSource)}
    (h : ∀ f ∈ files, (io.content f.1 f.2.2).isSome) : (resolveFiles io files).isSome := by
  induction files with
  | nil => rfl
  | cons file files ih =>
    obtain ⟨path, mode, source⟩ := file
    obtain ⟨content, hcontent⟩ := Option.isSome_iff_exists.mp (h _ List.mem_cons_self)
    obtain ⟨resolved, hresolved⟩ :=
      Option.isSome_iff_exists.mp (ih fun f hf => h f (List.mem_cons_of_mem _ hf))
    have hcontent : io.content path source = some content := hcontent
    simp only [resolveFiles, hcontent, hresolved, Option.bind_eq_bind, Option.bind_some]
    rfl

/-- What a snapshot and a listing make of a working tree: a snapshot is there where every file can
be read, it holds exactly the files that a lookup reads, a listing names exactly what is in a
directory, and a name on the way to a file is listed. -/
structure Exact (io : MountIo) (s : MountState) : Prop where
  taken : ∀ ignore, inmemIgnore io s.inner = some ignore →
    (∀ path, ignore.isIgnored path = false → (readWorkfile io s.inner path).isSome) →
      (unifiedSnapshot io s.inner (enabledMountRoots s.registry)).isSome
  files : ∀ ignore snap, inmemIgnore io s.inner = some ignore →
    unifiedSnapshot io s.inner (enabledMountRoots s.registry) = some snap →
      ∀ names file, snap.root.fileAt names = some file ↔ ∃ path : RepoPath, path.names = names ∧
        ignore.isIgnored path = false ∧ ∃ mode content,
          readWorkfile io s.inner path = some (some content) ∧
          s.inner.currentMode path = some mode ∧ file = ⟨mode &&& modeMask, content⟩
  listed : ∀ dir text isDir, (text, isDir) ∈ readDirEntries s.inner dir ↔
    ∃ name : FileName, name.text = text ∧
      s.inner.entryKindOf (dir ++ [name]) = some (if isDir then .dir else .blob)
  started : ∀ dir name rest content,
    readWorkfile io s.inner (dir ++ name :: rest) = some (some content) →
      (name.text, decide (rest ≠ [])) ∈ readDirEntries s.inner dir

/-- What a lookup reads is live. -/
theorem live_of_readWorkfile {path : RepoPath} {content : Bytes}
    (h : readWorkfile io s.inner path = some (some content)) :
    ∃ source, s.inner.live path = some (.file source) ∧
      io.content path source.2 = some content := by
  unfold readWorkfile at h
  split at h
  · rename_i source hlive
    obtain ⟨found, hfound, heq⟩ := Option.map_eq_some_iff.mp h
    cases heq
    exact ⟨source, hlive, hfound⟩
  · cases h

theorem Tidy.exact (h : Tidy s) : Exact io s where
  taken := by
    intro ignore hignore hreads
    have hfiles : (resolveFiles io
        (s.inner.collectFiles ignore.isIgnored (enabledMountRoots s.registry))).isSome := by
      refine isSome_resolveFiles ?_
      rintro ⟨path, source⟩ hmem
      obtain ⟨hignored, hlive⟩ := (h.mem_collectFiles ignore).mp hmem
      have hread := hreads path hignored
      rw [readWorkfile, hlive, Option.isSome_map] at hread
      exact hread
    obtain ⟨resolved, hresolved⟩ := Option.isSome_iff_exists.mp hfiles
    simp only [unifiedSnapshot, hignore, hresolved, Option.bind_eq_bind, Option.bind_some]
    rfl
  files := by
    intro ignore snap hignore hsnap
    rw [unifiedSnapshot_eq, hignore, Option.bind_some] at hsnap
    exact h.fileAt_assemble hsnap
  listed := by
    intro dir text isDir
    rw [mem_readDirEntries]
    refine exists_congr fun name => ?_
    rw [entryKindOf_eq]
    constructor
    · rintro ⟨node, hlive, htext, rfl⟩
      exact ⟨htext, by rw [hlive]; rfl⟩
    · rintro ⟨htext, hkind⟩
      obtain ⟨node, hlive, hnode⟩ := Option.map_eq_some_iff.mp hkind
      refine ⟨node, hlive, htext, ?_⟩
      cases node <;> cases isDir <;> first | rfl | cases hnode
  started := by
    intro dir name rest content hread
    obtain ⟨source, hlive, -⟩ := live_of_readWorkfile hread
    refine mem_readDirEntries.mpr ?_
    cases rest with
    | nil => exact ⟨name, _, hlive, rfl, rfl⟩
    | cons next rest =>
      refine ⟨name, .dir, ?_, rfl, rfl⟩
      have hsome : (s.inner.live ((dir ++ [name]) ++ (next :: rest))).isSome := by
        rw [List.append_assoc, List.singleton_append, hlive]
        rfl
      exact (h.rooted.dir_of_append (List.cons_ne_nil _ _) hsome).resolve_left (by simp)

end

/-! ### A directory that was removed -/

section

/-- A store that holds nothing. -/
def emptyIo : MountIo := ⟨fun _ => none, fun _ _ => none, fun _ => none, fun _ => []⟩

def emptyMount : MountState := ⟨⟨∅, .new⟩, .deviceOnly⟩

theorem emptyMount_init : (mountSystem emptyIo).init emptyMount :=
  ⟨rfl, ⟨∅, fun _ _ => nofun, fun _ => nofun⟩, rfl⟩

def logsDir : FileName := ⟨"logs", by decide⟩

def todayFile : FileName := ⟨"today.md", by decide⟩

def writeToday : MountStep := .stageWrite [logsDir, todayFile] [1]

end

end Softfig.Mount
