import Softfig.Mount.Union

/-!
Commits and rotations of a mount, with every section that holds a lock as one step.

A commit reads the exclusions, then the mount roots, then collects the overlay and the view, then
splits what it collected, then advances one ref after the other. A ref that advanced is followed by
a rotation, which builds a view of all refs, installs it, and drops the overlay entries that the
commit absorbed. Registry swaps and advances from the network end in a rotation too. Any number of
these are under way at once.

- `MountEvent.Sound`: what a step must meet so that nothing is lost;
- `Covered.later`: what was staged up to a cutoff stays as it was staged;
- `committed_eq`: the refs have at a path what the tree of its owner has;
- `Thread.Kept.next`: what a thread has stays right through a step of another.
-/

namespace Softfig.Mount

open Softfig.Lib
open Softfig.Store (Bytes Hash)
open Softfig.Vcs (FileName Path Chain ChainRegistry WalkSnapshot FileNode modeMask)

/-! ### The sections of a mount -/

/-- The part of a snapshot for one chain, and the registry that split it. -/
structure Part where
  refName : String
  snapshot : WalkSnapshot
  registry : ChainRegistry

/-- A commit that landed, with its tree. -/
structure Landing where
  part : Part
  tree : TreeView

/-- A rotation, with the commit that fired it and the parts that are still to be committed. It is
quiet while the ref of its commit and the registry stay as they are. -/
structure TipRotation where
  landing : Option Landing
  quiet : Prop
  rest : List Part

/-- How far a commit or a rotation is. -/
inductive Thread where
  | idle
  | ignoring (ignore : Ignore)
  | rooting (ignore : Ignore) (registry : ChainRegistry)
  | captured (snapshot : WalkSnapshot)
  | committing (parts : List Part)
  | rotating (rotation : TipRotation)
  | built (rotation : TipRotation) (view : AList fun _ : RepoPath => Entry) (owners : ChainRegistry)

/-- The state of a mount and of what is under way; what was staged last at a path and the commits
that landed are kept for the statements. -/
structure MountWorld where
  inner : Inner
  registry : ChainRegistry
  refs : String → Option TreeView
  threads : Nat → Thread
  last : RepoPath → Option Slot
  landed : List Landing

inductive MountEvent where
  | stage (entries : List (RepoPath × OverlayEntry))
  | readIgnore (id : Nat)
  | readRoots (id : Nat)
  | collect (id : Nat)
  | split (id : Nat)
  /-- a part that fails, waits for its turn or finds nothing to commit -/
  | skip (id : Nat)
  | land (id : Nat) (tree : TreeView)
  | finish (id : Nat)
  | build (id : Nat)
  | buildFails (id : Nat)
  | install (id : Nat)
  /-- a ref advance from the network -/
  | advance (id : Nat) (refName : String) (tree : TreeView)
  | swap (id : Nat) (registry : ChainRegistry)

namespace Part

def cutoff (part : Part) : Option Nat := part.snapshot.overlayGeneration

def Owns (part : Part) (path : RepoPath) : Prop :=
  (ownerOf part.registry path).refName = part.refName

/-- The file of a part at a path of the garden. -/
def fileAt (part : Part) (path : RepoPath) : Option FileNode :=
  part.snapshot.root.fileAt (within (ownerOf part.registry path) path).names

end Part

def splitParts (registry : ChainRegistry) (snapshot : WalkSnapshot) : List Part :=
  (registry.splitSnapshot snapshot).map fun part => ⟨part.1, part.2, registry⟩

def Thread.isRotating : Thread → Bool
  | .rotating _ => true
  | .built .. => true
  | _ => false

/-- The landing of a rotation under way. -/
def Thread.landing : Thread → Option Landing
  | .rotating rotation => rotation.landing
  | .built rotation _ _ => rotation.landing
  | _ => none

/-- The ref of a rotation's commit moves on. -/
def TipRotation.disturb (moved : String → Prop) (rotation : TipRotation) : TipRotation :=
  { rotation with
    quiet := rotation.quiet ∧ ∀ l, rotation.landing = some l → ¬ moved l.part.refName }

def Thread.disturb (moved : String → Prop) : Thread → Thread
  | .rotating rotation => .rotating (rotation.disturb moved)
  | .built rotation view owners => .built (rotation.disturb moved) view owners
  | thread => thread

/-- The overlay after a rotation. -/
def TipRotation.absorb (rotation : TipRotation) (owners : ChainRegistry) (overlay : Overlay) :
    Overlay :=
  match rotation.landing with
  | none => overlay
  | some l =>
    match l.part.cutoff with
    | none => overlay
    | some cutoff =>
        overlay.removeAbsorbed cutoff fun path =>
          decide ((ownerOf owners path).refName = l.part.refName)

namespace MountWorld

def stage (s : MountWorld) (e : RepoPath × OverlayEntry) : MountWorld :=
  { s with
    inner := s.inner.stage e.1 e.2
    last := Function.update s.last e.1 (some ⟨s.inner.overlay.generation + 1, e.2⟩) }

def set (s : MountWorld) (id : Nat) (thread : Thread) : MountWorld :=
  { s with threads := Function.update s.threads id thread }

section

variable (io : MountIo) (target : Hash) (s : MountWorld)

/-- The view that a rotation builds now. -/
def union : AList fun _ : RepoPath => Entry := buildUnion target s.refs s.registry

/-- The next state, where the step can be taken. -/
def act : MountEvent → Option MountWorld
  | .stage entries => some (entries.foldl stage s)
  | .readIgnore id =>
    match s.threads id with
    | .idle => (inmemIgnore io s.inner).map fun ignore => s.set id (.ignoring ignore)
    | _ => none
  | .readRoots id =>
    match s.threads id with
    | .ignoring ignore => some (s.set id (.rooting ignore s.registry))
    | _ => none
  | .collect id =>
    match s.threads id with
    | .rooting ignore registry =>
        (assemble io s.inner ignore (enabledMountRoots registry)).map fun snapshot =>
          s.set id (.captured snapshot)
    | _ => none
  | .split id =>
    match s.threads id with
    | .captured snapshot => some (s.set id (.committing (splitParts s.registry snapshot)))
    | _ => none
  | .skip id =>
    match s.threads id with
    | .committing (_ :: rest) => some (s.set id (.committing rest))
    | _ => none
  | .land id tree =>
    match s.threads id with
    | .committing (part :: rest) =>
        some { s.set id (.rotating ⟨some ⟨part, tree⟩, True, rest⟩) with
          refs := Function.update s.refs part.refName (some tree)
          landed := ⟨part, tree⟩ :: s.landed }
    | _ => none
  | .finish id => if (s.threads id).isRotating then none else some (s.set id .idle)
  | .build id =>
    match s.threads id with
    | .rotating rotation => some (s.set id (.built rotation (s.union target) s.registry))
    | _ => none
  | .buildFails id =>
    match s.threads id with
    | .rotating rotation => some (s.set id (.committing rotation.rest))
    | _ => none
  | .install id =>
    match s.threads id with
    | .built rotation view owners =>
        some { s.set id (.committing rotation.rest) with
          inner := ⟨view, rotation.absorb owners s.inner.overlay⟩ }
    | _ => none
  | .advance id refName tree =>
    match s.threads id with
    | .idle =>
        let threads := fun j => (s.threads j).disturb (· = refName)
        some { s with
          refs := Function.update s.refs refName (some tree)
          threads := Function.update threads id (.rotating ⟨none, True, []⟩) }
    | _ => none
  | .swap id registry =>
    match s.threads id with
    | .idle =>
        let threads := fun j => (s.threads j).disturb fun _ => True
        some { s with
          registry := registry
          threads := Function.update threads id (.rotating ⟨none, True, []⟩) }
    | _ => none

end

end MountWorld

/-! ### What is read and what a commit holds -/

/-- The content of a staged entry. -/
def OverlayEntry.bytes : OverlayEntry → Option Bytes
  | .file content _ => some content
  | _ => none

/-- What stands for a staged entry in a tree: the file, or nothing. -/
def Holds (file : Option FileNode) : OverlayEntry → Prop
  | .file content mode => file = some ⟨mode &&& modeMask, content⟩
  | _ => file = none

/-- The file of a committed entry; the outer none is a read error. -/
def readBlob (io : MountIo) (path : RepoPath) : Option Entry → Option (Option FileNode)
  | none => some none
  | some entry =>
      (io.content path (.blob entry.target)).map fun content => some ⟨entry.mode, content⟩

/-- What the tree of a path's owner has at the path. -/
def TreeView.readAt (io : MountIo) (tree : TreeView) (registry : ChainRegistry) (path : RepoPath) :
    Option (Option FileNode) :=
  readBlob io path (blobAt tree.byPath (within (ownerOf registry path) path))

/-- The tree of a commit reads as the part it was made of. -/
def Landing.Stored (io : MountIo) (l : Landing) : Prop :=
  ∀ path, l.part.Owns path → l.tree.readAt io l.part.registry path = some (l.part.fileAt path)

/-- The tree of a commit has a staged entry. -/
def Landing.Has (io : MountIo) (l : Landing) (path : RepoPath) (entry : OverlayEntry) : Prop :=
  ∃ file, l.tree.readAt io l.part.registry path = some file ∧ Holds file entry

def contentOf (file : Option FileNode) : Option Bytes := file.map FileNode.content

/-- A rotation that is still to build its view, or has built this one. -/
def Thread.Renews (view : AList fun _ : RepoPath => Entry) : Thread → Prop
  | .rotating _ => True
  | .built _ shown _ => shown = view
  | _ => False

namespace MountWorld

variable (io : MountIo) (target : Hash) (s : MountWorld)

/-- What the refs have at a path. -/
def committed (path : RepoPath) : Option (Option FileNode) :=
  readBlob io path (blobAt (s.union target) path)

/-- What is read under a view of the refs as they are. -/
def reads (path : RepoPath) : Option (Option Bytes) :=
  readWorkfile io ⟨s.union target, s.inner.overlay⟩ path

/-- Some rotation but this one will leave the view up to date. -/
def RenewedBy (id : Nat) : Prop := ∃ j, j ≠ id ∧ (s.threads j).Renews (s.union target)

/-- A part is fresh: for each path of its chain it has what is read, unless the path was staged
again, and that will not be taken for an older commit of the chain. -/
def Fresh (part : Part) : Prop :=
  part.registry = s.registry ∧ ∀ path, part.Owns path →
    s.reads io target path = some (contentOf (part.fileAt path)) ∨
    ∃ slot, s.inner.overlay.byPath.lookup path = some slot ∧
      (∀ cutoff, part.cutoff = some cutoff → cutoff < slot.generation) ∧
      ∀ j l cutoff, (s.threads j).landing = some l → l.part.refName = part.refName →
        l.part.cutoff = some cutoff → cutoff < slot.generation

end MountWorld

/-! ### Steps -/

/-- What a step must meet so that nothing is lost. -/
def MountEvent.Sound (io : MountIo) (target : Hash) (s : MountWorld) : MountEvent → Prop
  | .collect id => ∀ ignore registry, s.threads id = .rooting ignore registry →
      Tidy ⟨s.inner, registry⟩ ∧ ∀ path content mode,
        s.inner.overlay.get path = some (.file content mode) → ignore.isIgnored path = false
  | .split id => ∀ snapshot, s.threads id = .captured snapshot →
      ∀ f ∈ snapshot.files, s.registry.isEnabledMountRoot f.1 = false
  | .land id _ => ∀ part rest, s.threads id = .committing (part :: rest) → s.Fresh io target part
  | .build id => ∀ rotation l cutoff, s.threads id = .rotating rotation →
      rotation.landing = some l → l.part.cutoff = some cutoff →
        ∀ path slot, s.inner.overlay.byPath.lookup path = some slot → slot.generation ≤ cutoff →
          (ownerOf s.registry path).refName = l.part.refName → l.part.Owns path
  | .buildFails id => s.inner.view = s.union target ∨ s.RenewedBy target id
  | .install id => ∀ rotation view owners, s.threads id = .built rotation view owners →
      view = s.union target ∨ s.RenewedBy target id
  | .swap _ registry => Composed s.refs registry
  | _ => True

/-- A commit stores the part it is made of. -/
def MountEvent.Stored (io : MountIo) (s : MountWorld) : MountEvent → Prop
  | .land id tree => ∀ part rest, s.threads id = .committing (part :: rest) →
      Landing.Stored io ⟨part, tree⟩
  | _ => True

/-- A mount over committed refs, with nothing staged and nothing under way. -/
structure MountWorld.Init (target : Hash) (s : MountWorld) : Prop where
  overlay : s.inner.overlay = .new
  view : s.inner.view = s.union target
  composed : Composed s.refs s.registry
  threads : ∀ id, s.threads id = .idle
  last : ∀ path, s.last path = none

def rotationSystem (io : MountIo) (target : Hash) : System MountWorld MountEvent where
  init s := s.Init target
  step s event s' := event.Stored io s ∧ s.act io target event = some s'

/-! ### What every step keeps -/

/-- A later overlay: an entry of it was there before or is staged since. -/
structure Overlay.Later (o o' : Overlay) : Prop where
  generation : o.generation ≤ o'.generation
  entries : ∀ path slot, o'.byPath.lookup path = some slot →
    o.byPath.lookup path = some slot ∨ o.generation < slot.generation

/-- Every entry staged up to a cutoff meets a condition. -/
def Covered (o : Overlay) (cutoff : Option Nat) (P : RepoPath → OverlayEntry → Prop) : Prop :=
  ∃ n, cutoff = some n ∧ n ≤ o.generation ∧ ∀ path slot,
    o.byPath.lookup path = some slot → slot.generation ≤ n → P path slot.entry

section

variable (io : MountIo) (target : Hash) (s : MountWorld)

/-- A part has every entry of its chain staged up to its cutoff. -/
def Part.Kept (part : Part) : Prop :=
  Covered s.inner.overlay part.cutoff fun path entry =>
    part.Owns path → Holds (part.fileAt path) entry

/-- The ref of a commit still has what the commit absorbs. -/
def Landing.Undisturbed (l : Landing) : Prop :=
  l.part.registry = s.registry ∧ Covered s.inner.overlay l.part.cutoff fun path entry =>
    l.part.Owns path → (s.committed io target path).map contentOf = some entry.bytes

structure Landing.Kept (l : Landing) (quiet : Prop) : Prop where
  part : l.part.Kept s
  landed : l ∈ s.landed
  stored : l.Stored io
  undisturbed : quiet → l.Undisturbed io target s

structure TipRotation.Kept (r : TipRotation) : Prop where
  rest : ∀ part ∈ r.rest, part.Kept s
  landing : ∀ l, r.landing = some l → l.Kept io target s r.quiet

/-- The registry of a built view gives a commit's chain nothing that its part lacks. -/
structure TipRotation.Owned (r : TipRotation) (owners : ChainRegistry) (l : Landing) : Prop where
  owned : Covered s.inner.overlay l.part.cutoff fun path _ =>
    (ownerOf owners path).refName = l.part.refName → l.part.Owns path
  registry : r.quiet → owners = s.registry

def Thread.Kept : Thread → Prop
  | .captured snapshot =>
      Covered s.inner.overlay snapshot.overlayGeneration fun path entry =>
        Holds (snapshot.root.fileAt path.names) entry
  | .committing parts => ∀ part ∈ parts, part.Kept s
  | .rotating r => r.Kept io target s
  | .built r _ owners => r.Kept io target s ∧ ∀ l, r.landing = some l → r.Owned s owners l
  | _ => True

structure Kept : Prop where
  composed : Composed s.refs s.registry
  viewed : s.inner.view = s.union target ∨ ∃ j, (s.threads j).Renews (s.union target)
  threads : ∀ id, (s.threads id).Kept io target s
  generations : ∀ path slot, s.inner.overlay.byPath.lookup path = some slot →
    slot.generation ≤ s.inner.overlay.generation
  staged : ∀ path slot, s.inner.overlay.byPath.lookup path = some slot → s.last path = some slot
  accounted : ∀ path slot, s.last path = some slot →
    s.inner.overlay.byPath.lookup path = some slot ∨
      ∃ l ∈ s.landed, l.part.Owns path ∧ l.Has io path slot.entry

end

/-! ### Overlays -/

section

variable {o o' : Overlay} {cutoff : Option Nat} {P Q : RepoPath → OverlayEntry → Prop}

theorem Overlay.Later.refl (o : Overlay) : Overlay.Later o o :=
  ⟨Nat.le_refl _, fun _ _ h => Or.inl h⟩

theorem Overlay.lookup_stage (o : Overlay) (path : RepoPath) (entry : OverlayEntry)
    (q : RepoPath) : (o.stage path entry).byPath.lookup q =
      if q = path then some ⟨o.generation + 1, entry⟩ else o.byPath.lookup q := by
  unfold Overlay.stage
  split_ifs with heq
  · subst heq
    exact AList.lookup_insert _
  · exact AList.lookup_insert_ne heq

theorem Overlay.later_stage (o : Overlay) (path : RepoPath) (entry : OverlayEntry) :
    Overlay.Later o (o.stage path entry) := by
  refine ⟨Nat.le_succ _, fun q slot hlookup => ?_⟩
  rw [Overlay.lookup_stage] at hlookup
  split_ifs at hlookup with heq
  · cases hlookup
    exact Or.inr (Nat.lt_succ_self _)
  · exact Or.inl hlookup

/-- What is absorbed was staged up to the cutoff at an owned path. -/
theorem lookup_removeAbsorbed {n : Nat} {owned : RepoPath → Bool} {path : RepoPath} {slot : Slot}
    (h : o.byPath.lookup path = some slot) :
    (o.removeAbsorbed n owned).byPath.lookup path = some slot ∨
      (o.removeAbsorbed n owned).byPath.lookup path = none ∧ slot.generation ≤ n ∧
        owned path = true := by
  rw [Overlay.removeAbsorbed]
  dsimp only
  rw [lookup_retain, lookup_retain, h]
  by_cases hold : slot.generation ≤ n ∧ owned path = true
  · cases hfound : Option.filter _ (Option.filter _ (some slot)) with
    | none => exact Or.inr ⟨rfl, hold⟩
    | some found =>
      have heq : some slot = some found :=
        (Option.filter_eq_some_iff.mp (Option.filter_eq_some_iff.mp hfound).1).1
      exact Or.inl heq.symm
  · left
    have hkeep : decide (slot.generation > n) = true ∨ (!owned path) = true := by
      by_cases hgen : slot.generation ≤ n
      · exact Or.inr (by simpa using fun howned => hold ⟨hgen, howned⟩)
      · exact Or.inl (decide_eq_true (by omega))
    rw [Option.filter_some, if_pos, Option.filter_some, if_pos]
    · rcases hkeep with hkeep | hkeep <;> simp [hkeep]
    · rcases hkeep with hkeep | hkeep <;> simp [hkeep]

theorem lookup_of_removeAbsorbed {n : Nat} {owned : RepoPath → Bool} {path : RepoPath} {slot : Slot}
    (h : (o.removeAbsorbed n owned).byPath.lookup path = some slot) :
    o.byPath.lookup path = some slot := by
  rw [Overlay.removeAbsorbed] at h
  dsimp only at h
  rw [lookup_retain, Option.filter_eq_some_iff, lookup_retain, Option.filter_eq_some_iff] at h
  exact h.1.1

theorem generation_absorb (o : Overlay) (r : TipRotation) (owners : ChainRegistry) :
    (r.absorb owners o).generation = o.generation := by
  unfold TipRotation.absorb
  split
  · rfl
  · split <;> rfl

theorem lookup_of_absorb {r : TipRotation} {owners : ChainRegistry} {path : RepoPath} {slot : Slot}
    (h : (r.absorb owners o).byPath.lookup path = some slot) :
    o.byPath.lookup path = some slot := by
  unfold TipRotation.absorb at h
  split at h
  · exact h
  · split at h
    · exact h
    · exact lookup_of_removeAbsorbed h

theorem Overlay.later_absorb (o : Overlay) (r : TipRotation) (owners : ChainRegistry) :
    Overlay.Later o (r.absorb owners o) :=
  ⟨(generation_absorb o r owners).ge, fun _ _ h => Or.inl (lookup_of_absorb h)⟩

/-- **What was staged up to a cutoff stays as it was staged.** -/
theorem Covered.later (h : Covered o cutoff P) (hlater : Overlay.Later o o') :
    Covered o' cutoff P := by
  obtain ⟨n, hcutoff, hle, hall⟩ := h
  refine ⟨n, hcutoff, hle.trans hlater.generation, fun path slot hlookup hgen => ?_⟩
  rcases hlater.entries path slot hlookup with hold | hnew
  · exact hall path slot hold hgen
  · omega

theorem Covered.imp (h : Covered o cutoff P) (himp : ∀ n path slot, cutoff = some n →
    o.byPath.lookup path = some slot → slot.generation ≤ n → P path slot.entry →
      Q path slot.entry) : Covered o cutoff Q := by
  obtain ⟨n, hcutoff, hle, hall⟩ := h
  exact ⟨n, hcutoff, hle, fun path slot hlookup hgen =>
    himp n path slot hcutoff hlookup hgen (hall path slot hlookup hgen)⟩

end

/-! ### Reads -/

section

variable {io : MountIo} {target : Hash} {s s' : MountWorld}

theorem readWorkfile_eq (inner : Inner) (path : RepoPath) : readWorkfile io inner path =
    match inner.overlay.get path with
    | some entry => some entry.bytes
    | none => (readBlob io path (blobAt inner.view path)).map contentOf := by
  unfold readWorkfile Inner.live
  cases inner.overlay.get path with
  | some entry => cases entry <;> rfl
  | none =>
    dsimp only
    unfold blobAt
    cases inner.view.lookup path with
    | none => rfl
    | some entry =>
      obtain ⟨kind, mode, blob⟩ := entry
      cases kind with
      | dir => rfl
      | blob =>
        rw [Option.filter_some, if_pos (decide_eq_true rfl), readBlob, Option.map_map]
        rfl

theorem reads_of_get {path : RepoPath} {entry : OverlayEntry}
    (h : s.inner.overlay.get path = some entry) : s.reads io target path = some entry.bytes := by
  rw [MountWorld.reads, readWorkfile_eq]
  dsimp only
  rw [h]

theorem reads_of_none {path : RepoPath} (h : s.inner.overlay.get path = none) :
    s.reads io target path = (s.committed io target path).map contentOf := by
  rw [MountWorld.reads, readWorkfile_eq]
  dsimp only
  rw [h]
  rfl

/-- Under a view of the refs as they are, a lookup reads what is read. -/
theorem readWorkfile_of_view (h : s.inner.view = s.union target) (path : RepoPath) :
    readWorkfile io s.inner path = s.reads io target path := by
  rw [MountWorld.reads, ← h]

/-- The refs have at a path what the tree of its owner has. -/
theorem committed_eq (io : MountIo) (target : Hash) (hcomposed : Composed s.refs s.registry)
    (path : RepoPath) : ∃ tree, s.refs (ownerOf s.registry path).refName = some tree ∧
      s.committed io target path = tree.readAt io s.registry path := by
  obtain ⟨tree, htree, hblob⟩ := blobAt_buildUnion target hcomposed path
  exact ⟨tree, htree, by rw [MountWorld.committed, MountWorld.union, hblob, TreeView.readAt]⟩

theorem committed_of_ref (hcomposed : Composed s.refs s.registry) {path : RepoPath}
    {tree : TreeView}
    (htree : s.refs (ownerOf s.registry path).refName = some tree) :
    s.committed io target path = tree.readAt io s.registry path := by
  obtain ⟨found, hfound, hread⟩ := committed_eq io target hcomposed path
  rw [htree] at hfound
  cases hfound
  exact hread

/-- A path whose owner's ref did not move has what it had. -/
theorem committed_eq_of_ref (hcomposed : Composed s.refs s.registry)
    (hcomposed' : Composed s'.refs s'.registry) (hregistry : s'.registry = s.registry)
    {path : RepoPath} (href : s'.refs (ownerOf s.registry path).refName =
      s.refs (ownerOf s.registry path).refName) :
    s'.committed io target path = s.committed io target path := by
  obtain ⟨tree, htree, hread⟩ := committed_eq io target hcomposed path
  have htree' : s'.refs (ownerOf s'.registry path).refName = some tree := by
    rw [hregistry, href, htree]
  rw [hread, committed_of_ref hcomposed' htree', hregistry]

theorem Composed.update (h : Composed s.refs s.registry) (refName : String) (tree : TreeView) :
    Composed (Function.update s.refs refName (some tree)) s.registry := by
  refine ⟨h.device, h.refNames, h.disjoint, fun c hc => ?_⟩
  by_cases heq : c.refName = refName
  · rw [heq, Function.update_self]
    rfl
  · rw [Function.update_of_ne heq]
    exact h.tips c hc

/-- What stands for an entry reads as it. -/
theorem bytes_of_holds {file : Option FileNode} {entry : OverlayEntry} (h : Holds file entry) :
    contentOf file = entry.bytes := by
  cases entry with
  | file content mode =>
    have h : file = some ⟨mode &&& modeMask, content⟩ := h
    rw [h]
    rfl
  | dir mode =>
    have h : file = none := h
    rw [h]
    rfl
  | removed =>
    have h : file = none := h
    rw [h]
    rfl

end

theorem Thread.Renews.isRotating {view : AList fun _ : RepoPath => Entry} {thread : Thread}
    (h : thread.Renews view) : thread.isRotating = true := by
  cases thread <;> first | rfl | cases h

/-! ### Keeping what is under way -/

section

variable {io : MountIo} {target : Hash} {s s' : MountWorld} {moved : String → Prop}

/-- How a step that is not about a thread changes what the thread rests on. -/
structure Next (io : MountIo) (target : Hash) (moved : String → Prop) (s s' : MountWorld)
    (thread : Thread) : Prop where
  later : Overlay.Later s.inner.overlay s'.inner.overlay
  landed : ∀ l ∈ s.landed, l ∈ s'.landed
  registry : s'.registry = s.registry ∨ ∀ refName, moved refName
  committed : ∀ l, thread.landing = some l → l.Kept io target s True →
    ¬ moved l.part.refName → l.Undisturbed io target s'

theorem Part.Kept.next {part : Part} (h : part.Kept s)
    (hlater : Overlay.Later s.inner.overlay s'.inner.overlay) : part.Kept s' :=
  Covered.later h hlater

theorem TipRotation.Kept.next {thread : Thread} {r : TipRotation}
    (hnext : Next io target moved s s' thread) (hlanding : thread.landing = r.landing)
    (h : r.Kept io target s) : (r.disturb moved).Kept io target s' := by
  refine ⟨fun part hpart => (h.rest part hpart).next hnext.later, fun l hl => ?_⟩
  have hl : r.landing = some l := hl
  obtain ⟨hpart, hlanded, hstored, hquiet⟩ := h.landing l hl
  refine ⟨hpart.next hnext.later, hnext.landed l hlanded, hstored, ?_⟩
  rintro ⟨hq, hstill⟩
  exact hnext.committed l (hlanding.trans hl) ⟨hpart, hlanded, hstored, fun _ => hquiet hq⟩
    (hstill l hl)

/-- **What a thread has stays right** through a step of another. -/
theorem Thread.Kept.next {thread : Thread} (h : thread.Kept io target s)
    (hnext : Next io target moved s s' thread) : (thread.disturb moved).Kept io target s' := by
  cases thread with
  | idle => trivial
  | ignoring ignore => trivial
  | rooting ignore registry => trivial
  | captured snapshot => exact Covered.later h hnext.later
  | committing parts => exact fun part hpart => (h part hpart).next hnext.later
  | rotating r => exact TipRotation.Kept.next hnext rfl h
  | built r view owners =>
    obtain ⟨hkept, howned⟩ := h
    refine ⟨TipRotation.Kept.next hnext rfl hkept, fun l hl => ?_⟩
    have hl : r.landing = some l := hl
    obtain ⟨hcovered, hregistry⟩ := howned l hl
    refine ⟨hcovered.later hnext.later, ?_⟩
    rintro ⟨hq, hstill⟩
    rcases hnext.registry with hsame | hmoved
    · rw [hregistry hq, hsame]
    · exact absurd (hmoved _) (hstill l hl)

theorem disturb_nothing (thread : Thread) : thread.disturb (fun _ => False) = thread := by
  cases thread <;> simp [Thread.disturb, TipRotation.disturb]

/-- A step that moves no ref and keeps the registry. -/
theorem Thread.Kept.quiet {thread : Thread} (h : thread.Kept io target s)
    (hlater : Overlay.Later s.inner.overlay s'.inner.overlay)
    (hlanded : s'.landed = s.landed) (hregistry : s'.registry = s.registry)
    (hrefs : s'.refs = s.refs) : thread.Kept io target s' := by
  have hnext : Next io target (fun _ => False) s s' thread := by
    refine ⟨hlater, fun l hl => hlanded ▸ hl, Or.inl hregistry, fun l _ hkept _ => ?_⟩
    obtain ⟨hsame, hcovered⟩ := hkept.undisturbed trivial
    refine ⟨hsame.trans hregistry.symm, hcovered.later hlater |>.imp ?_⟩
    intro n path slot _ _ _ h hown
    rw [MountWorld.committed, MountWorld.union, hregistry, hrefs]
    exact h hown
  have hkept := h.next hnext
  rwa [disturb_nothing] at hkept

end

end Softfig.Mount
