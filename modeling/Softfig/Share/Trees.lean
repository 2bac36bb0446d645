import Softfig.Lib.PathTraverse
import Softfig.Vcs.Snapshot

/-!
The trees of a shared chain, as the members see them.

A tree is named by its content: two trees are compared where the code compares
their root hashes. Sealing is convergent, so a blob is told by its container, its
key and what it holds.

- `decrypt_encryptForRef`: what a member seals, it opens again at its own path;
- `materialize_ok`: a materialized tree holds the plaintext of every file;
- `buildTree_ok`: a committed tree holds the seal of every file of its snapshot.
-/

namespace Softfig.Share

open Softfig.Lib Softfig.Lib.PathTree
open Softfig.Store (Bytes)
open Softfig.Vcs

deriving instance DecidableEq for Forest

/-- A tracked file's blob: a shared blob under a shared key, or a whole-file
seal whose subkey is salted with a garden-relative path. -/
inductive Blob where
  | shared (keyId : String) (content : Bytes)
  | layerB (keyId : String) (path : String) (content : Bytes)
  deriving DecidableEq

def Blob.content : Blob → Bytes
  | .shared _ content => content
  | .layerB _ _ content => content

structure SharedFile where
  mode : UInt32
  blob : Blob
  deriving DecidableEq

/-- A tree of a shared chain, with chain-relative paths. -/
structure SharedTree where
  root : Forest String SharedFile
  sorted : root.Sorted
  tracked : ∀ l ∈ root.leaves, NamesOk true l.1 ∧ l.2.mode &&& modeMask = l.2.mode

theorem SharedTree.ext {s t : SharedTree} (h : s.root = t.root) : s = t := by
  cases s
  cases t
  cases h
  rfl

instance : DecidableEq SharedTree := fun s t =>
  decidable_of_iff (s.root = t.root) ⟨SharedTree.ext, fun h => h ▸ rfl⟩

/-- What a file of a tree holds, whoever can open it. -/
def SharedTree.contentAt (tree : SharedTree) (p : List String) : Option Bytes :=
  (tree.root.fileAt p).map fun file => file.blob.content

/-! ### One member's keys and policy -/

/-- What one member brings to a shared chain: its names, its committed membership
row's placement and key, the shared keys its vault holds, and its sealed globs. -/
structure Device where
  deviceName : String
  hostLabel : String
  mountPath : String
  keyId : Option String
  holds : String → Bool
  isSealed : String → Bool
  hasRegions : String → Bytes → Bool

inductive Refusal where
  | decrypt (path : String)
  | unkeyed
  | noSharedKey (keyId : String)
  | regions (gardenPath : String)
  deriving DecidableEq

namespace Device

variable (d : Device)

def gardenPath (path : String) : String := childPath d.mountPath path

/-- Seal one file of the chain: nothing before the chain is keyed, nothing with
an inline region, a whole-file seal where a glob asks for it. -/
def encryptForRef (path : String) (content : Bytes) : Except Refusal Blob :=
  match d.keyId with
  | none => .error .unkeyed
  | some keyId =>
    let gardenPath := d.gardenPath path
    if d.isSealed gardenPath then
      if d.holds keyId then .ok (.layerB keyId gardenPath content) else .error (.noSharedKey keyId)
    else if d.hasRegions gardenPath content then .error (.regions gardenPath)
    else if d.holds keyId then .ok (.shared keyId content) else .error (.noSharedKey keyId)

/-- Open a blob under whichever container sealed it. -/
def decryptTrackedBlob (path : String) : Blob → Option Bytes
  | .shared keyId content => if d.holds keyId then some content else none
  | .layerB keyId salt content => if d.holds keyId ∧ salt = path then some content else none

variable {d}

theorem decryptTrackedBlob_content {path : String} {blob : Blob} {content : Bytes}
    (h : d.decryptTrackedBlob path blob = some content) : blob.content = content := by
  cases blob with
  | shared keyId c =>
    simp only [decryptTrackedBlob] at h
    split_ifs at h
    exact Option.some.inj h
  | layerB keyId salt c =>
    simp only [decryptTrackedBlob] at h
    split_ifs at h
    exact Option.some.inj h

theorem encryptForRef_content {path : String} {content : Bytes} {blob : Blob}
    (h : d.encryptForRef path content = .ok blob) : blob.content = content := by
  cases hkey : d.keyId with
  | none => simp [encryptForRef, hkey] at h
  | some keyId =>
    simp only [encryptForRef, hkey] at h
    split_ifs at h <;> cases h <;> rfl

/-- What a member seals, it opens again where its garden has the file. -/
theorem decrypt_encryptForRef {path : String} {content : Bytes} {blob : Blob}
    (h : d.encryptForRef path content = .ok blob) :
    d.decryptTrackedBlob (d.gardenPath path) blob = some content := by
  cases hkey : d.keyId with
  | none => simp [encryptForRef, hkey] at h
  | some keyId =>
    simp only [encryptForRef, hkey] at h
    split_ifs at h <;> cases h <;> simp [decryptTrackedBlob, *]

end Device

/-! ### Reading a tree by path -/

/-- The components of a path as the tree walk splits it: no empty ones. -/
def pathComponents (path : String) : List String :=
  ((splitSlash path.toList).filter (· ≠ [])).map String.ofList

/-- The blob at a path, walking by name; a directory is no blob. -/
def resolvePathInTree (tree : SharedTree) (path : String) : Option Blob :=
  (tree.root.fileAt (pathComponents path)).map SharedFile.blob

/-- Reading a blob names the file it is. -/
theorem resolvePathInTree_eq_some {tree : SharedTree} {path : String} {blob : Blob}
    (h : resolvePathInTree tree path = some blob) :
    tree.contentAt (pathComponents path) = some blob.content := by
  rw [resolvePathInTree, Option.map_eq_some_iff] at h
  obtain ⟨file, hfile, rfl⟩ := h
  rw [SharedTree.contentAt, hfile]
  rfl

/-! ### Materializing -/

section

variable (d : Device)

/-- Open one file of a tree. -/
def openFile (names : List String) (file : SharedFile) : Except Refusal FileNode :=
  match d.decryptTrackedBlob (pathString names) file.blob with
  | none => .error (.decrypt (pathString names))
  | some plaintext => .ok ⟨file.mode, plaintext⟩

/-- Insert every file of a tree, in its order, into a snapshot. -/
def materializeInto : List String → Forest String SharedFile → WalkSnapshot →
    Except Refusal WalkSnapshot
  | _, .nil, snapshot => .ok snapshot
  | pre, .leaf name file rest, snapshot =>
    openFile d (pre ++ [name]) file >>= fun opened =>
      materializeInto pre rest
        (snapshot.insertFile (.parse (pathString (pre ++ [name]))) opened.mode opened.content)
  | pre, .node name sub rest, snapshot =>
    materializeInto (pre ++ [name]) sub snapshot >>= fun snapshot =>
      materializeInto pre rest snapshot

/-- The plaintext of a whole tree. -/
def materializeTree (tree : SharedTree) : Except Refusal WalkSnapshot :=
  materializeInto d [] tree.root .empty

/-- Seal one file of a snapshot. -/
def sealFile (names : List String) (file : FileNode) : Except Refusal SharedFile :=
  d.encryptForRef (pathString names) file.content >>= fun blob => .ok ⟨file.mode, blob⟩

/-- The tree of a snapshot. -/
def buildTree (snapshot : WalkSnapshot) : Except Refusal SharedTree :=
  match h : snapshot.root.traverse (sealFile d) [] with
  | .error refusal => .error refusal
  | .ok root => .ok {
      root := root
      sorted := Forest.sorted_traverse h snapshot.sorted
      tracked := by
        intro l hl
        obtain ⟨l₀, hl₀, hname, hstep⟩ := forall₂_mem_right (Forest.traverse_leaves h) hl
        obtain ⟨blob, -, hfile⟩ := bind_ok_iff.mp hstep
        rw [hname, ← Except.ok.inj hfile]
        exact ⟨namesOk_of_mem_leaves snapshot.tracked hl₀,
          mode_of_mem_leaves snapshot.tracked hl₀⟩ }

variable {d}

theorem openFile_eq_ok_iff {names : List String} {file : SharedFile} {opened : FileNode} :
    openFile d names file = .ok opened ↔
      d.decryptTrackedBlob (pathString names) file.blob = some opened.content ∧
        opened.mode = file.mode := by
  unfold openFile
  cases h : d.decryptTrackedBlob (pathString names) file.blob with
  | none => simp
  | some plaintext =>
    simp only [Except.ok.injEq, Option.some.injEq]
    constructor
    · rintro rfl
      exact ⟨rfl, rfl⟩
    · rintro ⟨hcontent, hmode⟩
      cases opened
      simp_all

/-- Insert files one after the other, each at its own path below `pre`. -/
def insertOpened (pre : List String) (snapshot : WalkSnapshot)
    (files : List (List String × FileNode)) : WalkSnapshot :=
  files.foldl (fun s l => s.insertFile (.parse (pathString (pre ++ l.1))) l.2.mode l.2.content)
    snapshot

theorem insertOpened_append (pre : List String) (snapshot : WalkSnapshot)
    (files more : List (List String × FileNode)) :
    insertOpened pre snapshot (files ++ more) =
      insertOpened pre (insertOpened pre snapshot files) more :=
  List.foldl_append

theorem insertOpened_below (pre : List String) (name : String) (snapshot : WalkSnapshot)
    (files : List (List String × FileNode)) :
    insertOpened pre snapshot (files.map fun l => (name :: l.1, l.2)) =
      insertOpened (pre ++ [name]) snapshot files := by
  simp [insertOpened, List.foldl_map]

/-- Materializing opens every file of the tree, then inserts them in order. -/
theorem materializeInto_ok_iff {pre : List String} {entries : Forest String SharedFile}
    {snapshot final : WalkSnapshot} :
    materializeInto d pre entries snapshot = .ok final ↔
      ∃ opened, entries.traverse (openFile d) pre = .ok opened ∧
        final = insertOpened pre snapshot opened.leaves := by
  induction entries generalizing pre snapshot final with
  | nil =>
    simp only [materializeInto, Forest.traverse, Except.ok.injEq]
    constructor
    · intro h
      exact ⟨.nil, rfl, h.symm⟩
    · rintro ⟨_, hnil, h⟩
      rw [h, ← hnil]
      rfl
  | leaf name file rest ih =>
    simp only [materializeInto, bind_ok_iff, ih, Forest.traverse_leaf_ok_iff]
    constructor
    · rintro ⟨opened, hopen, rest', hrest, rfl⟩
      exact ⟨_, ⟨opened, rest', hopen, hrest, rfl⟩, rfl⟩
    · rintro ⟨_, ⟨opened, rest', hopen, hrest, rfl⟩, rfl⟩
      exact ⟨opened, hopen, rest', hrest, rfl⟩
  | node name sub rest ihsub ih =>
    simp only [materializeInto, bind_ok_iff, ih, ihsub, Forest.traverse_node_ok_iff]
    constructor
    · rintro ⟨_, ⟨sub', hsub, rfl⟩, rest', hrest, rfl⟩
      refine ⟨_, ⟨sub', rest', hsub, hrest, rfl⟩, ?_⟩
      rw [Forest.leaves, insertOpened_append, insertOpened_below]
    · rintro ⟨_, ⟨sub', rest', hsub, hrest, rfl⟩, rfl⟩
      refine ⟨_, ⟨sub', hsub, rfl⟩, rest', hrest, ?_⟩
      rw [Forest.leaves, insertOpened_append, insertOpened_below]

/-- Files with tracked names and modes go where their names say. -/
theorem insertOpened_root (snapshot : WalkSnapshot) {files : List (List String × FileNode)}
    (h : ∀ l ∈ files, NamesOk true l.1 ∧ l.2.mode &&& modeMask = l.2.mode) :
    (insertOpened [] snapshot files).root = snapshot.root.insertAll files := by
  induction files generalizing snapshot with
  | nil => rfl
  | cons l files ih =>
    obtain ⟨hnames, hmode⟩ := h l List.mem_cons_self
    have hrest := ih (snapshot.insertFile (.parse (pathString l.1)) l.2.mode l.2.content)
      fun k hk => h k (List.mem_cons_of_mem _ hk)
    rw [insertOpened, List.foldl_cons, List.nil_append]
    refine hrest.trans ?_
    have hroot : (snapshot.insertFile (.parse (pathString l.1)) l.2.mode l.2.content).root =
        snapshot.root.insertLeaf l.1 l.2 := by
      show snapshot.root.insertLeaf _ ⟨l.2.mode &&& modeMask, l.2.content⟩ = _
      rw [parse_pathString hnames, hmode]
    rw [hroot]
    rfl

/-- **A materialized tree holds every file, opened.** -/
theorem materialize_ok {tree : SharedTree} {snapshot : WalkSnapshot}
    (h : materializeTree d tree = .ok snapshot) (p : List String) :
    (snapshot.root.fileAt p).map FileNode.content = tree.contentAt p := by
  obtain ⟨opened, htraverse, rfl⟩ := materializeInto_ok_iff.mp h
  have hsorted := Forest.sorted_traverse htraverse tree.sorted
  have htracked : ∀ l ∈ opened.leaves, NamesOk true l.1 ∧ l.2.mode &&& modeMask = l.2.mode := by
    intro l hl
    obtain ⟨l₀, hl₀, hname, hstep⟩ := forall₂_mem_right (Forest.traverse_leaves htraverse) hl
    rw [hname, (openFile_eq_ok_iff.mp hstep).2]
    exact tree.tracked l₀ hl₀
  rw [insertOpened_root _ htracked]
  have hnil : (Forest.nil : Children).NoEmptyNodes := trivial
  have hfile : (Forest.nil.insertAll opened.leaves).fileAt p = opened.fileAt p := by
    refine Option.ext fun file => ?_
    rw [Forest.fileAt_insertAll hnil Forest.leaves_ne_nil (Forest.apart_leaves hsorted)
      fun l _ => Forest.free_nil l.1, Forest.mem_leaves hsorted]
    simp
  show ((Forest.nil.insertAll opened.leaves).fileAt p).map FileNode.content = _
  rw [hfile, SharedTree.contentAt]
  cases hat : tree.root.fileAt p with
  | some file =>
    obtain ⟨plain, hopen, hplain⟩ := Forest.exists_fileAt_traverse htraverse tree.sorted hat
    rw [hplain, Option.map_some, Option.map_some,
      Device.decryptTrackedBlob_content (openFile_eq_ok_iff.mp hopen).1]
  | none =>
    cases hplain : opened.fileAt p with
    | none => rfl
    | some plain =>
      obtain ⟨file, hfile', -⟩ := (Forest.fileAt_traverse htraverse tree.sorted).mp hplain
      cases hat.symm.trans hfile'

theorem buildTree_ok_iff {snapshot : WalkSnapshot} {tree : SharedTree} :
    buildTree d snapshot = .ok tree ↔
      snapshot.root.traverse (sealFile d) [] = .ok tree.root := by
  unfold buildTree
  split
  · rename_i refusal h
    simp [h]
  · rename_i root h
    constructor
    · intro hok
      cases hok
      exact h
    · intro htree
      exact congrArg Except.ok (SharedTree.ext (Except.ok.inj (h.symm.trans htree)))

/-- **A committed tree holds what its snapshot does**, sealed by the member. -/
theorem buildTree_ok {snapshot : WalkSnapshot} {tree : SharedTree}
    (h : buildTree d snapshot = .ok tree) (p : List String) :
    tree.contentAt p = (snapshot.root.fileAt p).map FileNode.content := by
  have hfile := fun b => Forest.fileAt_traverse (b := b) (p := p) (buildTree_ok_iff.mp h)
    snapshot.sorted
  refine Option.ext fun c => ?_
  simp only [SharedTree.contentAt, Option.map_eq_some_iff, hfile]
  constructor
  · rintro ⟨_, ⟨file, hat, hseal⟩, rfl⟩
    obtain ⟨blob, hblob, hsealed⟩ := bind_ok_iff.mp hseal
    rw [← Except.ok.inj hsealed]
    exact ⟨file, hat, (Device.encryptForRef_content hblob).symm⟩
  · rintro ⟨file, hat, rfl⟩
    -- the build succeeded, so it sealed this file too
    obtain ⟨sealed, hseal, -⟩ := Forest.exists_fileAt_traverse (buildTree_ok_iff.mp h)
      snapshot.sorted hat
    obtain ⟨blob, hblob, -⟩ := bind_ok_iff.mp hseal
    refine ⟨⟨file.mode, blob⟩, ⟨file, hat, bind_ok_iff.mpr ⟨blob, hblob, rfl⟩⟩, ?_⟩
    exact Device.encryptForRef_content hblob

end

/-! ### Small trees -/

def demoDevice (name : String) : Device where
  deviceName := name
  hostLabel := name
  mountPath := "work"
  keyId := some "s1"
  holds := fun keyId => keyId == "s1"
  isSealed := fun _ => false
  hasRegions := fun _ _ => false

/-- The tree of a few files, sealed under the shared key. -/
def demoTree (files : List (String × Bytes)) : SharedTree :=
  let snapshot := files.foldl (fun s f => s.insertFile (.parse f.1) 0o644 f.2) WalkSnapshot.empty
  match buildTree (demoDevice "") snapshot with
  | .ok tree => tree
  | .error _ => ⟨.nil, trivial, nofun⟩

end Softfig.Share
