import Mathlib.Data.String.Basic
import Softfig.Lib.PathTree
import Softfig.Store.Hash
import Softfig.Vcs.Path

/-!
Working-tree snapshots.

A snapshot is a sorted tree of files and directories whose root is always a
directory. It can only be grown by path, so every name in it is a path
component and every mode is masked: a snapshot carries both facts.

- `WalkSnapshot.mem_files`: the files listed are the files found by path;
- `WalkSnapshot.nodup_files`: each path is listed once.
-/

namespace Softfig.Vcs

open Softfig.Lib.PathTree (Forest Node)
open Softfig.Store (Bytes)

/-- A tracked file. -/
structure FileNode where
  mode : UInt32
  content : Bytes
  deriving DecidableEq

/-- A directory's children by name: files and directories. -/
abbrev Children := Forest String FileNode

/-- The permission bits the repository tracks. -/
def modeMask : UInt32 := 0o7777

/-! ### Names a snapshot can hold -/

/-- A name some path puts at this place: any component at the top, an interior
one below. -/
def NameOk (top : Bool) (name : String) : Prop :=
  ∃ c : Component, c.asStr = name ∧ (top = true ∨ c.isInterior = true)

/-- Names and modes insertion by path produces. -/
def Tracked : Bool → Children → Prop
  | _, .nil => True
  | top, .leaf name file rest =>
    NameOk top name ∧ file.mode &&& modeMask = file.mode ∧ Tracked top rest
  | top, .node name sub rest => NameOk top name ∧ Tracked false sub ∧ Tracked top rest

/-- A list of names some path has from this place on. -/
def NamesOk (top : Bool) : List String → Prop
  | [] => True
  | n :: ns => NameOk top n ∧ NamesOk false ns

theorem Path.namesOk (p : Path) : NamesOk true p.names := by
  have hall : ∀ cs : List Component, (∀ c ∈ cs, c.isInterior = true) →
      NamesOk false (cs.map Component.asStr) := by
    intro cs hcs
    induction cs with
    | nil => trivial
    | cons c cs ih =>
      exact ⟨⟨c, rfl, .inr (hcs c List.mem_cons_self)⟩,
        ih fun d hd => hcs d (List.mem_cons_of_mem _ hd)⟩
  obtain ⟨cs, hvalid⟩ := p
  cases cs with
  | nil => trivial
  | cons c cs => exact ⟨⟨c, rfl, .inl rfl⟩, hall cs hvalid⟩

theorem tracked_cons {top : Bool} {name : String} {x : Node String FileNode} {rest : Children}
    (hname : NameOk top name) (hfile : ∀ f, x = .file f → f.mode &&& modeMask = f.mode)
    (hdir : ∀ sub, x = .dir sub → Tracked false sub) (hrest : Tracked top rest) :
    Tracked top (.cons name x rest) := by
  cases x with
  | file f => exact ⟨hname, hfile f rfl, hrest⟩
  | dir sub => exact ⟨hname, hdir sub rfl, hrest⟩

theorem tracked_set {top : Bool} {name : String} {x : Node String FileNode} {c : Children}
    (hc : Tracked top c) (hname : NameOk top name)
    (hfile : ∀ f, x = .file f → f.mode &&& modeMask = f.mode)
    (hdir : ∀ sub, x = .dir sub → Tracked false sub) : Tracked top (c.set name x) := by
  induction c with
  | nil => exact tracked_cons hname hfile hdir trivial
  | leaf n f rest ih =>
    simp only [Forest.set]
    split_ifs
    · exact tracked_cons hname hfile hdir hc
    · exact tracked_cons hname hfile hdir hc.2.2
    · exact ⟨hc.1, hc.2.1, ih hc.2.2⟩
  | node n sub rest _ ih =>
    simp only [Forest.set]
    split_ifs
    · exact tracked_cons hname hfile hdir hc
    · exact tracked_cons hname hfile hdir hc.2.2
    · exact ⟨hc.1, hc.2.1, ih hc.2.2⟩

theorem tracked_of_get? {top : Bool} {name : String} {sub c : Children} (hc : Tracked top c)
    (h : c.get? name = some (.dir sub)) : Tracked false sub := by
  induction c with
  | nil => cases h
  | leaf n f rest ih =>
    simp only [Forest.get?] at h
    split_ifs at h
    · cases h
    · exact ih hc.2.2 h
  | node n s rest _ ih =>
    simp only [Forest.get?] at h
    split_ifs at h
    · cases h
      exact hc.2.1
    · exact ih hc.2.2 h

theorem tracked_insertLeaf {top : Bool} {c : Children} (hc : Tracked top c) {names : List String}
    (hnames : NamesOk top names) {f : FileNode} (hf : f.mode &&& modeMask = f.mode) :
    Tracked top (c.insertLeaf names f) := by
  induction names generalizing top c with
  | nil => exact hc
  | cons n ns ih =>
    rw [Forest.insertLeaf]
    split_ifs
    · exact tracked_set hc hnames.1 (fun g hg => by cases hg; exact hf) (fun _ h => by cases h)
    · split
      · exact tracked_set hc hnames.1 (fun _ h => by cases h) fun sub hsub => by
          cases hsub
          exact ih trivial hnames.2
      · rename_i sub hget
        exact tracked_set hc hnames.1 (fun _ h => by cases h) fun sub' hsub => by
          cases hsub
          exact ih (tracked_of_get? hc hget) hnames.2
      · exact hc

theorem tracked_ensureNode {top : Bool} {c : Children} (hc : Tracked top c) {names : List String}
    (hnames : NamesOk top names) : Tracked top (c.ensureNode names) := by
  induction names generalizing top c with
  | nil => exact hc
  | cons n ns ih =>
    rw [Forest.ensureNode]
    split
    · exact tracked_set hc hnames.1 (fun _ h => by cases h) fun sub hsub => by
        cases hsub
        exact ih trivial hnames.2
    · rename_i sub hget
      exact tracked_set hc hnames.1 (fun _ h => by cases h) fun sub' hsub => by
        cases hsub
        exact ih (tracked_of_get? hc hget) hnames.2
    · exact hc

theorem tracked_prune {top : Bool} {c : Children} (hc : Tracked top c) : Tracked top c.prune := by
  induction c generalizing top with
  | nil => trivial
  | leaf n f rest ih => exact ⟨hc.1, hc.2.1, ih hc.2.2⟩
  | node n sub rest ihsub ih =>
    rw [Forest.prune]
    split
    · exact ih hc.2.2
    · exact ⟨hc.1, ihsub hc.2.1, ih hc.2.2⟩

/-! ### Snapshots -/

/-- A working tree. The overlay generation is carried along for the commit's
subscriber and never read here. -/
structure WalkSnapshot where
  root : Children
  sorted : root.Sorted
  tracked : Tracked true root
  overlayGeneration : Option Nat

namespace WalkSnapshot

def empty : WalkSnapshot := ⟨.nil, trivial, trivial, none⟩

theorem mask_mask (mode : UInt32) : mode &&& modeMask &&& modeMask = mode &&& modeMask := by
  rw [UInt32.and_assoc, UInt32.and_self]

/-- Insert a file at a path, with its mode masked. -/
def insertFile (snap : WalkSnapshot) (rel : Path) (mode : UInt32) (content : Bytes) :
    WalkSnapshot :=
  { snap with
    root := snap.root.insertLeaf rel.names ⟨mode &&& modeMask, content⟩
    sorted := Forest.sorted_insertLeaf snap.sorted _ _
    tracked := tracked_insertLeaf snap.tracked rel.namesOk (mask_mask mode) }

def ensureDir (snap : WalkSnapshot) (rel : Path) : WalkSnapshot :=
  { snap with
    root := snap.root.ensureNode rel.names
    sorted := Forest.sorted_ensureNode snap.sorted _
    tracked := tracked_ensureNode snap.tracked rel.namesOk }

/-- Drop the directories nothing is below. A directory with a `.keep` file is
not empty, so the sentinel needs no case of its own. -/
def pruneEmptyDirs (snap : WalkSnapshot) : WalkSnapshot :=
  { snap with
    root := snap.root.prune
    sorted := Forest.sorted_prune snap.sorted
    tracked := tracked_prune snap.tracked }

def fileContent (snap : WalkSnapshot) (rel : Path) : Option Bytes :=
  (snap.root.fileAt rel.names).map FileNode.content

end WalkSnapshot

def collectFiles (pre : Path) : Children → List (Path × FileNode)
  | .nil => []
  | .leaf name file rest => (pre.join name, file) :: collectFiles pre rest
  | .node name sub rest => collectFiles (pre.join name) sub ++ collectFiles pre rest

/-- Every tracked file with its path, depth first in name order. -/
def WalkSnapshot.files (snap : WalkSnapshot) : List (Path × FileNode) :=
  collectFiles Path.empty snap.root

/-! ### The files of a snapshot -/

def joinAll (pre : Path) (names : List String) : Path := names.foldl Path.join pre

theorem collectFiles_eq (pre : Path) (c : Children) :
    collectFiles pre c = c.leaves.map fun l => (joinAll pre l.1, l.2) := by
  induction c generalizing pre with
  | nil => rfl
  | leaf n f rest ih =>
    simp only [collectFiles, Forest.leaves, List.map_cons, ih]
    rfl
  | node n sub rest ihsub ih =>
    simp only [collectFiles, Forest.leaves, List.map_append, List.map_map, ih, ihsub]
    rfl

theorem joinAll_names {top : Bool} {names : List String} (hnames : NamesOk top names) {pre : Path}
    (hpre : pre.components = [] ∨ top = false) :
    (joinAll pre names).names = pre.names ++ names := by
  induction names generalizing top pre with
  | nil => simp [joinAll]
  | cons n ns ih =>
    obtain ⟨c, rfl, hc⟩ := hnames.1
    have hplace : pre.components = [] ∨ c.isInterior = true := by
      rcases hpre with h | h
      · exact .inl h
      · exact .inr (hc.resolve_left (by simp [h]))
    rw [joinAll, List.foldl_cons]
    refine (ih hnames.2 (.inr rfl)).trans ?_
    simp [Path.names, Path.join_asStr hplace]

theorem namesOk_of_mem_leaves {top : Bool} {c : Children} (hc : Tracked top c)
    {names : List String} {f : FileNode} (h : (names, f) ∈ c.leaves) : NamesOk top names := by
  induction c generalizing top names with
  | nil => cases h
  | leaf n g rest ih =>
    rcases List.mem_cons.mp h with heq | h
    · cases heq
      exact ⟨hc.1, trivial⟩
    · exact ih hc.2.2 h
  | node n sub rest ihsub ih =>
    rcases List.mem_append.mp h with h | h
    · obtain ⟨l, hl, heq⟩ := List.mem_map.mp h
      cases heq
      exact ⟨hc.1, ihsub hc.2.1 hl⟩
    · exact ih hc.2.2 h

theorem mode_of_mem_leaves {top : Bool} {c : Children} (hc : Tracked top c)
    {names : List String} {f : FileNode} (h : (names, f) ∈ c.leaves) :
    f.mode &&& modeMask = f.mode := by
  induction c generalizing top names with
  | nil => cases h
  | leaf n g rest ih =>
    rcases List.mem_cons.mp h with heq | h
    · cases heq
      exact hc.2.1
    · exact ih hc.2.2 h
  | node n sub rest ihsub ih =>
    rcases List.mem_append.mp h with h | h
    · obtain ⟨l, hl, heq⟩ := List.mem_map.mp h
      cases heq
      exact ihsub hc.2.1 hl
    · exact ih hc.2.2 h

namespace WalkSnapshot

theorem names_joinAll (snap : WalkSnapshot) {names : List String} {f : FileNode}
    (h : (names, f) ∈ snap.root.leaves) : (joinAll Path.empty names).names = names :=
  joinAll_names (namesOk_of_mem_leaves snap.tracked h) (.inl rfl)

/-- **The files listed are the files found by path.** -/
theorem mem_files {snap : WalkSnapshot} {p : Path} {f : FileNode} :
    (p, f) ∈ snap.files ↔ snap.root.fileAt p.names = some f := by
  rw [files, collectFiles_eq, ← Forest.mem_leaves snap.sorted, List.mem_map]
  constructor
  · rintro ⟨⟨names, g⟩, hmem, heq⟩
    cases heq
    rwa [snap.names_joinAll hmem]
  · exact fun hmem =>
      ⟨(p.names, f), hmem, by rw [Path.names_injective (snap.names_joinAll hmem)]⟩

/-- Each path is listed once. -/
theorem nodup_files (snap : WalkSnapshot) : (snap.files.map Prod.fst).Nodup := by
  rw [files, collectFiles_eq, List.map_map]
  have hnodup := Forest.nodup_leaves snap.sorted
  refine List.Nodup.of_map Path.names ?_
  rw [List.map_map]
  convert hnodup using 1
  refine List.map_congr_left fun l hl => ?_
  exact snap.names_joinAll hl

theorem mode_of_mem_files {snap : WalkSnapshot} {p : Path} {f : FileNode}
    (h : (p, f) ∈ snap.files) : f.mode &&& modeMask = f.mode :=
  mode_of_mem_leaves snap.tracked ((Forest.mem_leaves snap.sorted).mpr (mem_files.mp h))

end WalkSnapshot

end Softfig.Vcs
