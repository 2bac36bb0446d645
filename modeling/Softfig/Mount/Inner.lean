import Softfig.Lib.Descend
import Softfig.Mount.Cache
import Softfig.Queue.Garden
import Softfig.Vcs.Chain

/-!
The state of a mount: the committed view and the overlay of staged entries over it.

A point lookup asks the overlay for one key, then the view. A listing, a rename and the snapshot of
a commit descend from a directory through the directories they find. Staging writes overlay entries
and nothing else.

- `live_stage`: staging changes what is live at one path;
- `collectChildren_lists`, `liveChildren_lists`: a listing finds what is live in a directory;
- `length_le_depth`: a descent is deep enough for whatever is live.
-/

namespace Softfig.Mount

open Softfig.Lib
open Softfig.Store (Bytes Hash)
open Softfig.Vcs (FileName Path Component WalkSnapshot)

/-! ### Paths -/

/-- A path below the garden root, which is the empty one. -/
abbrev RepoPath := List FileName

namespace RepoPath

def names (path : RepoPath) : List String := path.map FileName.text

/-- The path as the router of chains reads it. -/
def toPath (path : RepoPath) : Path :=
  ⟨path.map Component.normal, by
    intro c hc
    obtain ⟨name, -, rfl⟩ := List.mem_map.mp (List.mem_of_mem_tail hc)
    rfl⟩

/-- The forward-slash text of a path. -/
def text (path : RepoPath) : String := "/".intercalate path.names

/-- `path.parent() == Some(dir)` -/
def isChild (dir path : RepoPath) : Bool := decide (path ≠ [] ∧ path.dropLast = dir)

/-- `ancestors` of a file but for itself and the root, the nearest first. -/
def parents (file : RepoPath) : List RepoPath :=
  (file.inits.filter fun dir => decide (dir ≠ [] ∧ dir ≠ file)).reverse

/-- A source path below one prefix at its place below another. -/
def remap (src dst path : RepoPath) : RepoPath :=
  if src <+: path then dst ++ path.drop src.length else dst

theorem names_toPath (path : RepoPath) : path.toPath.names = path.names := by
  rw [Path.names, toPath, names, List.map_map]
  rfl

theorem text_injective : Function.Injective FileName.text := by
  intro a b h
  obtain ⟨text, hvalid⟩ := a
  cases b
  cases h
  rfl

theorem names_injective : Function.Injective names := List.map_injective_iff.mpr text_injective

theorem names_prefix_iff {path other : RepoPath} : path.names <+: other.names ↔ path <+: other :=
  List.prefix_map_iff_of_injective text_injective

theorem isChild_iff {dir path : RepoPath} :
    isChild dir path = true ↔ ∃ name, path = dir ++ [name] := by
  rw [isChild, decide_eq_true_eq]
  constructor
  · rintro ⟨hne, rfl⟩
    exact ⟨path.getLast hne, (List.dropLast_append_getLast hne).symm⟩
  · rintro ⟨name, rfl⟩
    simp

theorem mem_parents {file dir : RepoPath} :
    dir ∈ parents file ↔ dir ≠ [] ∧ dir <+: file ∧ dir ≠ file := by
  rw [parents, List.mem_reverse, List.mem_filter, List.mem_inits, decide_eq_true_eq]
  tauto

theorem remap_append (src dst rest : RepoPath) : remap src dst (src ++ rest) = dst ++ rest := by
  rw [remap, if_pos (List.prefix_append _ _), List.drop_left]

end RepoPath

/-! ### The overlay -/

/-- A staged entry and the generation of the mutation that staged it. -/
structure Slot where
  generation : Nat
  entry : OverlayEntry
  deriving DecidableEq

structure Overlay where
  byPath : AList fun _ : RepoPath => Slot
  generation : Nat

def OverlayEntry.isDir : OverlayEntry → Bool
  | .dir _ => true
  | _ => false

/-- `HashMap::retain` -/
def retain (keep : RepoPath → Slot → Bool) (slots : AList fun _ : RepoPath => Slot) :
    AList fun _ : RepoPath => Slot :=
  ⟨slots.entries.filter fun s => keep s.1 s.2, slots.nodupKeys.sublist List.filter_sublist⟩

namespace Overlay

def new : Overlay := ⟨∅, 0⟩

def get (o : Overlay) (path : RepoPath) : Option OverlayEntry :=
  (o.byPath.lookup path).map Slot.entry

def stage (o : Overlay) (path : RepoPath) (entry : OverlayEntry) : Overlay :=
  ⟨o.byPath.insert path ⟨o.generation + 1, entry⟩, o.generation + 1⟩

/-- Drop what a commit absorbed: the entries it owns that were staged at or before its cutoff. A
directory marker stays while an entry that stays is below it. -/
def removeAbsorbed (o : Overlay) (cutoff : Nat) (owned : RepoPath → Bool) : Overlay :=
  let kept := retain (fun path slot =>
    decide (slot.generation > cutoff) || slot.entry.isDir || !owned path) o.byPath
  let survivors := (kept.entries.filter fun s => !s.2.entry.isDir).map Sigma.fst
  { o with
    byPath := retain (fun path slot =>
      !slot.entry.isDir || decide (slot.generation > cutoff) || !owned path ||
        survivors.any fun file => decide (path <+: file ∧ file ≠ path)) kept }

end Overlay

/-! ### What is live -/

/-- The view of the committed trees and the overlay, under one lock. -/
structure Inner where
  view : AList fun _ : RepoPath => Entry
  overlay : Overlay

/-- Where the bytes of a file come from. -/
inductive ContentSource where
  | overlay (content : Bytes)
  | blob (target : Hash)
  deriving DecidableEq

/-- The node of a committed entry. -/
def Entry.live (entry : Entry) : Live (UInt32 × ContentSource) :=
  match entry.kind with
  | .blob => .file (entry.mode, .blob entry.target)
  | .dir => .dir

/-- The node of a staged entry, none for a removal. -/
def OverlayEntry.live : OverlayEntry → Option (Live (UInt32 × ContentSource))
  | .file content mode => some (.file (mode, .overlay content))
  | .dir _ => some .dir
  | .removed => none

namespace Inner

variable (inner : Inner)

def stage (path : RepoPath) (entry : OverlayEntry) : Inner :=
  { inner with overlay := inner.overlay.stage path entry }

/-- What is live at a path: the overlay has precedence. -/
def live (path : RepoPath) : Option (Live (UInt32 × ContentSource)) :=
  match inner.overlay.get path with
  | some entry => entry.live
  | none => (inner.view.lookup path).map Entry.live

/-- `entry_kind_of` -/
def entryKindOf (path : RepoPath) : Option EntryKind :=
  match inner.overlay.get path with
  | some (.file ..) => some .blob
  | some (.dir _) => some .dir
  | some .removed => none
  | none => (inner.view.lookup path).map Entry.kind

/-- `current_mode` -/
def currentMode (path : RepoPath) : Option UInt32 :=
  match inner.overlay.get path with
  | some (.file _ mode) => some mode
  | some (.dir mode) => some mode
  | some .removed => none
  | none => (inner.view.lookup path).map Entry.mode

/-- A bound on the depth of whatever is live. -/
def depth : Nat :=
  ((inner.overlay.byPath.entries.map fun s => s.1.length) ++
    inner.view.entries.map fun e => e.1.length).foldr max 0

/-- One pass over the overlay, then one over the view. -/
def listed {β : Type} (staged : RepoPath → OverlayEntry → Option β)
    (committed : RepoPath → Entry → Option β) : List (RepoPath × β) :=
  (inner.overlay.byPath.entries.filterMap fun s => (staged s.1 s.2.entry).map (s.1, ·)) ++
  inner.view.entries.filterMap fun e => (committed e.1 e.2).map (e.1, ·)

/-- One directory of `collect_live_entries`. -/
def liveChildren (dir : RepoPath) : List (RepoPath × Live (UInt32 × ContentSource)) :=
  inner.listed
    (fun path entry => if RepoPath.isChild dir path then entry.live else none)
    (fun path entry =>
      if RepoPath.isChild dir path && (inner.overlay.get path).isNone then some entry.live
      else none)

/-! ### The snapshot -/

/-- A staged file at the root of an enabled mount, which a snapshot passes over. -/
def stray (mountRoots : List Path) (path : RepoPath) : OverlayEntry → Bool
  | .file .. => mountRoots.contains path.toPath
  | _ => false

/-- One directory of `collect_files`. -/
def collectChildren (ignored : RepoPath → Bool) (mountRoots : List Path) (dir : RepoPath) :
    List (RepoPath × Live (UInt32 × ContentSource)) :=
  inner.listed
    (fun path entry =>
      if !RepoPath.isChild dir path || ignored path then none
      else if stray mountRoots path entry then none
      else entry.live)
    (fun path entry =>
      let shadowed := (inner.overlay.get path).any fun staged => !stray mountRoots path staged
      if !RepoPath.isChild dir path || shadowed || ignored path then none else some entry.live)

/-- The files a snapshot holds, with their modes and sources. -/
def collectFiles (ignored : RepoPath → Bool) (mountRoots : List Path) :
    List (RepoPath × UInt32 × ContentSource) :=
  (descend (inner.collectChildren ignored mountRoots) inner.depth []).filterMap fun found =>
    match found.2 with
    | .file source => some (found.1, source)
    | .dir => none

end Inner

/-! ### The exclusion set -/

/-- The user's additions to the built-in exclusions. -/
structure Ignore where
  userTopLevel : List String

def ignoredTopLevel : List String := [".softfig", ".claude"]

namespace Ignore

def builtin : Ignore := ⟨[]⟩

/-- The names of `.softfigignore`, one in a line. -/
def parse (contents : List Char) : List String :=
  (((Queue.splitLines contents).map Queue.trim).filter fun line =>
    decide (line ≠ []) && decide (line.head? ≠ some '#')).map fun line =>
      String.ofList (if line.getLast? = some '/' then line.dropLast else line)

def fromContents (contents : List Char) : Ignore := ⟨parse contents⟩

def isIgnored (ignore : Ignore) : RepoPath → Bool
  | [] => false
  | name :: _ => ignoredTopLevel.contains name.text || ignore.userTopLevel.contains name.text

end Ignore

/-- The store and the session of a mount. -/
structure MountIo where
  /-- `objects.get` -/
  objects : Hash → Option Bytes
  /-- `decrypt_tracked_blob` of a path and a cipher text -/
  decryptTrackedBlob : String → Bytes → Option Bytes
  /-- `decrypt_blob` -/
  decryptBlob : Bytes → Option Bytes
  /-- `String::from_utf8_lossy` -/
  fromUtf8Lossy : Bytes → List Char

def ignoreFile : FileName := ⟨".softfigignore", by decide⟩

section

variable (io : MountIo) (inner : Inner)

/-- The bytes of a source, none where it cannot be read. -/
def MountIo.content (path : RepoPath) : ContentSource → Option Bytes
  | .overlay content => some content
  | .blob target => (io.objects target).bind (io.decryptTrackedBlob path.text)

/-- `read_workfile`; the outer none is a read error. -/
def readWorkfile (path : RepoPath) : Option (Option Bytes) :=
  match inner.live path with
  | some (.file source) => (io.content path source.2).map some
  | _ => some none

/-- `inmem_ignore` -/
def inmemIgnore : Option Ignore :=
  match inner.overlay.get [ignoreFile] with
  | some (.file content _) => some (.fromContents (io.fromUtf8Lossy content))
  | some _ => some .builtin
  | none =>
    match inner.view.lookup [ignoreFile] with
    | some ⟨.blob, _, target⟩ =>
        ((io.objects target).bind io.decryptBlob).map fun plain =>
          .fromContents (io.fromUtf8Lossy plain)
    | _ => some .builtin

/-- The files of a snapshot with their contents, none where one cannot be read. -/
def resolveFiles :
    List (RepoPath × UInt32 × ContentSource) → Option (List (RepoPath × UInt32 × Bytes))
  | [] => some []
  | (path, mode, source) :: files => do
    let content ← io.content path source
    let resolved ← resolveFiles files
    return (path, mode, content) :: resolved

/-- `unified_snapshot` -/
def unifiedSnapshot (mountRoots : List Path) : Option WalkSnapshot := do
  let ignore ← inmemIgnore io inner
  let files ← resolveFiles io (inner.collectFiles ignore.isIgnored mountRoots)
  let snapshot := files.foldl (fun snap file => snap.insertFile file.1.toPath file.2.1 file.2.2)
    WalkSnapshot.empty
  return { snapshot.pruneEmptyDirs with overlayGeneration := some inner.overlay.generation }

/-- What a snapshot does once it has its exclusions and the mount roots. -/
def assemble (ignore : Ignore) (mountRoots : List Path) : Option WalkSnapshot := do
  let files ← resolveFiles io (inner.collectFiles ignore.isIgnored mountRoots)
  let snapshot := files.foldl (fun snap file => snap.insertFile file.1.toPath file.2.1 file.2.2)
    WalkSnapshot.empty
  return { snapshot.pruneEmptyDirs with overlayGeneration := some inner.overlay.generation }

theorem unifiedSnapshot_eq (mountRoots : List Path) : unifiedSnapshot io inner mountRoots =
    (inmemIgnore io inner).bind fun ignore => assemble io inner ignore mountRoots := rfl

end

/-- `read_dir_entries`: the names in a directory, and whether each is a directory. -/
def readDirEntries (inner : Inner) (dir : RepoPath) : List (String × Bool) :=
  (inner.view.entries.filterMap fun e =>
    if RepoPath.isChild dir e.1 && (inner.overlay.get e.1).isNone then
      e.1.getLast?.map fun name => (name.text, decide (e.2.kind = .dir))
    else none) ++
  inner.overlay.byPath.entries.filterMap fun s =>
    if RepoPath.isChild dir s.1 && decide (s.2.entry ≠ .removed) then
      s.1.getLast?.map fun name => (name.text, s.2.entry.isDir)
    else none

/-! ### Lookups -/

section

variable {inner : Inner} {path : RepoPath}

theorem mem_entries_iff {β : Type} {l : AList fun _ : RepoPath => β} {path : RepoPath} {b : β} :
    (⟨path, b⟩ : Sigma fun _ => β) ∈ l.entries ↔ l.lookup path = some b :=
  AList.mem_lookup_iff.symm

theorem lookup_retain (keep : RepoPath → Slot → Bool) (slots : AList fun _ : RepoPath => Slot)
    (path : RepoPath) :
    (retain keep slots).lookup path = (slots.lookup path).filter (keep path) := by
  refine Option.ext fun slot => ?_
  rw [← mem_entries_iff, retain, List.mem_filter, mem_entries_iff, Option.filter_eq_some_iff]

theorem Overlay.get_stage (o : Overlay) (path : RepoPath) (entry : OverlayEntry) (q : RepoPath) :
    (o.stage path entry).get q = if q = path then some entry else o.get q := by
  unfold Overlay.get Overlay.stage
  by_cases h : q = path
  · subst h
    rw [AList.lookup_insert, if_pos rfl, Option.map_some]
  · rw [AList.lookup_insert_ne h, if_neg h]

/-- **Staging changes what is live at one path.** -/
theorem live_stage (inner : Inner) (path : RepoPath) (entry : OverlayEntry) (q : RepoPath) :
    (inner.stage path entry).live q = if q = path then entry.live else inner.live q := by
  unfold Inner.live Inner.stage
  dsimp only
  rw [Overlay.get_stage]
  split_ifs <;> rfl

theorem live_of_get {entry : OverlayEntry} (h : inner.overlay.get path = some entry) :
    inner.live path = entry.live := by
  rw [Inner.live, h]

theorem live_of_get_none (h : inner.overlay.get path = none) :
    inner.live path = (inner.view.lookup path).map Entry.live := by
  rw [Inner.live, h]

/-- The kind of what is live. -/
theorem entryKindOf_eq (inner : Inner) (path : RepoPath) :
    inner.entryKindOf path = (inner.live path).map fun node =>
      if node.isDir then EntryKind.dir else EntryKind.blob := by
  unfold Inner.entryKindOf Inner.live
  cases inner.overlay.get path with
  | some entry => cases entry <;> rfl
  | none =>
    cases inner.view.lookup path with
    | none => rfl
    | some entry =>
      obtain ⟨kind, mode, target⟩ := entry
      cases kind <;> rfl

theorem entryKindOf_dir : inner.entryKindOf path = some .dir ↔ inner.live path = some .dir := by
  rw [entryKindOf_eq]
  cases inner.live path with
  | none => simp
  | some node => cases node <;> simp [Live.isDir]

theorem entryKindOf_blob :
    inner.entryKindOf path = some .blob ↔ ∃ source, inner.live path = some (.file source) := by
  rw [entryKindOf_eq]
  cases inner.live path with
  | none => simp
  | some node => cases node <;> simp [Live.isDir]

theorem entryKindOf_none : inner.entryKindOf path = none ↔ inner.live path = none := by
  rw [entryKindOf_eq, Option.map_eq_none_iff]

/-- The mode of a live file is its current one. -/
theorem currentMode_of_live {source : UInt32 × ContentSource}
    (h : inner.live path = some (.file source)) : inner.currentMode path = some source.1 := by
  unfold Inner.live at h
  unfold Inner.currentMode
  cases hget : inner.overlay.get path with
  | some entry =>
    rw [hget] at h
    cases entry <;> cases h
    rfl
  | none =>
    rw [hget] at h
    obtain ⟨⟨kind, mode, target⟩, hview, hlive⟩ := Option.map_eq_some_iff.mp h
    rw [hview]
    cases kind <;> cases hlive
    rfl

/-! ### Listings -/

theorem le_foldr_max {n : Nat} {ns : List Nat} (h : n ∈ ns) : n ≤ ns.foldr max 0 := by
  induction ns with
  | nil => cases h
  | cons m ns ih =>
    rcases List.mem_cons.mp h with rfl | hmem
    · exact Nat.le_max_left _ _
    · exact Nat.le_trans (ih hmem) (Nat.le_max_right _ _)

/-- A descent is deep enough for whatever is live. -/
theorem length_le_depth (h : (inner.live path).isSome) : path.length ≤ inner.depth := by
  refine le_foldr_max (List.mem_append.mpr ?_)
  cases hget : inner.overlay.byPath.lookup path with
  | some slot => exact Or.inl (List.mem_map.mpr ⟨⟨path, slot⟩, mem_entries_iff.mpr hget, rfl⟩)
  | none =>
    rw [live_of_get_none (by rw [Overlay.get, hget]; rfl), Option.isSome_map] at h
    obtain ⟨entry, hentry⟩ := Option.isSome_iff_exists.mp h
    exact Or.inr (List.mem_map.mpr ⟨⟨path, entry⟩, mem_entries_iff.mpr hentry, rfl⟩)

theorem get_eq_some {o : Overlay} {entry : OverlayEntry} : o.get path = some entry ↔
    ∃ slot, o.byPath.lookup path = some slot ∧ slot.entry = entry := by
  rw [Overlay.get, Option.map_eq_some_iff]

section Listed

variable {β : Type} {staged : RepoPath → OverlayEntry → Option β}
  {committed : RepoPath → Entry → Option β}

theorem mem_listed {b : β} : (path, b) ∈ inner.listed staged committed ↔
    (∃ entry, inner.overlay.get path = some entry ∧ staged path entry = some b) ∨
      ∃ entry, inner.view.lookup path = some entry ∧ committed path entry = some b := by
  rw [Inner.listed, List.mem_append, List.mem_filterMap, List.mem_filterMap]
  refine or_congr ?_ ?_
  · constructor
    · rintro ⟨⟨found, slot⟩, hmem, hfound⟩
      obtain ⟨b, hb, heq⟩ := Option.map_eq_some_iff.mp hfound
      cases heq
      exact ⟨slot.entry, get_eq_some.mpr ⟨slot, mem_entries_iff.mp hmem, rfl⟩, hb⟩
    · rintro ⟨entry, hget, hb⟩
      obtain ⟨slot, hlookup, rfl⟩ := get_eq_some.mp hget
      exact ⟨⟨path, slot⟩, mem_entries_iff.mpr hlookup, by rw [hb]; rfl⟩
  · constructor
    · rintro ⟨⟨found, entry⟩, hmem, hfound⟩
      obtain ⟨b, hb, heq⟩ := Option.map_eq_some_iff.mp hfound
      cases heq
      exact ⟨entry, mem_entries_iff.mp hmem, hb⟩
    · rintro ⟨entry, hlookup, hb⟩
      exact ⟨⟨path, entry⟩, mem_entries_iff.mpr hlookup, by rw [hb]; rfl⟩

/-- What a pass lists has the keys of its map, in their order. -/
theorem keys_filterMap {γ : Type} (f : RepoPath → γ → Option β)
    (entries : List (Sigma fun _ : RepoPath => γ)) :
    ((entries.filterMap fun e => (f e.1 e.2).map (e.1, ·)).map Prod.fst).Sublist
      (entries.map Sigma.fst) := by
  induction entries with
  | nil => exact .slnil
  | cons e entries ih =>
    rw [List.filterMap_cons, List.map_cons]
    cases f e.1 e.2 with
    | none => exact .cons _ ih
    | some b => exact .cons_cons _ ih

/-- A key is listed once where no key is listed by both passes. -/
theorem nodup_listed (h : ∀ path entry entry', inner.overlay.get path = some entry →
    inner.view.lookup path = some entry' →
      staged path entry = none ∨ committed path entry' = none) :
    ((inner.listed staged committed).map Prod.fst).Nodup := by
  rw [Inner.listed, List.map_append, List.nodup_append]
  refine ⟨?_, ?_, ?_⟩
  · exact List.Nodup.sublist (keys_filterMap (fun path (slot : Slot) => staged path slot.entry) _)
      inner.overlay.byPath.nodupKeys
  · exact List.Nodup.sublist (keys_filterMap committed _) inner.view.nodupKeys
  · rintro path hfirst path' hrest rfl
    obtain ⟨⟨path, b⟩, hb, rfl⟩ := List.mem_map.mp hfirst
    obtain ⟨⟨found, slot⟩, hmem, hfound⟩ := List.mem_filterMap.mp hb
    obtain ⟨b, hstaged, heq⟩ := Option.map_eq_some_iff.mp hfound
    cases heq
    obtain ⟨⟨path', b'⟩, hb', rfl⟩ := List.mem_map.mp hrest
    obtain ⟨⟨found', entry⟩, hmem', hfound'⟩ := List.mem_filterMap.mp hb'
    obtain ⟨b', hcommitted, heq⟩ := Option.map_eq_some_iff.mp hfound'
    cases heq
    rcases h _ _ _ (get_eq_some.mpr ⟨slot, mem_entries_iff.mp hmem, rfl⟩)
      (mem_entries_iff.mp hmem') with hnone | hnone
    · rw [hnone] at hstaged
      cases hstaged
    · rw [hnone] at hcommitted
      cases hcommitted

end Listed

/-- **`collect_live_entries` finds what is live** in a directory. -/
theorem liveChildren_lists (inner : Inner) : Lists inner.live inner.liveChildren where
  mem dir path node := by
    rw [Inner.liveChildren, mem_listed, ← RepoPath.isChild_iff]
    cases hget : inner.overlay.get path with
    | some entry =>
      rw [live_of_get hget]
      cases hchild : RepoPath.isChild dir path <;> simp
    | none =>
      rw [live_of_get_none hget]
      cases hchild : RepoPath.isChild dir path <;> simp
  nodup dir := by
    refine nodup_listed fun path entry entry' hget _ => Or.inr ?_
    rw [hget]
    simp

/-- No staged file is at a mount root. -/
def NoStray (inner : Inner) (mountRoots : List Path) : Prop :=
  ∀ path entry, inner.overlay.get path = some entry → Inner.stray mountRoots path entry = false

/-- **`collect_files` finds what is live** and not ignored in a directory, where no staged file is
at a mount root. -/
theorem collectChildren_lists {ignored : RepoPath → Bool} {mountRoots : List Path}
    (hstray : NoStray inner mountRoots) :
    Lists (fun path => if ignored path then none else inner.live path)
      (inner.collectChildren ignored mountRoots) where
  mem dir path node := by
    rw [Inner.collectChildren, mem_listed, ← RepoPath.isChild_iff]
    cases hget : inner.overlay.get path with
    | some entry =>
      rw [live_of_get hget]
      cases hchild : RepoPath.isChild dir path <;> cases hignored : ignored path <;>
        simp [hstray path entry hget]
    | none =>
      rw [live_of_get_none hget]
      cases hchild : RepoPath.isChild dir path <;> cases hignored : ignored path <;> simp
  nodup dir := by
    refine nodup_listed fun path entry entry' hget _ => Or.inr ?_
    rw [hget]
    simp [hstray path entry hget]

end

end Softfig.Mount
