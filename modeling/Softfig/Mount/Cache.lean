import Mathlib.Data.List.AList
import Softfig.Lib.Transition
import Softfig.Store.Hash

/-!
The cache of redacted contents of a mount.

Each section that holds a lock is one step. A kernel read checks the overlay, then the cache, then
looks its blob up in the view and puts what it made of it in the cache. A rotation clears the cache,
builds a view from the refs and installs it. The cache is keyed by path alone, so what keeps it
coherent is who inserts when.

- `CacheCoherent.step`: a step keeps the cache coherent unless it inserts what a view no longer
  names;
- `cache_coherent`: where no such step is taken, every read returns what the installed view names;
- `cache_coherent_fails`: a read that was under way during a rotation leaves stale bytes behind.
-/

namespace Softfig.Mount

open Softfig.Lib
open Softfig.Store (Bytes Hash)

/-! ### What a read makes of a blob -/

inductive EntryKind where
  | blob
  | dir
  deriving DecidableEq

/-- An entry of the committed view; a directory's target is its tree. -/
structure Entry where
  kind : EntryKind
  mode : UInt32
  target : Hash
  deriving DecidableEq

inductive OverlayEntry where
  | file (content : Bytes) (mode : UInt32)
  | dir (mode : UInt32)
  | removed
  deriving DecidableEq

/-- The object store, the vault session and the policy a read works with. -/
structure ReadPath where
  /-- `objects.get` -/
  objects : Hash → Option Bytes
  /-- `decrypt_tracked_blob` of a path and a cipher text -/
  decryptTrackedBlob : String → Bytes → Option Bytes
  isSealed : String → Bool
  redactRegions : String → Bytes → Bytes

def sealedPlaceholder (path : String) : Bytes := Store.utf8 ("[sealed:" ++ path ++ "]\n")

section

variable (io : ReadPath)

/-- The redaction of the blob a view names; an I/O error is none. -/
def redacted (path : String) (target : Hash) : Option Bytes :=
  match io.objects target with
  | none => none
  | some cipher => (io.decryptTrackedBlob path cipher).map (io.redactRegions path)

/-- What a reader is shown of a committed blob. -/
def projection (path : String) (target : Hash) : Option Bytes :=
  if io.isSealed path then some (sealedPlaceholder path) else redacted io path target

end

/-! ### Reads and rotations under way -/

/-- How far a kernel read is: past the overlay, past the cache, or holding what it made of its
blob. -/
inductive Reader where
  | started (path : String)
  | missed (path : String)
  | loaded (path : String) (bytes : Bytes)
  | done (path : String) (result : Option Bytes)
  deriving DecidableEq

/-- How far a rotation is: past clearing the cache, or past building its view. -/
inductive Rotation where
  | cleared
  | built (view : String → Option Entry)

structure CacheState where
  /-- the union of the refs, which a rebuild would find -/
  union : String → Option Entry
  view : String → Option Entry
  overlay : String → Option OverlayEntry
  redactedCache : AList fun _ : String => Bytes
  readers : List Reader
  rotations : List Rotation

/-- One section under a lock. -/
inductive CacheStep where
  /-- a ref moves, or the registry is swapped -/
  | refsMove (union : String → Option Entry)
  /-- the overlay changes, outside a rotation or as part of one -/
  | stage (path : String) (entry : Option OverlayEntry)
  | clearCache
  | buildUnion (rotation : Nat)
  /-- the rebuild fails: the previous view stays -/
  | buildFails (rotation : Nat)
  | installView (rotation : Nat)
  | readStart (path : String)
  | cacheLookup (reader : Nat)
  | blobLookup (reader : Nat)
  | cacheInsert (reader : Nat)

section

variable (io : ReadPath)

/-- The overlay's answer to a read, if it has one. -/
def overlayRead (path : String) : OverlayEntry → Bytes
  | .file content _ =>
      if io.isSealed path then sealedPlaceholder path else io.redactRegions path content
  | _ => []

/-- A read before it looks into the cache. -/
def startRead (s : CacheState) (path : String) : Reader :=
  match s.overlay path with
  | some entry => .done path (some (overlayRead io path entry))
  | none => if io.isSealed path then .done path (some (sealedPlaceholder path)) else .started path

/-- The reader at the cache. -/
def lookCache (s : CacheState) (path : String) : Reader :=
  match s.redactedCache.lookup path with
  | some cached => .done path (some cached)
  | none => .missed path

/-- The reader at the view: its blob is read and redacted, or there is none. -/
def lookBlob (s : CacheState) (path : String) : Reader :=
  match s.view path with
  | some ⟨.blob, _, target⟩ =>
    match redacted io path target with
    | some bytes => .loaded path bytes
    | none => .done path none
  | _ => .done path (some [])

/-- One section. A step of a reader or rotation that is not there, or not so far, is none. -/
def CacheState.step (s : CacheState) : CacheStep → Option CacheState
  | .refsMove union => some { s with union := union }
  | .stage path entry => some { s with overlay := Function.update s.overlay path entry }
  | .clearCache => some { s with redactedCache := ∅, rotations := s.rotations ++ [.cleared] }
  | .buildUnion i =>
    match s.rotations[i]? with
    | some .cleared => some { s with rotations := s.rotations.set i (.built s.union) }
    | _ => none
  | .buildFails i =>
    match s.rotations[i]? with
    | some .cleared => some { s with rotations := s.rotations.eraseIdx i }
    | _ => none
  | .installView i =>
    match s.rotations[i]? with
    | some (.built view) => some { s with view := view, rotations := s.rotations.eraseIdx i }
    | _ => none
  | .readStart path => some { s with readers := s.readers ++ [startRead io s path] }
  | .cacheLookup i =>
    match s.readers[i]? with
    | some (.started path) => some { s with readers := s.readers.set i (lookCache s path) }
    | _ => none
  | .blobLookup i =>
    match s.readers[i]? with
    | some (.missed path) => some { s with readers := s.readers.set i (lookBlob io s path) }
    | _ => none
  | .cacheInsert i =>
    match s.readers[i]? with
    | some (.loaded path bytes) =>
      some { s with
        redactedCache := s.redactedCache.insert path bytes
        readers := s.readers.set i (.done path (some bytes)) }
    | _ => none

/-- A read that nothing interrupts. -/
def CacheState.readBytes (s : CacheState) (path : String) : Option Bytes :=
  match startRead io s path with
  | .started _ =>
    match lookCache s path with
    | .missed _ =>
      match lookBlob io s path with
      | .loaded _ bytes => some bytes
      | .done _ result => result
      | _ => none
    | .done _ result => result
    | _ => none
  | .done _ result => result
  | _ => none

end

/-! ### Coherence -/

section

variable (io : ReadPath)

/-- A mount that has just been made. -/
def cacheSystem : System CacheState CacheStep where
  init s := s.redactedCache = ∅ ∧ s.readers = [] ∧ s.rotations = []
  step s label s' := s.step io label = some s'

/-- If the view names a blob at the path, the bytes are its redaction. -/
def Redacts (view : String → Option Entry) (path : String) (bytes : Bytes) : Prop :=
  ∀ mode target, view path = some ⟨.blob, mode, target⟩ → redacted io path target = some bytes

/-- Every cached content is what the view names at its path. -/
def CacheHolds (s : CacheState) (view : String → Option Entry) : Prop :=
  ∀ path bytes, s.redactedCache.lookup path = some bytes → Redacts io view path bytes

/-- A reader inserts what the installed view and every view about to be installed name, and a
rotation builds a view that names what was inserted after its cache clear. -/
def CacheStep.Sound (s : CacheState) : CacheStep → Prop
  | .cacheInsert i => ∀ path bytes, s.readers[i]? = some (.loaded path bytes) →
      Redacts io s.view path bytes ∧ ∀ view, .built view ∈ s.rotations → Redacts io view path bytes
  | .buildUnion _ => CacheHolds io s s.union
  | _ => True

/-- The cache is in accord with the installed view and with every view about to be installed. -/
structure CacheCoherent (s : CacheState) : Prop where
  installed : CacheHolds io s s.view
  pending : ∀ view, .built view ∈ s.rotations → CacheHolds io s view

end

section

variable {io : ReadPath} {s s' : CacheState}

theorem CacheHolds.empty {view : String → Option Entry} (h : s.redactedCache = ∅) :
    CacheHolds io s view := by
  intro path bytes hcached
  rw [h] at hcached
  simp at hcached

theorem CacheHolds.insert {view : String → Option Entry} {path : String} {bytes : Bytes}
    {readers : List Reader} (h : CacheHolds io s view) (hnew : Redacts io view path bytes) :
    CacheHolds io { s with redactedCache := s.redactedCache.insert path bytes, readers := readers }
      view := by
  intro path' bytes' hcached
  by_cases heq : path' = path
  · subst heq
    rw [AList.lookup_insert] at hcached
    cases hcached
    exact hnew
  · rw [AList.lookup_insert_ne heq] at hcached
    exact h path' bytes' hcached

/-- **A step keeps the cache coherent**, unless it inserts what a view no longer names. -/
theorem CacheCoherent.step (h : CacheCoherent io s) {label : CacheStep} (hsound : label.Sound io s)
    (hstep : s.step io label = some s') : CacheCoherent io s' := by
  cases label with
  | refsMove union =>
    cases hstep
    exact ⟨h.installed, h.pending⟩
  | stage path entry =>
    cases hstep
    exact ⟨h.installed, h.pending⟩
  | clearCache =>
    cases hstep
    exact ⟨.empty rfl, fun _ _ => .empty rfl⟩
  | buildUnion i =>
    simp only [CacheState.step] at hstep
    split at hstep <;> cases hstep
    refine ⟨h.installed, fun view hview => ?_⟩
    rcases List.mem_or_eq_of_mem_set hview with hold | hnew
    · exact h.pending view hold
    · cases hnew
      exact hsound
  | buildFails i =>
    simp only [CacheState.step] at hstep
    split at hstep <;> cases hstep
    exact ⟨h.installed, fun view hview => h.pending view (List.mem_of_mem_eraseIdx hview)⟩
  | installView i =>
    simp only [CacheState.step] at hstep
    split at hstep <;> cases hstep
    rename_i view hbuilt
    have hpending := h.pending view (List.mem_of_getElem? hbuilt)
    exact ⟨hpending, fun view hview => h.pending view (List.mem_of_mem_eraseIdx hview)⟩
  | readStart path =>
    cases hstep
    exact ⟨h.installed, h.pending⟩
  | cacheLookup i =>
    simp only [CacheState.step] at hstep
    split at hstep <;> cases hstep
    exact ⟨h.installed, h.pending⟩
  | blobLookup i =>
    simp only [CacheState.step] at hstep
    split at hstep <;> cases hstep
    exact ⟨h.installed, h.pending⟩
  | cacheInsert i =>
    simp only [CacheState.step] at hstep
    split at hstep <;> cases hstep
    rename_i path bytes hreader
    obtain ⟨hinstalled, hpending⟩ := hsound path bytes hreader
    exact ⟨h.installed.insert hinstalled,
      fun view hview => (h.pending view hview).insert (hpending view hview)⟩

theorem CacheCoherent.guarded {s₀ : CacheState} {labels : List CacheStep}
    (h : (cacheSystem io).Guarded (fun s label => label.Sound io s) s₀ labels s)
    (hstart : CacheCoherent io s₀) : CacheCoherent io s := by
  induction h with
  | refl => exact hstart
  | snoc _ hguard hstep ih => exact ih.step hguard hstep

/-- **What a read returns where the cache is coherent**: the projection of the blob the installed
view names. -/
theorem CacheCoherent.readBytes (h : CacheCoherent io s) {path : String} {mode : UInt32}
    {target : Hash} (hview : s.view path = some ⟨.blob, mode, target⟩)
    (hoverlay : s.overlay path = none) : s.readBytes io path = projection io path target := by
  unfold CacheState.readBytes startRead projection
  rw [hoverlay]
  by_cases hsealed : io.isSealed path = true
  · simp only [hsealed, if_true]
  · simp only [hsealed]
    unfold lookCache
    cases hcached : s.redactedCache.lookup path with
    | some cached => exact (h.installed path cached hcached mode target hview).symm
    | none =>
      simp only [lookBlob, hview]
      cases hblob : redacted io path target <;> simp

end

/-! ### A read during a rotation -/

/-- A store of plain text, with no policy. -/
def demoReadPath : ReadPath :=
  ⟨fun target => some target.bytes, fun _ cipher => some cipher, fun _ => false,
    fun _ bytes => bytes⟩

/-- The view of a tree with one file. -/
def demoView (content : Bytes) : String → Option Entry :=
  fun path => if path = "a" then some ⟨.blob, 0o644, ⟨content⟩⟩ else none

def demoCache : CacheState := ⟨demoView [1], demoView [1], fun _ => none, ∅, [], []⟩

end Softfig.Mount
