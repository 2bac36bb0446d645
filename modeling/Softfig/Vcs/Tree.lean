import Softfig.Store.Objects
import Softfig.Vcs.Commit
import Softfig.Vcs.Walk

/-!
Tree building: a snapshot becomes blobs in the object store and canonical tree
rows in a blueprint.

`buildEntries` is the loop over one directory's children, with the recursion
into subdirectories; it threads the blobs and tree rows written so far, which
stay written when a later step fails.

- `canonicalTreeBytes_injective`: a tree's bytes determine its entries;
- `buildEntries_eq_entriesOf`: what a build returns does not depend on what was
  written before it.
-/

namespace Softfig.Vcs

open Softfig.Lib.Jcs (Json Numeral Members jcs canon)
open Softfig.Lib.PathTree (Forest)
open Softfig.Store

/-! ### Canonical tree bytes -/

def dirMode : UInt32 := 0o040755

def entryMembers (e : TreeEntryRow) : List (String × Json) :=
  [("name", .str e.name), ("kind", .str e.kind.asStr), ("mode", .num (.ofNat e.mode.toNat)),
    ("target", .str e.target.toHex)]

def canonicalTreeBytes (entries : List TreeEntryRow) : Bytes :=
  utf8 (jcs (.object [("entries", .array (entries.map fun e => .object (entryMembers e)))]))

theorem entryMembers_injective {d e : TreeEntryRow}
    (h : canon (.object (entryMembers d)) = canon (.object (entryMembers e))) : d = e := by
  have hmember := Softfig.Lib.Jcs.canon_member_eq h
  simp only [entryMembers, Members.ofList, Members.get?] at hmember
  have hname : canon (.str d.name) = canon (.str e.name) := by
    simpa using hmember "name"
  have hkind : canon (.str d.kind.asStr) = canon (.str e.kind.asStr) := by
    simpa using hmember "kind"
  have hmode : canon (.num (.ofNat d.mode.toNat)) = canon (.num (.ofNat e.mode.toNat)) := by
    simpa using hmember "mode"
  have htarget : canon (.str d.target.toHex) = canon (.str e.target.toHex) := by
    simpa using hmember "target"
  simp only [canon, Json.str.injEq, Json.num.injEq] at hname hkind hmode htarget
  cases d
  cases e
  simp only [TreeEntryRow.mk.injEq]
  exact ⟨hname, TreeEntryKind.asStr_injective hkind,
    UInt32.toNat_inj.mp (Numeral.ofNat_injective hmode), Hash.toHex_injective htarget⟩

/-- **A tree's bytes determine its entries**: names, kinds, modes and targets. -/
theorem canonicalTreeBytes_injective {ds es : List TreeEntryRow}
    (h : canonicalTreeBytes ds = canonicalTreeBytes es) : ds = es := by
  have hcanon := Softfig.Lib.Jcs.canon_eq_of_jcs_eq (utf8_injective h)
  have hentries := Softfig.Lib.Jcs.canon_member_eq hcanon "entries"
  simp only [Members.ofList, Members.get?, if_true, Option.map_some, Option.some.injEq] at hentries
  have hrows := Softfig.Lib.Jcs.canon_array_eq hentries
  rw [List.map_map, List.map_map] at hrows
  exact List.map_injective_iff.mpr (fun _ _ => entryMembers_injective) hrows

/-! ### Building -/

/-- `encrypt_for_ref` with the session applied: ref name, path, plaintext. -/
abbrev BlobEncryptor := String → String → Bytes → Except CoreError Bytes

/-- The tree rows a commit writes, by hash, and its root. -/
structure Blueprint where
  trees : AList fun _ : Hash => List TreeEntryRow
  root : Hash

/-- Tree rows and blobs: what a build has written so far, and what a garden's
store holds. -/
structure TreeStore where
  trees : AList fun _ : Hash => List TreeEntryRow
  objects : ObjectStore

def childPath (pre name : String) : String :=
  if pre = "" then name else pre ++ "/" ++ name

section

variable (hashOf : Bytes → Hash) (encrypt : BlobEncryptor) (refName : String)

def treeHash (entries : List TreeEntryRow) : Hash := hashOf (canonicalTreeBytes entries)

/-- Sort one directory's entries, name them by their hash, and keep the row
already there under that hash. -/
def finishNode (b : TreeStore) (entries : List TreeEntryRow) : TreeStore × Hash :=
  let entries := entries.insertionSort fun a b => a.name ≤ b.name
  let hash := treeHash hashOf entries
  if hash ∈ b.trees then (b, hash)
  else ({ b with trees := b.trees.insert hash entries }, hash)

/-- The entries of one directory, children in name order. -/
def buildEntries : Children → String → TreeStore → TreeStore × Except CoreError (List TreeEntryRow)
  | .nil, _, b => (b, .ok [])
  | .leaf name file rest, pre, b =>
    match encrypt refName (childPath pre name) file.content with
    | .error e => (b, .error e)
    | .ok cipher =>
      let put := b.objects.put hashOf cipher
      match buildEntries rest pre { b with objects := put.1 } with
      | (b', .error e) => (b', .error e)
      | (b', .ok entries) => (b', .ok (⟨name, .blob, file.mode, put.2⟩ :: entries))
  | .node name sub rest, pre, b =>
    match buildEntries sub (childPath pre name) b with
    | (b', .error e) => (b', .error e)
    | (b', .ok subEntries) =>
      let node := finishNode hashOf b' subEntries
      match buildEntries rest pre node.1 with
      | (b'', .error e) => (b'', .error e)
      | (b'', .ok entries) => (b'', .ok (⟨name, .tree, dirMode, node.2⟩ :: entries))

def buildNode (c : Children) (pre : String) (b : TreeStore) : TreeStore × Except CoreError Hash :=
  match buildEntries hashOf encrypt refName c pre b with
  | (b', .error e) => (b', .error e)
  | (b', .ok entries) => ((finishNode hashOf b' entries).1, .ok (finishNode hashOf b' entries).2)

/-- TreeStore the whole snapshot: the object store afterwards, and the blueprint. -/
def buildWith (objects : ObjectStore) (root : Children) : ObjectStore × Except CoreError Blueprint :=
  match buildNode hashOf encrypt refName root "" ⟨∅, objects⟩ with
  | (b, .error e) => (b.objects, .error e)
  | (b, .ok root) => (b.objects, .ok ⟨b.trees, root⟩)

/-! ### What a build returns -/

/-- The entries of one directory as a function of the directory alone. -/
def entriesOf : Children → String → Except CoreError (List TreeEntryRow)
  | .nil, _ => .ok []
  | .leaf name file rest, pre =>
    match encrypt refName (childPath pre name) file.content with
    | .error e => .error e
    | .ok cipher =>
      match entriesOf rest pre with
      | .error e => .error e
      | .ok entries => .ok (⟨name, .blob, file.mode, hashOf cipher⟩ :: entries)
  | .node name sub rest, pre =>
    match entriesOf sub (childPath pre name) with
    | .error e => .error e
    | .ok subEntries =>
      match entriesOf rest pre with
      | .error e => .error e
      | .ok entries => .ok (⟨name, .tree, dirMode, treeHash hashOf subEntries⟩ :: entries)

variable {hashOf encrypt refName}

theorem entriesOf_names {c : Children} {pre : String} {entries : List TreeEntryRow}
    (h : entriesOf hashOf encrypt refName c pre = .ok entries) :
    entries.map TreeEntryRow.name = c.names := by
  induction c generalizing pre entries with
  | nil =>
    cases h
    rfl
  | leaf name file rest ih =>
    simp only [entriesOf] at h
    split at h
    · cases h
    · split at h
      · cases h
      · rename_i hrest
        cases h
        simp only [List.map_cons, Forest.names, ih hrest]
  | node name sub rest _ ih =>
    simp only [entriesOf] at h
    split at h
    · cases h
    · split at h
      · cases h
      · rename_i hrest
        cases h
        simp only [List.map_cons, Forest.names, ih hrest]

theorem names_pairwise {c : Children} (hc : c.Sorted) : c.names.Pairwise (· < ·) := by
  induction c with
  | nil => exact List.Pairwise.nil
  | leaf n f rest ih => exact List.pairwise_cons.mpr ⟨hc.1, ih hc.2⟩
  | node n sub rest _ ih => exact List.pairwise_cons.mpr ⟨hc.1, ih hc.2.2⟩

/-- A directory's entries come out in name order. -/
theorem entriesOf_sorted {c : Children} (hc : c.Sorted) {pre : String}
    {entries : List TreeEntryRow} (h : entriesOf hashOf encrypt refName c pre = .ok entries) :
    SortedByName entries := by
  have := names_pairwise hc
  rw [← entriesOf_names h, List.pairwise_map] at this
  exact this

theorem insertionSort_of_sortedByName {entries : List TreeEntryRow} (h : SortedByName entries) :
    (entries.insertionSort fun a b => a.name ≤ b.name) = entries :=
  List.Pairwise.insertionSort_eq (h.imp le_of_lt)

@[simp]
theorem finishNode_hash {b : TreeStore} {entries : List TreeEntryRow} (h : SortedByName entries) :
    (finishNode hashOf b entries).2 = treeHash hashOf entries := by
  simp only [finishNode, insertionSort_of_sortedByName h]
  split_ifs <;> rfl

variable (hashOf encrypt refName) in
/-- **A build's result** does not depend on what was written before it. -/
theorem buildEntries_eq_entriesOf {c : Children} (hc : c.Sorted) (pre : String) (b : TreeStore) :
    (buildEntries hashOf encrypt refName c pre b).2 = entriesOf hashOf encrypt refName c pre := by
  induction c generalizing pre b with
  | nil => rfl
  | leaf name file rest ih =>
    simp only [buildEntries, entriesOf]
    cases encrypt refName (childPath pre name) file.content with
    | error e => rfl
    | ok cipher =>
      simp only
      rw [← ih hc.2 pre { b with objects := (b.objects.put hashOf cipher).1 }]
      rcases buildEntries hashOf encrypt refName rest pre _ with ⟨b', e | entries⟩
      · rfl
      · simp
  | node name sub rest ihsub ih =>
    simp only [buildEntries, entriesOf]
    have hsub := ihsub hc.2.1 (childPath pre name) b
    rcases hbuild : buildEntries hashOf encrypt refName sub (childPath pre name) b
      with ⟨b', e | subEntries⟩
    · rw [hbuild] at hsub
      rw [← hsub]
    · rw [hbuild] at hsub
      rw [← hsub]
      simp only
      rw [← ih hc.2.2 pre (finishNode hashOf b' subEntries).1,
        finishNode_hash (entriesOf_sorted hc.2.1 hsub.symm)]
      rcases buildEntries hashOf encrypt refName rest pre _ with ⟨b'', e | entries⟩ <;> rfl

/-- The root hash of a build, or the error it stops with. -/
def rootHashOf (hashOf : Bytes → Hash) (encrypt : BlobEncryptor) (refName : String)
    (root : Children) : Except CoreError Hash :=
  match entriesOf hashOf encrypt refName root "" with
  | .error e => .error e
  | .ok entries => .ok (treeHash hashOf entries)

variable (hashOf encrypt refName) in
theorem buildNode_eq {c : Children} (hc : c.Sorted) (pre : String) (b : TreeStore) :
    (buildNode hashOf encrypt refName c pre b).2 =
      match entriesOf hashOf encrypt refName c pre with
      | .error e => .error e
      | .ok entries => .ok (treeHash hashOf entries) := by
  have h := buildEntries_eq_entriesOf hashOf encrypt refName hc pre b
  unfold buildNode
  rcases hbuild : buildEntries hashOf encrypt refName c pre b with ⟨b', e | entries⟩
  · rw [hbuild] at h
    rw [← h]
  · rw [hbuild] at h
    rw [← h]
    simp only [finishNode_hash (entriesOf_sorted hc h.symm)]

variable (hashOf encrypt refName) in
theorem buildWith_root (objects : ObjectStore) {root : Children} (hroot : root.Sorted) :
    (buildWith hashOf encrypt refName objects root).2.map Blueprint.root =
      rootHashOf hashOf encrypt refName root := by
  have h := buildNode_eq hashOf encrypt refName hroot "" ⟨∅, objects⟩
  unfold buildWith rootHashOf
  rcases hbuild : buildNode hashOf encrypt refName root "" ⟨∅, objects⟩ with ⟨b, e | hash⟩
  · rw [hbuild] at h
    exact h
  · rw [hbuild] at h
    exact h

end

end Softfig.Vcs
