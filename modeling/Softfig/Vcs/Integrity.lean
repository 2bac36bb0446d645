import Softfig.Vcs.Repo

/-!
What a garden's store keeps true of its trees and blobs.

A store is sound when every tree row is named by its own hash, every blob by
its digest, and every entry's target is stored. Building and committing keep
it sound and only add to it; a snapshot that was built is held: all its rows
and blobs are there.

- `buildEntries_spec`: a build keeps the store sound and holds its directory;
- `Call.write_spec`: so does a whole commit call, whatever it returns.
-/

namespace Softfig.Vcs

open Softfig.Lib.PathTree (Forest)
open Softfig.Store

namespace TreeStore

/-- The target of an entry is stored. -/
def EntryStored (t : TreeStore) (e : TreeEntryRow) : Prop :=
  match e.kind with
  | .blob => e.target ∈ t.objects
  | .tree => e.target ∈ t.trees

/-- Everything one holds the other holds too. -/
structure Extends (t t' : TreeStore) : Prop where
  trees : ∀ h es, t.trees.lookup h = some es → t'.trees.lookup h = some es
  objects : ∀ h bytes, t.objects.lookup h = some bytes → t'.objects.lookup h = some bytes

theorem Extends.refl (t : TreeStore) : t.Extends t := ⟨fun _ _ h => h, fun _ _ h => h⟩

theorem Extends.trans {t t' t'' : TreeStore} (h : t.Extends t') (h' : t'.Extends t'') :
    t.Extends t'' :=
  ⟨fun g es hes => h'.trees g es (h.trees g es hes),
    fun g bytes hb => h'.objects g bytes (h.objects g bytes hb)⟩

theorem EntryStored.mono {t t' : TreeStore} (hext : t.Extends t') {e : TreeEntryRow}
    (h : t.EntryStored e) : t'.EntryStored e := by
  unfold EntryStored at *
  split <;> rename_i hkind <;> simp only [hkind] at h
  · obtain ⟨bytes, hbytes⟩ := Option.isSome_iff_exists.mp (AList.lookup_isSome.mpr h)
    exact AList.lookup_isSome.mp (by rw [hext.objects _ _ hbytes]; rfl)
  · obtain ⟨es, hes⟩ := Option.isSome_iff_exists.mp (AList.lookup_isSome.mpr h)
    exact AList.lookup_isSome.mp (by rw [hext.trees _ _ hes]; rfl)

/-- Tree rows are named by their own hash and sorted by name. -/
def TreesSound (hashOf : Bytes → Hash) (trees : AList fun _ : Hash => List TreeEntryRow) : Prop :=
  ∀ h es, trees.lookup h = some es → treeHash hashOf es = h ∧ SortedByName es

structure Sound (hashOf : Bytes → Hash) (t : TreeStore) : Prop where
  trees : TreesSound hashOf t.trees
  objects : t.objects.Sound hashOf
  closed : ∀ h es, t.trees.lookup h = some es → ∀ e ∈ es, t.EntryStored e

theorem sound_empty (hashOf : Bytes → Hash) : Sound hashOf ⟨∅, ∅⟩ :=
  ⟨fun _ _ h => by simp at h, fun _ _ h => by simp at h, fun _ _ h => by simp at h⟩

end TreeStore

section

variable {hashOf : Bytes → Hash} {encrypt : BlobEncryptor} {refName : String}

/-- Two sets of entries with one hash are the same. -/
theorem treeHash_injective (hinj : Function.Injective hashOf) {ds es : List TreeEntryRow}
    (h : treeHash hashOf ds = treeHash hashOf es) : ds = es :=
  canonicalTreeBytes_injective (hinj h)

/-! ### Holding a directory -/

variable (hashOf encrypt refName) in
/-- Every blob and every tree row below a directory is there. -/
def HoldsDir (t : TreeStore) : Children → String → Prop
  | .nil, _ => True
  | .leaf name file rest, pre =>
    (∃ cipher, encrypt refName (childPath pre name) file.content = .ok cipher ∧
      t.objects.lookup (hashOf cipher) = some cipher) ∧ HoldsDir t rest pre
  | .node name sub rest, pre =>
    (∃ es, entriesOf hashOf encrypt refName sub (childPath pre name) = .ok es ∧
      t.trees.lookup (treeHash hashOf es) = some es) ∧
    HoldsDir t sub (childPath pre name) ∧ HoldsDir t rest pre

variable (hashOf encrypt refName) in
/-- The whole snapshot is there under a root hash. -/
def Holds (t : TreeStore) (root : Hash) (c : Children) : Prop :=
  ∃ es, entriesOf hashOf encrypt refName c "" = .ok es ∧ treeHash hashOf es = root ∧
    t.trees.lookup root = some es ∧ HoldsDir hashOf encrypt refName t c ""

theorem HoldsDir.mono {t t' : TreeStore} (hext : t.Extends t') {c : Children} {pre : String}
    (h : HoldsDir hashOf encrypt refName t c pre) : HoldsDir hashOf encrypt refName t' c pre := by
  induction c generalizing pre with
  | nil => trivial
  | leaf name file rest ih =>
    obtain ⟨⟨cipher, henc, hblob⟩, hrest⟩ := h
    exact ⟨⟨cipher, henc, hext.objects _ _ hblob⟩, ih hrest⟩
  | node name sub rest ihsub ih =>
    obtain ⟨⟨es, hes, hrow⟩, hsub, hrest⟩ := h
    exact ⟨⟨es, hes, hext.trees _ _ hrow⟩, ihsub hsub, ih hrest⟩

theorem Holds.mono {t t' : TreeStore} (hext : t.Extends t') {root : Hash} {c : Children}
    (h : Holds hashOf encrypt refName t root c) : Holds hashOf encrypt refName t' root c := by
  obtain ⟨es, hes, hroot, hrow, hdir⟩ := h
  exact ⟨es, hes, hroot, hext.trees _ _ hrow, hdir.mono hext⟩

theorem Holds.rootHash {t : TreeStore} {root : Hash} {c : Children}
    (h : Holds hashOf encrypt refName t root c) :
    rootHashOf hashOf encrypt refName c = .ok root := by
  obtain ⟨es, hes, rfl, -, -⟩ := h
  simp only [rootHashOf, hes]

/-! ### Building -/

/-- Putting a blob. -/
theorem put_spec (hinj : Function.Injective hashOf) {t : TreeStore} (ht : t.Sound hashOf)
    (cipher : Bytes) :
    let t' : TreeStore := { t with objects := (t.objects.put hashOf cipher).1 }
    t'.Sound hashOf ∧ t.Extends t' ∧ t'.objects.lookup (hashOf cipher) = some cipher := by
  intro t'
  have hext : t.Extends t' :=
    ⟨fun _ _ h => h, fun _ _ h => ObjectStore.lookup_put_of_mem hashOf h cipher⟩
  refine ⟨⟨ht.trees, ObjectStore.sound_put hashOf ht.objects cipher, fun h es hes e he =>
    (ht.closed h es hes e he).mono hext⟩, hext, ?_⟩
  rw [ObjectStore.lookup_put]
  split_ifs with hnew
  · rfl
  · have hmem : hashOf cipher ∈ t.objects := not_not.mp fun hnot => hnew ⟨rfl, hnot⟩
    obtain ⟨bytes, hbytes⟩ := Option.isSome_iff_exists.mp (AList.lookup_isSome.mpr hmem)
    rw [hbytes, hinj (ht.objects _ _ hbytes)]

/-- Finishing a directory whose entries are stored. -/
theorem finishNode_spec (hinj : Function.Injective hashOf) {t : TreeStore} (ht : t.Sound hashOf)
    {entries : List TreeEntryRow} (hsorted : SortedByName entries)
    (hstored : ∀ e ∈ entries, t.EntryStored e) :
    (finishNode hashOf t entries).1.Sound hashOf ∧ t.Extends (finishNode hashOf t entries).1 ∧
      (finishNode hashOf t entries).1.trees.lookup (treeHash hashOf entries) = some entries := by
  simp only [finishNode, insertionSort_of_sortedByName hsorted]
  split_ifs with hmem
  · refine ⟨ht, .refl t, ?_⟩
    obtain ⟨es, hes⟩ := Option.isSome_iff_exists.mp (AList.lookup_isSome.mpr hmem)
    rw [hes, treeHash_injective hinj (ht.trees _ _ hes).1]
  · have hext : t.Extends { t with trees := t.trees.insert (treeHash hashOf entries) entries } := by
      refine ⟨fun h es hes => ?_, fun _ _ h => h⟩
      have hne : h ≠ treeHash hashOf entries := by
        rintro rfl
        exact hmem (AList.lookup_isSome.mp (by rw [hes]; rfl))
      rw [AList.lookup_insert_ne hne, hes]
    refine ⟨⟨fun h es hes => ?_, ht.objects, fun h es hes e he => ?_⟩, hext, AList.lookup_insert _⟩
    · by_cases heq : h = treeHash hashOf entries
      · subst heq
        rw [AList.lookup_insert] at hes
        cases hes
        exact ⟨rfl, hsorted⟩
      · rw [AList.lookup_insert_ne heq] at hes
        exact ht.trees h es hes
    · by_cases heq : h = treeHash hashOf entries
      · subst heq
        rw [AList.lookup_insert] at hes
        cases hes
        exact (hstored e he).mono hext
      · rw [AList.lookup_insert_ne heq] at hes
        exact (ht.closed h es hes e he).mono hext

variable (encrypt refName) in
/-- **A build** keeps the store sound, only adds to it, and where it succeeds
holds its directory. -/
theorem buildEntries_spec (hinj : Function.Injective hashOf) {c : Children} (hc : c.Sorted)
    (pre : String) {t : TreeStore} (ht : t.Sound hashOf) :
    let r := buildEntries hashOf encrypt refName c pre t
    r.1.Sound hashOf ∧ t.Extends r.1 ∧ ∀ entries, r.2 = .ok entries →
      HoldsDir hashOf encrypt refName r.1 c pre ∧ ∀ e ∈ entries, r.1.EntryStored e := by
  induction c generalizing pre t with
  | nil =>
    refine ⟨ht, .refl t, fun entries h => ?_⟩
    cases h
    exact ⟨trivial, fun e he => absurd he List.not_mem_nil⟩
  | leaf name file rest ih =>
    simp only [buildEntries]
    cases henc : encrypt refName (childPath pre name) file.content with
    | error e => exact ⟨ht, .refl t, fun _ h => by cases h⟩
    | ok cipher =>
      obtain ⟨hput, hextput, hblob⟩ := put_spec hinj ht cipher
      obtain ⟨hsound, hext, hok⟩ := ih hc.2 pre hput
      dsimp only
      rcases hbuild : buildEntries hashOf encrypt refName rest pre
        { t with objects := (t.objects.put hashOf cipher).1 } with ⟨t', e | entries⟩
      · rw [hbuild] at hsound hext
        exact ⟨hsound, hextput.trans hext, fun _ h => by cases h⟩
      · rw [hbuild] at hsound hext hok
        refine ⟨hsound, hextput.trans hext, fun all hall => ?_⟩
        cases hall
        obtain ⟨hdir, hstored⟩ := hok entries rfl
        have hthere := hext.objects _ _ hblob
        refine ⟨⟨⟨cipher, henc, hthere⟩, hdir⟩, fun e he => ?_⟩
        rcases List.mem_cons.mp he with rfl | he
        · simp only [TreeStore.EntryStored, ObjectStore.put_hash]
          exact AList.lookup_isSome.mp (by rw [hthere]; rfl)
        · exact hstored e he
  | node name sub rest ihsub ih =>
    simp only [buildEntries]
    obtain ⟨hsoundsub, hextsub, hoksub⟩ := ihsub hc.2.1 (childPath pre name) ht
    have hentries := buildEntries_eq_entriesOf hashOf encrypt refName hc.2.1 (childPath pre name) t
    rcases hbuildsub : buildEntries hashOf encrypt refName sub (childPath pre name) t
      with ⟨t₁, e | subEntries⟩
    · rw [hbuildsub] at hsoundsub hextsub
      exact ⟨hsoundsub, hextsub, fun _ h => by cases h⟩
    · rw [hbuildsub] at hsoundsub hextsub hoksub hentries
      obtain ⟨hdirsub, hstoredsub⟩ := hoksub subEntries rfl
      have hsorted := entriesOf_sorted hc.2.1 hentries.symm
      obtain ⟨hfin, hextfin, hrow⟩ := finishNode_spec hinj hsoundsub hsorted hstoredsub
      obtain ⟨hsound, hext, hok⟩ := ih hc.2.2 pre hfin
      simp only [finishNode_hash hsorted]
      rcases hbuild : buildEntries hashOf encrypt refName rest pre
        (finishNode hashOf t₁ subEntries).1 with ⟨t₂, e | entries⟩
      · rw [hbuild] at hsound hext
        exact ⟨hsound, hextsub.trans (hextfin.trans hext), fun _ h => by cases h⟩
      · rw [hbuild] at hsound hext hok
        refine ⟨hsound, hextsub.trans (hextfin.trans hext), fun all hall => ?_⟩
        cases hall
        obtain ⟨hdir, hstored⟩ := hok entries rfl
        have hthere := hext.trees _ _ hrow
        refine ⟨⟨⟨subEntries, hentries.symm, hthere⟩, hdirsub.mono (hextfin.trans hext), hdir⟩,
          fun e he => ?_⟩
        rcases List.mem_cons.mp he with rfl | he
        · exact AList.lookup_isSome.mp (by rw [hthere]; rfl)
        · exact hstored e he

variable (encrypt refName) in
/-- A whole build over an object store: what it leaves on disk, and where it
succeeds a blueprint that holds the snapshot. -/
theorem buildWith_spec (hinj : Function.Injective hashOf) {root : Children} (hroot : root.Sorted)
    {objects : ObjectStore} (hobjects : objects.Sound hashOf) :
    let r := buildWith hashOf encrypt refName objects root
    r.1.Sound hashOf ∧ (∀ h bytes, objects.lookup h = some bytes → r.1.lookup h = some bytes) ∧
      ∀ bp, r.2 = .ok bp → TreeStore.Sound hashOf ⟨bp.trees, r.1⟩ ∧
        Holds hashOf encrypt refName ⟨bp.trees, r.1⟩ bp.root root := by
  have hstart : TreeStore.Sound hashOf ⟨∅, objects⟩ :=
    ⟨fun _ _ h => by simp at h, hobjects, fun _ _ h => by simp at h⟩
  obtain ⟨hsound, hext, hok⟩ := buildEntries_spec encrypt refName hinj hroot "" hstart
  have hentries := buildEntries_eq_entriesOf hashOf encrypt refName hroot "" ⟨∅, objects⟩
  simp only [buildWith, buildNode]
  rcases hbuild : buildEntries hashOf encrypt refName root "" ⟨∅, objects⟩
    with ⟨t, e | entries⟩
  · rw [hbuild] at hsound hext
    exact ⟨hsound.objects, hext.objects, nofun⟩
  · rw [hbuild] at hsound hext hok hentries
    obtain ⟨hdir, hstored⟩ := hok entries rfl
    have hsorted := entriesOf_sorted hroot hentries.symm
    obtain ⟨hfin, hextfin, hrow⟩ := finishNode_spec hinj hsound hsorted hstored
    refine ⟨hfin.objects, fun h bytes hb => hextfin.objects _ _ (hext.objects _ _ hb),
      fun bp hbp => ?_⟩
    cases hbp
    refine ⟨hfin, entries, hentries.symm, ?_, ?_, hdir.mono hextfin⟩
    · rw [finishNode_hash hsorted]
    · rw [finishNode_hash hsorted]
      exact hrow

/-! ### Writing tree rows into the database -/

theorem putTree_sound (hinj : Function.Injective hashOf) {db : Db}
    (hdb : TreeStore.TreesSound hashOf db.trees) {h : Hash} {es : List TreeEntryRow}
    (hhash : treeHash hashOf es = h) (hsorted : SortedByName es) (g : Hash) :
    (putTree db h es).trees.lookup g = if g = h then some es else db.trees.lookup g := by
  rw [lookup_putTree]
  split_ifs with heq
  · cases hold : db.trees.lookup h with
    | none => rw [Option.getD_none, upsertEntries_nil hsorted]
    | some old =>
      have : old = es := treeHash_injective hinj ((hdb h old hold).1.trans hhash.symm)
      rw [this, Option.getD_some, upsertEntries_self hsorted fun e he => he]
  · rfl

/-- Writing rows named by their hash keeps every row and adds these. -/
theorem putTrees_sound (hinj : Function.Injective hashOf) {db : Db}
    (hdb : TreeStore.TreesSound hashOf db.trees) {ts : List (Hash × List TreeEntryRow)}
    (hts : ∀ t ∈ ts, treeHash hashOf t.2 = t.1 ∧ SortedByName t.2) :
    TreeStore.TreesSound hashOf (putTrees db ts).trees ∧
      (∀ h es, db.trees.lookup h = some es → (putTrees db ts).trees.lookup h = some es) ∧
      (∀ t ∈ ts, (putTrees db ts).trees.lookup t.1 = some t.2) ∧
      ∀ h es, (putTrees db ts).trees.lookup h = some es →
        db.trees.lookup h = some es ∨ (h, es) ∈ ts := by
  induction ts generalizing db with
  | nil => exact ⟨hdb, fun _ _ h => h, nofun, fun _ _ h => .inl h⟩
  | cons t ts ih =>
    obtain ⟨hhash, hsorted⟩ := hts t List.mem_cons_self
    have hput := putTree_sound hinj hdb hhash hsorted
    have hkeep : ∀ h es, db.trees.lookup h = some es →
        (putTree db t.1 t.2).trees.lookup h = some es := by
      intro h es hes
      rw [hput]
      split_ifs with heq
      · subst heq
        rw [treeHash_injective hinj ((hdb _ es hes).1.trans hhash.symm)]
      · exact hes
    have hnext : TreeStore.TreesSound hashOf (putTree db t.1 t.2).trees := by
      intro h es hes
      rw [hput] at hes
      split_ifs at hes with heq
      · cases hes
        exact ⟨hhash.trans heq.symm, hsorted⟩
      · exact hdb h es hes
    obtain ⟨hsound, hold, hnew, hback⟩ := ih hnext fun k hk => hts k (List.mem_cons_of_mem _ hk)
    refine ⟨hsound, fun h es hes => hold h es (hkeep h es hes), fun k hk => ?_, fun h es hes => ?_⟩
    · rcases List.mem_cons.mp hk with rfl | hk
      · refine hold _ _ ?_
        rw [hput, if_pos rfl]
      · exact hnew k hk
    · rcases hback h es hes with hes | hmem
      · rw [hput] at hes
        split_ifs at hes with heq
        · cases hes
          exact .inr (heq ▸ List.mem_cons_self)
        · exact .inl hes
      · exact .inr (List.mem_cons_of_mem _ hmem)

/-! ### Whole calls -/

/-- The trees and blobs of a garden. -/
def Store.held (store : Store) : TreeStore := ⟨store.db.trees, store.objects⟩

theorem mem_entries_map {trees : AList fun _ : Hash => List TreeEntryRow}
    {t : Hash × List TreeEntryRow} :
    t ∈ trees.entries.map (fun t => (t.1, t.2)) ↔ trees.lookup t.1 = some t.2 := by
  rw [List.mem_map, ← Option.mem_def, AList.mem_lookup_iff]
  constructor
  · rintro ⟨⟨h, es⟩, hmem, rfl⟩
    exact hmem
  · exact fun h => ⟨⟨t.1, t.2⟩, h, rfl⟩

/-- Adding a sound blueprint's rows to a sound store. -/
theorem putTrees_blueprint (hinj : Function.Injective hashOf) {store : Store}
    (hstore : store.held.Sound hashOf) {trees : AList fun _ : Hash => List TreeEntryRow}
    {objects : ObjectStore} (hbuilt : TreeStore.Sound hashOf ⟨trees, objects⟩)
    (hobjects : ∀ h bytes, store.objects.lookup h = some bytes → objects.lookup h = some bytes) :
    let t' : TreeStore :=
      ⟨(putTrees store.db (trees.entries.map fun t => (t.1, t.2))).trees, objects⟩
    t'.Sound hashOf ∧ store.held.Extends t' ∧ TreeStore.Extends ⟨trees, objects⟩ t' := by
  intro t'
  have hts : ∀ t ∈ trees.entries.map (fun t => (t.1, t.2)),
      treeHash hashOf t.2 = t.1 ∧ SortedByName t.2 := fun t ht =>
    hbuilt.trees _ _ (mem_entries_map.mp ht)
  obtain ⟨hsound, hold, hnew, hback⟩ := putTrees_sound hinj hstore.trees hts
  have hext : store.held.Extends t' := ⟨hold, hobjects⟩
  have hext' : TreeStore.Extends ⟨trees, objects⟩ t' :=
    ⟨fun h es hes => hnew (h, es) (mem_entries_map.mpr hes), fun _ _ h => h⟩
  refine ⟨⟨hsound, hbuilt.objects, fun h es hes e he => ?_⟩, hext, hext'⟩
  rcases hback h es hes with hes | hmem
  · exact (hstore.closed h es hes e he).mono hext
  · exact (hbuilt.closed h es (mem_entries_map.mp hmem) e he).mono hext'

/-- Only the object directory grows. -/
theorem objects_grow {store : Store} (hstore : store.held.Sound hashOf) {objects : ObjectStore}
    (hobjects : objects.Sound hashOf)
    (hkeep : ∀ h bytes, store.objects.lookup h = some bytes → objects.lookup h = some bytes) :
    ({ store with objects } : Store).held.Sound hashOf ∧
      store.held.Extends ({ store with objects } : Store).held := by
  have hext : store.held.Extends ({ store with objects } : Store).held := ⟨fun _ _ h => h, hkeep⟩
  exact ⟨⟨hstore.trees, hobjects, fun h es hes e he => (hstore.closed h es hes e he).mono hext⟩,
    hext⟩

/-- **A commit call** keeps the store sound and only adds to it, whatever it
returns; the snapshot it reports committed is held. -/
theorem Call.write_held {prims : Primitives} (hinj : Function.Injective prims.hashOf) (call : Call)
    (parent : Option Hash) (now : Int) {store : Store} (hstore : store.held.Sound prims.hashOf) :
    let r := call.write prims parent now store
    r.1.held.Sound prims.hashOf ∧ store.held.Extends r.1.held ∧
      ∀ snapshot policy hash, call.request = .snapshot snapshot policy → r.2 = .ok ⟨hash, true⟩ →
        ∃ root, call.rootOf prims = .ok root ∧
          Holds prims.hashOf call.session.encryptor call.refName r.1.held root snapshot.root := by
  cases hrequest : call.request with
  | overTree rootTree =>
    have hcase := writeTx_cases prims call.session call.refName parent [] rootTree
      call.intent now .skip store.db
    simp only [Call.write, hrequest]
    refine ⟨?_, ?_, fun _ _ _ h => by cases h⟩ <;> unfold writeReauthorTx <;>
      generalize writeTx prims call.session call.refName parent [] rootTree call.intent now .skip
        store.db = written at hcase ⊢ <;> cases hcase
    · exact hstore
    · exact hstore
    · exact hstore
    · exact .refl _
    · exact .refl _
    · exact .refl _
  | snapshot snapshot policy =>
    have hbefore : store.objects.Sound prims.hashOf := hstore.objects
    obtain ⟨hobjects, hkeep, hok⟩ := buildWith_spec call.session.encryptor call.refName hinj
      snapshot.sorted hbefore
    obtain ⟨hgrown, hextgrown⟩ := objects_grow hstore hobjects hkeep
    have hroot := buildWith_root prims.hashOf call.session.encryptor call.refName store.objects
      snapshot.sorted
    simp only [Call.write, Call.rootOf, hrequest]
    rcases hbuild : buildWith prims.hashOf call.session.encryptor call.refName store.objects
      snapshot.root with ⟨objects, e | bp⟩
    · rw [hbuild] at hgrown hextgrown
      exact ⟨hgrown, hextgrown, fun _ _ _ _ h => by cases h⟩
    · rw [hbuild] at hgrown hextgrown hok hroot hkeep
      obtain ⟨hbuilt, hheld⟩ := hok bp rfl
      obtain ⟨hput, hextput, hextbuilt⟩ := putTrees_blueprint hinj hstore hbuilt hkeep
      have hcase := writeTx_cases prims call.session call.refName parent
        (bp.trees.entries.map fun t => (t.1, t.2)) bp.root call.intent now policy store.db
      simp only [writeCommitTx]
      generalize writeTx prims call.session call.refName parent
        (bp.trees.entries.map fun t => (t.1, t.2)) bp.root call.intent now policy store.db =
        written at hcase ⊢
      cases hcase with
      | failed e => exact ⟨hgrown, hextgrown, fun _ _ _ _ h => by cases h⟩
      | noOp p hskip => exact ⟨hgrown, hextgrown, fun _ _ _ _ h => by cases h⟩
      | written row hrow hskip hnew hparent htip =>
        refine ⟨hput, hextput, fun s pol hash hs _ => ?_⟩
        cases hs
        exact ⟨bp.root, hroot.symm, hheld.mono hextbuilt⟩

end

end Softfig.Vcs
