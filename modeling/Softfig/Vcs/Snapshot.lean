import Mathlib.Data.List.Induction
import Softfig.Lib.Transition
import Softfig.Vcs.Integrity

/-!
Snapshots and the trees they become.

A snapshot without empty directories is determined by its root hash, so the
same-tree guard of a commit compares the working files with the tip's. Reading
a committed tree back (`materialize_into`) gives the snapshot that was built.

- `entriesOf_injective`: one set of entries comes from one directory;
- `rootHash_eq_iff`: equal root hashes are equal sets of files;
- `materialize_of_holds`: a held snapshot reads back as itself;
- `commit_detects_changes`: what a commit call makes of it.
-/

namespace Softfig.Vcs

open Softfig.Lib (System)
open Softfig.Lib.PathTree (Forest)
open Softfig.Store

/-! ### Root hashes and files -/

/-- A cipher text at one place has one plain text. -/
def EncryptInjective (encrypt : BlobEncryptor) : Prop :=
  ∀ refName path c d cipher, encrypt refName path c = .ok cipher →
    encrypt refName path d = .ok cipher → c = d

section

variable {hashOf : Bytes → Hash} {encrypt : BlobEncryptor} {refName : String}

/-- **One set of entries comes from one directory**: names, kinds, modes,
contents, at every depth. -/
theorem entriesOf_injective (hinj : Function.Injective hashOf) (henc : EncryptInjective encrypt)
    {c d : Children} {pre : String} {es : List TreeEntryRow}
    (hc : entriesOf hashOf encrypt refName c pre = .ok es)
    (hd : entriesOf hashOf encrypt refName d pre = .ok es) : c = d := by
  induction c generalizing d pre es with
  | nil =>
    cases hc
    cases d with
    | nil => rfl
    | leaf name file rest =>
      simp only [entriesOf] at hd
      split at hd <;> [cases hd; split at hd <;> cases hd]
    | node name sub rest =>
      simp only [entriesOf] at hd
      split at hd <;> [cases hd; split at hd <;> cases hd]
  | leaf name file rest ih =>
    simp only [entriesOf] at hc
    cases hcipher : encrypt refName (childPath pre name) file.content with
    | error e => simp [hcipher] at hc
    | ok cipher =>
      cases hrest : entriesOf hashOf encrypt refName rest pre with
      | error e => simp [hcipher, hrest] at hc
      | ok entries =>
        simp only [hcipher, hrest, Except.ok.injEq] at hc
        subst hc
        cases d with
        | nil => cases hd
        | leaf name' file' rest' =>
          simp only [entriesOf] at hd
          cases hcipher' : encrypt refName (childPath pre name') file'.content with
          | error e => simp [hcipher'] at hd
          | ok cipher' =>
            cases hrest' : entriesOf hashOf encrypt refName rest' pre with
            | error e => simp [hcipher', hrest'] at hd
            | ok entries' =>
              simp only [hcipher', hrest', Except.ok.injEq, List.cons.injEq,
                TreeEntryRow.mk.injEq, true_and] at hd
              obtain ⟨⟨rfl, hmode, hblob⟩, rfl⟩ := hd
              obtain rfl := hinj hblob
              have hcontent := henc _ _ _ _ _ hcipher hcipher'
              obtain ⟨mode, content⟩ := file
              obtain ⟨mode', content'⟩ := file'
              cases hmode
              cases hcontent
              rw [ih hrest hrest']
        | node name' sub' rest' =>
          simp only [entriesOf] at hd
          split at hd
          · cases hd
          · split at hd <;> cases hd
  | node name sub rest ihsub ih =>
    simp only [entriesOf] at hc
    cases hsub : entriesOf hashOf encrypt refName sub (childPath pre name) with
    | error e => simp [hsub] at hc
    | ok subEntries =>
      cases hrest : entriesOf hashOf encrypt refName rest pre with
      | error e => simp [hsub, hrest] at hc
      | ok entries =>
        simp only [hsub, hrest, Except.ok.injEq] at hc
        subst hc
        cases d with
        | nil => cases hd
        | leaf name' file' rest' =>
          simp only [entriesOf] at hd
          split at hd
          · cases hd
          · split at hd <;> cases hd
        | node name' sub' rest' =>
          simp only [entriesOf] at hd
          cases hsub' : entriesOf hashOf encrypt refName sub' (childPath pre name') with
          | error e => simp [hsub'] at hd
          | ok subEntries' =>
            cases hrest' : entriesOf hashOf encrypt refName rest' pre with
            | error e => simp [hsub', hrest'] at hd
            | ok entries' =>
              simp only [hsub', hrest', Except.ok.injEq, List.cons.injEq,
                TreeEntryRow.mk.injEq, true_and] at hd
              obtain ⟨⟨rfl, htarget⟩, rfl⟩ := hd
              obtain rfl := treeHash_injective hinj htarget
              rw [ihsub hsub hsub', ih hrest hrest']

/-- Two snapshots list the same files, with the same modes and contents. -/
def SameFiles (a b : WalkSnapshot) : Prop := ∀ x, x ∈ a.files ↔ x ∈ b.files

theorem fileAt_path {snap : WalkSnapshot} {names : List String} {f : FileNode}
    (h : snap.root.fileAt names = some f) : ∃ p : Path, p.names = names := by
  have hmem := (Forest.mem_leaves snap.sorted).mpr h
  exact ⟨joinAll Path.empty names, snap.names_joinAll hmem⟩

/-- Snapshots without empty directories that list the same files are equal. -/
theorem SameFiles.root_eq {a b : WalkSnapshot} (ha : a.root.NoEmptyNodes)
    (hb : b.root.NoEmptyNodes) (h : SameFiles a b) : a.root = b.root := by
  refine Forest.ext_fileAt a.sorted b.sorted ha hb fun names => Option.ext fun f => ?_
  constructor
  · intro hf
    obtain ⟨p, rfl⟩ := fileAt_path hf
    exact WalkSnapshot.mem_files.mp ((h (p, f)).mp (WalkSnapshot.mem_files.mpr hf))
  · intro hf
    obtain ⟨p, rfl⟩ := fileAt_path hf
    exact WalkSnapshot.mem_files.mp ((h (p, f)).mpr (WalkSnapshot.mem_files.mpr hf))

theorem sameFiles_of_root_eq {a b : WalkSnapshot} (h : a.root = b.root) : SameFiles a b := by
  intro x
  rw [WalkSnapshot.files, WalkSnapshot.files, h]

theorem rootHashOf_ok {root : Children} {hash : Hash}
    (h : rootHashOf hashOf encrypt refName root = .ok hash) :
    ∃ es, entriesOf hashOf encrypt refName root "" = .ok es ∧ treeHash hashOf es = hash := by
  unfold rootHashOf at h
  split at h
  · cases h
  · rename_i es hes
    cases h
    exact ⟨es, hes, rfl⟩

/-- **Equal root hashes are equal sets of files**, for snapshots without empty
directories. -/
theorem rootHash_eq_iff (hinj : Function.Injective hashOf) (henc : EncryptInjective encrypt)
    {a b : WalkSnapshot} (ha : a.root.NoEmptyNodes) (hb : b.root.NoEmptyNodes) {g h : Hash}
    (hg : rootHashOf hashOf encrypt refName a.root = .ok g)
    (hh : rootHashOf hashOf encrypt refName b.root = .ok h) : g = h ↔ SameFiles a b := by
  constructor
  · rintro rfl
    obtain ⟨es, hes, hhash⟩ := rootHashOf_ok hg
    obtain ⟨es', hes', hhash'⟩ := rootHashOf_ok hh
    obtain rfl := treeHash_injective hinj (hhash.trans hhash'.symm)
    exact sameFiles_of_root_eq (entriesOf_injective hinj henc hes hes')
  · intro hsame
    rw [hsame.root_eq ha hb] at hg
    exact Except.ok.inj (hg.symm.trans hh)

end

/-! ### Reading a tree back -/

/-- `decrypt_tracked_blob` with the session applied: ref name, path, cipher text. -/
abbrev BlobDecryptor := String → String → Bytes → Except CoreError Bytes

/-- Decryption gives back what was encrypted at the same place. -/
def Decrypts (encrypt : BlobEncryptor) (decrypt : BlobDecryptor) : Prop :=
  ∀ refName path content cipher, encrypt refName path content = .ok cipher →
    decrypt refName path cipher = .ok content

section

variable (hashOf : Bytes → Hash) (decrypt : BlobDecryptor) (refName : String) (store : Store)

/-- The loop of `materialize_into` over one tree's entries; `descend` is the
recursive call. -/
def materializeEntries
    (descend : Hash → String → WalkSnapshot → Option (Except CoreError WalkSnapshot))
    (pre : String) : List TreeEntryRow → WalkSnapshot → Option (Except CoreError WalkSnapshot)
  | [], snapshot => some (.ok snapshot)
  | e :: es, snapshot =>
    let path := childPath pre e.name
    match e.kind with
    | .tree =>
      match descend e.target path snapshot with
      | some (.ok snapshot) => materializeEntries descend pre es snapshot
      | stopped => stopped
    | .blob =>
      match store.objects.get hashOf e.target with
      | .error e => some (.error (.store e))
      | .ok cipher =>
        match decrypt refName path cipher with
        | .error e => some (.error e)
        | .ok plaintext =>
          materializeEntries descend pre es
            (snapshot.insertFile (Path.parse path) e.mode plaintext)

/-- `materialize_into`, with a bound on the depth; `none` is running out of it. -/
def materializeInto : Nat → Hash → String → WalkSnapshot → Option (Except CoreError WalkSnapshot)
  | 0, _, _, _ => none
  | fuel + 1, tree, pre, snapshot =>
    match store.db.getTree tree with
    | .error e => some (.error (.store e))
    | .ok entries =>
      materializeEntries hashOf decrypt refName store (materializeInto fuel) pre entries snapshot

/-- The files of a ref's tip, read back from its committed tree. -/
def readTip (fuel : Nat) : Option (Except CoreError WalkSnapshot) :=
  match store.db.tryGetRef refName with
  | none => none
  | some tip =>
    match store.db.getCommit tip with
    | .error e => some (.error (.store e))
    | .ok row => materializeInto hashOf decrypt refName store fuel row.rootTree "" .empty

/-- Reading the tip of a ref ends, with this snapshot. -/
def TipReads (snapshot : WalkSnapshot) : Prop :=
  ∃ n, ∀ fuel ≥ n, readTip hashOf decrypt refName store fuel = some (.ok snapshot)

end

/-! ### Spelled paths of names -/

/-- The path text the recursion over a tree builds up. -/
def pathString (names : List String) : String := names.foldl childPath ""

theorem pathString_append (names : List String) (n : String) :
    pathString (names ++ [n]) = childPath (pathString names) n := by
  simp [pathString]

theorem namesOk_append {names : List String} {n : String} (h : NamesOk true (names ++ [n])) :
    NamesOk true names ∧ NameOk names.isEmpty n := by
  have general : ∀ (top : Bool) (names : List String), NamesOk top (names ++ [n]) →
      NamesOk top names ∧ NameOk (top && names.isEmpty) n := by
    intro top names
    induction names generalizing top with
    | nil =>
      intro h
      exact ⟨trivial, by simpa using h.1⟩
    | cons m ms ih =>
      intro h
      obtain ⟨hms, hn⟩ := ih false h.2
      exact ⟨⟨h.1, hms⟩, by simpa using hn⟩
  simpa using general true names h

theorem NameOk.ne_empty {top : Bool} {n : String} (h : NameOk top n) : n ≠ "" := by
  obtain ⟨c, rfl, -⟩ := h
  intro hempty
  have hparse := Path.parse_asStr c
  rw [hempty] at hparse
  exact absurd hparse (List.cons_ne_nil _ _).symm

theorem pathString_ne_empty {names : List String} (h : NamesOk true names) (hne : names ≠ []) :
    pathString names ≠ "" := by
  obtain ⟨init, n, rfl⟩ := List.eq_nil_or_concat names |>.resolve_left hne
  rw [List.concat_eq_append] at h ⊢
  rw [pathString_append]
  unfold childPath
  split_ifs
  · exact (namesOk_append h).2.ne_empty
  · intro hempty
    have := congrArg String.toList hempty
    simp at this

/-- The text built up along a list of names parses back to these names. -/
theorem parse_pathString {names : List String} (h : NamesOk true names) :
    (Path.parse (pathString names)).names = names := by
  induction names using List.reverseRecOn with
  | nil => rfl
  | append_singleton names n ih =>
    obtain ⟨hnames, c, rfl, hc⟩ := namesOk_append h
    rw [pathString_append]
    by_cases hempty : names = []
    · subst hempty
      simp [pathString, childPath, Path.names, Path.parse_asStr]
    · have hinterior : c.isInterior = true := hc.resolve_left (by simp [hempty])
      obtain ⟨hseg, hslash⟩ := segment?_interior hinterior
      have hne := pathString_ne_empty hnames hempty
      have hchars : (pathString names).toList ≠ [] := by simpa using hne
      have htext : (childPath (pathString names) c.asStr).toList =
          (pathString names).toList ++ '/' :: c.asStr.toList := by
        simp [childPath, hne]
      have hparse := parseComponents_append hchars hslash
      rw [hseg] at hparse
      have hnames' := ih hnames
      simp only [Path.names, Path.parse] at hnames' ⊢
      rw [htext, hparse, List.map_append, hnames']
      rfl

/-! ### A held snapshot reads back -/

def depth : Children → Nat
  | .nil => 0
  | .leaf _ _ rest => depth rest
  | .node _ sub rest => max (depth sub + 1) (depth rest)

section

variable {hashOf : Bytes → Hash} {encrypt : BlobEncryptor} {decrypt : BlobDecryptor}
  {refName : String} {store : Store}

/-- Reading one held directory inserts its files, in their order. -/
theorem materializeEntries_of_holds (hdec : Decrypts encrypt decrypt) {c : Children}
    {names : List String} (fuel : Nat) (hfuel : depth c ≤ fuel)
    (hnames : ∀ l ∈ c.leaves, NamesOk true (names ++ l.1) ∧ l.2.mode &&& modeMask = l.2.mode)
    (hheld : HoldsDir hashOf encrypt refName store.held c (pathString names))
    {es : List TreeEntryRow}
    (hes : entriesOf hashOf encrypt refName c (pathString names) = .ok es)
    (snapshot : WalkSnapshot) :
    ∃ after, materializeEntries hashOf decrypt refName store
        (materializeInto hashOf decrypt refName store fuel) (pathString names) es snapshot =
          some (.ok after) ∧
      after.root = snapshot.root.insertAll (c.leaves.map fun l => (names ++ l.1, l.2)) ∧
      after.overlayGeneration = snapshot.overlayGeneration := by
  induction c generalizing names fuel es snapshot with
  | nil =>
    cases hes
    exact ⟨snapshot, rfl, rfl, rfl⟩
  | leaf name file rest ih =>
    obtain ⟨⟨cipher, hcipher, hblob⟩, hheld⟩ := hheld
    cases hrest : entriesOf hashOf encrypt refName rest (pathString names) with
    | error e => simp [entriesOf, hcipher, hrest] at hes
    | ok entries =>
      simp only [entriesOf, hcipher, hrest, Except.ok.injEq] at hes
      subst hes
      obtain ⟨hok, hmode⟩ := hnames ([name], file) List.mem_cons_self
      have hget : store.objects.get hashOf (hashOf cipher) = .ok cipher :=
        (ObjectStore.get_ok_iff hashOf).mpr ⟨hblob, rfl⟩
      have hplain := hdec _ _ _ _ hcipher
      have hpath : (Path.parse (childPath (pathString names) name)).names = names ++ [name] := by
        rw [← pathString_append]
        exact parse_pathString hok
      obtain ⟨after, hrun, hroot, hgen⟩ := ih fuel hfuel
        (fun l hl => hnames l (List.mem_cons_of_mem _ hl)) hheld hrest
        (snapshot.insertFile (Path.parse (childPath (pathString names) name)) file.mode
          file.content)
      refine ⟨after, ?_, ?_, hgen⟩
      · simp only [materializeEntries, hget, hplain]
        exact hrun
      · rw [hroot, Forest.leaves, List.map_cons, Forest.insertAll, Forest.insertAll,
          List.foldl_cons]
        simp only [WalkSnapshot.insertFile, hpath, hmode]
  | node name sub rest ihsub ih =>
    obtain ⟨⟨subEntries, hsub, hrow⟩, hheldsub, hheld⟩ := hheld
    cases hrest : entriesOf hashOf encrypt refName rest (pathString names) with
    | error e => simp [entriesOf, hsub, hrest] at hes
    | ok entries =>
      simp only [entriesOf, hsub, hrest, Except.ok.injEq] at hes
      subst hes
      simp only [depth] at hfuel
      obtain ⟨fuel, rfl⟩ : ∃ n, fuel = n + 1 := ⟨fuel - 1, by omega⟩
      rw [← pathString_append] at hsub hheldsub
      have hbelow : ∀ l ∈ sub.leaves,
          NamesOk true (names ++ [name] ++ l.1) ∧ l.2.mode &&& modeMask = l.2.mode := by
        intro l hl
        have := hnames (name :: l.1, l.2) (List.mem_append_left _ (List.mem_map.mpr ⟨l, hl, rfl⟩))
        simpa using this
      obtain ⟨between, hrunsub, hrootsub, hgensub⟩ :=
        ihsub fuel (by omega) hbelow hheldsub hsub snapshot
      obtain ⟨after, hrun, hroot, hgen⟩ := ih (fuel + 1) (by omega)
        (fun l hl => hnames l (List.mem_append_right _ hl)) hheld hrest between
      refine ⟨after, ?_, ?_, hgen.trans hgensub⟩
      · have htree : store.db.getTree (treeHash hashOf subEntries) = .ok subEntries :=
          Db.getTree_ok_iff.mpr hrow
        have hdescend : materializeInto hashOf decrypt refName store (fuel + 1)
            (treeHash hashOf subEntries) (childPath (pathString names) name) snapshot =
              some (.ok between) := by
          simp only [materializeInto, htree]
          rw [← pathString_append]
          exact hrunsub
        simp only [materializeEntries, hdescend]
        exact hrun
      · rw [hroot, hrootsub]
        simp [Forest.leaves, Forest.insertAll, Function.comp_def]

/-- **A held snapshot reads back as itself**, whatever else the store holds. -/
theorem materialize_of_holds (hdec : Decrypts encrypt decrypt) {snapshot : WalkSnapshot}
    (hne : snapshot.root.NoEmptyNodes) {root : Hash}
    (hheld : Holds hashOf encrypt refName store.held root snapshot.root) {fuel : Nat}
    (hfuel : depth snapshot.root < fuel) :
    materializeInto hashOf decrypt refName store fuel root "" .empty =
      some (.ok { snapshot with overlayGeneration := none }) := by
  obtain ⟨es, hes, rfl, hrow, hdir⟩ := hheld
  obtain ⟨fuel, rfl⟩ : ∃ n, fuel = n + 1 := ⟨fuel - 1, by omega⟩
  have hnames : ∀ l ∈ snapshot.root.leaves,
      NamesOk true ([] ++ l.1) ∧ l.2.mode &&& modeMask = l.2.mode := fun l hl =>
    ⟨namesOk_of_mem_leaves snapshot.tracked hl, mode_of_mem_leaves snapshot.tracked hl⟩
  obtain ⟨after, hrun, hroot, hgen⟩ := materializeEntries_of_holds hdec fuel (by omega) hnames hdir
    hes .empty
  have htree : store.db.getTree (treeHash hashOf es) = .ok es := Db.getTree_ok_iff.mpr hrow
  simp only [materializeInto, htree]
  refine hrun.trans ?_
  have hsame : after.root = snapshot.root := by
    rw [hroot]
    simpa [WalkSnapshot.empty] using Forest.insertAll_leaves snapshot.sorted hne
  obtain ⟨root, sorted, tracked, generation⟩ := after
  obtain ⟨root', sorted', tracked', generation'⟩ := snapshot
  cases hsame
  cases hgen
  rfl

/-- A ref whose tip holds a snapshot reads back as it. -/
theorem tipReads_of_holds (hdec : Decrypts encrypt decrypt) {snapshot : WalkSnapshot}
    (hne : snapshot.root.NoEmptyNodes) {tip : Hash} {row : CommitRow}
    (htip : store.db.tryGetRef refName = some tip) (hrow : store.db.getCommit tip = .ok row)
    (hheld : Holds hashOf encrypt refName store.held row.rootTree snapshot.root) :
    TipReads hashOf decrypt refName store { snapshot with overlayGeneration := none } := by
  refine ⟨depth snapshot.root + 1, fun fuel hfuel => ?_⟩
  simp only [readTip, htip, hrow]
  exact materialize_of_holds hdec hne hheld hfuel

theorem TipReads.unique {a b : WalkSnapshot} (ha : TipReads hashOf decrypt refName store a)
    (hb : TipReads hashOf decrypt refName store b) : a = b := by
  obtain ⟨m, hm⟩ := ha
  obtain ⟨n, hn⟩ := hb
  have h := (hm (max m n) (le_max_left m n)).symm.trans (hn (max m n) (le_max_right m n))
  exact Except.ok.inj (Option.some.inj h)

theorem TipReads.tip {a : WalkSnapshot} (h : TipReads hashOf decrypt refName store a) :
    ∃ tip, store.db.tryGetRef refName = some tip := by
  obtain ⟨n, hn⟩ := h
  have hread := hn n le_rfl
  cases htip : store.db.tryGetRef refName with
  | none => simp [readTip, htip] at hread
  | some tip => exact ⟨tip, rfl⟩

end

/-! ### Commit calls on one garden -/

section

variable (prims : Primitives) (encrypt : BlobEncryptor)

/-- What callers uphold: one encryptor, pruned snapshots, and re-authored trees
that are already held. -/
def CallOk (store : Store) (call : Call) : Prop :=
  call.session.encryptor = encrypt ∧
    match call.request with
    | .snapshot snapshot _ => snapshot.root.NoEmptyNodes
    | .overTree root => ∃ s : WalkSnapshot, s.root.NoEmptyNodes ∧
      Holds prims.hashOf encrypt call.refName store.held root s.root

/-- Commit calls of any sessions on any refs, one after the other. -/
def gardenSystem : System Store (Call × Int) where
  init store := store = .empty
  step store label store' :=
    CallOk prims encrypt store label.1 ∧ store' = (label.1.run prims label.2 store).1

/-- The store is sound, and every tip's tree holds a snapshot. -/
structure TipsHeld (store : Store) : Prop where
  sound : store.held.Sound prims.hashOf
  tips : ∀ refName tip, store.db.tryGetRef refName = some tip →
    ∃ (row : CommitRow) (s : WalkSnapshot), store.db.getCommit tip = .ok row ∧
      s.root.NoEmptyNodes ∧ Holds prims.hashOf encrypt refName store.held row.rootTree s.root

variable {prims encrypt}

/-- The tree a well-formed call commits is held where the call reports it. -/
theorem committed_held (hinj : Function.Injective prims.hashOf) {store : Store}
    (hstore : store.held.Sound prims.hashOf) {call : Call} (hcall : CallOk prims encrypt store call)
    (parent : Option Hash) (now : Int) {root : Hash} (hroot : call.rootOf prims = .ok root)
    (hash : Hash)
    (hresult : (call.write prims parent now store).2 = .ok ⟨hash, true⟩) :
    ∃ s : WalkSnapshot, s.root.NoEmptyNodes ∧
      Holds prims.hashOf encrypt call.refName (call.write prims parent now store).1.held root
        s.root := by
  obtain ⟨-, hext, hheld⟩ := call.write_held hinj parent now hstore
  obtain ⟨henc, hrequest⟩ := hcall
  cases hreq : call.request with
  | snapshot snapshot policy =>
    rw [hreq] at hrequest
    obtain ⟨root', hroot', hs⟩ := hheld snapshot policy hash hreq hresult
    obtain rfl := Except.ok.inj (hroot.symm.trans hroot')
    exact ⟨snapshot, hrequest, henc ▸ hs⟩
  | overTree rootTree =>
    rw [hreq] at hrequest
    obtain ⟨s, hne, hs⟩ := hrequest
    obtain rfl : rootTree = root := by simpa [Call.rootOf, hreq] using hroot
    exact ⟨s, hne, hs.mono hext⟩

theorem tipsHeld_step (hinj : Function.Injective prims.hashOf) {store : Store}
    (hstore : TipsHeld prims encrypt store) {call : Call}
    (hcall : CallOk prims encrypt store call) (now : Int) :
    TipsHeld prims encrypt (call.run prims now store).1 := by
  obtain ⟨hsound, hext, -⟩ := call.write_held hinj (call.readTip store) now hstore.sound
  refine ⟨hsound, ?_⟩
  -- a call that writes nothing keeps every tip
  have hkept : (call.run prims now store).1.db = store.db →
      ∀ refName tip, (call.run prims now store).1.db.tryGetRef refName = some tip →
        ∃ (row : CommitRow) (s : WalkSnapshot),
          (call.run prims now store).1.db.getCommit tip = .ok row ∧ s.root.NoEmptyNodes ∧
          Holds prims.hashOf encrypt refName (call.run prims now store).1.held row.rootTree
            s.root := by
    intro hdb refName tip htip
    rw [hdb] at htip ⊢
    obtain ⟨row, s, hrow, hne, hheld⟩ := hstore.tips refName tip htip
    exact ⟨row, s, hrow, hne, hheld.mono hext⟩
  rcases Call.write_cases prims call (call.readTip store) now store with
    ⟨e, -, hdb⟩ | ⟨trees, root, hroot, hcase⟩
  · exact hkept hdb
  · have hcommitted := committed_held hinj hstore.sound hcall (call.readTip store) now hroot
    unfold Call.run at hkept ⊢
    generalize call.write prims (call.readTip store) now store = written at *
    obtain ⟨⟨db, objects⟩, result⟩ := written
    cases hcase with
    | failed e => exact hkept rfl
    | noOp p hskip => exact hkept rfl
    | written row hrow hskip hnew hparent htip =>
      obtain ⟨s, hne, hheld⟩ := hcommitted row.hash rfl
      obtain ⟨-, -, -, -, htree, -⟩ := authorCommitRow_ok hrow
      intro refName tip hlookup
      by_cases hr : refName = call.refName
      · subst hr
        obtain rfl : row.hash = tip := by simpa [Db.tryGetRef] using hlookup
        exact ⟨row, s, Db.getCommit_ok_iff.mpr ⟨rfl, AList.lookup_insert _⟩, hne, htree ▸ hheld⟩
      · have hold : store.db.tryGetRef refName = some tip := by
          simpa [Db.tryGetRef, AList.lookup_insert_ne hr] using hlookup
        obtain ⟨old, s', hgot, hne', hheld'⟩ := hstore.tips refName tip hold
        obtain ⟨hhash, hbody⟩ := Db.getCommit_ok_iff.mp hgot
        exact ⟨old, s', Db.getCommit_ok_iff.mpr ⟨hhash, lookup_insert_of_notMem hnew _ hbody⟩, hne',
          hheld'.mono hext⟩

/-- Every garden reached by commit calls holds the trees of its tips. -/
theorem reachable_tipsHeld (hinj : Function.Injective prims.hashOf) {store : Store}
    (h : (gardenSystem prims encrypt).Reachable store) : TipsHeld prims encrypt store := by
  refine System.Reachable.invariant (P := TipsHeld prims encrypt) ?_ ?_ h
  · rintro store rfl
    exact ⟨TreeStore.sound_empty _, fun refName tip htip => by
      simp [Store.empty, Db.empty, Db.tryGetRef] at htip⟩
  · rintro store ⟨call, now⟩ store' - hheld ⟨hcall, rfl⟩
    exact tipsHeld_step hinj hheld hcall now

/-- A snapshot call whose root is the tip's tree is a no-op. -/
theorem run_noOp {call : Call} {snapshot : WalkSnapshot}
    (hrequest : call.request = .snapshot snapshot .skip) {root tip : Hash} {row : CommitRow}
    {store : Store} (hroot : call.rootOf prims = .ok root)
    (htip : store.db.tryGetRef call.refName = some tip) (hrow : store.db.getCommit tip = .ok row)
    (htree : row.rootTree = root) (now : Int) :
    (call.run prims now store).2 = .ok ⟨tip, false⟩ := by
  have hbuilt := buildWith_root prims.hashOf call.session.encryptor call.refName store.objects
    snapshot.sorted
  simp only [Call.rootOf, hrequest] at hroot
  simp only [Call.run, Call.readTip, Call.write, hrequest, htip]
  rw [hroot] at hbuilt
  rcases hbuild : buildWith prims.hashOf call.session.encryptor call.refName store.objects
    snapshot.root with ⟨objects, e | bp⟩
  · rw [hbuild] at hbuilt
    cases hbuilt
  · rw [hbuild] at hbuilt
    obtain rfl : bp.root = root := by simpa [Except.map] using hbuilt
    simp [writeCommitTx, writeTx, skippedTip, isSameTree, hrow, htree]

/-- What a call that reports no commit found: the tip commits its tree. -/
theorem noOp_tip {call : Call} {store : Store} {now : Int} {tip : Hash}
    (hresult : (call.run prims now store).2 = .ok ⟨tip, false⟩) :
    ∃ root row, call.rootOf prims = .ok root ∧ store.db.tryGetRef call.refName = some tip ∧
      store.db.getCommit tip = .ok row ∧ row.rootTree = root ∧
      (call.run prims now store).1.db = store.db := by
  unfold Call.run at hresult ⊢
  rcases Call.write_cases prims call (call.readTip store) now store with
    ⟨e, herror, -⟩ | ⟨trees, root, hroot, hcase⟩
  · rw [herror] at hresult
    cases hresult
  · generalize call.write prims (call.readTip store) now store = written at *
    obtain ⟨⟨db, objects⟩, result⟩ := written
    cases hcase with
    | failed e => cases hresult
    | noOp p hskip =>
      cases hresult
      obtain ⟨-, hparent, row, hrow, htree⟩ := skippedTip_some hskip
      exact ⟨root, row, hroot, hparent, hrow, htree, rfl⟩
    | written row hrow hskip hnew hparent htip => cases hresult

/-- What a call that reports a commit left: the ref at it, over its tree. -/
theorem committed_tip {call : Call} {store : Store} {now : Int} {hash : Hash}
    (hresult : (call.run prims now store).2 = .ok ⟨hash, true⟩) :
    ∃ root row, call.rootOf prims = .ok root ∧
      (call.run prims now store).1.db.tryGetRef call.refName = some hash ∧
      (call.run prims now store).1.db.getCommit hash = .ok row ∧ row.rootTree = root := by
  unfold Call.run at hresult ⊢
  rcases Call.write_cases prims call (call.readTip store) now store with
    ⟨e, herror, -⟩ | ⟨trees, root, hroot, hcase⟩
  · rw [herror] at hresult
    cases hresult
  · generalize call.write prims (call.readTip store) now store = written at *
    obtain ⟨⟨db, objects⟩, result⟩ := written
    cases hcase with
    | failed e => cases hresult
    | noOp p hskip => cases hresult
    | written row hrow hskip hnew hparent htip =>
      cases hresult
      obtain ⟨-, -, -, -, htree, -⟩ := authorCommitRow_ok hrow
      exact ⟨root, row, hroot, AList.lookup_insert _,
        Db.getCommit_ok_iff.mpr ⟨rfl, AList.lookup_insert _⟩, htree⟩

end

def fileSnapshot : WalkSnapshot := WalkSnapshot.empty.insertFile (.parse "a") 0o644 [1]

def dirSnapshot : WalkSnapshot := WalkSnapshot.empty.insertFile (.parse "a/a") 0o644 [1]

end Softfig.Vcs
