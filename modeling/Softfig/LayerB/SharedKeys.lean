import Softfig.LayerB.Routing
import Softfig.Lib.Except
import Softfig.Lib.Transition
import Softfig.Vault.Storage

/-!
Which key a commit to a shared chain seals under, and what two members of the chain make of each
other's commits.

The encrypt router is primed from the committed membership in separate steps: the registry is
loaded, its keys are written, then the set of keyed refs. A commit seals file by file, each under
what the router then says. Encryption is ideal: a blob is told by its container, its key, the path
its subkey is bound to and what it holds.

- `neverUnderMaster`: in no run is a file of a shared ref sealed under a device's own key;
- `sealedByRow`: where the router is primed from the row, a file is sealed under the row's key;
- `entriesOf_eq_iff`: two commits of the same files have one tree exactly where they seal each file
  alike;
- `Commits.agree_iff`: when two members open each other's blobs and commit the same tree.
-/

namespace Softfig.LayerB.SharedKeys

open Softfig.Lib
open Softfig.Store (Bytes Hash)
open Softfig.Store (TreeEntryRow)
open Softfig.Vcs (BlobEncryptor Children CoreError FileNode childPath entriesOf rootHashOf tipRef
  treeHash)

/-! ### The router -/

/-- A shared chain of the registry, as the router reads it. -/
structure SharedRow where
  refName : String
  keyId : Option String
  mountPath : Option String
  deriving DecidableEq

/-- `shared_keys` and `keyed_committed_refs` of the hook. -/
structure KeyCaches where
  sharedKeys : String → Option (String × String)
  keyedCommittedRefs : String → Bool

def withSlashes (mount : String) : String :=
  String.ofList (mount.toList.map fun c => if c = '\\' then '/' else c)

/-- The keyed rows by ref; a later row of a ref replaces an earlier one. -/
def sharedKeyMap (rows : List SharedRow) (refName : String) : Option (String × String) :=
  (rows.filterMap fun row => row.keyId.map fun keyId =>
    (row.refName, keyId, ((row.mountPath.map withSlashes).getD ""))).reverse.lookup refName

/-! ### Ideal encryption -/

/-- The keys of a device's vault: its own, and the shared ones by id. -/
structure VaultKeys (κ : Type) where
  master : κ
  shared : String → Option κ

/-- A sealed file by its container: under the device's key, or under a shared one. -/
inductive SealedBlob (κ : Type) where
  | layerA (m : κ) (content : Bytes)
  | layerB (m : κ) (path : String) (content : Bytes)
  | sharedBlob (keyId : String) (s : κ) (content : Bytes)
  | sharedLayerB (keyId : String) (s : κ) (path : String) (content : Bytes)
  deriving DecidableEq

def SealedBlob.underMaster {κ : Type} : SealedBlob κ → Bool
  | .layerA .. => true
  | .layerB .. => true
  | .sharedBlob .. => false
  | .sharedLayerB .. => false

inductive SealRefusal where
  | regionRewrite (path : String)
  | routerStale (refName : String)
  | unkeyed (refName : String)
  | sharedKeyUnavailable (keyId : String)
  | regions (path : String)
  | malformedTag (path : String)
  deriving DecidableEq

/-- A device: its keys, its region cipher and its sealed globs. -/
structure Member (κ : Type) where
  vault : VaultKeys κ
  region : RegionCipher
  isSealed : String → Bool

namespace Member

variable {κ : Type} (member : Member κ) (caches : KeyCaches)

/-- `encrypt`, under the device's key. -/
def encrypt (path : String) (prior : Option Bytes) (content : Bytes) :
    Except SealRefusal (SealedBlob κ) :=
  if member.isSealed path then .ok (.layerB member.vault.master path content)
  else
    match sealFile member.region path (parserFor path) prior content with
    | .ok post => .ok (.layerA member.vault.master post)
    | .error _ => .error (.regionRewrite path)

def loadSharedKey (keyId : String) : Except SealRefusal κ :=
  match member.vault.shared keyId with
  | some s => .ok s
  | none => .error (.sharedKeyUnavailable keyId)

/-- `encrypt_for_ref`: the path is relative to the chain. -/
def encryptForRef (refName path : String) (prior : Option Bytes) (content : Bytes) :
    Except SealRefusal (SealedBlob κ) :=
  if refName = tipRef then member.encrypt path prior content
  else
    match caches.sharedKeys refName with
    | none =>
      if caches.keyedCommittedRefs refName then .error (.routerStale refName)
      else .error (.unkeyed refName)
    | some (keyId, mount) =>
      let path := gardenPath mount path
      if member.isSealed path then do
        let s ← member.loadSharedKey keyId
        return .sharedLayerB keyId s path content
      else
        match parse member.region path (parserFor path) content with
        | .ok [] => do
          let s ← member.loadSharedKey keyId
          return .sharedBlob keyId s content
        | .ok _ => .error (.regions path)
        | .error _ => .error (.malformedTag path)

/-- `decrypt_tracked_blob`: a blob names its container and its key id. -/
def decryptTrackedBlob [DecidableEq κ] (path : String) : SealedBlob κ → Option Bytes
  | .layerA m content => if m = member.vault.master then some content else none
  | .layerB m salt content =>
      if m = member.vault.master ∧ salt = path then some content else none
  | .sharedBlob keyId s content =>
      if member.vault.shared keyId = some s then some content else none
  | .sharedLayerB keyId s salt content =>
      if member.vault.shared keyId = some s ∧ salt = path then some content else none

variable {member caches}

/-- What a file of a keyed shared ref is sealed as. -/
def sharedSeal (member : Member κ) (keyId mount : String) (s : κ) (path : String)
    (content : Bytes) : SealedBlob κ :=
  if member.isSealed (gardenPath mount path) then
    .sharedLayerB keyId s (gardenPath mount path) content
  else .sharedBlob keyId s content

/-- **A file of a shared ref** is sealed under the key that the router has for the ref. -/
theorem encryptForRef_shared {refName path : String} {prior : Option Bytes} {content : Bytes}
    {blob : SealedBlob κ} (href : refName ≠ tipRef)
    (h : member.encryptForRef caches refName path prior content = .ok blob) :
    ∃ keyId mount s, caches.sharedKeys refName = some (keyId, mount) ∧
      member.vault.shared keyId = some s ∧ blob = member.sharedSeal keyId mount s path content := by
  have hload : ∀ {keyId : String} {s : κ}, member.loadSharedKey keyId = .ok s →
      member.vault.shared keyId = some s := by
    intro keyId s hs
    unfold loadSharedKey at hs
    split at hs
    · rename_i s' hkey
      rw [hkey, Except.ok.inj hs]
    · cases hs
  rw [encryptForRef, if_neg href] at h
  split at h
  · split at h <;> cases h
  · rename_i keyId mount hcache
    dsimp only at h
    split at h
    · rename_i hglob
      obtain ⟨s, hs, hblob⟩ := bind_ok_iff.mp h
      refine ⟨keyId, mount, s, hcache, hload hs, ?_⟩
      rw [sharedSeal, if_pos hglob]
      exact (Except.ok.inj hblob).symm
    · rename_i hglob
      split at h
      · obtain ⟨s, hs, hblob⟩ := bind_ok_iff.mp h
        refine ⟨keyId, mount, s, hcache, hload hs, ?_⟩
        rw [sharedSeal, if_neg hglob]
        exact (Except.ok.inj hblob).symm
      · cases h
      · cases h

theorem underMaster_sharedSeal (keyId mount : String) (s : κ) (path : String) (content : Bytes) :
    (member.sharedSeal keyId mount s path content).underMaster = false := by
  unfold sharedSeal
  split <;> rfl

end Member

/-! ### Runs -/

/-- A file that a commit sealed or was refused, with the committed row of its ref. -/
structure SealRecord (κ : Type) where
  refName : String
  path : String
  content : Bytes
  row : Option (String × String)
  outcome : Except SealRefusal (SealedBlob κ)

/-- The committed membership, the caches, the registries that are loaded and those whose keys are
written and whose refs are not, the device, and what its commits sealed. -/
structure RouterState (κ : Type) where
  membership : List SharedRow
  caches : KeyCaches
  loaded : List (List SharedRow)
  half : List (List SharedRow)
  member : Member κ
  records : List (SealRecord κ)

inductive RouterEvent (κ : Type) where
  /-- A commit of the device chain changes the membership. -/
  | commitMembership (rows : List SharedRow)
  /-- `load_chain_registry` -/
  | load
  /-- The first write of `set_shared_chain_keys`. -/
  | primeKeys (i : Nat)
  /-- Its second write. -/
  | primeRefs (i : Nat)
  /-- `store_shared_key` -/
  | storeKey (keyId : String) (s : κ)
  | setGlobs (isSealed : String → Bool)
  /-- The next file of a commit to a ref. -/
  | sealFile (refName path : String) (prior : Option Bytes) (content : Bytes)

namespace RouterState

variable {κ : Type}

/-- A stored key stays what it is. -/
def storeKey (vault : VaultKeys κ) (keyId : String) (s : κ) : VaultKeys κ :=
  match vault.shared keyId with
  | some _ => vault
  | none => { vault with shared := Function.update vault.shared keyId (some s) }

def step (st : RouterState κ) : RouterEvent κ → Option (RouterState κ)
  | .commitMembership rows => some { st with membership := rows }
  | .load => some { st with loaded := st.membership :: st.loaded }
  | .primeKeys i =>
    (st.loaded[i]?).map fun rows =>
      { st with
        caches := { st.caches with sharedKeys := sharedKeyMap rows }
        loaded := st.loaded.eraseIdx i
        half := rows :: st.half }
  | .primeRefs i =>
    (st.half[i]?).map fun rows =>
      { st with
        caches := { st.caches with
          keyedCommittedRefs := fun refName => (sharedKeyMap rows refName).isSome }
        half := st.half.eraseIdx i }
  | .storeKey keyId s =>
    some { st with member := { st.member with vault := storeKey st.member.vault keyId s } }
  | .setGlobs isSealed => some { st with member := { st.member with isSealed := isSealed } }
  | .sealFile refName path prior content =>
    some { st with
      records := st.records ++ [{
        refName := refName
        path := path
        content := content
        row := sharedKeyMap st.membership refName
        outcome := st.member.encryptForRef st.caches refName path prior content }] }

/-- An unlock: nothing is primed and nothing is sealed. -/
def Fresh (st : RouterState κ) : Prop :=
  st.caches.sharedKeys = (fun _ => none) ∧ st.loaded = [] ∧ st.half = [] ∧ st.records = []

/-- No file of a shared ref is sealed under the device's own key. -/
def NeverUnderMaster (st : RouterState κ) : Prop :=
  ∀ record ∈ st.records, record.refName ≠ tipRef →
    ∀ blob, record.outcome = .ok blob → blob.underMaster = false

/-- Every file of a keyed shared ref is sealed under the key of its row or refused, and every file
of an unkeyed one is refused. -/
def SealedByRow (st : RouterState κ) : Prop :=
  ∀ record ∈ st.records, record.refName ≠ tipRef → ∀ blob, record.outcome = .ok blob →
    ∃ keyId mount s, record.row = some (keyId, mount) ∧ st.member.vault.shared keyId = some s ∧
      (blob = .sharedBlob keyId s record.content ∨
        blob = .sharedLayerB keyId s (gardenPath mount record.path) record.content)

/-- The router has the committed row of the ref that a file is sealed for. -/
def Primed (st : RouterState κ) : RouterEvent κ → Prop
  | .sealFile refName _ _ _ =>
      refName ≠ tipRef → st.caches.sharedKeys refName = sharedKeyMap st.membership refName
  | _ => True

end RouterState

def routerSystem (κ : Type) : System (RouterState κ) (RouterEvent κ) where
  init := RouterState.Fresh
  step st event st' := st.step event = some st'

section

variable {κ : Type} {st st' : RouterState κ} {event : RouterEvent κ}

/-- What a step does: it leaves the records and keeps the stored keys, or it seals a file. -/
theorem step_cases (h : st.step event = some st') :
    (st'.records = st.records ∧ ∀ keyId s, st.member.vault.shared keyId = some s →
      st'.member.vault.shared keyId = some s) ∨
    ∃ refName path prior content, event = .sealFile refName path prior content ∧
      st'.member = st.member ∧ st'.records = st.records ++ [{
        refName := refName
        path := path
        content := content
        row := sharedKeyMap st.membership refName
        outcome := st.member.encryptForRef st.caches refName path prior content }] := by
  cases event with
  | commitMembership rows =>
    cases h
    exact .inl ⟨rfl, fun _ _ hs => hs⟩
  | load =>
    cases h
    exact .inl ⟨rfl, fun _ _ hs => hs⟩
  | primeKeys i =>
    obtain ⟨rows, -, rfl⟩ := Option.map_eq_some_iff.mp h
    exact .inl ⟨rfl, fun _ _ hs => hs⟩
  | primeRefs i =>
    obtain ⟨rows, -, rfl⟩ := Option.map_eq_some_iff.mp h
    exact .inl ⟨rfl, fun _ _ hs => hs⟩
  | storeKey keyId s =>
    cases h
    refine .inl ⟨rfl, fun other t ht => ?_⟩
    dsimp only
    unfold RouterState.storeKey
    split
    · exact ht
    · rename_i hnone
      dsimp only
      rw [Function.update_of_ne, ht]
      rintro rfl
      rw [hnone] at ht
      cases ht
  | setGlobs isSealed =>
    cases h
    exact .inl ⟨rfl, fun _ _ hs => hs⟩
  | sealFile refName path prior content =>
    cases h
    exact .inr ⟨refName, path, prior, content, rfl, rfl, rfl⟩

/-- **No file of a shared ref is sealed under the device's key**, in any run. -/
theorem neverUnderMaster (h : (routerSystem κ).Reachable st) : st.NeverUnderMaster := by
  refine h.invariant ?_ ?_
  · rintro s ⟨-, -, -, hrecords⟩ record hrecord
    rw [hrecords] at hrecord
    cases hrecord
  · intro s event t _ hs hstep
    rcases step_cases hstep with ⟨hrecords, -⟩ | ⟨refName, path, prior, content, -, -, hrecords⟩
    · intro record hrecord
      exact hs record (hrecords ▸ hrecord)
    · intro record hrecord href blob hblob
      rw [hrecords] at hrecord
      rcases List.mem_append.mp hrecord with hmem | hmem
      · exact hs record hmem href blob hblob
      · obtain rfl := List.mem_singleton.mp hmem
        obtain ⟨keyId, mount, key, -, -, rfl⟩ := Member.encryptForRef_shared href hblob
        exact Member.underMaster_sharedSeal ..

/-- **A file of a shared ref is sealed under the key of its row**, where the router has that row. -/
theorem sealedByRow {s₀ : RouterState κ} {events : List (RouterEvent κ)}
    (hinit : (routerSystem κ).init s₀)
    (h : (routerSystem κ).Guarded RouterState.Primed s₀ events st) : st.SealedByRow := by
  induction h with
  | refl =>
    intro record hrecord
    rw [hinit.2.2.2] at hrecord
    cases hrecord
  | snoc _ hprimed hstep ih =>
    rcases step_cases hstep with
      ⟨hrecords, hkeys⟩ | ⟨refName, path, prior, content, rfl, hmember, hrecords⟩
    · intro record hrecord href blob hblob
      obtain ⟨keyId, mount, key, hrow, hkey, hcases⟩ :=
        ih record (hrecords ▸ hrecord) href blob hblob
      exact ⟨keyId, mount, key, hrow, hkeys keyId key hkey, hcases⟩
    · intro record hrecord href blob hblob
      rw [hrecords] at hrecord
      rw [hmember]
      rcases List.mem_append.mp hrecord with hmem | hmem
      · exact ih record hmem href blob hblob
      · obtain rfl := List.mem_singleton.mp hmem
        obtain ⟨keyId, mount, key, hcache, hkey, rfl⟩ := Member.encryptForRef_shared href hblob
        refine ⟨keyId, mount, key, (hprimed href).symm.trans hcache, hkey, ?_⟩
        unfold Member.sharedSeal
        split
        · exact .inr rfl
        · exact .inl rfl

end

/-! ### Two commits of the same files -/

/-- The files of a snapshot, each with the path its blob is sealed for. -/
def filesOf : Children → String → List (String × FileNode)
  | .nil, _ => []
  | .leaf name file rest, pre => (childPath pre name, file) :: filesOf rest pre
  | .node name sub rest, pre => filesOf sub (childPath pre name) ++ filesOf rest pre

section

variable {hashOf : Bytes → Hash} {encrypt encrypt' : BlobEncryptor} {refName : String}
  {files : Children} {pre : String} {entries entries' : List TreeEntryRow}

/-- A commit seals every file. -/
theorem sealed_of_entriesOf (h : entriesOf hashOf encrypt refName files pre = .ok entries) :
    ∀ file ∈ filesOf files pre, ∃ cipher, encrypt refName file.1 file.2.content = .ok cipher := by
  induction files generalizing pre entries with
  | nil =>
    intro file hfile
    cases hfile
  | leaf name file rest ih =>
    rw [entriesOf] at h
    split at h
    · cases h
    · rename_i cipher hcipher
      split at h
      · cases h
      · rename_i more hmore
        intro found hfound
        rcases List.mem_cons.mp hfound with rfl | hmem
        · exact ⟨cipher, hcipher⟩
        · exact ih hmore found hmem
  | node name sub rest ihsub ih =>
    rw [entriesOf] at h
    split at h
    · cases h
    · rename_i below hbelow
      split at h
      · cases h
      · rename_i more hmore
        intro found hfound
        rcases List.mem_append.mp hfound with hmem | hmem
        · exact ihsub hbelow found hmem
        · exact ih hmore found hmem

/-- **Two commits of the same files have the same entries** exactly where they seal every file
alike. -/
theorem entriesOf_eq_iff (hhash : Function.Injective hashOf)
    (h : entriesOf hashOf encrypt refName files pre = .ok entries)
    (h' : entriesOf hashOf encrypt' refName files pre = .ok entries') :
    entries = entries' ↔ ∀ file ∈ filesOf files pre,
      encrypt refName file.1 file.2.content = encrypt' refName file.1 file.2.content := by
  induction files generalizing pre entries entries' with
  | nil =>
    cases h
    cases h'
    exact iff_of_true rfl fun file hfile => by cases hfile
  | leaf name file rest ih =>
    rw [entriesOf] at h h'
    split at h
    · cases h
    rename_i cipher hcipher
    split at h
    · cases h
    rename_i more hmore
    split at h'
    · cases h'
    rename_i cipher' hcipher'
    split at h'
    · cases h'
    rename_i more' hmore'
    cases h
    cases h'
    rw [filesOf, List.forall_mem_cons, ← ih hmore hmore', hcipher, hcipher', List.cons.injEq,
      Except.ok.injEq]
    refine and_congr_left fun _ => ⟨fun hrow => ?_, fun hsame => by rw [hsame]⟩
    exact hhash (congrArg TreeEntryRow.target hrow)
  | node name sub rest ihsub ih =>
    rw [entriesOf] at h h'
    split at h
    · cases h
    rename_i below hbelow
    split at h
    · cases h
    rename_i more hmore
    split at h'
    · cases h'
    rename_i below' hbelow'
    split at h'
    · cases h'
    rename_i more' hmore'
    cases h
    cases h'
    rw [filesOf, List.forall_mem_append, ← ih hmore hmore', ← ihsub hbelow hbelow', List.cons.injEq]
    refine and_congr_left fun _ => ⟨fun hrow => ?_, fun hsame => by rw [hsame]⟩
    exact Vcs.canonicalTreeBytes_injective (hhash (congrArg TreeEntryRow.target hrow))

theorem rootHashOf_eq_iff (hhash : Function.Injective hashOf) {root root' : Hash}
    (h : rootHashOf hashOf encrypt refName files = .ok root)
    (h' : rootHashOf hashOf encrypt' refName files = .ok root') :
    root = root' ↔ ∀ file ∈ filesOf files "",
      encrypt refName file.1 file.2.content = encrypt' refName file.1 file.2.content := by
  unfold rootHashOf at h h'
  split at h
  · cases h
  rename_i entries hentries
  split at h'
  · cases h'
  rename_i entries' hentries'
  cases h
  cases h'
  rw [← entriesOf_eq_iff hhash hentries hentries']
  exact ⟨fun hroot => Vcs.canonicalTreeBytes_injective (hhash hroot), fun hsame => by rw [hsame]⟩

end

/-! ### Two members -/

section

variable {κ : Type} [DecidableEq κ] (hashOf : Bytes → Hash) (encode : SealedBlob κ → Bytes)

/-- The encryptor a commit is given, with the bytes of a blob. -/
def Member.encryptor (member : Member κ) (caches : KeyCaches) : BlobEncryptor :=
  fun refName path content =>
    match member.encryptForRef caches refName path none content with
    | .ok blob => .ok (encode blob)
    | .error _ => .error (.vault "")

/-- Two members of a keyed chain, each with its own mount and its own globs, and a snapshot that
both commit. -/
structure Commits (κ : Type) [DecidableEq κ] (hashOf : Bytes → Hash)
    (encode : SealedBlob κ → Bytes) where
  refName : String
  isShared : refName ≠ tipRef
  keyId : String
  key : κ
  first : Member κ
  second : Member κ
  holdsFirst : first.vault.shared keyId = some key
  holdsSecond : second.vault.shared keyId = some key
  firstCaches : KeyCaches
  secondCaches : KeyCaches
  firstMount : String
  secondMount : String
  firstRow : firstCaches.sharedKeys refName = some (keyId, firstMount)
  secondRow : secondCaches.sharedKeys refName = some (keyId, secondMount)
  files : Children
  firstRoot : Hash
  secondRoot : Hash
  firstCommit : rootHashOf hashOf (first.encryptor encode firstCaches) refName files = .ok firstRoot
  secondCommit :
    rootHashOf hashOf (second.encryptor encode secondCaches) refName files = .ok secondRoot

namespace Commits

variable {hashOf encode} (commits : Commits κ hashOf encode)

/-- Each member opens every blob of the other where its own garden has the file, and both trees
have the same root hash. -/
structure Agree : Prop where
  firstOpens : ∀ file ∈ filesOf commits.files "", ∀ blob,
    commits.second.encryptForRef commits.secondCaches commits.refName file.1 none file.2.content =
      .ok blob →
    commits.first.decryptTrackedBlob (gardenPath commits.firstMount file.1) blob =
      some file.2.content
  secondOpens : ∀ file ∈ filesOf commits.files "", ∀ blob,
    commits.first.encryptForRef commits.firstCaches commits.refName file.1 none file.2.content =
      .ok blob →
    commits.second.decryptTrackedBlob (gardenPath commits.secondMount file.1) blob =
      some file.2.content
  sameRoot : commits.firstRoot = commits.secondRoot

/-- No file is sealed as a whole by either member, or both seal it and have it at one path. -/
def SealAlike : Prop :=
  ∀ file ∈ filesOf commits.files "",
    (commits.first.isSealed (gardenPath commits.firstMount file.1) = false ∧
      commits.second.isSealed (gardenPath commits.secondMount file.1) = false) ∨
    (commits.first.isSealed (gardenPath commits.firstMount file.1) = true ∧
      commits.second.isSealed (gardenPath commits.secondMount file.1) = true ∧
      gardenPath commits.firstMount file.1 = gardenPath commits.secondMount file.1)

end Commits

variable {hashOf encode}

omit [DecidableEq κ] in
/-- What a member seals every file of a commit as. -/
theorem seals_of_commit {member : Member κ} {caches : KeyCaches} {refName keyId mount : String}
    {key : κ} {files : Children} {root : Hash} (href : refName ≠ tipRef)
    (hrow : caches.sharedKeys refName = some (keyId, mount))
    (hkey : member.vault.shared keyId = some key)
    (h : rootHashOf hashOf (member.encryptor encode caches) refName files = .ok root) :
    ∀ file ∈ filesOf files "",
      member.encryptForRef caches refName file.1 none file.2.content =
        .ok (member.sharedSeal keyId mount key file.1 file.2.content) := by
  unfold rootHashOf at h
  split at h
  · cases h
  rename_i entries hentries
  intro file hfile
  obtain ⟨cipher, hcipher⟩ := sealed_of_entriesOf hentries file hfile
  unfold Member.encryptor at hcipher
  split at hcipher
  · rename_i blob hblob
    obtain ⟨keyId', mount', key', hcache, hkey', rfl⟩ := Member.encryptForRef_shared href hblob
    rw [hrow] at hcache
    cases hcache
    rw [hkey] at hkey'
    cases hkey'
    exact hblob
  · cases hcipher

/-- A member opens another's blob where the other sealed no whole file, or at this very path. -/
theorem decrypt_sharedSeal_iff {member other : Member κ} {keyId mount garden path : String} {key : κ}
    {content : Bytes} (hkey : member.vault.shared keyId = some key) :
    member.decryptTrackedBlob garden (other.sharedSeal keyId mount key path content) =
        some content ↔
      (other.isSealed (gardenPath mount path) = true → gardenPath mount path = garden) := by
  unfold Member.sharedSeal
  split
  · rename_i hglob
    simp [Member.decryptTrackedBlob, hkey, hglob]
  · rename_i hglob
    simp [Member.decryptTrackedBlob, hkey, hglob]

omit [DecidableEq κ] in
theorem sharedSeal_eq_iff {member other : Member κ} {keyId mount mount' path : String} {key : κ}
    {content : Bytes} :
    member.sharedSeal keyId mount key path content = other.sharedSeal keyId mount' key path content ↔
      (member.isSealed (gardenPath mount path) = false ∧
        other.isSealed (gardenPath mount' path) = false) ∨
      (member.isSealed (gardenPath mount path) = true ∧
        other.isSealed (gardenPath mount' path) = true ∧
        gardenPath mount path = gardenPath mount' path) := by
  unfold Member.sharedSeal
  cases member.isSealed (gardenPath mount path) <;>
    cases other.isSealed (gardenPath mount' path) <;> simp

namespace Commits

variable {commits : Commits κ hashOf encode}

theorem firstSeals : ∀ file ∈ filesOf commits.files "",
    commits.first.encryptForRef commits.firstCaches commits.refName file.1 none file.2.content =
      .ok (commits.first.sharedSeal commits.keyId commits.firstMount commits.key file.1
        file.2.content) :=
  seals_of_commit commits.isShared commits.firstRow commits.holdsFirst commits.firstCommit

theorem secondSeals : ∀ file ∈ filesOf commits.files "",
    commits.second.encryptForRef commits.secondCaches commits.refName file.1 none file.2.content =
      .ok (commits.second.sharedSeal commits.keyId commits.secondMount commits.key file.1
        file.2.content) :=
  seals_of_commit commits.isShared commits.secondRow commits.holdsSecond commits.secondCommit

/-- The root hashes are one exactly where the members seal every file alike. -/
theorem sameRoot_iff (hhash : Function.Injective hashOf) (hencode : Function.Injective encode) :
    commits.firstRoot = commits.secondRoot ↔ commits.SealAlike := by
  rw [rootHashOf_eq_iff hhash commits.firstCommit commits.secondCommit]
  refine forall₂_congr fun file hfile => ?_
  have hsame : commits.first.encryptor encode commits.firstCaches commits.refName file.1
        file.2.content =
      commits.second.encryptor encode commits.secondCaches commits.refName file.1
        file.2.content ↔
      commits.first.sharedSeal commits.keyId commits.firstMount commits.key file.1
        file.2.content =
      commits.second.sharedSeal commits.keyId commits.secondMount commits.key file.1
        file.2.content := by
    unfold Member.encryptor
    rw [commits.firstSeals file hfile, commits.secondSeals file hfile]
    exact ⟨fun h => hencode (Except.ok.inj h), fun h => by rw [h]⟩
  rw [hsame, sharedSeal_eq_iff]

/-- **Two members agree** exactly where neither seals a file as a whole, or both seal the same ones
and have them at the same paths. -/
theorem agree_iff (hhash : Function.Injective hashOf) (hencode : Function.Injective encode) :
    commits.Agree ↔ commits.SealAlike := by
  constructor
  · intro h
    exact (sameRoot_iff hhash hencode).mp h.sameRoot
  · intro h
    refine ⟨?_, ?_, (sameRoot_iff hhash hencode).mpr h⟩
    · intro file hfile blob hblob
      rw [secondSeals file hfile] at hblob
      cases hblob
      rw [decrypt_sharedSeal_iff commits.holdsFirst]
      intro hglob
      rcases h file hfile with ⟨-, hplain⟩ | ⟨-, -, hpath⟩
      · rw [hplain] at hglob
        cases hglob
      · exact hpath.symm
    · intro file hfile blob hblob
      rw [firstSeals file hfile] at hblob
      cases hblob
      rw [decrypt_sharedSeal_iff commits.holdsSecond]
      intro hglob
      rcases h file hfile with ⟨hplain, -⟩ | ⟨-, -, hpath⟩
      · rw [hplain] at hglob
        cases hglob
      · exact hpath

end Commits

end

/-! ### The keys of shared chains -/

/-- **No file of a shared ref is ever sealed under a device's key; it is sealed under the key of its
row, or refused, where the router has that row; and two members open each other's blobs and commit
the same tree exactly where they seal every file alike.** -/
theorem sharedKeys_meet {κ : Type} [DecidableEq κ] {hashOf : Bytes → Hash}
    {encode : SealedBlob κ → Bytes} (hhash : Function.Injective hashOf)
    (hencode : Function.Injective encode) :
    (∀ st : RouterState κ, (routerSystem κ).Reachable st → st.NeverUnderMaster) ∧
    (∀ (s₀ : RouterState κ) (events : List (RouterEvent κ)) (st : RouterState κ),
      (routerSystem κ).init s₀ → (routerSystem κ).Guarded RouterState.Primed s₀ events st →
        st.SealedByRow) ∧
    ∀ commits : Commits κ hashOf encode, commits.Agree ↔ commits.SealAlike :=
  ⟨fun _ => neverUnderMaster, fun _ _ _ => sealedByRow,
    fun _ => Commits.agree_iff hhash hencode⟩

/-! ### One sealed file on two mounts -/

instance encodableUInt8 : Encodable UInt8 :=
  .ofLeftInverse UInt8.toNat UInt8.ofNat fun _ => UInt8.ofNat_toNat

deriving instance Encodable for SealedBlob

/-- A blob as the unary code of its number. -/
def blobBytes : SealedBlob Nat → Bytes := (Vault.TomlCodec.unary (SealedBlob Nat)).render

theorem blobBytes_injective : Function.Injective blobBytes := by
  intro blob other h
  have hparse := congrArg (Vault.TomlCodec.unary (SealedBlob Nat)).parse h
  rw [blobBytes, Vault.TomlCodec.unary_parse, Vault.TomlCodec.unary_parse] at hparse
  exact Except.ok.inj hparse

theorem hash_injective : Function.Injective Hash.mk := by
  intro bytes other h
  cases h
  rfl

/-- A member that has the chain at a mount, with one file of it sealed as a whole. -/
def mountedMember (mount : String) : Member Nat where
  vault := ⟨0, fun keyId => if keyId = "s1" then some 7 else none⟩
  region := markCipher
  isSealed path := path = mount ++ "/secret.md"

def mountedCaches (mount : String) : KeyCaches :=
  ⟨fun refName => if refName = "shared/app" then some ("s1", mount) else none, fun _ => true⟩

/-- The entry of the file, as a member commits it. -/
def secretRoot (mount : String) : Hash :=
  treeHash Hash.mk [⟨"secret.md", .blob, 0o644,
    ⟨blobBytes (.sharedLayerB "s1" 7 (mount ++ "/secret.md") [1])⟩⟩]

/-- One chain, at `work` in one garden and at `team` in the other. -/
def secretCommits : Commits Nat Hash.mk blobBytes where
  refName := "shared/app"
  isShared := by decide
  keyId := "s1"
  key := 7
  first := mountedMember "work"
  second := mountedMember "team"
  holdsFirst := rfl
  holdsSecond := rfl
  firstCaches := mountedCaches "work"
  secondCaches := mountedCaches "team"
  firstMount := "work"
  secondMount := "team"
  firstRow := rfl
  secondRow := rfl
  files := .leaf "secret.md" ⟨0o644, [1]⟩ .nil
  firstRoot := secretRoot "work"
  secondRoot := secretRoot "team"
  firstCommit := rfl
  secondCommit := rfl

/-- The two members agree exactly where they seal the file alike. -/
theorem sharedKeys_meet_nat : secretCommits.Agree ↔ secretCommits.SealAlike :=
  (sharedKeys_meet hash_injective blobBytes_injective).2.2 secretCommits

/-- A file that both members' globs seal is opened by neither other member. -/
theorem not_agree_secretCommits : ¬secretCommits.Agree := by
  intro h
  have hopens := h.firstOpens ("secret.md", ⟨0o644, [1]⟩) (by decide)
    (.sharedLayerB "s1" 7 "team/secret.md" [1]) rfl
  exact absurd hopens (by decide)

end Softfig.LayerB.SharedKeys
