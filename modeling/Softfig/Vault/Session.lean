import Softfig.Vault.Storage

/-!
Master-key generations, the secrets wrapped under K, and the verbs that build a
session: `init`, `unlock`, `unlock_with_recovery`, `rotate_master_key`.

What these verbs draw at random is an argument.

- `readMaster_write`: a generation just written is read back;
- `unlockWith_sealed`: a directory sealed under one K opens, and the session holds every
  generation on disk;
- `rotateMasterKey_apply`: a rotation makes two writes in place.
-/

namespace Softfig.Vault

open Softfig.Lib

/-! ### Master keys -/

structure MasterKey where
  id : UInt32
  bytes : Key
  deriving DecidableEq

/-- Every generation in memory, and the active one. -/
structure MasterKeyStore where
  keys : AList fun _ : UInt32 => Key
  activeId : UInt32

namespace MasterKeyStore

def empty (activeId : UInt32) : MasterKeyStore := ⟨∅, activeId⟩

def insert (store : MasterKeyStore) (key : MasterKey) : MasterKeyStore :=
  { store with keys := store.keys.insert key.id key.bytes }

def setActive (store : MasterKeyStore) (id : UInt32) : MasterKeyStore :=
  { store with activeId := id }

def get (store : MasterKeyStore) (id : UInt32) : Except VaultError MasterKey :=
  match store.keys.lookup id with
  | some bytes => .ok ⟨id, bytes⟩
  | none => .error (.unknownMasterKey id)

def active (store : MasterKeyStore) : Except VaultError MasterKey := store.get store.activeId

def ids (store : MasterKeyStore) : List UInt32 := store.keys.keys

/-- One more than the largest generation in memory; a release build wraps around. -/
def nextId (store : MasterKeyStore) : UInt32 := store.ids.max?.getD 0 + 1

theorem get_eq_ok {store : MasterKeyStore} {id : UInt32} {key : MasterKey} :
    store.get id = .ok key ↔ key.id = id ∧ store.keys.lookup id = some key.bytes := by
  unfold get
  obtain ⟨keyId, keyBytes⟩ := key
  cases store.keys.lookup id with
  | none => simp
  | some bytes => simp [eq_comm]

end MasterKeyStore

section

variable (c : Crates) (f : Formats)

/-- Nonce and ciphertext under K. -/
def wrapUnderKek (kek : Key) (plain ad : Bytes) (nonce : Nonce) : Bytes :=
  nonce.val ++ c.encrypt kek nonce ad plain

def unwrapUnderKek (kek : Key) (wrapped ad : Bytes) : Except VaultError Bytes :=
  match FixedBytes.split 24 wrapped with
  | none => .error (.malformed "wrapped secret too short")
  | some (nonce, ct) => aeadOpen c kek nonce ad ct

/-- A secret of 32 bytes wrapped under K. -/
def readSecret (dir : VaultDir) (kek : Key) (file : VaultFile) (ad : Bytes)
    (wrongLength : String) : Except VaultError Key := do
  let wrapped ← readFile dir file
  let plain ← unwrapUnderKek c kek wrapped ad
  match FixedBytes.ofBytes 32 plain with
  | some bytes => .ok bytes
  | none => .error (.malformed wrongLength)

def writeMaster (kek : Key) (key : MasterKey) (nonce : Nonce) : VaultM Unit :=
  Disk.write (.overwrite (.master key.id) (wrapUnderKek c kek key.bytes.val (aad.master key.id) nonce))

def readMaster (dir : VaultDir) (kek : Key) (id : UInt32) : Except VaultError MasterKey := do
  let bytes ← readSecret c dir kek (.master id) (aad.master id) "master key plaintext wrong length"
  .ok ⟨id, bytes⟩

/-- Insert every listed generation. -/
def readInto (dir : VaultDir) (kek : Key) (store : MasterKeyStore) :
    List UInt32 → Except VaultError MasterKeyStore
  | [] => .ok store
  | id :: ids => do
    let key ← readMaster c dir kek id
    readInto dir kek (store.insert key) ids

/-- `read_all`: every generation on disk, the active one among them. -/
def readAll (dir : VaultDir) (kek : Key) (activeId : UInt32) : Except VaultError MasterKeyStore := do
  let store ← readInto c dir kek (.empty activeId) (listMasterIds dir)
  refuseIf (activeId ∉ store.keys) (.unknownMasterKey activeId)
  .ok store

/-! ### Identity and transport key -/

def writeIdentity (kek secret : Key) (nonce : Nonce) : VaultM Unit :=
  Disk.write (.overwrite .identity (wrapUnderKek c kek secret.val aad.identity nonce))

def readIdentity (dir : VaultDir) (kek : Key) : Except VaultError Key :=
  readSecret c dir kek .identity aad.identity "identity secret wrong length"

def writeTransport (kek secret : Key) (nonce : Nonce) : VaultM Unit :=
  Disk.write (.overwrite .transport (wrapUnderKek c kek secret.val aad.transport nonce))

def readTransport (dir : VaultDir) (kek : Key) : Except VaultError Key :=
  readSecret c dir kek .transport aad.transport "transport secret wrong length"

/-- A vault older than the transport key gains the given one. -/
def readOrInitTransport (kek fresh : Key) (nonce : Nonce) : VaultM Key := do
  if ← Disk.read fun dir => .ok (fileExists dir .transport) then
    Disk.read fun dir => readTransport c dir kek
  else do
    writeTransport c kek fresh nonce
    return fresh

/-! ### Sessions -/

structure VaultSession where
  kek : Key
  masters : MasterKeyStore
  identity : Key
  transport : Key

def buildSession (kek freshTransport : Key) (nonce : Nonce) : VaultM VaultSession := do
  let active ← Disk.read (loadActive f)
  let masters ← Disk.read fun dir => readAll c dir kek active.masterKeyId
  let identity ← Disk.read fun dir => readIdentity c dir kek
  let transport ← readOrInitTransport c kek freshTransport nonce
  return ⟨kek, masters, identity, transport⟩

/-- K out of one door. -/
def openDoor (secret ad : Bytes) (file : VaultFile) (dir : VaultDir) : Except VaultError Key := do
  refuseIf (¬initialized dir) .notInitialized
  let params ← loadParams f dir
  let wrapped ← readFile dir file
  unwrapKekUnderPassphrase c secret wrapped params.argon2 ad

def unlockWith (secret ad : Bytes) (file : VaultFile) (freshTransport : Key) (nonce : Nonce) :
    VaultM VaultSession := do
  let kek ← Disk.read (openDoor c f secret ad file)
  buildSession c f kek freshTransport nonce

def unlock (passphrase : Bytes) (freshTransport : Key) (nonce : Nonce) : VaultM VaultSession :=
  unlockWith c f passphrase aad.kekSelf .kekSelf freshTransport nonce

/-- A recovery phrase, as the bytes it stretches. -/
structure RecoveryPhrase where
  passphraseBytes : Bytes
  deriving DecidableEq

def unlockWithRecovery (phrase : RecoveryPhrase) (freshTransport : Key) (nonce : Nonce) :
    VaultM VaultSession :=
  unlockWith c f phrase.passphraseBytes aad.kekRecovery .kekRecovery freshTransport nonce

/-- The one way a wrapping of K is published. -/
def writeWrapping (file : VaultFile) (bytes : Bytes) : VaultM Unit :=
  Disk.write (.publish file bytes)

/-- What `init` draws at random. -/
structure InitSecrets where
  kek : Key
  selfSalt : Salt
  selfNonce : Nonce
  phrase : RecoveryPhrase
  recoverySalt : Salt
  recoveryNonce : Nonce
  master : Key
  masterNonce : Nonce
  identity : Key
  identityNonce : Nonce
  transport : Key
  transportNonce : Nonce

def initWithParams (passphrase : Bytes) (params : VaultParams) (r : InitSecrets) :
    VaultM (VaultSession × RecoveryPhrase) := do
  Disk.read fun dir => refuseIf (initialized dir) .alreadyInitialized
  storeParams f params
  let wrappedSelf ← Fallible.ofExcept
    (wrapKekUnderPassphrase c passphrase r.kek params.argon2 aad.kekSelf r.selfSalt r.selfNonce)
  writeWrapping .kekSelf wrappedSelf
  let wrappedRecovery ← Fallible.ofExcept
    (wrapKekUnderPassphrase c r.phrase.passphraseBytes r.kek params.argon2 aad.kekRecovery
      r.recoverySalt r.recoveryNonce)
  writeWrapping .kekRecovery wrappedRecovery
  let m1 : MasterKey := ⟨1, r.master⟩
  writeMaster c r.kek m1 r.masterNonce
  storeActive f ⟨1⟩
  writeIdentity c r.kek r.identity r.identityNonce
  storeDeclaredPolicy f {.passphrase, .phrase}
  writeTransport c r.kek r.transport r.transportNonce
  return (⟨r.kek, (MasterKeyStore.empty 1).insert m1, r.identity, r.transport⟩, r.phrase)

/-- Write a new generation under K and make it active. -/
def rotateMasterKey (session : VaultSession) (fresh : Key) (nonce : Nonce) :
    VaultM (UInt32 × VaultSession) := do
  let newId := session.masters.nextId
  let key : MasterKey := ⟨newId, fresh⟩
  writeMaster c session.kek key nonce
  let masters := (session.masters.insert key).setActive newId
  storeActive f ⟨newId⟩
  return (newId, { session with masters })

end

variable {c : Crates} {f : Formats}

/-- What a completed `init` wrote, in order. -/
theorem initWithParams_ok {passphrase : Bytes} {params : VaultParams} {r : InitSecrets}
    {disk disk' : VaultDisk} {out : VaultSession × RecoveryPhrase}
    (h : initWithParams c f passphrase params r disk = (.ok out, disk')) :
    ∃ wrappedSelf wrappedRecovery,
      wrapKekUnderPassphrase c passphrase r.kek params.argon2 aad.kekSelf r.selfSalt r.selfNonce =
        .ok wrappedSelf ∧
      wrapKekUnderPassphrase c r.phrase.passphraseBytes r.kek params.argon2 aad.kekRecovery
        r.recoverySalt r.recoveryNonce = .ok wrappedRecovery ∧
      out = (⟨r.kek, (MasterKeyStore.empty 1).insert ⟨1, r.master⟩, r.identity, r.transport⟩,
        r.phrase) ∧
      disk'.dir = replay [
        .overwrite .params (f.params.render params),
        .publish .kekSelf wrappedSelf,
        .publish .kekRecovery wrappedRecovery,
        .overwrite (.master 1) (wrapUnderKek c r.kek r.master.val (aad.master 1) r.masterNonce),
        .overwrite .active (f.active.render ⟨1⟩),
        .overwrite .identity (wrapUnderKek c r.kek r.identity.val aad.identity r.identityNonce),
        .publish .recoveryPolicy (f.recoveryPolicy.render
          ⟨recoveryPolicyFormatVersion, RecoveryPolicy.display {.passphrase, .phrase}⟩),
        .overwrite .transport (wrapUnderKek c r.kek r.transport.val aad.transport
          r.transportNonce)] disk.dir := by
  unfold initWithParams at h
  rcases Disk.read_bind_cases h with ⟨e, _, hres, _⟩ | ⟨_, _, h⟩
  · cases hres
  simp only [storeParams, Disk.write_bind] at h
  rcases Fallible.ofExcept_bind_cases h with ⟨e, _, hres, _⟩ | ⟨wrappedSelf, hself, h⟩
  · cases hres
  simp only [writeWrapping, Disk.write_bind] at h
  rcases Fallible.ofExcept_bind_cases h with ⟨e, _, hres, _⟩ | ⟨wrappedRecovery, hrecovery, h⟩
  · cases hres
  simp only [writeMaster, storeActive, writeIdentity, storeDeclaredPolicy, writeTransport,
    Disk.write_bind, Fallible.pure_apply, Prod.mk.injEq, Except.ok.injEq] at h
  obtain ⟨rfl, rfl⟩ := h
  exact ⟨wrappedSelf, wrappedRecovery, hself, hrecovery, rfl, rfl⟩

/-! ### What is read back -/

theorem readSecret_wrapped (hc : c.Lawful) {dir : VaultDir} {kek secret : Key} {file : VaultFile}
    {ad : Bytes} {nonce : Nonce} {wrongLength : String}
    (h : dir.lookup file = some (wrapUnderKek c kek secret.val ad nonce)) :
    readSecret c dir kek file ad wrongLength = .ok secret := by
  simp [readSecret, readFile, h, unwrapUnderKek, wrapUnderKek, aeadOpen, hc.decrypt_encrypt, bind,
    Except.bind]

/-- The file of this generation holds this key under K. -/
def MasterAt (c : Crates) (dir : VaultDir) (kek : Key) (key : MasterKey) : Prop :=
  ∃ nonce, dir.lookup (.master key.id) =
    some (wrapUnderKek c kek key.bytes.val (aad.master key.id) nonce)

/-- **A generation just written is read back.** -/
theorem MasterAt.read (hc : c.Lawful) {dir : VaultDir} {kek : Key} {key : MasterKey}
    (h : MasterAt c dir kek key) : readMaster c dir kek key.id = .ok key := by
  obtain ⟨nonce, hlook⟩ := h
  simp [readMaster, readSecret_wrapped hc hlook, bind, Except.bind]

theorem MasterAt.congr {dir dir' : VaultDir} {kek : Key} {key : MasterKey}
    (h : MasterAt c dir kek key)
    (hsame : dir'.lookup (.master key.id) = dir.lookup (.master key.id)) :
    MasterAt c dir' kek key := by
  obtain ⟨nonce, hlook⟩ := h
  exact ⟨nonce, hsame.trans hlook⟩

theorem mem_listMasterIds {dir : VaultDir} {id : UInt32} :
    id ∈ listMasterIds dir ↔ (dir.lookup (.master id)).isSome = true := by
  rw [listMasterIds, List.mem_insertionSort, List.mem_filterMap, AList.lookup_isSome,
    AList.mem_keys]
  constructor
  · rintro ⟨file, hmem, hfile⟩
    split at hfile
    · cases hfile
      exact hmem
    · cases hfile
  · intro hmem
    exact ⟨.master id, hmem, rfl⟩

theorem readInto_total {dir : VaultDir} {kek : Key} {ids : List UInt32}
    (h : ∀ id ∈ ids, ∃ key, readMaster c dir kek id = .ok key) (store : MasterKeyStore) :
    ∃ store', readInto c dir kek store ids = .ok store' := by
  induction ids generalizing store with
  | nil => exact ⟨store, rfl⟩
  | cons id ids ih =>
    obtain ⟨key, hkey⟩ := h id List.mem_cons_self
    obtain ⟨store', hrest⟩ := ih (fun id hmem => h id (List.mem_cons_of_mem _ hmem))
      (store.insert key)
    exact ⟨store', bind_ok_iff.mpr ⟨key, hkey, hrest⟩⟩

theorem readMaster_id {dir : VaultDir} {kek : Key} {id : UInt32} {key : MasterKey}
    (h : readMaster c dir kek id = .ok key) : key.id = id := by
  obtain ⟨bytes, _, h⟩ := bind_ok_iff.mp h
  cases h
  rfl

theorem readMaster_isSome {dir : VaultDir} {kek : Key} {id : UInt32} {key : MasterKey}
    (h : readMaster c dir kek id = .ok key) : (dir.lookup (.master id)).isSome = true := by
  obtain ⟨_, hsecret, _⟩ := bind_ok_iff.mp h
  obtain ⟨_, hfile, _⟩ := bind_ok_iff.mp hsecret
  rw [readFile_eq_ok.mp hfile, Option.isSome_some]

/-- Every listed generation is inserted, under the key its file holds. -/
theorem readInto_ok {dir : VaultDir} {kek : Key} {ids : List UInt32} {store store' : MasterKeyStore}
    (h : readInto c dir kek store ids = .ok store') :
    store'.activeId = store.activeId ∧
      (∀ id ∈ ids, ∃ key, readMaster c dir kek id = .ok key ∧
        store'.keys.lookup id = some key.bytes) ∧
      ∀ id, id ∉ ids → store'.keys.lookup id = store.keys.lookup id := by
  induction ids generalizing store with
  | nil =>
    cases h
    exact ⟨rfl, by simp, fun _ _ => rfl⟩
  | cons first ids ih =>
    obtain ⟨key, hkey, h⟩ := bind_ok_iff.mp h
    obtain ⟨hactive, hmem, hother⟩ := ih h
    have hid := readMaster_id hkey
    refine ⟨hactive, ?_, ?_⟩
    · intro id hlisted
      by_cases hlater : id ∈ ids
      · exact hmem id hlater
      · obtain rfl : id = first := by simpa [hlater] using hlisted
        refine ⟨key, hkey, ?_⟩
        rw [hother id hlater, MasterKeyStore.insert, hid, AList.lookup_insert]
    · intro id hlisted
      simp only [List.mem_cons, not_or] at hlisted
      rw [hother id hlisted.2, MasterKeyStore.insert, hid, AList.lookup_insert_ne hlisted.1]

/-- What a session that was opened was built from; a vault with a transport key is not written. -/
theorem unlockWith_ok {secret ad : Bytes} {file : VaultFile} {freshTransport : Key} {nonce : Nonce}
    {disk disk' : VaultDisk} {session : VaultSession}
    (h : unlockWith c f secret ad file freshTransport nonce disk = (.ok session, disk')) :
    openDoor c f secret ad file disk.dir = .ok session.kek ∧
      (∃ activeId, readAll c disk.dir session.kek activeId = .ok session.masters) ∧
      (fileExists disk.dir .transport = true → disk' = disk) := by
  unfold unlockWith at h
  rcases Disk.read_bind_cases h with ⟨_, _, hres, _⟩ | ⟨kek, hdoor, h⟩
  · cases hres
  unfold buildSession at h
  rcases Disk.read_bind_cases h with ⟨_, _, hres, _⟩ | ⟨active, _, h⟩
  · cases hres
  rcases Disk.read_bind_cases h with ⟨_, _, hres, _⟩ | ⟨masters, hmasters, h⟩
  · cases hres
  rcases Disk.read_bind_cases h with ⟨_, _, hres, _⟩ | ⟨identity, _, h⟩
  · cases hres
  obtain ⟨transport, disk'', htransport, h⟩ := Fallible.bind_eq_ok.mp h
  cases h
  refine ⟨hdoor, ⟨_, hmasters⟩, ?_⟩
  intro hthere
  simp only [readOrInitTransport, Fallible.bind_apply, Disk.read_apply, hthere, ↓reduceIte,
    Prod.mk.injEq] at htransport
  exact htransport.2.symm

/-- Every generation on disk could be read, and nothing else is held. -/
theorem readAll_ok {dir : VaultDir} {kek : Key} {activeId : UInt32} {store : MasterKeyStore}
    (h : readAll c dir kek activeId = .ok store) :
    (∀ id, (dir.lookup (.master id)).isSome = true → ∃ key, readMaster c dir kek id = .ok key) ∧
      ∀ id bytes, store.keys.lookup id = some bytes → readMaster c dir kek id = .ok ⟨id, bytes⟩ := by
  obtain ⟨store', hinto, h⟩ := bind_ok_iff.mp h
  obtain ⟨_, h⟩ := refuseIf_bind_ok_iff.mp h
  cases h
  obtain ⟨_, hlisted, hother⟩ := readInto_ok hinto
  constructor
  · intro id hfile
    obtain ⟨key, hkey, _⟩ := hlisted id (mem_listMasterIds.mpr hfile)
    exact ⟨key, hkey⟩
  · intro id bytes hlook
    by_cases hid : id ∈ listMasterIds dir
    · obtain ⟨⟨keyId, keyBytes⟩, hkey, hheld⟩ := hlisted id hid
      rw [hlook] at hheld
      cases hheld
      obtain rfl : keyId = id := readMaster_id hkey
      exact hkey
    · rw [hother id hid] at hlook
      cases hlook

/-- **A directory whose files are all sealed under K opens**, writes nothing, and the session holds
every generation on disk. -/
theorem unlockWith_sealed (hc : c.Lawful) {dir : VaultDir} {kek identity transport : Key}
    {identityNonce transportNonce : Nonce} {secret ad : Bytes} {file : VaultFile} {active : ActiveKey}
    (hdoor : openDoor c f secret ad file dir = .ok kek) (hactive : loadActive f dir = .ok active)
    (hpointed : (dir.lookup (.master active.masterKeyId)).isSome = true)
    (hmasters : ∀ id, (dir.lookup (.master id)).isSome = true →
      ∃ key, key.id = id ∧ MasterAt c dir kek key)
    (hidentity : dir.lookup .identity =
      some (wrapUnderKek c kek identity.val aad.identity identityNonce))
    (htransport : dir.lookup .transport =
      some (wrapUnderKek c kek transport.val aad.transport transportNonce)) :
    ∃ session, session.kek = kek ∧
      (∀ key, MasterAt c dir kek key → session.masters.get key.id = .ok key) ∧
      ∀ freshTransport nonce, unlockWith c f secret ad file freshTransport nonce (.fresh dir) =
        (.ok session, .fresh dir) := by
  have hreadable : ∀ id ∈ listMasterIds dir, ∃ key, readMaster c dir kek id = .ok key := by
    intro id hid
    obtain ⟨key, rfl, hkey⟩ := hmasters id (mem_listMasterIds.mp hid)
    exact ⟨key, hkey.read hc⟩
  obtain ⟨store, hstore⟩ := readInto_total hreadable (.empty active.masterKeyId)
  obtain ⟨_, hlisted, _⟩ := readInto_ok hstore
  have hholds : ∀ key, MasterAt c dir kek key → store.get key.id = .ok key := by
    intro key hkey
    have hon : (dir.lookup (.master key.id)).isSome = true := by
      obtain ⟨nonce, hlook⟩ := hkey
      rw [hlook, Option.isSome_some]
    obtain ⟨key', hread, hlook⟩ := hlisted key.id (mem_listMasterIds.mpr hon)
    rw [hkey.read hc] at hread
    cases hread
    exact MasterKeyStore.get_eq_ok.mpr ⟨rfl, hlook⟩
  have hall : readAll c dir kek active.masterKeyId = .ok store := by
    obtain ⟨_, _, hlook⟩ := hlisted _ (mem_listMasterIds.mpr hpointed)
    have hin : active.masterKeyId ∈ store.keys :=
      AList.lookup_isSome.mp (by rw [hlook, Option.isSome_some])
    exact bind_ok_iff.mpr ⟨store, hstore, refuseIf_bind_ok_iff.mpr ⟨not_not.mpr hin, rfl⟩⟩
  refine ⟨⟨kek, store, identity, transport⟩, rfl, hholds, ?_⟩
  intro freshTransport nonce
  have hthere : fileExists dir .transport = true := by
    rw [fileExists, htransport, Option.isSome_some]
  simp only [unlockWith, buildSession, readOrInitTransport, Fallible.bind_apply, Disk.read_apply,
    Disk.fresh_dir, hdoor, hactive, hall, readIdentity, readSecret_wrapped hc hidentity, hthere,
    readTransport, readSecret_wrapped hc htransport, ↓reduceIte, Fallible.pure_apply]

/-- A rotation writes the new generation, then the active pointer, both in place. -/
theorem rotateMasterKey_apply (session : VaultSession) (fresh : Key) (nonce : Nonce)
    (disk : VaultDisk) :
    rotateMasterKey c f session fresh nonce disk =
      (.ok (session.masters.nextId, { session with
        masters := (session.masters.insert ⟨session.masters.nextId, fresh⟩).setActive
          session.masters.nextId }),
        (disk.after (.overwrite (.master session.masters.nextId) (wrapUnderKek c session.kek
          fresh.val (aad.master session.masters.nextId) nonce))).after
          (.overwrite .active (f.active.render ⟨session.masters.nextId⟩))) := rfl

end Softfig.Vault
