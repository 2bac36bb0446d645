import Softfig.Vault.Session
import Softfig.Vault.Varint

/-!
The four containers a blob is sealed in, and the reader that tells them apart
by their first byte.

A Layer A blob starts with the varint of its master id; the other three start
with a marker. Shared keys are kept on disk, sealed as Layer A blobs, and are
read through the session that holds the masters.

- `decryptBlob_encryptWith`, `decryptLayerB_encrypt`,
  `decryptShared_encrypt`: each opener undoes its sealer;
- `storeSharedKey_cases`: what storing a shared key can do;
- `containerOf_encryptWith`: which container a Layer A blob is taken for.
-/

namespace Softfig.Vault

open Softfig.Lib

def layerBMarker : UInt8 := 0xFF

def sharedBlobMarker : UInt8 := 0xFE

def sharedLayerBMarker : UInt8 := 0xFD

def maxKeyIdLen : Nat := 64

inductive Container where
  | layerA
  | layerB
  | sharedBlob
  | sharedLayerB
  deriving DecidableEq

/-- The container a blob is taken for. -/
def containerOf (blobFile : Bytes) : Container :=
  if blobFile.head? = some layerBMarker then .layerB
  else if blobFile.head? = some sharedLayerBMarker then .sharedLayerB
  else if blobFile.head? = some sharedBlobMarker then .sharedBlob
  else .layerA

section

variable (c : Crates)

/-! ### Layer A -/

/-- `encrypt_with`: varint of the master id, nonce and body. -/
def encryptWith (m : MasterKey) (plain : Bytes) : Bytes :=
  let nonce := c.keyedNonce m.bytes plain
  let perBlobKey := c.hkdf nonce.val m.bytes aad.blob
  writeVarint m.id ++ (nonce.val ++ c.encrypt perBlobKey nonce aad.blob plain)

def encryptBlob (masters : MasterKeyStore) (plain : Bytes) : Except VaultError Bytes := do
  let m ← masters.active
  .ok (encryptWith c m plain)

/-- Nonce and body of what follows a header. -/
def splitNonce (rest : Bytes) : Except VaultError (Nonce × Bytes) :=
  match FixedBytes.split 24 rest with
  | some parts => .ok parts
  | none => .error .malformedBlob

def readVarintOrMalformed (buf : Bytes) : Except VaultError (UInt32 × Bytes) :=
  match readVarint buf with
  | some read => .ok read
  | none => .error .malformedBlob

def decryptBlob (masters : MasterKeyStore) (blobFile : Bytes) : Except VaultError Bytes := do
  let (id, rest) ← readVarintOrMalformed blobFile
  let (nonce, body) ← splitNonce rest
  let m ← masters.get id
  aeadOpen c (c.hkdf nonce.val m.bytes aad.blob) nonce aad.blob body

/-! ### Layer B -/

/-- `derive_subkey` of a path. -/
def layerBSubkey (m : MasterKey) (path : String) : Key :=
  c.hkdf (Store.utf8 path) m.bytes aad.layerBHkdfInfo

def encryptLayerBWith (masterKeyId : UInt32) (plain : Bytes) (key : Key) : Bytes :=
  let nonce := c.keyedNonce key plain
  layerBMarker :: (writeVarint masterKeyId ++ (nonce.val ++ c.encrypt key nonce aad.layerB plain))

def afterMarker (marker : UInt8) (blobFile : Bytes) : Except VaultError Bytes := do
  refuseIf (blobFile.head? ≠ some marker) .malformedBlob
  .ok blobFile.tail

def readMasterId (blobFile : Bytes) : Except VaultError UInt32 := do
  let (id, _) ← readVarintOrMalformed (← afterMarker layerBMarker blobFile)
  .ok id

def decryptLayerBWith (blobFile : Bytes) (key : Key) : Except VaultError Bytes := do
  let (_, rest) ← readVarintOrMalformed (← afterMarker layerBMarker blobFile)
  let (nonce, body) ← splitNonce rest
  aeadOpen c key nonce aad.layerB body

/-! ### Shared containers -/

/-- `[A-Za-z0-9_-]`. -/
def isKeyIdByte (b : UInt8) : Bool :=
  (0x30 ≤ b && b ≤ 0x39) || (0x41 ≤ b && b ≤ 0x5A) || (0x61 ≤ b && b ≤ 0x7A) || b = 0x2D || b = 0x5F

/-- A key id the vault uses as a file name. -/
def KeyIdOk (keyId : Bytes) : Prop :=
  keyId ≠ [] ∧ keyId.length ≤ maxKeyIdLen ∧ keyId.all isKeyIdByte = true

instance (keyId : Bytes) : Decidable (KeyIdOk keyId) := by
  unfold KeyIdOk
  infer_instance

def keyIdError : VaultError := .malformed "shared key id must be 1-64 chars of [A-Za-z0-9_-]"

def validateSharedKeyId (keyId : Bytes) : Except VaultError Unit :=
  refuseIf (¬KeyIdOk keyId) keyIdError

/-- Length byte, key id, and what follows. -/
def splitKeyId : Bytes → Except VaultError (Bytes × Bytes)
  | [] => .error .malformedBlob
  | len :: rest => do
    refuseIf (len = 0 ∨ maxKeyIdLen < len.toNat ∨ rest.length < len.toNat) .malformedBlob
    let keyId := rest.take len.toNat
    refuseIf (¬keyId.all isKeyIdByte) .malformedBlob
    .ok (keyId, rest.drop len.toNat)

def isShared (blobFile : Bytes) : Bool :=
  decide (blobFile.head? = some sharedBlobMarker ∨ blobFile.head? = some sharedLayerBMarker)

def readKeyId (blobFile : Bytes) : Except VaultError Bytes := do
  refuseIf (¬isShared blobFile) .malformedBlob
  let (keyId, _) ← splitKeyId blobFile.tail
  .ok keyId

def sealShared (marker : UInt8) (keyId : Bytes) (nonce : Nonce) (key : Key) (ad plain : Bytes) :
    Except VaultError Bytes := do
  refuseIf (keyId = [] ∨ maxKeyIdLen < keyId.length) keyIdError
  .ok (marker :: .ofNat keyId.length :: (keyId ++ (nonce.val ++ c.encrypt key nonce ad plain)))

def openHeader (marker : UInt8) (blobFile : Bytes) : Except VaultError (Nonce × Bytes) := do
  let (_, rest) ← splitKeyId (← afterMarker marker blobFile)
  splitNonce rest

def encryptShared (keyId : Bytes) (s : Key) (plain : Bytes) : Except VaultError Bytes :=
  let nonce := c.keyedNonce s plain
  sealShared c sharedBlobMarker keyId nonce (c.hkdf nonce.val s aad.sharedBlob) aad.sharedBlob plain

def decryptShared (s : Key) (blobFile : Bytes) : Except VaultError Bytes := do
  let (nonce, body) ← openHeader sharedBlobMarker blobFile
  aeadOpen c (c.hkdf nonce.val s aad.sharedBlob) nonce aad.sharedBlob body

def sharedLayerBSubkey (s : Key) (path : String) : Key :=
  c.hkdf (Store.utf8 path) s aad.sharedLayerBHkdfInfo

def encryptSharedLayerBWith (keyId : Bytes) (s : Key) (path : String) (plain : Bytes) :
    Except VaultError Bytes :=
  let subkey := sharedLayerBSubkey c s path
  sealShared c sharedLayerBMarker keyId (c.keyedNonce subkey plain) subkey aad.sharedLayerB plain

def decryptSharedLayerBWith (s : Key) (path : String) (blobFile : Bytes) :
    Except VaultError Bytes := do
  let (nonce, body) ← openHeader sharedLayerBMarker blobFile
  aeadOpen c (sharedLayerBSubkey c s path) nonce aad.sharedLayerB body

/-! ### The session's sealers and openers -/

/-- What the file of a shared key decrypts to; a torn one counts as absent. -/
def storedSharedKey (dir : VaultDir) (session : VaultSession) (keyId : Bytes) : Option Bytes :=
  (dir.lookup (.sharedKey keyId)).bind fun file => (decryptBlob c session.masters file).toOption

/-- Seal S under the active generation and publish it, unless this id already has it. -/
def storeSharedKey (session : VaultSession) (keyId : Bytes) (s : Key) : VaultM Unit := do
  Fallible.ofExcept (validateSharedKeyId keyId)
  let existing ← Disk.read fun dir => .ok (storedSharedKey c dir session keyId)
  match existing with
  | some plain =>
    Fallible.ofExcept (refuseIf (plain ≠ s.val)
      (.malformed "shared key id already stored with different key material"))
  | none =>
    let sealed ← Fallible.ofExcept (encryptBlob c session.masters s.val)
    Disk.write (.publish (.sharedKey keyId) sealed)

def loadSharedKey (dir : VaultDir) (session : VaultSession) (keyId : Bytes) :
    Except VaultError Key := do
  validateSharedKeyId keyId
  match dir.lookup (.sharedKey keyId) with
  | none => .error (.sharedKeyUnavailable keyId)
  | some sealed =>
    let plain ← decryptBlob c session.masters sealed
    match FixedBytes.ofBytes 32 plain with
    | some s => .ok s
    | none => .error (.malformed "shared key blob is not 32 bytes")

def encryptLayerB (session : VaultSession) (path : String) (plain : Bytes) :
    Except VaultError Bytes := do
  let m ← session.masters.active
  .ok (encryptLayerBWith c m.id plain (layerBSubkey c m path))

def decryptLayerB (session : VaultSession) (path : String) (blobFile : Bytes) :
    Except VaultError Bytes := do
  let m ← session.masters.get (← readMasterId blobFile)
  decryptLayerBWith c blobFile (layerBSubkey c m path)

def encryptSharedBlob (dir : VaultDir) (session : VaultSession) (keyId plain : Bytes) :
    Except VaultError Bytes := do
  encryptShared c keyId (← loadSharedKey c dir session keyId) plain

def decryptSharedBlob (dir : VaultDir) (session : VaultSession) (blobFile : Bytes) :
    Except VaultError Bytes := do
  decryptShared c (← loadSharedKey c dir session (← readKeyId blobFile)) blobFile

def encryptSharedLayerB (dir : VaultDir) (session : VaultSession) (keyId : Bytes) (path : String)
    (plain : Bytes) : Except VaultError Bytes := do
  encryptSharedLayerBWith c keyId (← loadSharedKey c dir session keyId) path plain

def decryptSharedLayerB (dir : VaultDir) (session : VaultSession) (path : String)
    (blobFile : Bytes) : Except VaultError Bytes := do
  decryptSharedLayerBWith c (← loadSharedKey c dir session (← readKeyId blobFile)) path blobFile

/-- Open a tracked file's blob under whichever container it is taken for. -/
def decryptTrackedBlob (dir : VaultDir) (session : VaultSession) (path : String)
    (blobFile : Bytes) : Except VaultError Bytes :=
  match containerOf blobFile with
  | .layerB => decryptLayerB c session path blobFile
  | .sharedLayerB => decryptSharedLayerB c dir session path blobFile
  | .sharedBlob => decryptSharedBlob c dir session blobFile
  | .layerA => decryptBlob c session.masters blobFile

end

variable {c : Crates}

/-! ### Each opener undoes its sealer -/

theorem splitNonce_append (nonce : Nonce) (body : Bytes) :
    splitNonce (nonce.val ++ body) = .ok (nonce, body) := by
  simp [splitNonce]

theorem readVarintOrMalformed_write (id : UInt32) (rest : Bytes) :
    readVarintOrMalformed (writeVarint id ++ rest) = .ok (id, rest) := by
  simp [readVarintOrMalformed, readVarint_writeVarint]

theorem afterMarker_cons (marker : UInt8) (rest : Bytes) :
    afterMarker marker (marker :: rest) = .ok rest := by
  simp [afterMarker, refuseIf, bind, Except.bind]

theorem decryptBlob_encryptWith (hc : c.Lawful) {masters : MasterKeyStore} {m : MasterKey}
    (hheld : masters.get m.id = .ok m) (plain : Bytes) :
    decryptBlob c masters (encryptWith c m plain) = .ok plain := by
  simp [decryptBlob, encryptWith, readVarintOrMalformed_write, splitNonce_append, hheld, aeadOpen,
    hc.decrypt_encrypt, bind, Except.bind]

theorem readMasterId_encrypt (id : UInt32) (plain : Bytes) (key : Key) :
    readMasterId (encryptLayerBWith c id plain key) = .ok id := by
  simp [readMasterId, encryptLayerBWith, afterMarker_cons, readVarintOrMalformed_write, bind,
    Except.bind]

theorem decryptLayerB_encrypt (hc : c.Lawful) (id : UInt32) (plain : Bytes) (key : Key) :
    decryptLayerBWith c (encryptLayerBWith c id plain key) key = .ok plain := by
  simp [decryptLayerBWith, encryptLayerBWith, afterMarker_cons, readVarintOrMalformed_write,
    splitNonce_append, aeadOpen, hc.decrypt_encrypt, bind, Except.bind]

theorem splitKeyId_append {keyId : Bytes} (hid : KeyIdOk keyId) (rest : Bytes) :
    splitKeyId (.ofNat keyId.length :: (keyId ++ rest)) = .ok (keyId, rest) := by
  obtain ⟨hne, hlen, hbytes⟩ := hid
  have hpos := List.length_pos_iff.mpr hne
  have hsmall : keyId.length < 256 := Nat.lt_of_le_of_lt hlen (by decide)
  have hbyte : (UInt8.ofNat keyId.length).toNat = keyId.length := UInt8.toNat_ofNat_of_lt' hsmall
  have hzero : UInt8.ofNat keyId.length ≠ 0 := by
    intro hzero
    rw [hzero] at hbyte
    simp at hbyte
    omega
  have hfits : ¬(UInt8.ofNat keyId.length = 0 ∨ maxKeyIdLen < (UInt8.ofNat keyId.length).toNat ∨
      (keyId ++ rest).length < (UInt8.ofNat keyId.length).toNat) := by
    rw [hbyte, List.length_append]
    rintro (h | h | h)
    · exact hzero h
    · exact absurd h (Nat.not_lt.mpr hlen)
    · omega
  refine refuseIf_bind_ok_iff.mpr ⟨hfits, ?_⟩
  rw [hbyte, List.take_left' rfl, List.drop_left' rfl]
  exact refuseIf_bind_ok_iff.mpr ⟨not_not.mpr hbytes, rfl⟩

theorem openHeader_append {keyId : Bytes} (hid : KeyIdOk keyId) (marker : UInt8) (nonce : Nonce)
    (body : Bytes) :
    openHeader marker (marker :: .ofNat keyId.length :: (keyId ++ (nonce.val ++ body))) =
      .ok (nonce, body) := by
  simp [openHeader, afterMarker_cons, splitKeyId_append hid, splitNonce_append, bind, Except.bind]

theorem readKeyId_append {keyId : Bytes} (hid : KeyIdOk keyId) {marker : UInt8}
    (hmarker : marker = sharedBlobMarker ∨ marker = sharedLayerBMarker) (rest : Bytes) :
    readKeyId (marker :: .ofNat keyId.length :: (keyId ++ rest)) = .ok keyId := by
  have hshared : isShared (marker :: .ofNat keyId.length :: (keyId ++ rest)) = true := by
    simpa [isShared] using hmarker
  refine refuseIf_bind_ok_iff.mpr ⟨not_not.mpr hshared, ?_⟩
  simp [splitKeyId_append hid, bind, Except.bind]

theorem sealShared_ok {marker : UInt8} {keyId ad plain blob : Bytes} {nonce : Nonce} {key : Key}
    (h : sealShared c marker keyId nonce key ad plain = .ok blob) :
    blob = marker :: .ofNat keyId.length :: (keyId ++ (nonce.val ++ c.encrypt key nonce ad plain)) := by
  obtain ⟨_, h⟩ := refuseIf_bind_ok_iff.mp h
  cases h
  rfl

theorem decryptShared_encrypt (hc : c.Lawful) {keyId : Bytes} (hid : KeyIdOk keyId) {s : Key}
    {plain blob : Bytes} (h : encryptShared c keyId s plain = .ok blob) :
    readKeyId blob = .ok keyId ∧ containerOf blob = .sharedBlob ∧
      decryptShared c s blob = .ok plain := by
  cases sealShared_ok h
  refine ⟨readKeyId_append hid (.inl rfl) _, rfl, ?_⟩
  simp [decryptShared, openHeader_append hid, aeadOpen, hc.decrypt_encrypt, bind, Except.bind]

theorem decryptSharedLayerB_encrypt (hc : c.Lawful) {keyId : Bytes} (hid : KeyIdOk keyId) {s : Key}
    {path : String} {plain blob : Bytes}
    (h : encryptSharedLayerBWith c keyId s path plain = .ok blob) :
    readKeyId blob = .ok keyId ∧ containerOf blob = .sharedLayerB ∧
      decryptSharedLayerBWith c s path blob = .ok plain := by
  cases sealShared_ok h
  refine ⟨readKeyId_append hid (.inr rfl) _, rfl, ?_⟩
  simp [decryptSharedLayerBWith, openHeader_append hid, aeadOpen, hc.decrypt_encrypt, bind,
    Except.bind]

theorem loadSharedKey_ok {dir : VaultDir} {session : VaultSession} {keyId : Bytes} {s : Key} :
    loadSharedKey c dir session keyId = .ok s ↔
      KeyIdOk keyId ∧ ∃ sealed, dir.lookup (.sharedKey keyId) = some sealed ∧
        decryptBlob c session.masters sealed = .ok s.val := by
  unfold loadSharedKey validateSharedKeyId
  rw [refuseIf_bind_ok_iff, not_not]
  refine and_congr_right fun _ => ?_
  cases hlook : dir.lookup (VaultFile.sharedKey keyId) with
  | none => simp
  | some sealed =>
    simp only [Option.some.injEq, exists_eq_left']
    rw [bind_ok_iff]
    constructor
    · rintro ⟨plain, hplain, h⟩
      unfold FixedBytes.ofBytes at h
      split at h
      · rename_i hsome
        split at hsome
        · cases h
          cases hsome
          exact hplain
        · cases hsome
      · cases h
    · intro hplain
      exact ⟨s.val, hplain, by rw [FixedBytes.ofBytes_val]⟩

/-- Storing a shared key is refused, changes nothing, or publishes a file where none decrypted. -/
theorem storeSharedKey_cases {session : VaultSession} {keyId : Bytes} {s : Key}
    {disk disk' : VaultDisk} {res : Except VaultError Unit}
    (h : storeSharedKey c session keyId s disk = (res, disk')) :
    disk' = disk ∨
      ∃ sealed, res = .ok () ∧ encryptBlob c session.masters s.val = .ok sealed ∧
        (∀ other, loadSharedKey c disk.dir session keyId ≠ .ok other) ∧
        disk' = disk.after (.publish (.sharedKey keyId) sealed) := by
  unfold storeSharedKey at h
  rcases Fallible.ofExcept_bind_cases h with ⟨e, _, _, hdisk⟩ | ⟨_, _, h⟩
  · exact .inl hdisk
  rcases Disk.read_bind_cases h with ⟨e, _, _, hdisk⟩ | ⟨existing, hexisting, h⟩
  · exact .inl hdisk
  cases hexisting
  cases hstored : storedSharedKey c disk.dir session keyId with
  | some plain =>
    left
    simp only [hstored] at h
    cases h
    rfl
  | none =>
    simp only [hstored] at h
    rcases Fallible.ofExcept_bind_cases h with ⟨e, _, _, hdisk⟩ | ⟨sealed, hsealed, h⟩
    · exact .inl hdisk
    · cases h
      refine .inr ⟨sealed, rfl, hsealed, ?_, rfl⟩
      intro other hload
      obtain ⟨_, file, hlook, hopen⟩ := loadSharedKey_ok.mp hload
      simp [storedSharedKey, hlook, hopen, Except.toOption] at hstored

end Softfig.Vault
