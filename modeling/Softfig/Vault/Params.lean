import Mathlib.Order.Basic
import Softfig.Store.Hash

/-!
The constants of the vault, the Argon2id costs and the errors of its verbs.

Costs are compared by memory and by memory-time area, so they are only
partially ordered; what the vault relies on is that being at least as strong is
reflexive and transitive.

- `Argon2Params.area_eq`: the area is the product, without wrapping;
- `atLeastAsStrongAs_refl`, `atLeastAsStrongAs_trans`.
-/

namespace Softfig.Vault

abbrev Bytes := Store.Bytes

/-- A byte array of a fixed length. -/
def FixedBytes (n : Nat) := { bytes : Bytes // bytes.length = n }

instance (n : Nat) : DecidableEq (FixedBytes n) :=
  inferInstanceAs (DecidableEq { bytes : Bytes // bytes.length = n })

namespace FixedBytes

variable {n : Nat}

@[simp]
theorem length_val (b : FixedBytes n) : b.val.length = n := b.property

/-- `try_into` of a slice. -/
def ofBytes (n : Nat) (bytes : Bytes) : Option (FixedBytes n) :=
  if h : bytes.length = n then some ⟨bytes, h⟩ else none

@[simp]
theorem ofBytes_val (b : FixedBytes n) : ofBytes n b.val = some b :=
  dif_pos b.property

/-- The first `n` bytes and the rest, when there are that many. -/
def split (n : Nat) (bytes : Bytes) : Option (FixedBytes n × Bytes) :=
  if h : n ≤ bytes.length then some (⟨bytes.take n, by simp [h]⟩, bytes.drop n) else none

@[simp]
theorem split_append (b : FixedBytes n) (rest : Bytes) :
    split n (b.val ++ rest) = some (b, rest) := by
  obtain ⟨bytes, hlen⟩ := b
  subst hlen
  simp [split]

end FixedBytes

def formatVersion : UInt32 := 1

/-- `KEK_SALT_LEN`. -/
abbrev Salt := FixedBytes 16

/-- `AEAD_NONCE_LEN`. -/
abbrev Nonce := FixedBytes 24

/-- `KEY_LEN`: the length of K, of a master key and of every key derived from them. -/
abbrev Key := FixedBytes 32

/-- Bytes the authentication tag adds to a ciphertext. -/
def aeadTagLen : Nat := 16

/-! ### Domain separators -/

namespace aad

def kekSelf : Bytes := Store.utf8 "softfig.kek.self.v1"
def kekRecovery : Bytes := Store.utf8 "softfig.kek.recovery.v1"
def identity : Bytes := Store.utf8 "softfig.identity.v1"
def transport : Bytes := Store.utf8 "softfig.transport.v1"

def blob : Bytes := Store.utf8 "softfig.blob.v1"

/-- `LAYER_B_AAD`. -/
def layerB : Bytes := Store.utf8 "softfig.layer-b.v1"

/-- `LAYER_B_HKDF_INFO`. -/
def layerBHkdfInfo : Bytes := Store.utf8 "softfig:layer-b/v1"

/-- `SHARED_BLOB_AAD`, also the `info` of its per-blob key. -/
def sharedBlob : Bytes := Store.utf8 "softfig.shared.v1"

/-- `SHARED_LAYER_B_AAD`. -/
def sharedLayerB : Bytes := Store.utf8 "softfig.layer-b-shared.v1"

/-- `SHARED_LAYER_B_HKDF_INFO`. -/
def sharedLayerBHkdfInfo : Bytes := Store.utf8 "softfig:layer-b-shared/v1"

/-- Master keys are bound to their generation. -/
def master (id : UInt32) : Bytes := Store.utf8 ("softfig.master.v1." ++ toString id.toNat)

end aad

/-! ### Argon2id costs -/

structure Argon2Params where
  /-- Memory in KiB. -/
  mCost : UInt32
  tCost : UInt32
  pCost : UInt32
  deriving DecidableEq

/-- The default of a fresh vault and the floor of a rewrap. -/
def owaspBaseline : Argon2Params := ⟨65536, 3, 4⟩

/-- The most memory the vault derives under. -/
def maxCalibratedMCost : UInt32 := 1024 * 1024

namespace Argon2Params

/-- Memory times iterations, in 64 bits. -/
def area (p : Argon2Params) : UInt64 := p.mCost.toUInt64 * p.tCost.toUInt64

/-- Neither the area nor the memory is smaller. -/
def atLeastAsStrongAs (p other : Argon2Params) : Bool :=
  decide (other.area ≤ p.area) && decide (other.mCost ≤ p.mCost)

/-- Two 32-bit costs never overflow their product. -/
theorem area_eq (p : Argon2Params) : p.area.toNat = p.mCost.toNat * p.tCost.toNat := by
  have hm := p.mCost.toNat_lt
  have ht := p.tCost.toNat_lt
  have hbound : p.mCost.toNat * p.tCost.toNat < 2 ^ 64 :=
    calc p.mCost.toNat * p.tCost.toNat
        ≤ p.mCost.toNat * 2 ^ 32 := Nat.mul_le_mul_left _ ht.le
      _ < 2 ^ 32 * 2 ^ 32 := Nat.mul_lt_mul_of_pos_right hm (by omega)
  rw [area, UInt64.toNat_mul, UInt32.toNat_toUInt64, UInt32.toNat_toUInt64]
  exact Nat.mod_eq_of_lt hbound

theorem atLeastAsStrongAs_iff {p other : Argon2Params} :
    p.atLeastAsStrongAs other = true ↔ other.area ≤ p.area ∧ other.mCost ≤ p.mCost := by
  simp [atLeastAsStrongAs]

theorem atLeastAsStrongAs_refl (p : Argon2Params) : p.atLeastAsStrongAs p = true :=
  atLeastAsStrongAs_iff.mpr ⟨UInt64.le_refl _, UInt32.le_refl _⟩

theorem atLeastAsStrongAs_trans {p q r : Argon2Params} (hpq : p.atLeastAsStrongAs q = true)
    (hqr : q.atLeastAsStrongAs r = true) : p.atLeastAsStrongAs r = true := by
  obtain ⟨harea, hmem⟩ := atLeastAsStrongAs_iff.mp hpq
  obtain ⟨harea', hmem'⟩ := atLeastAsStrongAs_iff.mp hqr
  exact atLeastAsStrongAs_iff.mpr ⟨UInt64.le_trans harea' harea, UInt32.le_trans hmem' hmem⟩

/-- Memory as an operator reads it; what is no whole number of MiB stays in KiB. -/
def formatKib (kib : Nat) : String :=
  if 1024 * 1024 ≤ kib ∧ kib % (1024 * 1024) = 0 then toString (kib / (1024 * 1024)) ++ " GiB"
  else if 1024 ≤ kib ∧ kib % 1024 = 0 then toString (kib / 1024) ++ " MiB"
  else toString kib ++ " KiB"

def display (p : Argon2Params) : String :=
  "m=" ++ formatKib p.mCost.toNat ++ " t=" ++ toString p.tCost.toNat ++ " p=" ++
    toString p.pCost.toNat

end Argon2Params

/-- The content of `params.toml`. -/
structure VaultParams where
  formatVersion : UInt32
  argon2 : Argon2Params
  deriving DecidableEq

/-- The content of `active.toml`. -/
structure ActiveKey where
  masterKeyId : UInt32
  deriving DecidableEq

/-! ### Doors and errors -/

/-- One door into K, in canonical order. -/
inductive RecoveryPath where
  /-- `k.self`. -/
  | passphrase
  /-- `k.recovery`. -/
  | phrase
  /-- The directory of peer wrappings, which nothing writes yet. -/
  | peers
  deriving DecidableEq

def RecoveryPath.all : List RecoveryPath := [.passphrase, .phrase, .peers]

@[simp]
theorem RecoveryPath.mem_all (path : RecoveryPath) : path ∈ all := by
  cases path <;> decide

def RecoveryPath.token : RecoveryPath → String
  | .passphrase => "passphrase"
  | .phrase => "phrase"
  | .peers => "peers"

inductive VaultError where
  | notInitialized
  | alreadyInitialized
  | unsupportedFormat (version : UInt32)
  | malformed (what : String)
  | authFailed
  | unknownMasterKey (id : UInt32)
  | malformedBlob
  | sharedKeyUnavailable (keyId : Bytes)
  | escrowMalformed (reason : String)
  | escrowTargetExists
  | wrappingExists (path : RecoveryPath)
  | wrappingAbsent (path : RecoveryPath)
  | lastWrapping (path : RecoveryPath)
  | noVerifiedEscrow (removing : RecoveryPath) (reason : String)
  | authenticatedWrapping (path : RecoveryPath)
  | peerWrappingUnsupported
  | noUsableDeclaration (reason : String)
  | invalidArgon2Params (reason : String)
  | weakerParams (target floor what : String)
  | io (reason : String)
  | tomlDe (reason : String)
  | tomlSer (reason : String)
  /-- A message of the command line itself. -/
  | cli (message : String)
  deriving DecidableEq

end Softfig.Vault
