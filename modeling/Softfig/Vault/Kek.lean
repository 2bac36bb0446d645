import Mathlib.Data.UInt
import Softfig.Lib.Except
import Softfig.Vault.Params

/-!
K and its passphrase wrappings.

A v2 wrapping carries the costs it was derived under in a header that is also
authenticated; a v1 wrapping is 88 bytes and takes its costs from `params.toml`.
Argon2id, the AEAD, the digest and the TOML codecs are other crates': they are
the parameters of everything below.

- `wrappingParams_wrap`: a wrapping written now embeds the costs it was given;
- `unwrap_wrap`, `unwrap_wrap_eq`: it opens to the same K under the same secret, and to no other K.
-/

namespace Softfig.Vault

open Softfig.Lib
open Softfig.Store (Hash)

/-! ### What the vault takes from other crates -/

/-- A type kept in a TOML file. -/
structure TomlCodec (α : Type) where
  render : α → Bytes
  parse : Bytes → Except String α

structure Crates where
  /-- `argon2::Params::new`. -/
  argon2Check : Argon2Params → Except String Unit
  /-- `hash_password_into` of a passphrase and a salt. -/
  argon2id : Bytes → Salt → Argon2Params → Except String Key
  /-- XChaCha20-Poly1305 under a key and a nonce, with associated data and a plaintext. -/
  encrypt : Key → Nonce → Bytes → Bytes → Bytes
  decrypt : Key → Nonce → Bytes → Bytes → Option Bytes
  blake3 : Bytes → Hash
  /-- HKDF-SHA-256 of a salt, a key and an info. -/
  hkdf : Bytes → Key → Bytes → Key
  /-- The first 24 bytes of keyed BLAKE3. -/
  keyedNonce : Key → Bytes → Nonce

/-- What the cipher promises: a ciphertext opens under the inputs that made it, and what opens is
longer than its plaintext by the tag. -/
structure Crates.Lawful (c : Crates) : Prop where
  decrypt_encrypt : ∀ key nonce ad plain,
    c.decrypt key nonce ad (c.encrypt key nonce ad plain) = some plain
  encrypt_length : ∀ key nonce ad plain,
    (c.encrypt key nonce ad plain).length = plain.length + aeadTagLen
  decrypt_length : ∀ key nonce ad ct plain,
    c.decrypt key nonce ad ct = some plain → ct.length = plain.length + aeadTagLen

/-- A ciphertext opens to what was sealed in it, or not at all. -/
def Crates.Authentic (c : Crates) : Prop :=
  ∀ key key' nonce ad plain plain',
    c.decrypt key' nonce ad (c.encrypt key nonce ad plain) = some plain' → plain' = plain

section

variable (c : Crates)

/-- `aead_open`. -/
def aeadOpen (key : Key) (nonce : Nonce) (ad ct : Bytes) : Except VaultError Bytes :=
  match c.decrypt key nonce ad ct with
  | some plain => .ok plain
  | none => .error .authFailed

/-- Costs Argon2 accepts, up to the memory this build derives under. -/
def validatedCosts (params : Argon2Params) : Except VaultError Unit :=
  match c.argon2Check params with
  | .error e =>
    .error (.invalidArgon2Params ("in a kek wrapping (" ++ params.display ++ "): " ++ e))
  | .ok () =>
    if maxCalibratedMCost < params.mCost then
      .error (.invalidArgon2Params ("in a kek wrapping (" ++ params.display ++
        "): m_cost exceeds the " ++ toString maxCalibratedMCost.toNat ++
        " KiB cap this build will derive under"))
    else .ok ()

def deriveFromPassphrase (passphrase : Bytes) (salt : Salt) (params : Argon2Params) :
    Except VaultError Key := do
  validatedCosts c params
  match c.argon2id passphrase salt params with
  | .ok key => .ok key
  | .error e => .error (.invalidArgon2Params ("deriving a kek key failed: " ++ e))

/-! ### The v2 header -/

/-- `u32::to_be_bytes`. -/
def toBeBytes (n : UInt32) : Bytes :=
  [.ofNat (n.toNat / 2 ^ 24), .ofNat (n.toNat / 2 ^ 16), .ofNat (n.toNat / 2 ^ 8), .ofNat n.toNat]

/-- `u32::from_be_bytes`. -/
def fromBeBytes : Bytes → UInt32
  | [a, b, c, d] =>
    .ofNat (a.toNat * 2 ^ 24 + b.toNat * 2 ^ 16 + c.toNat * 2 ^ 8 + d.toNat)
  | _ => 0

@[simp]
theorem length_toBeBytes (n : UInt32) : (toBeBytes n).length = 4 := rfl

@[simp]
theorem fromBeBytes_toBeBytes (n : UInt32) : fromBeBytes (toBeBytes n) = n := by
  have hn := n.toNat_lt
  refine UInt32.toNat_inj.mp ?_
  simp only [toBeBytes, fromBeBytes, UInt32.toNat_ofNat', UInt8.toNat_ofNat']
  omega

def kekV2Magic : Bytes := Store.utf8 "SFK2"

def kekWrappingV2 : UInt8 := 2

def v2HeaderLen : Nat := 4 + 1 + 4 + 4 + 4

def v2MinBodyLen : Nat := 16 + 24 + 32 + aeadTagLen

theorem kekV2Magic_eq : kekV2Magic = [0x53, 0x46, 0x4B, 0x32] := by
  decide +kernel

/-- The magic, and a body long enough to be a wrapping. -/
def isV2 (wrapped : Bytes) : Bool :=
  decide (v2HeaderLen + v2MinBodyLen ≤ wrapped.length) && wrapped.take 4 == kekV2Magic

def encodeV2Header (params : Argon2Params) : Bytes :=
  kekV2Magic ++ kekWrappingV2 :: (toBeBytes params.mCost ++ toBeBytes params.tCost ++
    toBeBytes params.pCost)

@[simp]
theorem length_encodeV2Header (params : Argon2Params) :
    (encodeV2Header params).length = v2HeaderLen := by
  simp [encodeV2Header, kekV2Magic_eq, v2HeaderLen]

def slice (bytes : Bytes) (lo hi : Nat) : Bytes := (bytes.take hi).drop lo

/-- The costs of a header; a version written by a newer build is refused. -/
def decodeV2Header (wrapped : Bytes) : Except VaultError Argon2Params :=
  let version := wrapped.getD 4 0
  if version ≠ kekWrappingV2 then .error (.unsupportedFormat version.toUInt32)
  else
    .ok {
      mCost := fromBeBytes (slice wrapped 5 9)
      tCost := fromBeBytes (slice wrapped 9 13)
      pCost := fromBeBytes (slice wrapped 13 17) }

theorem decodeV2Header_encode (params : Argon2Params) (rest : Bytes) :
    decodeV2Header (encodeV2Header params ++ rest) = .ok params := by
  have hversion : (encodeV2Header params ++ rest).getD 4 0 = kekWrappingV2 := by
    simp [encodeV2Header, kekV2Magic_eq]
  have hm : slice (encodeV2Header params ++ rest) 5 9 = toBeBytes params.mCost := by
    simp [slice, encodeV2Header, kekV2Magic_eq, toBeBytes]
  have ht : slice (encodeV2Header params ++ rest) 9 13 = toBeBytes params.tCost := by
    simp [slice, encodeV2Header, kekV2Magic_eq, toBeBytes]
  have hp : slice (encodeV2Header params ++ rest) 13 17 = toBeBytes params.pCost := by
    simp [slice, encodeV2Header, kekV2Magic_eq, toBeBytes]
  simp only [decodeV2Header, hversion, hm, ht, hp, fromBeBytes_toBeBytes, ne_eq, not_true_eq_false,
    ↓reduceIte]

theorem take_encodeV2Header (params : Argon2Params) (rest : Bytes) :
    (encodeV2Header params ++ rest).take v2HeaderLen = encodeV2Header params :=
  List.take_left' (length_encodeV2Header params)

theorem drop_encodeV2Header (params : Argon2Params) (rest : Bytes) :
    (encodeV2Header params ++ rest).drop v2HeaderLen = rest :=
  List.drop_left' (length_encodeV2Header params)

/-- The purpose tag with the header appended. -/
def v2Aad (base header : Bytes) : Bytes := base ++ header

/-! ### Wrapping and unwrapping -/

structure WrappingParams where
  params : Argon2Params
  /-- The blob carries its own costs. -/
  embedded : Bool
  deriving DecidableEq

/-- The costs a wrapping opens under: its own, or the fallback. -/
def wrappingParams (wrapped : Bytes) (fallback : Argon2Params) : WrappingParams :=
  if isV2 wrapped then
    match decodeV2Header wrapped with
    | .ok params => ⟨params, true⟩
    | .error _ => ⟨fallback, false⟩
  else ⟨fallback, false⟩

def wrapKekUnderPassphrase (passphrase : Bytes) (kek : Key) (params : Argon2Params)
    (ad : Bytes) (salt : Salt) (nonce : Nonce) : Except VaultError Bytes := do
  let header := encodeV2Header params
  let derived ← deriveFromPassphrase c passphrase salt params
  let ct := c.encrypt derived nonce (v2Aad ad header) kek.val
  .ok (header ++ salt.val ++ nonce.val ++ ct)

/-- Salt, nonce and ciphertext of a wrapping's body. -/
def bodyParts (body : Bytes) : Option (Salt × Nonce × Bytes) := do
  let (salt, rest) ← FixedBytes.split 16 body
  let (nonce, ct) ← FixedBytes.split 24 rest
  some (salt, nonce, ct)

def unwrapKekUnderPassphrase (passphrase wrapped : Bytes) (fallback : Argon2Params) (ad : Bytes) :
    Except VaultError Key := do
  let (params, ad, body) ←
    if isV2 wrapped then do
      let params ← decodeV2Header wrapped
      .ok (params, v2Aad ad (wrapped.take v2HeaderLen), wrapped.drop v2HeaderLen)
    else .ok (fallback, ad, wrapped)
  -- only a v1 blob can be shorter than its salt and nonce
  let some (salt, nonce, ct) := bodyParts body | .error (.malformed "wrapped kek too short")
  let derived ← deriveFromPassphrase c passphrase salt params
  let plain ← aeadOpen c derived nonce ad ct
  match FixedBytes.ofBytes 32 plain with
  | some kek => .ok kek
  | none => .error (.malformed "kek plaintext wrong length")

end

variable {c : Crates}

theorem bodyParts_append (salt : Salt) (nonce : Nonce) (ct : Bytes) :
    bodyParts (salt.val ++ (nonce.val ++ ct)) = some (salt, nonce, ct) := by
  simp [bodyParts]

/-- The parts of a wrapping that was just written. -/
theorem wrap_eq_ok {passphrase ad wrapped : Bytes} {kek : Key} {params : Argon2Params}
    {salt : Salt} {nonce : Nonce}
    (h : wrapKekUnderPassphrase c passphrase kek params ad salt nonce = .ok wrapped) :
    ∃ derived, deriveFromPassphrase c passphrase salt params = .ok derived ∧
      wrapped = encodeV2Header params ++ (salt.val ++ (nonce.val ++
        c.encrypt derived nonce (v2Aad ad (encodeV2Header params)) kek.val)) := by
  unfold wrapKekUnderPassphrase at h
  cases hkey : deriveFromPassphrase c passphrase salt params with
  | error e => rw [hkey] at h; cases h
  | ok derived =>
    rw [hkey] at h
    cases h
    exact ⟨derived, rfl, by simp only [List.append_assoc]⟩

theorem isV2_wrap (hc : c.Lawful) {passphrase ad wrapped : Bytes} {kek : Key}
    {params : Argon2Params} {salt : Salt} {nonce : Nonce}
    (h : wrapKekUnderPassphrase c passphrase kek params ad salt nonce = .ok wrapped) :
    isV2 wrapped = true := by
  obtain ⟨derived, _, rfl⟩ := wrap_eq_ok h
  have hmagic : (encodeV2Header params ++ (salt.val ++ (nonce.val ++
      c.encrypt derived nonce (v2Aad ad (encodeV2Header params)) kek.val))).take 4 = kekV2Magic := by
    simp [encodeV2Header, kekV2Magic_eq]
  simp only [isV2, hmagic, beq_self_eq_true, Bool.and_true, decide_eq_true_eq, List.length_append,
    length_encodeV2Header, FixedBytes.length_val, hc.encrypt_length, v2MinBodyLen]
  omega

/-- **A wrapping written now embeds the costs it was given**, whatever `params.toml` says. -/
theorem wrappingParams_wrap (hc : c.Lawful) {passphrase ad wrapped : Bytes} {kek : Key}
    {params : Argon2Params} {salt : Salt} {nonce : Nonce}
    (h : wrapKekUnderPassphrase c passphrase kek params ad salt nonce = .ok wrapped)
    (fallback : Argon2Params) : wrappingParams wrapped fallback = ⟨params, true⟩ := by
  have hv2 := isV2_wrap hc h
  obtain ⟨derived, _, rfl⟩ := wrap_eq_ok h
  simp only [wrappingParams, hv2, ↓reduceIte, decodeV2Header_encode]

/-- **It opens to the same K under the same secret**, whatever `params.toml` says. -/
theorem unwrap_wrap (hc : c.Lawful) {passphrase ad wrapped : Bytes} {kek : Key}
    {params : Argon2Params} {salt : Salt} {nonce : Nonce}
    (h : wrapKekUnderPassphrase c passphrase kek params ad salt nonce = .ok wrapped)
    (fallback : Argon2Params) :
    unwrapKekUnderPassphrase c passphrase wrapped fallback ad = .ok kek := by
  have hv2 := isV2_wrap hc h
  obtain ⟨derived, hderived, rfl⟩ := wrap_eq_ok h
  unfold unwrapKekUnderPassphrase
  simp [hv2, decodeV2Header_encode, bodyParts_append, hderived, aeadOpen, hc.decrypt_encrypt, bind,
    Except.bind]

/-- **It opens to no other K**, whatever secret is tried. -/
theorem unwrap_wrap_eq (hc : c.Lawful) (ha : c.Authentic) {passphrase ad wrapped : Bytes} {kek : Key}
    {params : Argon2Params} {salt : Salt} {nonce : Nonce}
    (h : wrapKekUnderPassphrase c passphrase kek params ad salt nonce = .ok wrapped)
    {other : Bytes} {fallback : Argon2Params} {kek' : Key}
    (hopen : unwrapKekUnderPassphrase c other wrapped fallback ad = .ok kek') : kek' = kek := by
  have hv2 := isV2_wrap hc h
  obtain ⟨derived, _, rfl⟩ := wrap_eq_ok h
  unfold unwrapKekUnderPassphrase at hopen
  simp only [hv2, ↓reduceIte, decodeV2Header_encode, take_encodeV2Header, drop_encodeV2Header]
    at hopen
  obtain ⟨_, hheader, hopen⟩ := bind_ok_iff.mp hopen
  cases hheader
  obtain ⟨_, hparts, hopen⟩ := bind_ok_iff.mp hopen
  cases hparts
  rw [bodyParts_append] at hopen
  obtain ⟨derived', _, hopen⟩ := bind_ok_iff.mp hopen
  obtain ⟨plain, hplain, hopen⟩ := bind_ok_iff.mp hopen
  have hsame : plain = kek.val := by
    unfold aeadOpen at hplain
    split at hplain
    · rename_i hdecrypt
      cases hplain
      exact ha _ _ _ _ _ _ hdecrypt
    · cases hplain
  subst hsame
  rw [FixedBytes.ofBytes_val] at hopen
  cases hopen
  rfl

/-! ### An instance -/

/-- The tag of the instance below: the length of the associated data, then a checksum. -/
def checksumTag (key : Key) (nonce : Nonce) (ad plain : Bytes) : Bytes :=
  .ofNat ad.length :: List.replicate 15 (key.val ++ nonce.val ++ ad ++ plain).sum

@[simp]
theorem length_checksumTag (key : Key) (nonce : Nonce) (ad plain : Bytes) :
    (checksumTag key nonce ad plain).length = aeadTagLen := rfl

/-- A sum of bytes in place of each primitive: a ciphertext is the plaintext and a checksum of all
that went into it, and opens where the checksum is right. -/
def checksumCrates : Crates where
  argon2Check params :=
    if params.mCost.toNat < 8 * params.pCost.toNat then .error "memory cost is too small"
    else if params.tCost = 0 then .error "time cost is too small"
    else if params.pCost = 0 then .error "not enough threads"
    else .ok ()
  argon2id passphrase salt _ :=
    .ok ⟨(passphrase ++ salt.val ++ List.replicate 32 0).take 32, by simp⟩
  encrypt key nonce ad plain := plain ++ checksumTag key nonce ad plain
  decrypt key nonce ad ct :=
    let plain := ct.take (ct.length - aeadTagLen)
    if ct = plain ++ checksumTag key nonce ad plain then some plain else none
  blake3 bytes := ⟨bytes⟩
  hkdf _ key _ := key
  keyedNonce key plain := ⟨List.replicate 24 (key.val ++ plain).sum, List.length_replicate⟩

theorem checksumCrates_lawful : checksumCrates.Lawful where
  decrypt_encrypt key nonce ad plain := by
    simp [checksumCrates]
  encrypt_length key nonce ad plain := by
    simp [checksumCrates]
  decrypt_length key nonce ad ct plain h := by
    simp only [checksumCrates] at h
    split at h
    · rename_i htag
      cases h
      have hlen := congrArg List.length htag
      rwa [List.length_append, length_checksumTag] at hlen
    · cases h

theorem checksumCrates_authentic : checksumCrates.Authentic := by
  intro key key' nonce ad plain plain' h
  simp only [checksumCrates, List.length_append, length_checksumTag, Nat.add_sub_cancel,
    List.take_left'] at h
  split at h
  · cases h
    rfl
  · cases h

end Softfig.Vault
