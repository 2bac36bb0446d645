import Mathlib.Data.List.Sort
import Mathlib.Data.List.Destutter
import Mathlib.Order.Lex
import Mathlib.Data.Nat.Basic
import Softfig.Vault.Kek

/-!
What the members of a key ceremony hash and sign, and what their key is derived from.

Hash, key derivation and signature check are parameters. Every encoding starts
with its own domain and has one field of variable length at most, so it is
injective.

- `signingBytes_inj`, `commit_ne_reveal`: a signed message names its ceremony,
  its signer and its value;
- `memberSetInput_inj`: what is hashed of a member set names the set;
- `deriveSharedKey_perm`: the key does not depend on the order of the members.
-/

namespace Softfig.KeyCeremony

open Softfig.Vault (Bytes FixedBytes toBeBytes)

/-! ### Parameters -/

/-- An Ed25519 identity key, by which a device is known. -/
abbrev DeviceId := FixedBytes 32

instance lawfulBEqDeviceId : LawfulBEq DeviceId := inferInstance

abbrev Contribution := FixedBytes 32

abbrev CeremonyNonce := FixedBytes 32

abbrev Commitment := FixedBytes 32

abbrev SharedKey := FixedBytes 32

abbrev Signature := FixedBytes 64

/-- The primitives the ceremony is built on. -/
structure Crypto where
  blake3 : Bytes → FixedBytes 32
  /-- HKDF-SHA-256 of 32 bytes: salt, input keying material, info. -/
  hkdf : Bytes → Bytes → Bytes → FixedBytes 32
  /-- The public key decodes and the signature verifies under it. -/
  verify : DeviceId → Bytes → Signature → Bool
  /-- The signature of a device; Ed25519 draws no randomness. -/
  sign : DeviceId → Bytes → Signature

/-! ### Order of devices -/

/-- The order of byte arrays. -/
def idLe (a b : DeviceId) : Prop := a.val.map UInt8.toNat ≤ b.val.map UInt8.toNat

instance : DecidableRel idLe := fun _ _ => inferInstanceAs (Decidable (_ ≤ _))

theorem idLe_antisymm {a b : DeviceId} (hab : idLe a b) (hba : idLe b a) : a = b := by
  have h := le_antisymm hab hba
  exact Subtype.ext (List.map_injective_iff.mpr (fun _ _ => UInt8.toNat_inj.mp) h)

instance : Std.Total idLe := ⟨fun a b => le_total (a.val.map _) (b.val.map _)⟩

instance : IsTrans DeviceId idLe := ⟨fun _ _ _ => le_trans⟩

/-- `sort_unstable`. -/
def sortIds (ids : List DeviceId) : List DeviceId := ids.insertionSort idLe

theorem sortIds_perm (ids : List DeviceId) : (sortIds ids).Perm ids :=
  List.perm_insertionSort idLe ids

theorem sortIds_eq_of_perm {ids ids' : List DeviceId} (h : ids.Perm ids') :
    sortIds ids = sortIds ids' := by
  refine List.Perm.eq_of_pairwise (fun _ _ _ _ => idLe_antisymm) (List.pairwise_insertionSort _ _)
    (List.pairwise_insertionSort _ _) ?_
  exact (sortIds_perm ids).trans (h.trans (sortIds_perm ids').symm)

theorem perm_of_sortIds_eq {ids ids' : List DeviceId} (h : sortIds ids = sortIds ids') :
    ids.Perm ids' :=
  (sortIds_perm ids).symm.trans (h ▸ sortIds_perm ids')

/-- A sorted list without equal neighbours has no duplicates. -/
theorem nodup_of_chain {ids : List DeviceId} (hsorted : ids.Pairwise idLe)
    (hchain : ids.IsChain (· ≠ ·)) : ids.Nodup := by
  induction ids with
  | nil => exact List.nodup_nil
  | cons a ids ih =>
    obtain ⟨hle, hrest⟩ := List.pairwise_cons.mp hsorted
    refine List.nodup_cons.mpr ⟨?_, ih hrest hchain.tail⟩
    intro hmem
    cases ids with
    | nil => cases hmem
    | cons b ids =>
      have hne : a ≠ b := (List.isChain_cons_cons.mp hchain).1
      rcases List.mem_cons.mp hmem with rfl | hlater
      · exact hne rfl
      · have hback := (List.pairwise_cons.mp hrest).1 a hlater
        exact hne (idLe_antisymm (hle b List.mem_cons_self) hback)

/-- The check for duplicates: sort, then compare neighbours. -/
theorem sortIds_isChain_iff {ids : List DeviceId} :
    (sortIds ids).IsChain (· ≠ ·) ↔ ids.Nodup := by
  constructor
  · intro h
    exact (sortIds_perm ids).nodup_iff.mp (nodup_of_chain (List.pairwise_insertionSort _ _) h)
  · intro h
    exact List.Pairwise.isChain ((sortIds_perm ids).nodup_iff.mpr h)

theorem sortIds_sortIds (ids : List DeviceId) : sortIds (sortIds ids) = sortIds ids :=
  sortIds_eq_of_perm (sortIds_perm ids)

/-! ### Hashed inputs -/

def commitmentDomain : Bytes := Store.utf8 "softfig/shared-key/commitment/v1"

def commitDomain : Bytes := Store.utf8 "softfig/shared-key/commit/v1"

def revealDomain : Bytes := Store.utf8 "softfig/shared-key/reveal/v1"

def sharedKeyInfoPrefix : Bytes := Store.utf8 "softfig.shared-subtree.v1"

def keyIdDomain : Bytes := Store.utf8 "softfig/shared-key/key-id/v1"

def memberSetDomain : Bytes := Store.utf8 "softfig/shared-key/member-set/v1"

def commitmentInput (nonce : CeremonyNonce) (deviceId : DeviceId) (r : Contribution) : Bytes :=
  commitmentDomain ++ nonce.val ++ deviceId.val ++ r.val

/-- The count, then the members in order. -/
def memberSetInput (members : List DeviceId) : Bytes :=
  memberSetDomain ++ toBeBytes (.ofNat members.length) ++ (sortIds members).flatMap fun id => id.val

section

variable (p : Crypto)

def commitment (nonce : CeremonyNonce) (deviceId : DeviceId) (r : Contribution) : Commitment :=
  p.blake3 (commitmentInput nonce deviceId r)

def memberSetDigest (members : List DeviceId) : FixedBytes 32 :=
  p.blake3 (memberSetInput members)

end

/-! ### Signed messages -/

/-- A message of a ceremony: nonce, chain, member set, signer and one value. -/
def signingBytes (domain : Bytes) (nonce : CeremonyNonce) (chainId : Bytes)
    (msd : FixedBytes 32) (deviceId : DeviceId) (value : FixedBytes 32) : Bytes :=
  domain ++ nonce.val ++ toBeBytes (.ofNat chainId.length) ++ chainId ++ msd.val ++ deviceId.val ++
    value.val

def commitSigningBytes : CeremonyNonce → Bytes → FixedBytes 32 → DeviceId → Commitment → Bytes :=
  signingBytes commitDomain

def revealSigningBytes : CeremonyNonce → Bytes → FixedBytes 32 → DeviceId → Contribution → Bytes :=
  signingBytes revealDomain

section

variable (p : Crypto)

def verifySig (pubkey : DeviceId) (msg sig : Bytes) : Bool :=
  match FixedBytes.ofBytes 64 sig with
  | none => false
  | some sigBytes => p.verify pubkey msg sigBytes

def verifyCommitSig (nonce : CeremonyNonce) (chainId : Bytes) (msd : FixedBytes 32)
    (deviceId : DeviceId) (commitment : Commitment) (sig : Bytes) : Bool :=
  verifySig p deviceId (commitSigningBytes nonce chainId msd deviceId commitment) sig

def verifyRevealSig (nonce : CeremonyNonce) (chainId : Bytes) (msd : FixedBytes 32)
    (deviceId : DeviceId) (r : Contribution) (sig : Bytes) : Bool :=
  verifySig p deviceId (revealSigningBytes nonce chainId msd deviceId r) sig

end

/-! ### The key -/

structure MemberContribution where
  deviceId : DeviceId
  r : Contribution
  deriving DecidableEq

/-- `sort_by_key` of the device ids, which is stable. -/
def sortContributions (contributions : List MemberContribution) : List MemberContribution :=
  contributions.insertionSort fun a b => idLe a.deviceId b.deviceId

section

variable (p : Crypto)

def deriveSharedKey (nonce : CeremonyNonce) (contributions : List MemberContribution) : SharedKey :=
  let sorted := sortContributions contributions
  p.hkdf nonce.val (sorted.flatMap fun mc => mc.r.val)
    (sharedKeyInfoPrefix ++ toBeBytes (.ofNat sorted.length) ++
      sorted.flatMap fun mc => mc.deviceId.val)

def keyId (sharedKey : SharedKey) : String :=
  "S-" ++ Store.hexEncode ((p.blake3 (keyIdDomain ++ sharedKey.val)).val.take 8)

end

/-! ### What the encodings tell apart -/

theorem FixedBytes.append_inj {n : Nat} {a b : FixedBytes n} {s t : Bytes}
    (h : a.val ++ s = b.val ++ t) : a = b ∧ s = t := by
  obtain ⟨hval, hrest⟩ := List.append_inj h (by rw [FixedBytes.length_val, FixedBytes.length_val])
  exact ⟨Subtype.ext hval, hrest⟩

theorem length_signingBytes (domain : Bytes) (nonce : CeremonyNonce) (chainId : Bytes)
    (msd : FixedBytes 32) (deviceId : DeviceId) (value : FixedBytes 32) :
    (signingBytes domain nonce chainId msd deviceId value).length =
      domain.length + chainId.length + 132 := by
  simp only [signingBytes, List.length_append, FixedBytes.length_val, Vault.length_toBeBytes]
  omega

/-- **A signed message names what it was signed for.** The length of the chain id is wrapped to 32
bits, but the total length tells it apart as well. -/
theorem signingBytes_inj {domain : Bytes} {nonce nonce' : CeremonyNonce} {chainId chainId' : Bytes}
    {msd msd' : FixedBytes 32} {deviceId deviceId' : DeviceId} {value value' : FixedBytes 32}
    (h : signingBytes domain nonce chainId msd deviceId value =
      signingBytes domain nonce' chainId' msd' deviceId' value') :
    nonce = nonce' ∧ chainId = chainId' ∧ msd = msd' ∧ deviceId = deviceId' ∧ value = value' := by
  have hlen := congrArg List.length h
  rw [length_signingBytes, length_signingBytes] at hlen
  have hchainLen : chainId.length = chainId'.length := by omega
  simp only [signingBytes, List.append_assoc, List.append_cancel_left_eq] at h
  obtain ⟨hnonce, h⟩ := FixedBytes.append_inj h
  obtain ⟨-, h⟩ := List.append_inj h rfl
  obtain ⟨hchain, h⟩ := List.append_inj h hchainLen
  obtain ⟨hmsd, h⟩ := FixedBytes.append_inj h
  obtain ⟨hid, h⟩ := FixedBytes.append_inj h
  exact ⟨hnonce, hchain, hmsd, hid, Subtype.ext h⟩

theorem domains_ne : commitDomain.length = revealDomain.length ∧ commitDomain ≠ revealDomain := by
  decide +kernel

/-- No message is both a commit and a reveal. -/
theorem commit_ne_reveal {nonce nonce' : CeremonyNonce} {chainId chainId' : Bytes}
    {msd msd' : FixedBytes 32} {deviceId deviceId' : DeviceId} {value value' : FixedBytes 32} :
    commitSigningBytes nonce chainId msd deviceId value ≠
      revealSigningBytes nonce' chainId' msd' deviceId' value' := by
  intro h
  simp only [commitSigningBytes, revealSigningBytes, signingBytes, List.append_assoc] at h
  exact domains_ne.2 (List.append_inj h domains_ne.1).1

/-- Fields of one length that are written one after another are read back. -/
theorem flatMap_val_inj {n : Nat} (hn : 0 < n) {as bs : List (FixedBytes n)}
    (h : (as.flatMap fun a => a.val) = bs.flatMap fun b => b.val) : as = bs := by
  induction as generalizing bs with
  | nil =>
    cases bs with
    | nil => rfl
    | cons b bs =>
      have hlen := congrArg List.length h
      simp only [List.flatMap_nil, List.flatMap_cons, List.length_nil, List.length_append,
        FixedBytes.length_val] at hlen
      omega
  | cons a as ih =>
    cases bs with
    | nil =>
      have hlen := congrArg List.length h
      simp only [List.flatMap_nil, List.flatMap_cons, List.length_nil, List.length_append,
        FixedBytes.length_val] at hlen
      omega
    | cons b bs =>
      rw [List.flatMap_cons, List.flatMap_cons] at h
      obtain ⟨hhead, hrest⟩ := FixedBytes.append_inj h
      rw [hhead, ih hrest]

/-- **What is hashed of a member set names the set.** -/
theorem memberSetInput_inj {members members' : List DeviceId}
    (h : memberSetInput members = memberSetInput members') : members.Perm members' := by
  simp only [memberSetInput, List.append_assoc, List.append_cancel_left_eq] at h
  exact perm_of_sortIds_eq (flatMap_val_inj (by decide) (List.append_inj h rfl).2)

/-- The order in which contributions are listed does not matter, as no device gives two. -/
theorem sortContributions_perm {contributions contributions' : List MemberContribution}
    (hnodup : (contributions.map (·.deviceId)).Nodup) (h : contributions.Perm contributions') :
    sortContributions contributions = sortContributions contributions' := by
  have hself := List.perm_insertionSort
    (fun a b : MemberContribution => idLe a.deviceId b.deviceId) contributions
  have hother := List.perm_insertionSort
    (fun a b : MemberContribution => idLe a.deviceId b.deviceId) contributions'
  have : Std.Total fun a b : MemberContribution => idLe a.deviceId b.deviceId :=
    ⟨fun a b => Std.Total.total a.deviceId b.deviceId⟩
  have : IsTrans MemberContribution fun a b => idLe a.deviceId b.deviceId :=
    ⟨fun a b c hab hbc => IsTrans.trans a.deviceId b.deviceId c.deviceId hab hbc⟩
  refine List.Perm.eq_of_pairwise ?_ (List.pairwise_insertionSort _ _)
    (List.pairwise_insertionSort _ _) (hself.trans (h.trans hother.symm))
  intro a b ha hb hab hba
  have hb' := h.symm.subset (hother.subset hb)
  exact List.inj_on_of_nodup_map hnodup (hself.subset ha) hb' (idLe_antisymm hab hba)

/-- **The key does not depend on the order in which the members are listed.** -/
theorem deriveSharedKey_perm {p : Crypto} {nonce : CeremonyNonce}
    {contributions contributions' : List MemberContribution}
    (hnodup : (contributions.map (·.deviceId)).Nodup) (h : contributions.Perm contributions') :
    deriveSharedKey p nonce contributions = deriveSharedKey p nonce contributions' := by
  rw [deriveSharedKey, deriveSharedKey, sortContributions_perm hnodup h]

end Softfig.KeyCeremony
