import Softfig.KeyCeremony.Invariant

/-!
The drive loop of one member: it signs and sends its own messages, checks every
frame it receives and feeds its machine.

The loop blocks on the transport, so it is a state that receives one frame at a
time. What the transport reports of a broadcast, and which frames it delivers,
is up to the environment.

- `Session.start_inv`, `Session.recv_inv`: what holds of a member that is fed
  anything whose signatures are allowed.
-/

namespace Softfig.KeyCeremony

open Softfig.Lib
open Softfig.Vault (Bytes FixedBytes)

/-! ### Frames -/

structure SharedKeyCommit where
  nonce : Bytes
  chainId : Bytes
  deviceId : Bytes
  commitment : Bytes
  signature : Bytes
  deriving DecidableEq

structure SharedKeyReveal where
  nonce : Bytes
  chainId : Bytes
  deviceId : Bytes
  contribution : Bytes
  signature : Bytes
  deriving DecidableEq

structure SharedKeyHandoff where
  chainId : Bytes
  transcriptRecord : String
  sharedKey : Bytes
  deriving DecidableEq

inductive Frame where
  | sharedKeyCommit (c : SharedKeyCommit)
  | sharedKeyReveal (r : SharedKeyReveal)
  | sharedKeyHandoff (h : SharedKeyHandoff)
  /-- Any other kind, or none. -/
  | other
  deriving DecidableEq

inductive CeremonyOutcome where
  | derived (s : SharedKey) (t : Transcript)
  | handoff (h : SharedKeyHandoff)
  deriving DecidableEq

/-! ### Feeding the machine -/

def toId32 (bytes : Bytes) : Except NetError (FixedBytes 32) :=
  match FixedBytes.ofBytes 32 bytes with
  | none => .error (.protocol "ceremony frame field is not 32 bytes")
  | some id => .ok id

def toSig64 (bytes : Bytes) : Except NetError Signature :=
  match FixedBytes.ofBytes 64 bytes with
  | none => .error (.protocol "ceremony frame signature is not 64 bytes")
  | some sig => .ok sig

section

variable (p : Crypto)

def feedCommit (nonce : CeremonyNonce) (chainId : Bytes) (c : SharedKeyCommit) : CeremonyM Unit := do
  Fallible.ofExcept (refuseIf (c.nonce ≠ nonce.val ∨ c.chainId ≠ chainId)
    (.protocol "shared-key-commit bound to a different ceremony"))
  let msd ← Fallible.gets Ceremony.memberSetDigest
  let deviceId ← Fallible.ofExcept (toId32 c.deviceId)
  let commitment ← Fallible.ofExcept (toId32 c.commitment)
  Fallible.ofExcept (refuseIf
    (verifyCommitSig p nonce chainId msd deviceId commitment c.signature = false)
    (.protocol "shared-key-commit signature failed to verify"))
  let commitSig ← Fallible.ofExcept (toSig64 c.signature)
  Ceremony.acceptCommitment deviceId commitment commitSig

def feedReveal (nonce : CeremonyNonce) (chainId : Bytes) (r : SharedKeyReveal) : CeremonyM Unit := do
  Fallible.ofExcept (refuseIf (r.nonce ≠ nonce.val ∨ r.chainId ≠ chainId)
    (.protocol "shared-key-reveal bound to a different ceremony"))
  let msd ← Fallible.gets Ceremony.memberSetDigest
  let deviceId ← Fallible.ofExcept (toId32 r.deviceId)
  let contribution ← Fallible.ofExcept (toId32 r.contribution)
  Fallible.ofExcept (refuseIf
    (verifyRevealSig p nonce chainId msd deviceId contribution r.signature = false)
    (.protocol "shared-key-reveal signature failed to verify"))
  let revealSig ← Fallible.ofExcept (toSig64 r.signature)
  Ceremony.acceptReveal p deviceId contribution revealSig

/-- The reveals that came early, until the phase closes. -/
def feedBuffered (nonce : CeremonyNonce) (chainId : Bytes) : List SharedKeyReveal → CeremonyM Unit
  | [] => pure ()
  | r :: rest => do
    let phase ← Fallible.gets Ceremony.phase
    if phase ≠ .revealing then pure ()
    else do
      feedReveal p nonce chainId r
      feedBuffered nonce chainId rest

end

/-! ### The loop -/

/-- A member that runs a ceremony: its machine, the reveals it holds back, what it signed and sent,
and what its loop returned. -/
structure Session where
  ceremony : Ceremony
  buffered : List SharedKeyReveal
  signed : List Bytes
  sent : List Frame
  result : Option (Except NetError CeremonyOutcome)

namespace Session

/-- Run a part of the loop; its error ends the loop. -/
def andThen (s : Session) (x : CeremonyM Unit) (next : Session → Session) : Session :=
  match x s.ceremony with
  | (.error e, c) => { s with ceremony := c, result := some (.error e) }
  | (.ok (), c) => next { s with ceremony := c }

def stop (s : Session) (text : String) : Session :=
  { s with result := some (.error (.protocol text)) }

/-- Past the second loop there is a key, or none. -/
def settle (s : Session) : Session :=
  match s.ceremony.phase with
  | .revealing => s
  | .derived =>
    match s.ceremony.sharedKey, s.ceremony.transcript with
    | some key, some transcript => { s with result := some (.ok (.derived key transcript)) }
    | none, _ =>
      { s with result := some (.error (.expected "a derived ceremony holds its shared key")) }
    | _, none =>
      { s with result := some (.error (.expected "a derived ceremony holds its transcript")) }
  | _ => s.stop "ceremony ended without deriving a key"

section

variable (p : Crypto)

def commitFrame (c : Ceremony) : SharedKeyCommit :=
  ⟨c.nonce.val, c.chainId, c.localId.val, (c.localCommitment p).val,
    (p.sign c.localId (c.commitBytes c.localId (c.localCommitment p))).val⟩

def revealFrame (c : Ceremony) : SharedKeyReveal :=
  ⟨c.nonce.val, c.chainId, c.localId.val, c.localR.val,
    (p.sign c.localId (c.revealBytes c.localId c.localR)).val⟩

/-- All commitments are in: sign, send and record our reveal, then feed those that came early. -/
def reveal (broadcast : Except NetError Unit) (s : Session) : Session :=
  let c := s.ceremony
  let msg := c.revealBytes c.localId c.localR
  let s : Session := { s with
    signed := s.signed ++ [msg]
    sent := s.sent ++ [.sharedKeyReveal (revealFrame p c)] }
  s.andThen (Fallible.ofExcept broadcast) fun s =>
    s.andThen (Ceremony.acceptReveal p c.localId c.localR (p.sign c.localId msg)) fun s =>
      s.andThen (feedBuffered p c.nonce c.chainId s.buffered) settle

/-- The head of the first loop. -/
def collect (broadcast : Except NetError Unit) (s : Session) : Session :=
  if s.ceremony.phase = .committing then s else s.reveal p broadcast

/-- Sign and send our commitment, and wait for the others'. -/
def start (c : Ceremony) (broadcast broadcast' : Except NetError Unit) : Session :=
  let msg := c.commitBytes c.localId (c.localCommitment p)
  let s : Session := ⟨c, [], [msg], [], none⟩
  s.andThen (Ceremony.recordLocalCommitSig (p.sign c.localId msg)) fun s =>
    { s with sent := [.sharedKeyCommit (commitFrame p c)] }.andThen
      (Fallible.ofExcept broadcast) (collect p broadcast')

/-- What the loop does with what the transport hands it. -/
def recv (received : Except NetError Frame) (broadcast : Except NetError Unit) (s : Session) :
    Session :=
  match received with
  | .error e => { s with result := some (.error e) }
  | .ok frame =>
    let c := s.ceremony
    if c.phase = .committing then
      match frame with
      | .sharedKeyCommit commit =>
        s.andThen (feedCommit p c.nonce c.chainId commit) (collect p broadcast)
      | .sharedKeyReveal r => { s with buffered := s.buffered ++ [r] }
      | .sharedKeyHandoff h => { s with result := some (.ok (.handoff h)) }
      | .other => s.stop "unexpected frame during the ceremony commit phase"
    else
      match frame with
      | .sharedKeyReveal r => s.andThen (feedReveal p c.nonce c.chainId r) settle
      | .sharedKeyCommit _ =>
        s.stop "shared-key-commit arrived during the ceremony reveal phase"
      | _ => s.stop "unexpected frame during the ceremony reveal phase"

end

end Session

/-! ### What the loop keeps -/

variable {p : Crypto} {Auth : DeviceId → Bytes → Signature → Prop}

/-- Whatever this signature verifies for may be accepted. -/
def SigAllowed (p : Crypto) (Auth : DeviceId → Bytes → Signature → Prop) (signature : Bytes) : Prop :=
  ∀ id msg sig, FixedBytes.ofBytes 64 signature = some sig → p.verify id msg sig = true →
    Auth id msg sig

namespace Ceremony

/-- A commitment of every member is held. -/
def Opened (c : Ceremony) : Prop := ∀ id ∈ c.members, (c.commitmentOf id).isSome = true

/-- The machine, and where it comes from. -/
def Kept (p : Crypto) (Auth : DeviceId → Bytes → Signature → Prop) (c₀ c : Ceremony) : Prop :=
  c.Inv p Auth ∧ c₀.Extends c

variable {c₀ c : Ceremony}

theorem Extends.opened (h : c₀.Extends c) (hopen : c₀.Opened) : c.Opened := by
  intro id hid
  rw [h.members] at hid
  obtain ⟨x, hx⟩ := Option.isSome_iff_exists.mp (hopen id hid)
  rw [h.commitment id x hx, Option.isSome_some]

theorem Extends.commitBytes (h : c₀.Extends c) : c.commitBytes = c₀.commitBytes := by
  funext id x
  simp only [Ceremony.commitBytes, h.nonce, h.chainId, h.digest]

theorem Extends.revealBytes (h : c₀.Extends c) : c.revealBytes = c₀.revealBytes := by
  funext id r
  simp only [Ceremony.revealBytes, h.nonce, h.chainId, h.digest]

theorem Extends.localCommitment (h : c₀.Extends c) :
    c.localCommitment p = c₀.localCommitment p := by
  simp only [Ceremony.localCommitment, h.nonce, h.localId, h.localR]

theorem verifySig_eq_true {id : DeviceId} {msg sig : Bytes} (h : verifySig p id msg sig = true) :
    ∃ sigBytes, FixedBytes.ofBytes 64 sig = some sigBytes ∧ p.verify id msg sigBytes = true := by
  unfold verifySig at h
  split at h
  · cases h
  · rename_i sigBytes hsig
    exact ⟨sigBytes, hsig, h⟩

theorem toSig64_eq_ok {bytes : Bytes} {sig : Signature} :
    toSig64 bytes = .ok sig ↔ FixedBytes.ofBytes 64 bytes = some sig := by
  unfold toSig64
  split <;> rename_i h <;> simp [h]

theorem feedCommit_kept {c' : Ceremony} (h : Kept p Auth c₀ c) {frame : SharedKeyCommit}
    (hallowed : SigAllowed p Auth frame.signature) {res : Except NetError Unit}
    (hrun : feedCommit p c₀.nonce c₀.chainId frame c = (res, c')) : Kept p Auth c₀ c' := by
  rcases Fallible.ofExcept_bind_cases hrun with ⟨_, _, _, rfl⟩ | ⟨_, _, hrun⟩
  · exact h
  rw [Fallible.bind_ok (Fallible.gets_apply _ _)] at hrun
  rcases Fallible.ofExcept_bind_cases hrun with ⟨_, _, _, rfl⟩ | ⟨deviceId, _, hrun⟩
  · exact h
  rcases Fallible.ofExcept_bind_cases hrun with ⟨_, _, _, rfl⟩ | ⟨x, _, hrun⟩
  · exact h
  rcases Fallible.ofExcept_bind_cases hrun with ⟨_, _, _, rfl⟩ | ⟨_, hverified, hrun⟩
  · exact h
  rcases Fallible.ofExcept_bind_cases hrun with ⟨_, _, _, rfl⟩ | ⟨sig, hsig, hrun⟩
  · exact h
  rw [refuseIf_eq_ok, Bool.not_eq_false] at hverified
  obtain ⟨sig', hsig', hverify⟩ := verifySig_eq_true hverified
  rw [toSig64_eq_ok] at hsig
  cases hsig.symm.trans hsig'
  have hauth := hallowed _ _ _ hsig hverify
  rw [← h.2.nonce, ← h.2.chainId] at hauth
  obtain ⟨hinv, hlater⟩ := acceptCommitment_kept h.1 hauth hrun
  exact ⟨hinv, h.2.trans hlater⟩

theorem feedReveal_kept {c' : Ceremony} (h : Kept p Auth c₀ c) {frame : SharedKeyReveal}
    (hallowed : SigAllowed p Auth frame.signature) {res : Except NetError Unit}
    (hrun : feedReveal p c₀.nonce c₀.chainId frame c = (res, c')) : Kept p Auth c₀ c' := by
  rcases Fallible.ofExcept_bind_cases hrun with ⟨_, _, _, rfl⟩ | ⟨_, _, hrun⟩
  · exact h
  rw [Fallible.bind_ok (Fallible.gets_apply _ _)] at hrun
  rcases Fallible.ofExcept_bind_cases hrun with ⟨_, _, _, rfl⟩ | ⟨deviceId, _, hrun⟩
  · exact h
  rcases Fallible.ofExcept_bind_cases hrun with ⟨_, _, _, rfl⟩ | ⟨r, _, hrun⟩
  · exact h
  rcases Fallible.ofExcept_bind_cases hrun with ⟨_, _, _, rfl⟩ | ⟨_, hverified, hrun⟩
  · exact h
  rcases Fallible.ofExcept_bind_cases hrun with ⟨_, _, _, rfl⟩ | ⟨sig, hsig, hrun⟩
  · exact h
  rw [refuseIf_eq_ok, Bool.not_eq_false] at hverified
  obtain ⟨sig', hsig', hverify⟩ := verifySig_eq_true hverified
  rw [toSig64_eq_ok] at hsig
  cases hsig.symm.trans hsig'
  have hauth := hallowed _ _ _ hsig hverify
  rw [← h.2.nonce, ← h.2.chainId] at hauth
  obtain ⟨hinv, hlater⟩ := acceptReveal_kept h.1 hauth hrun
  exact ⟨hinv, h.2.trans hlater⟩

theorem feedBuffered_kept {frames : List SharedKeyReveal}
    (hallowed : ∀ frame ∈ frames, SigAllowed p Auth frame.signature) :
    ∀ {c c' : Ceremony} {res : Except NetError Unit}, Kept p Auth c₀ c →
      feedBuffered p c₀.nonce c₀.chainId frames c = (res, c') → Kept p Auth c₀ c' := by
  induction frames with
  | nil =>
    intro c c' res h hrun
    cases hrun
    exact h
  | cons frame rest ih =>
    intro c c' res h hrun
    rw [feedBuffered, Fallible.bind_ok (Fallible.gets_apply _ _)] at hrun
    split at hrun
    · cases hrun
      exact h
    · rcases Fallible.bind_cases hrun with ⟨_, hfirst, _⟩ | ⟨_, mid, hfirst, hrest⟩
      · exact feedReveal_kept h (hallowed _ List.mem_cons_self) hfirst
      · have hmid := feedReveal_kept h (hallowed _ List.mem_cons_self) hfirst
        exact ih (fun frame hmem => hallowed frame (List.mem_cons_of_mem _ hmem)) hmid hrest

end Ceremony

namespace Session

variable {c₀ : Ceremony}

/-- What holds of a member whose machine comes from `c₀`. -/
structure Inv (p : Crypto) (Auth : DeviceId → Bytes → Signature → Prop) (c₀ : Ceremony)
    (s : Session) : Prop where
  machine : Ceremony.Kept p Auth c₀ s.ceremony
  signed : ∀ msg ∈ s.signed, msg = c₀.commitBytes c₀.localId (c₀.localCommitment p) ∨
    msg = c₀.revealBytes c₀.localId c₀.localR ∧ s.ceremony.Opened
  sent : ∀ r, .sharedKeyReveal r ∈ s.sent → s.ceremony.Opened
  buffered : ∀ r ∈ s.buffered, SigAllowed p Auth r.signature
  derived : ∀ key t, s.result = some (.ok (.derived key t)) → s.ceremony.Sealed p key t

theorem andThen_ok {s : Session} {x : CeremonyM Unit} {next : Session → Session} {c : Ceremony}
    (h : x s.ceremony = (.ok (), c)) : s.andThen x next = next { s with ceremony := c } := by
  rw [Session.andThen, h]

/-- A part of the loop keeps the invariant where it keeps the machine, and the rest does. -/
theorem Inv.andThen {s : Session} (h : s.Inv p Auth c₀) {x : CeremonyM Unit}
    {next : Session → Session}
    (hx : ∀ c res, x s.ceremony = (res, c) → Ceremony.Kept p Auth s.ceremony c)
    (hnext : ∀ c, x s.ceremony = (.ok (), c) → s.ceremony.Extends c →
      ({ s with ceremony := c } : Session).Inv p Auth c₀ → (next { s with ceremony := c }).Inv p Auth c₀)
    (hwaits : s.result = none) : (s.andThen x next).Inv p Auth c₀ := by
  unfold Session.andThen
  split
  all_goals
    rename_i c hrun
    obtain ⟨hmachine, hlater⟩ := hx _ _ hrun
  · refine ⟨⟨hmachine, h.machine.2.trans hlater⟩, ?_, ?_, h.buffered, nofun⟩
    · intro msg hmsg
      exact (h.signed msg hmsg).imp_right fun hreveal => ⟨hreveal.1, hlater.opened hreveal.2⟩
    · exact fun r hr => hlater.opened (h.sent r hr)
  · refine hnext c hrun hlater ⟨⟨hmachine, h.machine.2.trans hlater⟩, ?_, ?_, h.buffered, ?_⟩
    · intro msg hmsg
      exact (h.signed msg hmsg).imp_right fun hreveal => ⟨hreveal.1, hlater.opened hreveal.2⟩
    · exact fun r hr => hlater.opened (h.sent r hr)
    · intro key t hresult
      rw [hwaits] at hresult
      cases hresult

theorem Inv.kept {s : Session} (h : s.Inv p Auth c₀) :
    Ceremony.Kept p Auth s.ceremony s.ceremony :=
  ⟨h.machine.1, .refl _⟩

/-- What the loop returned does not matter until it returned a key. -/
theorem Inv.returned {s : Session} (h : s.Inv p Auth c₀)
    {result : Option (Except NetError CeremonyOutcome)}
    (hsealed : ∀ key t, result = some (.ok (.derived key t)) → s.ceremony.Sealed p key t) :
    ({ s with result } : Session).Inv p Auth c₀ :=
  { h with derived := hsealed }

theorem Inv.settle {s : Session} (h : s.Inv p Auth c₀) : s.settle.Inv p Auth c₀ := by
  unfold Session.settle
  split
  · exact h
  · rename_i hphase
    obtain ⟨key, t, hkey, ht, hsealed⟩ := h.machine.1.sealed hphase
    rw [hkey, ht]
    refine h.returned fun key' t' hresult => ?_
    cases hresult
    exact hsealed
  · exact h.returned nofun

/-- All commitments are in when the reveal is signed and sent. -/
theorem Inv.reveal {s : Session} (h : s.Inv p Auth c₀) {broadcast : Except NetError Unit}
    (hphase : s.ceremony.phase ≠ .committing)
    (hown : Auth s.ceremony.localId (s.ceremony.revealBytes s.ceremony.localId s.ceremony.localR)
      (p.sign s.ceremony.localId (s.ceremony.revealBytes s.ceremony.localId s.ceremony.localR)))
    (hwaits : s.result = none) : (s.reveal p broadcast).Inv p Auth c₀ := by
  have hopen : s.ceremony.Opened := h.machine.1.opened hphase
  have hsigned : ({ s with
      signed := s.signed ++ [s.ceremony.revealBytes s.ceremony.localId s.ceremony.localR]
      sent := s.sent ++ [.sharedKeyReveal (revealFrame p s.ceremony)] } : Session).Inv p Auth c₀ := by
    refine ⟨h.machine, ?_, fun _ _ => hopen, h.buffered, h.derived⟩
    intro msg hmsg
    rcases List.mem_append.mp hmsg with hold | hnew
    · exact h.signed msg hold
    · refine .inr ⟨?_, hopen⟩
      rw [List.mem_singleton.mp hnew, h.machine.2.revealBytes, h.machine.2.localId,
        h.machine.2.localR]
  unfold Session.reveal
  refine hsigned.andThen ?_ ?_ hwaits
  · intro c res hrun
    cases hrun
    exact h.kept
  intro c hrun _ hsent
  cases hrun
  refine hsent.andThen ?_ ?_ hwaits
  · intro c res hrun
    exact Ceremony.acceptReveal_kept h.machine.1 hown hrun
  intro c hrun hlater hrecorded
  refine hrecorded.andThen ?_ ?_ hwaits
  · intro c' res hrun
    rw [← hlater.nonce, ← hlater.chainId] at hrun
    exact Ceremony.feedBuffered_kept hrecorded.buffered hrecorded.kept hrun
  intro c' _ _ hfed
  exact hfed.settle

theorem settle_signed (s : Session) : s.settle.signed = s.signed := by
  unfold Session.settle
  split
  · rfl
  · split <;> rfl
  · rfl

/-- A message that is signed stays signed. -/
theorem mem_andThen_signed {s : Session} {x : CeremonyM Unit} {next : Session → Session}
    {msg : Bytes} (hmsg : msg ∈ s.signed)
    (hnext : ∀ s' : Session, msg ∈ s'.signed → msg ∈ (next s').signed) :
    msg ∈ (s.andThen x next).signed := by
  unfold Session.andThen
  split
  · exact hmsg
  · exact hnext _ hmsg

theorem mem_reveal_signed (s : Session) (broadcast : Except NetError Unit) {msg : Bytes}
    (hmsg : msg ∈ s.signed ∨
      msg = s.ceremony.revealBytes s.ceremony.localId s.ceremony.localR) :
    msg ∈ (s.reveal p broadcast).signed := by
  unfold Session.reveal
  refine mem_andThen_signed ?_ fun _ h => mem_andThen_signed h fun _ h => mem_andThen_signed h ?_
  · simpa using hmsg
  · intro s' h
    rwa [settle_signed]

theorem Inv.collect {s : Session} (h : s.Inv p Auth c₀) {broadcast : Except NetError Unit}
    (hown : s.ceremony.revealBytes s.ceremony.localId s.ceremony.localR ∈
        (s.collect p broadcast).signed →
      Auth s.ceremony.localId (s.ceremony.revealBytes s.ceremony.localId s.ceremony.localR)
        (p.sign s.ceremony.localId (s.ceremony.revealBytes s.ceremony.localId s.ceremony.localR)))
    (hwaits : s.result = none) : (s.collect p broadcast).Inv p Auth c₀ := by
  unfold Session.collect at hown ⊢
  split
  · exact h
  · rename_i hphase
    rw [if_neg hphase] at hown
    exact h.reveal hphase (hown (mem_reveal_signed s broadcast (.inr rfl))) hwaits

theorem mem_collect_signed (s : Session) (broadcast : Except NetError Unit) {msg : Bytes}
    (hmsg : msg ∈ s.signed) : msg ∈ (s.collect p broadcast).signed := by
  unfold Session.collect
  split
  · exact hmsg
  · exact mem_reveal_signed s broadcast (.inl hmsg)

/-- A machine may be taken where it is now. -/
theorem Inv.rebase {s : Session} (h : s.Inv p Auth c₀) : s.Inv p Auth s.ceremony := by
  refine { h with machine := h.kept, signed := ?_ }
  rw [h.machine.2.commitBytes, h.machine.2.revealBytes, h.machine.2.localCommitment,
    h.machine.2.localId, h.machine.2.localR]
  exact h.signed

theorem Inv.mono {Auth' : DeviceId → Bytes → Signature → Prop} {s : Session} (h : s.Inv p Auth c₀)
    (hauth : ∀ id msg sig, Auth id msg sig → Auth' id msg sig) : s.Inv p Auth' c₀ where
  machine := ⟨h.machine.1.mono hauth, h.machine.2⟩
  signed := h.signed
  sent := h.sent
  buffered r hr id msg sig hsig hverify := hauth _ _ _ (h.buffered r hr id msg sig hsig hverify)
  derived := h.derived

end Session

/-- The signature a frame carries may be accepted for whatever it verifies for. -/
def Frame.Allowed (p : Crypto) (Auth : DeviceId → Bytes → Signature → Prop) : Frame → Prop
  | .sharedKeyCommit c => SigAllowed p Auth c.signature
  | .sharedKeyReveal r => SigAllowed p Auth r.signature
  | _ => True

theorem Frame.Allowed.mono {Auth' : DeviceId → Bytes → Signature → Prop} {frame : Frame}
    (h : frame.Allowed p Auth) (hauth : ∀ id msg sig, Auth id msg sig → Auth' id msg sig) :
    frame.Allowed p Auth' := by
  cases frame with
  | sharedKeyCommit _ => exact fun _ _ _ hsig hverify => hauth _ _ _ (h _ _ _ hsig hverify)
  | sharedKeyReveal _ => exact fun _ _ _ hsig hverify => hauth _ _ _ (h _ _ _ hsig hverify)
  | sharedKeyHandoff _ => trivial
  | other => trivial

namespace Session

variable {c₀ : Ceremony}

/-- **A member starts** by signing its own commitment. -/
theorem start_inv {c : Ceremony} (h : c.Inv p Auth) (hearly : c.phase ≠ .derived)
    (hnone : c.commitSigOf c.localId = none) {broadcast broadcast' : Except NetError Unit}
    (hown : ∀ msg ∈ (start p c broadcast broadcast').signed,
      Auth c.localId msg (p.sign c.localId msg)) :
    (start p c broadcast broadcast').Inv p Auth c := by
  have hmsg : c.commitBytes c.localId (c.localCommitment p) ∈
      (start p c broadcast broadcast').signed := by
    refine mem_andThen_signed List.mem_cons_self fun _ h => mem_andThen_signed h fun s h => ?_
    exact mem_collect_signed s _ h
  have hstart : Session.Inv p Auth c
      ⟨c, [], [c.commitBytes c.localId (c.localCommitment p)], [], none⟩ := by
    refine ⟨⟨h, .refl c⟩, ?_, nofun, nofun, nofun⟩
    intro msg hmsg
    exact .inl (List.mem_singleton.mp hmsg)
  unfold start
  refine hstart.andThen ?_ ?_ rfl
  · intro c' res hrun
    exact Ceremony.recordLocalCommitSig_kept h (hown _ hmsg) hearly hnone hrun
  intro c' hrun hlater hrecorded
  have hsent : Session.Inv p Auth c ⟨c', [], [c.commitBytes c.localId (c.localCommitment p)],
      [.sharedKeyCommit (commitFrame p c)], none⟩ :=
    { hrecorded with sent := fun r hr => absurd (List.mem_singleton.mp hr) nofun }
  refine hsent.andThen ?_ ?_ rfl
  · intro c'' res hbroadcast
    cases hbroadcast
    exact hrecorded.kept
  intro c'' hbroadcast _ hcollecting
  cases hbroadcast
  refine hcollecting.collect ?_ rfl
  intro hsigned
  have hfinal : start p c (.ok ()) broadcast' = collect p broadcast' ⟨c', [],
      [c.commitBytes c.localId (c.localCommitment p)], [.sharedKeyCommit (commitFrame p c)], none⟩ := by
    unfold start
    rw [andThen_ok hrun]
    rfl
  rw [← hfinal] at hsigned
  have hauth := hown _ hsigned
  rwa [← hlater.localId] at hauth

/-- **A member that receives** anything whose signatures are allowed. -/
theorem recv_inv {s : Session} (h : s.Inv p Auth c₀) {received : Except NetError Frame}
    {broadcast : Except NetError Unit}
    (hframe : ∀ frame, received = .ok frame → frame.Allowed p Auth)
    (hown : ∀ msg ∈ (s.recv p received broadcast).signed,
      Auth s.ceremony.localId msg (p.sign s.ceremony.localId msg))
    (hwaits : s.result = none) : (s.recv p received broadcast).Inv p Auth c₀ := by
  unfold recv at hown ⊢
  cases received with
  | error e => exact h.returned nofun
  | ok frame =>
    have hallowed := hframe frame rfl
    simp only at hown ⊢
    by_cases hphase : s.ceremony.phase = .committing
    · rw [if_pos hphase] at hown ⊢
      cases frame with
      | sharedKeyCommit commit =>
        refine h.andThen ?_ ?_ hwaits
        · intro c res hrun
          exact Ceremony.feedCommit_kept h.kept hallowed hrun
        intro c hrun hlater hfed
        refine hfed.collect ?_ hwaits
        intro hsigned
        simp only [andThen_ok hrun] at hown
        have hauth := hown _ hsigned
        rwa [← hlater.localId] at hauth
      | sharedKeyReveal r =>
        refine { h with buffered := ?_ }
        intro r' hr
        rcases List.mem_append.mp hr with hold | hnew
        · exact h.buffered r' hold
        · rw [List.mem_singleton.mp hnew]
          exact hallowed
      | sharedKeyHandoff handoff => exact h.returned nofun
      | other => exact h.returned nofun
    · rw [if_neg hphase] at hown ⊢
      cases frame with
      | sharedKeyReveal r =>
        refine h.andThen ?_ ?_ hwaits
        · intro c res hrun
          exact Ceremony.feedReveal_kept h.kept hallowed hrun
        intro c _ _ hfed
        exact hfed.settle
      | sharedKeyCommit commit => exact h.returned nofun
      | sharedKeyHandoff handoff => exact h.returned nofun
      | other => exact h.returned nofun

theorem mem_recv_signed (s : Session) (received : Except NetError Frame)
    (broadcast : Except NetError Unit) {msg : Bytes} (hmsg : msg ∈ s.signed) :
    msg ∈ (s.recv p received broadcast).signed := by
  unfold recv
  cases received with
  | error e => exact hmsg
  | ok frame =>
    simp only
    split
    · cases frame with
      | sharedKeyCommit commit =>
        exact mem_andThen_signed hmsg fun s' h => mem_collect_signed s' broadcast h
      | sharedKeyReveal r => exact hmsg
      | sharedKeyHandoff handoff => exact hmsg
      | other => exact hmsg
    · cases frame with
      | sharedKeyReveal r =>
        refine mem_andThen_signed hmsg fun s' h => ?_
        rwa [settle_signed]
      | sharedKeyCommit commit => exact hmsg
      | sharedKeyHandoff handoff => exact hmsg
      | other => exact hmsg

end Session

end Softfig.KeyCeremony
