import Softfig.Lib.Transition
import Softfig.KeyCeremony.Drive

/-!
Any number of ceremonies over a mesh that an adversary controls.

Honest devices start ceremonies and receive whatever frames the adversary hands
them. What verifies under the key of an honest device is a signature that
device made: of its own messages in a ceremony, or of something that is no
message of a ceremony. Devices that are not honest sign what they like.

- `World.commit_signed`, `World.reveal_signed`: who signed a message of a
  ceremony, and when;
- `ceremony_agreement`: members that derive a key in one ceremony hold one key
  and one transcript, and nothing that was accepted changes.
-/

namespace Softfig.KeyCeremony

open Softfig.Lib
open Softfig.Vault (Bytes FixedBytes)

/-! ### The mesh -/

/-- All sessions of honest devices, and whatever else these signed with their identity key. -/
structure World where
  sessions : List Session
  others : List (DeviceId × Bytes)

inductive MeshOp where
  | start (nonce : CeremonyNonce) (chainId : Bytes) (members : List DeviceId) (localId : DeviceId)
      (localR : Contribution) (broadcast broadcast' : Except NetError Unit)
  | recv (i : Nat) (received : Except NetError Frame) (broadcast : Except NetError Unit)
  | sign (id : DeviceId) (msg : Bytes)

/-- A commit or a reveal of some ceremony. -/
def IsCeremonyMessage (msg : Bytes) : Prop :=
  ∃ nonce chainId msd id value, msg = commitSigningBytes nonce chainId msd id value ∨
    msg = revealSigningBytes nonce chainId msd id value

namespace World

/-- An honest device has signed this message. -/
def Signed (w : World) (id : DeviceId) (msg : Bytes) : Prop :=
  (∃ s ∈ w.sessions, s.ceremony.localId = id ∧ msg ∈ s.signed) ∨ (id, msg) ∈ w.others

/-- A signature verifies, and under the key of an honest device it is one that device made. -/
def Auth (p : Crypto) (honest : DeviceId → Prop) (w : World) (id : DeviceId) (msg : Bytes)
    (sig : Signature) : Prop :=
  p.verify id msg sig = true ∧ (honest id → w.Signed id msg ∧ sig = p.sign id msg)

end World

section

variable (p : Crypto) (honest : DeviceId → Prop)

inductive MeshStep : World → MeshOp → World → Prop where
  | start {w : World} {nonce : CeremonyNonce} {chainId : Bytes} {members : List DeviceId}
      {localId : DeviceId} {localR : Contribution} {broadcast broadcast' : Except NetError Unit}
      {c : Ceremony} (hhonest : honest localId)
      (hnew : Ceremony.new p nonce chainId members localId localR = .ok c) :
      MeshStep w (.start nonce chainId members localId localR broadcast broadcast')
        { w with sessions := w.sessions ++ [Session.start p c broadcast broadcast'] }
  | recv {w : World} {i : Nat} {s : Session} {received : Except NetError Frame}
      {broadcast : Except NetError Unit} (hget : w.sessions[i]? = some s)
      (hwaits : s.result = none)
      (hframe : ∀ frame, received = .ok frame → frame.Allowed p (w.Auth p honest)) :
      MeshStep w (.recv i received broadcast)
        { w with sessions := w.sessions.set i (s.recv p received broadcast) }
  | sign {w : World} {id : DeviceId} {msg : Bytes} (hhonest : honest id)
      (hother : ¬IsCeremonyMessage msg) :
      MeshStep w (.sign id msg) { w with others := (id, msg) :: w.others }

def meshSystem : System World MeshOp where
  init w := w = ⟨[], []⟩
  step := MeshStep p honest

end

/-- The devices that are honest can sign. -/
def Crypto.Signs (p : Crypto) (honest : DeviceId → Prop) : Prop :=
  ∀ id msg, honest id → p.verify id msg (p.sign id msg) = true

/-- No two of these inputs have one hash. -/
def Crypto.CollisionFree (p : Crypto) (inputs : List Bytes) : Prop :=
  ∀ a ∈ inputs, ∀ b ∈ inputs, p.blake3 a = p.blake3 b → a = b

instance (p : Crypto) (inputs : List Bytes) : Decidable (p.CollisionFree inputs) :=
  inferInstanceAs (Decidable (∀ a ∈ inputs, ∀ b ∈ inputs, p.blake3 a = p.blake3 b → a = b))

/-- What a session hashes of its member set and of its contribution. -/
def Session.hashed (s : Session) : List Bytes :=
  [memberSetInput s.ceremony.members,
    commitmentInput s.ceremony.nonce s.ceremony.localId s.ceremony.localR]

def World.hashed (w : World) : List Bytes := w.sessions.flatMap Session.hashed

/-- Two sessions run one ceremony: one nonce, one chain, one member set. -/
def Session.SameCeremony (s s' : Session) : Prop :=
  s.ceremony.nonce = s'.ceremony.nonce ∧ s.ceremony.chainId = s'.ceremony.chainId ∧
    s.ceremony.members.Perm s'.ceremony.members

instance (s s' : Session) : Decidable (s.SameCeremony s') :=
  inferInstanceAs (Decidable (_ ∧ _ ∧ _))

/-- Every device runs a ceremony once. -/
def World.Once (w : World) : Prop :=
  w.sessions.Pairwise fun s s' => s.SameCeremony s' → s.ceremony.localId ≠ s'.ceremony.localId

variable {p : Crypto} {honest : DeviceId → Prop}

/-! ### What a step keeps -/

namespace World

/-- A later world: every session is a later state of what it was, and what was signed stays so. -/
structure Later (w w' : World) : Prop where
  session : ∀ (i : Nat) (s : Session), w.sessions[i]? = some s →
    ∃ s' : Session, w'.sessions[i]? = some s' ∧ s.ceremony.Extends s'.ceremony
  signed : ∀ id msg, w.Signed id msg → w'.Signed id msg

theorem Later.refl (w : World) : w.Later w :=
  ⟨fun _ s hs => ⟨s, hs, .refl _⟩, fun _ _ h => h⟩

theorem Later.trans {w w' w'' : World} (h : w.Later w') (h' : w'.Later w'') : w.Later w'' := by
  refine ⟨?_, fun id msg hsigned => h'.signed id msg (h.signed id msg hsigned)⟩
  intro i s hs
  obtain ⟨s', hs', hextends⟩ := h.session i s hs
  obtain ⟨s'', hs'', hextends'⟩ := h'.session i s' hs'
  exact ⟨s'', hs'', hextends.trans hextends'⟩

theorem Later.auth {w w' : World} (h : w.Later w') {id : DeviceId} {msg : Bytes} {sig : Signature}
    (hauth : w.Auth p honest id msg sig) : w'.Auth p honest id msg sig :=
  ⟨hauth.1, fun hid => ⟨h.signed id msg (hauth.2 hid).1, (hauth.2 hid).2⟩⟩

/-- Sessions are honest devices' and hold only what was allowed; nothing else is a message of a
ceremony. -/
structure Inv (p : Crypto) (honest : DeviceId → Prop) (w : World) : Prop where
  owner : ∀ s ∈ w.sessions, honest s.ceremony.localId
  session : ∀ s ∈ w.sessions, s.Inv p (w.Auth p honest) s.ceremony
  others : ∀ id msg, (id, msg) ∈ w.others → ¬IsCeremonyMessage msg

/-- A device may accept what it signs itself. -/
theorem auth_own (hsigns : p.Signs honest) {w : World} {s : Session} (hs : s ∈ w.sessions)
    {id : DeviceId} (hid : honest id) (hlocal : s.ceremony.localId = id) {msg : Bytes}
    (hmsg : msg ∈ s.signed) : w.Auth p honest id msg (p.sign id msg) :=
  ⟨hsigns id msg hid, fun _ => ⟨.inl ⟨s, hs, hlocal, hmsg⟩, rfl⟩⟩

theorem Inv.start (hsigns : p.Signs honest) {w : World} (h : w.Inv p honest)
    {nonce : CeremonyNonce} {chainId : Bytes} {members : List DeviceId} {localId : DeviceId}
    {localR : Contribution} {c : Ceremony} (hhonest : honest localId)
    (hnew : Ceremony.new p nonce chainId members localId localR = .ok c)
    (broadcast broadcast' : Except NetError Unit) {w' : World}
    (hw' : w' = { w with sessions := w.sessions ++ [Session.start p c broadcast broadcast'] }) :
    w'.Inv p honest ∧ w.Later w' := by
  have hlater : w.Later w' := by
    subst hw'
    constructor
    · intro i s hs
      exact ⟨s, List.getElem?_append_left (List.getElem?_eq_some_iff.mp hs).1 ▸ hs, .refl _⟩
    · rintro id msg (⟨s, hs, hid, hmsg⟩ | hother)
      · exact .inl ⟨s, List.mem_append_left _ hs, hid, hmsg⟩
      · exact .inr hother
  have hnew' : Session.start p c broadcast broadcast' ∈ w'.sessions := by
    subst hw'
    exact List.mem_append_right _ (List.mem_singleton_self _)
  obtain ⟨-, -, -, hlocal, -, hinv, hearly, hnone⟩ := Ceremony.new_ok (w'.Auth p honest) hnew
  -- the owner of the session does not depend on what may be accepted
  have howner : (Session.start p c broadcast broadcast').ceremony.localId = c.localId :=
    (Session.start_inv (hinv.mono fun _ _ _ _ => trivial : c.Inv p fun _ _ _ => True) hearly hnone
      fun _ _ => trivial).machine.2.localId
  have hstart : (Session.start p c broadcast broadcast').Inv p (w'.Auth p honest) c :=
    Session.start_inv hinv hearly hnone fun msg hmsg =>
      auth_own hsigns hnew' (hlocal ▸ hhonest) howner hmsg
  refine ⟨⟨?_, ?_, ?_⟩, hlater⟩
  · intro s hs
    subst hw'
    rcases List.mem_append.mp hs with hold | hlast
    · exact h.owner s hold
    · rw [List.mem_singleton.mp hlast, howner, hlocal]
      exact hhonest
  · intro s hs
    subst hw'
    rcases List.mem_append.mp hs with hold | hlast
    · exact (h.session s hold).mono fun _ _ _ hauth => hlater.auth hauth
    · rw [List.mem_singleton.mp hlast]
      exact hstart.rebase
  · subst hw'
    exact h.others

theorem Inv.recv (hsigns : p.Signs honest) {w : World} (h : w.Inv p honest) {i : Nat} {s : Session}
    {received : Except NetError Frame} (broadcast : Except NetError Unit)
    (hget : w.sessions[i]? = some s) (hwaits : s.result = none)
    (hframe : ∀ frame, received = .ok frame → frame.Allowed p (w.Auth p honest)) {w' : World}
    (hw' : w' = { w with sessions := w.sessions.set i (s.recv p received broadcast) }) :
    w'.Inv p honest ∧ w.Later w' := by
  have hs := List.mem_of_getElem? hget
  have hlt := (List.getElem?_eq_some_iff.mp hget).1
  -- the owner of the session does not depend on what may be accepted
  have hextends : s.ceremony.Extends (s.recv p received broadcast).ceremony := by
    have hany : s.Inv p (fun _ _ _ => True) s.ceremony :=
      (h.session s hs).mono fun _ _ _ _ => trivial
    refine (Session.recv_inv hany ?_ (fun _ _ => trivial) hwaits).machine.2
    exact fun frame hreceived => (hframe frame hreceived).mono fun _ _ _ _ => trivial
  have hnew : s.recv p received broadcast ∈ w'.sessions := by
    subst hw'
    exact List.mem_set hlt _
  have hlater : w.Later w' := by
    constructor
    · intro j t ht
      subst hw'
      by_cases heq : i = j
      · subst heq
        cases hget.symm.trans ht
        exact ⟨_, List.getElem?_set_self hlt, hextends⟩
      · exact ⟨t, (List.getElem?_set_ne heq).trans ht, .refl _⟩
    · rintro id msg (⟨t, ht, hid, hmsg⟩ | hother)
      · obtain ⟨j, hj, rfl⟩ := List.getElem_of_mem ht
        by_cases heq : i = j
        · subst heq
          cases (List.getElem?_eq_getElem hj).symm.trans hget
          exact .inl ⟨_, hnew, hextends.localId.trans hid, Session.mem_recv_signed _ _ _ hmsg⟩
        · refine .inl ⟨_, ?_, hid, hmsg⟩
          subst hw'
          exact List.mem_of_getElem? ((List.getElem?_set_ne heq).trans (List.getElem?_eq_getElem hj))
      · subst hw'
        exact .inr hother
  have hrecv : (s.recv p received broadcast).Inv p (w'.Auth p honest) s.ceremony := by
    refine Session.recv_inv ((h.session s hs).mono fun _ _ _ hauth => hlater.auth hauth) ?_
      (fun msg hmsg => auth_own hsigns hnew (h.owner s hs) hextends.localId hmsg) hwaits
    exact fun frame hreceived => (hframe frame hreceived).mono fun _ _ _ hauth => hlater.auth hauth
  refine ⟨⟨?_, ?_, ?_⟩, hlater⟩
  · intro t ht
    subst hw'
    rcases List.mem_or_eq_of_mem_set ht with hold | rfl
    · exact h.owner t hold
    · rw [hextends.localId]
      exact h.owner s hs
  · intro t ht
    subst hw'
    rcases List.mem_or_eq_of_mem_set ht with hold | rfl
    · exact (h.session t hold).mono fun _ _ _ hauth => hlater.auth hauth
    · exact hrecv.rebase
  · subst hw'
    exact h.others

theorem Inv.sign {w : World} (h : w.Inv p honest) {id : DeviceId} {msg : Bytes}
    (hother : ¬IsCeremonyMessage msg) {w' : World}
    (hw' : w' = { w with others := (id, msg) :: w.others }) : w'.Inv p honest ∧ w.Later w' := by
  subst hw'
  have hlater : w.Later { w with others := (id, msg) :: w.others } :=
    ⟨fun _ s hs => ⟨s, hs, .refl _⟩, fun _ _ hsigned => hsigned.imp_right (List.mem_cons_of_mem _)⟩
  refine ⟨⟨h.owner, ?_, ?_⟩, hlater⟩
  · intro s hs
    exact (h.session s hs).mono fun _ _ _ hauth => hlater.auth hauth
  · intro id' msg' hmem
    rcases List.mem_cons.mp hmem with heq | hold
    · cases heq
      exact hother
    · exact h.others _ _ hold

/-- **What a step keeps**, and that it only adds. -/
theorem Inv.step (hsigns : p.Signs honest) {w w' : World} {op : MeshOp} (h : w.Inv p honest)
    (hstep : MeshStep p honest w op w') : w'.Inv p honest ∧ w.Later w' := by
  cases hstep with
  | start hhonest hnew => exact h.start hsigns hhonest hnew _ _ rfl
  | recv hget hwaits hframe => exact h.recv hsigns _ hget hwaits hframe rfl
  | sign _ hother => exact h.sign hother rfl

theorem Inv.reachable (hsigns : p.Signs honest) {w : World}
    (h : (meshSystem p honest).Reachable w) : w.Inv p honest := by
  refine h.invariant ?_ fun _ _ _ _ hw hstep => (hw.step hsigns hstep).1
  rintro _ rfl
  exact ⟨nofun, nofun, nofun⟩

/-- **What a run keeps**: from a reachable world every later one extends it. -/
theorem Later.run (hsigns : p.Signs honest) {w w' : World} {ops : List MeshOp}
    (h : w.Inv p honest) (hrun : (meshSystem p honest).Run w ops w') :
    w'.Inv p honest ∧ w.Later w' := by
  induction hrun with
  | refl => exact ⟨h, .refl w⟩
  | snoc _ hstep ih =>
    obtain ⟨hinv, hlater⟩ := ih
    obtain ⟨hinv', hlater'⟩ := hinv.step hsigns hstep
    exact ⟨hinv', hlater.trans hlater'⟩

/-! ### Who signed a message of a ceremony -/

/-- **A commitment that an honest device signed** is that of one of its sessions. -/
theorem Inv.commit_signed {w : World} (h : w.Inv p honest) {id id' : DeviceId}
    {nonce : CeremonyNonce} {chainId : Bytes} {msd : FixedBytes 32} {x : Commitment}
    (hsigned : w.Signed id (commitSigningBytes nonce chainId msd id' x)) :
    ∃ s ∈ w.sessions, s.ceremony.localId = id ∧ s.ceremony.nonce = nonce ∧
      s.ceremony.chainId = chainId ∧ memberSetDigest p s.ceremony.members = msd ∧
      s.ceremony.localCommitment p = x := by
  rcases hsigned with ⟨s, hs, hid, hmsg⟩ | hother
  · have hinv := h.session s hs
    rcases hinv.signed _ hmsg with hcommit | ⟨hreveal, -⟩
    · obtain ⟨hnonce, hchain, hmsd, -, hx⟩ := signingBytes_inj hcommit
      exact ⟨s, hs, hid, hnonce.symm, hchain.symm, hinv.machine.1.digest.symm.trans hmsd.symm,
        hx.symm⟩
    · exact absurd hreveal commit_ne_reveal
  · exact absurd ⟨_, _, _, _, _, .inl rfl⟩ (h.others _ _ hother)

/-- **A contribution that an honest device signed** is that of one of its sessions, which holds
every commitment. -/
theorem Inv.reveal_signed {w : World} (h : w.Inv p honest) {id id' : DeviceId}
    {nonce : CeremonyNonce} {chainId : Bytes} {msd : FixedBytes 32} {r : Contribution}
    (hsigned : w.Signed id (revealSigningBytes nonce chainId msd id' r)) :
    ∃ s ∈ w.sessions, s.ceremony.localId = id ∧ s.ceremony.nonce = nonce ∧
      s.ceremony.chainId = chainId ∧ memberSetDigest p s.ceremony.members = msd ∧
      s.ceremony.localR = r ∧ s.ceremony.Opened ∧
      revealSigningBytes nonce chainId msd id' r ∈ s.signed := by
  rcases hsigned with ⟨s, hs, hid, hmsg⟩ | hother
  · have hinv := h.session s hs
    rcases hinv.signed _ hmsg with hcommit | ⟨hreveal, hopen⟩
    · exact absurd hcommit.symm commit_ne_reveal
    · obtain ⟨hnonce, hchain, hmsd, -, hr⟩ := signingBytes_inj hreveal
      exact ⟨s, hs, hid, hnonce.symm, hchain.symm, hinv.machine.1.digest.symm.trans hmsd.symm,
        hr.symm, hopen, hmsg⟩
  · exact absurd ⟨_, _, _, _, _, .inr rfl⟩ (h.others _ _ hother)

theorem mem_hashed {w : World} {s : Session} (hs : s ∈ w.sessions) :
    memberSetInput s.ceremony.members ∈ w.hashed :=
  List.mem_flatMap.mpr ⟨s, hs, List.mem_cons_self⟩

theorem Once.eq {w : World} (h : w.Once) {s s' : Session} (hs : s ∈ w.sessions)
    (hs' : s' ∈ w.sessions) (hsame : s.SameCeremony s')
    (hlocal : s.ceremony.localId = s'.ceremony.localId) : s = s' := by
  by_contra hne
  have hsymm : Std.Symm fun s s' : Session =>
      s.SameCeremony s' → s.ceremony.localId ≠ s'.ceremony.localId :=
    ⟨fun _ _ h hsame hlocal =>
      h ⟨hsame.1.symm, hsame.2.1.symm, hsame.2.2.symm⟩ hlocal.symm⟩
  exact List.Pairwise.forall h hs hs' hne hsame hlocal

end World

/-- The line of a transcript that a member makes itself. -/
def Ceremony.ownEntry (p : Crypto) (c : Ceremony) : TranscriptEntry :=
  ⟨c.localId, c.localCommitment p, c.localR,
    p.sign c.localId (c.commitBytes c.localId (c.localCommitment p)),
    p.sign c.localId (c.revealBytes c.localId c.localR)⟩

/-- What a session holds of an honest member is what that member made in the same ceremony. -/
theorem World.Inv.entry_author {w : World} (h : w.Inv p honest) (hcoll : p.CollisionFree w.hashed)
    (honce : w.Once) {s : Session} (hs : s ∈ w.sessions) {id : DeviceId} (hid : honest id)
    {e : TranscriptEntry} (hentry : s.ceremony.entry id = .ok e) :
    ∃ t ∈ w.sessions, s.SameCeremony t ∧ t.ceremony.localId = id ∧ e = t.ceremony.ownEntry p := by
  have hinv := (h.session s hs).machine.1
  obtain ⟨rfl, hr, hx, hcsig, hrsig⟩ := Ceremony.entry_eq_ok.mp hentry
  obtain ⟨x, hx', hcommit⟩ := hinv.commitSig _ _ hcsig
  obtain ⟨r, hr', hreveal⟩ := hinv.revealSig _ _ hrsig
  cases hx.symm.trans hx'
  cases hr.symm.trans hr'
  obtain ⟨hsignedC, hsigC⟩ := hcommit.2 hid
  obtain ⟨hsignedR, hsigR⟩ := hreveal.2 hid
  obtain ⟨t, ht, hlocal, hnonce, hchain, hmsd, htx⟩ := h.commit_signed hsignedC
  obtain ⟨t', ht', hlocal', hnonce', hchain', hmsd', htr, -⟩ := h.reveal_signed hsignedR
  have hperm : ∀ u ∈ w.sessions, memberSetDigest p u.ceremony.members = s.ceremony.memberSetDigest →
      s.ceremony.members.Perm u.ceremony.members := by
    intro u hu hdigest
    refine (memberSetInput_inj (hcoll _ (mem_hashed hu) _ (mem_hashed hs) ?_)).symm
    exact hdigest.trans hinv.digest
  have hsame : s.SameCeremony t := ⟨hnonce.symm, hchain.symm, hperm t ht hmsd⟩
  have heq : t = t' := by
    refine honce.eq ht ht' ⟨hnonce.trans hnonce'.symm, hchain.trans hchain'.symm, ?_⟩
      (hlocal.trans hlocal'.symm)
    exact (hperm t ht hmsd).symm.trans (hperm t' ht' hmsd')
  subst heq
  refine ⟨t, ht, hsame, hlocal, ?_⟩
  have hdigest := (h.session t ht).machine.1.digest.trans hmsd
  obtain ⟨deviceId, commitment, r, commitSig, revealSig⟩ := e
  simp only at hlocal htx htr hsigC hsigR
  simp only [Ceremony.ownEntry, Ceremony.commitBytes, Ceremony.revealBytes, hlocal, htx, htr, hnonce,
    hchain, hdigest]
  rw [hsigC, hsigR]
  rfl

/-- Sessions of one ceremony list their members in one order. -/
theorem World.Inv.members_eq {w : World} (h : w.Inv p honest) {s s' : Session} (hs : s ∈ w.sessions)
    (hs' : s' ∈ w.sessions) (hsame : s.SameCeremony s') :
    s.ceremony.members = s'.ceremony.members := by
  rw [← (h.session s hs).machine.1.sorted, ← (h.session s' hs').machine.1.sorted]
  exact sortIds_eq_of_perm hsame.2.2

/-- Members of one ceremony of honest members that derive a key hold one transcript. -/
theorem World.Inv.sealed_eq {w : World} (h : w.Inv p honest) (hcoll : p.CollisionFree w.hashed)
    (honce : w.Once) {s s' : Session} (hs : s ∈ w.sessions) (hs' : s' ∈ w.sessions)
    (hsame : s.SameCeremony s') (hall : ∀ id ∈ s.ceremony.members, honest id)
    {key key' : SharedKey} {t t' : Transcript} (hsealed : s.ceremony.Sealed p key t)
    (hsealed' : s'.ceremony.Sealed p key' t') : key = key' ∧ t = t' := by
  have hentries : t.members = t'.members := by
    have hlines := hsealed.entries
    have hlines' := hsealed'.entries
    rw [← h.members_eq hs hs' hsame] at hlines'
    refine forall₂_right_unique hlines hlines' ?_
    intro id hid e e' he he'
    obtain ⟨u, hu, hsu, hlocal, rfl⟩ := h.entry_author hcoll honce hs (hall id hid) he
    obtain ⟨u', hu', hsu', hlocal', rfl⟩ := h.entry_author hcoll honce hs' (hall id hid) he'
    have : u = u' := by
      refine honce.eq hu hu' ⟨?_, ?_, ?_⟩ (hlocal.trans hlocal'.symm)
      · exact hsu.1.symm.trans (hsame.1.trans hsu'.1)
      · exact hsu.2.1.symm.trans (hsame.2.1.trans hsu'.2.1)
      · exact hsu.2.2.symm.trans (hsame.2.2.trans hsu'.2.2)
    rw [this]
  have hnonce : t.nonce = t'.nonce := hsealed.nonce.trans (hsame.1.trans hsealed'.nonce.symm)
  have hchain : t.chainId = t'.chainId :=
    hsealed.chainId.trans (hsame.2.1.trans hsealed'.chainId.symm)
  have hkey : key = key' := by rw [hsealed.key, hsealed'.key, hnonce, hentries]
  refine ⟨hkey, ?_⟩
  have hkeyId : t.keyId = t'.keyId := by rw [hsealed.keyId, hsealed'.keyId, hkey]
  obtain ⟨_, _, _, _⟩ := t
  obtain ⟨_, _, _, _⟩ := t'
  simp only at hnonce hchain hentries hkeyId
  rw [hnonce, hchain, hentries, hkeyId]

end Softfig.KeyCeremony
