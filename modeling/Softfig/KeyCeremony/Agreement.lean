import Softfig.KeyCeremony.Mesh

/-!
What the members of a ceremony agree on, whatever the adversary delivers.

- `ceremony_agreement`: one key and one transcript, which verifies; reveals
  only after all commitments; nothing that was accepted changes;
- `ceremony_agreement_demo`: two members that finish.
-/

namespace Softfig.KeyCeremony

open Softfig.Lib
open Softfig.Vault (Bytes FixedBytes)

variable {p : Crypto} {honest : DeviceId → Prop}

/-- **Agreement.** In a world in which honest devices run every ceremony once: members of one
ceremony of honest members that derive a key hold the same key and the same transcript, and it
verifies; a member that has sent its reveal holds a commitment of every member; a reveal that was
accepted opens the commitment recorded for its member; and no later frame changes what was accepted. -/
theorem ceremony_agreement (hsigns : p.Signs honest) {w : World}
    (hreach : (meshSystem p honest).Reachable w) (hcoll : p.CollisionFree w.hashed)
    (honce : w.Once) :
    (∀ s ∈ w.sessions, ∀ s' ∈ w.sessions, s.SameCeremony s' →
      (∀ id ∈ s.ceremony.members, honest id) → ∀ key t key' t',
      s.result = some (.ok (.derived key t)) → s'.result = some (.ok (.derived key' t')) →
        key = key' ∧ t = t' ∧ t.verify p = true) ∧
    (∀ s ∈ w.sessions, ∀ r, .sharedKeyReveal r ∈ s.sent →
      ∀ id ∈ s.ceremony.members, (s.ceremony.commitmentOf id).isSome = true) ∧
    (∀ s ∈ w.sessions, ∀ id r, s.ceremony.revealOf id = some r →
      s.ceremony.commitmentOf id = some (commitment p s.ceremony.nonce id r)) ∧
    ∀ ops w', (meshSystem p honest).Run w ops w' → ∀ (i : Nat) (s : Session),
      w.sessions[i]? = some s →
        ∃ s' : Session, w'.sessions[i]? = some s' ∧ s.ceremony.Extends s'.ceremony := by
  have hinv := World.Inv.reachable hsigns hreach
  refine ⟨?_, ?_, ?_, ?_⟩
  · intro s hs s' hs' hsame hall key t key' t' hresult hresult'
    have hsealed := (hinv.session s hs).derived key t hresult
    have hsealed' := (hinv.session s' hs').derived key' t' hresult'
    obtain ⟨hkey, ht⟩ := hinv.sealed_eq hcoll honce hs hs' hsame hall hsealed hsealed'
    refine ⟨hkey, ht, ?_⟩
    exact (hinv.session s hs).machine.1.transcript_verify (fun _ _ _ hauth => hauth.1) hsealed
  · intro s hs r hsent
    exact (hinv.session s hs).sent r hsent
  · intro s hs id r hr
    exact (hinv.session s hs).machine.1.reveal id r hr
  · intro ops w' hrun i s hs
    exact (World.Later.run hsigns hinv hrun).2.session i s hs

/-! ### An instance -/

/-- The last bytes, in reverse. -/
def lastBytes (bytes : Bytes) : FixedBytes 32 :=
  ⟨(bytes.reverse ++ List.replicate 32 0).take 32, by simp⟩

/-- A signature that is the number of the message in a table. -/
def tableSign (table : List (DeviceId × Bytes)) (id : DeviceId) (msg : Bytes) : Signature :=
  ⟨.ofNat (table.idxOf (id, msg)) :: List.replicate 63 0, by simp⟩

/-- The last bytes in place of a hash, and signatures by table. -/
def tableCrypto (table : List (DeviceId × Bytes)) : Crypto where
  blake3 := lastBytes
  hkdf _ ikm _ := lastBytes ikm
  verify id msg sig := decide (sig = tableSign table id msg)
  sign := tableSign table

theorem tableCrypto_signs (table : List (DeviceId × Bytes)) : (tableCrypto table).Signs honest :=
  fun _ _ _ => decide_eq_true rfl

theorem tableSign_inj {table : List (DeviceId × Bytes)} (hlen : table.length < 256)
    {id id' : DeviceId} {msg msg' : Bytes} (hmem : (id, msg) ∈ table)
    (h : tableSign table id msg = tableSign table id' msg') : (id, msg) = (id', msg') := by
  have hbyte := (List.cons.inj (congrArg Subtype.val h)).1
  have hplace := List.idxOf_lt_length_of_mem hmem
  have hplace' : table.idxOf (id', msg') ≤ table.length := List.idxOf_le_length
  have hidx : table.idxOf (id, msg) = table.idxOf (id', msg') := by
    have := congrArg UInt8.toNat hbyte
    rwa [UInt8.toNat_ofNat_of_lt' (by show _ < 256; omega),
      UInt8.toNat_ofNat_of_lt' (by show _ < 256; omega)] at this
  have hmem' : (id', msg') ∈ table := List.idxOf_lt_length_iff.mp (hidx ▸ hplace)
  exact (List.idxOf_inj hmem).mp hidx

/-- A signature of a message in the table may be accepted when its signer made it, or is not
honest. -/
theorem table_allowed {table : List (DeviceId × Bytes)} (hlen : table.length < 256) {w : World}
    {id : DeviceId} {msg : Bytes} (hmem : (id, msg) ∈ table)
    (hsigned : honest id → w.Signed id msg) :
    SigAllowed (tableCrypto table) (w.Auth (tableCrypto table) honest)
      (tableSign table id msg).val := by
  intro id' msg' sig hsig hverify
  rw [FixedBytes.ofBytes_val] at hsig
  cases hsig
  have hsame := tableSign_inj hlen hmem (of_decide_eq_true hverify)
  cases hsame
  exact ⟨hverify, fun hid => ⟨hsigned hid, rfl⟩⟩

/-! ### Two members that finish -/

def filled (b : UInt8) : FixedBytes 32 := ⟨List.replicate 32 b, rfl⟩

def demoNonce : CeremonyNonce := filled 9

def demoMembers : List DeviceId := [filled 1, filled 2]

def demoDigest : FixedBytes 32 := lastBytes (memberSetInput demoMembers)

def demoCommitment (id : DeviceId) (r : Contribution) : Commitment :=
  lastBytes (commitmentInput demoNonce id r)

def demoCommit (id : DeviceId) (r : Contribution) : DeviceId × Bytes :=
  (id, commitSigningBytes demoNonce [7] demoDigest id (demoCommitment id r))

def demoReveal (id : DeviceId) (r : Contribution) : DeviceId × Bytes :=
  (id, revealSigningBytes demoNonce [7] demoDigest id r)

/-- What the two members sign: the second may change its mind. -/
def demoTable : List (DeviceId × Bytes) :=
  [demoCommit (filled 1) (filled 3), demoReveal (filled 1) (filled 3),
    demoCommit (filled 2) (filled 4), demoReveal (filled 2) (filled 4),
    demoCommit (filled 2) (filled 5), demoReveal (filled 2) (filled 5)]

def demoCrypto : Crypto := tableCrypto demoTable

/-- A new machine of the ceremony of the two. -/
def demoMachine (id : DeviceId) (r : Contribution) (commitments : List (Option Commitment)) :
    Ceremony where
  nonce := demoNonce
  chainId := [7]
  members := demoMembers
  memberSetDigest := demoDigest
  localId := id
  localR := r
  phase := .committing
  commitments := commitments
  commitSigs := [none, none]
  reveals := [none, none]
  revealSigs := [none, none]
  sharedKey := none
  transcript := none

def demoFirst : Ceremony :=
  demoMachine (filled 1) (filled 3) [some (demoCommitment (filled 1) (filled 3)), none]

def demoSecond : Ceremony :=
  demoMachine (filled 2) (filled 4) [none, some (demoCommitment (filled 2) (filled 4))]

/-- A member that starts, is handed a commitment, then a reveal. -/
def demoSession (c c' : Ceremony) : Nat → Session
  | 0 => Session.start demoCrypto c (.ok ()) (.ok ())
  | 1 => (demoSession c c' 0).recv demoCrypto
    (.ok (.sharedKeyCommit (Session.commitFrame demoCrypto c'))) (.ok ())
  | n + 2 => (demoSession c c' (n + 1)).recv demoCrypto
    (.ok (.sharedKeyReveal (Session.revealFrame demoCrypto c'))) (.ok ())

/-- A member's own two messages. -/
def ownCommit (c : Ceremony) : Bytes := c.commitBytes c.localId (c.localCommitment demoCrypto)

def ownReveal (c : Ceremony) : Bytes := c.revealBytes c.localId c.localR

/-- Both members' sessions, after a number of frames each. -/
def demoWorld (n m : Nat) : World :=
  ⟨[demoSession demoFirst demoSecond n, demoSession demoSecond demoFirst m], []⟩

/-- What a loop returned, when that is a key. -/
def Session.derived? (s : Session) : Option (SharedKey × Transcript) :=
  match s.result with
  | some (.ok (.derived key t)) => some (key, t)
  | _ => none

theorem Session.derived?_eq_some {s : Session} {key : SharedKey} {t : Transcript} :
    s.derived? = some (key, t) ↔ s.result = some (.ok (.derived key t)) := by
  unfold Session.derived?
  split <;> simp_all

/-- One member's part of the run: its machine is new, its messages are in the table, it waits until
it derives a key, and it has signed its messages by the time the other receives them. -/
def DemoPart (c c' : Ceremony) (id : DeviceId) (r : Contribution) : Prop :=
  Ceremony.new demoCrypto demoNonce [7] demoMembers id r = .ok c ∧
    (c.localId, ownCommit c) ∈ demoTable ∧ (c.localId, ownReveal c) ∈ demoTable ∧
    (∀ n ≤ 2, (demoSession c c' n).ceremony.localId = c.localId) ∧
    (∀ n ≤ 1, (demoSession c c' n).result = none) ∧
    (∀ n ≤ 2, ownCommit c ∈ (demoSession c c' n).signed) ∧
    ownReveal c ∈ (demoSession c c' 1).signed ∧ ownReveal c ∈ (demoSession c c' 2).signed ∧
    (demoSession c c' 2).derived?.isSome = true

instance (c c' : Ceremony) (id : DeviceId) (r : Contribution) : Decidable (DemoPart c c' id r) :=
  inferInstanceAs (Decidable (_ ∧ _ ∧ _ ∧ _ ∧ _ ∧ _ ∧ _ ∧ _ ∧ _))

theorem demo_parts : DemoPart demoFirst demoSecond (filled 1) (filled 3) ∧
    DemoPart demoSecond demoFirst (filled 2) (filled 4) ∧
    demoFirst.localId ≠ demoSecond.localId ∧ demoCrypto.CollisionFree (demoWorld 2 2).hashed ∧
    (demoSession demoFirst demoSecond 2).SameCeremony (demoSession demoSecond demoFirst 2) := by
  decide +kernel

/-- The signature of a member's message may be accepted once the member has signed it. -/
theorem demo_allowed {w : World} {s : Session} (hs : s ∈ w.sessions) {c : Ceremony} {msg : Bytes}
    (hentry : (c.localId, msg) ∈ demoTable) (hlocal : s.ceremony.localId = c.localId)
    (hsigned : msg ∈ s.signed) :
    SigAllowed demoCrypto (w.Auth demoCrypto honest) (demoCrypto.sign c.localId msg).val :=
  table_allowed (by decide) hentry fun _ => .inl ⟨s, hs, hlocal, hsigned⟩

theorem demo_recv {w : World} (hreach : (meshSystem demoCrypto honest).Reachable w) {i : Nat}
    {s : Session} (frame : Frame) (hget : w.sessions[i]? = some s) (hwaits : s.result = none)
    (hallowed : frame.Allowed demoCrypto (w.Auth demoCrypto honest)) :
    (meshSystem demoCrypto honest).Reachable
      { w with sessions := w.sessions.set i (s.recv demoCrypto (.ok frame) (.ok ())) } := by
  refine hreach.step (.recv hget hwaits ?_)
  rintro _ ⟨⟩
  exact hallowed

/-- Both start, and receive the other's commitment, then its reveal. -/
theorem demoWorld_reachable (hall : ∀ id, honest id) :
    (meshSystem demoCrypto honest).Reachable (demoWorld 2 2) := by
  obtain ⟨hfirst, hsecond, -⟩ := demo_parts
  obtain ⟨hnew, hentry, hentryR, hlocal, hwaits, hcommit, -, hreveal, -⟩ := hfirst
  obtain ⟨hnew', hentry', hentryR', hlocal', hwaits', hcommit', hreveal', -⟩ := hsecond
  have hmem : ∀ n m, demoSession demoFirst demoSecond n ∈ (demoWorld n m).sessions :=
    fun _ _ => List.mem_cons_self
  have hmem' : ∀ n m, demoSession demoSecond demoFirst m ∈ (demoWorld n m).sessions :=
    fun _ _ => List.mem_cons_of_mem _ List.mem_cons_self
  have hinit : (meshSystem demoCrypto honest).Reachable ⟨[], []⟩ := .of_init rfl
  have hstarted : (meshSystem demoCrypto honest).Reachable (demoWorld 0 0) :=
    (hinit.step (.start (hall _) hnew)).step (.start (hall _) hnew')
  have hfirstOpen : (meshSystem demoCrypto honest).Reachable (demoWorld 1 0) :=
    demo_recv hstarted (i := 0) (.sharedKeyCommit (Session.commitFrame demoCrypto demoSecond)) rfl
      (hwaits 0 (by omega))
      (demo_allowed (hmem' 0 0) hentry' (hlocal' 0 (by omega)) (hcommit' 0 (by omega)))
  have hbothOpen : (meshSystem demoCrypto honest).Reachable (demoWorld 1 1) :=
    demo_recv hfirstOpen (i := 1) (.sharedKeyCommit (Session.commitFrame demoCrypto demoFirst)) rfl
      (hwaits' 0 (by omega))
      (demo_allowed (hmem 1 0) hentry (hlocal 1 (by omega)) (hcommit 1 (by omega)))
  have hfirstDone : (meshSystem demoCrypto honest).Reachable (demoWorld 2 1) :=
    demo_recv hbothOpen (i := 0) (.sharedKeyReveal (Session.revealFrame demoCrypto demoSecond)) rfl
      (hwaits 1 (by omega)) (demo_allowed (hmem' 1 1) hentryR' (hlocal' 1 (by omega)) hreveal')
  exact demo_recv hfirstDone (i := 1) (.sharedKeyReveal (Session.revealFrame demoCrypto demoFirst))
    rfl (hwaits' 1 (by omega)) (demo_allowed (hmem 2 1) hentryR (hlocal 2 (by omega)) hreveal)

/-- Two members that finish agree. -/
theorem ceremony_agreement_demo : ∃ key t,
    (demoSession demoFirst demoSecond 2).result = some (.ok (.derived key t)) ∧
      (demoSession demoSecond demoFirst 2).result = some (.ok (.derived key t)) ∧
      t.verify demoCrypto = true := by
  obtain ⟨hfirst, hsecond, hne, hcoll, hsame⟩ := demo_parts
  obtain ⟨-, -, -, hlocal, -, -, -, -, hderived⟩ := hfirst
  obtain ⟨-, -, -, hlocal', -, -, -, -, hderived'⟩ := hsecond
  obtain ⟨⟨key, t⟩, hkey⟩ := Option.isSome_iff_exists.mp hderived
  obtain ⟨⟨key', t'⟩, hkey'⟩ := Option.isSome_iff_exists.mp hderived'
  rw [Session.derived?_eq_some] at hkey hkey'
  have honce : (demoWorld 2 2).Once := by
    refine List.pairwise_pair.mpr fun _ => ?_
    rw [hlocal 2 (by omega), hlocal' 2 (by omega)]
    exact hne
  obtain ⟨rfl, rfl, hverify⟩ := (ceremony_agreement (tableCrypto_signs demoTable)
    (demoWorld_reachable fun _ => trivial) hcoll honce).1 _ List.mem_cons_self _
      (List.mem_cons_of_mem _ List.mem_cons_self) hsame (fun _ _ => trivial) key t key' t' hkey hkey'
  exact ⟨key, t, hkey, hkey', hverify⟩

end Softfig.KeyCeremony
