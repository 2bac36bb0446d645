import Softfig.KeyCeremony.Agreement

/-!
What a transcript that verifies proves.

- `transcript_participation`: every honest member named in it took part in that
  very ceremony with that contribution, and between honest members it is the
  transcript of the ceremony;
- `transcript_participation_fails`: a member that is not honest can sign a second
  contribution, so a transcript may name a key that nobody derived.
-/

namespace Softfig.KeyCeremony

open Softfig.Lib
open Softfig.Vault (Bytes FixedBytes)

variable {p : Crypto} {honest : DeviceId → Prop}

/-- What the check of a transcript hashes of its member set. -/
def Transcript.hashed (t : Transcript) : List Bytes := [memberSetInput t.memberIds]

/-- The signatures in a transcript may be accepted. -/
def Transcript.Allowed (p : Crypto) (Auth : DeviceId → Bytes → Signature → Prop) (t : Transcript) :
    Prop :=
  ∀ e ∈ t.members, SigAllowed p Auth e.commitSig.val ∧ SigAllowed p Auth e.revealSig.val

/-- A session took part in the ceremony a transcript names. -/
def Session.TookPart (s : Session) (t : Transcript) : Prop :=
  s.ceremony.nonce = t.nonce ∧ s.ceremony.chainId = t.chainId ∧
    s.ceremony.members.Perm t.memberIds

instance (s : Session) (t : Transcript) : Decidable (s.TookPart t) :=
  inferInstanceAs (Decidable (_ ∧ _ ∧ _))

/-- What a transcript that verifies has been checked for. -/
theorem Transcript.verify_eq_true {t : Transcript} (h : t.verify p = true) :
    2 ≤ t.members.length ∧ t.memberIds.Nodup ∧ (∀ e ∈ t.members, t.entryOk p e = true) ∧
      KeyCeremony.keyId p (deriveSharedKey p t.nonce (t.members.map (·.contribution))) = t.keyId := by
  unfold Transcript.verify at h
  split at h
  · cases h
  rename_i htwo
  split at h
  · cases h
  rename_i hchain
  split at h
  · cases h
  rename_i hall
  refine ⟨Nat.not_lt.mp htwo, sortIds_isChain_iff.mp (not_not.mp hchain), ?_, of_decide_eq_true h⟩
  exact List.all_eq_true.mp (by simpa using hall)

theorem Transcript.entryOk_eq_true {t : Transcript} {e : TranscriptEntry}
    (h : t.entryOk p e = true) :
    commitment p t.nonce e.deviceId e.r = e.commitment ∧
      p.verify e.deviceId (commitSigningBytes t.nonce t.chainId (memberSetDigest p t.memberIds)
        e.deviceId e.commitment) e.commitSig = true ∧
      p.verify e.deviceId (revealSigningBytes t.nonce t.chainId (memberSetDigest p t.memberIds)
        e.deviceId e.r) e.revealSig = true := by
  simp only [Transcript.entryOk, verifyCommitSig, verifyRevealSig, Ceremony.verifySig_val,
    Bool.and_eq_true, decide_eq_true_eq] at h
  exact ⟨h.1.1, h.1.2, h.2⟩

/-- A line of a transcript in the name of an honest member is that member's own. -/
theorem World.Inv.line_author {w : World} (h : w.Inv p honest) {t : Transcript}
    (hallowed : t.Allowed p (w.Auth p honest)) (hcoll : p.CollisionFree (w.hashed ++ t.hashed))
    {e : TranscriptEntry} (he : e ∈ t.members) (hok : t.entryOk p e = true)
    (hid : honest e.deviceId) :
    ∃ s ∈ w.sessions, s.TookPart t ∧ s.ceremony.localId = e.deviceId ∧ s.ceremony.localR = e.r ∧
      s.ceremony.Opened ∧ s.ceremony.revealBytes s.ceremony.localId s.ceremony.localR ∈ s.signed ∧
      e = s.ceremony.ownEntry p := by
  obtain ⟨hopens, hcommit, hreveal⟩ := Transcript.entryOk_eq_true hok
  have hcommitAuth := (hallowed e he).1 _ _ _ (FixedBytes.ofBytes_val _) hcommit
  have hrevealAuth := (hallowed e he).2 _ _ _ (FixedBytes.ofBytes_val _) hreveal
  obtain ⟨-, hcommitSig⟩ := hcommitAuth.2 hid
  obtain ⟨hsigned, hrevealSig⟩ := hrevealAuth.2 hid
  obtain ⟨s, hs, hlocal, hnonce, hchain, hmsd, hr, hopen, hmsg⟩ := h.reveal_signed hsigned
  have hperm : s.ceremony.members.Perm t.memberIds := by
    refine memberSetInput_inj (hcoll _ (List.mem_append_left _ (World.mem_hashed hs)) _
      (List.mem_append_right _ List.mem_cons_self) hmsd)
  have hdigest := (h.session s hs).machine.1.digest.trans hmsd
  refine ⟨s, hs, ⟨hnonce, hchain, hperm⟩, hlocal, hr, hopen, ?_, ?_⟩
  · rw [Ceremony.revealBytes, hnonce, hchain, hdigest, hlocal, hr]
    exact hmsg
  · obtain ⟨deviceId, x, r, commitSig, revealSig⟩ := e
    simp only at hlocal hr hopens hcommitSig hrevealSig
    simp only [Ceremony.ownEntry, Ceremony.localCommitment, Ceremony.commitBytes,
      Ceremony.revealBytes, hlocal, hr, hnonce, hchain, hdigest, hopens]
    rw [hcommitSig, hrevealSig]

/-- Between honest members a transcript that verifies lists what a member that derived a key has. -/
theorem World.Inv.lines_perm {w : World} (h : w.Inv p honest) (honce : w.Once) {t : Transcript}
    (hverify : t.verify p = true) (hallowed : t.Allowed p (w.Auth p honest))
    (hcoll : p.CollisionFree (w.hashed ++ t.hashed)) (hall : ∀ e ∈ t.members, honest e.deviceId)
    {s : Session} (hs : s ∈ w.sessions) (hpart : s.TookPart t) {key : SharedKey}
    {t' : Transcript} (hsealed : s.ceremony.Sealed p key t') : t'.members.Perm t.members := by
  obtain ⟨-, hnodup, hok, -⟩ := Transcript.verify_eq_true hverify
  have hcollW : p.CollisionFree w.hashed := fun a ha b hb =>
    hcoll a (List.mem_append_left _ ha) b (List.mem_append_left _ hb)
  have hids : t'.memberIds.Perm t.memberIds := hsealed.memberIds ▸ hpart.2.2
  have hnodup' : t'.memberIds.Nodup := hids.nodup_iff.mpr hnodup
  -- a line of the transcript and a line of the machine have one author
  have hline : ∀ e ∈ t.members, e ∈ t'.members := by
    intro e he
    have hid : e.deviceId ∈ t'.memberIds := hids.symm.subset (List.mem_map_of_mem he)
    obtain ⟨e', he', hsame⟩ := List.mem_map.mp hid
    obtain ⟨id, -, hentry⟩ := forall₂_mem_right hsealed.entries he'
    have hown := (Ceremony.entry_eq_ok.mp hentry).1
    obtain ⟨u, hu, hupart, hulocal, -, -, -, rfl⟩ :=
      h.line_author hallowed hcoll he (hok e he) (hall e he)
    have hhonest : honest id := hown ▸ hsame ▸ hall _ he
    obtain ⟨v, hv, hvsame, hvlocal, rfl⟩ := h.entry_author hcollW honce hs hhonest hentry
    have huv : u = v := by
      refine honce.eq hu hv ⟨?_, ?_, ?_⟩ ?_
      · exact hupart.1.trans (hpart.1.symm.trans hvsame.1)
      · exact hupart.2.1.trans (hpart.2.1.symm.trans hvsame.2.1)
      · exact hupart.2.2.trans (hpart.2.2.symm.trans hvsame.2.2)
      · exact hsame.symm
    rw [huv]
    exact he'
  refine ((List.perm_ext_iff_of_nodup hnodup'.of_map hnodup.of_map).mpr fun e => ⟨?_, hline e⟩)
  intro he
  have hid : e.deviceId ∈ t.memberIds := hids.subset (List.mem_map_of_mem he)
  obtain ⟨e', he', hsame⟩ := List.mem_map.mp hid
  rwa [List.inj_on_of_nodup_map hnodup' he (hline e' he') hsame.symm]

/-- **What a transcript that verifies proves.** Every honest member named in it took part in a
ceremony with exactly its nonce, chain and member set, and revealed exactly the contribution
recorded; and if every member named is honest, and runs every ceremony once, then each of them that
derived a key in that ceremony has the lines of the transcript and the key it names. -/
theorem transcript_participation (hsigns : p.Signs honest) {w : World}
    (hreach : (meshSystem p honest).Reachable w) {t : Transcript} (hverify : t.verify p = true)
    (hallowed : t.Allowed p (w.Auth p honest))
    (hcoll : p.CollisionFree (w.hashed ++ t.hashed)) :
    (∀ e ∈ t.members, honest e.deviceId →
      ∃ s ∈ w.sessions, s.TookPart t ∧ s.ceremony.localId = e.deviceId ∧
        s.ceremony.localR = e.r ∧ s.ceremony.Opened ∧
        s.ceremony.revealBytes s.ceremony.localId s.ceremony.localR ∈ s.signed) ∧
    (w.Once → (∀ e ∈ t.members, honest e.deviceId) → ∀ s ∈ w.sessions, s.TookPart t →
      ∀ key t', s.result = some (.ok (.derived key t')) →
        t.keyId = keyId p key ∧ t'.members.Perm t.members) := by
  have hinv := World.Inv.reachable hsigns hreach
  obtain ⟨-, hnodup, hok, hkeyId⟩ := Transcript.verify_eq_true hverify
  refine ⟨?_, ?_⟩
  · intro e he hid
    obtain ⟨s, hs, hpart, hlocal, hr, hopen, hmsg, -⟩ :=
      hinv.line_author hallowed hcoll he (hok e he) hid
    exact ⟨s, hs, hpart, hlocal, hr, hopen, hmsg⟩
  · intro honce hall s hs hpart key t' hresult
    have hsealed := (hinv.session s hs).derived key t' hresult
    have hperm := hinv.lines_perm honce hverify hallowed hcoll hall hs hpart hsealed
    refine ⟨?_, hperm⟩
    have hids : ((t'.members.map (·.contribution)).map (·.deviceId)).Nodup := by
      rw [List.map_map]
      exact (hperm.map _).nodup_iff.mpr hnodup
    rw [← hkeyId, hsealed.key, hsealed.nonce, hpart.1,
      deriveSharedKey_perm hids (hperm.map _)]

/-! ### A second contribution -/

/-- The transcript of the two members' ceremony. -/
def demoSealed (second : TranscriptEntry) : Transcript :=
  ⟨demoNonce, [7], [demoFirst.ownEntry demoCrypto, second],
    keyId demoCrypto (deriveSharedKey demoCrypto demoNonce
      [(demoFirst.ownEntry demoCrypto).contribution, second.contribution])⟩

/-- The second member's machine, had it committed to another contribution. -/
def demoChanged : Ceremony :=
  demoMachine (filled 2) (filled 5) [none, some (demoCommitment (filled 2) (filled 5))]

/-- The first member alone: the second is not honest. -/
def demoAlone (n : Nat) : World := ⟨[demoSession demoFirst demoSecond n], []⟩

/-- Both transcripts verify, as the second member has signed for both; only one names the key the
first member derived. -/
theorem demo_transcripts :
    (demoSealed (demoSecond.ownEntry demoCrypto)).verify demoCrypto = true ∧
    (demoSealed (demoChanged.ownEntry demoCrypto)).verify demoCrypto = true ∧
    (demoChanged.localId, ownCommit demoChanged) ∈ demoTable ∧
    (demoChanged.localId, ownReveal demoChanged) ∈ demoTable ∧
    (∀ id ∈ [demoSecond.localId, demoChanged.localId], id ≠ filled 1) ∧
    demoFirst.localId = filled 1 ∧
    ((demoSession demoFirst demoSecond 2).derived?.any fun out => decide
      ((demoSealed (demoChanged.ownEntry demoCrypto)).keyId ≠ keyId demoCrypto out.1)) = true ∧
    demoCrypto.CollisionFree ((demoAlone 2).hashed ++
      (demoSealed (demoChanged.ownEntry demoCrypto)).hashed) ∧
    demoCrypto.CollisionFree ((demoWorld 2 2).hashed ++
      (demoSealed (demoSecond.ownEntry demoCrypto)).hashed) ∧
    (demoSession demoFirst demoSecond 2).TookPart (demoSealed (demoChanged.ownEntry demoCrypto)) := by
  decide +kernel

theorem demoAlone_reachable (hhonest : honest demoFirst.localId)
    (hdishonest : ¬honest demoSecond.localId) :
    (meshSystem demoCrypto honest).Reachable (demoAlone 2) := by
  obtain ⟨⟨hnew, -, -, -, hwaits, -⟩, ⟨-, hentry, hentryR, -⟩, -⟩ := demo_parts
  have hinit : (meshSystem demoCrypto honest).Reachable ⟨[], []⟩ := .of_init rfl
  have hstarted : (meshSystem demoCrypto honest).Reachable (demoAlone 0) :=
    hinit.step (.start hhonest hnew)
  have hopen : (meshSystem demoCrypto honest).Reachable (demoAlone 1) :=
    demo_recv hstarted (i := 0) (.sharedKeyCommit (Session.commitFrame demoCrypto demoSecond)) rfl
      (hwaits 0 (by omega)) (table_allowed (by decide) hentry fun hid => absurd hid hdishonest)
  exact demo_recv hopen (i := 0) (.sharedKeyReveal (Session.revealFrame demoCrypto demoSecond)) rfl
    (hwaits 1 (by omega)) (table_allowed (by decide) hentryR fun hid => absurd hid hdishonest)

/-- The first member's line may be accepted where its session is at its end. -/
theorem demo_line {w : World} (hs : demoSession demoFirst demoSecond 2 ∈ w.sessions) :
    SigAllowed demoCrypto (w.Auth demoCrypto honest)
        (demoFirst.ownEntry demoCrypto).commitSig.val ∧
      SigAllowed demoCrypto (w.Auth demoCrypto honest)
        (demoFirst.ownEntry demoCrypto).revealSig.val := by
  obtain ⟨⟨-, hentry, hentryR, hlocal, -, hcommit, -, hreveal, -⟩, -⟩ := demo_parts
  exact ⟨demo_allowed hs hentry (hlocal 2 (by omega)) (hcommit 2 (by omega)),
    demo_allowed hs hentryR (hlocal 2 (by omega)) hreveal⟩

/-- A member that is not honest signs a second contribution: the transcript verifies, and no
participant has the key it names. -/
theorem transcript_participation_fails : ∃ w t,
    (meshSystem demoCrypto (· = filled 1)).Reachable w ∧ w.Once ∧ t.verify demoCrypto = true ∧
      t.Allowed demoCrypto (w.Auth demoCrypto (· = filled 1)) ∧
      demoCrypto.CollisionFree (w.hashed ++ t.hashed) ∧
      ∃ s ∈ w.sessions, s.TookPart t ∧ ∃ key t', s.result = some (.ok (.derived key t')) ∧
        t.keyId ≠ keyId demoCrypto key := by
  obtain ⟨-, hverify, hentry, hentryR, hdishonest, hhonest, hne, hcoll, -, hpart⟩ := demo_transcripts
  obtain ⟨⟨key, t'⟩, hderived⟩ := Option.isSome_iff_exists.mp demo_parts.1.2.2.2.2.2.2.2.2
  rw [hderived, Option.any_some, decide_eq_true_eq] at hne
  have hreach : (meshSystem demoCrypto (· = filled 1)).Reachable (demoAlone 2) :=
    demoAlone_reachable hhonest (hdishonest _ List.mem_cons_self)
  refine ⟨demoAlone 2, demoSealed (demoChanged.ownEntry demoCrypto), hreach,
    List.pairwise_singleton _ _, hverify, ?_, hcoll, _, List.mem_cons_self, hpart, key, t',
    Session.derived?_eq_some.mp hderived, hne⟩
  intro e he
  rcases List.mem_cons.mp he with rfl | he
  · exact demo_line List.mem_cons_self
  · cases List.mem_singleton.mp he
    have hid := hdishonest demoChanged.localId (List.mem_cons_of_mem _ List.mem_cons_self)
    exact ⟨table_allowed (by decide) hentry fun h => absurd h hid,
      table_allowed (by decide) hentryR fun h => absurd h hid⟩

/-- Of two honest members the transcript of the ceremony names each. -/
theorem transcript_participation_demo : ∃ s ∈ (demoWorld 2 2).sessions,
    s.ceremony.localId = demoSecond.localId ∧ s.ceremony.localR = demoSecond.localR ∧
      s.ceremony.Opened := by
  obtain ⟨hverify, -, -, -, -, -, -, -, hcoll, -⟩ := demo_transcripts
  obtain ⟨-, ⟨-, hentry, hentryR, hlocal, -, hcommit, -, hreveal, -⟩, -⟩ := demo_parts
  have hmem : demoSession demoSecond demoFirst 2 ∈ (demoWorld 2 2).sessions :=
    List.mem_cons_of_mem _ List.mem_cons_self
  have hallowed : (demoSealed (demoSecond.ownEntry demoCrypto)).Allowed demoCrypto
      ((demoWorld 2 2).Auth demoCrypto fun _ => True) := by
    intro e he
    rcases List.mem_cons.mp he with rfl | he
    · exact demo_line List.mem_cons_self
    · cases List.mem_singleton.mp he
      exact ⟨demo_allowed hmem hentry (hlocal 2 (by omega)) (hcommit 2 (by omega)),
        demo_allowed hmem hentryR (hlocal 2 (by omega)) hreveal⟩
  obtain ⟨s, hs, -, hid, hr, hopen, -⟩ := (transcript_participation (tableCrypto_signs demoTable)
    (demoWorld_reachable fun _ => trivial) hverify hallowed hcoll).1
    (demoSecond.ownEntry demoCrypto) (List.mem_cons_of_mem _ List.mem_cons_self) trivial
  exact ⟨s, hs, hid, hr, hopen⟩

end Softfig.KeyCeremony
