import Softfig.KeyCeremony.Machine

/-!
What holds of a ceremony machine whatever it is fed.

What a machine may accept is a parameter: a relation between a device, a
message and a signature. The invariant says that whatever is in a slot was
accepted under a signature the relation allows.

- `Ceremony.new_inv`: a machine starts with its own commitment only;
- `acceptCommitment_kept`, `acceptReveal_kept`: the invariant is kept, and no
  slot that is filled changes;
- `Ceremony.Inv.transcript_verify`: the transcript of a derived machine verifies.
-/

namespace Softfig.KeyCeremony

open Softfig.Lib
open Softfig.Vault (Bytes FixedBytes)

variable {p : Crypto} {Auth : DeviceId → Bytes → Signature → Prop}

namespace Ceremony

/-- The machine's data agree with each other, and with what the relation allows. -/
structure Inv (p : Crypto) (Auth : DeviceId → Bytes → Signature → Prop) (c : Ceremony) : Prop where
  sorted : sortIds c.members = c.members
  nodup : c.members.Nodup
  two : 2 ≤ c.members.length
  isLocal : c.localId ∈ c.members
  digest : c.memberSetDigest = KeyCeremony.memberSetDigest p c.members
  commitmentsLen : c.commitments.length = c.members.length
  commitSigsLen : c.commitSigs.length = c.members.length
  revealsLen : c.reveals.length = c.members.length
  revealSigsLen : c.revealSigs.length = c.members.length
  ownCommitment : c.commitmentOf c.localId = some (c.localCommitment p)
  commitSig : ∀ id sig, c.commitSigOf id = some sig →
    ∃ x, c.commitmentOf id = some x ∧ Auth id (c.commitBytes id x) sig
  reveal : ∀ id r, c.revealOf id = some r → c.commitmentOf id = some (commitment p c.nonce id r)
  revealSig : ∀ id sig, c.revealSigOf id = some sig →
    ∃ r, c.revealOf id = some r ∧ Auth id (c.revealBytes id r) sig
  opened : c.phase ≠ .committing → ∀ id ∈ c.members, (c.commitmentOf id).isSome = true
  derived : c.phase = .derived → ∃ entries, c.members.mapM c.entry = .ok entries ∧
    c.sharedKey = some (deriveSharedKey p c.nonce (entries.map (·.contribution))) ∧
    c.transcript = some ⟨c.nonce, c.chainId, entries,
      keyId p (deriveSharedKey p c.nonce (entries.map (·.contribution)))⟩

/-- A later state of one machine: the same ceremony, and what was accepted is still there. -/
structure Extends (c c' : Ceremony) : Prop where
  nonce : c'.nonce = c.nonce
  chainId : c'.chainId = c.chainId
  members : c'.members = c.members
  digest : c'.memberSetDigest = c.memberSetDigest
  localId : c'.localId = c.localId
  localR : c'.localR = c.localR
  commitment : ∀ id x, c.commitmentOf id = some x → c'.commitmentOf id = some x
  commitSig : ∀ id sig, c.commitSigOf id = some sig → c'.commitSigOf id = some sig
  reveal : ∀ id r, c.revealOf id = some r → c'.revealOf id = some r
  revealSig : ∀ id sig, c.revealSigOf id = some sig → c'.revealSigOf id = some sig

theorem Extends.refl (c : Ceremony) : c.Extends c :=
  ⟨rfl, rfl, rfl, rfl, rfl, rfl, fun _ _ h => h, fun _ _ h => h, fun _ _ h => h, fun _ _ h => h⟩

theorem Extends.trans {c c' c'' : Ceremony} (h : c.Extends c') (h' : c'.Extends c'') :
    c.Extends c'' where
  nonce := h'.nonce.trans h.nonce
  chainId := h'.chainId.trans h.chainId
  members := h'.members.trans h.members
  digest := h'.digest.trans h.digest
  localId := h'.localId.trans h.localId
  localR := h'.localR.trans h.localR
  commitment id x hx := h'.commitment id x (h.commitment id x hx)
  commitSig id sig hsig := h'.commitSig id sig (h.commitSig id sig hsig)
  reveal id r hr := h'.reveal id r (h.reveal id r hr)
  revealSig id sig hsig := h'.revealSig id sig (h.revealSig id sig hsig)

/-- What is allowed later covers what is allowed now. -/
theorem Inv.mono {Auth' : DeviceId → Bytes → Signature → Prop} {c : Ceremony} (h : c.Inv p Auth)
    (hauth : ∀ id msg sig, Auth id msg sig → Auth' id msg sig) : c.Inv p Auth' where
  sorted := h.sorted
  nodup := h.nodup
  two := h.two
  isLocal := h.isLocal
  digest := h.digest
  commitmentsLen := h.commitmentsLen
  commitSigsLen := h.commitSigsLen
  revealsLen := h.revealsLen
  revealSigsLen := h.revealSigsLen
  ownCommitment := h.ownCommitment
  commitSig id sig hsig := by
    obtain ⟨x, hx, hallowed⟩ := h.commitSig id sig hsig
    exact ⟨x, hx, hauth _ _ _ hallowed⟩
  reveal := h.reveal
  revealSig id sig hsig := by
    obtain ⟨r, hr, hallowed⟩ := h.revealSig id sig hsig
    exact ⟨r, hr, hauth _ _ _ hallowed⟩
  opened := h.opened
  derived := h.derived

/-! ### Opening the reveal phase -/

theorem maybeAdvanceToReveal_extends (c : Ceremony) : c.Extends c.maybeAdvanceToReveal := by
  unfold maybeAdvanceToReveal
  split <;> exact ⟨rfl, rfl, rfl, rfl, rfl, rfl, fun _ _ h => h, fun _ _ h => h, fun _ _ h => h,
    fun _ _ h => h⟩

theorem Inv.maybeAdvanceToReveal {c : Ceremony} (h : c.Inv p Auth) :
    c.maybeAdvanceToReveal.Inv p Auth := by
  unfold Ceremony.maybeAdvanceToReveal
  split
  · rename_i hall
    refine { h with opened := fun _ => ?_, derived := nofun }
    exact (all_isSome_iff h.nodup h.commitmentsLen).mp hall.2
  · exact h

/-! ### Commitments -/

theorem slotAt_commitments {c : Ceremony} {id : DeviceId} {idx : Nat}
    (hidx : c.memberIndex id = some idx) : slotAt c.commitments idx = c.commitmentOf id :=
  (slotOf_eq hidx).symm

theorem slotAt_reveals {c : Ceremony} {id : DeviceId} {idx : Nat}
    (hidx : c.memberIndex id = some idx) : slotAt c.reveals idx = c.revealOf id :=
  (slotOf_eq hidx).symm

/-- **A commitment that is fed** keeps the invariant and every slot that is filled. -/
theorem acceptCommitment_kept {c c' : Ceremony} (h : c.Inv p Auth) {sender : DeviceId}
    {x : Commitment} {sig : Signature} (hauth : Auth sender (c.commitBytes sender x) sig)
    {res : Except NetError Unit} (hrun : acceptCommitment sender x sig c = (res, c')) :
    c'.Inv p Auth ∧ c.Extends c' := by
  unfold acceptCommitment at hrun
  split at hrun
  · cases hrun
    exact ⟨h, .refl _⟩
  rename_i hphase
  have hopen : c.phase = .committing := not_not.mp hphase
  split at hrun
  · cases hrun
    exact ⟨h, .refl _⟩
  rename_i idx hidx
  rw [slotAt_commitments hidx] at hrun
  split at hrun
  · cases hrun
    exact ⟨h, .refl _⟩
  rename_i hempty
  have hnone : c.commitmentOf sender = none := by simpa using hempty
  have hcommitment := slotOf_set h.commitmentsLen hidx x
  have hcommitSig := slotOf_set h.commitSigsLen hidx sig
  have hother : ∀ id y, c.commitmentOf id = some y → id ≠ sender := by
    rintro id y hy rfl
    rw [hnone] at hy
    cases hy
  have hextends : c.Extends { c with
      commitments := c.commitments.set idx (some x), commitSigs := c.commitSigs.set idx (some sig) } := by
    refine { Extends.refl c with commitment := ?_, commitSig := ?_ }
    · intro id y hy
      exact ((hcommitment id).trans (if_neg (hother id y hy))).trans hy
    · intro id sig' hsig
      obtain ⟨y, hy, -⟩ := h.commitSig id sig' hsig
      exact ((hcommitSig id).trans (if_neg (hother id y hy))).trans hsig
  cases hrun
  refine ⟨Inv.maybeAdvanceToReveal ?_, hextends.trans (maybeAdvanceToReveal_extends _)⟩
  refine { h with
    commitmentsLen := by rw [List.length_set, h.commitmentsLen]
    commitSigsLen := by rw [List.length_set, h.commitSigsLen]
    ownCommitment := hextends.commitment _ _ h.ownCommitment
    commitSig := ?_
    reveal := ?_
    opened := fun hlate => absurd hopen hlate
    derived := fun hdone => absurd (hopen.symm.trans hdone) nofun }
  · intro id sig' hsig
    by_cases heq : id = sender
    · subst heq
      have hsame : some sig = some sig' := ((hcommitSig id).trans (if_pos rfl)).symm.trans hsig
      cases hsame
      exact ⟨x, (hcommitment id).trans (if_pos rfl), hauth⟩
    · have hold : c.commitSigOf id = some sig' :=
        ((hcommitSig id).trans (if_neg heq)).symm.trans hsig
      obtain ⟨y, hy, hallowed⟩ := h.commitSig id sig' hold
      exact ⟨y, hextends.commitment id y hy, hallowed⟩
  · intro id r hr
    exact hextends.commitment id _ (h.reveal id r hr)

/-- The machine's own signature is recorded where there was none. -/
theorem recordLocalCommitSig_kept {c c' : Ceremony} (h : c.Inv p Auth) {sig : Signature}
    (hauth : Auth c.localId (c.commitBytes c.localId (c.localCommitment p)) sig)
    (hearly : c.phase ≠ .derived) (hnone : c.commitSigOf c.localId = none)
    {res : Except NetError Unit} (hrun : recordLocalCommitSig sig c = (res, c')) :
    c'.Inv p Auth ∧ c.Extends c' := by
  unfold recordLocalCommitSig at hrun
  split at hrun
  · cases hrun
    exact ⟨h, .refl _⟩
  rename_i idx hidx
  cases hrun
  have hcommitSig := slotOf_set h.commitSigsLen hidx sig
  refine ⟨{ h with
    commitSigsLen := by rw [List.length_set, h.commitSigsLen]
    commitSig := ?_
    derived := fun hdone => absurd hdone hearly }, { Extends.refl c with commitSig := ?_ }⟩
  · intro id sig' hsig
    by_cases heq : id = c.localId
    · subst heq
      have hsame : some sig = some sig' :=
        ((hcommitSig c.localId).trans (if_pos rfl)).symm.trans hsig
      cases hsame
      exact ⟨_, h.ownCommitment, hauth⟩
    · exact h.commitSig id sig' (((hcommitSig id).trans (if_neg heq)).symm.trans hsig)
  · intro id sig' hsig
    have hother : id ≠ c.localId := by
      rintro rfl
      rw [hnone] at hsig
      cases hsig
    exact ((hcommitSig id).trans (if_neg hother)).trans hsig

/-! ### Reveals -/

theorem maybeDerive_kept {c c' : Ceremony} (h : c.Inv p Auth) {res : Except NetError Unit}
    (hrun : maybeDerive p c = (res, c')) : c'.Inv p Auth ∧ c.Extends c' := by
  unfold maybeDerive at hrun
  split at hrun
  · cases hrun
    exact ⟨h, .refl _⟩
  rename_i hready
  have hopen : c.phase = .revealing := by
    by_contra hphase
    exact hready (.inl hphase)
  split at hrun
  · cases hrun
    exact ⟨h, .refl _⟩
  rename_i entries hentries
  cases hrun
  refine ⟨{ h with
    opened := fun _ => h.opened (by rw [hopen]; exact nofun)
    derived := fun _ => ⟨entries, hentries, rfl, rfl⟩ }, { Extends.refl c with }⟩

/-- **A reveal that is fed** keeps the invariant and every slot that is filled. -/
theorem acceptReveal_kept {c c' : Ceremony} (h : c.Inv p Auth) {sender : DeviceId}
    {r : Contribution} {sig : Signature} (hauth : Auth sender (c.revealBytes sender r) sig)
    {res : Except NetError Unit} (hrun : acceptReveal p sender r sig c = (res, c')) :
    c'.Inv p Auth ∧ c.Extends c' := by
  unfold acceptReveal at hrun
  split at hrun
  · cases hrun
    exact ⟨h, .refl _⟩
  rename_i hphase
  have hopen : c.phase = .revealing := not_not.mp hphase
  split at hrun
  · cases hrun
    exact ⟨h, .refl _⟩
  rename_i idx hidx
  rw [slotAt_reveals hidx, slotAt_commitments hidx] at hrun
  split at hrun
  · cases hrun
    exact ⟨h, .refl _⟩
  rename_i hempty
  have hnone : c.revealOf sender = none := by simpa using hempty
  split at hrun
  · cases hrun
    exact ⟨h, .refl _⟩
  rename_i expected hexpected
  split at hrun
  · cases hrun
    exact ⟨{ h with
      opened := fun _ => h.opened (by rw [hopen]; exact nofun)
      derived := nofun }, { Extends.refl c with }⟩
  rename_i hmatch
  have hopens : commitment p c.nonce sender r = expected := not_not.mp hmatch
  have hreveal := slotOf_set h.revealsLen hidx r
  have hrevealSig := slotOf_set h.revealSigsLen hidx sig
  have hother : ∀ id y, c.revealOf id = some y → id ≠ sender := by
    rintro id y hy rfl
    rw [hnone] at hy
    cases hy
  have hextends : c.Extends { c with
      reveals := c.reveals.set idx (some r), revealSigs := c.revealSigs.set idx (some sig) } := by
    refine { Extends.refl c with reveal := ?_, revealSig := ?_ }
    · intro id y hy
      exact ((hreveal id).trans (if_neg (hother id y hy))).trans hy
    · intro id sig' hsig
      obtain ⟨y, hy, -⟩ := h.revealSig id sig' hsig
      exact ((hrevealSig id).trans (if_neg (hother id y hy))).trans hsig
  have hkept : Inv p Auth { c with
      reveals := c.reveals.set idx (some r), revealSigs := c.revealSigs.set idx (some sig) } := by
    refine { h with
      revealsLen := by rw [List.length_set, h.revealsLen]
      revealSigsLen := by rw [List.length_set, h.revealSigsLen]
      reveal := ?_
      revealSig := ?_
      derived := fun hdone => absurd (hopen.symm.trans hdone) nofun }
    · intro id r' hr
      by_cases heq : id = sender
      · subst heq
        have hsame : some r = some r' := ((hreveal id).trans (if_pos rfl)).symm.trans hr
        cases hsame
        exact hexpected.trans (congrArg some hopens.symm)
      · exact h.reveal id r' (((hreveal id).trans (if_neg heq)).symm.trans hr)
    · intro id sig' hsig
      by_cases heq : id = sender
      · subst heq
        have hsame : some sig = some sig' := ((hrevealSig id).trans (if_pos rfl)).symm.trans hsig
        cases hsame
        exact ⟨r, (hreveal id).trans (if_pos rfl), hauth⟩
      · have hold : c.revealSigOf id = some sig' :=
          ((hrevealSig id).trans (if_neg heq)).symm.trans hsig
        obtain ⟨y, hy, hallowed⟩ := h.revealSig id sig' hold
        exact ⟨y, hextends.reveal id y hy, hallowed⟩
  obtain ⟨hinv, hlater⟩ := maybeDerive_kept hkept hrun
  exact ⟨hinv, hextends.trans hlater⟩

/-! ### A new machine -/

variable (Auth) in
/-- What a machine starts from. -/
theorem new_ok {nonce : CeremonyNonce} {chainId : Bytes} {members : List DeviceId}
    {localId : DeviceId} {localR : Contribution} {c : Ceremony}
    (h : new p nonce chainId members localId localR = .ok c) :
    c.nonce = nonce ∧ c.chainId = chainId ∧ c.members.Perm members ∧ c.localId = localId ∧
      c.localR = localR ∧ c.Inv p Auth ∧ c.phase ≠ .derived ∧ c.commitSigOf c.localId = none := by
  obtain ⟨hdup, h⟩ := refuseIf_bind_ok_iff.mp h
  obtain ⟨htwo, h⟩ := refuseIf_bind_ok_iff.mp h
  obtain ⟨hmem, h⟩ := refuseIf_bind_ok_iff.mp h
  obtain ⟨idx, hidx, h⟩ := bind_ok_iff.mp h
  rw [expectSome_eq_ok] at hidx
  cases h
  -- nothing was dropped, so there was nothing to drop
  have hsub := List.destutter_sublist (R := (· ≠ ·)) (sortIds members)
  have hsame : (sortIds members).destutter (· ≠ ·) = sortIds members := by
    refine hsub.eq_of_length ?_
    rw [not_not.mp hdup, (sortIds_perm members).length_eq]
  generalize hsorted : (sortIds members).destutter (· ≠ ·) = sorted at *
  subst hsame
  have hnodup : members.Nodup :=
    sortIds_isChain_iff.mp ((List.destutter_eq_self_iff _ _).mp hsorted)
  have hcommitment (x : Commitment) : ∀ id, slotOf (sortIds members)
      ((List.replicate (sortIds members).length none).set idx (some x)) id =
        if id = localId then some x else slotOf (sortIds members) _ id :=
    slotOf_set List.length_replicate hidx x
  have hempty : ∀ {α : Type} (id : DeviceId), slotOf (sortIds members)
      (List.replicate (sortIds members).length (none : Option α)) id = none :=
    fun id => slotOf_replicate _ id
  refine ⟨(maybeAdvanceToReveal_extends _).nonce, (maybeAdvanceToReveal_extends _).chainId, ?_,
    (maybeAdvanceToReveal_extends _).localId, (maybeAdvanceToReveal_extends _).localR,
    Inv.maybeAdvanceToReveal ?_, ?_, ?_⟩
  · rw [(maybeAdvanceToReveal_extends _).members]
    exact sortIds_perm members
  · exact {
      sorted := sortIds_sortIds members
      nodup := (sortIds_perm members).nodup_iff.mpr hnodup
      two := Nat.not_lt.mp htwo
      isLocal := not_not.mp hmem
      digest := rfl
      commitmentsLen := by rw [List.length_set, List.length_replicate]
      commitSigsLen := List.length_replicate
      revealsLen := List.length_replicate
      revealSigsLen := List.length_replicate
      ownCommitment := (hcommitment _ localId).trans (if_pos rfl)
      commitSig := fun id sig hsig => absurd ((hempty id).symm.trans hsig) nofun
      reveal := fun id r hr => absurd ((hempty id).symm.trans hr) nofun
      revealSig := fun id sig hsig => absurd ((hempty id).symm.trans hsig) nofun
      opened := fun hlate => absurd rfl hlate
      derived := nofun }
  · unfold maybeAdvanceToReveal
    split <;> exact nofun
  · unfold maybeAdvanceToReveal
    split <;> exact hempty localId

/-! ### The transcript -/

/-- What a line of the transcript is. -/
theorem entry_eq_ok {c : Ceremony} {id : DeviceId} {e : TranscriptEntry} :
    c.entry id = .ok e ↔ e.deviceId = id ∧ c.revealOf id = some e.r ∧
      c.commitmentOf id = some e.commitment ∧ c.commitSigOf id = some e.commitSig ∧
      c.revealSigOf id = some e.revealSig := by
  unfold entry
  simp only [bind_ok_iff, expectSome_eq_ok, pure, Except.pure, Except.ok.injEq]
  constructor
  · rintro ⟨r, hr, x, hx, csig, hcsig, rsig, hrsig, rfl⟩
    exact ⟨rfl, hr, hx, hcsig, hrsig⟩
  · rintro ⟨rfl, hr, hx, hcsig, hrsig⟩
    exact ⟨_, hr, _, hx, _, hcsig, _, hrsig, rfl⟩

/-- What a derived machine holds. -/
structure Sealed (p : Crypto) (c : Ceremony) (s : SharedKey) (t : Transcript) : Prop where
  nonce : t.nonce = c.nonce
  chainId : t.chainId = c.chainId
  entries : List.Forall₂ (fun id e => c.entry id = .ok e) c.members t.members
  key : s = deriveSharedKey p t.nonce (t.members.map (·.contribution))
  keyId : t.keyId = KeyCeremony.keyId p s

theorem Inv.sealed {c : Ceremony} (h : c.Inv p Auth) (hphase : c.phase = .derived) :
    ∃ s t, c.sharedKey = some s ∧ c.transcript = some t ∧ c.Sealed p s t := by
  obtain ⟨entries, hentries, hkey, htranscript⟩ := h.derived hphase
  exact ⟨_, _, hkey, htranscript, rfl, rfl, mapM_eq_ok_iff.mp hentries, rfl, rfl⟩

theorem Sealed.memberIds {c : Ceremony} {s : SharedKey} {t : Transcript} (h : c.Sealed p s t) :
    t.memberIds = c.members := by
  have hids : List.Forall₂ (· = ·) c.members t.memberIds := by
    rw [Transcript.memberIds, List.forall₂_map_right_iff]
    exact h.entries.imp fun _ _ hentry => (entry_eq_ok.mp hentry).1.symm
  exact (List.forall₂_eq_eq_eq ▸ hids).symm

theorem verifySig_val (id : DeviceId) (msg : Bytes) (sig : Signature) :
    verifySig p id msg sig.val = p.verify id msg sig := by
  rw [verifySig, FixedBytes.ofBytes_val]

/-- **The transcript of a derived machine verifies.** -/
theorem Inv.transcript_verify {c : Ceremony} (h : c.Inv p Auth)
    (hauth : ∀ id msg sig, Auth id msg sig → p.verify id msg sig = true) {s : SharedKey}
    {t : Transcript} (hs : c.Sealed p s t) : t.verify p = true := by
  have hids := hs.memberIds
  have hlen : t.members.length = c.members.length := by
    rw [← hids, Transcript.memberIds, List.length_map]
  have hentry : ∀ e ∈ t.members, t.entryOk p e = true := by
    intro e he
    obtain ⟨id, -, hline⟩ := forall₂_mem_right hs.entries he
    obtain ⟨rfl, hr, hx, hcsig, hrsig⟩ := entry_eq_ok.mp hline
    obtain ⟨x, hx', hcommit⟩ := h.commitSig _ _ hcsig
    obtain ⟨r, hr', hreveal⟩ := h.revealSig _ _ hrsig
    cases hx.symm.trans hx'
    cases hr.symm.trans hr'
    have hopens := (h.reveal _ _ hr).symm.trans hx
    simp only [Transcript.entryOk, hids, hs.nonce, hs.chainId, ← h.digest, verifyCommitSig,
      verifyRevealSig, verifySig_val, Bool.and_eq_true, decide_eq_true_eq]
    exact ⟨⟨Option.some.inj hopens, hauth _ _ _ hcommit⟩, hauth _ _ _ hreveal⟩
  have hchain : (sortIds c.members).IsChain (· ≠ ·) := sortIds_isChain_iff.mpr h.nodup
  have htwo := h.two
  unfold Transcript.verify
  rw [if_neg (by omega), hids, if_neg (not_not.mpr hchain), if_neg, decide_eq_true_eq, ← hs.key,
    hs.keyId]
  rw [Bool.not_eq_false, List.all_eq_true]
  exact hentry

end Ceremony

end Softfig.KeyCeremony
