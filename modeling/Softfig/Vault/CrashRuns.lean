import Softfig.Vault.DoorRuns

/-!
Runs of the vault's verbs, any of which may be killed while it writes.

Every door, the declared policy and the escrow record are published whole. A
rotation writes the new generation and the active pointer in place, so a kill
may tear either; and it numbers the generation from what its own session holds,
so it may overwrite one it has not seen.

- `DoorOp.writes`: every write of a door verb is atomic and keeps K;
- `WorldSealed.step`: every file stays sealed under one K while rotations spare
  what is on disk;
- `crash_runs`: so the vault opens again after every such run.
-/

namespace Softfig.Vault

open Softfig.Lib

/-! ### Runs -/

structure World where
  dir : VaultDir
  /-- The sessions of every process that is still alive. -/
  sessions : List VaultSession
  /-- The generations some session has encrypted a blob under. -/
  used : List MasterKey
  /-- The passphrase `k.self` is wrapped under. -/
  passphrase : Bytes

inductive VaultOp where
  | door (op : DoorOp)
  | doorKilled (op : DoorOp) (cut : Cut)
  | rotate (session : VaultSession) (fresh : Key) (nonce : Nonce)
  | rotateKilled (session : VaultSession) (fresh : Key) (nonce : Nonce) (cut : Cut)
  | unlock (passphrase : Bytes) (freshTransport : Key) (nonce : Nonce)
  | unlockWithRecovery (phrase : RecoveryPhrase) (freshTransport : Key) (nonce : Nonce)
  /-- A live session encrypts a blob under its active generation. -/
  | encrypt (session : VaultSession)
  /-- Some sessions end. -/
  | lock

/-- The passphrase a verb wraps `k.self` under, when it wraps it. -/
def DoorOp.passphraseAfter : DoorOp → Bytes → Bytes
  | .recover _ newPassphrase _ _, _ => newPassphrase
  | .rewrap _ passphrase newPassphrase _ _, _ => newPassphrase.getD passphrase
  | _, before => before

/-- A verb that wraps the K of a session wraps that of a live one. -/
def DoorOp.Live (sessions : List VaultSession) : DoorOp → Prop
  | .addPhrase kek _ _ _ => ∃ session ∈ sessions, session.kek = kek
  | _ => True

/-- The world once a door verb has left this directory: the passphrase in force is the new one when
`k.self` is another file than before. -/
def World.withDir (w : World) (op : DoorOp) (dir : VaultDir) : World :=
  { w with
    dir
    passphrase :=
      if dir.lookup .kekSelf = w.dir.lookup .kekSelf then w.passphrase
      else op.passphraseAfter w.passphrase }

section

variable (c : Crates) (f : Formats)

inductive VaultStep : World → VaultOp → World → Prop where
  | door {w : World} {op : DoorOp} (hlive : op.Live w.sessions) :
      VaultStep w (.door op) (w.withDir op (op.run c f (.fresh w.dir)).2.dir)
  | doorKilled {w : World} {op : DoorOp} {cut : Cut} {sessions : List VaultSession}
      (hlive : op.Live w.sessions) (hleft : sessions ⊆ w.sessions) :
      VaultStep w (.doorKilled op cut)
        { w.withDir op (cutAt (op.run c f (.fresh w.dir)).2.log cut w.dir) with sessions }
  | rotate {w : World} {session session' : VaultSession} {fresh : Key} {nonce : Nonce} {id : UInt32}
      {disk : VaultDisk} {sessions : List VaultSession} (hlive : session ∈ w.sessions)
      (hrun : rotateMasterKey c f session fresh nonce (.fresh w.dir) = (.ok (id, session'), disk))
      (hleft : sessions ⊆ session' :: w.sessions) :
      VaultStep w (.rotate session fresh nonce) { w with dir := disk.dir, sessions }
  | rotateKilled {w : World} {session : VaultSession} {fresh : Key} {nonce : Nonce} {cut : Cut}
      {sessions : List VaultSession} (hlive : session ∈ w.sessions)
      (hleft : sessions ⊆ w.sessions) :
      VaultStep w (.rotateKilled session fresh nonce cut)
        { w with
          dir := cutAt (rotateMasterKey c f session fresh nonce (.fresh w.dir)).2.log cut w.dir
          sessions }
  | unlock {w : World} {passphrase : Bytes} {freshTransport : Key} {nonce : Nonce}
      {session : VaultSession} {disk : VaultDisk}
      (hrun : Vault.unlock c f passphrase freshTransport nonce (.fresh w.dir) = (.ok session, disk)) :
      VaultStep w (.unlock passphrase freshTransport nonce)
        { w with dir := disk.dir, sessions := session :: w.sessions }
  | unlockWithRecovery {w : World} {phrase : RecoveryPhrase} {freshTransport : Key} {nonce : Nonce}
      {session : VaultSession} {disk : VaultDisk}
      (hrun : Vault.unlockWithRecovery c f phrase freshTransport nonce (.fresh w.dir) =
        (.ok session, disk)) :
      VaultStep w (.unlockWithRecovery phrase freshTransport nonce)
        { w with dir := disk.dir, sessions := session :: w.sessions }
  | encrypt {w : World} {session : VaultSession} {key : MasterKey} (hlive : session ∈ w.sessions)
      (hactive : session.masters.active = .ok key) :
      VaultStep w (.encrypt session) { w with used := key :: w.used }
  | lock {w : World} {sessions : List VaultSession} (hleft : sessions ⊆ w.sessions) :
      VaultStep w .lock { w with sessions }

/-- A completed `init`, at any costs. -/
def FreshWorld (w : World) : Prop :=
  ∃ passphrase costs r session phrase disk,
    initWithParams c f passphrase ⟨formatVersion, costs⟩ r (.fresh ∅) = (.ok (session, phrase), disk) ∧
      w = ⟨disk.dir, [session], [], passphrase⟩

def vaultSystem : System World VaultOp where
  init := FreshWorld c f
  step := VaultStep c f

/-- The vault opens under the passphrase in force, the session holds every generation in use, and
the phrase door, when there is one, opens the same K. -/
def Recoverable (w : World) : Prop :=
  ∃ session,
    (∀ freshTransport nonce, unlock c f w.passphrase freshTransport nonce (.fresh w.dir) =
      (.ok session, .fresh w.dir)) ∧
    (∀ key ∈ w.used, session.masters.get key.id = .ok key) ∧
    (fileExists w.dir .kekRecovery = true →
      ∃ phrase session', session'.kek = session.kek ∧
        ∀ freshTransport nonce, unlockWithRecovery c f phrase freshTransport nonce (.fresh w.dir) =
          (.ok session', .fresh w.dir))

/-- A rotation takes a number no file has, and a kill in the middle of one of its two writes leaves
the whole generation, or a pointer that reads as a generation on disk. -/
def Spares (w : World) : VaultOp → Prop
  | .rotate session _ _ => w.dir.lookup (.master session.masters.nextId) = none
  | .rotateKilled session fresh nonce cut =>
    let id := session.masters.nextId
    match cut.done, cut.torn with
    | 0, none => True
    | 0, some kept =>
      w.dir.lookup (.master id) = none ∧
        (wrapUnderKek c session.kek fresh.val (aad.master id) nonce).length ≤ kept
    | 1, some kept =>
      w.dir.lookup (.master id) = none ∧
        ∃ active, f.active.parse ((f.active.render ⟨id⟩).take kept) = .ok active ∧
          (active.masterKeyId = id ∨ fileExists w.dir (.master active.masterKeyId) = true)
    | _, _ => w.dir.lookup (.master id) = none
  | _ => True

end

variable {c : Crates} {f : Formats}

/-! ### Everything sealed under one K -/

/-- A wrapping of K for the phrase door. -/
def PhraseWrapping (c : Crates) (kek : Key) (bytes : Bytes) : Prop :=
  ∃ phrase : RecoveryPhrase, ∃ params salt nonce,
    wrapKekUnderPassphrase c phrase.passphraseBytes kek params aad.kekRecovery salt nonce = .ok bytes

/-- `k.self` is a wrapping of K under this passphrase. -/
def SelfUnder (c : Crates) (dir : VaultDir) (kek : Key) (passphrase : Bytes) : Prop :=
  ∃ params salt nonce bytes,
    wrapKekUnderPassphrase c passphrase kek params aad.kekSelf salt nonce = .ok bytes ∧
      dir.lookup .kekSelf = some bytes

/-- What no door verb touches: everything else a session is built from. -/
structure Interior (c : Crates) (f : Formats) (dir : VaultDir) (kek : Key) : Prop where
  params : ∃ params, loadParams f dir = .ok params
  masters : ∀ id, (dir.lookup (.master id)).isSome = true → ∃ key, key.id = id ∧ MasterAt c dir kek key
  active : ∃ active, loadActive f dir = .ok active ∧
    (dir.lookup (.master active.masterKeyId)).isSome = true
  identity : ∃ secret : Key, ∃ nonce,
    dir.lookup .identity = some (wrapUnderKek c kek secret.val aad.identity nonce)
  transport : ∃ secret : Key, ∃ nonce,
    dir.lookup .transport = some (wrapUnderKek c kek secret.val aad.transport nonce)

structure WorldSealed (c : Crates) (f : Formats) (w : World) (kek : Key) : Prop where
  interior : Interior c f w.dir kek
  phrase : ∀ bytes, w.dir.lookup .kekRecovery = some bytes → PhraseWrapping c kek bytes
  self : SelfUnder c w.dir kek w.passphrase
  sessions : ∀ session ∈ w.sessions, session.kek = kek ∧
    ∀ id bytes, session.masters.keys.lookup id = some bytes → MasterAt c w.dir kek ⟨id, bytes⟩
  used : ∀ key ∈ w.used, MasterAt c w.dir kek key

/-- A file only the door verbs write. -/
def VaultFile.IsDoor : VaultFile → Prop
  | .kekSelf | .kekRecovery | .recoveryPolicy | .escrowRecord => True
  | _ => False

theorem VaultFile.IsDoor.ne {file other : VaultFile} (hfile : file.IsDoor) (hother : ¬other.IsDoor) :
    other ≠ file := by
  rintro rfl
  exact hother hfile

theorem loadParams_congr {dir dir' : VaultDir} (h : dir'.lookup .params = dir.lookup .params) :
    loadParams f dir' = loadParams f dir := by
  have hinit : initialized dir' = initialized dir := by
    rw [initialized, fileExists, h, initialized, fileExists]
  have hread : readFile dir' .params = readFile dir .params := by
    rw [readFile, h, readFile]
  rw [loadParams, hinit, hread, loadParams]

theorem Interior.congr {dir dir' : VaultDir} {kek : Key} (h : Interior c f dir kek)
    (hsame : ∀ file : VaultFile, ¬file.IsDoor → dir'.lookup file = dir.lookup file) :
    Interior c f dir' kek where
  params := by
    rw [loadParams_congr (hsame .params id)]
    exact h.params
  masters id hid := by
    have hmaster := hsame (.master id) not_false
    rw [hmaster] at hid
    obtain ⟨key, rfl, hkey⟩ := h.masters id hid
    exact ⟨key, rfl, hkey.congr hmaster⟩
  active := by
    obtain ⟨active, hload, hmaster⟩ := h.active
    refine ⟨active, ?_, ?_⟩
    · simpa only [loadActive, readFile, hsame .active not_false] using hload
    · rwa [hsame (.master _) not_false]
  identity := by
    rw [hsame .identity not_false]
    exact h.identity
  transport := by
    rw [hsame .transport not_false]
    exact h.transport

/-- **Everything sealed under one K opens.** -/
theorem WorldSealed.recoverable (hc : c.Lawful) {w : World} {kek : Key}
    (h : WorldSealed c f w kek) : Recoverable c f w := by
  obtain ⟨params, hparams⟩ := h.interior.params
  obtain ⟨active, hactive, hpointed⟩ := h.interior.active
  obtain ⟨identity, identityNonce, hidentity⟩ := h.interior.identity
  obtain ⟨transport, transportNonce, htransport⟩ := h.interior.transport
  have hinit : initialized w.dir = true := by
    by_contra habsent
    obtain ⟨_, hrefused, _⟩ := bind_ok_iff.mp hparams
    exact refuseIf_eq_ok.mp hrefused habsent
  have hopens : ∀ {secret ad : Bytes} {file : VaultFile} {bytes : Bytes} {costs : Argon2Params}
      {salt : Salt} {nonce : Nonce},
      wrapKekUnderPassphrase c secret kek costs ad salt nonce = .ok bytes →
      w.dir.lookup file = some bytes →
      ∃ session, session.kek = kek ∧
        (∀ key, MasterAt c w.dir kek key → session.masters.get key.id = .ok key) ∧
        ∀ freshTransport nonce, unlockWith c f secret ad file freshTransport nonce (.fresh w.dir) =
          (.ok session, .fresh w.dir) := by
    intro secret ad file bytes costs salt nonce hwrap hlook
    refine unlockWith_sealed hc ?_ hactive hpointed h.interior.masters hidentity htransport
    simp only [openDoor, refuseIf, hinit, not_true_eq_false, ↓reduceIte, hparams,
      readFile_eq_ok.mpr hlook, unwrap_wrap hc hwrap, bind, Except.bind]
  obtain ⟨costs, salt, nonce, bytes, hwrap, hlook⟩ := h.self
  obtain ⟨session, hkek, hholds, hunlock⟩ := hopens hwrap hlook
  refine ⟨session, hunlock, fun key hkey => hholds key (h.used key hkey), ?_⟩
  intro hdoor
  obtain ⟨recovery, hrecovery⟩ := Option.isSome_iff_exists.mp hdoor
  obtain ⟨phrase, costs', salt', nonce', hwrap'⟩ := h.phrase recovery hrecovery
  obtain ⟨session', hkek', _, hunlock'⟩ := hopens hwrap' hrecovery
  exact ⟨phrase, session', hkek'.trans hkek.symm, hunlock'⟩

/-! ### Door verbs -/

/-- A write of a door verb: atomic, and a door it publishes is a wrapping of K. -/
inductive DoorWrite (c : Crates) (kek : Key) (passphrase : Bytes) : Write VaultFile UInt8 → Prop where
  | self {params : Argon2Params} {salt : Salt} {nonce : Nonce} {bytes : Bytes}
      (hwrap : wrapKekUnderPassphrase c passphrase kek params aad.kekSelf salt nonce = .ok bytes) :
      DoorWrite c kek passphrase (.publish .kekSelf bytes)
  | phrase {bytes : Bytes} (hwrap : PhraseWrapping c kek bytes) :
      DoorWrite c kek passphrase (.publish .kekRecovery bytes)
  | dropPhrase : DoorWrite c kek passphrase (.unlink .kekRecovery)
  | policy {bytes : Bytes} : DoorWrite c kek passphrase (.publish .recoveryPolicy bytes)
  | record {bytes : Bytes} : DoorWrite c kek passphrase (.publish .escrowRecord bytes)

/-- Every write of a door verb is atomic and keeps K. -/
theorem DoorOp.writes (hc : c.Lawful) (ha : c.Authentic) {w : World} {kek : Key}
    (hw : WorldSealed c f w kek) {op : DoorOp} (hlive : op.Live w.sessions) {disk : VaultDisk}
    {res : Except VaultError Unit} (h : op.run c f (.fresh w.dir) = (res, disk)) :
    disk.dir = replay disk.log w.dir ∧
      ∀ write ∈ disk.log, DoorWrite c kek (op.passphraseAfter w.passphrase) write := by
  have hnone : (Disk.fresh w.dir).dir = replay (Disk.fresh w.dir).log w.dir ∧
      ∀ write ∈ (Disk.fresh w.dir).log, DoorWrite c kek (op.passphraseAfter w.passphrase) write :=
    ⟨rfl, by simp⟩
  cases op with
  | drop target through =>
    obtain ⟨r, hout, rfl⟩ := Fallible.void_eq h
    rcases dropWrapping_cases hout with ⟨e, rfl, rfl⟩ | ⟨plan, policy, rfl, _, _, rfl⟩
    · exact hnone
    · refine ⟨rfl, ?_⟩
      simp [DoorWrite.dropPhrase, DoorWrite.policy]
  | addPhrase sessionKek phrase salt nonce =>
    obtain ⟨r, hout, rfl⟩ := Fallible.void_eq h
    rcases addPhrase_cases hout with ⟨e, rfl, rfl⟩ | ⟨params, policy, wrapped, rfl, _, _, _, hwrap, rfl⟩
    · exact hnone
    · obtain ⟨session, hmem, hkek⟩ := hlive
      have hsame : sessionKek = kek := hkek.symm.trans (hw.sessions session hmem).1
      subst hsame
      refine ⟨rfl, ?_⟩
      simp only [Disk.after_log, Disk.fresh_log, List.nil_append, List.mem_append,
        List.mem_singleton]
      rintro write (rfl | rfl)
      · exact .phrase ⟨phrase, _, salt, nonce, hwrap⟩
      · exact .policy
  | recover phrase newPassphrase salt nonce =>
    rcases recover_cases h with
      ⟨e, rfl, rfl⟩ | ⟨params, recovery, kek', wrapped, rfl, _, hlook, hopen, hwrap, rfl⟩
    · exact hnone
    · obtain ⟨phrase', costs, salt', nonce', hwrap'⟩ := hw.phrase recovery hlook
      have hsame : kek' = kek := unwrap_wrap_eq hc ha hwrap' hopen
      subst hsame
      refine ⟨rfl, ?_⟩
      simp only [Disk.after_log, Disk.fresh_log, List.nil_append, List.mem_singleton]
      rintro write rfl
      exact .self hwrap
  | rewrap plan passphrase newPassphrase salt nonce =>
    rcases rewrapApply_cases h with
      ⟨e, rfl, rfl⟩ | ⟨fresh, params, kekSelf, kek', wrapped, rfl, _, _, hlook, hopen, hwrap, rfl⟩
    · exact hnone
    · obtain ⟨costs, salt', nonce', bytes, hwrap', hlook'⟩ := hw.self
      rw [Disk.fresh_dir, hlook'] at hlook
      cases hlook
      have hsame : kek' = kek := unwrap_wrap_eq hc ha hwrap' hopen
      subst hsame
      refine ⟨rfl, ?_⟩
      simp only [Disk.after_log, Disk.fresh_log, List.nil_append, List.mem_singleton]
      rintro write rfl
      exact .self hwrap
  | record entry now =>
    obtain ⟨r, hout, rfl⟩ := Fallible.void_eq h
    rcases recordVerification_cases hout with ⟨e, rfl, rfl⟩ | ⟨log, rfl, rfl⟩
    · exact hnone
    · refine ⟨rfl, ?_⟩
      simp [DoorWrite.record]
  | declare text =>
    obtain ⟨r, hout, rfl⟩ := Fallible.void_eq h
    rcases declare_cases hout with ⟨e, rfl, rfl⟩ | ⟨policy, rfl, rfl⟩
    · exact hnone
    · refine ⟨rfl, ?_⟩
      simp [DoorWrite.policy]

/-- The directory between two door verbs: what they do not touch is as it was, and `k.self` is as it
was or wrapped under the new passphrase. -/
structure DoorsOf (c : Crates) (before : VaultDir) (kek : Key) (passphrase : Bytes)
    (dir : VaultDir) : Prop where
  same : ∀ file : VaultFile, ¬file.IsDoor → dir.lookup file = before.lookup file
  phrase : ∀ bytes, dir.lookup .kekRecovery = some bytes → PhraseWrapping c kek bytes
  self : dir.lookup .kekSelf = before.lookup .kekSelf ∨ SelfUnder c dir kek passphrase

theorem SelfUnder.congr {dir dir' : VaultDir} {kek : Key} {passphrase : Bytes}
    (h : SelfUnder c dir kek passphrase) (hsame : dir'.lookup .kekSelf = dir.lookup .kekSelf) :
    SelfUnder c dir' kek passphrase := by
  obtain ⟨params, salt, nonce, bytes, hwrap, hlook⟩ := h
  exact ⟨params, salt, nonce, bytes, hwrap, hsame.trans hlook⟩

/-- A door file other than the two doors may be written freely. -/
theorem DoorsOf.metadata {before dir : VaultDir} {kek : Key} {passphrase : Bytes}
    (h : DoorsOf c before kek passphrase dir) {file : VaultFile} {bytes : Bytes}
    (hfile : file.IsDoor) (hself : file ≠ .kekSelf) (hphrase : file ≠ .kekRecovery) :
    DoorsOf c before kek passphrase (dir.insert file bytes) where
  same other hother := by
    rw [AList.lookup_insert_ne (hfile.ne hother)]
    exact h.same other hother
  phrase content hlook := by
    rw [AList.lookup_insert_ne hphrase.symm] at hlook
    exact h.phrase content hlook
  self := by
    have hkept : (dir.insert file bytes).lookup .kekSelf = dir.lookup .kekSelf :=
      AList.lookup_insert_ne hself.symm
    rcases h.self with hold | hnew
    · exact .inl (hkept.trans hold)
    · exact .inr (hnew.congr hkept)

theorem DoorsOf.write {before dir : VaultDir} {kek : Key} {passphrase : Bytes}
    (h : DoorsOf c before kek passphrase dir) {write : Write VaultFile UInt8}
    (hwrite : DoorWrite c kek passphrase write) :
    DoorsOf c before kek passphrase (write.apply dir) := by
  cases hwrite with
  | policy => exact h.metadata trivial (by simp) (by simp)
  | record => exact h.metadata trivial (by simp) (by simp)
  | @self params salt nonce bytes hwrap =>
    constructor
    · intro other hother
      have hne := (show VaultFile.kekSelf.IsDoor from trivial).ne hother
      rw [Write.apply, AList.lookup_insert_ne hne]
      exact h.same other hother
    · intro content hlook
      have hkept : (dir.insert .kekSelf bytes).lookup .kekRecovery = dir.lookup .kekRecovery :=
        AList.lookup_insert_ne (by simp)
      exact h.phrase content (hkept.symm.trans hlook)
    · exact .inr ⟨params, salt, nonce, bytes, hwrap, AList.lookup_insert _⟩
  | @phrase bytes hwrap =>
    constructor
    · intro other hother
      have hne := (show VaultFile.kekRecovery.IsDoor from trivial).ne hother
      rw [Write.apply, AList.lookup_insert_ne hne]
      exact h.same other hother
    · intro content hlook
      rw [Write.apply, AList.lookup_insert] at hlook
      cases hlook
      exact hwrap
    · have hkept : (dir.insert .kekRecovery bytes).lookup .kekSelf = dir.lookup .kekSelf :=
        AList.lookup_insert_ne (by simp)
      rcases h.self with hold | hnew
      · exact .inl (hkept.trans hold)
      · exact .inr (hnew.congr hkept)
  | dropPhrase =>
    constructor
    · intro other hother
      have hne := (show VaultFile.kekRecovery.IsDoor from trivial).ne hother
      rw [Write.apply, AList.lookup_erase_ne hne]
      exact h.same other hother
    · intro content hlook
      rw [Write.apply, AList.lookup_erase] at hlook
      cases hlook
    · have hkept : (dir.erase VaultFile.kekRecovery).lookup .kekSelf = dir.lookup .kekSelf :=
        AList.lookup_erase_ne (by simp)
      rcases h.self with hold | hnew
      · exact .inl (hkept.trans hold)
      · exact .inr (hnew.congr hkept)

theorem DoorsOf.replay {before : VaultDir} {kek : Key} {passphrase : Bytes}
    {writes : List (Write VaultFile UInt8)}
    (hwrites : ∀ write ∈ writes, DoorWrite c kek passphrase write) {dir : VaultDir}
    (h : DoorsOf c before kek passphrase dir) :
    DoorsOf c before kek passphrase (replay writes dir) := by
  induction writes generalizing dir with
  | nil => exact h
  | cons write writes ih =>
    exact ih (fun other hmem => hwrites other (List.mem_cons_of_mem _ hmem))
      (h.write (hwrites write List.mem_cons_self))

/-- A kill leaves the directory of a door verb after some of its writes. -/
theorem DoorsOf.cut {before : VaultDir} {kek : Key} {passphrase : Bytes}
    {writes : List (Write VaultFile UInt8)}
    (hwrites : ∀ write ∈ writes, DoorWrite c kek passphrase write) (cut : Cut) {dir : VaultDir}
    (h : DoorsOf c before kek passphrase dir) :
    DoorsOf c before kek passphrase (cutAt writes cut dir) := by
  rcases cutAt_cases writes cut dir with ⟨k, hcut⟩ | ⟨kept, file, content, _, hnext, _⟩
  · rw [hcut]
    exact h.replay fun write hmem => hwrites write (List.mem_of_mem_take hmem)
  · cases hwrites _ (List.mem_of_getElem? hnext)

/-- A door verb, killed or not, leaves everything sealed under the same K. -/
theorem WorldSealed.withDir {w : World} {kek : Key} (hw : WorldSealed c f w kek) {op : DoorOp}
    {dir : VaultDir} (h : DoorsOf c w.dir kek (op.passphraseAfter w.passphrase) dir) :
    WorldSealed c f (w.withDir op dir) kek where
  interior := hw.interior.congr h.same
  phrase := h.phrase
  self := by
    show SelfUnder c dir kek (if _ then _ else _)
    split
    · rename_i hsame
      exact hw.self.congr hsame
    · rename_i hchanged
      exact h.self.resolve_left hchanged
  sessions session hmem := by
    obtain ⟨hkek, hkeys⟩ := hw.sessions session hmem
    exact ⟨hkek, fun id bytes hlook => (hkeys id bytes hlook).congr (h.same (.master id) not_false)⟩
  used key hmem := (hw.used key hmem).congr (h.same (.master key.id) not_false)

/-- Fewer sessions are sealed as the others were. -/
theorem WorldSealed.sublist {w : World} {kek : Key} (hw : WorldSealed c f w kek)
    {sessions : List VaultSession} (hleft : sessions ⊆ w.sessions) :
    WorldSealed c f { w with sessions } kek :=
  { hw with sessions := fun session hmem => hw.sessions session (hleft hmem) }

/-! ### Rotations -/

theorem MasterAt.insert (dir : VaultDir) (kek : Key) (key : MasterKey) (nonce : Nonce) :
    MasterAt c (dir.insert (.master key.id) (wrapUnderKek c kek key.bytes.val (aad.master key.id)
      nonce)) kek key :=
  ⟨nonce, AList.lookup_insert _⟩

theorem MasterAt.active {dir : VaultDir} {kek : Key} {key : MasterKey} {content : Bytes}
    (h : MasterAt c dir kek key) : MasterAt c (dir.insert .active content) kek key :=
  h.congr (AList.lookup_insert_ne (by simp))

/-- A new generation beside those on disk leaves them, and everything else, as they were. -/
theorem WorldSealed.newMaster {w : World} {kek : Key} (hw : WorldSealed c f w kek) (key : MasterKey)
    (hfree : w.dir.lookup (.master key.id) = none) (nonce : Nonce) :
    WorldSealed c f { w with
      dir := w.dir.insert (.master key.id) (wrapUnderKek c kek key.bytes.val (aad.master key.id)
        nonce) } kek := by
  have hsame : ∀ file : VaultFile, file ≠ .master key.id →
      (w.dir.insert (.master key.id) (wrapUnderKek c kek key.bytes.val (aad.master key.id)
        nonce)).lookup file = w.dir.lookup file := fun file hfile => AList.lookup_insert_ne hfile
  have hkept : ∀ other : MasterKey, MasterAt c w.dir kek other → MasterAt c
      (w.dir.insert (.master key.id) (wrapUnderKek c kek key.bytes.val (aad.master key.id) nonce))
        kek other := by
    intro other hother
    refine hother.congr (hsame _ ?_)
    intro heq
    obtain ⟨_, hlook⟩ := hother
    rw [heq, hfree] at hlook
    cases hlook
  constructor
  · constructor
    · rw [loadParams_congr (hsame .params (by simp))]
      exact hw.interior.params
    · intro id hid
      by_cases hnew : id = key.id
      · exact ⟨key, hnew.symm, nonce, AList.lookup_insert _⟩
      · rw [hsame (.master id) (by simpa using hnew)] at hid
        obtain ⟨other, hotherId, hother⟩ := hw.interior.masters id hid
        exact ⟨other, hotherId, hkept other hother⟩
    · obtain ⟨active, hload, hpointed⟩ := hw.interior.active
      refine ⟨active, ?_, ?_⟩
      · simpa only [loadActive, readFile, hsame .active (by simp)] using hload
      · rw [hsame]
        · exact hpointed
        · intro heq
          rw [heq, hfree] at hpointed
          cases hpointed
    · rw [hsame .identity (by simp)]
      exact hw.interior.identity
    · rw [hsame .transport (by simp)]
      exact hw.interior.transport
  · intro bytes hlook
    exact hw.phrase bytes ((hsame .kekRecovery (by simp)).symm.trans hlook)
  · exact hw.self.congr (hsame .kekSelf (by simp))
  · intro session hmem
    obtain ⟨hkek, hkeys⟩ := hw.sessions session hmem
    exact ⟨hkek, fun id bytes hlook => hkept _ (hkeys id bytes hlook)⟩
  · exact fun other hmem => hkept other (hw.used other hmem)

/-- A pointer that reads as a generation on disk keeps everything as it was. -/
theorem WorldSealed.newActive {w : World} {kek : Key} (hw : WorldSealed c f w kek) {content : Bytes}
    {active : ActiveKey} (hparse : f.active.parse content = .ok active)
    (hpointed : (w.dir.lookup (.master active.masterKeyId)).isSome = true) :
    WorldSealed c f { w with dir := w.dir.insert .active content } kek := by
  have hsame : ∀ file : VaultFile, file ≠ .active →
      (w.dir.insert .active content).lookup file = w.dir.lookup file :=
    fun file hfile => AList.lookup_insert_ne hfile
  have hkept : ∀ other : MasterKey, MasterAt c w.dir kek other →
      MasterAt c (w.dir.insert .active content) kek other :=
    fun other hother => hother.congr (hsame _ (by simp))
  constructor
  · constructor
    · rw [loadParams_congr (hsame .params (by simp))]
      exact hw.interior.params
    · intro id hid
      rw [hsame (.master id) (by simp)] at hid
      obtain ⟨other, hotherId, hother⟩ := hw.interior.masters id hid
      exact ⟨other, hotherId, hkept other hother⟩
    · refine ⟨active, ?_, ?_⟩
      · simp [loadActive, readFile, fromToml, hparse, bind, Except.bind]
      · rwa [hsame (.master _) (by simp)]
    · rw [hsame .identity (by simp)]
      exact hw.interior.identity
    · rw [hsame .transport (by simp)]
      exact hw.interior.transport
  · intro bytes hlook
    exact hw.phrase bytes ((hsame .kekRecovery (by simp)).symm.trans hlook)
  · exact hw.self.congr (hsame .kekSelf (by simp))
  · intro session hmem
    obtain ⟨hkek, hkeys⟩ := hw.sessions session hmem
    exact ⟨hkek, fun id bytes hlook => hkept _ (hkeys id bytes hlook)⟩
  · exact fun other hmem => hkept other (hw.used other hmem)

/-- Both writes of a rotation, where the pointer holds this content. -/
theorem WorldSealed.rotated {w : World} {kek : Key} (hw : WorldSealed c f w kek) (key : MasterKey)
    (hfree : w.dir.lookup (.master key.id) = none) (nonce : Nonce) {content : Bytes}
    {active : ActiveKey} (hparse : f.active.parse content = .ok active)
    (hpointed : active.masterKeyId = key.id ∨
      fileExists w.dir (.master active.masterKeyId) = true) :
    WorldSealed c f { w with
      dir := (w.dir.insert (.master key.id) (wrapUnderKek c kek key.bytes.val (aad.master key.id)
        nonce)).insert .active content } kek := by
  refine (hw.newMaster key hfree nonce).newActive hparse ?_
  by_cases hnew : active.masterKeyId = key.id
  · rw [hnew, AList.lookup_insert, Option.isSome_some]
  · rw [AList.lookup_insert_ne (by simpa using hnew)]
    exact hpointed.resolve_left hnew

/-- A kill of a rotation that spares what is on disk keeps everything sealed. -/
theorem WorldSealed.rotationCut (hf : f.Lawful) {w : World} {kek : Key}
    (hw : WorldSealed c f w kek) {session : VaultSession} (hkek : session.kek = kek) {fresh : Key}
    {nonce : Nonce} {cut : Cut} (hspares : Spares c f w (.rotateKilled session fresh nonce cut)) :
    WorldSealed c f { w with
      dir := cutAt (rotateMasterKey c f session fresh nonce (.fresh w.dir)).2.log cut w.dir } kek := by
  subst hkek
  obtain ⟨done, torn⟩ := cut
  match done, torn, hspares with
  | 0, none, _ => exact hw
  | 0, some kept, ⟨hfree, hwhole⟩ =>
    have htake := List.take_of_length_le hwhole
    have hcut : cutAt (rotateMasterKey c f session fresh nonce (.fresh w.dir)).2.log ⟨0, some kept⟩
        w.dir = Write.tear kept (.overwrite (.master session.masters.nextId) (wrapUnderKek c
          session.kek fresh.val (aad.master session.masters.nextId) nonce)) w.dir := rfl
    rw [hcut, Write.tear, htake]
    exact hw.newMaster ⟨session.masters.nextId, fresh⟩ hfree nonce
  | 1, none, hfree => exact hw.newMaster ⟨session.masters.nextId, fresh⟩ hfree nonce
  | 1, some kept, ⟨hfree, active, hparse, hpointed⟩ =>
    exact hw.rotated ⟨session.masters.nextId, fresh⟩ hfree nonce hparse hpointed
  | n + 2, torn, hfree =>
    have hcut : cutAt (rotateMasterKey c f session fresh nonce (.fresh w.dir)).2.log ⟨n + 2, torn⟩
        w.dir = (w.dir.insert (.master session.masters.nextId) (wrapUnderKek c session.kek fresh.val
          (aad.master session.masters.nextId) nonce)).insert .active
            (f.active.render ⟨session.masters.nextId⟩) := by
      cases torn <;> simp [cutAt, rotateMasterKey_apply, Write.apply]
    rw [hcut]
    refine hw.rotated ⟨session.masters.nextId, fresh⟩ ?_ nonce (hf.active _) (.inl rfl)
    cases torn <;> exact hfree

/-- The session a completed rotation leaves holds what it held and the new generation. -/
theorem WorldSealed.rotation (hf : f.Lawful) {w : World} {kek : Key} (hw : WorldSealed c f w kek)
    {session session' : VaultSession} (hlive : session ∈ w.sessions) {fresh : Key} {nonce : Nonce}
    {id : UInt32} {disk : VaultDisk}
    (hrun : rotateMasterKey c f session fresh nonce (.fresh w.dir) = (.ok (id, session'), disk))
    (hfree : w.dir.lookup (.master session.masters.nextId) = none) :
    WorldSealed c f { w with dir := disk.dir, sessions := session' :: w.sessions } kek := by
  obtain ⟨hkek, hkeys⟩ := hw.sessions session hlive
  subst hkek
  rw [rotateMasterKey_apply] at hrun
  cases hrun
  have hdisk := hw.rotated ⟨session.masters.nextId, fresh⟩ hfree nonce
    (hf.active ⟨session.masters.nextId⟩) (.inl rfl)
  refine { hdisk with sessions := ?_ }
  intro other hmem
  rcases List.mem_cons.mp hmem with rfl | hold
  · refine ⟨rfl, ?_⟩
    intro id bytes hlook
    by_cases hnew : id = session.masters.nextId
    · subst hnew
      simp only [MasterKeyStore.setActive, MasterKeyStore.insert, AList.lookup_insert,
        Option.some.injEq] at hlook
      subst hlook
      exact (MasterAt.insert w.dir _ ⟨session.masters.nextId, fresh⟩ nonce).active
    · simp only [MasterKeyStore.setActive, MasterKeyStore.insert, AList.lookup_insert_ne hnew]
        at hlook
      have hother : VaultFile.master id ≠ .master session.masters.nextId := by simpa using hnew
      exact ((hkeys id bytes hlook).congr (AList.lookup_insert_ne hother)).active
  · exact hdisk.sessions other hold

/-! ### Every step, every run -/

/-- A session that is opened holds K and the generations on disk, whatever secret opened it. -/
theorem WorldSealed.opened (hc : c.Lawful) (ha : c.Authentic) {w : World} {kek : Key}
    (hw : WorldSealed c f w kek) {tried ad : Bytes} {file : VaultFile}
    {freshTransport : Key} {nonce : Nonce} {session : VaultSession} {disk : VaultDisk}
    (hdoor : ∀ bytes, w.dir.lookup file = some bytes → ∃ secret params salt nonce,
      wrapKekUnderPassphrase c secret kek params ad salt nonce = .ok bytes)
    (hrun : unlockWith c f tried ad file freshTransport nonce (.fresh w.dir) =
      (.ok session, disk)) :
    WorldSealed c f { w with dir := disk.dir, sessions := session :: w.sessions } kek := by
  obtain ⟨hopen, ⟨activeId, hmasters⟩, hdisk⟩ := unlockWith_ok hrun
  obtain ⟨transport, transportNonce, htransport⟩ := hw.interior.transport
  obtain rfl : disk = .fresh w.dir := by
    refine hdisk ?_
    rw [Disk.fresh_dir, fileExists, htransport, Option.isSome_some]
  obtain ⟨_, hopen⟩ := refuseIf_bind_ok_iff.mp hopen
  obtain ⟨params, _, hopen⟩ := bind_ok_iff.mp hopen
  obtain ⟨wrapped, hread, hopen⟩ := bind_ok_iff.mp hopen
  obtain ⟨_, _, _, _, hwrap⟩ := hdoor wrapped (readFile_eq_ok.mp hread)
  have hkek : session.kek = kek := unwrap_wrap_eq hc ha hwrap hopen
  refine { hw with sessions := ?_ }
  intro other hmem
  rcases List.mem_cons.mp hmem with rfl | hold
  · refine ⟨hkek, ?_⟩
    intro id bytes hlook
    have hheld := (readAll_ok hmasters).2 id bytes hlook
    obtain ⟨key, hid, hthere⟩ := hw.interior.masters id (readMaster_isSome hheld)
    have hread := hthere.read hc
    rw [Disk.fresh_dir, hkek] at hheld
    rw [hid, hheld] at hread
    cases hread
    exact hthere
  · exact hw.sessions other hold

/-- **One step.** While rotations spare what is on disk, everything stays sealed under the same
K. -/
theorem WorldSealed.step (hc : c.Lawful) (ha : c.Authentic) (hf : f.Lawful) {w w' : World}
    {kek : Key} {op : VaultOp} (hw : WorldSealed c f w kek) (hspares : Spares c f w op)
    (hstep : VaultStep c f w op w') : WorldSealed c f w' kek := by
  have hdoors : ∀ passphrase, DoorsOf c w.dir kek passphrase w.dir :=
    fun _ => ⟨fun _ _ => rfl, hw.phrase, .inl rfl⟩
  cases hstep with
  | @door op hlive =>
    rcases hrun : op.run c f (.fresh w.dir) with ⟨res, disk⟩
    obtain ⟨hdisk, hwrites⟩ := op.writes hc ha hw hlive hrun
    refine hw.withDir ?_
    rw [hdisk]
    exact (hdoors _).replay hwrites
  | @doorKilled op cut sessions hlive hleft =>
    rcases hrun : op.run c f (.fresh w.dir) with ⟨res, disk⟩
    obtain ⟨_, hwrites⟩ := op.writes hc ha hw hlive hrun
    exact (hw.withDir ((hdoors _).cut hwrites cut)).sublist hleft
  | rotate hlive hrun hleft => exact (hw.rotation hf hlive hrun hspares).sublist hleft
  | rotateKilled hlive hleft =>
    have hkek := (hw.sessions _ hlive).1
    exact (hw.rotationCut hf hkek hspares).sublist hleft
  | unlock hrun =>
    refine hw.opened hc ha ?_ hrun
    intro bytes hlook
    obtain ⟨params, salt, nonce, bytes', hwrap, hlook'⟩ := hw.self
    rw [hlook] at hlook'
    cases hlook'
    exact ⟨_, params, salt, nonce, hwrap⟩
  | unlockWithRecovery hrun =>
    refine hw.opened hc ha ?_ hrun
    intro bytes hlook
    obtain ⟨phrase, params, salt, nonce, hwrap⟩ := hw.phrase bytes hlook
    exact ⟨_, params, salt, nonce, hwrap⟩
  | @encrypt session key hlive hactive =>
    refine { hw with used := ?_ }
    intro other hmem
    rcases List.mem_cons.mp hmem with rfl | hold
    · obtain ⟨_, hheld⟩ := MasterKeyStore.get_eq_ok.mp hactive
      obtain ⟨hid, _⟩ := MasterKeyStore.get_eq_ok.mp hactive
      rw [← hid] at hheld
      exact (hw.sessions session hlive).2 _ _ hheld
    · exact hw.used other hold
  | lock hleft => exact hw.sublist hleft

theorem WorldSealed.of_init (hf : f.Lawful) {w : World} (h : FreshWorld c f w) :
    ∃ kek, WorldSealed c f w kek := by
  obtain ⟨passphrase, costs, r, session, phrase, disk, hinit, rfl⟩ := h
  obtain ⟨wrappedSelf, wrappedRecovery, hself, hrecovery, hout, hdir⟩ := initWithParams_ok hinit
  cases hout
  have hmaster : MasterAt c disk.dir r.kek ⟨1, r.master⟩ := by
    refine ⟨r.masterNonce, ?_⟩
    simp [hdir, Write.apply, AList.lookup_insert_ne]
  have honly : ∀ id, id ≠ 1 → disk.dir.lookup (.master id) = none := by
    intro id hid
    have hother : VaultFile.master id ≠ .master 1 := by simpa using hid
    simp [hdir, Write.apply, AList.lookup_insert_ne, AList.lookup_insert_ne hother,
      -AList.insert_empty]
  refine ⟨r.kek, ?_, ?_, ?_, ?_, by simp⟩
  · constructor
    · refine ⟨⟨formatVersion, costs⟩, ?_⟩
      have hlook : disk.dir.lookup .params = some (f.params.render ⟨formatVersion, costs⟩) := by
        simp [hdir, Write.apply, AList.lookup_insert_ne, -AList.insert_empty]
      have hinitialized : initialized disk.dir = true := by
        rw [initialized, fileExists, hlook, Option.isSome_some]
      simp [loadParams, hinitialized, readFile_eq_ok.mpr hlook, fromToml, hf.params, refuseIf, bind,
        Except.bind]
    · intro id hid
      by_cases hone : id = 1
      · exact ⟨⟨1, r.master⟩, hone.symm, hmaster⟩
      · rw [honly id hone] at hid
        cases hid
    · refine ⟨⟨1⟩, ?_, ?_⟩
      · have hlook : disk.dir.lookup .active = some (f.active.render ⟨1⟩) := by
          simp [hdir, Write.apply, AList.lookup_insert_ne]
        simp [loadActive, readFile_eq_ok.mpr hlook, fromToml, hf.active, bind, Except.bind]
      · obtain ⟨nonce, hlook⟩ := hmaster
        rw [hlook, Option.isSome_some]
    · refine ⟨r.identity, r.identityNonce, ?_⟩
      simp [hdir, Write.apply, AList.lookup_insert_ne]
    · refine ⟨r.transport, r.transportNonce, ?_⟩
      simp [hdir, Write.apply]
  · intro bytes hlook
    have hrec : disk.dir.lookup .kekRecovery = some wrappedRecovery := by
      simp [hdir, Write.apply, AList.lookup_insert_ne]
    rw [hrec] at hlook
    cases hlook
    exact ⟨r.phrase, costs, r.recoverySalt, r.recoveryNonce, hrecovery⟩
  · refine ⟨costs, r.selfSalt, r.selfNonce, wrappedSelf, hself, ?_⟩
    simp [hdir, Write.apply, AList.lookup_insert_ne]
  · intro session hmem
    obtain rfl := List.mem_singleton.mp hmem
    refine ⟨rfl, ?_⟩
    intro id bytes hlook
    by_cases hone : id = 1
    · subst hone
      simp only [MasterKeyStore.insert, AList.lookup_insert, Option.some.injEq] at hlook
      subst hlook
      exact hmaster
    · rw [MasterKeyStore.insert, AList.lookup_insert_ne hone] at hlook
      cases hlook

/-- **The vault opens after every run whose rotations spare what is on disk**, killed verbs
included. -/
theorem crash_runs (hc : c.Lawful) (ha : c.Authentic) (hf : f.Lawful) {w₀ w : World}
    {ops : List VaultOp} (hinit : FreshWorld c f w₀)
    (hrun : (vaultSystem c f).Guarded (Spares c f) w₀ ops w) : Recoverable c f w := by
  obtain ⟨kek, hsealed⟩ := WorldSealed.of_init hf hinit
  have hkept : WorldSealed c f w kek := by
    induction hrun with
    | refl => exact hsealed
    | snoc hbefore hspares hstep ih => exact ih.step hc ha hf hspares hstep
  exact hkept.recoverable hc

/-! ### A rotation killed in its first write -/

/-- The session of the vault made from `demoSecrets`. -/
def demoSession : VaultSession where
  kek := demoSecrets.kek
  masters := (MasterKeyStore.empty 1).insert ⟨1, demoSecrets.master⟩
  identity := demoSecrets.identity
  transport := demoSecrets.transport

def demoWorld : World := ⟨demoVault, [demoSession], [], [97]⟩

theorem demoWorld_fresh : FreshWorld checksumCrates unaryFormats demoWorld := by
  have hok : (initWithParams checksumCrates unaryFormats [97] ⟨formatVersion, owaspBaseline⟩
      demoSecrets (.fresh ∅)).1.isOk = true := by decide +kernel
  rcases hinit : initWithParams checksumCrates unaryFormats [97] ⟨formatVersion, owaspBaseline⟩
    demoSecrets (.fresh ∅) with ⟨e | out, disk⟩
  · rw [hinit] at hok
    cases hok
  · obtain ⟨_, _, _, _, hout, _⟩ := initWithParams_ok hinit
    subst hout
    refine ⟨[97], owaspBaseline, demoSecrets, _, _, disk, hinit, ?_⟩
    rw [demoWorld, demoVault, hinit]
    rfl

/-- An empty file of a generation is not read. -/
theorem readMaster_torn {dir : VaultDir} {kek : Key} {id : UInt32}
    (h : dir.lookup (.master id) = some []) (key : MasterKey) :
    readMaster c dir kek id ≠ .ok key := by
  have htorn : unwrapUnderKek c kek [] (aad.master id) = .error (.malformed "wrapped secret too short")
    := rfl
  simp [readMaster, readSecret, readFile, h, htorn, bind, Except.bind]

/-- A rotation that is killed when it has created its first file. -/
def tornRotation : VaultOp :=
  .rotateKilled demoSession demoSecrets.master demoSecrets.masterNonce ⟨0, some 0⟩

theorem demoSession_live : demoSession ∈ demoWorld.sessions := List.mem_cons_self

/-- It leaves an empty file. -/
theorem tornRotation_step : ∃ w, VaultStep checksumCrates unaryFormats demoWorld tornRotation w ∧
    w.dir.lookup (.master demoSession.masters.nextId) = some [] :=
  ⟨_, .rotateKilled demoSession_live (List.nil_subset _), AList.lookup_insert _⟩

/-- A rotation killed in its first write locks the vault: it opens under no passphrase. -/
theorem crash_runs_torn : ¬∀ (c : Crates) (f : Formats) (w : World),
    c.Lawful → c.Authentic → f.Lawful → (vaultSystem c f).Reachable w → Recoverable c f w := by
  intro hclaim
  obtain ⟨w, hstep, htorn⟩ := tornRotation_step
  have hreach : (vaultSystem checksumCrates unaryFormats).Reachable w :=
    (System.Reachable.of_init demoWorld_fresh).step hstep
  obtain ⟨session, hunlock, _⟩ := hclaim _ _ _ checksumCrates_lawful checksumCrates_authentic
    unaryFormats_lawful hreach
  obtain ⟨_, ⟨activeId, hmasters⟩, _⟩ := unlockWith_ok
    (hunlock demoSecrets.transport demoSecrets.transportNonce)
  obtain ⟨key, hread⟩ := (readAll_ok hmasters).1 demoSession.masters.nextId (by
    rw [Disk.fresh_dir, htorn, Option.isSome_some])
  exact readMaster_torn htorn key hread

/-- A rotation that takes a free number, and is not killed. -/
theorem crash_runs_rotation : ∃ w, (vaultSystem checksumCrates unaryFormats).Run demoWorld
    [.rotate demoSession demoSecrets.master demoSecrets.masterNonce] w ∧
      Recoverable checksumCrates unaryFormats w := by
  have hfree : Spares checksumCrates unaryFormats demoWorld
      (.rotate demoSession demoSecrets.master demoSecrets.masterNonce) := by
    show demoWorld.dir.lookup (.master demoSession.masters.nextId) = none
    decide +kernel
  have hstep := VaultStep.rotate demoSession_live
    (rotateMasterKey_apply (c := checksumCrates) (f := unaryFormats) demoSession demoSecrets.master
      demoSecrets.masterNonce (.fresh demoWorld.dir)) (List.nil_subset _)
  exact ⟨_, .single hstep, crash_runs checksumCrates_lawful checksumCrates_authentic
    unaryFormats_lawful demoWorld_fresh (.snoc (.refl _) hfree hstep)⟩

end Softfig.Vault
