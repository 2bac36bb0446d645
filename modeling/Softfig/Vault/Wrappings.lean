import Softfig.Vault.Session

/-!
The verbs that change a door into K: `drop_wrapping`, `add_phrase`, `recover`
and `rewrap`, with the guards each one evaluates before it writes.

Each verb has one lemma that says all it can do: what a refusal leaves, and
what a success had checked, wrote and returned.

- `planDrop_ok`: a removal is licensed by a current proof, and never of `k.self`;
- `dropWrapping_cases`, `addPhrase_cases`, `recover_cases`, `rewrapApply_cases`,
  `recordVerification_cases`.
-/

namespace Softfig.Vault

open Softfig.Lib

section

variable (c : Crates) (f : Formats)

/-! ### Costs -/

/-- The costs `k.self` opens under, and whether it carries them. -/
def selfWrappingParams (dir : VaultDir) : Except VaultError WrappingParams := do
  let fallback := (← loadParams f dir).argon2
  .ok (wrappingParams (← readFile dir .kekSelf) fallback)

/-- The costs of a new door: those of `k.self`, or of `params.toml` when it cannot be read. -/
def newDoorParams (dir : VaultDir) (fallback : Argon2Params) : Argon2Params :=
  match dir.lookup .kekSelf with
  | some bytes => (wrappingParams bytes fallback).params
  | none => fallback

/-! ### Removing a door -/

/-- The file of a door that can be removed. -/
def RecoveryPath.location : RecoveryPath → Option VaultFile
  | .passphrase => some .kekSelf
  | .phrase => some .kekRecovery
  | .peers => none

structure DropPlan where
  removing : RecoveryPath
  remaining : List RecoveryPath
  certifiedBy : VerificationRecord
  deriving DecidableEq

/-- The declaration a door change brings along. -/
def policyToEdit (dir : VaultDir) : Except VaultError RecoveryPolicy :=
  match loadDeclaredPolicy f dir with
  | .declared policy => .ok policy
  | .undeclared => .error (.noUsableDeclaration ("no recovery.toml exists — declare the vault's " ++
      "recovery shape with 'vault recovery declare' first, so changing a door never writes a " ++
      "declaration on your behalf"))
  | .unreadable reason => .error (.noUsableDeclaration ("recovery.toml exists but cannot be read (" ++
      reason ++ "); fix or remove it before changing doors — a declaration this build could not " ++
      "read must not be silently replaced"))

/-- The proof that certifies the passphrase door today. -/
def currentEscrowProof (dir : VaultDir) : Except VaultError VerificationRecord := do
  let proof ← currentProof c f dir
  match proof.record with
  | some record => .ok record
  | none =>
    .error (.noVerifiedEscrow .phrase
      (if proof.stale then "every verified escrow copy on record proves an older k.self than this " ++
        "vault has now — re-export and re-verify before removing a door"
      else "no escrow copy of this vault has been proved to open: run 'vault escrow export' then " ++
        "'vault escrow verify' on the copy first"))

def describe : List RecoveryPath → String
  | [] => "nothing"
  | [one] => "'" ++ one.token ++ "' door"
  | many => "'" ++ "' and '".intercalate (many.map RecoveryPath.token) ++ "' doors"

/-- Every guard of a removal. -/
def planDrop (dir : VaultDir) (target authenticatedThrough : RecoveryPath) :
    Except VaultError DropPlan := do
  refuseIf (target = .peers) .peerWrappingUnsupported
  let _ ← policyToEdit f dir
  let wrappings := Wrappings.read dir
  refuseIf (¬wrappings.contains target) (.wrappingAbsent target)
  let remaining := RecoveryPath.all.filter fun p => decide (p ≠ target) && wrappings.contains p
  refuseIf (remaining = []) (.lastWrapping target)
  let proof := currentEscrowProof c f dir
  let certified := RecoveryPath.passphrase
  let provenDoorSurvives := proof.isOk ∧ certified ∈ remaining
  -- the more specific refusal first: the door the session came in by
  refuseIf (target = authenticatedThrough ∧ ¬provenDoorSurvives) (.authenticatedWrapping target)
  let certifiedBy ← proof
  refuseIf (certified ∉ remaining)
    (.noVerifiedEscrow target ("the only verified escrow copy proves the 'passphrase' door, " ++
      "which is the one being removed — nothing proves the " ++ describe remaining ++
      " that would remain"))
  .ok ⟨target, remaining, certifiedBy⟩

/-- `fs::remove_file`. -/
def removeFile (file : VaultFile) : VaultM Unit := do
  let _ ← Disk.read fun dir => readFile dir file
  Disk.write (.unlink file)

/-- The guards, the unlink, then the declaration. -/
def dropWrapping (target authenticatedThrough : RecoveryPath) : VaultM DropPlan := do
  let plan ← Disk.read fun dir => planDrop c f dir target authenticatedThrough
  let policy ← Disk.read (policyToEdit f)
  match plan.removing.location with
  | some file => removeFile file
  | none => Fallible.fail (.io "Is a directory (os error 21)")
  storeDeclaredPolicy f (policy.erase target)
  return plan

/-! ### Adding a door -/

def checkCanAdd (dir : VaultDir) : RecoveryPath → Except VaultError Unit
  | .peers => .error .peerWrappingUnsupported
  | .passphrase => .error (.wrappingExists .passphrase)
  | .phrase => if fileExists dir .kekRecovery then .error (.wrappingExists .phrase) else .ok ()

/-- Wrap the session's K under a phrase, publish the door, then the declaration. -/
def addPhrase (kek : Key) (phrase : RecoveryPhrase) (salt : Salt) (nonce : Nonce) :
    VaultM RecoveryPhrase := do
  Disk.read fun dir => checkCanAdd dir .phrase
  let policy ← Disk.read (policyToEdit f)
  let params ← Disk.read (loadParams f)
  let target ← Disk.read fun dir => .ok (newDoorParams dir params.argon2)
  let wrapped ← Fallible.ofExcept
    (wrapKekUnderPassphrase c phrase.passphraseBytes kek target aad.kekRecovery salt nonce)
  writeWrapping .kekRecovery wrapped
  storeDeclaredPolicy f (insert .phrase policy)
  return phrase

/-! ### Replacing the secret or the costs of `k.self` -/

/-- New bytes for `k.self`, proved in memory to reproduce K. -/
def rewrapProved (secret : Bytes) (kek : Key) (target : Argon2Params) (salt : Salt) (nonce : Nonce)
    (mismatch : String) : Except VaultError Bytes := do
  let wrapped ← wrapKekUnderPassphrase c secret kek target aad.kekSelf salt nonce
  let proof ← unwrapKekUnderPassphrase c secret wrapped target aad.kekSelf
  refuseIf (proof ≠ kek) (.malformed mismatch)
  .ok wrapped

/-- `Vault::recover`: re-wrap the K of the phrase door under a new passphrase. -/
def recover (phrase : RecoveryPhrase) (newPassphrase : Bytes) (salt : Salt) (nonce : Nonce) :
    VaultM Unit := do
  let params ← Disk.read (loadParams f)
  let wrappedRecovery ← Disk.read fun dir => readFile dir .kekRecovery
  let kek ← Fallible.ofExcept (unwrapKekUnderPassphrase c phrase.passphraseBytes wrappedRecovery
    params.argon2 aad.kekRecovery)
  let target ← Disk.read fun dir => .ok (newDoorParams dir params.argon2)
  let newSelf ← Fallible.ofExcept (rewrapProved c newPassphrase kek target salt nonce
    "the new k.self did not reproduce K — refusing to publish it")
  writeWrapping .kekSelf newSelf

structure RewrapPlan where
  current : WrappingParams
  target : Argon2Params
  changesPassphrase : Bool
  legacyDoors : List RecoveryPath
  invalidatesEscrowProof : Bool
  isDowngrade : Bool

/-- Doors beside `k.self` that do not carry their own costs. -/
def legacyDoors (dir : VaultDir) : List RecoveryPath :=
  match dir.lookup .kekRecovery with
  | some bytes => if (wrappingParams bytes owaspBaseline).embedded then [] else [.phrase]
  | none => []

def checkTarget (target : Argon2Params) : Except VaultError Unit :=
  match c.argon2Check target with
  | .ok () => .ok ()
  | .error e => .error (.invalidArgon2Params (target.display ++ ": " ++ e))

/-- `rewrap::plan`: every guard of a rewrap. -/
def rewrapPlan (dir : VaultDir) (target : Argon2Params) (allowDowngrade : Bool) :
    Except VaultError RewrapPlan := do
  refuseIf (¬initialized dir) .notInitialized
  checkTarget c target
  let current ← selfWrappingParams f dir
  let belowFloor := !target.atLeastAsStrongAs owaspBaseline
  let belowCurrent := !target.atLeastAsStrongAs current.params
  let isDowngrade := belowFloor || belowCurrent
  refuseIf (isDowngrade ∧ ¬allowDowngrade)
    (.weakerParams target.display
      (if belowCurrent then current.params.display else owaspBaseline.display)
      (if belowCurrent then "this vault's current parameters" else "the recommended baseline"))
  let proof ← currentProof c f dir
  .ok {
    current, target
    changesPassphrase := false
    legacyDoors := legacyDoors dir
    invalidatesEscrowProof := proof.record.isSome
    isDowngrade }

/-- `rewrap::apply`: the guards again, then one published `k.self`. -/
def rewrapApply (plan : RewrapPlan) (passphrase : Bytes) (newPassphrase : Option Bytes)
    (salt : Salt) (nonce : Nonce) : VaultM Unit := do
  let fresh ← Disk.read fun dir => rewrapPlan c f dir plan.target plan.isDowngrade
  Fallible.ofExcept (refuseIf (fresh.current.params ≠ plan.current.params ∨
    fresh.current.embedded ≠ plan.current.embedded)
    (.malformed "k.self changed between planning and applying the rewrap"))
  let params ← Disk.read (loadParams f)
  let wrapped ← Disk.read fun dir => readFile dir .kekSelf
  let kek ← Fallible.ofExcept
    (unwrapKekUnderPassphrase c passphrase wrapped params.argon2 aad.kekSelf)
  let secret := newPassphrase.getD passphrase
  let rewrapped ← Fallible.ofExcept (rewrapProved c secret kek plan.target salt nonce
    "the rewrapped k.self did not reproduce K — refusing to publish it")
  writeWrapping .kekSelf rewrapped

/-- `vault recovery declare`. -/
def declare (text : String) : VaultM RecoveryPolicy := do
  Disk.read fun dir => refuseIf (¬initialized dir) (.cli "no vault")
  let policy ← Fallible.ofExcept
    ((RecoveryPolicy.parse text).mapError fun token => .cli (parsePolicyError token))
  storeDeclaredPolicy f policy
  return policy

end

/-! ### What each verb can do -/

variable {c : Crates} {f : Formats}

theorem policyToEdit_ok {dir : VaultDir} {policy : RecoveryPolicy}
    (h : policyToEdit f dir = .ok policy) : loadDeclaredPolicy f dir = .declared policy := by
  unfold policyToEdit at h
  split at h
  · rename_i hload
    cases h
    exact hload
  · cases h
  · cases h

theorem currentEscrowProof_ok {dir : VaultDir} {record : VerificationRecord}
    (h : currentEscrowProof c f dir = .ok record) :
    ∃ proof, currentProof c f dir = .ok proof ∧ proof.record = some record := by
  unfold currentEscrowProof at h
  obtain ⟨proof, hproof, h⟩ := bind_ok_iff.mp h
  cases hrecord : proof.record with
  | none => rw [hrecord] at h; cases h
  | some r =>
    rw [hrecord] at h
    cases h
    exact ⟨proof, hproof, hrecord⟩

/-- **A removal is licensed by a current proof and leaves `k.self`**, so `k.self` is never the
door removed. -/
theorem planDrop_ok {dir : VaultDir} {target through : RecoveryPath} {plan : DropPlan}
    (h : planDrop c f dir target through = .ok plan) :
    plan.removing = target ∧ target = .phrase ∧ fileExists dir .kekRecovery = true ∧
      fileExists dir .kekSelf = true ∧
      ∃ proof, currentProof c f dir = .ok proof ∧ proof.record = some plan.certifiedBy := by
  unfold planDrop at h
  obtain ⟨hpeers, h⟩ := refuseIf_bind_ok_iff.mp h
  obtain ⟨policy, _, h⟩ := bind_ok_iff.mp h
  obtain ⟨hcontains, h⟩ := refuseIf_bind_ok_iff.mp h
  obtain ⟨_, h⟩ := refuseIf_bind_ok_iff.mp h
  obtain ⟨_, h⟩ := refuseIf_bind_ok_iff.mp h
  obtain ⟨record, hproof, h⟩ := bind_ok_iff.mp h
  obtain ⟨hcertified, h⟩ := refuseIf_bind_ok_iff.mp h
  cases h
  obtain ⟨_, hremains⟩ := List.mem_filter.mp (not_not.mp hcertified)
  simp only [Bool.and_eq_true, decide_eq_true_eq, Wrappings.contains, Wrappings.read] at hremains
  have htarget : target = .phrase := by
    cases target with
    | passphrase => exact absurd rfl hremains.1
    | phrase => rfl
    | peers => exact absurd rfl hpeers
  subst htarget
  exact ⟨rfl, rfl, not_not.mp hcontains, hremains.2, currentEscrowProof_ok hproof⟩

/-- A refused removal leaves the disk; a removal unlinks `k.recovery` and edits the declaration. -/
theorem dropWrapping_cases {target through : RecoveryPath} {disk disk' : VaultDisk}
    {res : Except VaultError DropPlan}
    (h : dropWrapping c f target through disk = (res, disk')) :
    (∃ e, res = .error e ∧ disk' = disk) ∨
      ∃ plan policy, res = .ok plan ∧ planDrop c f disk.dir target through = .ok plan ∧
        loadDeclaredPolicy f disk.dir = .declared policy ∧
        disk' = (disk.after (.unlink .kekRecovery)).after (.publish .recoveryPolicy
          (f.recoveryPolicy.render ⟨recoveryPolicyFormatVersion,
            RecoveryPolicy.display (policy.erase target)⟩)) := by
  unfold dropWrapping at h
  rcases Disk.read_bind_cases h with ⟨e, _, hres, hdisk⟩ | ⟨plan, hplan, h⟩
  · exact .inl ⟨e, hres, hdisk⟩
  rcases Disk.read_bind_cases h with ⟨e, _, hres, hdisk⟩ | ⟨policy, hpolicy, h⟩
  · exact .inl ⟨e, hres, hdisk⟩
  obtain ⟨hremoving, htarget, hexists, _, _⟩ := planDrop_ok hplan
  subst htarget
  obtain ⟨bytes, hbytes⟩ := Option.isSome_iff_exists.mp hexists
  simp only [hremoving, RecoveryPath.location, removeFile] at h
  right
  refine ⟨plan, policy, ?_⟩
  have hread : readFile disk.dir .kekRecovery = .ok bytes := readFile_eq_ok.mpr hbytes
  simp only [Fallible.bind_apply, Disk.read_apply, hread, Disk.write_apply, storeDeclaredPolicy,
    Fallible.pure_apply, Prod.mk.injEq] at h
  exact ⟨h.1.symm, hplan, policyToEdit_ok hpolicy, h.2.symm⟩

/-- A phrase door is minted at the costs of `k.self`, and only where there is none. -/
theorem addPhrase_cases {kek : Key} {phrase : RecoveryPhrase} {salt : Salt} {nonce : Nonce}
    {disk disk' : VaultDisk} {res : Except VaultError RecoveryPhrase}
    (h : addPhrase c f kek phrase salt nonce disk = (res, disk')) :
    (∃ e, res = .error e ∧ disk' = disk) ∨
      ∃ params policy wrapped, res = .ok phrase ∧ disk.dir.lookup .kekRecovery = none ∧
        loadParams f disk.dir = .ok params ∧ loadDeclaredPolicy f disk.dir = .declared policy ∧
        wrapKekUnderPassphrase c phrase.passphraseBytes kek (newDoorParams disk.dir params.argon2)
          aad.kekRecovery salt nonce = .ok wrapped ∧
        disk' = (disk.after (.publish .kekRecovery wrapped)).after (.publish .recoveryPolicy
          (f.recoveryPolicy.render ⟨recoveryPolicyFormatVersion,
            RecoveryPolicy.display (insert .phrase policy)⟩)) := by
  unfold addPhrase at h
  rcases Disk.read_bind_cases h with ⟨e, _, hres, hdisk⟩ | ⟨_, hadd, h⟩
  · exact .inl ⟨e, hres, hdisk⟩
  rcases Disk.read_bind_cases h with ⟨e, _, hres, hdisk⟩ | ⟨policy, hpolicy, h⟩
  · exact .inl ⟨e, hres, hdisk⟩
  rcases Disk.read_bind_cases h with ⟨e, _, hres, hdisk⟩ | ⟨params, hparams, h⟩
  · exact .inl ⟨e, hres, hdisk⟩
  rcases Disk.read_bind_cases h with ⟨e, _, hres, hdisk⟩ | ⟨target, htarget, h⟩
  · exact .inl ⟨e, hres, hdisk⟩
  cases htarget
  rcases Fallible.ofExcept_bind_cases h with ⟨e, _, hres, hdisk⟩ | ⟨wrapped, hwrap, h⟩
  · exact .inl ⟨e, hres, hdisk⟩
  right
  have habsent : disk.dir.lookup .kekRecovery = none := by
    cases hlook : disk.dir.lookup VaultFile.kekRecovery with
    | none => rfl
    | some bytes => simp [checkCanAdd, fileExists, hlook] at hadd
  simp only [writeWrapping, storeDeclaredPolicy, Disk.write_bind, Fallible.pure_apply,
    Prod.mk.injEq] at h
  exact ⟨params, policy, wrapped, h.1.symm, habsent, hparams, policyToEdit_ok hpolicy, hwrap,
    h.2.symm⟩

/-- What is published for `k.self` is a wrapping of K under the given costs. -/
theorem rewrapProved_ok {secret : Bytes} {kek : Key} {target : Argon2Params} {salt : Salt}
    {nonce : Nonce} {mismatch : String} {wrapped : Bytes}
    (h : rewrapProved c secret kek target salt nonce mismatch = .ok wrapped) :
    wrapKekUnderPassphrase c secret kek target aad.kekSelf salt nonce = .ok wrapped := by
  unfold rewrapProved at h
  obtain ⟨bytes, hwrap, h⟩ := bind_ok_iff.mp h
  obtain ⟨proof, _, h⟩ := bind_ok_iff.mp h
  obtain ⟨_, h⟩ := refuseIf_bind_ok_iff.mp h
  cases h
  exact hwrap

/-- A recovery replaces `k.self` alone, at the costs it had. -/
theorem recover_cases {phrase : RecoveryPhrase} {newPassphrase : Bytes} {salt : Salt} {nonce : Nonce}
    {disk disk' : VaultDisk} {res : Except VaultError Unit}
    (h : recover c f phrase newPassphrase salt nonce disk = (res, disk')) :
    (∃ e, res = .error e ∧ disk' = disk) ∨
      ∃ params recovery kek wrapped, res = .ok () ∧ loadParams f disk.dir = .ok params ∧
        disk.dir.lookup .kekRecovery = some recovery ∧
        unwrapKekUnderPassphrase c phrase.passphraseBytes recovery params.argon2 aad.kekRecovery =
          .ok kek ∧
        wrapKekUnderPassphrase c newPassphrase kek (newDoorParams disk.dir params.argon2)
          aad.kekSelf salt nonce = .ok wrapped ∧
        disk' = disk.after (.publish .kekSelf wrapped) := by
  unfold recover at h
  rcases Disk.read_bind_cases h with ⟨e, _, hres, hdisk⟩ | ⟨params, hparams, h⟩
  · exact .inl ⟨e, hres, hdisk⟩
  rcases Disk.read_bind_cases h with ⟨e, _, hres, hdisk⟩ | ⟨recovery, hrecovery, h⟩
  · exact .inl ⟨e, hres, hdisk⟩
  rcases Fallible.ofExcept_bind_cases h with ⟨e, _, hres, hdisk⟩ | ⟨kek, hkek, h⟩
  · exact .inl ⟨e, hres, hdisk⟩
  rcases Disk.read_bind_cases h with ⟨e, _, hres, hdisk⟩ | ⟨target, htarget, h⟩
  · exact .inl ⟨e, hres, hdisk⟩
  cases htarget
  rcases Fallible.ofExcept_bind_cases h with ⟨e, _, hres, hdisk⟩ | ⟨wrapped, hwrap, h⟩
  · exact .inl ⟨e, hres, hdisk⟩
  right
  cases h
  exact ⟨params, recovery, kek, wrapped, rfl, hparams, readFile_eq_ok.mp hrecovery, hkek,
    rewrapProved_ok hwrap, rfl⟩

/-- A plan made without leave to downgrade is at least as strong as `k.self`. -/
theorem rewrapPlan_ok {dir : VaultDir} {target : Argon2Params} {plan : RewrapPlan}
    (h : rewrapPlan c f dir target false = .ok plan) :
    ∃ params kekSelf, loadParams f dir = .ok params ∧ dir.lookup .kekSelf = some kekSelf ∧
      plan.current = wrappingParams kekSelf params.argon2 ∧
      target.atLeastAsStrongAs plan.current.params = true := by
  unfold rewrapPlan at h
  obtain ⟨_, h⟩ := refuseIf_bind_ok_iff.mp h
  obtain ⟨_, _, h⟩ := bind_ok_iff.mp h
  obtain ⟨current, hcurrent, h⟩ := bind_ok_iff.mp h
  obtain ⟨hstrong, h⟩ := refuseIf_bind_ok_iff.mp h
  obtain ⟨proof, _, h⟩ := bind_ok_iff.mp h
  cases h
  unfold selfWrappingParams at hcurrent
  obtain ⟨params, hparams, hcurrent⟩ := bind_ok_iff.mp hcurrent
  obtain ⟨kekSelf, hread, hcurrent⟩ := bind_ok_iff.mp hcurrent
  cases hcurrent
  refine ⟨params, kekSelf, hparams, readFile_eq_ok.mp hread, rfl, ?_⟩
  by_contra hweak
  exact hstrong ⟨by simp [hweak], Bool.false_ne_true⟩

/-- A rewrap replaces `k.self` alone, under the plan's target. -/
theorem rewrapApply_cases {plan : RewrapPlan} {passphrase : Bytes} {newPassphrase : Option Bytes}
    {salt : Salt} {nonce : Nonce} {disk disk' : VaultDisk} {res : Except VaultError Unit}
    (h : rewrapApply c f plan passphrase newPassphrase salt nonce disk = (res, disk')) :
    (∃ e, res = .error e ∧ disk' = disk) ∨
      ∃ fresh params kekSelf kek wrapped, res = .ok () ∧
        rewrapPlan c f disk.dir plan.target plan.isDowngrade = .ok fresh ∧
        loadParams f disk.dir = .ok params ∧ disk.dir.lookup .kekSelf = some kekSelf ∧
        unwrapKekUnderPassphrase c passphrase kekSelf params.argon2 aad.kekSelf = .ok kek ∧
        wrapKekUnderPassphrase c (newPassphrase.getD passphrase) kek plan.target aad.kekSelf salt
          nonce = .ok wrapped ∧
        disk' = disk.after (.publish .kekSelf wrapped) := by
  unfold rewrapApply at h
  rcases Disk.read_bind_cases h with ⟨e, _, hres, hdisk⟩ | ⟨fresh, hfresh, h⟩
  · exact .inl ⟨e, hres, hdisk⟩
  rcases Fallible.ofExcept_bind_cases h with ⟨e, _, hres, hdisk⟩ | ⟨_, _, h⟩
  · exact .inl ⟨e, hres, hdisk⟩
  rcases Disk.read_bind_cases h with ⟨e, _, hres, hdisk⟩ | ⟨params, hparams, h⟩
  · exact .inl ⟨e, hres, hdisk⟩
  rcases Disk.read_bind_cases h with ⟨e, _, hres, hdisk⟩ | ⟨kekSelf, hself, h⟩
  · exact .inl ⟨e, hres, hdisk⟩
  rcases Fallible.ofExcept_bind_cases h with ⟨e, _, hres, hdisk⟩ | ⟨kek, hkek, h⟩
  · exact .inl ⟨e, hres, hdisk⟩
  rcases Fallible.ofExcept_bind_cases h with ⟨e, _, hres, hdisk⟩ | ⟨wrapped, hwrap, h⟩
  · exact .inl ⟨e, hres, hdisk⟩
  right
  cases h
  exact ⟨fresh, params, kekSelf, kek, wrapped, rfl, hfresh, hparams, readFile_eq_ok.mp hself, hkek,
    rewrapProved_ok hwrap, rfl⟩

/-- A recorded proof replaces the escrow record alone. -/
theorem recordVerification_cases {entry : VerificationRecord} {now : Int} {disk disk' : VaultDisk}
    {res : Except VaultError VerificationRecord}
    (h : recordVerification f entry now disk = (res, disk')) :
    (∃ e, res = .error e ∧ disk' = disk) ∨
      ∃ log, res = .ok { entry with verifiedAt := now } ∧
        disk' = disk.after (.publish .escrowRecord (f.escrowLog.render log)) := by
  unfold recordVerification at h
  rcases Disk.read_bind_cases h with ⟨e, _, hres, hdisk⟩ | ⟨_, _, h⟩
  · exact .inl ⟨e, hres, hdisk⟩
  rcases Disk.read_bind_cases h with ⟨e, _, hres, hdisk⟩ | ⟨log, _, h⟩
  · exact .inl ⟨e, hres, hdisk⟩
  right
  cases h
  exact ⟨_, rfl, rfl⟩

/-- A declaration replaces the declared policy alone. -/
theorem declare_cases {text : String} {disk disk' : VaultDisk}
    {res : Except VaultError RecoveryPolicy} (h : declare f text disk = (res, disk')) :
    (∃ e, res = .error e ∧ disk' = disk) ∨
      ∃ policy, res = .ok policy ∧
        disk' = disk.after (.publish .recoveryPolicy
          (f.recoveryPolicy.render ⟨recoveryPolicyFormatVersion, policy.display⟩)) := by
  unfold declare at h
  rcases Disk.read_bind_cases h with ⟨e, _, hres, hdisk⟩ | ⟨_, _, h⟩
  · exact .inl ⟨e, hres, hdisk⟩
  rcases Fallible.ofExcept_bind_cases h with ⟨e, _, hres, hdisk⟩ | ⟨policy, _, h⟩
  · exact .inl ⟨e, hres, hdisk⟩
  right
  cases h
  exact ⟨policy, rfl, rfl⟩

end Softfig.Vault
