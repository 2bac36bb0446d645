import Softfig.Lib.Transition
import Softfig.Vault.Wrappings

/-!
Runs of the verbs that change a door, from a fresh vault.

The costs of `k.self` are only partially ordered, so that they never weaken is
carried along a run by transitivity from what each verb writes.

- `SelfCost.step`: no permitted verb weakens or removes `k.self`;
- `door_runs`: the guarantees of every verb at every state of every run.
-/

namespace Softfig.Vault

open Softfig.Lib

/-! ### Verbs and runs -/

inductive DoorOp where
  | drop (target through : RecoveryPath)
  /-- In a live session that holds this K. -/
  | addPhrase (kek : Key) (phrase : RecoveryPhrase) (salt : Salt) (nonce : Nonce)
  | recover (phrase : RecoveryPhrase) (newPassphrase : Bytes) (salt : Salt) (nonce : Nonce)
  | rewrap (plan : RewrapPlan) (passphrase : Bytes) (newPassphrase : Option Bytes) (salt : Salt)
      (nonce : Nonce)
  | record (entry : VerificationRecord) (now : Int)
  | declare (text : String)

/-- A rewrap runs a plan that was made without leave to downgrade. -/
def DoorOp.Permitted : DoorOp → Prop
  | .rewrap plan _ _ _ _ => plan.isDowngrade = false
  | _ => True

section

variable (c : Crates) (f : Formats)

def DoorOp.run : DoorOp → VaultM Unit
  | .drop target through => (dropWrapping c f target through).void
  | .addPhrase kek phrase salt nonce => (Vault.addPhrase c f kek phrase salt nonce).void
  | .recover phrase newPassphrase salt nonce => Vault.recover c f phrase newPassphrase salt nonce
  | .rewrap plan passphrase newPassphrase salt nonce =>
    rewrapApply c f plan passphrase newPassphrase salt nonce
  | .record entry now => (recordVerification f entry now).void
  | .declare text => (Vault.declare f text).void

/-- The directory a completed `init` leaves. -/
def FreshVault (dir : VaultDir) : Prop :=
  ∃ passphrase params r,
    (initWithParams c f passphrase params r (.fresh ∅)).1.isOk = true ∧
      dir = (initWithParams c f passphrase params r (.fresh ∅)).2.dir

def doorSystem : System VaultDir DoorOp where
  init := FreshVault c f
  step dir op dir' := op.Permitted ∧ dir' = (op.run c f (.fresh dir)).2.dir

end

variable {c : Crates} {f : Formats}

/-! ### The costs of `k.self` -/

/-- A wrapping that carries these costs. -/
def EmbeddedCost (bytes : Bytes) (cost : Argon2Params) : Prop :=
  ∀ fallback, wrappingParams bytes fallback = ⟨cost, true⟩

/-- `k.self` is there and carries these costs. -/
def SelfCost (dir : VaultDir) (cost : Argon2Params) : Prop :=
  ∃ kekSelf, dir.lookup .kekSelf = some kekSelf ∧ EmbeddedCost kekSelf cost

theorem SelfCost.unique {dir : VaultDir} {cost cost' : Argon2Params} (h : SelfCost dir cost)
    (h' : SelfCost dir cost') : cost = cost' := by
  obtain ⟨kekSelf, hlook, hcost⟩ := h
  obtain ⟨kekSelf', hlook', hcost'⟩ := h'
  rw [hlook] at hlook'
  cases hlook'
  have := (hcost cost).symm.trans (hcost' cost)
  exact congrArg WrappingParams.params this

theorem SelfCost.newDoorParams {dir : VaultDir} {cost : Argon2Params} (h : SelfCost dir cost)
    (fallback : Argon2Params) : newDoorParams dir fallback = cost := by
  obtain ⟨kekSelf, hlook, hcost⟩ := h
  simp only [Vault.newDoorParams, hlook, hcost fallback]

theorem SelfCost.of_wrap (hc : c.Lawful) {dir : VaultDir} {wrapped passphrase ad : Bytes} {kek : Key}
    {cost : Argon2Params} {salt : Salt} {nonce : Nonce}
    (hwrap : wrapKekUnderPassphrase c passphrase kek cost ad salt nonce = .ok wrapped) :
    SelfCost (dir.insert .kekSelf wrapped) cost :=
  ⟨wrapped, AList.lookup_insert _, wrappingParams_wrap hc hwrap⟩

/-- Nothing but a write to `k.self` changes its costs. -/
theorem SelfCost.congr {dir dir' : VaultDir} {cost : Argon2Params} (h : SelfCost dir cost)
    (hsame : dir'.lookup .kekSelf = dir.lookup .kekSelf) : SelfCost dir' cost := by
  obtain ⟨kekSelf, hlook, hcost⟩ := h
  exact ⟨kekSelf, hsame.trans hlook, hcost⟩

theorem SelfCost.of_init (hc : c.Lawful) {dir : VaultDir} (h : FreshVault c f dir) :
    ∃ cost, SelfCost dir cost := by
  obtain ⟨passphrase, params, r, hok, rfl⟩ := h
  rcases hinit : initWithParams c f passphrase params r (.fresh ∅) with ⟨e | out, disk⟩
  · rw [hinit] at hok
    cases hok
  obtain ⟨wrappedSelf, wrappedRecovery, hself, _, _, hdir⟩ := initWithParams_ok hinit
  refine ⟨params.argon2, wrappedSelf, ?_, wrappingParams_wrap hc hself⟩
  simp [hdir, Write.apply]

/-- What one verb does to the doors, where `k.self` carries `cost`. -/
structure DoorStep (c : Crates) (f : Formats) (dir : VaultDir) (cost : Argon2Params) (op : DoorOp)
    (res : Except VaultError Unit) (disk : VaultDisk) : Prop where
  refused : ∀ e, res = .error e → disk = .fresh dir
  dropped : ∀ target through, op = .drop target through → res = .ok () →
    target = .phrase ∧ disk.dir.lookup .kekSelf = dir.lookup .kekSelf ∧
      ∃ plan, planDrop c f dir target through = .ok plan
  written : ∀ w ∈ disk.log, ∀ file bytes, w.Puts file bytes →
    file = .kekSelf ∨ file = .kekRecovery →
      ∃ cost', EmbeddedCost bytes cost' ∧ cost'.atLeastAsStrongAs cost = true
  kept : ∃ cost', SelfCost disk.dir cost' ∧ cost'.atLeastAsStrongAs cost = true

/-- A verb that is refused leaves everything as it was. -/
theorem DoorStep.of_refused {dir : VaultDir} {cost : Argon2Params} (hself : SelfCost dir cost)
    (op : DoorOp) (e : VaultError) : DoorStep c f dir cost op (.error e) (.fresh dir) where
  refused _ _ := rfl
  dropped _ _ _ h := by cases h
  written _ h := by cases h
  kept := ⟨cost, hself, cost.atLeastAsStrongAs_refl⟩

/-- A verb that publishes one `k.self`, at costs that are no weaker. -/
theorem DoorStep.of_publish (hc : c.Lawful) {dir : VaultDir} {cost target : Argon2Params}
    {secret wrapped : Bytes} {kek : Key} {salt : Salt} {nonce : Nonce} (op : DoorOp)
    (hdrop : ∀ door through, op ≠ .drop door through)
    (hwrap : wrapKekUnderPassphrase c secret kek target aad.kekSelf salt nonce = .ok wrapped)
    (hstrong : target.atLeastAsStrongAs cost = true) :
    DoorStep c f dir cost op (.ok ()) ((Disk.fresh dir).after (.publish .kekSelf wrapped)) where
  refused _ h := by cases h
  dropped door through h _ := absurd h (hdrop door through)
  written w hw file bytes hputs _ := by
    simp only [Disk.after_log, Disk.fresh_log, List.nil_append, List.mem_singleton] at hw
    subst hw
    obtain ⟨_, rfl⟩ := Write.puts_publish.mp hputs
    exact ⟨target, wrappingParams_wrap hc hwrap, hstrong⟩
  kept := ⟨target, .of_wrap hc hwrap, hstrong⟩

/-- A verb that publishes one file that is no door. -/
theorem DoorStep.of_metadata {dir : VaultDir} {cost : Argon2Params} (hself : SelfCost dir cost)
    {file : VaultFile} {content : Bytes} (op : DoorOp)
    (hdrop : ∀ door through, op ≠ .drop door through) (hfile : file ≠ .kekSelf)
    (hfile' : file ≠ .kekRecovery) :
    DoorStep c f dir cost op (.ok ()) ((Disk.fresh dir).after (.publish file content)) where
  refused _ h := by cases h
  dropped door through h _ := absurd h (hdrop door through)
  written w hw file' bytes hputs hdoor := by
    simp only [Disk.after_log, Disk.fresh_log, List.nil_append, List.mem_singleton] at hw
    subst hw
    obtain ⟨rfl, _⟩ := Write.puts_publish.mp hputs
    exact absurd hdoor (by simp [hfile, hfile'])
  kept := by
    refine ⟨cost, hself.congr ?_, cost.atLeastAsStrongAs_refl⟩
    exact AList.lookup_insert_ne hfile.symm

/-- **One verb.** A refusal changes nothing, and no verb weakens or removes `k.self`. -/
theorem DoorOp.doorStep (hc : c.Lawful) {dir : VaultDir} {cost : Argon2Params} {op : DoorOp}
    {res : Except VaultError Unit} {disk : VaultDisk} (hself : SelfCost dir cost)
    (hperm : op.Permitted) (h : op.run c f (.fresh dir) = (res, disk)) :
    DoorStep c f dir cost op res disk := by
  cases op with
  | drop target through =>
    obtain ⟨r, hout, rfl⟩ := Fallible.void_eq h
    rcases dropWrapping_cases hout with ⟨e, rfl, rfl⟩ | ⟨plan, policy, rfl, hplan, _, rfl⟩
    · exact .of_refused hself _ e
    · have hkept : ((Disk.fresh dir).after (.unlink .kekRecovery) |>.after (.publish .recoveryPolicy
          (f.recoveryPolicy.render ⟨recoveryPolicyFormatVersion,
            RecoveryPolicy.display (policy.erase target)⟩))).dir.lookup .kekSelf =
              dir.lookup .kekSelf := by
        simp [Write.apply, AList.lookup_insert_ne, AList.lookup_erase_ne]
      constructor
      · rintro e ⟨⟩
      · rintro _ _ ⟨⟩ _
        exact ⟨(planDrop_ok hplan).2.1, hkept, plan, hplan⟩
      · simp
      · exact ⟨cost, hself.congr hkept, cost.atLeastAsStrongAs_refl⟩
  | addPhrase kek phrase salt nonce =>
    obtain ⟨r, hout, rfl⟩ := Fallible.void_eq h
    rcases addPhrase_cases hout with ⟨e, rfl, rfl⟩ | ⟨params, policy, wrapped, rfl, _, _, _, hwrap, rfl⟩
    · exact .of_refused hself _ e
    · rw [Disk.fresh_dir, hself.newDoorParams] at hwrap
      constructor
      · rintro e ⟨⟩
      · rintro _ _ ⟨⟩
      · intro w hw file bytes hputs hfile
        refine ⟨cost, ?_, cost.atLeastAsStrongAs_refl⟩
        simp only [Disk.after_log, Disk.fresh_log, List.nil_append, List.mem_append,
          List.mem_singleton] at hw
        rcases hw with rfl | rfl
        · obtain ⟨rfl, rfl⟩ := Write.puts_publish.mp hputs
          exact wrappingParams_wrap hc hwrap
        · obtain ⟨rfl, rfl⟩ := Write.puts_publish.mp hputs
          simp at hfile
      · refine ⟨cost, hself.congr ?_, cost.atLeastAsStrongAs_refl⟩
        simp [Write.apply, AList.lookup_insert_ne]
  | recover phrase newPassphrase salt nonce =>
    rcases recover_cases h with ⟨e, rfl, rfl⟩ | ⟨params, recovery, kek, wrapped, rfl, _, _, _, hwrap, rfl⟩
    · exact .of_refused hself _ e
    · rw [Disk.fresh_dir, hself.newDoorParams] at hwrap
      exact .of_publish hc _ nofun hwrap cost.atLeastAsStrongAs_refl
  | rewrap plan passphrase newPassphrase salt nonce =>
    rcases rewrapApply_cases h with
      ⟨e, rfl, rfl⟩ | ⟨fresh, params, kekSelf, kek, wrapped, rfl, hplan, _, _, _, hwrap, rfl⟩
    · exact .of_refused hself _ e
    · rw [show plan.isDowngrade = false from hperm] at hplan
      obtain ⟨params', kekSelf', _, hlook, hcurrent, hstrong⟩ := rewrapPlan_ok hplan
      have hcost : fresh.current.params = cost := by
        refine SelfCost.unique ⟨kekSelf', hlook, ?_⟩ hself
        obtain ⟨kekSelf'', hlook', hembedded⟩ := hself
        rw [Disk.fresh_dir, hlook'] at hlook
        cases hlook
        intro fallback
        rw [hcurrent, hembedded, hembedded]
      rw [hcost] at hstrong
      exact .of_publish hc _ nofun hwrap hstrong
  | record entry now =>
    obtain ⟨r, hout, rfl⟩ := Fallible.void_eq h
    rcases recordVerification_cases hout with ⟨e, rfl, rfl⟩ | ⟨log, rfl, rfl⟩
    · exact .of_refused hself _ e
    · exact .of_metadata hself _ nofun nofun nofun
  | declare text =>
    obtain ⟨r, hout, rfl⟩ := Fallible.void_eq h
    rcases declare_cases hout with ⟨e, rfl, rfl⟩ | ⟨policy, rfl, rfl⟩
    · exact .of_refused hself _ e
    · exact .of_metadata hself _ nofun nofun nofun

/-- A state of a run has a `k.self` that carries its costs. -/
theorem selfCost_reachable (hc : c.Lawful) {dir : VaultDir}
    (h : (doorSystem c f).Reachable dir) : ∃ cost, SelfCost dir cost := by
  refine System.Reachable.invariant (P := fun dir => ∃ cost, SelfCost dir cost)
    (fun dir hinit => SelfCost.of_init hc hinit) ?_ h
  rintro dir op _ _ ⟨cost, hself⟩ ⟨hperm, rfl⟩
  obtain ⟨cost', hself', _⟩ := (op.doorStep hc hself hperm rfl).kept
  exact ⟨cost', hself'⟩

/-- Along a run the costs of `k.self` never weaken. -/
theorem selfCost_run (hc : c.Lawful) {dir dir' : VaultDir} {ops : List DoorOp} {cost : Argon2Params}
    (hself : SelfCost dir cost) (hrun : (doorSystem c f).Run dir ops dir') :
    ∃ cost', SelfCost dir' cost' ∧ cost'.atLeastAsStrongAs cost = true := by
  refine hrun.invariant (P := fun dir' => ∃ cost', SelfCost dir' cost' ∧
    cost'.atLeastAsStrongAs cost = true) ?_ ⟨cost, hself, cost.atLeastAsStrongAs_refl⟩
  rintro mid op _ ⟨cost', hmid, hstrong⟩ ⟨hperm, rfl⟩
  obtain ⟨cost'', hself'', hstrong'⟩ := (op.doorStep hc hmid hperm rfl).kept
  exact ⟨cost'', hself'', Argon2Params.atLeastAsStrongAs_trans hstrong' hstrong⟩

/-- **Doors along every run.** From a fresh vault, after any verbs: `k.self` is there and its costs
never weaken from any state on; a removal is licensed by a record of exactly the `k.self` on disk
and leaves another door; every door written is at least as strong as `k.self` was; and a refused
verb changes no file. -/
theorem door_runs (hc : c.Lawful) {dir dir' : VaultDir} {later : List DoorOp}
    (hreach : (doorSystem c f).Reachable dir) (hrun : (doorSystem c f).Run dir later dir') :
    ∃ kekSelf cost, dir.lookup .kekSelf = some kekSelf ∧ EmbeddedCost kekSelf cost ∧
      (∃ cost', SelfCost dir' cost' ∧ cost'.atLeastAsStrongAs cost = true) ∧
      ∀ (op : DoorOp) res disk, op.Permitted → op.run c f (.fresh dir) = (res, disk) →
        (∀ e, res = .error e → disk = .fresh dir) ∧
        (∀ target through, op = .drop target through → res = .ok () →
          (∃ log record, readVerifications f dir = .ok log ∧ record ∈ log.entries ∧
            record.outcome = outcomeOpenable ∧ record.selfBlake3 = (c.blake3 kekSelf).toHex) ∧
          ∃ door, door ≠ target ∧ (Wrappings.read disk.dir).contains door = true) ∧
        ∀ w ∈ disk.log, ∀ file bytes, w.Puts file bytes → file = .kekSelf ∨ file = .kekRecovery →
          ∃ cost', EmbeddedCost bytes cost' ∧ cost'.atLeastAsStrongAs cost = true := by
  obtain ⟨cost, kekSelf, hlook, hcost⟩ := selfCost_reachable hc hreach
  have hself : SelfCost dir cost := ⟨kekSelf, hlook, hcost⟩
  refine ⟨kekSelf, cost, hlook, hcost, selfCost_run hc hself hrun, ?_⟩
  intro op res disk hperm hop
  have hstep := op.doorStep hc hself hperm hop
  refine ⟨hstep.refused, ?_, hstep.written⟩
  intro target through hdrop hres
  obtain ⟨htarget, hkept, plan, hplan⟩ := hstep.dropped target through hdrop hres
  obtain ⟨_, _, _, _, proof, hproof, hrecord⟩ := planDrop_ok hplan
  obtain ⟨log, kekSelf', hlog, hlook', hmem, houtcome, hhash⟩ := currentProof_some hproof hrecord
  rw [hlook] at hlook'
  cases hlook'
  refine ⟨⟨log, plan.certifiedBy, hlog, hmem, houtcome, hhash⟩, .passphrase, ?_, ?_⟩
  · rw [htarget]
    exact nofun
  · simp only [Wrappings.read, Wrappings.contains, fileExists, hkept, hlook, Option.isSome_some]

/-- The secrets a vault is made of in the runs shown below. -/
def demoSecrets : InitSecrets where
  kek := ⟨List.replicate 32 7, rfl⟩
  selfSalt := ⟨List.replicate 16 1, rfl⟩
  selfNonce := ⟨List.replicate 24 1, rfl⟩
  phrase := ⟨[112]⟩
  recoverySalt := ⟨List.replicate 16 2, rfl⟩
  recoveryNonce := ⟨List.replicate 24 2, rfl⟩
  master := ⟨List.replicate 32 9, rfl⟩
  masterNonce := ⟨List.replicate 24 3, rfl⟩
  identity := ⟨List.replicate 32 5, rfl⟩
  identityNonce := ⟨List.replicate 24 4, rfl⟩
  transport := ⟨List.replicate 32 6, rfl⟩
  transportNonce := ⟨List.replicate 24 5, rfl⟩

/-- A fresh vault under the baseline costs and the passphrase `a`. -/
def demoVault : VaultDir :=
  (initWithParams checksumCrates unaryFormats [97] ⟨formatVersion, owaspBaseline⟩ demoSecrets
    (.fresh ∅)).2.dir

theorem demoVault_fresh : FreshVault checksumCrates unaryFormats demoVault :=
  ⟨[97], ⟨formatVersion, owaspBaseline⟩, demoSecrets, by decide +kernel, rfl⟩

/-- A passphrase is forgotten, and the vault recovered by its phrase. -/
theorem door_runs_recover :
    ∃ kekSelf cost, demoVault.lookup .kekSelf = some kekSelf ∧ EmbeddedCost kekSelf cost ∧
      (∃ cost', SelfCost ((DoorOp.recover ⟨[112]⟩ [98] demoSecrets.selfSalt
          demoSecrets.selfNonce).run checksumCrates unaryFormats (.fresh demoVault)).2.dir cost' ∧
        cost'.atLeastAsStrongAs cost = true) := by
  obtain ⟨kekSelf, cost, hlook, hcost, hlater, _⟩ :=
    door_runs checksumCrates_lawful (.of_init demoVault_fresh)
      (.single ⟨trivial, rfl⟩ : (doorSystem checksumCrates unaryFormats).Run demoVault
        [.recover ⟨[112]⟩ [98] demoSecrets.selfSalt demoSecrets.selfNonce] _)
  exact ⟨kekSelf, cost, hlook, hcost, hlater⟩

end Softfig.Vault
