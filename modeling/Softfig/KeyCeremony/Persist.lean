import Softfig.KeyCeremony.Machine
import Softfig.LayerB.Regions
import Softfig.Lib.Overlay
import Softfig.Vault.Containers
import Softfig.Vcs.SharedConfig

/-!
What the daemon does with the key of a finished ceremony.

The key is sealed in the vault, the transcript is committed as a record of the
device's own chain, and the membership row of the shared chain names the key.
`persistCeremonyOutcome` fills a row that has no key, `rotateSharedKey` replaces
the key of a row that has one, and `reconcileReencryptCompleteness` seals again
what a rotation left under an old key.

Where a call stops is decided by its `Faults`. Blobs stand for their ciphertext:
what they hold, and which key sealed them.

- `persistCeremonyOutcome_cases`, `rotateSharedKey_cases`: where a call can end,
  and what it has done by then.
-/

namespace Softfig.KeyCeremony

open Softfig.Lib
open Softfig.Vault (Bytes FixedBytes)
open Softfig.Vcs (SharedSubtreeEntry SharedSubtreesConfig)

/-! ### The garden -/

/-- What the ceremony keeps under `config/`; a file stands for its text. -/
inductive CeremonyFile where
  | record (transcript : Transcript)
  | membership (config : SharedSubtreesConfig)
  deriving DecidableEq

/-- What a commit was made for. -/
inductive AuditIntent where
  | genesis
  | sharedCeremony (chainId : Bytes) (keyId : String)
  | sharedRekey (chainId : Bytes) (oldKeyId newKeyId : String) (members : List DeviceId)
      (ceremonyRef : String)

/-- The commits of the device's own chain, newest first; a commit is named by its history. -/
abbrev History := List (Version String CeremonyFile AuditIntent)

/-- A file of a shared chain: under a shared key, or under the device's own master key. -/
structure SealedBlob where
  path : String
  generation : Option String
  content : Bytes
  deriving DecidableEq

/-- A row already has another key than the ceremony made. -/
structure Divergence where
  chainId : Bytes
  existing : String
  produced : String
  deriving DecidableEq

structure Garden where
  localId : DeviceId
  vault : AList fun _ : String => SharedKey
  work : Overlay String CeremonyFile AuditIntent
  lastSharedKeyDivergence : Option Divergence
  /-- the tips a shared chain has had, newest first -/
  chains : AList fun _ : String => List (List SealedBlob)

/-- `config/shared-ceremonies/{key_id}.toml` -/
def ceremonyRecordRel (keyId : String) : String := "config/shared-ceremonies/" ++ keyId ++ ".toml"

def sharedSubtreesRel : String := "config/shared-subtrees.toml"

def rowsOf : Option CeremonyFile → List SharedSubtreeEntry
  | some (.membership config) => config.subtrees
  | _ => []

/-- The rows of the committed membership file. -/
def Garden.rows (g : Garden) : List SharedSubtreeEntry := rowsOf (g.work.committed sharedSubtreesRel)

/-- The rows of the membership file in the working tree. -/
def Garden.workRows (g : Garden) : List SharedSubtreeEntry := rowsOf (g.work.read sharedSubtreesRel)

/-! ### A call -/

inductive DaemonState where
  | locked
  | unlocked
  | stopping
  deriving DecidableEq

/-- Where a call breaks off. A commit fails before the device's chain has moved, or after: then a
shared chain with files of its own in the working tree could not be committed. -/
inductive CommitFault where
  | before
  | after
  deriving DecidableEq

structure Faults where
  readMembership : Bool := false
  store : Bool := false
  rereadMembership : Bool := false
  readTip : Bool := false
  writeRecord : Bool := false
  writeMembership : Bool := false
  commit : Option CommitFault := none
  reencrypt : Bool := false

inductive CustodyError where
  | outcomeMismatch
  | notVerified
  | chainNotUtf8
  | vaultLocked
  | stopping
  | memberSet
  | notAMember
  | readMembership
  | diverged (divergence : Divergence)
  | noRow
  | unkeyed
  | keyAlreadyLive
  | store
  | readTip
  | write (path : String)
  | commit
  | reencrypt
  deriving DecidableEq

abbrev CustodyM := Fallible Garden CustodyError

/-- What a ceremony hands over: the key, and the transcript that names it. -/
structure Outcome where
  key : SharedKey
  transcript : Transcript
  deriving DecidableEq

/-- The daemon at the time of a call: its state and its ring. -/
structure Env where
  state : DaemonState
  ring : List DeviceId

def requireUnlocked : DaemonState → Except CustodyError Unit
  | .unlocked => .ok ()
  | .locked => .error .vaultLocked
  | .stopping => .error .stopping

def assembleMemberSet (ring : List DeviceId) (localId : DeviceId) : List DeviceId :=
  localId :: ring

/-- Two lists of devices are one set. -/
def SameSet (as bs : List DeviceId) : Prop := (∀ a ∈ as, a ∈ bs) ∧ ∀ b ∈ bs, b ∈ as

instance (as bs : List DeviceId) : Decidable (SameSet as bs) :=
  inferInstanceAs (Decidable (_ ∧ _))

/-- The row is a row of the transcript's chain. -/
def Transcript.IsRow (t : Transcript) (row : SharedSubtreeEntry) : Prop :=
  Store.utf8 row.refName = t.chainId

instance (t : Transcript) (row : SharedSubtreeEntry) : Decidable (t.IsRow row) :=
  inferInstanceAs (Decidable (_ = _))

/-! ### Steps of a call -/

section

variable (p : Crypto)

/-- The key is the transcript's, the transcript verifies, and its chain has a name. -/
def checkOutcome (o : Outcome) : Except CustodyError Unit := do
  refuseIf (keyId p o.key ≠ o.transcript.keyId) .outcomeMismatch
  refuseIf (o.transcript.verify p = false) .notVerified
  refuseIf (LayerB.isUtf8 o.transcript.chainId = false) .chainNotUtf8

end

/-- `read_committed_shared_subtrees_for_mutation`: an absent file is an empty list, a broken one an
error. -/
def readCommittedSharedSubtrees (fails : Bool) : CustodyM SharedSubtreesConfig := fun g =>
  if fails then (.error .readMembership, g)
  else
    match g.work.committed sharedSubtreesRel with
    | none => (.ok ⟨[]⟩, g)
    | some (.membership config) => (.ok config, g)
    | some (.record _) => (.error .readMembership, g)

/-- Fill one row of the chain, never overwriting a key. -/
def fillRow (t : Transcript) (row : SharedSubtreeEntry) : Except Divergence SharedSubtreeEntry :=
  if ¬t.IsRow row then .ok row
  else
    match row.keyId with
    | none => .ok { row with keyId := some t.keyId }
    | some existing =>
      if existing = t.keyId then .ok row else .error ⟨t.chainId, existing, t.keyId⟩

/-- A row of the chain has no key yet. -/
def hasUnkeyedRow (t : Transcript) (rows : List SharedSubtreeEntry) : Bool :=
  rows.any fun row => decide (t.IsRow row) && row.keyId.isNone

/-- The membership to write, if any row is filled; a divergence is recorded for `status`. -/
def fillMembership (t : Transcript) (membership : SharedSubtreesConfig) :
    CustodyM (Option SharedSubtreesConfig) := fun g =>
  match membership.subtrees.mapM (fillRow t) with
  | .error d => (.error (.diverged d), { g with lastSharedKeyDivergence := some d })
  | .ok rows => (.ok (if hasUnkeyedRow t membership.subtrees then some ⟨rows⟩ else none), g)

/-- `VaultSession::store_shared_key`, over the keys the vault can open. -/
def storeSharedKey (fails : Bool) (keyId : String) (s : SharedKey) : CustodyM Unit := fun g =>
  match Vault.validateSharedKeyId (Store.utf8 keyId) with
  | .error _ => (.error .store, g)
  | .ok () =>
    match g.vault.lookup keyId with
    | some existing => (if existing = s then .ok () else .error .store, g)
    | none =>
      if fails then (.error .store, g)
      else (.ok (), { g with vault := g.vault.insert keyId s })

def readTip (fails : Bool) : CustodyM History := fun g =>
  (if fails then .error .readTip else .ok g.work.log, g)

def writeFile (fails : Bool) (path : String) (content : CeremonyFile) : CustodyM Unit := fun g =>
  if fails then (.error (.write path), g) else (.ok (), { g with work := g.work.stage path content })

def writeRecord (fails recordExists : Bool) (t : Transcript) : CustodyM Unit :=
  if recordExists then pure () else writeFile fails (ceremonyRecordRel t.keyId) (.record t)

def writeMembership (fails : Bool) : Option SharedSubtreesConfig → CustodyM Unit
  | none => pure ()
  | some config => writeFile fails sharedSubtreesRel (.membership config)

/-- `commit_now`: everything staged goes into one commit of the device's chain. -/
def commitNow (fault : Option CommitFault) (intent : AuditIntent) : CustodyM History := fun g =>
  match fault with
  | some .before => (.error .commit, g)
  | some .after => (.error .commit, { g with work := g.work.publish intent })
  | none => (.ok (g.work.publish intent).log, { g with work := g.work.publish intent })

/-- Seal the files of a chain's tip again, under the key its rows now name. -/
def reencryptSharedChain (fails : Bool) (refName liveKeyId : String) : CustodyM Unit := fun g =>
  if fails then (.error .reencrypt, g)
  else
    match g.chains.lookup refName with
    | none | some [] => (.ok (), g)
    | some (tip :: older) =>
      let resealed := tip.map fun blob => { blob with generation := some liveKeyId }
      if resealed = tip then (.ok (), g)
      else (.ok (), { g with chains := g.chains.insert refName (resealed :: tip :: older) })

/-! ### Calls -/

section

variable (p : Crypto) (env : Env) (f : Faults) (o : Outcome)

/-- The members are this device's own committed ring. -/
def checkMemberSet : CustodyM Unit := fun g =>
  (refuseIf (¬SameSet (assembleMemberSet env.ring g.localId) o.transcript.memberIds) .memberSet, g)

def persistCeremonyOutcome : CustodyM History := do
  Fallible.ofExcept (checkOutcome p o)
  Fallible.ofExcept (requireUnlocked env.state)
  checkMemberSet env o
  let membership ← readCommittedSharedSubtrees f.readMembership
  let membershipUpdate ← fillMembership o.transcript membership
  storeSharedKey f.store o.transcript.keyId o.key
  let recordExists ← Fallible.gets fun g => g.work.exists (ceremonyRecordRel o.transcript.keyId)
  if recordExists && membershipUpdate.isNone then readTip f.readTip
  else do
    writeRecord f.writeRecord recordExists o.transcript
    writeMembership f.writeMembership membershipUpdate
    commitNow f.commit (.sharedCeremony o.transcript.chainId o.transcript.keyId)

/-- The first row of the chain, and its key: there is one, and it is not the new one. -/
def liveRow (membership : SharedSubtreesConfig) : Except CustodyError (SharedSubtreeEntry × String) :=
  match membership.subtrees.find? fun row => decide (o.transcript.IsRow row) with
  | none => .error .noRow
  | some row =>
    match row.keyId with
    | none => .error .unkeyed
    | some old => if old = o.transcript.keyId then .error .keyAlreadyLive else .ok (row, old)

/-- Every row of the chain names the new key. -/
def rekey (membership : SharedSubtreesConfig) : SharedSubtreesConfig :=
  ⟨membership.subtrees.map fun row =>
    if o.transcript.IsRow row then { row with keyId := some o.transcript.keyId } else row⟩

/-- This device is a member of the transcript. -/
def checkMember : CustodyM Unit := fun g =>
  (refuseIf (g.localId ∉ o.transcript.memberIds) .notAMember, g)

def rotateSharedKey : CustodyM History := do
  Fallible.ofExcept (checkOutcome p o)
  Fallible.ofExcept (requireUnlocked env.state)
  checkMember o
  let membership ← readCommittedSharedSubtrees f.readMembership
  let (row, old) ← Fallible.ofExcept (liveRow o membership)
  storeSharedKey f.store o.transcript.keyId o.key
  let membership ← readCommittedSharedSubtrees f.rereadMembership
  writeFile f.writeRecord (ceremonyRecordRel o.transcript.keyId) (.record o.transcript)
  writeFile f.writeMembership sharedSubtreesRel (.membership (rekey o membership))
  let auditHash ← commitNow f.commit (.sharedRekey o.transcript.chainId old o.transcript.keyId
    o.transcript.memberIds o.transcript.keyId)
  reencryptSharedChain f.reencrypt row.refName o.transcript.keyId
  pure auditHash

end

/-! ### The completeness pass -/

/-- The chain's tip has a blob under another shared key than the row's; one under the device's own
master key is none. -/
def tipHasForeignSharedKey (g : Garden) (refName liveKeyId : String) : Bool :=
  match g.chains.lookup refName with
  | none | some [] => false
  | some (tip :: _) => tip.any fun blob => blob.generation.any (· ≠ liveKeyId)

/-- The keyed rows whose chain still has a blob under a key it no longer names. -/
def chainsLaggingReencrypt (g : Garden) (membership : SharedSubtreesConfig) :
    List (String × String) :=
  membership.subtrees.filterMap fun row =>
    match row.keyId with
    | none => none
    | some live => if tipHasForeignSharedKey g row.refName live then some (row.refName, live) else none

/-- Every lagging chain is sealed again; one that fails is left for the next pass. -/
def reconcileReencryptCompleteness (state : DaemonState) (readFails : Bool)
    (reencryptFails : String → Bool) (g : Garden) : Garden :=
  if state ≠ .unlocked then g
  else
    match readCommittedSharedSubtrees readFails g with
    | (.error _, _) => g
    | (.ok membership, _) =>
      (chainsLaggingReencrypt g membership).foldl
        (fun g chain => (reencryptSharedChain (reencryptFails chain.1) chain.1 chain.2 g).2) g

/-! ### What the steps do -/

section

variable {p : Crypto} {env : Env} {f : Faults} {o : Outcome} {g g' : Garden}
variable {res : Except CustodyError History}

theorem requireUnlocked_ok {state : DaemonState} {u : Unit} (h : requireUnlocked state = .ok u) :
    state = .unlocked := by
  cases state with
  | locked => cases h
  | unlocked => rfl
  | stopping => cases h

theorem checkOutcome_ok {u : Unit} (h : checkOutcome p o = .ok u) :
    keyId p o.key = o.transcript.keyId ∧ o.transcript.verify p = true := by
  obtain ⟨hkey, h⟩ := refuseIf_bind_ok_iff.mp h
  obtain ⟨hverify, -⟩ := refuseIf_bind_ok_iff.mp h
  exact ⟨not_not.mp hkey, by simpa using hverify⟩

theorem readCommittedSharedSubtrees_cases {fails : Bool}
    {read : Except CustodyError SharedSubtreesConfig}
    (h : readCommittedSharedSubtrees fails g = (read, g')) :
    g' = g ∧ ((∃ e, read = .error e) ∨ fails = false ∧ read = .ok ⟨g.rows⟩) := by
  unfold readCommittedSharedSubtrees at h
  split at h
  · cases h
    exact ⟨rfl, .inl ⟨_, rfl⟩⟩
  · rename_i hfails
    have hfails : fails = false := by simpa using hfails
    split at h <;> rename_i hread <;> cases h
    · exact ⟨rfl, .inr ⟨hfails, by simp [Garden.rows, hread, rowsOf]⟩⟩
    · exact ⟨rfl, .inr ⟨hfails, by simp [Garden.rows, hread, rowsOf]⟩⟩
    · exact ⟨rfl, .inl ⟨_, rfl⟩⟩

/-- Storing a key keeps every key the vault has, and the key it stores is the one it has then. -/
structure Stored (g : Garden) (o : Outcome) (vault : AList fun _ : String => SharedKey) : Prop where
  has : vault.lookup o.transcript.keyId = some o.key
  keeps : ∀ k s, g.vault.lookup k = some s → vault.lookup k = some s
  others : ∀ k, k ≠ o.transcript.keyId → vault.lookup k = g.vault.lookup k
  same : g.vault.lookup o.transcript.keyId = some o.key → vault = g.vault

theorem storeSharedKey_cases {fails : Bool} {stored : Except CustodyError Unit}
    (h : storeSharedKey fails o.transcript.keyId o.key g = (stored, g')) :
    (∃ e, stored = .error e ∧ g' = g) ∨
      ∃ vault, stored = .ok () ∧ g' = { g with vault := vault } ∧ Stored g o vault ∧
        (g.vault.lookup o.transcript.keyId = some o.key ∨
          g.vault.lookup o.transcript.keyId = none ∧ fails = false) := by
  unfold storeSharedKey at h
  split at h
  · cases h
    exact .inl ⟨_, rfl, rfl⟩
  split at h
  · rename_i existing hlook
    split_ifs at h with hsame
    · cases h
      rw [hsame] at hlook
      exact .inr ⟨g.vault, rfl, rfl, ⟨hlook, fun _ _ h => h, fun _ _ => rfl, fun _ => rfl⟩,
        .inl hlook⟩
    · cases h
      exact .inl ⟨_, rfl, rfl⟩
  · rename_i hlook
    split_ifs at h with hfails
    · cases h
      exact .inl ⟨_, rfl, rfl⟩
    · cases h
      refine .inr ⟨_, rfl, rfl, ⟨AList.lookup_insert _, ?_, ?_, ?_⟩,
        .inr ⟨hlook, by simpa using hfails⟩⟩
      · intro k s hk
        by_cases hne : k = o.transcript.keyId
        · rw [hne, hlook] at hk
          cases hk
        · rwa [AList.lookup_insert_ne hne]
      · intro k hne
        exact AList.lookup_insert_ne hne
      · intro hsame
        rw [hlook] at hsame
        cases hsame

theorem writeFile_cases {fails : Bool} {path : String} {content : CeremonyFile}
    {written : Except CustodyError Unit} (h : writeFile fails path content g = (written, g')) :
    (∃ e, written = .error e ∧ g' = g) ∨
      written = .ok () ∧ fails = false ∧ g' = { g with work := g.work.stage path content } := by
  unfold writeFile at h
  split_ifs at h with hfails <;> cases h
  · exact .inl ⟨_, rfl, rfl⟩
  · exact .inr ⟨rfl, by simpa using hfails, rfl⟩

theorem reencryptSharedChain_garden (fails : Bool) (refName live : String) :
    ∃ chains, (reencryptSharedChain fails refName live g).2 = { g with chains := chains } := by
  unfold reencryptSharedChain
  split_ifs
  · exact ⟨g.chains, rfl⟩
  · split
    · exact ⟨g.chains, rfl⟩
    · exact ⟨g.chains, rfl⟩
    · dsimp only
      split_ifs
      · exact ⟨g.chains, rfl⟩
      · exact ⟨_, rfl⟩

/-- **The completeness pass touches shared chains alone.** -/
theorem reconcile_chains (state : DaemonState) (readFails : Bool) (reencryptFails : String → Bool) :
    ∃ chains, reconcileReencryptCompleteness state readFails reencryptFails g =
      { g with chains := chains } := by
  have hfold : ∀ (lagging : List (String × String)) (g : Garden), ∃ chains,
      lagging.foldl (fun g chain =>
        (reencryptSharedChain (reencryptFails chain.1) chain.1 chain.2 g).2) g =
          { g with chains := chains } := by
    intro lagging
    induction lagging with
    | nil => exact fun g => ⟨g.chains, rfl⟩
    | cons chain lagging ih =>
      intro g
      obtain ⟨chains, hstep⟩ := reencryptSharedChain_garden (g := g) (reencryptFails chain.1) chain.1
        chain.2
      obtain ⟨later, hrest⟩ := ih { g with chains := chains }
      rw [List.foldl_cons, hstep, hrest]
      exact ⟨later, rfl⟩
  unfold reconcileReencryptCompleteness
  split_ifs
  · exact ⟨g.chains, rfl⟩
  · split
    · exact ⟨g.chains, rfl⟩
    · exact hfold _ g

/-! ### Where a call ends -/

/-- The working tree with the transcript's record, which is written unless it is there. -/
def withRecord (t : Transcript) (w : Overlay String CeremonyFile AuditIntent) :
    Overlay String CeremonyFile AuditIntent :=
  if w.exists (ceremonyRecordRel t.keyId) then w else w.stage (ceremonyRecordRel t.keyId) (.record t)

/-- A call that has sealed its key: it breaks off with some of its files staged, or it reaches its
commit, and breaks off after it or returns it. -/
inductive Ended (g : Garden) (recorded written : Overlay String CeremonyFile AuditIntent)
    (intent : AuditIntent) (reached : Prop) : Except CustodyError History → Garden → Prop where
  | cut {e : CustodyError} {w : Overlay String CeremonyFile AuditIntent}
      (hw : w = g.work ∨ w = recorded ∨ w = written) :
      Ended g recorded written intent reached (.error e) { g with work := w }
  | late {e : CustodyError} {chains : AList fun _ : String => List (List SealedBlob)}
      (hreached : reached) :
      Ended g recorded written intent reached (.error e)
        { g with work := written.publish intent, chains := chains }
  | landed {chains : AList fun _ : String => List (List SealedBlob)} (hreached : reached) :
      Ended g recorded written intent reached (.ok (written.publish intent).log)
        { g with work := written.publish intent, chains := chains }

theorem commitNow_ended {fault : Option CommitFault} {intent : AuditIntent}
    {recorded written : Overlay String CeremonyFile AuditIntent}
    (h : commitNow fault intent { g with work := written } = (res, g')) :
    Ended g recorded written intent (fault ≠ some .before) res g' := by
  unfold commitNow at h
  split at h <;> cases h
  · exact .cut (.inr (.inr rfl))
  · exact .late (by simp)
  · exact .landed (by simp)

theorem Ended.mono {recorded written : Overlay String CeremonyFile AuditIntent}
    {intent : AuditIntent} {reached reached' : Prop}
    (h : Ended g recorded written intent reached res g') (himp : reached → reached') :
    Ended g recorded written intent reached' res g' := by
  cases h with
  | cut hw => exact .cut hw
  | late hreached => exact .late (himp hreached)
  | landed hreached => exact .landed (himp hreached)

/-- The working tree where a call ends. -/
theorem Ended.work_cases {recorded written : Overlay String CeremonyFile AuditIntent}
    {intent : AuditIntent} {reached : Prop} (h : Ended g recorded written intent reached res g') :
    (g'.work = g.work ∨ g'.work = recorded ∨ g'.work = written) ∨
      reached ∧ g'.work = written.publish intent := by
  cases h with
  | cut hw => exact .inl hw
  | late hreached => exact .inr ⟨hreached, rfl⟩
  | landed hreached => exact .inr ⟨hreached, rfl⟩

theorem writeRecord_cases {fails : Bool} {t : Transcript} {written : Except CustodyError Unit}
    (h : writeRecord fails (g.work.exists (ceremonyRecordRel t.keyId)) t g = (written, g')) :
    (∃ e, written = .error e ∧ g' = g) ∨
      written = .ok () ∧ (g.work.exists (ceremonyRecordRel t.keyId) = false → fails = false) ∧
        g' = { g with work := withRecord t g.work } := by
  unfold writeRecord at h
  unfold withRecord
  split_ifs at h ⊢ with hexists
  · cases h
    exact .inr ⟨rfl, fun hnot => (by rw [hexists] at hnot; cases hnot), rfl⟩
  · rcases writeFile_cases h with hfail | ⟨rfl, hfails, rfl⟩
    · exact .inl hfail
    · exact .inr ⟨rfl, fun _ => hfails, rfl⟩

/-- The working tree once the filled rows are written, if any were. -/
def withFilled (t : Transcript) (rows filled : List SharedSubtreeEntry)
    (w : Overlay String CeremonyFile AuditIntent) : Overlay String CeremonyFile AuditIntent :=
  if hasUnkeyedRow t rows then w.stage sharedSubtreesRel (.membership ⟨filled⟩) else w

theorem writeMembership_cases {fails : Bool} {t : Transcript} {rows filled : List SharedSubtreeEntry}
    {written : Except CustodyError Unit}
    (h : writeMembership fails (if hasUnkeyedRow t rows then some ⟨filled⟩ else none) g =
      (written, g')) :
    (∃ e, written = .error e ∧ g' = g) ∨
      written = .ok () ∧ g' = { g with work := withFilled t rows filled g.work } := by
  unfold withFilled
  split_ifs at h ⊢ with hrow
  · rcases writeFile_cases h with hfail | ⟨rfl, -, rfl⟩
    · exact .inl hfail
    · exact .inr ⟨rfl, rfl⟩
  · cases h
    exact .inr ⟨rfl, rfl⟩

theorem fillMembership_cases {membership : SharedSubtreesConfig}
    {update : Except CustodyError (Option SharedSubtreesConfig)}
    (h : fillMembership o.transcript membership g = (update, g')) :
    (∃ d, update = .error (.diverged d) ∧ g' = { g with lastSharedKeyDivergence := some d }) ∨
      ∃ filled, membership.subtrees.mapM (fillRow o.transcript) = .ok filled ∧ g' = g ∧
        update = .ok
          (if hasUnkeyedRow o.transcript membership.subtrees then some ⟨filled⟩ else none) := by
  unfold fillMembership at h
  split at h <;> rename_i hrows <;> cases h
  · exact .inl ⟨_, rfl, rfl⟩
  · exact .inr ⟨_, hrows, rfl, rfl⟩

/-- A call of `persistCeremonyOutcome` that gets as far as to seal its key. -/
structure PersistSeals (p : Crypto) (env : Env) (f : Faults) (o : Outcome) (g : Garden)
    (vault : AList fun _ : String => SharedKey) (filled : List SharedSubtreeEntry) : Prop where
  outcome : checkOutcome p o = .ok ()
  unlocked : env.state = .unlocked
  members : SameSet (assembleMemberSet env.ring g.localId) o.transcript.memberIds
  reads : f.readMembership = false
  fills : g.rows.mapM (fillRow o.transcript) = .ok filled
  stored : Stored g o vault
  stores : g.vault.lookup o.transcript.keyId = some o.key ∨
    g.vault.lookup o.transcript.keyId = none ∧ f.store = false

/-- **Where a call of `persistCeremonyOutcome` ends.** -/
theorem persistCeremonyOutcome_cases (h : persistCeremonyOutcome p env f o g = (res, g')) :
    (∃ e d, res = .error e ∧ g' = { g with lastSharedKeyDivergence := d }) ∨
      ∃ vault filled, PersistSeals p env f o g vault filled ∧
        ((hasUnkeyedRow o.transcript g.rows = false ∧
            g.work.exists (ceremonyRecordRel o.transcript.keyId) = true ∧
            g' = { g with vault := vault } ∧
            ((∃ e, res = .error e) ∨ f.readTip = false ∧ res = .ok g.work.log)) ∨
          (hasUnkeyedRow o.transcript g.rows = true ∨
            g.work.exists (ceremonyRecordRel o.transcript.keyId) = false) ∧
            Ended { g with vault := vault } (withRecord o.transcript g.work)
              (withFilled o.transcript g.rows filled (withRecord o.transcript g.work))
              (.sharedCeremony o.transcript.chainId o.transcript.keyId)
              ((g.work.exists (ceremonyRecordRel o.transcript.keyId) = false →
                f.writeRecord = false) ∧ f.commit ≠ some .before) res g') := by
  unfold persistCeremonyOutcome at h
  rcases Fallible.ofExcept_bind_cases h with ⟨e, -, rfl, rfl⟩ | ⟨_, houtcome, h⟩
  · exact .inl ⟨e, _, rfl, rfl⟩
  rcases Fallible.ofExcept_bind_cases h with ⟨e, -, rfl, rfl⟩ | ⟨_, hunlocked, h⟩
  · exact .inl ⟨e, _, rfl, rfl⟩
  rcases Fallible.bind_cases h with ⟨e, hmembers, rfl⟩ | ⟨_, mid, hmembers, h⟩ <;>
    obtain ⟨hset, rfl⟩ := Prod.mk.inj hmembers
  · exact .inl ⟨e, _, rfl, rfl⟩
  rcases Fallible.bind_cases h with ⟨e, hread, rfl⟩ | ⟨membership, mid, hread, h⟩ <;>
    obtain ⟨rfl, hread⟩ := readCommittedSharedSubtrees_cases hread
  · exact .inl ⟨e, _, rfl, rfl⟩
  obtain ⟨hreads, rfl⟩ : f.readMembership = false ∧ membership = ⟨mid.rows⟩ := by
    rcases hread with ⟨e, he⟩ | ⟨hreads, he⟩ <;> cases he
    exact ⟨hreads, rfl⟩
  rcases Fallible.bind_cases h with ⟨e, hfill, rfl⟩ | ⟨update, mid', hfill, h⟩ <;>
    rcases fillMembership_cases hfill with ⟨d, hd, rfl⟩ | ⟨filled, hfills, rfl, hupdate⟩
  · exact .inl ⟨e, _, rfl, rfl⟩
  · cases hupdate
  · cases hd
  cases hupdate
  rcases Fallible.bind_cases h with ⟨e, hstore, rfl⟩ | ⟨_, mid, hstore, h⟩ <;>
    rcases storeSharedKey_cases hstore with ⟨e', he, rfl⟩ | ⟨vault, hok, rfl, hstored, hstores⟩
  · exact .inl ⟨e, _, rfl, rfl⟩
  · cases hok
  · cases he
  right
  refine ⟨vault, filled, ⟨houtcome, requireUnlocked_ok hunlocked, ?_, hreads, hfills, hstored,
    hstores⟩, ?_⟩
  · exact not_not.mp (refuseIf_eq_ok.mp hset)
  rw [Fallible.bind_ok (Fallible.gets_apply _ _)] at h
  by_cases hdone : (mid'.work.exists (ceremonyRecordRel o.transcript.keyId) = true ∧
      hasUnkeyedRow o.transcript mid'.rows = false)
  · left
    rw [if_pos (by simp [hdone])] at h
    obtain ⟨hres, rfl⟩ := Prod.mk.inj h
    refine ⟨hdone.2, hdone.1, rfl, ?_⟩
    split_ifs at hres with htip
    · exact .inl ⟨_, hres.symm⟩
    · exact .inr ⟨by simpa using htip, hres.symm⟩
  · right
    refine ⟨?_, ?_⟩
    · cases hrow : hasUnkeyedRow o.transcript mid'.rows
      · right
        simpa [hrow] using hdone
      · exact .inl rfl
    have hgo : ¬(mid'.work.exists (ceremonyRecordRel o.transcript.keyId) &&
        (if hasUnkeyedRow o.transcript mid'.rows = true then some (⟨filled⟩ : SharedSubtreesConfig)
          else none).isNone) = true := by
      simpa using hdone
    rw [if_neg hgo] at h
    rcases Fallible.bind_cases h with ⟨e, hrecord, rfl⟩ | ⟨_, mid, hrecord, h⟩ <;>
      rcases writeRecord_cases hrecord with ⟨e', he, rfl⟩ | ⟨hok, hwrites, rfl⟩
    · exact .cut (.inl rfl)
    · cases hok
    · cases he
    rcases Fallible.bind_cases h with ⟨e, hmembership, rfl⟩ | ⟨_, mid, hmembership, h⟩ <;>
      rcases writeMembership_cases hmembership with ⟨e', he, rfl⟩ | ⟨hok, rfl⟩
    · exact .cut (.inr (.inl rfl))
    · cases hok
    · cases he
    have hended : Ended { mid' with vault := vault } (withRecord o.transcript mid'.work) _ _ _ res g' :=
      commitNow_ended h
    exact hended.mono fun hcommit => ⟨hwrites, hcommit⟩

/-- **Where a call of `rotateSharedKey` ends.** -/
theorem rotateSharedKey_cases (h : rotateSharedKey p env f o g = (res, g')) :
    (∃ e, res = .error e ∧ g' = g) ∨
      ∃ vault row old, checkOutcome p o = .ok () ∧ env.state = .unlocked ∧
        g.localId ∈ o.transcript.memberIds ∧ f.readMembership = false ∧
        liveRow o ⟨g.rows⟩ = .ok (row, old) ∧ Stored g o vault ∧
        Ended { g with vault := vault }
          (g.work.stage (ceremonyRecordRel o.transcript.keyId) (.record o.transcript))
          ((g.work.stage (ceremonyRecordRel o.transcript.keyId) (.record o.transcript)).stage
            sharedSubtreesRel (.membership (rekey o ⟨g.rows⟩)))
          (.sharedRekey o.transcript.chainId old o.transcript.keyId o.transcript.memberIds
            o.transcript.keyId) (f.commit ≠ some .before) res g' := by
  unfold rotateSharedKey at h
  rcases Fallible.ofExcept_bind_cases h with ⟨e, -, rfl, rfl⟩ | ⟨_, houtcome, h⟩
  · exact .inl ⟨e, rfl, rfl⟩
  rcases Fallible.ofExcept_bind_cases h with ⟨e, -, rfl, rfl⟩ | ⟨_, hunlocked, h⟩
  · exact .inl ⟨e, rfl, rfl⟩
  rcases Fallible.bind_cases h with ⟨e, hmember, rfl⟩ | ⟨_, mid, hmember, h⟩ <;>
    obtain ⟨hself, rfl⟩ := Prod.mk.inj hmember
  · exact .inl ⟨e, rfl, rfl⟩
  rcases Fallible.bind_cases h with ⟨e, hread, rfl⟩ | ⟨membership, mid, hread, h⟩ <;>
    obtain ⟨rfl, hread⟩ := readCommittedSharedSubtrees_cases hread
  · exact .inl ⟨e, rfl, rfl⟩
  obtain ⟨hreads, rfl⟩ : f.readMembership = false ∧ membership = ⟨mid.rows⟩ := by
    rcases hread with ⟨e, he⟩ | ⟨hreads, he⟩ <;> cases he
    exact ⟨hreads, rfl⟩
  rcases Fallible.ofExcept_bind_cases h with ⟨e, -, rfl, rfl⟩ | ⟨⟨row, old⟩, hlive, h⟩
  · exact .inl ⟨e, rfl, rfl⟩
  rcases Fallible.bind_cases h with ⟨e, hstore, rfl⟩ | ⟨_, mid', hstore, h⟩ <;>
    rcases storeSharedKey_cases hstore with ⟨e', he, rfl⟩ | ⟨vault, hok, rfl, hstored, -⟩
  · exact .inl ⟨e, rfl, rfl⟩
  · cases hok
  · cases he
  right
  refine ⟨vault, row, old, houtcome, requireUnlocked_ok hunlocked, ?_, hreads, hlive, hstored, ?_⟩
  · exact not_not.mp (refuseIf_eq_ok.mp hself)
  rcases Fallible.bind_cases h with ⟨e, hread', rfl⟩ | ⟨membership, mid', hread', h⟩ <;>
    obtain ⟨rfl, hgot⟩ := readCommittedSharedSubtrees_cases hread'
  · exact .cut (.inl rfl)
  obtain rfl : membership = ⟨mid.rows⟩ := by
    rcases hgot with ⟨e, he⟩ | ⟨-, he⟩ <;> cases he
    rfl
  rcases Fallible.bind_cases h with ⟨e, hrecord, rfl⟩ | ⟨_, mid', hrecord, h⟩ <;>
    rcases writeFile_cases hrecord with ⟨e', he, rfl⟩ | ⟨hok, -, rfl⟩
  · exact .cut (.inl rfl)
  · cases hok
  · cases he
  rcases Fallible.bind_cases h with ⟨e, hmembership, rfl⟩ | ⟨_, mid', hmembership, h⟩ <;>
    rcases writeFile_cases hmembership with ⟨e', he, rfl⟩ | ⟨hok, -, rfl⟩
  · exact .cut (.inr (.inl rfl))
  · cases hok
  · cases he
  rcases Fallible.bind_cases h with ⟨e, hcommit, rfl⟩ | ⟨hash, mid', hcommit, h⟩
  · exact commitNow_ended (g := { mid with vault := vault }) hcommit
  have hended : Ended { mid with vault := vault }
      (mid.work.stage (ceremonyRecordRel o.transcript.keyId) (.record o.transcript)) _ _ _ _ mid' :=
    commitNow_ended hcommit
  obtain ⟨chains, hgarden⟩ := reencryptSharedChain_garden (g := mid') f.reencrypt row.refName
    o.transcript.keyId
  cases hended with
  | landed hreached =>
    rcases Fallible.bind_cases h with ⟨e, hseal, rfl⟩ | ⟨_, mid', hseal, h⟩ <;>
      rw [hseal] at hgarden
    · rw [show g' = _ from hgarden]
      exact .late hreached
    · obtain ⟨rfl, rfl⟩ := Prod.mk.inj h
      rw [show mid' = _ from hgarden]
      exact .landed hreached

end

end Softfig.KeyCeremony
