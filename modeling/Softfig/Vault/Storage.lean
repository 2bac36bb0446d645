import Mathlib.Data.Finset.Basic
import Mathlib.Data.Finset.Powerset
import Mathlib.Data.Fintype.Powerset
import Mathlib.Data.List.Sort
import Mathlib.Logic.Equiv.List
import Mathlib.Tactic.DeriveEncodable
import Softfig.Lib.CrashDisk
import Softfig.Lib.Except
import Softfig.Queue.Garden
import Softfig.Vault.Kek

/-!
The files of the vault directory, and the readers and writers of the plaintext
ones: parameters, active pointer, declared recovery policy, escrow record.

- `RecoveryPolicy.parse_display`: a policy is read back from the text it is
  stored as;
- `loadDeclaredPolicy_store`: and so from the file that was just stored;
- `currentProof_some`: a current proof is a record of the `k.self` on disk.
-/

namespace Softfig.Vault

open Softfig.Lib
open Softfig.Store (Hash)
open Softfig.Queue (trim)

inductive VaultFile where
  /-- `params.toml`. -/
  | params
  /-- `active.toml`. -/
  | active
  /-- `k.self`. -/
  | kekSelf
  /-- `k.recovery`. -/
  | kekRecovery
  /-- `identity.key`. -/
  | identity
  /-- `transport.key`. -/
  | transport
  /-- `master/<id>.key`. -/
  | master (id : UInt32)
  /-- `recovery.toml`. -/
  | recoveryPolicy
  /-- `escrow-verified.toml`. -/
  | escrowRecord
  /-- `peer-keks/<peer-id>.key`. -/
  | peerKek (peerId : String)
  /-- `shared-keys/<key-id>.key`. -/
  | sharedKey (keyId : Bytes)
  deriving DecidableEq

abbrev VaultDir := Dir VaultFile UInt8

abbrev VaultDisk := Disk VaultFile UInt8

/-- What a verb of the vault does to the directory, and its result. -/
abbrev VaultM := Fallible VaultDisk VaultError

def fileExists (dir : VaultDir) (file : VaultFile) : Bool := (dir.lookup file).isSome

def readFile (dir : VaultDir) (file : VaultFile) : Except VaultError Bytes :=
  match dir.lookup file with
  | some bytes => .ok bytes
  | none => .error (.io "No such file or directory (os error 2)")

/-- `VaultPaths::exists`. -/
def initialized (dir : VaultDir) : Bool := fileExists dir .params

/-! ### Recovery policy -/

instance : Fintype RecoveryPath where
  elems := {.passphrase, .phrase, .peers}
  complete path := by cases path <;> decide

/-- A set of doors: the shape of a garden's recovery. -/
abbrev RecoveryPolicy := Finset RecoveryPath

def noneToken : String := "none"

def passphraseOnlyToken : String := "passphrase-only"

/-- The doors of a policy in canonical order. -/
def RecoveryPolicy.paths (policy : RecoveryPolicy) : List RecoveryPath :=
  RecoveryPath.all.filter fun path => decide (path ∈ policy)

def RecoveryPolicy.display (policy : RecoveryPolicy) : String :=
  if policy = ∅ then noneToken
  else if policy = {.passphrase} then passphraseOnlyToken
  else "+".intercalate (policy.paths.map RecoveryPath.token)

/-- The door a token names. -/
def pathOfToken (token : List Char) : Except String RecoveryPath :=
  match RecoveryPath.all.find? fun path => path.token.toList == token with
  | some path => .ok path
  | none => .error (String.ofList token)

/-- The policy a text names: the canonical form, a bare `passphrase`, or the tokens in any order.
The error is the token nothing is called. -/
def RecoveryPolicy.parse (s : String) : Except String RecoveryPolicy :=
  let trimmed := (trim s.toList).map Char.toLower
  if trimmed = noneToken.toList then .ok ∅
  else if trimmed = passphraseOnlyToken.toList then .ok {.passphrase}
  else do
    let paths ← (trimmed.splitOn '+').mapM fun raw => pathOfToken (trim raw)
    .ok paths.toFinset

/-- `ParsePolicyError`. -/
def parsePolicyError (token : String) : String :=
  "unrecognized recovery path \"" ++ token ++
    "\" (expected passphrase-only, passphrase, phrase, peers, or a '+'-joined combination)"

/-- **A policy is read back from its text.** -/
theorem RecoveryPolicy.parse_display (policy : RecoveryPolicy) :
    parse policy.display = .ok policy := by
  revert policy
  decide +kernel

/-- The content of `recovery.toml`. -/
structure RecoveryPolicyFile where
  formatVersion : UInt32
  policy : String
  deriving DecidableEq

def recoveryPolicyFormatVersion : UInt32 := 1

inductive DeclaredPolicy where
  | declared (policy : RecoveryPolicy)
  | undeclared
  | unreadable (reason : String)
  deriving DecidableEq

/-! ### Escrow record -/

/-- One proved bundle. -/
structure VerificationRecord where
  bundleBlake3 : String
  /-- The hash of the `k.self` the bundle carried. -/
  selfBlake3 : String
  gardenId : String
  policy : String
  memberCount : Nat
  outcome : String
  /-- Unix seconds. -/
  verifiedAt : Int
  deriving DecidableEq

/-- The content of `escrow-verified.toml`. -/
structure EscrowLog where
  formatVersion : UInt32
  entries : List VerificationRecord
  deriving DecidableEq

def EscrowLog.default : EscrowLog := ⟨0, []⟩

def escrowRecordFormatVersion : UInt32 := 1

def outcomeOpenable : String := "openable"

def maxVerificationRecords : Nat := 16

structure CurrentProof where
  record : Option VerificationRecord
  stale : Bool

/-- The first openable record of this `k.self`; `stale` when only others were passed. -/
def currentProofFrom (liveSelf : String) : List VerificationRecord → Bool → CurrentProof
  | [], stale => ⟨none, stale⟩
  | entry :: rest, stale =>
    if entry.outcome ≠ outcomeOpenable then currentProofFrom liveSelf rest stale
    else if entry.selfBlake3 = liveSelf then ⟨some entry, stale⟩
    else currentProofFrom liveSelf rest true

/-! ### TOML files -/

/-- The codecs of the four TOML files; a rendered escrow record starts with its banner. -/
structure Formats where
  params : TomlCodec VaultParams
  active : TomlCodec ActiveKey
  recoveryPolicy : TomlCodec RecoveryPolicyFile
  escrowLog : TomlCodec EscrowLog

/-- What is rendered is parsed back. -/
structure Formats.Lawful (f : Formats) : Prop where
  params : ∀ value, f.params.parse (f.params.render value) = .ok value
  active : ∀ value, f.active.parse (f.active.render value) = .ok value
  recoveryPolicy : ∀ value, f.recoveryPolicy.parse (f.recoveryPolicy.render value) = .ok value
  escrowLog : ∀ value, f.escrowLog.parse (f.escrowLog.render value) = .ok value

section

variable (c : Crates) (f : Formats)

/-- `toml::from_str` of a file's content. -/
def fromToml {α : Type} (codec : TomlCodec α) (bytes : Bytes) : Except VaultError α :=
  match codec.parse bytes with
  | .ok value => .ok value
  | .error e => .error (.tomlDe e)

def loadParams (dir : VaultDir) : Except VaultError VaultParams := do
  refuseIf (¬initialized dir) .notInitialized
  let params ← fromToml f.params (← readFile dir .params)
  refuseIf (params.formatVersion ≠ formatVersion) (.unsupportedFormat params.formatVersion)
  .ok params

def storeParams (params : VaultParams) : VaultM Unit :=
  Disk.write (.overwrite .params (f.params.render params))

def loadActive (dir : VaultDir) : Except VaultError ActiveKey := do
  fromToml f.active (← readFile dir .active)

def storeActive (active : ActiveKey) : VaultM Unit :=
  Disk.write (.overwrite .active (f.active.render active))

/-- Every generation with a file, in order. -/
def listMasterIds (dir : VaultDir) : List UInt32 :=
  (dir.keys.filterMap fun
    | .master id => some id
    | _ => none).insertionSort (· ≤ ·)

/-- Every peer with a wrapping. -/
def listPeerKekIds (dir : VaultDir) : List String :=
  (dir.keys.filterMap fun
    | .peerKek peerId => if peerId = "" then none else some peerId
    | _ => none).insertionSort (· ≤ ·)

/-- Every failure is a report of what could not be read. -/
def loadDeclaredPolicy (dir : VaultDir) : DeclaredPolicy :=
  match dir.lookup .recoveryPolicy with
  | none => .undeclared
  | some raw =>
    match f.recoveryPolicy.parse raw with
    | .error e => .unreadable ("malformed TOML: " ++ e)
    | .ok file =>
      if file.formatVersion ≠ recoveryPolicyFormatVersion then
        .unreadable ("format version " ++ toString file.formatVersion.toNat ++
          " is newer than this soft-fig understands (" ++
          toString recoveryPolicyFormatVersion.toNat ++ ")")
      else
        match RecoveryPolicy.parse file.policy with
        | .ok policy => .declared policy
        | .error token => .unreadable (parsePolicyError token)

def storeDeclaredPolicy (policy : RecoveryPolicy) : VaultM Unit :=
  Disk.write (.publish .recoveryPolicy
    (f.recoveryPolicy.render ⟨recoveryPolicyFormatVersion, policy.display⟩))

/-- An absent record is an empty log. -/
def readVerifications (dir : VaultDir) : Except VaultError EscrowLog := do
  match dir.lookup .escrowRecord with
  | none => .ok .default
  | some raw =>
    let log ← fromToml f.escrowLog raw
    refuseIf (log.formatVersion ≠ escrowRecordFormatVersion)
      (.escrowMalformed ("escrow record format version " ++ toString log.formatVersion.toNat ++
        " is not the version this soft-fig writes (" ++
        toString escrowRecordFormatVersion.toNat ++ ")"))
    .ok log

def currentSelfBlake3 (dir : VaultDir) : Except VaultError String := do
  .ok (c.blake3 (← readFile dir .kekSelf)).toHex

def currentProof (dir : VaultDir) : Except VaultError CurrentProof := do
  let liveSelf ← currentSelfBlake3 c dir
  let log ← readVerifications f dir
  .ok (currentProofFrom liveSelf log.entries false)

/-- Replace the row of this bundle, and keep the newest rows. -/
def recordVerification (entry : VerificationRecord) (now : Int) : VaultM VerificationRecord := do
  Disk.read fun dir => refuseIf (¬initialized dir) .notInitialized
  let log ← Disk.read (readVerifications f)
  let entry := { entry with verifiedAt := now }
  let entries := (log.entries.filter fun e => e.bundleBlake3 ≠ entry.bundleBlake3) ++ [entry]
  let entries := entries.insertionSort fun a b => a.verifiedAt ≤ b.verifiedAt
  let entries := entries.drop (entries.length - maxVerificationRecords)
  Disk.write (.publish .escrowRecord
    (f.escrowLog.render ⟨escrowRecordFormatVersion, entries⟩))
  return entry

/-! ### Wrappings on disk -/

structure Wrappings where
  passphrase : Bool
  phrase : Bool
  peers : List String

/-- Which doors are there; nothing is opened. -/
def Wrappings.read (dir : VaultDir) : Wrappings where
  passphrase := fileExists dir .kekSelf
  phrase := fileExists dir .kekRecovery
  peers := listPeerKekIds dir

def Wrappings.contains (w : Wrappings) : RecoveryPath → Bool
  | .passphrase => w.passphrase
  | .phrase => w.phrase
  | .peers => !w.peers.isEmpty

end

/-! ### What the readers find -/

variable {c : Crates} {f : Formats}

theorem readFile_eq_ok {dir : VaultDir} {file : VaultFile} {bytes : Bytes} :
    readFile dir file = .ok bytes ↔ dir.lookup file = some bytes := by
  unfold readFile
  cases dir.lookup file <;> simp

theorem currentProofFrom_some {liveSelf : String} {entries : List VerificationRecord} {stale : Bool}
    {record : VerificationRecord}
    (h : (currentProofFrom liveSelf entries stale).record = some record) :
    record ∈ entries ∧ record.outcome = outcomeOpenable ∧ record.selfBlake3 = liveSelf := by
  induction entries generalizing stale with
  | nil => cases h
  | cons entry rest ih =>
    unfold currentProofFrom at h
    split at h
    · obtain ⟨hmem, hrest⟩ := ih h
      exact ⟨List.mem_cons_of_mem _ hmem, hrest⟩
    · rename_i houtcome
      split at h
      · rename_i hself
        cases h
        exact ⟨List.mem_cons_self, not_not.mp houtcome, hself⟩
      · obtain ⟨hmem, hrest⟩ := ih h
        exact ⟨List.mem_cons_of_mem _ hmem, hrest⟩

/-- **A current proof is an openable record of the `k.self` on disk.** -/
theorem currentProof_some {dir : VaultDir} {proof : CurrentProof} {record : VerificationRecord}
    (h : currentProof c f dir = .ok proof) (hrecord : proof.record = some record) :
    ∃ log kekSelf, readVerifications f dir = .ok log ∧ dir.lookup .kekSelf = some kekSelf ∧
      record ∈ log.entries ∧ record.outcome = outcomeOpenable ∧
      record.selfBlake3 = (c.blake3 kekSelf).toHex := by
  unfold currentProof currentSelfBlake3 at h
  obtain ⟨liveSelf, hself, h⟩ := bind_ok_iff.mp h
  obtain ⟨kekSelf, hread, hlive⟩ := bind_ok_iff.mp hself
  cases hlive
  obtain ⟨log, hlog, h⟩ := bind_ok_iff.mp h
  cases h
  obtain ⟨hmem, houtcome, hhash⟩ := currentProofFrom_some hrecord
  exact ⟨log, kekSelf, hlog, readFile_eq_ok.mp hread, hmem, houtcome, hhash⟩

/-- A stored policy is read back. -/
theorem loadDeclaredPolicy_store (hf : f.Lawful) (dir : VaultDir) (policy : RecoveryPolicy) :
    loadDeclaredPolicy f (dir.insert .recoveryPolicy
      (f.recoveryPolicy.render ⟨recoveryPolicyFormatVersion, policy.display⟩)) =
        .declared policy := by
  simp only [loadDeclaredPolicy, AList.lookup_insert, hf.recoveryPolicy, ne_eq, not_true_eq_false,
    ↓reduceIte, RecoveryPolicy.parse_display]

/-! ### An instance -/

/-- A value of a countable type as the unary code of its number. -/
def TomlCodec.unary (α : Type) [Encodable α] : TomlCodec α where
  render value := List.replicate (Encodable.encode value) 0x31
  parse bytes :=
    match Encodable.decode bytes.length with
    | some value => .ok value
    | none => .error "expected a value"

theorem TomlCodec.unary_parse {α : Type} [Encodable α] (value : α) :
    (unary α).parse ((unary α).render value) = .ok value := by
  simp [unary]

instance encodableUInt32 : Encodable UInt32 :=
  .ofLeftInverse UInt32.toNat UInt32.ofNat fun _ => UInt32.ofNat_toNat

instance encodableChar : Encodable Char := .ofLeftInverse Char.toNat Char.ofNat Char.ofNat_toNat

instance encodableString : Encodable String :=
  .ofLeftInverse String.toList String.ofList fun _ => String.ofList_toList

deriving instance Encodable for Argon2Params
deriving instance Encodable for VaultParams
deriving instance Encodable for ActiveKey
deriving instance Encodable for RecoveryPolicyFile
deriving instance Encodable for VerificationRecord
deriving instance Encodable for EscrowLog

def unaryFormats : Formats := ⟨.unary _, .unary _, .unary _, .unary _⟩

theorem unaryFormats_lawful : unaryFormats.Lawful :=
  ⟨TomlCodec.unary_parse, TomlCodec.unary_parse, TomlCodec.unary_parse, TomlCodec.unary_parse⟩

end Softfig.Vault
