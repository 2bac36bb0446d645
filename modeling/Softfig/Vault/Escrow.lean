import Mathlib.Data.List.AList
import Softfig.Fleet.ModelChoice
import Softfig.Growlight.Bus
import Softfig.Lib.Base64
import Softfig.Vault.Storage

/-!
The escrow bundle and what is checked of it without a passphrase.

A bundle carries the key files of a vault inline, each with its length and its digest. The check
reports everything it finds wrong: rows that repeat a name, have an unknown one, or do not hold
what they declare, and members that a restore would miss.

- `findings_eq_nil_iff`: a bundle without findings is an intact one, and the other way round.
-/

namespace Softfig.Vault

open Softfig.Lib Softfig.Lib.Slicing
open Softfig.Doc (Text)
open Softfig.Fleet (stripSuffix stripSuffix_eq_some)
open Softfig.Growlight (parseU32 parseU32_toDigits)

namespace Escrow

/-! ### Names -/

def paramsFile : Text := "params.toml".toList

def activeFile : Text := "active.toml".toList

def recoveryPolicyFile : Text := "recovery.toml".toList

def kekSelfFile : Text := "k.self".toList

def kekRecoveryFile : Text := "k.recovery".toList

def identityFile : Text := "identity.key".toList

def transportFile : Text := "transport.key".toList

def masterDir : Text := "master".toList

def sharedKeysDir : Text := "shared-keys".toList

def peerKeksDir : Text := "peer-keks".toList

def keyExtension : Text := ".key".toList

/-- The names that are the same in every vault, in the order of the bundle. -/
def fixedNames : List Text :=
  [paramsFile, activeFile, recoveryPolicyFile, kekSelfFile, kekRecoveryFile, identityFile,
    transportFile]

/-- The name of a file in a directory of the vault. -/
def within (dir file : Text) : Text := dir ++ '/' :: file

def masterFile (id : Nat) : Text := Nat.toDigits 10 id ++ keyExtension

def masterMemberName (id : Nat) : Text := within masterDir (masterFile id)

/-- The directory component of a member name, if it has exactly one. -/
def memberDir (name : Text) : Option Text :=
  match splitOnce '/' name with
  | none => none
  | some (dir, rest) => if '/' ∈ rest then none else some dir

/-- The generation a file name gives. -/
def generationOf (file : Text) : Option Nat := (stripSuffix keyExtension file).bind parseU32

/-- The generation id of a `master/<id>.key` member. -/
def masterGeneration (name : Text) : Option Nat :=
  match splitOnce '/' name with
  | none => none
  | some (dir, file) =>
    if dir ≠ masterDir ∨ '/' ∈ file then none else generationOf file

/-- The stem of a key file: not empty, `.` or `..`. -/
def isKeyFile (file : Text) : Bool :=
  match stripSuffix keyExtension file with
  | none => false
  | some stem => stem ≠ [] && stem ≠ ['.'] && stem ≠ ['.', '.']

/-- The part of a name after its last `/`. -/
def lastPart (name : Text) : Option Text :=
  (splitOnce '/' name.reverse).map fun parts => parts.1.reverse

/-- Is this a member name an export would ever write? -/
def memberNameIsKnown (name : Text) : Bool :=
  if name ∈ fixedNames then true
  else
    match memberDir name with
    | none => false
    | some dir =>
      if dir = masterDir then (masterGeneration name).isSome
      else if dir = sharedKeysDir ∨ dir = peerKeksDir then
        ((lastPart name).map isKeyFile).getD false
      else false

/-! ### The bundle -/

/-- One file of the vault, carried whole. -/
structure Member where
  /-- Path relative to the vault directory. -/
  name : Text
  /-- Permission bits in octal. -/
  mode : Text
  size : Nat
  /-- The digest of the decoded bytes, in hex. -/
  blake3 : String
  /-- The file in base64, byte by byte. -/
  data : Bytes
  deriving DecidableEq

structure EscrowBundle where
  formatVersion : UInt32
  gardenId : String
  policy : String
  policySource : String
  policyNote : String
  memberCount : Nat
  members : List Member
  deriving DecidableEq

def EscrowBundle.names (b : EscrowBundle) : List Text := b.members.map Member.name

inductive Finding where
  | corrupt (name : Text) (expected actual : String)
  | undecodable (name : Text) (reason : String)
  | sizeMismatch (name : Text) (declared actual : Nat)
  | unknown (name : Text)
  | duplicate (name : Text)
  | countMismatch (declared actual : Nat)
  | missing (name : Text) (why : String)
  | unreadable (name : Text) (reason : String)
  | missingDoor (path location : String)
  | policyUnreadable (policy reason : String)
  deriving DecidableEq

structure IntegrityReport where
  formatVersion : UInt32
  gardenId : String
  policy : String
  policySource : String
  policyNote : String
  members : List Text
  keyMaterialBytes : Nat
  /-- The digest of the `k.self` carried, empty where there is none. -/
  selfBlake3 : String
  undeclaredDoors : List String
  findings : List Finding

/-! ### The check -/

/-- What has been read of the rows. -/
structure Scan where
  seen : List Text
  decoded : AList fun _ : Text => Bytes
  keyMaterialBytes : Nat
  findings : List Finding

def Scan.empty : Scan := ⟨[], ∅, 0, []⟩

/-- Where a door lives inside the vault directory. -/
def location : RecoveryPath → Text
  | .passphrase => kekSelfFile
  | .phrase => kekRecoveryFile
  | .peers => peerKeksDir

def doorIsCarried (names : List Text) : RecoveryPath → Bool
  | .passphrase => kekSelfFile ∈ names
  | .phrase => kekRecoveryFile ∈ names
  | .peers => names.any fun name => memberDir name = some peerKeksDir

section

variable (c : Crates) (f : Formats) (decodeError : Bytes → String)

/-- The member's real bytes, or how the error prints; the base64 crate words its own part. -/
def Member.decoded (m : Member) : Except String Bytes :=
  match Base64.decode m.data with
  | some bytes => .ok bytes
  | none =>
    .error ("malformed escrow bundle: member '" ++ String.ofList m.name ++ "': " ++
      decodeError m.data)

def sizeFindings (m : Member) (bytes : Bytes) : List Finding :=
  if bytes.length ≠ m.size then [.sizeMismatch m.name m.size bytes.length] else []

def digestFindings (m : Member) (bytes : Bytes) : List Finding :=
  if (c.blake3 bytes).toHex ≠ m.blake3 then
    [.corrupt m.name m.blake3 (c.blake3 bytes).toHex]
  else []

/-- One row: a repeated, unknown or undecodable one is reported and not read further. -/
def checkMember (s : Scan) (m : Member) : Scan :=
  if m.name ∈ s.seen then { s with findings := s.findings ++ [.duplicate m.name] }
  else if memberNameIsKnown m.name = false then
    { s with seen := m.name :: s.seen, findings := s.findings ++ [.unknown m.name] }
  else
    match m.decoded decodeError with
    | .error reason =>
      { s with
        seen := m.name :: s.seen
        findings := s.findings ++ [.undecodable m.name reason] }
    | .ok bytes =>
      { seen := m.name :: s.seen
        decoded := s.decoded.insert m.name bytes
        keyMaterialBytes := s.keyMaterialBytes + bytes.length
        findings := s.findings ++ (sizeFindings m bytes ++ digestFindings c m bytes) }

def scan (members : List Member) : Scan := members.foldl (checkMember c decodeError) .empty

def countFindings (b : EscrowBundle) : List Finding :=
  if b.memberCount ≠ b.members.length then [.countMismatch b.memberCount b.members.length] else []

/-- The members nothing can be done without. -/
def required : List (Text × String) :=
  [(paramsFile, "the Argon2 cost the passphrase must be stretched by"),
    (activeFile, "the pointer naming which master generation is current")]

def missingFindings (decoded : AList fun _ : Text => Bytes) : List Finding :=
  required.filterMap fun (name, why) => if name ∈ decoded then none else some (.missing name why)

/-- The active generation has to ride along. -/
def activeFindings (decoded : AList fun _ : Text => Bytes) : List Finding :=
  match decoded.lookup activeFile with
  | none => []
  | some bytes =>
    match f.active.parse bytes with
    | .error reason => [.unreadable activeFile reason]
    | .ok active =>
      let name := masterMemberName active.masterKeyId.toNat
      if name ∈ decoded then [] else [.missing name "the master key the active pointer names"]

/-- Every door the policy claims has to be here. -/
def doorFindings (policy : String) (names : List Text) : List Finding :=
  match RecoveryPolicy.parse policy with
  | .error token => [.policyUnreadable policy (parsePolicyError token)]
  | .ok doors =>
    RecoveryPath.all.filterMap fun path =>
      if path ∈ doors ∧ doorIsCarried names path = false then
        some (.missingDoor path.token (String.ofList (location path)))
      else none

/-- The doors that are here and that the policy does not mention. -/
def undeclaredDoors (policy : String) (names : List Text) : List String :=
  match RecoveryPolicy.parse policy with
  | .error _ => []
  | .ok doors =>
    (RecoveryPath.all.filter fun path => path ∉ doors ∧ doorIsCarried names path = true).map
      RecoveryPath.token

def checkIntegrity (b : EscrowBundle) : IntegrityReport :=
  let s := scan c decodeError b.members
  { formatVersion := b.formatVersion
    gardenId := b.gardenId
    policy := b.policy
    policySource := b.policySource
    policyNote := b.policyNote
    members := b.names
    keyMaterialBytes := s.keyMaterialBytes
    selfBlake3 := ((s.decoded.lookup kekSelfFile).map fun bytes => (c.blake3 bytes).toHex).getD ""
    undeclaredDoors := undeclaredDoors b.policy s.decoded.keys
    findings :=
      s.findings ++ (countFindings b ++ (missingFindings s.decoded ++
        (activeFindings f s.decoded ++ doorFindings b.policy s.decoded.keys))) }

def IntegrityReport.isIntact (r : IntegrityReport) : Bool := r.findings.isEmpty

end

/-! ### Intact bundles -/

section

variable (c : Crates) (f : Formats)

/-- A row of a known name that holds what it declares. -/
structure Member.Sound (m : Member) : Prop where
  known : memberNameIsKnown m.name = true
  holds : ∃ bytes, Base64.decode m.data = some bytes ∧ bytes.length = m.size ∧
    (c.blake3 bytes).toHex = m.blake3

/-- Nothing is missing that a restore needs: the parameters, the pointer and the generation it
names, and every door of the policy. -/
structure Complete (b : EscrowBundle) : Prop where
  params : paramsFile ∈ b.names
  active : ∃ m ∈ b.members, m.name = activeFile ∧ ∃ bytes key,
    Base64.decode m.data = some bytes ∧ f.active.parse bytes = .ok key ∧
      masterMemberName key.masterKeyId.toNat ∈ b.names
  doors : ∃ doors, RecoveryPolicy.parse b.policy = .ok doors ∧
    ∀ path ∈ doors, doorIsCarried b.names path = true

structure Intact (b : EscrowBundle) : Prop where
  distinct : b.names.Nodup
  sound : ∀ m ∈ b.members, m.Sound c
  count : b.memberCount = b.members.length
  complete : Complete f b

end

/-! ### Reading the rows -/

section

variable {c : Crates} {f : Formats} {decodeError : Bytes → String}

theorem Member.decoded_eq_ok {m : Member} {bytes : Bytes} :
    m.decoded decodeError = .ok bytes ↔ Base64.decode m.data = some bytes := by
  unfold Member.decoded
  cases Base64.decode m.data <;> simp

theorem sizeFindings_eq_nil {m : Member} {bytes : Bytes} :
    sizeFindings m bytes = [] ↔ bytes.length = m.size := by
  unfold sizeFindings
  split <;> simp_all

theorem digestFindings_eq_nil {m : Member} {bytes : Bytes} :
    digestFindings c m bytes = [] ↔ (c.blake3 bytes).toHex = m.blake3 := by
  unfold digestFindings
  split <;> simp_all

theorem mem_seen_checkMember {s : Scan} {m : Member} {name : Text} :
    name ∈ (checkMember c decodeError s m).seen ↔ name = m.name ∨ name ∈ s.seen := by
  unfold checkMember
  split
  · rename_i hseen
    constructor
    · exact Or.inr
    · rintro (rfl | h)
      · exact hseen
      · exact h
  · split
    · exact List.mem_cons
    · cases m.decoded decodeError <;> exact List.mem_cons

/-- **A row adds no finding exactly when its name is new and the row is sound.** -/
theorem checkMember_findings_eq_nil {s : Scan} {m : Member} :
    (checkMember c decodeError s m).findings = [] ↔
      s.findings = [] ∧ m.name ∉ s.seen ∧ m.Sound c := by
  unfold checkMember
  split
  · rename_i hseen
    simp [hseen]
  · rename_i hfresh
    split
    · rename_i hunknown
      simp only [List.append_eq_nil_iff, List.cons_ne_self, and_false, false_iff, not_and]
      intro _ _ hsound
      rw [hsound.known] at hunknown
      cases hunknown
    · rename_i hknown
      cases hdecoded : m.decoded decodeError with
      | error reason =>
        simp only [List.append_eq_nil_iff, List.cons_ne_self, and_false, false_iff, not_and]
        intro _ _ hsound
        obtain ⟨bytes, hbytes, -⟩ := hsound.holds
        rw [Member.decoded_eq_ok.mpr hbytes] at hdecoded
        cases hdecoded
      | ok bytes =>
        have hbytes := Member.decoded_eq_ok.mp hdecoded
        simp only [List.append_eq_nil_iff, sizeFindings_eq_nil, digestFindings_eq_nil]
        constructor
        · rintro ⟨hs, hsize, hdigest⟩
          exact ⟨hs, hfresh, by simpa using hknown, bytes, hbytes, hsize, hdigest⟩
        · rintro ⟨hs, -, hsound⟩
          obtain ⟨bytes', hbytes', hsize, hdigest⟩ := hsound.holds
          obtain rfl : bytes = bytes' := Option.some.inj (hbytes.symm.trans hbytes')
          exact ⟨hs, hsize, hdigest⟩

theorem checkMember_decoded {s : Scan} {m : Member} {bytes : Bytes} (hfresh : m.name ∉ s.seen)
    (hsound : m.Sound c) (hbytes : Base64.decode m.data = some bytes) :
    (checkMember c decodeError s m).decoded = s.decoded.insert m.name bytes := by
  rw [checkMember, if_neg hfresh, if_neg (by simp [hsound.known]),
    Member.decoded_eq_ok.mpr hbytes]

/-- **The rows add no finding exactly when their names are new and distinct and every row is
sound.** -/
theorem foldl_findings_eq_nil {members : List Member} {s : Scan} :
    (members.foldl (checkMember c decodeError) s).findings = [] ↔
      s.findings = [] ∧ (∀ m ∈ members, m.name ∉ s.seen ∧ m.Sound c) ∧
        (members.map Member.name).Nodup := by
  induction members generalizing s with
  | nil => simp
  | cons m members ih =>
    rw [List.foldl_cons, ih, checkMember_findings_eq_nil, List.map_cons, List.nodup_cons]
    simp only [mem_seen_checkMember, List.forall_mem_cons, not_or]
    constructor
    · rintro ⟨⟨hs, hfresh, hsound⟩, hrest, hnodup⟩
      refine ⟨hs, ⟨⟨hfresh, hsound⟩, fun m' hm' => ⟨(hrest m' hm').1.2, (hrest m' hm').2⟩⟩, ?_,
        hnodup⟩
      intro hmem
      obtain ⟨m', hm', hname⟩ := List.mem_map.mp hmem
      exact (hrest m' hm').1.1 hname
    · rintro ⟨hs, ⟨⟨hfresh, hsound⟩, hrest⟩, hnew, hnodup⟩
      refine ⟨⟨hs, hfresh, hsound⟩,
        fun m' hm' => ⟨⟨?_, (hrest m' hm').1⟩, (hrest m' hm').2⟩, hnodup⟩
      intro hname
      exact hnew (List.mem_map.mpr ⟨m', hm', hname⟩)

/-- **The rows of such a list are decoded as they are.** -/
theorem foldl_decoded_eq_some {members : List Member} {s : Scan}
    (hkeys : ∀ name ∈ s.decoded, name ∈ s.seen)
    (hrows : ∀ m ∈ members, m.name ∉ s.seen ∧ m.Sound c) (hnodup : (members.map Member.name).Nodup)
    {name : Text} {bytes : Bytes} :
    (members.foldl (checkMember c decodeError) s).decoded.lookup name = some bytes ↔
      s.decoded.lookup name = some bytes ∨
        ∃ m ∈ members, m.name = name ∧ Base64.decode m.data = some bytes := by
  induction members generalizing s with
  | nil => simp
  | cons m members ih =>
    obtain ⟨hfresh, hsound⟩ := hrows m List.mem_cons_self
    obtain ⟨hnew, hrest⟩ := List.nodup_cons.mp (List.map_cons ▸ hnodup)
    obtain ⟨content, hcontent, -⟩ := hsound.holds
    have hdecoded : (checkMember c decodeError s m).decoded = s.decoded.insert m.name content :=
      checkMember_decoded hfresh hsound hcontent
    rw [List.foldl_cons, ih ?_ ?_ hrest, hdecoded]
    · simp only [List.exists_mem_cons_iff, ← or_assoc]
      refine or_congr_left ?_
      by_cases hname : name = m.name
      · subst hname
        have hnone : s.decoded.lookup m.name = none :=
          AList.lookup_eq_none.mpr fun hmem => hfresh (hkeys _ hmem)
        simp [hnone, hcontent]
      · rw [AList.lookup_insert_ne hname]
        simp [Ne.symm hname]
    · intro name' hmem
      rw [hdecoded, AList.mem_insert] at hmem
      exact mem_seen_checkMember.mpr (hmem.imp_right (hkeys _))
    · intro m' hm'
      obtain ⟨hfresh', hsound'⟩ := hrows m' (List.mem_cons_of_mem _ hm')
      refine ⟨fun hmem => ?_, hsound'⟩
      rcases mem_seen_checkMember.mp hmem with hname | hseen
      · exact hnew (hname ▸ List.mem_map_of_mem hm')
      · exact hfresh' hseen

theorem scan_decoded_eq_some {members : List Member} (hsound : ∀ m ∈ members, m.Sound c)
    (hnodup : (members.map Member.name).Nodup) {name : Text} {bytes : Bytes} :
    (scan c decodeError members).decoded.lookup name = some bytes ↔
      ∃ m ∈ members, m.name = name ∧ Base64.decode m.data = some bytes := by
  rw [scan, foldl_decoded_eq_some _ _ hnodup]
  · simp [Scan.empty]
  · intro name hmem
    exact absurd hmem (AList.notMem_empty name)
  · intro m hm
    exact ⟨List.not_mem_nil, hsound m hm⟩

theorem mem_scan_decoded {members : List Member} (hsound : ∀ m ∈ members, m.Sound c)
    (hnodup : (members.map Member.name).Nodup) {name : Text} :
    name ∈ (scan c decodeError members).decoded ↔ name ∈ members.map Member.name := by
  rw [← AList.lookup_isSome, Option.isSome_iff_exists]
  simp only [scan_decoded_eq_some hsound hnodup]
  constructor
  · rintro ⟨bytes, m, hm, rfl, -⟩
    exact List.mem_map_of_mem hm
  · intro hname
    obtain ⟨m, hm, rfl⟩ := List.mem_map.mp hname
    obtain ⟨bytes, hbytes, -⟩ := (hsound m hm).holds
    exact ⟨bytes, m, hm, rfl, hbytes⟩

/-! ### What integrity needs -/

theorem doorIsCarried_congr {names names' : List Text} (h : ∀ name, name ∈ names ↔ name ∈ names')
    (path : RecoveryPath) : doorIsCarried names path = doorIsCarried names' path := by
  cases path with
  | passphrase => simp only [doorIsCarried, h]
  | phrase => simp only [doorIsCarried, h]
  | peers =>
    apply Bool.eq_iff_iff.mpr
    simp only [doorIsCarried, List.any_eq_true, h]

theorem missingFindings_eq_nil {decoded : AList fun _ : Text => Bytes} :
    missingFindings decoded = [] ↔ paramsFile ∈ decoded ∧ activeFile ∈ decoded := by
  rw [missingFindings, List.filterMap_eq_nil_iff]
  simp [required]

theorem activeFindings_eq_nil {decoded : AList fun _ : Text => Bytes}
    (hactive : activeFile ∈ decoded) :
    activeFindings f decoded = [] ↔
      ∃ bytes key, decoded.lookup activeFile = some bytes ∧ f.active.parse bytes = .ok key ∧
        masterMemberName key.masterKeyId.toNat ∈ decoded := by
  obtain ⟨bytes, hbytes⟩ := Option.isSome_iff_exists.mp (AList.lookup_isSome.mpr hactive)
  simp only [activeFindings, hbytes, Option.some.injEq, exists_eq_left', exists_and_left]
  cases f.active.parse bytes with
  | error reason => simp
  | ok key => simp

theorem doorFindings_eq_nil {policy : String} {names : List Text} :
    doorFindings policy names = [] ↔
      ∃ doors, RecoveryPolicy.parse policy = .ok doors ∧
        ∀ path ∈ doors, doorIsCarried names path = true := by
  unfold doorFindings
  cases RecoveryPolicy.parse policy with
  | error token => simp
  | ok doors => simp [List.filterMap_eq_nil_iff]

theorem countFindings_eq_nil {b : EscrowBundle} :
    countFindings b = [] ↔ b.memberCount = b.members.length := by
  unfold countFindings
  split <;> simp_all

/-- **The check reports nothing exactly when the bundle is intact.** -/
theorem findings_eq_nil_iff {b : EscrowBundle} :
    (checkIntegrity c f decodeError b).findings = [] ↔ Intact c f b := by
  have hrows : (scan c decodeError b.members).findings = [] ↔
      (∀ m ∈ b.members, m.Sound c) ∧ b.names.Nodup := by
    rw [scan, foldl_findings_eq_nil]
    simp [Scan.empty, EscrowBundle.names]
  simp only [checkIntegrity, List.append_eq_nil_iff]
  rw [hrows, countFindings_eq_nil, missingFindings_eq_nil, doorFindings_eq_nil]
  constructor
  · rintro ⟨⟨hsound, hnodup⟩, hcount, ⟨hparams, hactive⟩, hpointer, doors, hdoors, hcarried⟩
    have hmem {name : Text} : name ∈ (scan c decodeError b.members).decoded ↔ name ∈ b.names :=
      mem_scan_decoded hsound hnodup
    obtain ⟨bytes, key, hbytes, hkey, hmaster⟩ := (activeFindings_eq_nil hactive).mp hpointer
    obtain ⟨m, hm, hname, hdecode⟩ := (scan_decoded_eq_some hsound hnodup).mp hbytes
    refine ⟨hnodup, hsound, hcount, hmem.mp hparams, ?_, doors, hdoors, ?_⟩
    · exact ⟨m, hm, hname, bytes, key, hdecode, hkey, hmem.mp hmaster⟩
    · intro path hpath
      rw [← doorIsCarried_congr (fun name => hmem) path]
      exact hcarried path hpath
  · rintro ⟨hnodup, hsound, hcount, hparams, ⟨m, hm, hname, bytes, key, hdecode, hkey, hmaster⟩,
      doors, hdoors, hcarried⟩
    have hmem {name : Text} : name ∈ (scan c decodeError b.members).decoded ↔ name ∈ b.names :=
      mem_scan_decoded hsound hnodup
    have hactive : activeFile ∈ (scan c decodeError b.members).decoded :=
      hmem.mpr (hname ▸ List.mem_map_of_mem hm)
    refine ⟨⟨hsound, hnodup⟩, hcount, ⟨hmem.mpr hparams, hactive⟩, ?_, doors, hdoors, ?_⟩
    · exact (activeFindings_eq_nil hactive).mpr ⟨bytes, key,
        (scan_decoded_eq_some hsound hnodup).mpr ⟨m, hm, hname, hdecode⟩, hkey, hmem.mpr hmaster⟩
    · intro path hpath
      rw [doorIsCarried_congr (fun name => hmem) path]
      exact hcarried path hpath

end

end Escrow

end Softfig.Vault
