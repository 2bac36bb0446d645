import Softfig.Store.Db

/-!
Canonical commit objects, their hash and their verification.

What is hashed and signed is the canonical text of an object that holds every
field of a commit but its hash and signature. The device chain leaves
`chain_id` out; a shared chain binds its ref name.

- `canonicalBytes_eq`: two commits with the same canonical bytes agree on every
  field, the payload up to its canonical form.
-/

namespace Softfig.Vcs

open Softfig.Lib.Jcs (Json Numeral Members jcs canon)
open Softfig.Store (Bytes Hash StoreError CommitBody CommitRow utf8 hexEncode)

/-- What the repository takes from elsewhere: the digest, the JSON parser and
the signature check. -/
structure Primitives where
  /-- `blake3::hash` -/
  hashOf : Bytes → Hash
  /-- `serde_json::from_str` -/
  fromStr : String → Option Json
  /-- whether `VerifyingKey::from_bytes` accepts the key -/
  keyFromBytes : Bytes → Bool
  /-- `verify_strict` of a key, a message and a signature -/
  verifyStrict : Bytes → Bytes → Bytes → Bool

inductive CoreError where
  | unknownIntent (name : String)
  | payloadNotObject (intent : String)
  | badSignature (hash : Hash)
  | commitHashMismatch (row derived : Hash)
  | treeHashMismatch (row derived : Hash)
  | store (e : StoreError)
  | vault (message : String)
  | json (message : String)
  | ed25519
  deriving DecidableEq

/-! ### Intents -/

/-- The closed list of intent names. -/
def knownIntents : List String :=
  ["init", "memory_edit", "manual_edit", "snapshot_refresh", "decision_logged",
    "incident_logged", "note_added", "note_revised", "code_review_added",
    "code_review_revised", "monolith_split", "index_reindexed", "section_added",
    "section_edited", "section_appended", "reviewed_stamped", "text_patched",
    "section_removed", "file_unlinked", "batch_applied", "archive_move", "project_added",
    "project_archived", "baton_logged", "backlog_item_added", "queue_added", "slice_added",
    "item_status_set", "backlog_item_reordered", "growlight_initialized",
    "growlight_resources_set", "chat_message_posted", "inbox_read", "report_filed",
    "report_updated", "config_migrated", "peers_changed", "shared_subtrees_changed",
    "shared_ceremony", "shared_rekey", "shared_pull", "migrate_into_share",
    "migrate_into_share_carve", "sync_conflict", "schema_change", "rollback", "vault_seal",
    "vault_reveal", "queue_v2_updated", "queue_v2_claimed", "queue_v2_status_set",
    "queue_v2_follow_ups_set", "queue_v2_session_logged", "queue_v2_deferred_set",
    "queue_v2_sub_added"]

/-- A known intent with an object payload. -/
structure Intent where
  name : String
  payload : Members
  known : name ∈ knownIntents

def Intent.new (name : String) (payload : Json) : Except CoreError Intent :=
  if known : name ∈ knownIntents then
    match payload with
    | .obj members => .ok ⟨name, members, known⟩
    | _ => .error (.payloadNotObject name)
  else .error (.unknownIntent name)

/-- The intent of a genesis commit. -/
def Intent.init (summary : String) : Intent :=
  ⟨"init", .ofList [("summary", .str summary)], by decide⟩

/-! ### Canonical form -/

/-- The fields a commit's hash is taken of. -/
structure CanonicalCommit where
  parent : Option Hash
  rootTree : Hash
  authorDevice : String
  authorPubkey : Bytes
  timestamp : Int
  intent : String
  payload : Json
  masterKeyId : UInt32
  chainId : Option String

namespace CanonicalCommit

def hashOrNull : Option Hash → Json
  | none => .null
  | some h => .str h.toHex

/-- The members of the canonical object; the device chain has no `chain_id`. -/
def members (c : CanonicalCommit) : List (String × Json) :=
  [("author_device", .str c.authorDevice),
    ("author_pubkey", .str (hexEncode c.authorPubkey)),
    ("intent", .str c.intent),
    ("master_key_id", .num (.ofNat c.masterKeyId.toNat)),
    ("parent", hashOrNull c.parent),
    ("payload", c.payload),
    ("root_tree", .str c.rootTree.toHex),
    ("timestamp", .num (.ofInt c.timestamp))] ++
  c.chainId.toList.map fun id => ("chain_id", .str id)

def toJson (c : CanonicalCommit) : Json := .object c.members

def canonicalBytes (c : CanonicalCommit) : Bytes := utf8 (jcs c.toJson)

def hash (prims : Primitives) (c : CanonicalCommit) : Hash := prims.hashOf c.canonicalBytes

/-- The canonical object a stored row stands for on a chain. -/
def ofRow (row : CommitBody) (payload : Json) (chainId : Option String) : CanonicalCommit where
  parent := row.parent
  rootTree := row.rootTree
  authorDevice := row.authorDevice
  authorPubkey := row.authorPubkey
  timestamp := row.timestamp
  intent := row.intent
  payload := payload
  masterKeyId := row.masterKeyId
  chainId := chainId

end CanonicalCommit

/-- Re-derive the hash and check the signature under the author's key. -/
def verifyCommit (prims : Primitives) (canon : CanonicalCommit) (declared : Hash)
    (signature : Bytes) : Except CoreError Unit :=
  let derived := canon.hash prims
  if derived ≠ declared then .error (.commitHashMismatch declared derived)
  else if prims.keyFromBytes canon.authorPubkey = false then .error .ed25519
  else if prims.verifyStrict canon.authorPubkey declared.bytes signature then .ok ()
  else .error (.badSignature declared)

theorem verifyCommit_ok_iff {prims : Primitives} {canon : CanonicalCommit} {declared : Hash}
    {signature : Bytes} :
    verifyCommit prims canon declared signature = .ok () ↔
      canon.hash prims = declared ∧ prims.keyFromBytes canon.authorPubkey = true ∧
        prims.verifyStrict canon.authorPubkey declared.bytes signature = true := by
  unfold verifyCommit
  by_cases hhash : canon.hash prims = declared
  · cases hkey : prims.keyFromBytes canon.authorPubkey <;>
      cases hsig : prims.verifyStrict canon.authorPubkey declared.bytes signature <;>
      simp [hhash]
  · simp [hhash]

/-! ### Canonical bytes determine the commit -/

namespace CanonicalCommit

theorem hashOrNull_injective {a b : Option Hash} (h : canon (hashOrNull a) = canon (hashOrNull b)) :
    a = b := by
  cases a <;> cases b <;> simp only [hashOrNull, canon, reduceCtorEq, Json.str.injEq] at h
  · rfl
  · rw [Hash.toHex_injective h]

theorem canon_eq_of_canonicalBytes_eq {c d : CanonicalCommit}
    (h : c.canonicalBytes = d.canonicalBytes) : canon c.toJson = canon d.toJson :=
  Softfig.Lib.Jcs.canon_eq_of_jcs_eq (Softfig.Store.utf8_injective h)

/-- **Canonical bytes bind every field** of a commit, its chain included; the
payload is bound up to its canonical form. -/
theorem canonicalBytes_eq {c d : CanonicalCommit} (h : c.canonicalBytes = d.canonicalBytes) :
    c.parent = d.parent ∧ c.rootTree = d.rootTree ∧ c.authorDevice = d.authorDevice ∧
      c.authorPubkey = d.authorPubkey ∧ c.timestamp = d.timestamp ∧ c.intent = d.intent ∧
      canon c.payload = canon d.payload ∧ c.masterKeyId = d.masterKeyId ∧
      c.chainId = d.chainId := by
  have hmember (k : String) :
      ((Members.ofList c.members).get? k).map canon = ((Members.ofList d.members).get? k).map canon :=
    Softfig.Lib.Jcs.canon_member_eq (canon_eq_of_canonicalBytes_eq h) k
  simp only [members, List.cons_append, List.nil_append, Members.ofList, Members.get?] at hmember
  have hdevice : canon (.str c.authorDevice) = canon (.str d.authorDevice) := by
    simpa using hmember "author_device"
  have hpubkey : canon (.str (hexEncode c.authorPubkey)) = canon (.str (hexEncode d.authorPubkey)) := by
    simpa using hmember "author_pubkey"
  have hintent : canon (.str c.intent) = canon (.str d.intent) := by
    simpa using hmember "intent"
  have hkey : canon (.num (.ofNat c.masterKeyId.toNat)) = canon (.num (.ofNat d.masterKeyId.toNat)) := by
    simpa using hmember "master_key_id"
  have hparent : canon (hashOrNull c.parent) = canon (hashOrNull d.parent) := by
    simpa using hmember "parent"
  have hpayload : canon c.payload = canon d.payload := by
    simpa using hmember "payload"
  have hroot : canon (.str c.rootTree.toHex) = canon (.str d.rootTree.toHex) := by
    simpa using hmember "root_tree"
  have htime : canon (.num (.ofInt c.timestamp)) = canon (.num (.ofInt d.timestamp)) := by
    simpa using hmember "timestamp"
  have hchain := hmember "chain_id"
  simp only [canon, Json.str.injEq, Json.num.injEq] at hdevice hpubkey hintent hkey hroot htime
  refine ⟨hashOrNull_injective hparent, Hash.toHex_injective hroot, hdevice,
    Softfig.Store.hexEncode_injective hpubkey, Numeral.ofInt_injective htime, hintent, hpayload,
    UInt32.toNat_inj.mp (Numeral.ofNat_injective hkey), ?_⟩
  cases hc : c.chainId <;> cases hd : d.chainId <;>
    simp [hc, hd, Members.ofList, Members.get?, canon] at hchain
  · rfl
  · rw [hchain]

end CanonicalCommit

end Softfig.Vcs
