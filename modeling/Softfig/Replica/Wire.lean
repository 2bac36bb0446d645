import Softfig.Store.Objects
import Softfig.Vcs.Repo

/-!
The replication messages, and the checks made on one message alone.

Hashes, keys and signatures travel as byte strings of any length; a message is
read as a row only after its lengths and kinds were checked.

- `TreeData.answers`, `ObjectData.answers`, `CommitData.answers`: a reply is the
  one that was asked for;
- `commitDataToRow`, `msgToEntries`: a message as the row it stands for.
-/

namespace Softfig.Replica

open Softfig.Lib.Jcs (Json)
open Softfig.Store

/-! ### Messages -/

structure TipAnnounce where
  chainId : Bytes
  /-- Empty where the chain has no commits yet. -/
  tipHash : Bytes
  height : UInt64
  signature : Bytes
  deriving DecidableEq

structure CommitData where
  found : Bool
  hash : Bytes
  /-- Empty for the first commit. -/
  parent : Bytes
  rootTree : Bytes
  authorDevice : String
  authorPubkey : Bytes
  timestamp : Int
  intent : String
  payload : String
  masterKeyId : UInt32
  signature : Bytes
  deriving DecidableEq

structure TreeEntryMsg where
  name : String
  kind : String
  mode : UInt32
  target : Bytes
  deriving DecidableEq

structure TreeData where
  found : Bool
  hash : Bytes
  entries : List TreeEntryMsg
  deriving DecidableEq

structure ObjectData where
  found : Bool
  hash : Bytes
  payload : Bytes
  deriving DecidableEq

/-- What a sink sends. -/
inductive Request where
  | getTip
  | getCommit (hash : Hash)
  | getTree (hash : Hash)
  | getObject (hash : Hash)
  | replicaDone
  deriving DecidableEq

/-- What a sink receives; `other` is every frame it never asks for. -/
inductive Frame where
  | tipAnnounce (ann : TipAnnounce)
  | commitData (c : CommitData)
  | treeData (t : TreeData)
  | objectData (o : ObjectData)
  | other
  deriving DecidableEq

inductive NetError where
  | io
  | protocol (message : String)
  | store (e : StoreError)
  | json
  /-- Not an error of the code: a recursion of the model ran out of fuel. -/
  | unfinished
  deriving DecidableEq

/-! ### Lengths and kinds -/

def toHash32 (bytes : Bytes) : Except NetError Hash :=
  if bytes.length = 32 then .ok ⟨bytes⟩ else .error (.protocol "hash field is not 32 bytes")

def toSignature (bytes : Bytes) : Except NetError Bytes :=
  if bytes.length = 64 then .ok bytes else .error (.protocol "signature field is not 64 bytes")

/-- `parent_of`: no bytes stand for no parent. -/
def parentOf (parent : Bytes) : Except NetError (Option Hash) :=
  if parent = [] then .ok none
  else
    match toHash32 parent with
    | .ok p => .ok (some p)
    | .error e => .error e

/-- `TreeEntryKind::parse` -/
def parseKind (kind : String) : Option TreeEntryKind :=
  if kind = "blob" then some .blob
  else if kind = "tree" then some .tree
  else none

/-- What a tree entry names: the request that fetches it. -/
inductive Want where
  | tree (hash : Hash)
  | object (hash : Hash)
  deriving DecidableEq

def Want.hash : Want → Hash
  | .tree h => h
  | .object h => h

def Want.request : Want → Request
  | .tree h => .getTree h
  | .object h => .getObject h

/-- How the drive loops read an entry: its target, then its kind. -/
def TreeEntryMsg.want (entry : TreeEntryMsg) : Except NetError Want := do
  let target ← toHash32 entry.target
  match parseKind entry.kind with
  | some .tree => .ok (.tree target)
  | some .blob => .ok (.object target)
  | none => .error (.protocol "tree entry has unknown kind")

/-- How the sink reads an entry it stores: its kind, then its target. -/
def msgToEntry (m : TreeEntryMsg) : Except NetError TreeEntryRow := do
  match parseKind m.kind with
  | none => .error (.protocol "tree entry has unknown kind")
  | some kind =>
    let target ← toHash32 m.target
    .ok ⟨m.name, kind, m.mode, target⟩

def msgToEntries : List TreeEntryMsg → Except NetError (List TreeEntryRow)
  | [] => .ok []
  | m :: rest => do
    let entry ← msgToEntry m
    let entries ← msgToEntries rest
    .ok (entry :: entries)

def entryToMsg (e : TreeEntryRow) : TreeEntryMsg := ⟨e.name, e.kind.asStr, e.mode, e.target.bytes⟩

def commitRowToData (row : CommitRow) : CommitData where
  found := true
  hash := row.hash.bytes
  parent := (row.parent.map Hash.bytes).getD []
  rootTree := row.rootTree.bytes
  authorDevice := row.authorDevice
  authorPubkey := row.authorPubkey
  timestamp := row.timestamp
  intent := row.intent
  payload := row.payload
  masterKeyId := row.masterKeyId
  signature := row.signature

def commitDataToRow (c : CommitData) : Except NetError CommitRow := do
  let hash ← toHash32 c.hash
  let parent ← parentOf c.parent
  let rootTree ← toHash32 c.rootTree
  let authorPubkey ← toHash32 c.authorPubkey
  let signature ← toSignature c.signature
  .ok
    { hash, parent, rootTree
      authorDevice := c.authorDevice
      authorPubkey := authorPubkey.bytes
      timestamp := c.timestamp
      intent := c.intent
      payload := c.payload
      masterKeyId := c.masterKeyId
      signature }

/-! ### Replies -/

def CommitData.answers (c : CommitData) (hash : Hash) : Except NetError CommitData :=
  if c.found = false then .error (.protocol "source is missing a requested commit")
  else
    match toHash32 c.hash with
    | .error e => .error e
    | .ok declared =>
      if declared ≠ hash then .error (.protocol "commit_data hash does not match request")
      else .ok c

def TreeData.answers (t : TreeData) (hash : Hash) : Except NetError TreeData :=
  if t.found = false then .error (.protocol "source is missing a requested tree")
  else
    match toHash32 t.hash with
    | .error e => .error e
    | .ok declared =>
      if declared ≠ hash then .error (.protocol "tree_data hash does not match request")
      else .ok t

def ObjectData.answers (o : ObjectData) (hash : Hash) : Except NetError Bytes :=
  if o.found = false then .error (.protocol "source is missing a requested object")
  else
    match toHash32 o.hash with
    | .error e => .error e
    | .ok declared =>
      if declared ≠ hash then .error (.protocol "object_data hash does not match request")
      else .ok o.payload

/-! ### The signed announce -/

/-- The digest and the parser of the repository, and the transport's signature
check: `verify` of a key, a message and a signature. -/
structure NetPrimitives extends Vcs.Primitives where
  verify : Bytes → Bytes → Bytes → Bool

/-- `to_be_bytes` of a number of this many bytes. -/
def toBeBytes : Nat → Nat → Bytes
  | 0, _ => []
  | width + 1, n => toBeBytes width (n / 256) ++ [UInt8.ofNat n]

def tipannounceDomain : Bytes := utf8 "softfig/replica/tip-announce/v1"

/-- What the owner signs: variable lengths go before what they measure. -/
def tipannounceSigningBytes (chainId tipHash : Bytes) (height : UInt64) : Bytes :=
  tipannounceDomain ++ toBeBytes 4 chainId.length ++ chainId ++ toBeBytes 4 tipHash.length ++
    tipHash ++ toBeBytes 8 height.toNat

def verifyTipannounce (prims : NetPrimitives) (ownerPubkey : Bytes) (ann : TipAnnounce) : Bool :=
  prims.keyFromBytes ownerPubkey && decide (ann.signature.length = 64) &&
    prims.verify ownerPubkey (tipannounceSigningBytes ann.chainId ann.tipHash ann.height)
      ann.signature

/-! ### What the checks say -/

theorem toHash32_ok {bytes : Bytes} {h : Hash} (hok : toHash32 bytes = .ok h) :
    h = ⟨bytes⟩ ∧ bytes.length = 32 := by
  unfold toHash32 at hok
  split_ifs at hok with hlen
  cases hok
  exact ⟨rfl, hlen⟩

theorem toHash32_bytes {h : Hash} (hlen : h.bytes.length = 32) : toHash32 h.bytes = .ok h := by
  unfold toHash32
  rw [if_pos hlen]

theorem CommitData.answers_ok {c c' : CommitData} {hash : Hash} (h : c.answers hash = .ok c') :
    c' = c ∧ c.found = true ∧ toHash32 c.hash = .ok hash := by
  unfold CommitData.answers at h
  split_ifs at h with hfound
  split at h
  · cases h
  · rename_i declared hdecl
    split_ifs at h with hne
    cases h
    exact ⟨rfl, by simpa using hfound, by rw [hdecl, not_not.mp hne]⟩

theorem TreeData.answers_ok {t t' : TreeData} {hash : Hash} (h : t.answers hash = .ok t') :
    t' = t ∧ t.found = true ∧ toHash32 t.hash = .ok hash := by
  unfold TreeData.answers at h
  split_ifs at h with hfound
  split at h
  · cases h
  · rename_i declared hdecl
    split_ifs at h with hne
    cases h
    exact ⟨rfl, by simpa using hfound, by rw [hdecl, not_not.mp hne]⟩

/-- The two readings of an entry agree on what it names. -/
def TreeEntryRow.want (e : TreeEntryRow) : Want :=
  match e.kind with
  | .tree => .tree e.target
  | .blob => .object e.target

end Softfig.Replica
