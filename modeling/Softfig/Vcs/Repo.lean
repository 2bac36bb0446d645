import Softfig.Vcs.Tree

/-!
The repository's commit paths.

A commit call reads the tip of its ref, builds or is given a tree, and writes
in one transaction: the tree rows, the commit row, and the compare-and-swap of
the ref against the tip it read. A tree that equals the parent's is not
committed unless the policy asks for the record.

- `writeTx_cases`: all a write step can do, with the facts it checked;
- `authorCommitRow_ok`: the row a session authors, and what its hash binds.
-/

namespace Softfig.Vcs

open Softfig.Lib.Jcs (Json jcs)
open Softfig.Store

/-- The device chain's ref. -/
def tipRef : String := "tip"

inductive SameTreePolicy where
  | skip
  | record
  deriving DecidableEq

/-- The chain's tip after a call, and whether a commit was written. -/
structure CommitOutcome where
  hash : Hash
  committed : Bool
  deriving DecidableEq

/-- An unlocked vault on one device, as the commit paths use it. -/
structure Session where
  /-- `local_device_label` -/
  deviceLabel : String
  identityPubkey : Bytes
  activeMasterKeyId : UInt32
  sign : Bytes → Bytes
  encryptor : BlobEncryptor

/-- Database and object directory of one garden. -/
structure Store where
  db : Db
  objects : ObjectStore

def Store.empty : Store := ⟨.empty, ∅⟩

/-- A shared chain binds its ref name, the device chain nothing. -/
def chainIdOf (refName : String) : Option String :=
  if refName = tipRef then none else some refName

section

variable (prims : Primitives)

/-- Author the signed row of a commit over a known tree. -/
def authorCommitRow (session : Session) (refName : String) (parent : Option Hash)
    (rootTree : Hash) (intent : Intent) (timestamp : Int) : Except CoreError CommitRow :=
  let payload := jcs (.obj intent.payload)
  -- the row stores the canonical text; the hash is taken of what it parses to
  match prims.fromStr payload with
  | none => .error (.json payload)
  | some value =>
    let canon : CanonicalCommit :=
      { parent, rootTree, authorDevice := session.deviceLabel,
        authorPubkey := session.identityPubkey, timestamp, intent := intent.name,
        payload := value, masterKeyId := session.activeMasterKeyId,
        chainId := chainIdOf refName }
    let hash := canon.hash prims
    .ok
      { hash, parent, rootTree, authorDevice := session.deviceLabel,
        authorPubkey := session.identityPubkey, timestamp, intent := intent.name, payload,
        masterKeyId := session.activeMasterKeyId, signature := session.sign hash.bytes }

/-- Whether the parent already commits this tree. -/
def isSameTree (db : Db) (parent : Option Hash) (rootTree : Hash) : Except CoreError Bool :=
  match parent with
  | none => .ok false
  | some p =>
    match db.getCommit p with
    | .error e => .error (.store e)
    | .ok row => .ok (row.rootTree = rootTree)

/-- Tree rows, commit row and ref, written together or not at all. -/
def commitTx (trees : List (Hash × List TreeEntryRow)) (row : CommitRow) (refName : String)
    (parent : Option Hash) (db : Db) : Except StoreError (Db × Unit) :=
  match putCommit (putTrees db trees) row with
  | .error e => .error e
  | .ok db =>
    match setRefCas db refName parent row.hash with
    | .error e => .error e
    | .ok db => .ok (db, ())

/-- The parent, where the guard skips the write. A genesis commit has none and
is never the same tree. -/
def skippedTip (policy : SameTreePolicy) (db : Db) (parent : Option Hash) (rootTree : Hash) :
    Except CoreError (Option Hash) :=
  if policy = .skip then
    match isSameTree db parent rootTree with
    | .error e => .error e
    | .ok same => .ok (if same then parent else none)
  else .ok none

/-- What both commit writers do: the same-tree guard, then the transaction. -/
def writeTx (session : Session) (refName : String) (parent : Option Hash)
    (trees : List (Hash × List TreeEntryRow)) (rootTree : Hash) (intent : Intent)
    (timestamp : Int) (policy : SameTreePolicy) (db : Db) :
    Db × Except CoreError CommitOutcome :=
  match skippedTip policy db parent rootTree with
  | .error e => (db, .error e)
  | .ok (some p) => (db, .ok ⟨p, false⟩)
  | .ok none =>
    match authorCommitRow prims session refName parent rootTree intent timestamp with
    | .error e => (db, .error e)
    | .ok row =>
      match db.withTx (commitTx trees row refName parent) with
      | (db, .error e) => (db, .error (.store e))
      | (db, .ok ()) => (db, .ok ⟨row.hash, true⟩)

/-- The snapshot writer: the blueprint's tree rows go with the commit. -/
def writeCommitTx (session : Session) (refName : String) (parent : Option Hash)
    (blueprint : Blueprint) (intent : Intent) (timestamp : Int) (policy : SameTreePolicy)
    (db : Db) : Db × Except CoreError CommitOutcome :=
  writeTx prims session refName parent (blueprint.trees.entries.map fun t => (t.1, t.2))
    blueprint.root intent timestamp policy db

/-- The re-author writer: the tree is already stored, and always guarded. -/
def writeReauthorTx (session : Session) (refName : String) (parent : Option Hash)
    (rootTree : Hash) (intent : Intent) (timestamp : Int) (db : Db) :
    Db × Except CoreError CommitOutcome :=
  writeTx prims session refName parent [] rootTree intent timestamp .skip db

/-! ### Calls, in two steps -/

/-- What a commit call is asked to do. -/
inductive Request where
  /-- `commit_snapshot_to_with` -/
  | snapshot (snapshot : WalkSnapshot) (policy : SameTreePolicy)
  /-- `commit_over_tree_outcome` -/
  | overTree (rootTree : Hash)

/-- One commit call: whose session, which ref, what. -/
structure Call where
  session : Session
  refName : String
  intent : Intent
  request : Request

/-- The first step: read the tip. -/
def Call.readTip (call : Call) (store : Store) : Option Hash := store.db.tryGetRef call.refName

/-- The second step, over the tip read before: build and write. -/
def Call.write (call : Call) (parent : Option Hash) (now : Int) (store : Store) :
    Store × Except CoreError CommitOutcome :=
  match call.request with
  | .snapshot snapshot policy =>
    match buildWith prims.hashOf call.session.encryptor call.refName store.objects
        snapshot.root with
    | (objects, .error e) => ({ store with objects }, .error e)
    | (objects, .ok blueprint) =>
      let written := writeCommitTx prims call.session call.refName parent blueprint call.intent
        now policy store.db
      (⟨written.1, objects⟩, written.2)
  | .overTree rootTree =>
    let written := writeReauthorTx prims call.session call.refName parent rootTree call.intent
      now store.db
    ({ store with db := written.1 }, written.2)

/-- The root tree a call wants to commit, or the error its build stops with. -/
def Call.rootOf (call : Call) : Except CoreError Hash :=
  match call.request with
  | .snapshot snapshot _ =>
    rootHashOf prims.hashOf call.session.encryptor call.refName snapshot.root
  | .overTree rootTree => .ok rootTree

def Call.policy (call : Call) : SameTreePolicy :=
  match call.request with
  | .snapshot _ policy => policy
  | .overTree _ => .skip

/-- What the `tip_changed` subscriber is told: only a written commit, with the
overlay generation of its snapshot. -/
def Call.notified (call : Call) (result : Except CoreError CommitOutcome) :
    Option (String × Hash × Option Nat) :=
  match result with
  | .ok ⟨hash, true⟩ =>
    match call.request with
    | .snapshot snapshot _ => some (call.refName, hash, snapshot.overlayGeneration)
    | .overTree _ => some (call.refName, hash, none)
  | _ => none

/-- A whole call with nothing in between. -/
def Call.run (call : Call) (now : Int) (store : Store) : Store × Except CoreError CommitOutcome :=
  call.write prims (call.readTip store) now store

end

/-- `Repo::live_tips`: the tip of every ref in the store. -/
def liveTips (db : Db) : List Hash := db.listRefs.map Prod.snd

/-! ### What a write step does -/

section

variable {prims : Primitives}

theorem authorCommitRow_ok {session : Session} {refName : String} {parent : Option Hash}
    {rootTree : Hash} {intent : Intent} {timestamp : Int} {row : CommitRow}
    (h : authorCommitRow prims session refName parent rootTree intent timestamp = .ok row) :
    ∃ value, prims.fromStr row.payload = some value ∧
      row.hash = (CanonicalCommit.ofRow row.toCommitBody value (chainIdOf refName)).hash prims ∧
      row.parent = parent ∧ row.rootTree = rootTree ∧
      row.authorPubkey = session.identityPubkey ∧
      row.signature = session.sign row.hash.bytes := by
  simp only [authorCommitRow] at h
  split at h
  · cases h
  · rename_i value hvalue
    cases h
    exact ⟨value, hvalue, rfl, rfl, rfl, rfl, rfl⟩

theorem skippedTip_some {policy : SameTreePolicy} {db : Db} {parent : Option Hash}
    {rootTree p : Hash} (h : skippedTip policy db parent rootTree = .ok (some p)) :
    policy = .skip ∧ parent = some p ∧ ∃ row, db.getCommit p = .ok row ∧ row.rootTree = rootTree := by
  unfold skippedTip at h
  split_ifs at h with hpolicy
  · refine ⟨hpolicy, ?_⟩
    cases parent with
    | none => simp [isSameTree] at h
    | some q =>
      simp only [isSameTree] at h
      cases hrow : db.getCommit q with
      | error e => simp [hrow] at h
      | ok row =>
        by_cases htree : row.rootTree = rootTree
        · simp [hrow, htree] at h
          exact ⟨by rw [h], row, h ▸ hrow, htree⟩
        · simp [hrow, htree] at h
  · cases h

/-- A transaction that lands: the commit is new, its parent is stored, the ref
was at the parent, and nothing else moved. -/
theorem commitTx_ok {trees : List (Hash × List TreeEntryRow)} {row : CommitRow}
    {refName : String} {parent : Option Hash} {db db' : Db}
    (h : commitTx trees row refName parent db = .ok (db', ())) :
    row.hash ∉ db.commits ∧ (∀ p ∈ row.parent, p ∈ db.commits ∨ p = row.hash) ∧
      db.refs.lookup refName = parent ∧
      db' = { refs := db.refs.insert refName row.hash
              commits := db.commits.insert row.hash row.toCommitBody
              trees := (putTrees db trees).trees } := by
  unfold commitTx at h
  split at h
  · cases h
  · rename_i db₁ hput
    obtain ⟨hnew, hparent, rfl⟩ := putCommit_ok_iff.mp hput
    split at h
    · cases h
    · rename_i db₂ hcas
      obtain ⟨htip, rfl⟩ := setRefCas_ok_iff.mp hcas
      cases h
      rw [putTrees_commits] at hnew
      rw [putTrees_refs] at htip
      refine ⟨hnew, fun p hp => ?_, htip, by simp⟩
      simpa using hparent p hp

/-- The outcome of a write step, with what it checked. -/
inductive WriteCase (prims : Primitives) (session : Session) (refName : String)
    (parent : Option Hash) (trees : List (Hash × List TreeEntryRow)) (rootTree : Hash)
    (intent : Intent) (timestamp : Int) (policy : SameTreePolicy) (db : Db) :
    Db × Except CoreError CommitOutcome → Prop where
  /-- Nothing was written. -/
  | failed (e : CoreError) : WriteCase prims session refName parent trees rootTree intent timestamp
      policy db (db, .error e)
  /-- The parent already commits the tree. -/
  | noOp (p : Hash) (hskip : skippedTip policy db parent rootTree = .ok (some p)) :
      WriteCase prims session refName parent trees rootTree intent timestamp policy db
        (db, .ok ⟨p, false⟩)
  /-- The commit landed on the tip that was read. -/
  | written (row : CommitRow)
      (hrow : authorCommitRow prims session refName parent rootTree intent timestamp = .ok row)
      (hskip : skippedTip policy db parent rootTree = .ok none)
      (hnew : row.hash ∉ db.commits) (hparent : ∀ p ∈ row.parent, p ∈ db.commits ∨ p = row.hash)
      (htip : db.refs.lookup refName = parent) :
      WriteCase prims session refName parent trees rootTree intent timestamp policy db
        ({ refs := db.refs.insert refName row.hash
           commits := db.commits.insert row.hash row.toCommitBody
           trees := (putTrees db trees).trees },
          .ok ⟨row.hash, true⟩)

variable (prims) in
/-- **All a write step can do.** -/
theorem writeTx_cases (session : Session) (refName : String) (parent : Option Hash)
    (trees : List (Hash × List TreeEntryRow)) (rootTree : Hash) (intent : Intent)
    (timestamp : Int) (policy : SameTreePolicy) (db : Db) :
    WriteCase prims session refName parent trees rootTree intent timestamp policy db
      (writeTx prims session refName parent trees rootTree intent timestamp policy db) := by
  unfold writeTx
  cases hskip : skippedTip policy db parent rootTree with
  | error e => exact .failed e
  | ok skipped =>
    cases skipped with
    | some p => exact .noOp p hskip
    | none =>
      cases hrow : authorCommitRow prims session refName parent rootTree intent timestamp with
      | error e => exact .failed e
      | ok row =>
        simp only [Db.withTx]
        cases htx : commitTx trees row refName parent db with
        | error e => exact .failed _
        | ok written =>
          obtain ⟨db', ⟨⟩⟩ := written
          obtain ⟨hnew, hparent, htip, rfl⟩ := commitTx_ok htx
          exact .written row hrow hskip hnew hparent htip

variable (prims) in
/-- A whole call's write step, reduced to the writer both requests share. -/
theorem Call.write_cases (call : Call) (parent : Option Hash) (now : Int) (store : Store) :
    (∃ e, (call.write prims parent now store).2 = .error e ∧
      (call.write prims parent now store).1.db = store.db) ∨
    ∃ trees rootTree, call.rootOf prims = .ok rootTree ∧
      WriteCase prims call.session call.refName parent trees rootTree call.intent now call.policy
        store.db
        ((call.write prims parent now store).1.db, (call.write prims parent now store).2) := by
  cases hrequest : call.request with
  | snapshot snapshot policy =>
    have hroot := buildWith_root prims.hashOf call.session.encryptor call.refName store.objects
      snapshot.sorted
    simp only [Call.write, Call.rootOf, Call.policy, hrequest]
    rcases hbuild : buildWith prims.hashOf call.session.encryptor call.refName store.objects
      snapshot.root with ⟨objects, e | blueprint⟩
    · exact .inl ⟨e, rfl, rfl⟩
    · rw [hbuild] at hroot
      exact .inr ⟨_, _, hroot.symm, writeTx_cases prims _ _ _ _ _ _ _ _ _⟩
  | overTree rootTree =>
    simp only [Call.write, Call.rootOf, Call.policy, hrequest]
    exact .inr ⟨[], rootTree, rfl, writeTx_cases prims _ _ _ _ _ _ _ _ _⟩

end

/-! ### Primitives that run -/

/-- A digest that keeps every byte, and the parser on one payload. -/
def identityPrims : Primitives where
  hashOf := Hash.mk
  fromStr s :=
    if s = "\x7b\"summary\":\"\"\x7d" then some (.object [("summary", .str "")]) else none
  keyFromBytes _ := true
  verifyStrict _ _ _ := true

/-- The encryptor that keeps its content. -/
def plainEncryptor : BlobEncryptor := fun _ _ content => .ok content

def demoSession (device : String) : Session where
  deviceLabel := device
  identityPubkey := []
  activeMasterKeyId := 1
  sign _ := []
  encryptor := plainEncryptor

theorem identityPrims_injective : Function.Injective identityPrims.hashOf := fun _ _ h =>
  congrArg Hash.bytes h

end Softfig.Vcs
