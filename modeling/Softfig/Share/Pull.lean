import Softfig.Lib.Jcs
import Softfig.Share.Trees

/-!
Shared-chain pushes: what a member sends, and what the receiver does with it.

A member's history of a shared chain is its own list of commits, newest first.
A push carries one transition: the tip's tree, its parent's tree, and the file
list of the tip's payload. The receiver compares the two trees with its own tip's
and fast-forwards, does nothing, or resolves a conflict by itself.

- `applySharedPull_cases`, `resolveSyncConflict_resolved`: what each step does;
- `serve_quiet_iff`, `serve_of_takes`: when a push names no conflict, and the
  tree the receiver then holds.
-/

namespace Softfig.Share

open Softfig.Lib Softfig.Lib.Jcs Softfig.Lib.PathTree
open Softfig.Store (Bytes)
open Softfig.Vcs

/-! ### Chains -/

/-- The committed membership row's identity of a shared chain. -/
structure ShareRow where
  id : String
  refName : String

/-- A commit's payload; the trees it names stand for their hashes. -/
inductive Payload where
  | sharedPull (chainId subtree : String) (files : List String) (writerDevice : String)
    (baseHash : SharedTree)
  | syncConflict (chainId path keptDevice loserSidecar : String) (baseHash : SharedTree)
  | other (json : Json)

structure Commit where
  rootTree : SharedTree
  timestamp : Int
  authorDevice : String
  payload : Payload

/-- One member's commits on the chain, newest first. -/
abbrev History := List Commit

def History.tree (h : History) : Option SharedTree := h.head?.map Commit.rootTree

/-- Author a commit on the tip, unless the tip has this tree already. -/
def writeCommit (d : Device) (now : Int) (history : History) (rootTree : SharedTree)
    (payload : Payload) : History :=
  if history.tree = some rootTree then history
  else ⟨rootTree, now, d.hostLabel, payload⟩ :: history

theorem tree_writeCommit (d : Device) (now : Int) (history : History) (rootTree : SharedTree)
    (payload : Payload) :
    (writeCommit d now history rootTree payload).tree = some rootTree := by
  unfold writeCommit
  split_ifs with h
  · exact h
  · rfl

/-! ### Sending -/

structure SharedChainPush where
  subtree : String
  newTree : SharedTree
  baseTree : SharedTree
  writerDevice : String
  files : List String
  timestamp : Int
  deriving DecidableEq

def asStr : Json → Option String
  | .str s => some s
  | _ => none

def elemStrings : Elems → List String
  | .nil => []
  | .cons v rest => (asStr v).toList ++ elemStrings rest

def member (key : String) : Json → Option Json
  | .obj members => members.get? key
  | _ => none

/-- Who wrote the tip, and which files it names: a re-authored tip passes its
origin on, any other tip is this device's, with the files its payload lists. -/
def sharedPushProvenance (payload : Payload) (localName : String) : String × List String :=
  match payload with
  | .sharedPull _ _ files writerDevice _ => (writerDevice, files)
  | .syncConflict .. => (localName, [])
  | .other json =>
    (((member "writer_device" json).bind asStr).getD localName,
      match member "files" json with
      | some (.arr elems) => elemStrings elems
      | _ => [])

def stripPrefix? (lead s : String) : Option String :=
  if lead.toList.isPrefixOf s.toList then some (String.ofList (s.toList.drop lead.toList.length))
  else none

/-- Take this device's mount off the files, where they carry it. -/
def placementFreeFiles (files : List String) (mountPath : String) : List String :=
  files.map fun f => (stripPrefix? (mountPath ++ "/") f).getD f

/-- One reconcile pass over the chain: push the tip, where it is not the genesis. -/
def reconcileSharedPush (share : ShareRow) (d : Device) : History → Option SharedChainPush
  | tip :: parent :: _ =>
    let (writerDevice, files) := sharedPushProvenance tip.payload d.deviceName
    some {
      subtree := share.id
      newTree := tip.rootTree
      baseTree := parent.rootTree
      writerDevice := writerDevice
      files := placementFreeFiles files d.mountPath
      timestamp := tip.timestamp }
  | _ => none

theorem reconcileSharedPush_newTree {share : ShareRow} {d : Device} {h : History}
    {p : SharedChainPush} (hp : reconcileSharedPush share d h = some p) :
    h.tree = some p.newTree := by
  match h, hp with
  | tip :: parent :: older, hp =>
    cases hp
    rfl

/-! ### Applying -/

structure SharedPullInput where
  chainRef : String
  peerTree : SharedTree
  baseHash : SharedTree
  writerDevice : String
  subtree : String
  files : List String

inductive SharedPullOutcome where
  | applied
  | alreadyPresent
  | conflict (baseHash : SharedTree) (localTree : Option SharedTree)

/-- Nothing to do where the tip has the peer's tree; re-author it where the tip
is the peer's base, or the chain is unborn; a conflict otherwise. -/
def applySharedPull (d : Device) (now : Int) (input : SharedPullInput) (history : History) :
    History × SharedPullOutcome :=
  let localTree := history.tree
  if localTree = some input.peerTree then (history, .alreadyPresent)
  else if localTree = none ∨ localTree = some input.baseHash then
    (writeCommit d now history input.peerTree
      (.sharedPull input.chainRef input.subtree input.files input.writerDevice input.baseHash),
      .applied)
  else (history, .conflict input.baseHash localTree)

/-! ### Resolving a conflict -/

def safeChar (ch : Char) : Char :=
  if ch.isAlphanum || ch == '.' || ch == '_' || ch == '-' then ch else '_'

/-- Make every character safe, and one `.` of a run of them. -/
def sanitizeChars (prevDot : Bool) : List Char → List Char
  | [] => []
  | ch :: rest =>
    if safeChar ch = '.' then
      if prevDot then sanitizeChars true rest else safeChar ch :: sanitizeChars true rest
    else safeChar ch :: sanitizeChars false rest

def sanitizeNameComponent (name : String) : String :=
  match sanitizeChars false name.toList with
  | [] => "_"
  | cs => String.ofList cs

structure ConflictSides where
  chainRef : String
  subtree : String
  path : String
  baseHash : SharedTree
  incomingTree : SharedTree
  incomingDevice : String
  incomingTs : Int
  localTree : SharedTree
  localDevice : String
  localTs : Int

inductive ConflictResolution where
  | resolved (keptDevice loserSidecar : String)
  | loserUnresolvable (path : String)
  deriving DecidableEq

/-- The last-writer-wins order over `(timestamp, device name)`. -/
def ConflictSides.incomingWins (s : ConflictSides) : Prop :=
  s.localTs < s.incomingTs ∨ s.localTs = s.incomingTs ∧ s.localDevice < s.incomingDevice

instance (s : ConflictSides) : Decidable s.incomingWins :=
  inferInstanceAs (Decidable (_ ∨ _))

/-- One side of a conflict: its tree, who wrote it and when. -/
structure Side where
  tree : SharedTree
  device : String
  ts : Int

def ConflictSides.incoming (s : ConflictSides) : Side :=
  ⟨s.incomingTree, s.incomingDevice, s.incomingTs⟩

def ConflictSides.localSide (s : ConflictSides) : Side := ⟨s.localTree, s.localDevice, s.localTs⟩

def ConflictSides.winner (s : ConflictSides) : Side :=
  if s.incomingWins then s.incoming else s.localSide

def ConflictSides.loser (s : ConflictSides) : Side :=
  if s.incomingWins then s.localSide else s.incoming

/-- The spellings a pushed path is looked up under: as it stands, then without
the sender's subtree. -/
def candidates (path subtree : String) : List String :=
  let stripped := if subtree = "" then some path else stripPrefix? (subtree ++ "/") path
  match stripped with
  | some s => if s ≠ path then [path, s] else [path]
  | none => [path]

/-- The first spelling with a blob in the tree, and the blob opened. -/
def readFirst (d : Device) (tree : SharedTree) :
    List String → Except Refusal (Option (String × Bytes))
  | [] => .ok none
  | candidate :: rest =>
    match resolvePathInTree tree candidate with
    | none => readFirst d tree rest
    | some blob =>
      match d.decryptTrackedBlob candidate blob with
      | none => .error (.decrypt candidate)
      | some plaintext => .ok (some (candidate, plaintext))

def readFileFromTree (d : Device) (path subtree : String) (tree : SharedTree) :
    Except Refusal (Option (String × Bytes)) :=
  readFirst d tree (candidates path subtree)

def sidecarMode : UInt32 := 0o100644

/-- What a sidecar's name adds to the file's: the losing device and its time. -/
def sidecarSuffix (loserDevice : String) (loserTs : Int) : String :=
  ".conflict-" ++ sanitizeNameComponent loserDevice ++ "-" ++
    String.ofList (Numeral.ofInt loserTs).chars ++ ".md"

def sidecarPath (treePath loserDevice : String) (loserTs : Int) : String :=
  treePath ++ sidecarSuffix loserDevice loserTs

/-- Keep the winner's tree, put the loser's bytes of the named file beside it,
and commit both as one tree. -/
def resolveSyncConflict (d : Device) (now : Int) (sides : ConflictSides) (history : History) :
    Except Refusal (History × ConflictResolution) :=
  readFileFromTree d sides.path sides.subtree sides.loser.tree >>= fun located =>
    match located with
    | none => .ok (history, .loserUnresolvable sides.path)
    | some (treePath, loserBytes) =>
      let sidecar := sidecarPath treePath sides.loser.device sides.loser.ts
      materializeTree d sides.winner.tree >>= fun snapshot =>
        buildTree d (snapshot.insertFile (.parse sidecar) sidecarMode loserBytes) >>= fun tree =>
          .ok (writeCommit d now history tree
            (.syncConflict sides.chainRef sides.path sides.winner.device sidecar sides.baseHash),
            .resolved sides.winner.device sidecar)

/-! ### Serving a push -/

inductive PushOutcome where
  | applied
  | alreadyPresent
  | resolved (keptDevice loserSidecar : String)
  | unresolved (path : String)
  | failed (refusal : Refusal)
  | skipped
  deriving DecidableEq

/-- A push that named no conflict and left no sidecar. -/
def PushOutcome.quiet : PushOutcome → Bool
  | .applied | .alreadyPresent => true
  | _ => false

def pullInput (share : ShareRow) (p : SharedChainPush) : SharedPullInput where
  chainRef := share.refName
  peerTree := p.newTree
  baseHash := p.baseTree
  writerDevice := p.writerDevice
  subtree := p.subtree
  files := p.files

/-- The two sides, where the receiver's tip has diverged from the push. -/
def conflictSides (share : ShareRow) (p : SharedChainPush) (tip : Commit) : ConflictSides where
  chainRef := share.refName
  subtree := p.subtree
  path := p.files.head?.getD ""
  baseHash := p.baseTree
  incomingTree := p.newTree
  incomingDevice := p.writerDevice
  incomingTs := p.timestamp
  localTree := tip.rootTree
  localDevice := tip.authorDevice
  localTs := tip.timestamp

/-- Serve one push: apply it, and resolve the conflict where it is one. -/
def serveSharedChainPush (share : ShareRow) (d : Device) (now : Int) (p : SharedChainPush)
    (history : History) : History × PushOutcome :=
  match applySharedPull d now (pullInput share p) history with
  | (after, .applied) => (after, .applied)
  | (after, .alreadyPresent) => (after, .alreadyPresent)
  | (after, .conflict _ _) =>
    match after with
    | [] => (after, .skipped)
    | tip :: _ =>
      match resolveSyncConflict d now (conflictSides share p tip) after with
      | .error refusal => (after, .failed refusal)
      | .ok (resolved, .resolved kept sidecar) => (resolved, .resolved kept sidecar)
      | .ok (resolved, .loserUnresolvable path) => (resolved, .unresolved path)

/-! ### What one push does -/

section

variable (share : ShareRow) (d : Device) (now : Int)

/-- The receiver's tip takes the push without a conflict. -/
def Takes (held : Option SharedTree) (p : SharedChainPush) : Prop :=
  held = none ∨ held = some p.newTree ∨ held = some p.baseTree

instance (held : Option SharedTree) (p : SharedChainPush) : Decidable (Takes held p) :=
  inferInstanceAs (Decidable (_ ∨ _ ∨ _))

/-- Applying ends in one of three ways, told by the tip's tree. -/
theorem applySharedPull_cases (input : SharedPullInput) (history : History) :
    (history.tree = some input.peerTree ∧
        applySharedPull d now input history = (history, .alreadyPresent)) ∨
      (history.tree ≠ some input.peerTree ∧
        (history.tree = none ∨ history.tree = some input.baseHash) ∧
        applySharedPull d now input history =
          (writeCommit d now history input.peerTree
            (.sharedPull input.chainRef input.subtree input.files input.writerDevice
              input.baseHash), .applied)) ∨
      (history.tree ≠ some input.peerTree ∧
        ¬(history.tree = none ∨ history.tree = some input.baseHash) ∧
        applySharedPull d now input history =
          (history, .conflict input.baseHash history.tree)) := by
  simp only [applySharedPull]
  split_ifs with hpeer hbase
  · exact .inl ⟨hpeer, rfl⟩
  · exact .inr (.inl ⟨hpeer, hbase, rfl⟩)
  · exact .inr (.inr ⟨hpeer, hbase, rfl⟩)

/-- A tip that takes the push ends with the pushed tree. -/
theorem serve_of_takes {p : SharedChainPush} {history : History} (h : Takes history.tree p) :
    (serveSharedChainPush share d now p history).1.tree = some p.newTree ∧
      (serveSharedChainPush share d now p history).2.quiet = true := by
  unfold serveSharedChainPush
  rcases applySharedPull_cases d now (pullInput share p) history with
    ⟨hpeer, heq⟩ | ⟨-, -, heq⟩ | ⟨hpeer, hbase, -⟩
  · rw [heq]
    exact ⟨hpeer, rfl⟩
  · rw [heq]
    exact ⟨tree_writeCommit _ _ _ _ _, rfl⟩
  · rcases h with hnone | hnew | hold
    · exact absurd (.inl hnone) hbase
    · exact absurd hnew hpeer
    · exact absurd (.inr hold) hbase

/-- A tip that does not take the push goes to the resolution. -/
theorem serve_of_not_takes {p : SharedChainPush} {tip : Commit} {older : History}
    (h : ¬Takes (History.tree (tip :: older)) p) :
    serveSharedChainPush share d now p (tip :: older) =
      match resolveSyncConflict d now (conflictSides share p tip) (tip :: older) with
      | .error refusal => (tip :: older, .failed refusal)
      | .ok (resolved, .resolved kept sidecar) => (resolved, .resolved kept sidecar)
      | .ok (resolved, .loserUnresolvable path) => (resolved, .unresolved path) := by
  rw [Takes, not_or, not_or] at h
  obtain ⟨hborn, hnew, hbase⟩ := h
  unfold serveSharedChainPush
  rcases applySharedPull_cases d now (pullInput share p) (tip :: older) with
    ⟨hpeer, -⟩ | ⟨-, hpeer, -⟩ | ⟨-, -, heq⟩
  · exact absurd hpeer hnew
  · exact absurd hpeer (not_or.mpr ⟨hborn, hbase⟩)
  · rw [heq]

/-- **A push is quiet exactly where the tip takes it.** -/
theorem serve_quiet_iff {p : SharedChainPush} {history : History} :
    (serveSharedChainPush share d now p history).2.quiet = true ↔ Takes history.tree p := by
  refine ⟨fun hquiet => ?_, fun h => (serve_of_takes share d now h).2⟩
  by_contra h
  cases history with
  | nil => exact h (.inl rfl)
  | cons tip older =>
    rw [serve_of_not_takes share d now h] at hquiet
    split at hquiet <;> cases hquiet

end

end Softfig.Share
