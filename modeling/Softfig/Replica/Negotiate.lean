import Softfig.Lib.Fallible
import Softfig.Replica.PullEnds

/-!
A pull over a session: the announce, the walk back from the announced tip, and the backfill.

A session may be cut off: it carries so many more messages, and the next one fails. What the
mirror stored before that it keeps.

- `Honest`: what an owner of a chain announces and serves;
- `Served.request`: an honest owner's commit is received as its row, or the session is cut;
- `walkBack_spec`: a walk back that ends found the commits the mirror lacks, and when it does.
-/

namespace Softfig.Replica

open Softfig.Lib Softfig.Store Softfig.Vcs

/-! ### The owner and the session -/

/-- What an owner answers (`ReplicaSource`): its announce and, beside trees and objects, commits. -/
structure Owner extends Source where
  announce : TipAnnounce
  commits : AList fun _ : Hash => CommitData

/-- A commit that is not served reads as absent. -/
def Owner.getCommit (src : Owner) (hash : Hash) : CommitData :=
  (src.commits.lookup hash).getD ⟨false, [], [], [], "", [], 0, "", "", 0, []⟩

/-- What a peer answers to each message of a session, as the tables of an owner; `none`: the
session is cut off there. -/
abbrev Peer := Nat → Option Owner

/-- The session runs to its end, and the peer is this owner. -/
def Owner.uncut (src : Owner) : Peer := fun _ => some src

/-- The peer is this owner, and the session may be cut off. -/
def Peer.Answers (peer : Peer) (src : Owner) : Prop :=
  ∀ message owner, peer message = some owner → owner = src

/-- A sink in a session. -/
structure Session extends Receiver where
  /-- How many messages were sent. -/
  sent : Nat

abbrev Pull := Fallible Session NetError

/-- Send one message; what the peer answers to it. -/
def exchange (peer : Peer) : Pull Owner := fun st =>
  match peer st.sent with
  | none => (.error .io, st)
  | some owner => (.ok owner, { st with sent := st.sent + 1 })

/-- A step of the sink that sends nothing. -/
def onSink (step : Receiver → Outcome) : Pull Unit := fun st =>
  ((step st.toReceiver).1, { st with toReceiver := (step st.toReceiver).2 })

namespace Mirror

def hasCommit (m : Mirror) (hash : Hash) : Bool := (m.db.commits.lookup hash).isSome

def storedTip (m : Mirror) : Option Hash := m.db.tryGetRef tipRef

def empty : Mirror := ⟨.empty, ∅⟩

end Mirror

/-- `static_verify_error` -/
def staticVerifyError : CoreError → String
  | .badSignature _ => "commit signature does not verify"
  | .commitHashMismatch _ _ => "commit hash does not match its canonical form"
  | _ => "commit failed verification"

section

variable (prims : NetPrimitives) (ownerPubkey : Bytes) (peer : Peer)

/-- `MirrorStore::verify_commit`: the owner's own, under its hash and signed; nothing is stored. -/
def verifyOwned (c : CommitData) : Except NetError Unit := do
  if c.authorPubkey ≠ ownerPubkey then
    .error (.protocol "commit not authored by the chain owner")
  else
    let authorPubkey ← toHash32 c.authorPubkey
    match prims.fromStr c.payload with
    | none => .error .json
    | some payload =>
      let parent ← parentOf c.parent
      let rootTree ← toHash32 c.rootTree
      let canon : CanonicalCommit :=
        { parent, rootTree
          authorDevice := c.authorDevice
          authorPubkey := authorPubkey.bytes
          timestamp := c.timestamp
          intent := c.intent
          payload
          masterKeyId := c.masterKeyId
          chainId := none }
      let declared ← toHash32 c.hash
      let signature ← toSignature c.signature
      match verifyCommit prims.toPrimitives canon declared signature with
      | .ok () => .ok ()
      | .error e => .error (.protocol (staticVerifyError e))

def requestCommit (hash : Hash) : Pull CommitData := do
  let owner ← exchange peer
  Fallible.ofExcept ((owner.getCommit hash).answers hash)

/-! ### The negotiation -/

/-- `MAX_CHAIN_WALK` -/
def maxChainWalk : Nat := 1000000

inductive Plan where
  | upToDate
  | empty
  | backfill (missing : List CommitData) (announcedTip : Hash) (height : UInt64)

/-- The commits from `cur` back to the mirror's tip, or to the first one, newest first. `room` is
how many more commits the limit allows to be looked at. -/
def walkBack : Nat → Hash → List CommitData → Pull (List CommitData)
  | 0, _, _ => Fallible.fail (.protocol "replication chain walk exceeded limit")
  | room + 1, cur, missing => do
    let m ← Fallible.gets fun st => st.mirror
    if m.hasCommit cur then
      if m.storedTip ≠ some cur then
        Fallible.fail (.protocol "non-fast-forward replication (fork or rollback); refusing")
      else return missing
    else
      let c ← requestCommit peer cur
      Fallible.ofExcept (verifyOwned prims ownerPubkey c)
      let parent ← Fallible.ofExcept (parentOf c.parent)
      match parent with
      | some p => walkBack room p (missing ++ [c])
      | none =>
        if m.storedTip.isSome then
          Fallible.fail (.protocol
            "replicated chain shares no history with the mirror (fork); refusing")
        else return missing ++ [c]

def negotiatePull : Pull Plan := do
  let owner ← exchange peer
  if verifyTipannounce prims ownerPubkey owner.announce = false then
    Fallible.fail (.protocol "tip announce failed owner signature verification")
  else if owner.announce.tipHash = [] then return .empty
  else
    let announcedTip ← Fallible.ofExcept (toHash32 owner.announce.tipHash)
    let m ← Fallible.gets fun st => st.mirror
    if m.storedTip = some announcedTip then return .upToDate
    else
      -- the walk looks at one commit more than the limit before it gives up
      let missing ← walkBack prims ownerPubkey peer (maxChainWalk + 1) announcedTip []
      return .backfill missing announcedTip owner.announce.height

end

/-! ### The backfill -/

section

variable (hashOf : Bytes → Hash) (peer : Peer)

/-- Store an object that was received. -/
def keepObject (target : Hash) (bytes : Bytes) (r : Receiver) : Outcome :=
  match r.mirror.storeObject hashOf target bytes with
  | (.error e, mirror) => (.error e, { r with mirror })
  | (.ok (), mirror) =>
    (.ok (), { mirror, summary := { r.summary with objects := r.summary.objects + 1 } })

def fetchObject (target : Hash) : Pull Unit := do
  let m ← Fallible.gets fun st => st.mirror
  if m.hasObject target then return
  else
    let owner ← exchange peer
    let bytes ← Fallible.ofExcept (owner.requestObject target)
    onSink (keepObject hashOf target bytes)

def fetchEntry (visit : Hash → Pull Unit) (entry : TreeEntryMsg) : Pull Unit := do
  match ← Fallible.ofExcept entry.want with
  | .tree target => visit target
  | .object target => fetchObject hashOf peer target

def fetchEntries (visit : Hash → Pull Unit) : List TreeEntryMsg → Pull Unit
  | [] => return
  | entry :: rest => do
    fetchEntry hashOf peer visit entry
    fetchEntries visit rest

/-- `ensure_tree` over a session; it fails as unfinished where it goes deeper than `depth`. -/
def fetchTree : Nat → Hash → Pull Unit
  | 0, _ => Fallible.fail .unfinished
  | depth + 1, hash => do
    let m ← Fallible.gets fun st => st.mirror
    if m.hasTree hash then return
    else
      let owner ← exchange peer
      let tree ← Fallible.ofExcept (owner.requestTree hash)
      fetchEntries hashOf peer (fetchTree depth) tree.entries
      onSink (storeFetched hashOf tree)

def fetchCommits (depth : Nat) : List CommitData → Pull Unit
  | [] => return
  | c :: rest => do
    let root ← Fallible.ofExcept (toHash32 c.rootTree)
    fetchTree hashOf peer depth root
    onSink (storeCommitRow c)
    fetchCommits depth rest

end

section

variable (prims : NetPrimitives) (ownerPubkey : Bytes) (peer : Peer)

/-- `pull_replication`; the last message is `ReplicaDone`. -/
def pullReplication (depth : Nat) : Pull PullSummary := do
  match ← negotiatePull prims ownerPubkey peer with
  | .empty =>
    let _ ← exchange peer
    return {}
  | .upToDate =>
    let _ ← exchange peer
    return { upToDate := true }
  | .backfill missing announcedTip _ =>
    fetchCommits prims.hashOf peer depth missing.reverse
    onSink (finish announcedTip)
    let _ ← exchange peer
    Fallible.gets fun st => st.summary

/-- One pull into a mirror: what it returned, and the mirror it left. -/
def pullInto (depth : Nat) (m : Mirror) : Except NetError PullSummary × Mirror :=
  let out := pullReplication prims ownerPubkey peer depth ⟨⟨m, {}⟩, 0⟩
  (out.1, out.2.mirror)

end

/-! ### An honest owner -/

/-- Each commit names the next as its parent, and the last one none. -/
def Linked : List CommitRow → Prop
  | [] => True
  | c :: rest => c.parent = rest.head?.map (·.hash) ∧ Linked rest

section

variable (prims : NetPrimitives) (ownerPubkey : Bytes) (src : Owner)

/-- A commit is served as its row says, signed by the owner, and its tree with all below it. -/
structure Served (c : CommitRow) : Prop where
  reply : src.getCommit c.hash = commitRowToData c
  wellFormed : commitDataToRow (commitRowToData c) = .ok c
  verified : verifyOwned prims ownerPubkey (commitRowToData c) = .ok ()
  tree : Good prims.hashOf src.toSource .empty (.tree c.rootTree)

/-- **An honest owner** of a chain, newest commit first: it announces the tip, signed, and serves
all of the chain. A tree's rows are in the order of their names. -/
structure Honest (commits : List CommitRow) : Prop where
  announced : verifyTipannounce prims ownerPubkey src.announce = true
  tip : src.announce.tipHash = (commits.head?.map (·.hash.bytes)).getD []
  linked : Linked commits
  served : ∀ c ∈ commits, Served prims ownerPubkey src c
  sorted : ∀ hash t row, src.requestTree hash = .ok t → verifyTree prims.hashOf t = .ok row →
    SortedByName row.2

end

/-! ### Steps of a session -/

/-- An owner answers as itself, or the session is cut. -/
theorem exchange_cases {peer : Peer} {src : Owner} (hpeer : peer.Answers src) (r : Receiver)
    (sent : Nat) :
    (exchange peer ⟨r, sent⟩ = (.error .io, ⟨r, sent⟩) ∧ peer ≠ src.uncut) ∨
      exchange peer ⟨r, sent⟩ = (.ok src, ⟨r, sent + 1⟩) := by
  unfold exchange
  cases h : peer sent with
  | none =>
    refine .inl ⟨rfl, fun huncut => ?_⟩
    rw [huncut] at h
    cases h
  | some owner =>
    obtain rfl := hpeer sent owner h
    exact .inr rfl

theorem exchange_uncut (src : Owner) (r : Receiver) (sent : Nat) :
    exchange src.uncut ⟨r, sent⟩ = (.ok src, ⟨r, sent + 1⟩) := rfl

theorem Owner.uncut_answers (src : Owner) : src.uncut.Answers src := by
  intro message owner h
  exact (Option.some.inj h).symm

theorem onSink_apply (step : Receiver → Outcome) (r : Receiver) (sent : Nat) :
    onSink step ⟨r, sent⟩ = ((step r).1, ⟨(step r).2, sent⟩) := rfl

/-! ### The walk back -/

section

variable {prims : NetPrimitives} {ownerPubkey : Bytes} {src : Owner} {c : CommitRow}
  {front rest : List CommitRow} {peer : Peer} {r : Receiver} {sent : Nat}

theorem Served.lengths (h : Served prims ownerPubkey src c) :
    toHash32 c.hash.bytes = .ok c.hash ∧ parentOf (commitRowToData c).parent = .ok c.parent ∧
      toHash32 c.rootTree.bytes = .ok c.rootTree := by
  obtain ⟨hash, hhash, h'⟩ := bind_ok_iff.mp h.wellFormed
  obtain ⟨parent, hparent, h'⟩ := bind_ok_iff.mp h'
  obtain ⟨root, hroot, h'⟩ := bind_ok_iff.mp h'
  obtain ⟨pubkey, -, h'⟩ := bind_ok_iff.mp h'
  obtain ⟨signature, -, h'⟩ := bind_ok_iff.mp h'
  have hrow := Except.ok.inj h'
  have hparent' : parent = c.parent := congrArg (fun row => row.parent) hrow
  exact ⟨toHash32_bytes (toHash32_ok hhash).2, hparent' ▸ hparent,
    toHash32_bytes (toHash32_ok hroot).2⟩

/-- A commit of the owner is received as its row, unless the session is cut. -/
theorem Served.request (hpeer : peer.Answers src) (h : Served prims ownerPubkey src c) :
    (requestCommit peer c.hash ⟨r, sent⟩ = (.error .io, ⟨r, sent⟩) ∧ peer ≠ src.uncut) ∨
      requestCommit peer c.hash ⟨r, sent⟩ = (.ok (commitRowToData c), ⟨r, sent + 1⟩) := by
  rcases exchange_cases hpeer r sent with ⟨hcut, hne⟩ | hsent
  · exact .inl ⟨Fallible.bind_error hcut, hne⟩
  · refine .inr ((Fallible.bind_ok hsent).trans ?_)
    have hanswer : (commitRowToData c).answers c.hash = .ok (commitRowToData c) := by
      unfold CommitData.answers
      rw [if_neg (by simp [commitRowToData])]
      simp only [commitRowToData, h.lengths.1, ne_eq, not_true_eq_false, if_false]
    rw [h.reply, hanswer]
    rfl

/-- The walk gets past the commits in front: to the mirror's tip, or to the first commit. -/
def Reaches (m : Mirror) (room : Nat) (front rest : List CommitRow) : Prop :=
  match rest.head? with
  | some d => m.storedTip = some d.hash ∧ front.length < room
  | none => m.storedTip = none ∧ front.length ≤ room

/-- **The walk back** finds just the commits in front of those the mirror holds. -/
theorem walkBack_spec (hpeer : peer.Answers src) (hlinked : Linked (front ++ rest))
    (hserved : ∀ c ∈ front, Served prims ownerPubkey src c)
    (hlacked : ∀ c ∈ front, r.mirror.hasCommit c.hash = false)
    (hheld : ∀ d ∈ rest.head?, r.mirror.hasCommit d.hash = true) {cur : Hash}
    (hcur : (front ++ rest).head?.map (·.hash) = some cur) {room : Nat} {missing : List CommitData}
    {res : Except NetError (List CommitData)} {st : Session}
    (h : walkBack prims ownerPubkey peer room cur missing ⟨r, sent⟩ = (res, st)) :
    st.toReceiver = r ∧
      (∀ found, res = .ok found →
        found = missing ++ front.map commitRowToData ∧ Reaches r.mirror room front rest) ∧
      (peer = src.uncut → Reaches r.mirror room front rest → ∃ found, res = .ok found) := by
  induction front generalizing room cur missing sent with
  | nil =>
    obtain ⟨d, hd, rfl⟩ := Option.map_eq_some_iff.mp hcur
    rw [List.nil_append] at hd
    have hreaches : Reaches r.mirror room [] rest ↔
        r.mirror.storedTip = some d.hash ∧ 0 < room := by
      simp only [Reaches, hd, List.length_nil]
    cases room with
    | zero =>
      cases h
      refine ⟨rfl, by simp, fun _ hreach => ?_⟩
      exact absurd (hreaches.mp hreach).2 (Nat.lt_irrefl 0)
    | succ room =>
      unfold walkBack at h
      rw [Fallible.bind_ok (Fallible.gets_apply _ _), if_pos (hheld d hd)] at h
      split_ifs at h with htip
      · cases h
        refine ⟨rfl, by simp, fun _ hreach => ?_⟩
        exact absurd (hreaches.mp hreach).1 htip
      · cases h
        refine ⟨rfl, fun found hfound => ?_, fun _ _ => ⟨_, rfl⟩⟩
        cases hfound
        exact ⟨(List.append_nil _).symm, hreaches.mpr ⟨not_not.mp htip, Nat.succ_pos _⟩⟩
  | cons c front ih =>
    obtain rfl : c.hash = cur := Option.some.inj hcur
    obtain ⟨hc, hserved⟩ := List.forall_mem_cons.mp hserved
    obtain ⟨hlacks, hlacked⟩ := List.forall_mem_cons.mp hlacked
    have hparent : c.parent = (front ++ rest).head?.map (·.hash) := hlinked.1
    cases room with
    | zero =>
      cases h
      refine ⟨rfl, by simp, fun _ hreach => ?_⟩
      unfold Reaches at hreach
      split at hreach
      · exact absurd hreach.2 (Nat.not_lt_zero _)
      · exact absurd hreach.2 (Nat.not_succ_le_zero _)
    | succ room =>
      unfold walkBack at h
      rw [Fallible.bind_ok (Fallible.gets_apply _ _), if_neg (by rw [hlacks]; simp)] at h
      rcases @Served.request _ _ _ _ peer r sent hpeer hc with ⟨hcut, hne⟩ | hsent
      · rw [Fallible.bind_error hcut] at h
        cases h
        exact ⟨rfl, by simp, fun huncut => absurd huncut hne⟩
      · rw [Fallible.bind_ok hsent, hc.verified] at h
        simp only [Fallible.bind_ok (Fallible.ofExcept_apply _ _), hc.lengths.2.1] at h
        cases hnext : (front ++ rest).head? with
        | none =>
          rw [hnext] at hparent
          rw [hparent] at h
          obtain ⟨rfl, rfl⟩ := List.append_eq_nil_iff.mp (List.head?_eq_none_iff.mp hnext)
          have hreaches : Reaches r.mirror (room + 1) [c] [] ↔ r.mirror.storedTip = none := by
            simp [Reaches]
          dsimp only [Option.map_none] at h
          split_ifs at h with htip
          · cases h
            refine ⟨rfl, by simp, fun _ hreach => ?_⟩
            rw [hreaches.mp hreach] at htip
            cases htip
          · cases h
            refine ⟨rfl, fun found hfound => ?_, fun _ _ => ⟨_, rfl⟩⟩
            cases hfound
            exact ⟨rfl, hreaches.mpr (Option.not_isSome_iff_eq_none.mp htip)⟩
        | some d =>
          rw [hnext] at hparent
          rw [hparent] at h
          dsimp only [Option.map_some] at h
          obtain ⟨hst, hfound, hreach⟩ := ih hlinked.2 hserved hlacked (by rw [hnext]; rfl) h
          have hroom : Reaches r.mirror (room + 1) (c :: front) rest ↔
              Reaches r.mirror room front rest := by
            unfold Reaches
            split <;> simp
          refine ⟨hst, fun found hok => ?_, fun huncut hr => hreach huncut (hroom.mp hr)⟩
          obtain ⟨rfl, hr⟩ := hfound found hok
          exact ⟨by simp, hroom.mpr hr⟩

end

end Softfig.Replica
