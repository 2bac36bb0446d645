import Softfig.Lib.Cycles
import Softfig.Lib.Except
import Softfig.Replica.Wire
import Softfig.Vcs.Chain
import Softfig.Vcs.Tree

/-!
Fetching from a peer one request at a time: a tree with all it names, and the
commits a mirror lacks.

A peer is a finite table of replies, which may contradict each other. A fetch
follows the trees a reply names before it checks that the reply has the digest it
was asked for under, so its depth is counted: no result at a depth means the fetch
goes deeper.

- `OnlyMatching`: what a sink holds after a fetch that it did not hold before has
  the digest it is held under;
- `andThen_eq_some`: what a sequence of parts returns;
- `ensureTree_keeps`: what each store keeps, a fetch of a tree keeps;
- `pullSubtree_onlyMatching`, `pullBackfill_onlyMatching`: a pull stores nothing else.
-/

namespace Softfig.Replica

open Softfig.Lib Softfig.Store Softfig.Vcs

/-! ### The sink -/

/-- The part of a store a pull writes to. -/
structure Mirror where
  db : Db
  objects : ObjectStore

structure PullSummary where
  upToDate : Bool := false
  commits : Nat := 0
  trees : Nat := 0
  objects : Nat := 0
  newTip : Option Hash := none
  deriving DecidableEq

structure SubtreeSummary where
  upToDate : Bool
  trees : Nat
  objects : Nat
  deriving DecidableEq

/-- A sink and the count of what it fetched. -/
structure Receiver where
  mirror : Mirror
  summary : PullSummary

abbrev Outcome := Except NetError Unit × Receiver

/-- A tree's rows, where they have the digest the message declares. -/
def verifyTree (hashOf : Bytes → Hash) (t : TreeData) :
    Except NetError (Hash × List TreeEntryRow) := do
  let entries ← msgToEntries t.entries
  let declared ← toHash32 t.hash
  if hashOf (canonicalTreeBytes entries) ≠ declared then
    .error (.protocol "tree hash does not match its canonical form")
  else .ok (hashOf (canonicalTreeBytes entries), entries)

namespace Mirror

def hasTree (m : Mirror) (hash : Hash) : Bool := m.db.treeExists hash

def hasObject (m : Mirror) (hash : Hash) : Bool := m.objects.contains hash

def holds (m : Mirror) : Want → Bool
  | .tree hash => m.hasTree hash
  | .object hash => m.hasObject hash

variable (hashOf : Bytes → Hash)

def storeTree (m : Mirror) (t : TreeData) : Except NetError Mirror :=
  match verifyTree hashOf t with
  | .error e => .error e
  | .ok (want, entries) => .ok { m with db := putTree m.db want entries }

/-- The bytes are put under their own digest before it is compared. -/
def storeObject (m : Mirror) (hash : Hash) (bytes : Bytes) : Except NetError Unit × Mirror :=
  let put := m.objects.put hashOf bytes
  (if put.2 ≠ hash then .error (.protocol "object content-address mismatch") else .ok (),
    { m with objects := put.1 })

def storeCommit (m : Mirror) (c : CommitData) : Except NetError Mirror :=
  match commitDataToRow c with
  | .error e => .error e
  | .ok row =>
    match putCommit m.db row with
    | .error e => .error (.store e)
    | .ok db => .ok { m with db }

def advanceTip (m : Mirror) (hash : Hash) : Mirror :=
  { m with db := { m.db with refs := m.db.refs.insert tipRef hash } }

end Mirror

/-! ### The peer -/

/-- What a peer replies when it is asked for a tree or an object. -/
structure Source where
  trees : AList fun _ : Hash => Frame
  objects : AList fun _ : Hash => Frame

namespace Source

def getTree (src : Source) (hash : Hash) : Frame :=
  (src.trees.lookup hash).getD (.treeData ⟨false, [], []⟩)

def getObject (src : Source) (hash : Hash) : Frame :=
  (src.objects.lookup hash).getD (.objectData ⟨false, [], []⟩)

def requestTree (src : Source) (hash : Hash) : Except NetError TreeData :=
  match src.getTree hash with
  | .treeData t => t.answers hash
  | _ => .error (.protocol "expected tree_data")

def requestObject (src : Source) (hash : Hash) : Except NetError Bytes :=
  match src.getObject hash with
  | .objectData o => o.answers hash
  | _ => .error (.protocol "expected object_data")

/-- A tree that was replied is in the table. -/
theorem requestTree_mem {src : Source} {hash : Hash} {t : TreeData}
    (h : src.requestTree hash = .ok t) : hash ∈ src.trees.keys.toFinset := by
  rw [List.mem_toFinset, ← AList.mem_keys, ← AList.lookup_isSome]
  cases hlookup : src.trees.lookup hash with
  | some reply => rfl
  | none =>
    simp only [requestTree, getTree, hlookup, Option.getD_none, TreeData.answers] at h
    cases h

/-- A reply that answers is declared under the address it was asked for. -/
theorem requestTree_declares {src : Source} {hash : Hash} {t : TreeData}
    (h : src.requestTree hash = .ok t) : toHash32 t.hash = .ok hash := by
  unfold requestTree at h
  split at h
  · obtain ⟨rfl, -, hanswers⟩ := TreeData.answers_ok h
    exact hanswers
  · cases h

end Source

/-! ### One fetch -/

/-- What comes next, where a part returned and succeeded. -/
def andThen (part : Option Outcome) (next : Receiver → Option Outcome) : Option Outcome :=
  match part with
  | none => none
  | some (.error e, r) => some (.error e, r)
  | some (.ok (), r) => next r

section Fetch

variable (hashOf : Bytes → Hash) (src : Source)

def ensureObject (target : Hash) (r : Receiver) : Outcome :=
  if r.mirror.hasObject target then (.ok (), r)
  else
    match src.requestObject target with
    | .error e => (.error e, r)
    | .ok bytes =>
      match r.mirror.storeObject hashOf target bytes with
      | (.error e, mirror) => (.error e, { r with mirror })
      | (.ok (), mirror) =>
        (.ok (), { mirror, summary := { r.summary with objects := r.summary.objects + 1 } })

def ensureEntry (visit : Hash → Receiver → Option Outcome) (entry : TreeEntryMsg)
    (r : Receiver) : Option Outcome :=
  match entry.want with
  | .error e => some (.error e, r)
  | .ok (.tree target) => visit target r
  | .ok (.object target) => some (ensureObject hashOf src target r)

def ensureEntries (visit : Hash → Receiver → Option Outcome) :
    List TreeEntryMsg → Receiver → Option Outcome
  | [], r => some (.ok (), r)
  | entry :: rest, r =>
    andThen (ensureEntry hashOf src visit entry r) (ensureEntries visit rest)

/-- Store a tree whose entries were all fetched. -/
def storeFetched (tree : TreeData) (r : Receiver) : Outcome :=
  match r.mirror.storeTree hashOf tree with
  | .error e => (.error e, r)
  | .ok mirror => (.ok (), { mirror, summary := { r.summary with trees := r.summary.trees + 1 } })

/-- Fetch a tree after all it names; no result where it goes deeper than `depth`. -/
def ensureTree : Nat → Hash → Receiver → Option Outcome
  | 0, _, _ => none
  | depth + 1, hash, r =>
    if r.mirror.hasTree hash then some (.ok (), r)
    else
      match src.requestTree hash with
      | .error e => some (.error e, r)
      | .ok tree =>
        andThen (ensureEntries hashOf src (ensureTree depth) tree.entries r) fun r =>
          some (storeFetched hashOf tree r)

def pullSubtree (depth : Nat) (rootTree : Hash) (m : Mirror) :
    Option (Except NetError SubtreeSummary × Mirror) :=
  match ensureTree hashOf src depth rootTree ⟨m, {}⟩ with
  | none => none
  | some (.error e, r) => some (.error e, r.mirror)
  | some (.ok (), r) =>
    some (.ok ⟨m.hasTree rootTree, r.summary.trees, r.summary.objects⟩, r.mirror)

def storeCommitRow (c : CommitData) (r : Receiver) : Outcome :=
  match r.mirror.storeCommit c with
  | .error e => (.error e, r)
  | .ok mirror =>
    (.ok (), { mirror, summary := { r.summary with commits := r.summary.commits + 1 } })

/-- The commits, oldest first: each one's trees and objects, then its row. -/
def applyCommits (depth : Nat) : List CommitData → Receiver → Option Outcome
  | [], r => some (.ok (), r)
  | c :: rest, r =>
    match toHash32 c.rootTree with
    | .error e => some (.error e, r)
    | .ok root =>
      andThen (ensureTree hashOf src depth root r) fun r =>
        andThen (some (storeCommitRow c r)) (applyCommits depth rest)

def finish (announcedTip : Hash) (r : Receiver) : Outcome :=
  (.ok (), ⟨r.mirror.advanceTip announcedTip, { r.summary with newTip := some announcedTip }⟩)

/-- `pull_replication`, from the commits that are missing, newest first. -/
def pullBackfill (depth : Nat) (missing : List CommitData) (announcedTip : Hash) (m : Mirror) :
    Option Outcome :=
  andThen (applyCommits hashOf src depth missing.reverse ⟨m, {}⟩) fun r =>
    some (finish announcedTip r)

end Fetch

theorem andThen_eq_some {part : Option Outcome} {next : Receiver → Option Outcome} {o : Outcome} :
    andThen part next = some o ↔
      (∃ e, part = some (.error e, o.2) ∧ o.1 = .error e) ∨
        ∃ mid, part = some (.ok (), mid) ∧ next mid = some o := by
  obtain ⟨res, r⟩ := o
  rcases part with - | ⟨e | u, mid⟩
  · simp [andThen]
  · simp only [andThen, Option.some.injEq, Prod.mk.injEq]
    constructor
    · rintro ⟨rfl, rfl⟩
      exact .inl ⟨e, ⟨rfl, rfl⟩, rfl⟩
    · rintro (⟨e', ⟨he, rfl⟩, rfl⟩ | ⟨_, ⟨he, -⟩, -⟩)
      · exact ⟨he, rfl⟩
      · cases he
  · simp [andThen]

/-! ### Only items under their own digest -/

section Matching

variable {hashOf : Bytes → Hash} {src : Source}

/-- The rows of a tree are those it had and the entries of items with this digest. -/
def RowsFrom (hashOf : Bytes → Hash) (hash : Hash) (before : Option (List TreeEntryRow))
    (rows : List TreeEntryRow) : Prop :=
  ∃ items : List (List TreeEntryRow),
    (∀ entries ∈ items, hashOf (canonicalTreeBytes entries) = hash) ∧
      rows = items.foldl upsertEntries (before.getD []) ∧ (before = none → items ≠ [])

/-- **Only matching items.** A sink holds what it held, and beside it only what has the digest
it is held under. -/
structure OnlyMatching (hashOf : Bytes → Hash) (m m' : Mirror) : Prop where
  keptObjects : ∀ hash bytes, m.objects.lookup hash = some bytes →
    m'.objects.lookup hash = some bytes
  keptTrees : ∀ hash, hash ∈ m.db.trees → hash ∈ m'.db.trees
  objects : ∀ hash bytes, m'.objects.lookup hash = some bytes →
    m.objects.lookup hash = some bytes ∨ hashOf bytes = hash
  trees : ∀ hash rows, m'.db.trees.lookup hash = some rows →
    RowsFrom hashOf hash (m.db.trees.lookup hash) rows

theorem RowsFrom.refl (hashOf : Bytes → Hash) (hash : Hash) (rows : List TreeEntryRow) :
    RowsFrom hashOf hash (some rows) rows :=
  ⟨[], by simp, rfl, by simp⟩

theorem RowsFrom.trans {hash : Hash} {before mid : Option (List TreeEntryRow)}
    {rows : List TreeEntryRow} (hmid : ∀ rows, mid = some rows → RowsFrom hashOf hash before rows)
    (hnone : mid = none → before = none) (h : RowsFrom hashOf hash mid rows) :
    RowsFrom hashOf hash before rows := by
  obtain ⟨later, hlater, rfl, hne⟩ := h
  cases mid with
  | none =>
    rw [hnone rfl]
    exact ⟨later, hlater, rfl, fun _ => hne rfl⟩
  | some rows =>
    obtain ⟨items, hitems, rfl, hne'⟩ := hmid rows rfl
    refine ⟨items ++ later, ?_, (List.foldl_append ..).symm, ?_⟩
    · intro entries hentries
      exact (List.mem_append.mp hentries).elim (hitems entries) (hlater entries)
    · exact fun hbefore happ => hne' hbefore (List.append_eq_nil_iff.mp happ).1

namespace OnlyMatching

theorem refl (m : Mirror) : OnlyMatching hashOf m m where
  keptObjects _ _ h := h
  keptTrees _ h := h
  objects _ _ h := .inl h
  trees hash rows h := h ▸ .refl hashOf hash rows

theorem trans {m m' m'' : Mirror} (h : OnlyMatching hashOf m m')
    (h' : OnlyMatching hashOf m' m'') : OnlyMatching hashOf m m'' where
  keptObjects hash bytes hlookup := h'.keptObjects hash bytes (h.keptObjects hash bytes hlookup)
  keptTrees hash hmem := h'.keptTrees hash (h.keptTrees hash hmem)
  objects hash bytes hlookup := by
    rcases h'.objects hash bytes hlookup with hmid | hmatch
    · exact h.objects hash bytes hmid
    · exact .inr hmatch
  trees hash rows hlookup := by
    refine .trans (h.trees hash) ?_ (h'.trees hash rows hlookup)
    intro hnone
    by_contra hsome
    have hmem := h.keptTrees hash (AList.lookup_isSome.mp (Option.isSome_iff_ne_none.mpr hsome))
    rw [← AList.lookup_isSome, hnone] at hmem
    cases hmem

/-- A commit row or a tip stores neither a tree nor an object. -/
theorem ofEq {m m' : Mirror} (hobjects : m'.objects = m.objects)
    (htrees : m'.db.trees = m.db.trees) : OnlyMatching hashOf m m' where
  keptObjects _ _ h := by rwa [hobjects]
  keptTrees _ h := by rwa [htrees]
  objects _ _ h := .inl (by rwa [← hobjects])
  trees hash rows h := by
    rw [htrees] at h
    exact h ▸ .refl hashOf hash rows

end OnlyMatching

theorem verifyTree_ok {t : TreeData} {want : Hash} {entries : List TreeEntryRow}
    (h : verifyTree hashOf t = .ok (want, entries)) :
    want = hashOf (canonicalTreeBytes entries) ∧ toHash32 t.hash = .ok want := by
  obtain ⟨rows, -, h⟩ := bind_ok_iff.mp h
  obtain ⟨declared, hdecl, h⟩ := bind_ok_iff.mp h
  split_ifs at h with hne
  cases h
  exact ⟨rfl, by rw [hdecl, not_not.mp hne]⟩

theorem storeTree_onlyMatching {m m' : Mirror} {t : TreeData}
    (h : m.storeTree hashOf t = .ok m') : OnlyMatching hashOf m m' := by
  unfold Mirror.storeTree at h
  split at h
  · cases h
  · rename_i want entries hverify
    obtain ⟨hwant, -⟩ := verifyTree_ok hverify
    cases h
    refine ⟨fun _ _ hlookup => hlookup, ?_, fun _ _ hlookup => .inl hlookup, ?_⟩
    · intro hash hmem
      rw [← AList.lookup_isSome, lookup_putTree]
      split_ifs
      · rfl
      · exact AList.lookup_isSome.mpr hmem
    · intro hash rows hlookup
      rw [lookup_putTree] at hlookup
      split_ifs at hlookup with heq
      · cases hlookup
        subst heq
        exact ⟨[entries], by simp [hwant], rfl, by simp⟩
      · exact hlookup ▸ .refl hashOf hash rows

theorem storeObject_onlyMatching (m : Mirror) (hash : Hash) (bytes : Bytes) :
    OnlyMatching hashOf m (m.storeObject hashOf hash bytes).2 where
  keptObjects _ _ h := ObjectStore.lookup_put_of_mem hashOf h bytes
  keptTrees _ h := h
  objects hash' stored h := by
    simp only [Mirror.storeObject, ObjectStore.lookup_put] at h
    split_ifs at h with hnew
    · cases h
      exact .inr hnew.1.symm
    · exact .inl h
  trees hash' rows h := h ▸ .refl hashOf hash' rows

theorem storeCommit_onlyMatching {m m' : Mirror} {c : CommitData} (h : m.storeCommit c = .ok m') :
    OnlyMatching hashOf m m' := by
  unfold Mirror.storeCommit at h
  split at h
  · cases h
  · split at h
    · cases h
    · rename_i db hput
      cases h
      obtain ⟨-, -, rfl⟩ := putCommit_ok_iff.mp hput
      exact .ofEq rfl rfl

theorem advanceTip_onlyMatching (m : Mirror) (hash : Hash) :
    OnlyMatching hashOf m (m.advanceTip hash) := .ofEq rfl rfl

/-! ### What every fetch keeps -/

/-- A relation between the mirrors before and after, kept by each store of a fetch. -/
structure FetchKeeps (hashOf : Bytes → Hash) (R : Mirror → Mirror → Prop) : Prop where
  refl : ∀ m, R m m
  trans : ∀ {m m' m''}, R m m' → R m' m'' → R m m''
  storeTree : ∀ {m m' t}, m.storeTree hashOf t = .ok m' → R m m'
  storeObject : ∀ m hash bytes, R m (m.storeObject hashOf hash bytes).2

theorem fetchKeeps_onlyMatching : FetchKeeps hashOf (OnlyMatching hashOf) where
  refl := .refl
  trans := .trans
  storeTree := storeTree_onlyMatching
  storeObject := storeObject_onlyMatching

theorem fetchKeeps_commits : FetchKeeps hashOf fun m m' => m'.db.commits = m.db.commits where
  refl _ := rfl
  trans h h' := h'.trans h
  storeObject _ _ _ := rfl
  storeTree h := by
    unfold Mirror.storeTree at h
    split at h <;> cases h
    rfl

variable {R : Mirror → Mirror → Prop}

theorem andThen_keeps (hR : FetchKeeps hashOf R) {part : Option Outcome}
    {next : Receiver → Option Outcome} {m : Mirror} {o : Outcome} (h : andThen part next = some o)
    (hpart : ∀ mid, part = some mid → R m mid.2.mirror)
    (hnext : ∀ mid o, next mid = some o → R mid.mirror o.2.mirror) : R m o.2.mirror := by
  rcases andThen_eq_some.mp h with ⟨e, hfail, -⟩ | ⟨mid, hok, hrest⟩
  · exact hpart (.error e, o.2) hfail
  · exact hR.trans (hpart _ hok) (hnext mid o hrest)

theorem ensureObject_keeps (hR : FetchKeeps hashOf R) (target : Hash) (r : Receiver) :
    R r.mirror (ensureObject hashOf src target r).2.mirror := by
  unfold ensureObject
  split
  · exact hR.refl _
  · split
    · exact hR.refl _
    · rename_i bytes _
      have hstored := hR.storeObject r.mirror target bytes
      split <;> rename_i heq <;> rw [heq] at hstored <;> exact hstored

theorem storeFetched_keeps (hR : FetchKeeps hashOf R) (t : TreeData) (r : Receiver) :
    R r.mirror (storeFetched hashOf t r).2.mirror := by
  unfold storeFetched
  split
  · exact hR.refl _
  · exact hR.storeTree ‹_›

theorem ensureEntries_keeps (hR : FetchKeeps hashOf R) {visit : Hash → Receiver → Option Outcome}
    (hvisit : ∀ hash r o, visit hash r = some o → R r.mirror o.2.mirror)
    {entries : List TreeEntryMsg} {r : Receiver} {o : Outcome}
    (h : ensureEntries hashOf src visit entries r = some o) : R r.mirror o.2.mirror := by
  induction entries generalizing r o with
  | nil =>
    cases h
    exact hR.refl _
  | cons entry rest ih =>
    refine andThen_keeps hR h ?_ fun mid o hrest => ih hrest
    intro mid hentry
    unfold ensureEntry at hentry
    split at hentry
    · cases hentry
      exact hR.refl _
    · exact hvisit _ _ _ hentry
    · cases hentry
      exact ensureObject_keeps hR _ r

theorem ensureTree_keeps (hR : FetchKeeps hashOf R) {depth : Nat} {hash : Hash} {r : Receiver}
    {o : Outcome} (h : ensureTree hashOf src depth hash r = some o) : R r.mirror o.2.mirror := by
  induction depth generalizing hash r o with
  | zero => cases h
  | succ depth ih =>
    unfold ensureTree at h
    split at h
    · cases h
      exact hR.refl _
    · split at h
      · cases h
        exact hR.refl _
      · refine andThen_keeps hR h (fun mid hmid => ?_) fun mid o hlast => ?_
        · exact ensureEntries_keeps hR (fun _ _ _ => ih) hmid
        · cases hlast
          exact storeFetched_keeps hR _ mid

theorem pullSubtree_onlyMatching {depth : Nat} {rootTree : Hash} {m : Mirror}
    {o : Except NetError SubtreeSummary × Mirror}
    (h : pullSubtree hashOf src depth rootTree m = some o) : OnlyMatching hashOf m o.2 := by
  unfold pullSubtree at h
  split at h
  · cases h
  all_goals
    rename_i hfetch
    cases h
    exact ensureTree_keeps fetchKeeps_onlyMatching hfetch

theorem storeCommitRow_onlyMatching (c : CommitData) (r : Receiver) :
    OnlyMatching hashOf r.mirror (storeCommitRow c r).2.mirror := by
  unfold storeCommitRow
  split
  · exact .refl _
  · exact storeCommit_onlyMatching ‹_›

theorem applyCommits_onlyMatching {depth : Nat} {commits : List CommitData} {r : Receiver}
    {o : Outcome} (h : applyCommits hashOf src depth commits r = some o) :
    OnlyMatching hashOf r.mirror o.2.mirror := by
  have hR : FetchKeeps hashOf (OnlyMatching hashOf) := fetchKeeps_onlyMatching
  induction commits generalizing r o with
  | nil =>
    cases h
    exact .refl _
  | cons c rest ih =>
    unfold applyCommits at h
    split at h
    · cases h
      exact .refl _
    · refine andThen_keeps hR h (fun mid => ensureTree_keeps hR) fun mid o hrest => ?_
      refine andThen_keeps hR hrest (fun stored hrow => ?_) fun _ _ => ih
      cases hrow
      exact storeCommitRow_onlyMatching c mid

theorem pullBackfill_onlyMatching {depth : Nat} {missing : List CommitData} {announcedTip : Hash}
    {m : Mirror} {o : Outcome}
    (h : pullBackfill hashOf src depth missing announcedTip m = some o) :
    OnlyMatching hashOf m o.2.mirror := by
  refine andThen_keeps fetchKeeps_onlyMatching h (fun mid => applyCommits_onlyMatching) ?_
  intro mid o hlast
  cases hlast
  exact advanceTip_onlyMatching mid.mirror announcedTip

end Matching

end Softfig.Replica
