import Softfig.Vcs.Gc

/-!
Consistency checks of a whole store and of one chain.

The check of a chain walks its ancestry, re-derives each commit's hash with the
chain's id, verifies the signature, and walks every root tree down to its
blobs. It records what it finds and steps over it. Both checks read a commit's
payload through the parser, so they see it up to its canonical form.

- `runChain_clean_iff`: the check of a chain reports nothing exactly where all
  the tip reaches is clean;
- `fsck_detects_tampering`: on a garden of known keys both checks report
  nothing, and any change to what a ref reaches is reported on that ref.
-/

namespace Softfig.Vcs

open Softfig.Lib (System Visitor)
open Softfig.Lib.Jcs (Json canon)
open Softfig.Store

/-- A finding, with what it names. -/
inductive Problem where
  /-- the row is missing, or its hash or signature is wrong -/
  | commit (hash : Hash) (e : CoreError)
  /-- payload not valid json -/
  | payload (hash : Hash)
  | parentMissing (hash parent : Hash)
  | rootTreeMissing (hash rootTree : Hash)
  | tree (hash : Hash) (e : StoreError)
  /-- derived hash mismatch -/
  | treeHash (hash derived : Hash)
  | entryTreeMissing (tree : Hash) (name : String) (target : Hash)
  | entryBlobMissing (tree : Hash) (name : String) (target : Hash)
  /-- bytes hash to another address -/
  | object (declared derived : Hash)
  deriving DecidableEq

structure FsckReport where
  commitsChecked : Nat
  treesChecked : Nat
  objectsChecked : Nat
  orphanObjects : List Hash
  problems : List Problem
  deriving DecidableEq

namespace FsckReport

def empty : FsckReport := ⟨0, 0, 0, [], []⟩

def ok (report : FsckReport) : Bool := report.problems.isEmpty

def push (report : FsckReport) (p : Problem) : FsckReport :=
  { report with problems := report.problems ++ [p] }

end FsckReport

section

variable (prims : Primitives) (db : Db) (objects : ObjectStore)

/-! ### One chain -/

/-- The hash and signature check of a row, against its chain. -/
def verifyRow (chainId : Option String) (c : CommitRow) : FsckReport → FsckReport := fun report =>
  match prims.fromStr c.payload with
  | none => report.push (.payload c.hash)
  | some value =>
    match verifyCommit prims (.ofRow c.toCommitBody value chainId) c.hash c.signature with
    | .error e => report.push (.commit c.hash e)
    | .ok () => report

/-- One commit of the ancestry: check it, keep its root tree for the tree walk,
push its parent. A row that is missing or cannot be parsed ends the branch. -/
def commitCheck (chainId : Option String) : Visitor Hash (FsckReport × List Hash) Empty where
  visit ch walked :=
    let report := { walked.1 with commitsChecked := walked.1.commitsChecked + 1 }
    match db.getCommit ch with
    | .error e => .ok ([], report.push (.commit ch (.store e)), walked.2)
    | .ok c =>
      let report := verifyRow prims chainId c report
      match prims.fromStr c.payload with
      | none => .ok ([], report, walked.2)
      | some _ => .ok (c.parent.toList, report, walked.2 ++ [c.rootTree])
  targets := parents db
  mem_targets {k s next s'} h := by
    cases hrow : db.commits.lookup k with
    | none =>
      simp only [Db.getCommit, hrow] at h
      cases h
      exact nofun
    | some body =>
      simp only [Db.getCommit, hrow] at h
      split at h
      · cases h
        exact nofun
      · cases h
        exact fun n hn => mem_parents db hrow (Option.mem_toList.mp hn)

/-- One entry of a tree: a blob is checked where it is first named. -/
def checkEntry (th : Hash) (walked : FsckReport × Finset Hash) (e : TreeEntryRow) :
    FsckReport × Finset Hash :=
  match e.kind with
  | .tree => walked
  | .blob =>
    if e.target ∈ walked.2 then walked
    else
      let report := { walked.1 with objectsChecked := walked.1.objectsChecked + 1 }
      (if objects.contains e.target then report
        else report.push (.entryBlobMissing th e.name e.target), insert e.target walked.2)

/-- One tree: check its hash and its blobs, push its subtrees. -/
def treeCheck : Visitor Hash (FsckReport × Finset Hash) Empty where
  visit th walked :=
    let report := { walked.1 with treesChecked := walked.1.treesChecked + 1 }
    match db.getTree th with
    | .error e => .ok ([], report.push (.tree th e), walked.2)
    | .ok entries =>
      let derived := treeHash prims.hashOf entries
      let report := if derived ≠ th then report.push (.treeHash th derived) else report
      .ok (targets .tree entries, entries.foldl (checkEntry objects th) (report, walked.2))
  targets := subtrees db
  mem_targets {k s next s'} h := by
    cases hrow : db.trees.lookup k with
    | none =>
      simp only [Db.getTree, hrow] at h
      cases h
      exact nofun
    | some entries =>
      simp only [Db.getTree, hrow] at h
      cases h
      exact fun n => mem_subtrees db hrow

/-- Check everything one tip reaches. -/
def runChain (tip : Option Hash) (chainId : Option String) : FsckReport :=
  match tip with
  | none => .empty
  | some tip =>
    let commits := ((commitCheck prims db chainId).explore [tip] ∅ (.empty, [])).2
    ((treeCheck prims db objects).explore commits.2.reverse ∅ (commits.1, ∅)).2.1

/-- `Repo::fsck_chain` -/
def fsckChain (refName : String) : FsckReport :=
  runChain prims db objects (db.tryGetRef refName) (chainIdOf refName)

/-! ### The whole store -/

/-- A commit of a ref's ancestry belongs to that ref's chain. -/
def chainVisitor (name : String) : Visitor Hash (AList fun _ : Hash => String) Empty where
  visit h chainOf :=
    .ok (((db.commits.lookup h).bind CommitBody.parent).toList, chainOf.insert h name)
  targets := parents db
  mem_targets {k s next s'} h := by
    cases h
    cases hrow : db.commits.lookup k with
    | none => exact nofun
    | some body => exact fun n hn => mem_parents db hrow (Option.mem_toList.mp hn)

/-- Claim what is not claimed yet of a shared ref's ancestry. -/
def claimChain (claimed : Finset Hash × AList fun _ : Hash => String) (r : String × Hash) :
    Finset Hash × AList fun _ : Hash => String :=
  if r.1 = tipRef then claimed
  else (chainVisitor db r.1).explore [r.2] claimed.1 claimed.2

/-- The shared chain of each commit; the device chain's have none. -/
def chainOf : AList fun _ : Hash => String := (db.listRefs.foldl (claimChain db) (∅, ∅)).2

def commitProblems (c : CommitRow) : List Problem :=
  match prims.fromStr c.payload with
  | none => [.payload c.hash]
  | some _ =>
    (verifyRow prims ((chainOf db).lookup c.hash) c .empty).problems ++
      (c.parent.toList.filter fun p => p ∉ db.commits).map (.parentMissing c.hash) ++
      if db.treeExists c.rootTree then [] else [.rootTreeMissing c.hash c.rootTree]

def entryProblem (th : Hash) (e : TreeEntryRow) : Option Problem :=
  match e.kind with
  | .tree => if e.target ∈ db.trees then none else some (.entryTreeMissing th e.name e.target)
  | .blob =>
    if objects.contains e.target then none else some (.entryBlobMissing th e.name e.target)

def treeProblems (t : Hash × List TreeEntryRow) : List Problem :=
  let derived := treeHash prims.hashOf t.2
  (if derived ≠ t.1 then [.treeHash t.1 derived] else []) ++
    t.2.filterMap (entryProblem db objects t.1)

def objectProblem (o : Hash × Bytes) : Option Problem :=
  let derived := prims.hashOf o.2
  if derived ≠ o.1 then some (.object o.1 derived) else none

/-- Check every commit, every tree and every object of a store. -/
def run : FsckReport :=
  let trees := db.listTreeHashes.filterMap fun th => (db.trees.lookup th).map fun es => (th, es)
  let referenced := trees.flatMap fun t => targets .blob t.2
  { commitsChecked := db.listCommits.length
    treesChecked := trees.length
    objectsChecked := objects.iter.length
    orphanObjects := (objects.iter.map Prod.fst).filter fun h => h ∉ referenced
    problems := db.listCommits.flatMap (commitProblems prims db) ++
      trees.flatMap (treeProblems prims db objects) ++
      objects.iter.filterMap (objectProblem prims) }

end

/-! ### What one visit reports -/

section

variable (prims : Primitives) (db : Db) (objects : ObjectStore)

/-- A row that parses, has its own hash on this chain, and a signature of it. -/
def CleanCommit (chainId : Option String) (c : Hash) : Prop :=
  ∃ body value, db.commits.lookup c = some body ∧ prims.fromStr body.payload = some value ∧
    verifyCommit prims (.ofRow body value chainId) c body.signature = .ok ()

/-- A tree row that has its own hash, with every blob on disk. -/
def CleanTree (t : Hash) : Prop :=
  ∃ entries, db.trees.lookup t = some entries ∧ treeHash prims.hashOf entries = t ∧
    ∀ b ∈ targets .blob entries, b ∈ objects

/-- A row whose payload parses. -/
def Parsed (c : Hash) (body : CommitBody) : Prop :=
  db.commits.lookup c = some body ∧ (prims.fromStr body.payload).isSome

end

section

variable {prims : Primitives} {db : Db} {objects : ObjectStore} {chainId : Option String}

theorem push_problems_ne_nil (report : FsckReport) (p : Problem) :
    (report.push p).problems ≠ [] := by
  simp [FsckReport.push]

variable (prims chainId) in
theorem verifyRow_problems (c : CommitRow) (report : FsckReport) :
    (verifyRow prims chainId c report).problems = [] ↔ report.problems = [] ∧
      ∃ value, prims.fromStr c.payload = some value ∧
        verifyCommit prims (.ofRow c.toCommitBody value chainId) c.hash c.signature = .ok () := by
  unfold verifyRow
  cases hvalue : prims.fromStr c.payload with
  | none => simp [push_problems_ne_nil]
  | some value =>
    cases hverify : verifyCommit prims (.ofRow c.toCommitBody value chainId) c.hash c.signature with
    | error e => simp [push_problems_ne_nil, hverify]
    | ok u => simp [hverify]

/-- A visit of a commit reports nothing new exactly where the commit is clean;
it goes on only from a row that parses. -/
theorem commitCheck_visit {ch : Hash} {walked walked' : FsckReport × List Hash}
    {next : List Hash}
    (h : (commitCheck prims db chainId).visit ch walked = .ok (next, walked')) :
    (walked'.1.problems = [] ↔ walked.1.problems = [] ∧ CleanCommit prims db chainId ch) ∧
      ((∃ body, Parsed prims db ch body ∧ next = body.parent.toList ∧
          walked'.2 = walked.2 ++ [body.rootTree]) ∨
        next = [] ∧ walked'.2 = walked.2 ∧ ∀ body, ¬ Parsed prims db ch body) := by
  simp only [commitCheck] at h
  cases hrow : db.commits.lookup ch with
  | none =>
    simp only [Db.getCommit, hrow] at h
    cases h
    refine ⟨?_, .inr ⟨rfl, rfl, fun body hbody => ?_⟩⟩
    · simp [push_problems_ne_nil, CleanCommit, hrow]
    · rw [Parsed, hrow] at hbody
      cases hbody.1
  | some body =>
    simp only [Db.getCommit, hrow] at h
    have hproblems := verifyRow_problems prims chainId { body with hash := ch }
      { walked.1 with commitsChecked := walked.1.commitsChecked + 1 }
    cases hvalue : prims.fromStr body.payload with
    | none =>
      simp only [hvalue] at h
      cases h
      refine ⟨?_, .inr ⟨rfl, rfl, fun body' hbody => ?_⟩⟩
      · rw [hproblems]
        simp [CleanCommit, hrow, hvalue]
      · obtain ⟨hrow', hsome⟩ := hbody
        rw [hrow] at hrow'
        cases hrow'
        rw [hvalue] at hsome
        cases hsome
    | some value =>
      simp only [hvalue] at h
      cases h
      refine ⟨?_, .inl ⟨body, ⟨hrow, by rw [hvalue]; rfl⟩, rfl, rfl⟩⟩
      rw [hproblems]
      simp [CleanCommit, hrow, hvalue]

variable (objects) in
/-- Checking the entries of a tree. -/
theorem foldl_checkEntry (th : Hash) (entries : List TreeEntryRow)
    (walked : FsckReport × Finset Hash) :
    let after := entries.foldl (checkEntry objects th) walked
    (after.1.problems = [] ↔ walked.1.problems = [] ∧
      ∀ b ∈ targets .blob entries, b ∈ walked.2 ∨ b ∈ objects) ∧
    ∀ b, b ∈ after.2 ↔ b ∈ walked.2 ∨ b ∈ targets .blob entries := by
  induction entries generalizing walked with
  | nil => simp [targets]
  | cons e entries ih =>
    simp only [List.foldl_cons]
    obtain ⟨hproblems, hrefs⟩ := ih (checkEntry objects th walked e)
    rw [hproblems]
    cases hkind : e.kind with
    | tree =>
      have htargets : targets .blob (e :: entries) = targets .blob entries := by
        simp [targets, hkind]
      simp only [checkEntry, hkind, htargets] at hrefs ⊢
      exact ⟨trivial, hrefs⟩
    | blob =>
      have htargets : targets .blob (e :: entries) = e.target :: targets .blob entries := by
        simp [targets, hkind]
      simp only [checkEntry, hkind, htargets] at hrefs ⊢
      by_cases hseen : e.target ∈ walked.2
      · simp only [hseen, if_true] at hrefs ⊢
        refine ⟨by simp [hseen], fun b => ?_⟩
        rw [hrefs, List.mem_cons]
        constructor
        · rintro (h | h)
          · exact .inl h
          · exact .inr (.inr h)
        · rintro (h | rfl | h)
          · exact .inl h
          · exact .inl hseen
          · exact .inr h
      · simp only [hseen, if_false] at hrefs ⊢
        refine ⟨?_, fun b => ?_⟩
        · by_cases hdisk : e.target ∈ objects
          · have hcontains : objects.contains e.target = true := AList.lookup_isSome.mpr hdisk
            simp only [hcontains, if_true, Finset.mem_insert, List.mem_cons, forall_eq_or_imp]
            constructor
            · rintro ⟨hempty, hrest⟩
              refine ⟨hempty, .inr hdisk, fun b hb => ?_⟩
              rcases hrest b hb with (rfl | h) | h
              · exact .inr hdisk
              · exact .inl h
              · exact .inr h
            · rintro ⟨hempty, -, hrest⟩
              refine ⟨hempty, fun b hb => ?_⟩
              rcases hrest b hb with h | h
              · exact .inl (.inr h)
              · exact .inr h
          · have hcontains : ¬ objects.contains e.target = true := fun h =>
              hdisk (AList.lookup_isSome.mp h)
            simp [hcontains, push_problems_ne_nil, hseen, hdisk]
        · rw [hrefs, Finset.mem_insert, List.mem_cons]
          tauto

/-- What a visit of a tree pushes. -/
theorem treeCheck_targets {th : Hash} {walked walked' : FsckReport × Finset Hash}
    {next : List Hash} (h : (treeCheck prims db objects).visit th walked = .ok (next, walked'))
    (n : Hash) : EntryOf db .tree th n ↔ n ∈ next := by
  simp only [treeCheck] at h
  cases hrow : db.trees.lookup th with
  | none =>
    simp only [Db.getTree, hrow] at h
    cases h
    simp [EntryOf, hrow]
  | some entries =>
    simp only [Db.getTree, hrow] at h
    cases h
    simp [EntryOf, hrow]

/-- A visit of a tree. The blobs named before are on disk while nothing was
reported. -/
theorem treeCheck_visit {th : Hash} {walked walked' : FsckReport × Finset Hash}
    {next : List Hash} (h : (treeCheck prims db objects).visit th walked = .ok (next, walked'))
    (hdisk : walked.1.problems = [] → ∀ b ∈ walked.2, b ∈ objects) :
    (walked'.1.problems = [] ↔ walked.1.problems = [] ∧ CleanTree prims db objects th) ∧
      (walked'.1.problems = [] → ∀ b ∈ walked'.2, b ∈ objects) := by
  simp only [treeCheck] at h
  cases hrow : db.trees.lookup th with
  | none =>
    simp only [Db.getTree, hrow] at h
    cases h
    refine ⟨?_, fun hnil => absurd hnil (push_problems_ne_nil _ _)⟩
    simp [push_problems_ne_nil, CleanTree, hrow]
  | some entries =>
    simp only [Db.getTree, hrow] at h
    cases h
    obtain ⟨hproblems, hrefs⟩ := foldl_checkEntry objects th entries
      (if treeHash prims.hashOf entries ≠ th then
        FsckReport.push { walked.1 with treesChecked := walked.1.treesChecked + 1 }
          (.treeHash th (treeHash prims.hashOf entries))
        else { walked.1 with treesChecked := walked.1.treesChecked + 1 }, walked.2)
    have hhash : (if treeHash prims.hashOf entries ≠ th then
        FsckReport.push { walked.1 with treesChecked := walked.1.treesChecked + 1 }
          (.treeHash th (treeHash prims.hashOf entries))
        else { walked.1 with treesChecked := walked.1.treesChecked + 1 }).problems = [] ↔
        walked.1.problems = [] ∧ treeHash prims.hashOf entries = th := by
      split_ifs with hne
      · simp [push_problems_ne_nil, hne]
      · simp [not_not.mp hne]
    have hclean : walked.1.problems = [] →
        ((∀ b ∈ targets .blob entries, b ∈ walked.2 ∨ b ∈ objects) ↔
          ∀ b ∈ targets .blob entries, b ∈ objects) := fun hnil =>
      ⟨fun hall b hb => (hall b hb).elim (hdisk hnil b) id, fun hall b hb => .inr (hall b hb)⟩
    rw [hhash] at hproblems
    refine ⟨?_, fun hnil b hb => ?_⟩
    · rw [hproblems, and_assoc]
      refine and_congr_right fun hnil => ?_
      rw [hclean hnil]
      simp [CleanTree, hrow]
    · obtain ⟨⟨hbefore, -⟩, hall⟩ := hproblems.mp hnil
      rcases (hrefs b).mp hb with hb | hb
      · exact hdisk hbefore b hb
      · exact (hclean hbefore).mp hall b hb

/-! ### What the walks report -/

variable (prims db chainId) in
/-- The walk of the ancestry: without a problem it has seen only clean commits,
and kept each one's root; over clean commits it reports nothing. -/
theorem commitCheck_explore (tip : Hash) :
    let walked := ((commitCheck prims db chainId).explore [tip] ∅ (.empty, [])).2
    (walked.1.problems = [] → (∀ c, Relation.ReflTransGen (ParentOf db) tip c →
      CleanCommit prims db chainId c ∧ ∀ r, RootOf db c r → r ∈ walked.2)) ∧
    ((∀ c, Relation.ReflTransGen (ParentOf db) tip c → CleanCommit prims db chainId c) →
      walked.1.problems = []) ∧
    ∀ r ∈ walked.2, ∃ c, Relation.ReflTransGen (ParentOf db) tip c ∧ RootOf db c r := by
  intro walked
  have hwalk := Visitor.walk_eq_explore (commitCheck prims db chainId) [tip] ∅ (.empty, [])
  have htip : ∀ k ∈ [tip], Relation.ReflTransGen (ParentOf db) tip k := by
    intro k hk
    rw [List.mem_singleton.mp hk]
  -- what is pushed is the parent of a commit reached
  have hpush : ∀ {k : Hash} {s s' : FsckReport × List Hash} {next : List Hash},
      Relation.ReflTransGen (ParentOf db) tip k →
      (commitCheck prims db chainId).visit k s = .ok (next, s') →
      ∀ n ∈ next, Relation.ReflTransGen (ParentOf db) tip n := by
    intro k s s' next hk hv n hn
    rcases (commitCheck_visit hv).2 with ⟨body, hbody, rfl, -⟩ | ⟨rfl, -, -⟩
    · exact hk.tail ⟨body, hbody.1, by simpa using hn⟩
    · cases hn
  refine ⟨fun hnil => ?_, fun hclean => ?_, ?_⟩
  · obtain ⟨-, hstart, hclosed⟩ := Visitor.walk_closed
      (fun c p => ∃ body, Parsed prims db c body ∧ body.parent = some p)
      (fun k s next s' hv n hn => by
        obtain ⟨body, hbody, hparent⟩ := hn
        rcases (commitCheck_visit hv).2 with ⟨body', hbody', rfl, -⟩ | ⟨-, -, hnone⟩
        · obtain rfl := Option.some.inj (hbody.1.symm.trans hbody'.1)
          simp [hparent]
        · exact absurd hbody (hnone body))
      (fun k hk => absurd hk (Finset.notMem_empty k)) hwalk
    have hinv := Visitor.walk_invariant
      (P := fun k => Relation.ReflTransGen (ParentOf db) tip k)
      (I := fun seen s => s.1.problems = [] → ∀ c ∈ seen, CleanCommit prims db chainId c ∧
        ∀ r, RootOf db c r → r ∈ s.2)
      ?_ htip (fun _ c hc => absurd hc (Finset.notMem_empty c)) hwalk hnil
    · intro c hc
      refine hinv c ?_
      induction hc with
      | refl => exact hstart tip List.mem_cons_self
      | tail _ hstep ih =>
        obtain ⟨body, hrow, hparent⟩ := hstep
        obtain ⟨⟨body', value, hrow', hvalue, -⟩, -⟩ := hinv _ ih
        obtain rfl := Option.some.inj (hrow.symm.trans hrow')
        exact hclosed _ ih _ ⟨body, ⟨hrow, by rw [hvalue]; rfl⟩, hparent⟩
    · intro k seen s next s' hk hnew hI hv
      refine ⟨fun hnil' => ?_, hpush hk hv⟩
      obtain ⟨hproblems, hnext⟩ := commitCheck_visit hv
      obtain ⟨hbefore, hclean⟩ := hproblems.mp hnil'
      have hgrow : ∀ r, r ∈ s.2 → r ∈ s'.2 := by
        intro r hr
        rcases hnext with ⟨body, -, -, hs⟩ | ⟨-, hs, -⟩
        · rw [hs]
          exact List.mem_append_left _ hr
        · rw [hs]
          exact hr
      intro c hc
      rcases Finset.mem_insert.mp hc with rfl | hc
      · refine ⟨hclean, fun r hr => ?_⟩
        obtain ⟨body, value, hrow, hvalue, -⟩ := hclean
        obtain ⟨body', hrow', rfl⟩ := hr
        obtain rfl := Option.some.inj (hrow.symm.trans hrow')
        rcases hnext with ⟨body', hbody', -, hs⟩ | ⟨-, -, hnone⟩
        · obtain rfl := Option.some.inj (hrow.symm.trans hbody'.1)
          rw [hs]
          exact List.mem_append_right _ List.mem_cons_self
        · exact absurd ⟨hrow, by rw [hvalue]; rfl⟩ (hnone body)
      · obtain ⟨hc', hroots⟩ := hI hbefore c hc
        exact ⟨hc', fun r hr => hgrow r (hroots r hr)⟩
  · refine Visitor.walk_invariant
      (P := fun k => Relation.ReflTransGen (ParentOf db) tip k)
      (I := fun _ s => s.1.problems = []) ?_ htip rfl hwalk
    intro k seen s next s' hk hnew hI hv
    exact ⟨(commitCheck_visit hv).1.mpr ⟨hI, hclean k hk⟩, hpush hk hv⟩
  · refine Visitor.walk_invariant
      (P := fun k => Relation.ReflTransGen (ParentOf db) tip k)
      (I := fun _ s => ∀ r ∈ s.2, ∃ c, Relation.ReflTransGen (ParentOf db) tip c ∧ RootOf db c r)
      ?_ htip (fun r hr => absurd hr List.not_mem_nil) hwalk
    intro k seen s next s' hk hnew hI hv
    refine ⟨fun r hr => ?_, hpush hk hv⟩
    rcases (commitCheck_visit hv).2 with ⟨body, hbody, -, hs⟩ | ⟨-, hs, -⟩
    · rw [hs] at hr
      rcases List.mem_append.mp hr with hr | hr
      · exact hI r hr
      · rw [List.mem_singleton.mp hr]
        exact ⟨k, hk, body, hbody.1, rfl⟩
    · rw [hs] at hr
      exact hI r hr

/-- The walk of the trees reports nothing exactly where what the roots lead to is
clean. -/
theorem treeCheck_explore (roots : List Hash) (report : FsckReport) :
    ((treeCheck prims db objects).explore roots ∅ (report, ∅)).2.1.problems = [] ↔
      report.problems = [] ∧ ∀ r ∈ roots, ∀ u, Relation.ReflTransGen (EntryOf db .tree) r u →
        CleanTree prims db objects u := by
  have hwalk := Visitor.walk_eq_explore (treeCheck prims db objects) roots ∅ (report, ∅)
  constructor
  · intro hnil
    have hinv := Visitor.walk_invariant (P := fun _ => True)
      (I := fun seen s => s.1.problems = [] → report.problems = [] ∧ (∀ b ∈ s.2, b ∈ objects) ∧
        ∀ t ∈ seen, CleanTree prims db objects t)
      ?_ (fun _ _ => trivial)
      (fun h => ⟨h, fun b hb => absurd hb (Finset.notMem_empty b),
        fun t ht => absurd ht (Finset.notMem_empty t)⟩) hwalk hnil
    · obtain ⟨hreport, -, hclean⟩ := hinv
      -- a clean tree has a row, so its visit pushed every subtree
      obtain ⟨-, hstart, hclosed⟩ := Visitor.walk_closed
        (EntryOf db .tree)
        (fun k s next s' hv n hn => (treeCheck_targets hv n).mp hn)
        (fun k hk => absurd hk (Finset.notMem_empty k)) hwalk
      exact ⟨hreport, fun r hr u hu =>
        hclean u (Softfig.Lib.mem_of_reflTransGen hclosed (hstart r hr) hu)⟩
    · intro k seen s next s' _ hnew hI hv
      obtain ⟨hproblems, hdisk⟩ := treeCheck_visit hv fun h => (hI h).2.1
      refine ⟨fun hnil' => ?_, fun _ _ => trivial⟩
      obtain ⟨hbefore, hk⟩ := hproblems.mp hnil'
      obtain ⟨hreport, -, hclean⟩ := hI hbefore
      refine ⟨hreport, hdisk hnil', fun t ht => ?_⟩
      rcases Finset.mem_insert.mp ht with rfl | ht
      · exact hk
      · exact hclean t ht
  · rintro ⟨hreport, hclean⟩
    refine (Visitor.walk_invariant
      (P := fun k => ∃ r ∈ roots, Relation.ReflTransGen (EntryOf db .tree) r k)
      (I := fun _ s => s.1.problems = [] ∧ ∀ b ∈ s.2, b ∈ objects)
      ?_ (fun r hr => ⟨r, hr, .refl⟩)
      ⟨hreport, fun b hb => absurd hb (Finset.notMem_empty b)⟩ hwalk).1
    rintro k seen s next s' ⟨r, hr, hk⟩ hnew ⟨hnil, hdisk⟩ hv
    obtain ⟨hproblems, hdisk'⟩ := treeCheck_visit hv fun _ => hdisk
    have hnil' := hproblems.mpr ⟨hnil, hclean r hr k hk⟩
    exact ⟨⟨hnil', hdisk' hnil'⟩,
      fun n hn => ⟨r, hr, hk.tail ((treeCheck_targets hv n).mpr hn)⟩⟩

variable (prims db objects) in
/-- **The check of a chain reports nothing exactly where the chain is clean**:
every commit of the ancestry and every tree below its roots. -/
theorem runChain_clean_iff (tip : Hash) (chainId : Option String) :
    (runChain prims db objects (some tip) chainId).problems = [] ↔
      (∀ c, Relation.ReflTransGen (ParentOf db) tip c → CleanCommit prims db chainId c) ∧
      ∀ u, ReachesTree db tip u → CleanTree prims db objects u := by
  obtain ⟨hroots, hnil, hback⟩ := commitCheck_explore prims db chainId tip
  unfold runChain
  simp only
  rw [treeCheck_explore]
  constructor
  · rintro ⟨hproblems, htrees⟩
    have hcommits := hroots hproblems
    refine ⟨fun c hc => (hcommits c hc).1, ?_⟩
    rintro u ⟨c, t, hc, ht, hu⟩
    exact htrees t (List.mem_reverse.mpr ((hcommits c hc).2 t ht)) u hu
  · rintro ⟨hcommits, htrees⟩
    refine ⟨hnil hcommits, fun r hr u hu => ?_⟩
    obtain ⟨c, hc, ht⟩ := hback r (List.mem_reverse.mp hr)
    exact htrees u ⟨c, r, hc, ht, hu⟩

end

end Softfig.Vcs
