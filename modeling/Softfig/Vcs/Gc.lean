import Softfig.Lib.Transition
import Softfig.Lib.Worklist
import Softfig.Vcs.Chain
import Softfig.Vcs.Integrity

/-!
Reachability over every chain, and garbage collection of loose objects.

One worklist walks a tip's ancestry and, for each commit, another walks its
trees; the trees seen under one commit are not walked again under the next.
Collection keeps what any ref reaches and fails before it deletes when some row
cannot be read.

- `reachableFrom_blobs`: the blobs found are the blobs reached;
- `gc_spec`: what a collection keeps, collects and reports;
- `run_keeps_live`: what no run of commits, collections and registry changes
  takes away.
-/

namespace Softfig.Vcs

open Softfig.Lib (System Visitor)
open Softfig.Store

/-- Reads and deletions the machine may refuse. -/
structure Faults where
  read : Hash → Option StoreError
  list : Option StoreError
  remove : Hash → Option StoreError

def Faults.none : Faults := ⟨fun _ => .none, .none, fun _ => .none⟩

/-- The object closure of one tip. -/
structure Reachable where
  commits : Finset Hash
  trees : Finset Hash
  blobs : Finset Hash

section

variable (faults : Faults) (db : Db)

def readTree (hash : Hash) : Except StoreError (List TreeEntryRow) :=
  match faults.read hash with
  | some e => .error e
  | none => db.getTree hash

def readCommit (hash : Hash) : Except StoreError CommitRow :=
  match faults.read hash with
  | some e => .error e
  | none => db.getCommit hash

def targets (kind : TreeEntryKind) (entries : List TreeEntryRow) : List Hash :=
  (entries.filter fun e => e.kind = kind).map TreeEntryRow.target

theorem readTree_ok {hash : Hash} {entries : List TreeEntryRow}
    (h : readTree faults db hash = .ok entries) : db.trees.lookup hash = some entries := by
  unfold readTree Db.getTree at h
  split at h
  · cases h
  · split at h
    · cases h
      assumption
    · cases h

theorem readCommit_ok {hash : Hash} {row : CommitRow}
    (h : readCommit faults db hash = .ok row) :
    db.commits.lookup hash = some row.toCommitBody := by
  unfold readCommit Db.getCommit at h
  split at h
  · cases h
  · split at h
    · cases h
      assumption
    · cases h

/-- Every tree some row names as a subtree. -/
def subtrees : Finset Hash := (db.trees.entries.flatMap fun r => targets .tree r.2).toFinset

/-- Every commit some row names as its parent. -/
def parents : Finset Hash := (db.commits.entries.filterMap fun r => r.2.parent).toFinset

theorem mem_subtrees {t u : Hash} {entries : List TreeEntryRow}
    (h : db.trees.lookup t = some entries) (hu : u ∈ targets .tree entries) :
    u ∈ subtrees db :=
  List.mem_toFinset.mpr (List.mem_flatMap.mpr ⟨⟨t, entries⟩, AList.mem_lookup_iff.mp h, hu⟩)

theorem mem_parents {c p : Hash} {body : CommitBody} (h : db.commits.lookup c = some body)
    (hp : p ∈ body.parent) : p ∈ parents db :=
  List.mem_toFinset.mpr (List.mem_filterMap.mpr ⟨⟨c, body⟩, AList.mem_lookup_iff.mp h, hp⟩)

/-- One tree: push its subtrees, add its blobs. -/
def treeVisitor : Visitor Hash (Finset Hash) StoreError where
  visit th blobs :=
    match readTree faults db th with
    | .error e => .error e
    | .ok entries => .ok (targets .tree entries, blobs ∪ (targets .blob entries).toFinset)
  targets := subtrees db
  mem_targets {k s next s'} h := by
    cases hrow : readTree faults db k with
    | error e => simp [hrow] at h
    | ok entries =>
      simp only [hrow] at h
      cases h
      exact fun n => mem_subtrees db (readTree_ok faults db hrow)

/-- Add a root and every subtree and blob below it. -/
def walkTree (root : Hash) (trees blobs : Finset Hash) :
    Except StoreError (Finset Hash × Finset Hash) :=
  (treeVisitor faults db).walk [root] trees blobs

/-- One commit: walk its root tree, push its parent. -/
def commitVisitor : Visitor Hash (Finset Hash × Finset Hash) StoreError where
  visit ch walked :=
    match readCommit faults db ch with
    | .error e => .error e
    | .ok commit =>
      match walkTree faults db commit.rootTree walked.1 walked.2 with
      | .error e => .error e
      | .ok walked => .ok (commit.parent.toList, walked)
  targets := parents db
  mem_targets {k s next s'} h := by
    cases hrow : readCommit faults db k with
    | error e => simp [hrow] at h
    | ok commit =>
      simp only [hrow] at h
      cases hwalk : walkTree faults db commit.rootTree s.1 s.2 with
      | error e => simp [hwalk] at h
      | ok walked =>
        simp only [hwalk] at h
        cases h
        exact fun n hn => mem_parents db (readCommit_ok faults db hrow) (Option.mem_toList.mp hn)

/-- Everything reachable from one tip. -/
def reachableFrom (tip : Hash) : Except StoreError Reachable :=
  match (commitVisitor faults db).walk [tip] ∅ (∅, ∅) with
  | .error e => .error e
  | .ok (commits, trees, blobs) => .ok ⟨commits, trees, blobs⟩

/-- The blobs reachable from some tip of a list. -/
def liveBlobs : List Hash → Finset Hash → Except StoreError (Finset Hash)
  | [], live => .ok live
  | tip :: tips, live =>
    match reachableFrom faults db tip with
    | .error e => .error e
    | .ok r => liveBlobs tips (live ∪ r.blobs)

/-- What a collection did. -/
structure GcReport where
  scanned : Nat
  kept : Nat
  collected : List Hash
  deriving DecidableEq

/-- Count the objects on disk and gather those to delete. -/
def scan (live : Finset Hash) : List (Hash × Bytes) → GcReport → List Hash → GcReport × List Hash
  | [], report, doomed => (report, doomed)
  | (declared, _) :: rest, report, doomed =>
    let report := { report with scanned := report.scanned + 1 }
    if declared ∈ live then scan live rest { report with kept := report.kept + 1 } doomed
    else scan live rest report (doomed ++ [declared])

/-- Delete one object after the other, up to one that cannot be deleted. -/
def sweep : List Hash → ObjectStore → GcReport → ObjectStore × Except StoreError GcReport
  | [], objects, report => (objects, .ok report)
  | h :: rest, objects, report =>
    match faults.remove h with
    | some e => (objects, .error e)
    | none =>
      sweep rest (objects.remove h) { report with collected := report.collected ++ [h] }

/-- Collect the loose objects no tip of the list reaches. -/
def gc (objects : ObjectStore) (tips : List Hash) : ObjectStore × Except StoreError GcReport :=
  match liveBlobs faults db tips ∅ with
  | .error e => (objects, .error e)
  | .ok live =>
    match faults.list with
    | some e => (objects, .error e)
    | none =>
      let scanned := scan live objects.iter ⟨0, 0, []⟩ []
      sweep faults scanned.2 objects scanned.1

end

/-- `Repo::gc`: collect against the tip of every ref. -/
def Store.gc (faults : Faults) (store : Store) : Store × Except StoreError GcReport :=
  let swept := Softfig.Vcs.gc faults store.db store.objects (liveTips store.db)
  ({ store with objects := swept.1 }, swept.2)

/-! ### What a tip reaches -/

section

variable (db : Db)

def ParentOf (c p : Hash) : Prop :=
  ∃ body, db.commits.lookup c = some body ∧ body.parent = some p

def RootOf (c t : Hash) : Prop := ∃ body, db.commits.lookup c = some body ∧ body.rootTree = t

/-- An entry of this kind in one tree. -/
def EntryOf (kind : TreeEntryKind) (t h : Hash) : Prop :=
  ∃ entries, db.trees.lookup t = some entries ∧ h ∈ targets kind entries

/-- A tree at any depth below the root of any commit of the ancestry. -/
def ReachesTree (tip u : Hash) : Prop :=
  ∃ c t, Relation.ReflTransGen (ParentOf db) tip c ∧ RootOf db c t ∧
    Relation.ReflTransGen (EntryOf db .tree) t u

def Reaches (tip b : Hash) : Prop := ∃ u, ReachesTree db tip u ∧ EntryOf db .blob u b

/-- A blob some ref reaches. -/
def Live (b : Hash) : Prop := ∃ refName tip, db.tryGetRef refName = some tip ∧ Reaches db tip b

end

section

variable {faults : Faults} {db : Db}

/-- Trees walked so far: closed under subtrees, with exactly their blobs. -/
structure Walked (db : Db) (trees blobs : Finset Hash) : Prop where
  closed : ∀ t ∈ trees, ∀ u, EntryOf db .tree t u → u ∈ trees
  blobs : ∀ b, b ∈ blobs ↔ ∃ t ∈ trees, EntryOf db .blob t b

theorem treeVisitor_visit {th : Hash} {blobs : Finset Hash} {next : List Hash}
    {blobs' : Finset Hash} (h : (treeVisitor faults db).visit th blobs = .ok (next, blobs')) :
    ∃ entries, db.trees.lookup th = some entries ∧ next = targets .tree entries ∧
      blobs' = blobs ∪ (targets .blob entries).toFinset := by
  simp only [treeVisitor] at h
  cases hrow : readTree faults db th with
  | error e => simp [hrow] at h
  | ok entries =>
    simp only [hrow] at h
    cases h
    exact ⟨entries, readTree_ok faults db hrow, rfl, rfl⟩

/-- Walking a root adds it, what is below it, and nothing else. -/
theorem walkTree_spec {root : Hash} {trees blobs trees' blobs' : Finset Hash}
    (hwalked : Walked db trees blobs)
    (h : walkTree faults db root trees blobs = .ok (trees', blobs')) :
    Walked db trees' blobs' ∧ trees ⊆ trees' ∧ root ∈ trees' ∧
      ∀ t ∈ trees', t ∈ trees ∨ Relation.ReflTransGen (EntryOf db .tree) root t := by
  have hsucc : ∀ k s next s', (treeVisitor faults db).visit k s = .ok (next, s') →
      ∀ n, EntryOf db .tree k n → n ∈ next := by
    intro k s next s' hv n hn
    obtain ⟨entries, hrow, rfl, -⟩ := treeVisitor_visit hv
    obtain ⟨entries', hrow', hmem⟩ := hn
    rw [hrow] at hrow'
    cases hrow'
    exact hmem
  obtain ⟨hsub, hroot, hclosed⟩ := Visitor.walk_closed _ hsucc hwalked.closed h
  have hinv := Visitor.walk_invariant
    (P := fun k => Relation.ReflTransGen (EntryOf db .tree) root k)
    (I := fun seen blobs => (∀ b, b ∈ blobs ↔ ∃ t ∈ seen, EntryOf db .blob t b) ∧
      ∀ t ∈ seen, t ∈ trees ∨ Relation.ReflTransGen (EntryOf db .tree) root t)
    ?_ ?_ ⟨hwalked.blobs, fun t ht => .inl ht⟩ h
  · exact ⟨⟨hclosed, hinv.1⟩, hsub, hroot root List.mem_cons_self, hinv.2⟩
  · rintro k seen s next s' hk - ⟨hblobs, hfrom⟩ hv
    obtain ⟨entries, hrow, rfl, rfl⟩ := treeVisitor_visit hv
    refine ⟨⟨fun b => ?_, fun t ht => ?_⟩, fun n hn => hk.tail ⟨entries, hrow, hn⟩⟩
    · rw [Finset.mem_union, hblobs, List.mem_toFinset]
      constructor
      · rintro (⟨t, ht, hb⟩ | hb)
        · exact ⟨t, Finset.mem_insert_of_mem ht, hb⟩
        · exact ⟨k, Finset.mem_insert_self _ _, entries, hrow, hb⟩
      · rintro ⟨t, ht, hb⟩
        rcases Finset.mem_insert.mp ht with rfl | ht
        · obtain ⟨entries', hrow', hmem⟩ := hb
          rw [hrow] at hrow'
          cases hrow'
          exact .inr hmem
        · exact .inl ⟨t, ht, hb⟩
    · rcases Finset.mem_insert.mp ht with rfl | ht
      · exact .inr hk
      · exact hfrom t ht
  · intro k hk
    rw [List.mem_singleton.mp hk]

theorem commitVisitor_visit {ch : Hash} {walked walked' : Finset Hash × Finset Hash}
    {next : List Hash} (h : (commitVisitor faults db).visit ch walked = .ok (next, walked')) :
    ∃ body, db.commits.lookup ch = some body ∧ next = body.parent.toList ∧
      walkTree faults db body.rootTree walked.1 walked.2 = .ok walked' := by
  simp only [commitVisitor] at h
  cases hrow : readCommit faults db ch with
  | error e => simp [hrow] at h
  | ok commit =>
    simp only [hrow] at h
    cases hwalk : walkTree faults db commit.rootTree walked.1 walked.2 with
    | error e => simp [hwalk] at h
    | ok w =>
      simp only [hwalk] at h
      cases h
      exact ⟨commit.toCommitBody, readCommit_ok faults db hrow, rfl, hwalk⟩

/-- **The blobs found are the blobs reached**, whatever commits and trees share. -/
theorem reachableFrom_blobs {tip : Hash} {r : Reachable} (h : reachableFrom faults db tip = .ok r)
    (b : Hash) : b ∈ r.blobs ↔ Reaches db tip b := by
  unfold reachableFrom at h
  cases hwalk : (commitVisitor faults db).walk [tip] ∅ (∅, ∅) with
  | error e => simp [hwalk] at h
  | ok out =>
    obtain ⟨commits, trees, blobs⟩ := out
    simp only [hwalk] at h
    cases h
    have hsucc : ∀ k s next s', (commitVisitor faults db).visit k s = .ok (next, s') →
        ∀ n, ParentOf db k n → n ∈ next := by
      intro k s next s' hv n hn
      obtain ⟨body, hrow, rfl, -⟩ := commitVisitor_visit hv
      obtain ⟨body', hrow', hparent⟩ := hn
      rw [hrow] at hrow'
      cases hrow'
      simp [hparent]
    obtain ⟨-, htip, hclosed⟩ := Visitor.walk_closed _ hsucc
      (fun k hk => absurd hk (Finset.notMem_empty k)) hwalk
    -- each commit visited has put its root into the trees the walks share
    have hinv := Visitor.walk_invariant
      (P := fun k => Relation.ReflTransGen (ParentOf db) tip k)
      (I := fun seen walked => Walked db walked.1 walked.2 ∧
        (∀ c ∈ seen, ∀ t, RootOf db c t → t ∈ walked.1) ∧ ∀ t ∈ walked.1, ReachesTree db tip t)
      ?_ ?_ ⟨⟨fun _ h => absurd h (Finset.notMem_empty _), by simp⟩, by simp, by simp⟩ hwalk
    · obtain ⟨hwalked, hroots, hreached⟩ := hinv
      rw [hwalked.blobs]
      constructor
      · rintro ⟨t, ht, hb⟩
        exact ⟨t, hreached t ht, hb⟩
      · rintro ⟨u, ⟨c, t, hc, ht, hu⟩, hb⟩
        have hseen := Softfig.Lib.mem_of_reflTransGen hclosed (htip tip List.mem_cons_self) hc
        exact ⟨u, Softfig.Lib.mem_of_reflTransGen hwalked.closed (hroots c hseen t ht) hu, hb⟩
    · rintro k seen ⟨ts, bs⟩ next ⟨ts', bs'⟩ hk - ⟨hwalked, hroots, hreached⟩ hv
      obtain ⟨body, hrow, rfl, hwalktree⟩ := commitVisitor_visit hv
      obtain ⟨hwalked', hsub, hroot, hfrom⟩ := walkTree_spec hwalked hwalktree
      refine ⟨⟨hwalked', fun c hc t ht => ?_, fun t ht => ?_⟩, fun n hn => ?_⟩
      · rcases Finset.mem_insert.mp hc with rfl | hc
        · obtain ⟨body', hrow', rfl⟩ := ht
          rw [hrow] at hrow'
          cases hrow'
          exact hroot
        · exact hsub (hroots c hc t ht)
      · rcases hfrom t ht with ht | ht
        · exact hreached t ht
        · exact ⟨k, body.rootTree, hk, ⟨body, hrow, rfl⟩, ht⟩
      · exact hk.tail ⟨body, hrow, by simpa using hn⟩
    · intro k hk
      rw [List.mem_singleton.mp hk]

theorem liveBlobs_spec {tips : List Hash} {live live' : Finset Hash}
    (h : liveBlobs faults db tips live = .ok live') (b : Hash) :
    b ∈ live' ↔ b ∈ live ∨ ∃ tip ∈ tips, Reaches db tip b := by
  induction tips generalizing live with
  | nil =>
    cases h
    simp
  | cons tip tips ih =>
    rw [liveBlobs] at h
    cases hr : reachableFrom faults db tip with
    | error e => simp [hr] at h
    | ok r =>
      simp only [hr] at h
      rw [ih h, Finset.mem_union, reachableFrom_blobs hr, or_assoc]
      simp

theorem mem_liveTips {db : Db} {tip : Hash} :
    tip ∈ liveTips db ↔ ∃ refName, db.tryGetRef refName = some tip := by
  simp only [liveTips, List.mem_map, Db.tryGetRef, ← Db.mem_listRefs]
  constructor
  · rintro ⟨⟨refName, tip⟩, hmem, rfl⟩
    exact ⟨refName, hmem⟩
  · rintro ⟨refName, hmem⟩
    exact ⟨(refName, tip), hmem, rfl⟩

/-! ### Scanning and sweeping -/

theorem scan_spec (live : Finset Hash) (listing : List (Hash × Bytes)) (report : GcReport)
    (doomed : List Hash) :
    let out := scan live listing report doomed
    out.1.scanned = report.scanned + listing.length ∧
      out.1.kept + out.2.length = report.kept + doomed.length + listing.length ∧
      out.1.collected = report.collected ∧
      out.2 = doomed ++ (listing.map Prod.fst).filter (· ∉ live) := by
  induction listing generalizing report doomed with
  | nil => simp [scan]
  | cons entry rest ih =>
    obtain ⟨declared, bytes⟩ := entry
    simp only [scan]
    split_ifs with hlive
    · obtain ⟨hscanned, hkept, hcollected, hdoomed⟩ := ih
        ⟨report.scanned + 1, report.kept + 1, report.collected⟩ doomed
      dsimp only at hscanned hkept
      refine ⟨?_, ?_, hcollected, ?_⟩
      · rw [hscanned, List.length_cons]
        omega
      · rw [hkept, List.length_cons]
        omega
      · rw [hdoomed]
        simp [hlive]
    · obtain ⟨hscanned, hkept, hcollected, hdoomed⟩ := ih
        ⟨report.scanned + 1, report.kept, report.collected⟩ (doomed ++ [declared])
      rw [List.length_append, List.length_singleton] at hkept
      dsimp only at hscanned hkept
      refine ⟨?_, ?_, hcollected, ?_⟩
      · rw [hscanned, List.length_cons]
        omega
      · rw [hkept, List.length_cons]
        omega
      · rw [hdoomed]
        simp [hlive]

/-- A sweep touches the doomed only; one that ends has deleted them all. -/
theorem sweep_spec (faults : Faults) (doomed : List Hash) (objects : ObjectStore) (report : GcReport) :
    let out := sweep faults doomed objects report
    (∀ h, h ∉ doomed → out.1.lookup h = objects.lookup h) ∧
      (∀ h bytes, out.1.lookup h = some bytes → objects.lookup h = some bytes) ∧
      ∀ report', out.2 = .ok report' → (∀ h ∈ doomed, h ∉ out.1) ∧
        report' = { report with collected := report.collected ++ doomed } := by
  induction doomed generalizing objects report with
  | nil =>
    refine ⟨fun _ _ => rfl, fun _ _ h => h, fun report' h => ?_⟩
    cases h
    simp
  | cons d doomed ih =>
    simp only [sweep]
    cases hfault : faults.remove d with
    | some e => exact ⟨fun _ _ => rfl, fun _ _ h => h, nofun⟩
    | none =>
      obtain ⟨hkeep, hback, hok⟩ := ih (objects.remove d)
        { report with collected := report.collected ++ [d] }
      have hremoved : ∀ h bytes, (objects.remove d).lookup h = some bytes →
          h ≠ d ∧ objects.lookup h = some bytes := by
        intro h bytes hb
        have hne : h ≠ d := by
          rintro rfl
          rw [ObjectStore.remove, AList.lookup_erase] at hb
          cases hb
        exact ⟨hne, (AList.lookup_erase_ne hne).symm.trans hb⟩
      refine ⟨fun h hh => ?_, fun h bytes hb => (hremoved h bytes (hback h bytes hb)).2,
        fun report' hreport => ?_⟩
      · rw [List.mem_cons, not_or] at hh
        exact (hkeep h hh.2).trans (AList.lookup_erase_ne hh.1)
      · obtain ⟨hdone, rfl⟩ := hok report' hreport
        refine ⟨fun h hh => ?_, by simp⟩
        rcases List.mem_cons.mp hh with rfl | hh
        · intro hmem
          obtain ⟨bytes, hb⟩ := Option.isSome_iff_exists.mp (AList.lookup_isSome.mpr hmem)
          exact (hremoved h bytes (hback h bytes hb)).1 rfl
        · exact hdone h hh

/-- **What a collection does.** The database is not touched; every live blob is
left as it was, whatever is returned; and a collection that ends has kept
exactly the live objects and counted each one. -/
theorem gc_spec (faults : Faults) (store : Store) :
    let out := store.gc faults
    out.1.db = store.db ∧
      (∀ b, Live store.db b → out.1.objects.lookup b = store.objects.lookup b) ∧
      (∀ h bytes, out.1.objects.lookup h = some bytes → store.objects.lookup h = some bytes) ∧
      ∀ report, out.2 = .ok report →
        (∀ h, h ∈ out.1.objects ↔ h ∈ store.objects ∧ Live store.db h) ∧
        report.kept + report.collected.length = report.scanned ∧
        report.scanned = store.objects.entries.length ∧
        ∀ h, h ∈ report.collected ↔ h ∈ store.objects ∧ ¬ Live store.db h := by
  simp only [Store.gc, gc]
  cases hlive : liveBlobs faults store.db (liveTips store.db) ∅ with
  | error e => exact ⟨trivial, fun _ _ => rfl, fun _ _ h => h, nofun⟩
  | ok live =>
    have hmem : ∀ b, b ∈ live ↔ Live store.db b := by
      intro b
      rw [liveBlobs_spec hlive]
      constructor
      · rintro (h | ⟨tip, htip, hb⟩)
        · exact absurd h (Finset.notMem_empty b)
        · obtain ⟨refName, href⟩ := mem_liveTips.mp htip
          exact ⟨refName, tip, href, hb⟩
      · rintro ⟨refName, tip, href, hb⟩
        exact .inr ⟨tip, mem_liveTips.mpr ⟨refName, href⟩, hb⟩
    cases hlist : faults.list with
    | some e => exact ⟨trivial, fun _ _ => rfl, fun _ _ h => h, nofun⟩
    | none =>
      dsimp only
      have hscan := scan_spec live store.objects.iter ⟨0, 0, []⟩ []
      obtain ⟨hscanned, hkept, hcollected, hdoomed⟩ := hscan
      obtain ⟨hkeep, hback, hok⟩ := sweep_spec faults
        (scan live store.objects.iter ⟨0, 0, []⟩ []).2 store.objects
        (scan live store.objects.iter ⟨0, 0, []⟩ []).1
      have hdead : ∀ h, h ∈ (scan live store.objects.iter ⟨0, 0, []⟩ []).2 ↔
          h ∈ store.objects ∧ ¬ Live store.db h := by
        intro h
        rw [hdoomed, List.nil_append, List.mem_filter]
        simp only [hmem, decide_not, Bool.not_eq_true', decide_eq_false_iff_not,
          ObjectStore.mem_iter]
      refine ⟨trivial, fun b hb => hkeep b fun hdoom => ((hdead b).mp hdoom).2 hb, hback,
        fun report hreport => ?_⟩
      obtain ⟨hdone, rfl⟩ := hok report hreport
      refine ⟨fun h => ⟨fun hh => ?_, fun hh => ?_⟩, ?_, ?_, fun h => ?_⟩
      · have hstored : h ∈ store.objects := by
          obtain ⟨bytes, hb⟩ := Option.isSome_iff_exists.mp (AList.lookup_isSome.mpr hh)
          exact AList.lookup_isSome.mp (by rw [hback h bytes hb]; rfl)
        refine ⟨hstored, ?_⟩
        by_contra hnot
        exact hdone h ((hdead h).mpr ⟨hstored, hnot⟩) hh
      · have hsame := hkeep h fun hdoom => ((hdead h).mp hdoom).2 hh.2
        rw [← AList.lookup_isSome, hsame, AList.lookup_isSome]
        exact hh.1
      · rw [hcollected, hscanned, List.nil_append, hkept]
        simp
      · rw [hscanned]
        simp [ObjectStore.iter]
      · rw [hcollected, List.nil_append]
        exact hdead h

end

/-- One commit of one file; the blob no tree names goes. -/
example :
    let body : CommitBody := ⟨none, ⟨[2]⟩, "alpha", [], 0, "init", "\x7b\x7d", 1, []⟩
    let db : Db := ⟨AList.insert "tip" ⟨[1]⟩ ∅, AList.insert ⟨[1]⟩ body ∅,
      AList.insert ⟨[2]⟩ [⟨"a", .blob, 0o644, ⟨[3]⟩⟩] ∅⟩
    let store : Store := ⟨db, AList.insert ⟨[4]⟩ [4] (AList.insert ⟨[3]⟩ [3] ∅)⟩
    (store.gc .none).2.toOption = some ⟨2, 1, [⟨[4]⟩]⟩ := by
  decide +kernel

/-! ### Runs of commits and collections -/

/-- Rows stay, and a tip moves only to a descendant. -/
structure KeepsDb (db db' : Db) : Prop where
  refs : ∀ refName tip, db.tryGetRef refName = some tip →
    ∃ tip', db'.tryGetRef refName = some tip' ∧ Relation.ReflTransGen (ParentOf db') tip' tip
  commits : ∀ c body, db.commits.lookup c = some body → db'.commits.lookup c = some body
  trees : ∀ t es, db.trees.lookup t = some es → db'.trees.lookup t = some es

namespace KeepsDb

variable {db db' db'' : Db}

theorem refl (db : Db) : KeepsDb db db :=
  ⟨fun _ tip h => ⟨tip, h, .refl⟩, fun _ _ h => h, fun _ _ h => h⟩

theorem parentOf (h : KeepsDb db db') {c p : Hash} (hp : ParentOf db c p) : ParentOf db' c p := by
  obtain ⟨body, hrow, hparent⟩ := hp
  exact ⟨body, h.commits c body hrow, hparent⟩

theorem entryOf (h : KeepsDb db db') {kind : TreeEntryKind} {t u : Hash}
    (hu : EntryOf db kind t u) : EntryOf db' kind t u := by
  obtain ⟨entries, hrow, hmem⟩ := hu
  exact ⟨entries, h.trees t entries hrow, hmem⟩

theorem trans (h : KeepsDb db db') (h' : KeepsDb db' db'') : KeepsDb db db'' := by
  refine ⟨fun refName tip htip => ?_, fun c body hc => h'.commits c body (h.commits c body hc),
    fun t es ht => h'.trees t es (h.trees t es ht)⟩
  obtain ⟨tip', htip', hpath⟩ := h.refs refName tip htip
  obtain ⟨tip'', htip'', hpath'⟩ := h'.refs refName tip' htip'
  exact ⟨tip'', htip'', hpath'.trans (Relation.ReflTransGen.mono (fun _ _ => h'.parentOf) _ _ hpath)⟩

/-- What an ancestor reaches stays reached. -/
theorem reaches (h : KeepsDb db db') {tip tip' b : Hash}
    (hpath : Relation.ReflTransGen (ParentOf db') tip' tip) (hb : Reaches db tip b) :
    Reaches db' tip' b := by
  obtain ⟨u, ⟨c, t, hc, ⟨body, hrow, hroot⟩, hu⟩, hblob⟩ := hb
  exact ⟨u, ⟨c, t, hpath.trans (Relation.ReflTransGen.mono (fun _ _ => h.parentOf) _ _ hc),
    ⟨body, h.commits c body hrow, hroot⟩, Relation.ReflTransGen.mono (fun _ _ => h.entryOf) _ _ hu⟩, h.entryOf hblob⟩

end KeepsDb

/-- Rows stay, tips move to descendants, and live blobs keep their bytes. -/
structure Keeps (s t : Store) : Prop where
  db : KeepsDb s.db t.db
  blobs : ∀ b bytes, Live s.db b → s.objects.lookup b = some bytes →
    t.objects.lookup b = some bytes

theorem Keeps.live {s t : Store} (h : Keeps s t) {b : Hash} (hb : Live s.db b) : Live t.db b := by
  obtain ⟨refName, tip, htip, hreach⟩ := hb
  obtain ⟨tip', htip', hpath⟩ := h.db.refs refName tip htip
  exact ⟨refName, tip', htip', h.db.reaches hpath hreach⟩

theorem Keeps.trans {s t u : Store} (h : Keeps s t) (h' : Keeps t u) : Keeps s u :=
  ⟨h.db.trans h'.db, fun b bytes hb hbytes =>
    h'.blobs b bytes (h.live hb) (h.blobs b bytes hb hbytes)⟩

/-- Tree rows and objects are named by their content. -/
structure Store.Addressed (hashOf : Bytes → Hash) (store : Store) : Prop where
  trees : TreeStore.TreesSound hashOf store.db.trees
  objects : store.objects.Sound hashOf

/-- A write step over sound tree rows. -/
theorem WriteCase.keeps {prims : Primitives} (hinj : Function.Injective prims.hashOf)
    {session : Session} {refName : String} {parent : Option Hash}
    {trees : List (Hash × List TreeEntryRow)} {rootTree : Hash} {intent : Intent}
    {timestamp : Int} {policy : SameTreePolicy} {db : Db}
    {out : Db × Except CoreError CommitOutcome}
    (hdb : TreeStore.TreesSound prims.hashOf db.trees)
    (htrees : ∀ t ∈ trees, treeHash prims.hashOf t.2 = t.1 ∧ SortedByName t.2)
    (h : WriteCase prims session refName parent trees rootTree intent timestamp policy db out) :
    TreeStore.TreesSound prims.hashOf out.1.trees ∧ KeepsDb db out.1 := by
  cases h with
  | failed e => exact ⟨hdb, .refl db⟩
  | noOp p hskip => exact ⟨hdb, .refl db⟩
  | written row hrow hskip hnew hparent htip =>
    obtain ⟨hsound, hold, -, -⟩ := putTrees_sound hinj hdb htrees
    refine ⟨hsound, ⟨fun name tip hname => ?_, fun c body hc => ?_, hold⟩⟩
    · by_cases heq : name = refName
      · subst heq
        -- the row's parent is the tip the write replaced
        obtain ⟨-, -, -, hrowparent, -⟩ := authorCommitRow_ok hrow
        rw [Db.tryGetRef, htip] at hname
        refine ⟨row.hash, AList.lookup_insert _, .single ⟨row.toCommitBody,
          AList.lookup_insert _, hrowparent.trans hname⟩⟩
      · exact ⟨tip, (AList.lookup_insert_ne heq).trans hname, .refl⟩
    · have hne : c ≠ row.hash := by
        rintro rfl
        exact hnew (AList.lookup_isSome.mp (by rw [hc]; rfl))
      exact (AList.lookup_insert_ne hne).trans hc

/-- A commit call, over whatever tip it read before. -/
theorem Call.write_keeps {prims : Primitives} (hinj : Function.Injective prims.hashOf)
    (call : Call) (parent : Option Hash) (now : Int) {store : Store}
    (hstore : store.Addressed prims.hashOf) :
    (call.write prims parent now store).1.Addressed prims.hashOf ∧
      Keeps store (call.write prims parent now store).1 := by
  cases hrequest : call.request with
  | overTree rootTree =>
    have hcase := writeTx_cases prims call.session call.refName parent [] rootTree
      call.intent now .skip store.db
    obtain ⟨hsound, hkeeps⟩ := hcase.keeps hinj hstore.trees fun t ht =>
      absurd ht List.not_mem_nil
    simp only [Call.write, hrequest]
    exact ⟨⟨hsound, hstore.objects⟩, ⟨hkeeps, fun _ _ _ h => h⟩⟩
  | snapshot snapshot policy =>
    obtain ⟨hobjects, hkeep, hok⟩ := buildWith_spec call.session.encryptor call.refName hinj
      snapshot.sorted hstore.objects
    simp only [Call.write, hrequest]
    rcases hbuild : buildWith prims.hashOf call.session.encryptor call.refName store.objects
      snapshot.root with ⟨objects, e | bp⟩
    · rw [hbuild] at hobjects hkeep
      exact ⟨⟨hstore.trees, hobjects⟩, ⟨.refl _, fun b bytes _ => hkeep b bytes⟩⟩
    · rw [hbuild] at hobjects hkeep hok
      have htrees : ∀ t ∈ bp.trees.entries.map (fun t => (t.1, t.2)),
          treeHash prims.hashOf t.2 = t.1 ∧ SortedByName t.2 := fun t ht =>
        (hok bp rfl).1.trees _ _ (mem_entries_map.mp ht)
      have hcase := writeTx_cases prims call.session call.refName parent
        (bp.trees.entries.map fun t => (t.1, t.2)) bp.root call.intent now policy store.db
      obtain ⟨hsound, hkeeps⟩ := hcase.keeps hinj hstore.trees htrees
      exact ⟨⟨hsound, hobjects⟩, ⟨hkeeps, fun b bytes _ => hkeep b bytes⟩⟩

theorem gc_keeps {hashOf : Bytes → Hash} (faults : Faults) {store : Store}
    (hstore : store.Addressed hashOf) :
    (store.gc faults).1.Addressed hashOf ∧ Keeps store (store.gc faults).1 := by
  obtain ⟨hdb, hlive, hback, -⟩ := gc_spec faults store
  refine ⟨⟨hdb ▸ hstore.trees, fun h bytes hb => hstore.objects h bytes (hback h bytes hb)⟩,
    ⟨hdb ▸ .refl _, fun b bytes hb h => (hlive b hb).trans h⟩⟩

/-- A garden: its store, and the registry its mount routes by. -/
structure Garden where
  store : Store
  registry : ChainRegistry

/-- Enabling, disabling, adding and removing a share replace the registry; what
they record is recorded by commits. -/
inductive GardenOp where
  | commit (call : Call) (parent : Option Hash) (now : Int)
  | gc (faults : Faults)
  | setRegistry (registry : ChainRegistry)

def Garden.step (prims : Primitives) (g : Garden) : GardenOp → Option Garden
  | .commit call parent now => some { g with store := (call.write prims parent now g.store).1 }
  | .gc faults => some { g with store := (g.store.gc faults).1 }
  | .setRegistry registry => some { g with registry }

def collectedGardens (prims : Primitives) : System Garden GardenOp :=
  .ofFun ⟨.empty, .deviceOnly⟩ (Garden.step prims)

theorem Garden.step_keeps {prims : Primitives} (hinj : Function.Injective prims.hashOf)
    {g g' : Garden} {op : GardenOp} (hg : g.store.Addressed prims.hashOf)
    (h : g.step prims op = some g') :
    g'.store.Addressed prims.hashOf ∧ Keeps g.store g'.store := by
  cases op with
  | commit call parent now =>
    cases h
    exact call.write_keeps hinj parent now hg
  | gc faults =>
    cases h
    exact gc_keeps faults hg
  | setRegistry registry =>
    cases h
    exact ⟨hg, ⟨.refl _, fun _ _ _ h => h⟩⟩

theorem reachable_addressed {prims : Primitives} (hinj : Function.Injective prims.hashOf)
    {g : Garden} (h : (collectedGardens prims).Reachable g) :
    g.store.Addressed prims.hashOf := by
  refine System.Reachable.invariant (P := fun g => g.store.Addressed prims.hashOf) ?_ ?_ h
  · rintro s rfl
    exact ⟨fun _ _ h => by simp [Store.empty, Db.empty] at h,
      fun _ _ h => by simp [Store.empty] at h⟩
  · intro s op t _ hs hstep
    exact (Garden.step_keeps hinj hs hstep).1

/-- No run takes anything away from what some ref reaches. -/
theorem run_keeps {prims : Primitives} (hinj : Function.Injective prims.hashOf) {g g' : Garden}
    (hg : (collectedGardens prims).Reachable g) {ops : List GardenOp}
    (h : (collectedGardens prims).Run g ops g') : Keeps g.store g'.store := by
  induction h with
  | refl => exact ⟨.refl _, fun _ _ _ h => h⟩
  | snoc hrun hstep ih =>
    have hbefore := reachable_addressed hinj (hg.run hrun)
    exact ih.trans (Garden.step_keeps hinj hbefore hstep).2

def GardenOp.isCommit : GardenOp → Bool
  | .commit _ _ _ => true
  | _ => false

/-- Collections and registry changes alone move no row and no live blob, in any
store. -/
theorem run_without_commits {prims : Primitives} {g g' : Garden} {ops : List GardenOp}
    (h : (collectedGardens prims).Run g ops g') (hops : ∀ op ∈ ops, op.isCommit = false) :
    g'.store.db = g.store.db ∧
      ∀ b, Live g.store.db b → g'.store.objects.lookup b = g.store.objects.lookup b := by
  induction h with
  | refl => exact ⟨rfl, fun _ _ => rfl⟩
  | @snoc t r ops op hrun hstep ih =>
    obtain ⟨hdb, hlive⟩ := ih fun o ho => hops o (List.mem_append_left _ ho)
    cases op with
    | commit call parent now =>
      have := hops _ (List.mem_append_right _ List.mem_cons_self)
      cases this
    | gc faults =>
      cases hstep
      obtain ⟨hdb', hlive', -⟩ := gc_spec faults t.store
      exact ⟨hdb'.trans hdb, fun b hb => (hlive' b (hdb ▸ hb)).trans (hlive b hb)⟩
    | setRegistry registry =>
      cases hstep
      exact ⟨hdb, hlive⟩

def demoCommit (summary : String) (content : Bytes) : Call where
  session := demoSession "alpha"
  refName := "chain/app"
  intent := .init summary
  request := .snapshot (WalkSnapshot.empty.insertFile (.parse "a") 0o644 content) .skip

/-- A first commit of a chain, and one that is refused after its blob was put. -/
def demoGarden : Garden :=
  (System.replay (Garden.step identityPrims) ⟨.empty, .deviceOnly⟩
    [.commit (demoCommit "" [1]) none 0, .commit (demoCommit "again" [2]) none 0]).getD ⟨.empty, .deviceOnly⟩

/-- The share is removed and added again around two collections. -/
def demoRemoval : List GardenOp :=
  [.gc .none, .setRegistry .deviceOnly, .gc .none, .setRegistry ChainRegistry.demoRegistry]

end Softfig.Vcs
