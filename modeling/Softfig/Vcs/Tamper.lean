import Softfig.Vcs.Fsck

/-!
Tamper evidence.

A garden whose commits were all authored by known keys is clean: each commit
belongs to the ancestry of one ref and was hashed with that ref's chain. A
chain whose check reports nothing under the same tip agrees with the garden it
came from on everything the tip reaches.

- `AuthoredGarden.write`: a commit call keeps a garden authored;
- `chainOf_eq`: the whole-store check finds the chain each commit was hashed with;
- `clean_agrees`: what an unreported chain agrees on;
- `fsck_detects_tampering`: both checks, over every garden and every change.
-/

namespace Softfig.Vcs

open Softfig.Lib (System Visitor)
open Softfig.Lib.Jcs (Json canon)
open Softfig.Store

theorem chainIdOf_injective {a b : String} (h : chainIdOf a = chainIdOf b) : a = b := by
  unfold chainIdOf at h
  split_ifs at h with ha hb hb
  · rw [ha, hb]
  · exact Option.some.inj h

/-! ### Authored gardens -/

section

variable (prims : Primitives)

/-- A key the verifier knows, whose signatures nobody else makes; and a tree to
re-author that is stored. -/
structure KnownCall (store : Store) (call : Call) : Prop where
  key : prims.keyFromBytes call.session.identityPubkey = true
  signature : ∀ m s, prims.verifyStrict call.session.identityPubkey m s = true ↔
    s = call.session.sign m
  root : ∀ root, call.request = .overTree root → root ∈ store.db.trees

/-- Commit calls by known keys on any refs, each over whatever tip it read. -/
def authoredSystem : System Store (Call × Option Hash × Int) where
  init store := store = .empty
  step store label store' :=
    KnownCall prims store label.1 ∧ store' = (label.1.write prims label.2.1 label.2.2 store).1

/-- A commit hashed with this ref's chain and signed by a known key. -/
def Authored (db : Db) (refName : String) (c : Hash) : Prop :=
  ∃ body value, db.commits.lookup c = some body ∧ prims.fromStr body.payload = some value ∧
    (CanonicalCommit.ofRow body value (chainIdOf refName)).hash prims = c ∧
    prims.keyFromBytes body.authorPubkey = true ∧
    ∀ s, prims.verifyStrict body.authorPubkey c.bytes s = true ↔ s = body.signature

/-- What authoring keeps true of a garden. -/
structure AuthoredGarden (store : Store) : Prop where
  sound : store.held.Sound prims.hashOf
  tips : ∀ refName tip, store.db.tryGetRef refName = some tip → Authored prims store.db refName tip
  parents : ∀ refName c p, Authored prims store.db refName c → ParentOf store.db c p →
    Authored prims store.db refName p
  commits : ∀ c, c ∈ store.db.commits → ∃ refName tip,
    store.db.tryGetRef refName = some tip ∧ Relation.ReflTransGen (ParentOf store.db) tip c
  roots : ∀ c t, RootOf store.db c t → t ∈ store.db.trees

end

section

variable {prims : Primitives}

theorem Authored.mono {db db' : Db} (h : KeepsDb db db') {refName : String} {c : Hash}
    (hc : Authored prims db refName c) : Authored prims db' refName c := by
  obtain ⟨body, value, hrow, hrest⟩ := hc
  exact ⟨body, value, h.commits c body hrow, hrest⟩

/-- A commit is of one chain. -/
theorem Authored.unique (hinj : Function.Injective prims.hashOf) {db : Db} {a b : String} {c : Hash}
    (ha : Authored prims db a c) (hb : Authored prims db b c) : a = b := by
  obtain ⟨body, value, hrow, hvalue, hhash, -⟩ := ha
  obtain ⟨body', value', hrow', hvalue', hhash', -⟩ := hb
  have hbytes := hinj (hhash.trans hhash'.symm)
  exact chainIdOf_injective (CanonicalCommit.canonicalBytes_eq hbytes).2.2.2.2.2.2.2.2

theorem AuthoredGarden.empty : AuthoredGarden prims .empty where
  sound := TreeStore.sound_empty _
  tips _ _ h := by simp [Store.empty, Db.empty, Db.tryGetRef] at h
  parents _ _ _ h _ := by
    obtain ⟨body, value, hrow, -⟩ := h
    simp [Store.empty, Db.empty] at hrow
  commits c h := by simp [Store.empty, Db.empty] at h
  roots _ _ h := by
    obtain ⟨body, hrow, -⟩ := h
    simp [Store.empty, Db.empty] at hrow

/-- A call that leaves the database as it was. -/
theorem AuthoredGarden.of_db_eq {store store' : Store} (h : AuthoredGarden prims store)
    (hdb : store'.db = store.db) (hsound : store'.held.Sound prims.hashOf) :
    AuthoredGarden prims store' := by
  refine ⟨hsound, ?_, ?_, ?_, ?_⟩ <;> rw [hdb]
  · exact h.tips
  · exact h.parents
  · exact h.commits
  · exact h.roots

/-- **A commit call keeps a garden authored**, over whatever tip it read. -/
theorem AuthoredGarden.write (hinj : Function.Injective prims.hashOf) {store : Store}
    (h : AuthoredGarden prims store) {call : Call} (hcall : KnownCall prims store call)
    (parent : Option Hash) (now : Int) :
    AuthoredGarden prims (call.write prims parent now store).1 := by
  obtain ⟨hsound, -, hheld⟩ := call.write_held hinj parent now h.sound
  obtain ⟨-, hkeeps⟩ := call.write_keeps hinj parent now ⟨h.sound.trees, h.sound.objects⟩
  have hkeepsDb := hkeeps.db
  rcases call.write_cases prims parent now store with ⟨e, -, hdb⟩ | ⟨trees, rootTree, hroot, hcase⟩
  · exact h.of_db_eq hdb hsound
  · generalize hout : ((call.write prims parent now store).1.db,
      (call.write prims parent now store).2) = out at hcase
    cases hcase with
    | failed e => exact h.of_db_eq (congrArg Prod.fst hout) hsound
    | noOp p hskip => exact h.of_db_eq (congrArg Prod.fst hout) hsound
    | written row hrow hskip hnew hparent htip =>
      obtain ⟨hdb, hresult⟩ := Prod.mk.inj hout
      obtain ⟨value, hvalue, hhash, hrowparent, hrowroot, hkey, hsig⟩ := authorCommitRow_ok hrow
      have hlookup : (call.write prims parent now store).1.db.commits.lookup row.hash =
          some row.toCommitBody := by
        rw [hdb]
        exact AList.lookup_insert _
      have hold : ∀ c, c ≠ row.hash → (call.write prims parent now store).1.db.commits.lookup c =
          store.db.commits.lookup c := by
        intro c hc
        rw [hdb]
        exact AList.lookup_insert_ne hc
      have hauthored : Authored prims (call.write prims parent now store).1.db call.refName
          row.hash := by
        refine ⟨_, value, hlookup, hvalue, hhash.symm, ?_, fun s => ?_⟩
        · rw [hkey]
          exact hcall.key
        · rw [hkey, hsig]
          exact hcall.signature _ s
      refine ⟨hsound, fun refName tip htip' => ?_, fun refName c p hc hp => ?_, fun c hc => ?_,
        fun c t ht => ?_⟩
      · rw [hdb, Db.tryGetRef] at htip'
        by_cases href : refName = call.refName
        · subst href
          rw [AList.lookup_insert] at htip'
          cases htip'
          exact hauthored
        · rw [AList.lookup_insert_ne href] at htip'
          exact (h.tips refName tip htip').mono hkeepsDb
      · by_cases hcrow : c = row.hash
        · -- the parent of the new commit is the tip it replaced
          subst hcrow
          obtain rfl := hc.unique hinj hauthored
          obtain ⟨body, hbody, hpbody⟩ := hp
          obtain rfl := Option.some.inj (hlookup.symm.trans hbody)
          refine (h.tips call.refName p ?_).mono hkeepsDb
          exact htip.trans (hrowparent.symm.trans hpbody)
        · obtain ⟨body, value', hbody, hrest⟩ := hc
          obtain ⟨body', hbody', hpbody⟩ := hp
          rw [hold c hcrow] at hbody hbody'
          exact (h.parents refName c p ⟨body, value', hbody, hrest⟩
            ⟨body', hbody', hpbody⟩).mono hkeepsDb
      · by_cases hcrow : c = row.hash
        · refine ⟨call.refName, row.hash, ?_, hcrow ▸ .refl⟩
          rw [hdb]
          exact AList.lookup_insert _
        · have hmem : c ∈ store.db.commits := by
            rw [← AList.lookup_isSome, ← hold c hcrow, AList.lookup_isSome]
            exact hc
          obtain ⟨refName, tip, htip', hpath⟩ := h.commits c hmem
          obtain ⟨tip', hnewtip, hpath'⟩ := hkeepsDb.refs refName tip htip'
          exact ⟨refName, tip', hnewtip, hpath'.trans
            (Relation.ReflTransGen.mono (fun _ _ => hkeepsDb.parentOf) _ _ hpath)⟩
      · have hkept : ∀ u, u ∈ store.db.trees → u ∈ (call.write prims parent now store).1.db.trees := by
          intro u hu
          obtain ⟨es, hes⟩ := Option.isSome_iff_exists.mp (AList.lookup_isSome.mpr hu)
          exact AList.lookup_isSome.mp (by rw [hkeepsDb.trees u es hes]; rfl)
        by_cases hcrow : c = row.hash
        · subst hcrow
          obtain ⟨body, hbody, hrootbody⟩ := ht
          obtain rfl := Option.some.inj (hlookup.symm.trans hbody)
          have htroot : t = rootTree := hrootbody.symm.trans hrowroot
          cases hrequest : call.request with
          | overTree root =>
            rw [Call.rootOf, hrequest] at hroot
            cases hroot
            exact hkept t (htroot ▸ hcall.root _ hrequest)
          | snapshot snapshot policy =>
            obtain ⟨root, hroot', es, -, -, hes, -⟩ := hheld snapshot policy _ hrequest hresult
            obtain rfl := Except.ok.inj (hroot.symm.trans hroot')
            rw [htroot]
            exact AList.lookup_isSome.mp (by
              rw [show (call.write prims parent now store).1.db.trees.lookup rootTree = some es
                from hes]
              rfl)
        · obtain ⟨body, hbody, hrootbody⟩ := ht
          rw [hold c hcrow] at hbody
          exact hkept t (h.roots c t ⟨body, hbody, hrootbody⟩)

theorem reachable_authored (hinj : Function.Injective prims.hashOf) {store : Store}
    (h : (authoredSystem prims).Reachable store) : AuthoredGarden prims store := by
  refine System.Reachable.invariant (P := AuthoredGarden prims) ?_ ?_ h
  · rintro store rfl
    exact .empty
  · rintro store ⟨call, parent, now⟩ store' - hstore ⟨hcall, rfl⟩
    exact hstore.write hinj hcall parent now

/-! ### Authored gardens are clean -/

theorem Authored.clean {db : Db} {refName : String} {c : Hash} (h : Authored prims db refName c) :
    CleanCommit prims db (chainIdOf refName) c := by
  obtain ⟨body, value, hrow, hvalue, hhash, hkey, hsig⟩ := h
  exact ⟨body, value, hrow, hvalue, verifyCommit_ok_iff.mpr ⟨hhash, hkey, (hsig _).mpr rfl⟩⟩

namespace AuthoredGarden

variable {store : Store}

theorem ancestor (h : AuthoredGarden prims store) {refName : String} {tip c : Hash}
    (htip : Authored prims store.db refName tip)
    (hc : Relation.ReflTransGen (ParentOf store.db) tip c) : Authored prims store.db refName c := by
  induction hc with
  | refl => exact htip
  | tail _ hstep ih => exact h.parents refName _ _ ih hstep

theorem mem_objects (h : AuthoredGarden prims store) {t b : Hash}
    (hb : EntryOf store.db .blob t b) : b ∈ store.objects := by
  obtain ⟨entries, hrow, hmem⟩ := hb
  obtain ⟨e, he, rfl⟩ := List.mem_map.mp hmem
  obtain ⟨hentry, hkind⟩ := List.mem_filter.mp he
  have hstored := h.sound.closed t entries hrow e hentry
  simp only [decide_eq_true_eq] at hkind
  rw [TreeStore.EntryStored, hkind] at hstored
  exact hstored

theorem mem_subtree (h : AuthoredGarden prims store) {t u : Hash}
    (hu : EntryOf store.db .tree t u) : u ∈ store.db.trees := by
  obtain ⟨entries, hrow, hmem⟩ := hu
  obtain ⟨e, he, rfl⟩ := List.mem_map.mp hmem
  obtain ⟨hentry, hkind⟩ := List.mem_filter.mp he
  have hstored := h.sound.closed t entries hrow e hentry
  simp only [decide_eq_true_eq] at hkind
  rw [TreeStore.EntryStored, hkind] at hstored
  exact hstored

theorem cleanTree (h : AuthoredGarden prims store) {t : Hash} (ht : t ∈ store.db.trees) :
    CleanTree prims store.db store.objects t := by
  obtain ⟨entries, hrow⟩ := Option.isSome_iff_exists.mp (AList.lookup_isSome.mpr ht)
  exact ⟨entries, hrow, (h.sound.trees t entries hrow).1,
    fun b hb => h.mem_objects ⟨entries, hrow, hb⟩⟩

theorem mem_trees (h : AuthoredGarden prims store) {tip u : Hash}
    (hu : ReachesTree store.db tip u) : u ∈ store.db.trees := by
  obtain ⟨c, t, -, ht, hpath⟩ := hu
  induction hpath with
  | refl => exact h.roots c t ht
  | tail _ hstep _ => exact h.mem_subtree hstep

/-- The check of every chain reports nothing. -/
theorem fsckChain_problems (h : AuthoredGarden prims store) (refName : String) :
    (fsckChain prims store.db store.objects refName).problems = [] := by
  unfold fsckChain
  cases htip : store.db.tryGetRef refName with
  | none => rfl
  | some tip =>
    rw [runChain_clean_iff]
    exact ⟨fun c hc => (h.ancestor (h.tips refName tip htip) hc).clean,
      fun u hu => h.cleanTree (h.mem_trees hu)⟩

end AuthoredGarden

/-! ### The chain of each commit -/

/-- What claiming the ancestry of one shared ref after the other keeps true. -/
structure Claimed (prims : Primitives) (db : Db)
    (claimed : Finset Hash × AList fun _ : Hash => String) : Prop where
  closed : ∀ k ∈ claimed.1, ∀ p, ParentOf db k p → p ∈ claimed.1
  named : ∀ k ∈ claimed.1, (claimed.2.lookup k).isSome
  authored : ∀ k name, claimed.2.lookup k = some name → name ≠ tipRef ∧ Authored prims db name k

theorem claimChain_spec {store : Store} (h : AuthoredGarden prims store)
    {claimed : Finset Hash × AList fun _ : Hash => String} (hclaimed : Claimed prims store.db claimed)
    {r : String × Hash} (hr : store.db.tryGetRef r.1 = some r.2) :
    Claimed prims store.db (claimChain store.db claimed r) ∧
      claimed.1 ⊆ (claimChain store.db claimed r).1 ∧
      (r.1 ≠ tipRef → r.2 ∈ (claimChain store.db claimed r).1) := by
  unfold claimChain
  split_ifs with hdevice
  · exact ⟨hclaimed, Finset.Subset.refl _, fun hne => absurd hdevice hne⟩
  · have hwalk := Visitor.walk_eq_explore (chainVisitor store.db r.1) [r.2] claimed.1 claimed.2
    obtain ⟨hold, hstart, hclosed⟩ := Visitor.walk_closed (ParentOf store.db)
      (fun k s next s' hv n hn => by
        obtain ⟨body, hrow, hparent⟩ := hn
        cases hv
        simp [hrow, hparent]) hclaimed.closed hwalk
    have hinv := Visitor.walk_invariant (P := fun k => Authored prims store.db r.1 k)
      (I := fun seen m => (∀ k ∈ seen, (m.lookup k).isSome) ∧
        ∀ k name, m.lookup k = some name → name ≠ tipRef ∧ Authored prims store.db name k)
      ?_ ?_ ⟨hclaimed.named, hclaimed.authored⟩ hwalk
    · exact ⟨⟨hclosed, hinv.1, hinv.2⟩, hold, fun _ => hstart r.2 List.mem_cons_self⟩
    · rintro k seen m next m' hk - ⟨hnamed, hauthored⟩ hv
      cases hv
      refine ⟨⟨fun j hj => ?_, fun j name hname => ?_⟩, fun n hn => ?_⟩
      · by_cases heq : j = k
        · rw [heq, AList.lookup_insert]
          rfl
        · rw [AList.lookup_insert_ne heq]
          exact hnamed j (Finset.mem_of_mem_insert_of_ne hj heq)
      · by_cases heq : j = k
        · subst heq
          rw [AList.lookup_insert] at hname
          cases hname
          exact ⟨hdevice, hk⟩
        · rw [AList.lookup_insert_ne heq] at hname
          exact hauthored j name hname
      · obtain ⟨body, hrow, hparent⟩ := Option.bind_eq_some_iff.mp (Option.mem_toList.mp hn)
        exact h.parents r.1 k n hk ⟨body, hrow, hparent⟩
    · intro k hk
      rw [List.mem_singleton.mp hk]
      exact h.tips r.1 r.2 hr

theorem foldl_claimChain {store : Store} (h : AuthoredGarden prims store)
    {refs : List (String × Hash)} (hrefs : ∀ r ∈ refs, store.db.tryGetRef r.1 = some r.2)
    {claimed : Finset Hash × AList fun _ : Hash => String}
    (hclaimed : Claimed prims store.db claimed) :
    Claimed prims store.db (refs.foldl (claimChain store.db) claimed) ∧
      claimed.1 ⊆ (refs.foldl (claimChain store.db) claimed).1 ∧
      ∀ r ∈ refs, r.1 ≠ tipRef → r.2 ∈ (refs.foldl (claimChain store.db) claimed).1 := by
  induction refs generalizing claimed with
  | nil => exact ⟨hclaimed, Finset.Subset.refl _, nofun⟩
  | cons r refs ih =>
    obtain ⟨hfirst, hgrow, htip⟩ := claimChain_spec h hclaimed (hrefs r List.mem_cons_self)
    obtain ⟨hrest, hgrow', htips⟩ := ih (fun s hs => hrefs s (List.mem_cons_of_mem _ hs)) hfirst
    refine ⟨hrest, hgrow.trans hgrow', fun s hs hne => ?_⟩
    rcases List.mem_cons.mp hs with rfl | hs
    · exact hgrow' (htip hne)
    · exact htips s hs hne

/-- **The whole-store check finds the chain each commit was hashed with.** -/
theorem chainOf_eq (hinj : Function.Injective prims.hashOf) {store : Store}
    (h : AuthoredGarden prims store) {refName : String} {c : Hash}
    (hc : Authored prims store.db refName c) :
    (chainOf store.db).lookup c = chainIdOf refName := by
  have hrefs : ∀ r ∈ store.db.listRefs, store.db.tryGetRef r.1 = some r.2 := fun r hr =>
    Db.mem_listRefs.mp hr
  have hstart : Claimed prims store.db (∅, ∅) :=
    ⟨fun k hk => absurd hk (Finset.notMem_empty k), fun k hk => absurd hk (Finset.notMem_empty k),
      fun k name hname => by simp at hname⟩
  obtain ⟨hclaimed, -, htips⟩ := foldl_claimChain h hrefs hstart
  have hname : ∀ name, (chainOf store.db).lookup c = some name → name ≠ tipRef ∧ name = refName :=
    fun name hlookup =>
      have hauthored := hclaimed.authored c name hlookup
      ⟨hauthored.1, hauthored.2.unique hinj hc⟩
  cases hlookup : (chainOf store.db).lookup c with
  | some name =>
    obtain ⟨hne, rfl⟩ := hname name hlookup
    rw [chainIdOf, if_neg hne]
  | none =>
    rw [chainIdOf]
    split_ifs with hdevice
    · rfl
    · -- a commit of a shared chain is in the ancestry of its ref
      exfalso
      obtain ⟨body, value, hrow, -⟩ := id hc
      obtain ⟨name, tip, htip, hpath⟩ := h.commits c (AList.lookup_isSome.mp (by rw [hrow]; rfl))
      obtain rfl := (h.ancestor (h.tips name tip htip) hpath).unique hinj hc
      have hseen := Softfig.Lib.mem_of_reflTransGen hclaimed.closed
        (htips (name, tip) (Db.mem_listRefs.mpr htip) hdevice) hpath
      have := hclaimed.named c hseen
      rw [chainOf] at hlookup
      rw [hlookup] at this
      cases this

theorem AuthoredGarden.commitProblems_eq (hinj : Function.Injective prims.hashOf) {store : Store}
    (h : AuthoredGarden prims store) {c : CommitRow}
    (hrow : store.db.commits.lookup c.hash = some c.toCommitBody) :
    commitProblems prims store.db c = [] := by
  obtain ⟨name, tip, htip, hpath⟩ := h.commits c.hash (AList.lookup_isSome.mp (by rw [hrow]; rfl))
  have hauthored := h.ancestor (h.tips name tip htip) hpath
  obtain ⟨body, value, hrow', hvalue, hverify⟩ := hauthored.clean
  obtain rfl := Option.some.inj (hrow.symm.trans hrow')
  have hverified : (verifyRow prims ((chainOf store.db).lookup c.hash) c .empty).problems = [] := by
    rw [chainOf_eq hinj h hauthored]
    exact (verifyRow_problems _ _ _ _).mpr ⟨rfl, value, hvalue, hverify⟩
  have hparent : ∀ p, c.parent = some p → p ∈ store.db.commits := by
    intro p hp
    obtain ⟨body, -, hbody, -⟩ := h.parents name c.hash p hauthored ⟨_, hrow, hp⟩
    exact AList.lookup_isSome.mp (by rw [hbody]; rfl)
  have htree : store.db.treeExists c.rootTree = true :=
    AList.lookup_isSome.mpr (h.roots c.hash c.rootTree ⟨_, hrow, rfl⟩)
  simpa [commitProblems, hvalue, hverified, htree] using hparent

theorem AuthoredGarden.treeProblems_eq {store : Store} (h : AuthoredGarden prims store) {t : Hash}
    {entries : List TreeEntryRow} (hrow : store.db.trees.lookup t = some entries) :
    treeProblems prims store.db store.objects (t, entries) = [] := by
  have hhash := (h.sound.trees t entries hrow).1
  simp only [treeProblems, hhash, ne_eq, not_true_eq_false, if_false, List.nil_append,
    List.filterMap_eq_nil_iff]
  intro e he
  have hstored := h.sound.closed t entries hrow e he
  unfold TreeStore.EntryStored at hstored
  unfold entryProblem
  cases hkind : e.kind with
  | tree =>
    rw [hkind] at hstored
    have hmem : e.target ∈ store.db.trees := hstored
    simp only [hmem, if_true]
  | blob =>
    rw [hkind] at hstored
    have hmem : store.objects.contains e.target = true := AList.lookup_isSome.mpr hstored
    simp only [hmem, if_true]

/-- The check of the whole store reports nothing. -/
theorem AuthoredGarden.run_problems (hinj : Function.Injective prims.hashOf) {store : Store}
    (h : AuthoredGarden prims store) : (run prims store.db store.objects).problems = [] := by
  simp only [run, List.append_eq_nil_iff, List.flatMap_eq_nil_iff]
  refine ⟨⟨fun c hc => h.commitProblems_eq hinj (Db.mem_listCommits.mp hc), ?_⟩, ?_⟩
  · rintro ⟨t, entries⟩ ht
    obtain ⟨th, -, hth⟩ := List.mem_filterMap.mp ht
    obtain ⟨es, hes, heq⟩ := Option.map_eq_some_iff.mp hth
    cases heq
    exact h.treeProblems_eq hes
  · rw [List.filterMap_eq_nil_iff]
    rintro ⟨hash, bytes⟩ ho
    obtain ⟨⟨g, b⟩, hmem, heq⟩ := List.mem_map.mp ho
    cases heq
    have hsound := h.sound.objects g b (AList.mem_lookup_iff.mpr hmem)
    simp [objectProblem, hsound]

/-! ### What an unreported chain agrees on -/

variable (prims) in
/-- One row and another agree on all but the spelling of the payload. -/
def SameCommit (body body' : CommitBody) : Prop :=
  body' = { body with payload := body'.payload } ∧
    ∃ value value', prims.fromStr body.payload = some value ∧
      prims.fromStr body'.payload = some value' ∧ canon value = canon value'

/-- A row with an authored commit's hash that verifies on its chain is that commit. -/
theorem Authored.sameCommit (hinj : Function.Injective prims.hashOf) {db db' : Db}
    {refName : String} {c : Hash} (hc : Authored prims db refName c)
    (hclean : CleanCommit prims db' (chainIdOf refName) c) :
    ∃ body body', db.commits.lookup c = some body ∧ db'.commits.lookup c = some body' ∧
      SameCommit prims body body' := by
  obtain ⟨body, value, hrow, hvalue, hhash, -, hsig⟩ := hc
  obtain ⟨body', value', hrow', hvalue', hverify⟩ := hclean
  obtain ⟨hhash', -, hsig'⟩ := verifyCommit_ok_iff.mp hverify
  obtain ⟨hparent, hroot, hdevice, hpubkey, htime, hintent, hpayload, hkeyId, -⟩ :=
    CanonicalCommit.canonicalBytes_eq (hinj (hhash.trans hhash'.symm))
  simp only [CanonicalCommit.ofRow] at hparent hroot hdevice hpubkey htime hintent hpayload hkeyId hsig'
  have hsignature : body'.signature = body.signature := (hsig _).mp (hpubkey ▸ hsig')
  refine ⟨body, body', hrow, hrow', ?_, value, value', hvalue, hvalue', hpayload⟩
  cases body
  cases body'
  simp_all

/-- **An unreported chain agrees** with the garden it came from on every commit
of the ancestry, every tree below it and every blob on disk. -/
theorem clean_agrees (hinj : Function.Injective prims.hashOf) {store store' : Store}
    (h : AuthoredGarden prims store) {refName : String} {tip : Hash}
    (htip : store.db.tryGetRef refName = some tip)
    (hnil : (runChain prims store'.db store'.objects (some tip) (chainIdOf refName)).problems = []) :
    (∀ c, Relation.ReflTransGen (ParentOf store.db) tip c → ∃ body body',
      store.db.commits.lookup c = some body ∧ store'.db.commits.lookup c = some body' ∧
        SameCommit prims body body') ∧
    (∀ u, ReachesTree store.db tip u → store'.db.trees.lookup u = store.db.trees.lookup u) ∧
    ∀ b, Reaches store.db tip b → b ∈ store'.objects := by
  obtain ⟨hcommits, htrees⟩ := (runChain_clean_iff prims store'.db store'.objects tip _).mp hnil
  have hsame : ∀ c, Relation.ReflTransGen (ParentOf store.db) tip c →
      Relation.ReflTransGen (ParentOf store'.db) tip c → ∃ body body',
        store.db.commits.lookup c = some body ∧ store'.db.commits.lookup c = some body' ∧
          SameCommit prims body body' := fun c hc hc' =>
    (h.ancestor (h.tips refName tip htip) hc).sameCommit hinj (hcommits c hc')
  -- rows that agree have the same parent, so both ancestries go on together
  have hancestry : ∀ c, Relation.ReflTransGen (ParentOf store.db) tip c →
      Relation.ReflTransGen (ParentOf store'.db) tip c := by
    intro c hc
    induction hc with
    | refl => exact .refl
    | tail hpath hstep ih =>
      obtain ⟨body, hrow, hparent⟩ := hstep
      obtain ⟨body₀, body', hrow₀, hrow', hbody, -⟩ := hsame _ hpath ih
      obtain rfl := Option.some.inj (hrow.symm.trans hrow₀)
      refine ih.tail ⟨body', hrow', ?_⟩
      rw [hbody]
      exact hparent
  have hrowOf : ∀ u, ReachesTree store.db tip u → ReachesTree store'.db tip u →
      store'.db.trees.lookup u = store.db.trees.lookup u := by
    intro u hu hu'
    obtain ⟨entries', hrow', hhash', -⟩ := htrees u hu'
    obtain ⟨entries, hrow⟩ := Option.isSome_iff_exists.mp (AList.lookup_isSome.mpr (h.mem_trees hu))
    rw [hrow', hrow]
    exact congrArg some (treeHash_injective hinj
      (hhash'.trans (h.sound.trees u entries hrow).1.symm))
  have htreesame : ∀ u, ReachesTree store.db tip u → ReachesTree store'.db tip u := by
    rintro u ⟨c, t, hc, ⟨body, hrow, hroot⟩, hpath⟩
    obtain ⟨body₀, body', hrow₀, hrow', hbody, -⟩ := hsame c hc (hancestry c hc)
    obtain rfl := Option.some.inj (hrow.symm.trans hrow₀)
    have hroot' : RootOf store'.db c t := ⟨body', hrow', by rw [hbody]; exact hroot⟩
    induction hpath with
    | refl => exact ⟨c, t, hancestry c hc, hroot', .refl⟩
    | @tail v w hpath hstep ih =>
      have hv : ReachesTree store.db tip v := ⟨c, t, hc, ⟨body, hrow, hroot⟩, hpath⟩
      obtain ⟨entries, hentries, hmem⟩ := hstep
      obtain ⟨c', t', hc', ht', hpath'⟩ := ih
      refine ⟨c', t', hc', ht', hpath'.tail ⟨entries, ?_, hmem⟩⟩
      rw [hrowOf v hv ⟨c', t', hc', ht', hpath'⟩, hentries]
  refine ⟨fun c hc => hsame c hc (hancestry c hc), fun u hu => hrowOf u hu (htreesame u hu), ?_⟩
  rintro b ⟨u, hu, entries, hrow, hmem⟩
  obtain ⟨entries', hrow', -, hblobs⟩ := htrees u (htreesame u hu)
  rw [hrowOf u hu (htreesame u hu), hrow] at hrow'
  cases hrow'
  exact hblobs b hmem

end

/-! ### Detection -/

/-- A store that differs from the garden at something a tip reaches: a commit row
that is gone or differs in more than the spelling of its payload, a tree row
that is gone or has other entries, or a blob that is gone. -/
inductive Altered (prims : Primitives) (store store' : Store) (tip : Hash) : Prop where
  | commit (c : Hash) (hc : Relation.ReflTransGen (ParentOf store.db) tip c)
      (h : ∀ body body', store.db.commits.lookup c = some body →
        store'.db.commits.lookup c = some body' → ¬ SameCommit prims body body')
  | tree (u : Hash) (hu : ReachesTree store.db tip u)
      (h : store'.db.trees.lookup u ≠ store.db.trees.lookup u)
  | blob (b : Hash) (hb : Reaches store.db tip b) (h : b ∉ store'.objects)

/-- **Tampering is detected.** With a collision-free digest, in every garden that
commit calls by known keys reach:

- the check of the store and the check of every chain report nothing;
- whatever store differs from the garden at something a ref's tip reaches, the
  check of that ref reports it;
- a commit of one ref's ancestry is reported under any other ref's chain. -/
theorem fsck_detects_tampering (prims : Primitives) (hinj : Function.Injective prims.hashOf)
    (store : Store) (hreach : (authoredSystem prims).Reachable store) :
    (run prims store.db store.objects).problems = [] ∧
    (∀ refName, (fsckChain prims store.db store.objects refName).problems = []) ∧
    ∀ refName tip, store.db.tryGetRef refName = some tip →
      (∀ store', Altered prims store store' tip →
        (runChain prims store'.db store'.objects (some tip) (chainIdOf refName)).problems ≠ []) ∧
      ∀ c, Relation.ReflTransGen (ParentOf store.db) tip c →
        ∀ (other : String) (store' : Store), other ≠ refName →
          (runChain prims store'.db store'.objects (some c) (chainIdOf other)).problems ≠ [] := by
  have h := reachable_authored hinj hreach
  refine ⟨h.run_problems hinj, h.fsckChain_problems, fun refName tip htip => ⟨?_, ?_⟩⟩
  · intro store' haltered hnil
    obtain ⟨hcommits, htrees, hblobs⟩ := clean_agrees hinj h htip hnil
    cases haltered with
    | commit c hc hdiffer =>
      obtain ⟨body, body', hrow, hrow', hsame⟩ := hcommits c hc
      exact hdiffer body body' hrow hrow' hsame
    | tree u hu hdiffer => exact hdiffer (htrees u hu)
    | blob b hb hgone => exact hgone (hblobs b hb)
  · intro c hc other store' hne hnil
    obtain ⟨body, value, -, -, hhash, -⟩ := h.ancestor (h.tips refName tip htip) hc
    obtain ⟨hcommits, -⟩ := (runChain_clean_iff prims store'.db store'.objects c _).mp hnil
    obtain ⟨body', value', -, -, hverify⟩ := hcommits c .refl
    have hbytes := hinj (hhash.trans (verifyCommit_ok_iff.mp hverify).1.symm)
    exact hne (chainIdOf_injective
      (CanonicalCommit.canonicalBytes_eq hbytes).2.2.2.2.2.2.2.2).symm

/-! ### Spelling a payload another way -/

/-- The same row, its payload spelled so that it parses to the same value. -/
def Respelled (prims : Primitives) (body body' : CommitBody) : Prop :=
  body' = { body with payload := body'.payload } ∧
    prims.fromStr body'.payload = prims.fromStr body.payload

theorem clean_of_respelled {prims : Primitives} (db db' : Db) {objects : ObjectStore} {tip : Hash}
    {chainId : Option String} (htrees : db'.trees = db.trees)
    (hcommits : ∀ c body', db'.commits.lookup c = some body' →
      ∃ body, db.commits.lookup c = some body ∧ Respelled prims body body')
    (hback : ∀ c body, db.commits.lookup c = some body →
      ∃ body', db'.commits.lookup c = some body' ∧ Respelled prims body body')
    (h : (runChain prims db objects (some tip) chainId).problems = []) :
    (runChain prims db' objects (some tip) chainId).problems = [] := by
  rw [runChain_clean_iff] at h ⊢
  have hpath : ∀ c, Relation.ReflTransGen (ParentOf db') tip c →
      Relation.ReflTransGen (ParentOf db) tip c := by
    intro c hc
    refine Relation.ReflTransGen.mono (fun k p hp => ?_) _ _ hc
    obtain ⟨body', hrow', hparent⟩ := hp
    obtain ⟨body, hrow, hbody, -⟩ := hcommits k body' hrow'
    rw [hbody] at hparent
    exact ⟨body, hrow, hparent⟩
  refine ⟨fun c hc => ?_, ?_⟩
  · obtain ⟨body, value, hrow, hvalue, hverify⟩ := h.1 c (hpath c hc)
    obtain ⟨body', hrow', hbody, hparse⟩ := hback c body hrow
    refine ⟨body', value, hrow', hparse.trans hvalue, ?_⟩
    rw [hbody]
    exact hverify
  · rintro u ⟨c, t, hc, ⟨body', hrow', hroot⟩, hu⟩
    obtain ⟨body, hrow, hbody, -⟩ := hcommits c body' hrow'
    rw [hbody] at hroot
    have hentry : EntryOf db' .tree = EntryOf db .tree := by
      unfold EntryOf
      rw [htrees]
    obtain ⟨entries, hentries, hrest⟩ := h.2 u ⟨c, t, hpath c hc, ⟨body, hrow, hroot⟩, hentry ▸ hu⟩
    exact ⟨entries, htrees ▸ hentries, hrest⟩

/-- A parser that skips leading blanks, and the signature the demo sessions make. -/
def blankPrims : Primitives where
  hashOf := Hash.mk
  fromStr s := identityPrims.fromStr (String.ofList (s.toList.dropWhile fun c => c = ' '))
  keyFromBytes _ := true
  verifyStrict _ _ s := s = []

def demoAuthored : Store := ((demoCommit "" [1]).write blankPrims none 0 .empty).1

theorem demoAuthored_reachable : (authoredSystem blankPrims).Reachable demoAuthored := by
  have hknown : KnownCall blankPrims .empty (demoCommit "" [1]) :=
    ⟨rfl, fun _ _ => decide_eq_true_iff, nofun⟩
  have hstep : (authoredSystem blankPrims).step .empty (demoCommit "" [1], none, 0) demoAuthored :=
    ⟨hknown, rfl⟩
  exact .step (.of_init rfl) hstep

/-- A blank in front of a stored payload is not reported. -/
theorem fsck_misses_payload_spelling :
    Function.Injective blankPrims.hashOf ∧ (authoredSystem blankPrims).Reachable demoAuthored ∧
    ∃ tip body, demoAuthored.db.tryGetRef "chain/app" = some tip ∧
      demoAuthored.db.commits.lookup tip = some body ∧
      let payload := String.ofList (' ' :: body.payload.toList)
      payload ≠ body.payload ∧
      (runChain blankPrims { demoAuthored.db with
          commits := demoAuthored.db.commits.insert tip { body with payload } }
        demoAuthored.objects (some tip) (chainIdOf "chain/app")).problems = [] := by
  have hinj : Function.Injective blankPrims.hashOf := identityPrims_injective
  have h := reachable_authored hinj demoAuthored_reachable
  obtain ⟨tip, htip⟩ := Option.isSome_iff_exists.mp
    (show (demoAuthored.db.tryGetRef "chain/app").isSome by decide +kernel)
  obtain ⟨body, value, hrow, -⟩ := h.tips "chain/app" tip htip
  refine ⟨hinj, demoAuthored_reachable, tip, body, htip, hrow, ?_, ?_⟩
  · intro heq
    have := congrArg (fun s => s.toList.length) heq
    simp at this
  · have hspelled : Respelled blankPrims body
        { body with payload := String.ofList (' ' :: body.payload.toList) } := by
      refine ⟨rfl, ?_⟩
      simp [blankPrims]
    have hclean := h.fsckChain_problems "chain/app"
    rw [fsckChain, htip] at hclean
    refine clean_of_respelled demoAuthored.db _ rfl (fun c body' hbody' => ?_)
      (fun c body₀ hbody₀ => ?_) hclean
    · by_cases heq : c = tip
      · subst heq
        rw [AList.lookup_insert] at hbody'
        cases hbody'
        exact ⟨body, hrow, hspelled⟩
      · rw [AList.lookup_insert_ne heq] at hbody'
        exact ⟨body', hbody', rfl, rfl⟩
    · by_cases heq : c = tip
      · subst heq
        obtain rfl := Option.some.inj (hrow.symm.trans hbody₀)
        exact ⟨_, AList.lookup_insert _, hspelled⟩
      · exact ⟨body₀, (AList.lookup_insert_ne heq).trans hbody₀, rfl, rfl⟩

/-- The commit of a one-commit chain is deleted. -/
theorem fsck_detects_tampering_deleted :
    ∃ tip, demoAuthored.db.tryGetRef "chain/app" = some tip ∧
      (fsckChain blankPrims demoAuthored.db demoAuthored.objects "chain/app").problems = [] ∧
      (runChain blankPrims { demoAuthored.db with commits := ∅ } demoAuthored.objects (some tip)
        (chainIdOf "chain/app")).problems ≠ [] := by
  obtain ⟨-, hchains, hdetect⟩ := fsck_detects_tampering blankPrims identityPrims_injective
    demoAuthored demoAuthored_reachable
  obtain ⟨tip, htip⟩ := Option.isSome_iff_exists.mp
    (show (demoAuthored.db.tryGetRef "chain/app").isSome by decide +kernel)
  refine ⟨tip, htip, hchains "chain/app", ?_⟩
  exact (hdetect "chain/app" tip htip).1 ⟨{ demoAuthored.db with commits := ∅ },
    demoAuthored.objects⟩ (.commit tip .refl fun body body' _ hgone => by simp at hgone)

end Softfig.Vcs
