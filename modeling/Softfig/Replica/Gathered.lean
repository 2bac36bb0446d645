import Softfig.Replica.Interruptions
import Softfig.Replica.Pipeline

/-!
What a pull from an honest owner gains: all that the missing commits lead to, each item counted
once, and nothing else.

- `Asked`: what a fetch leads to;
- `Gathered`: a mirror that gained nothing else, and counted it;
- `Gathered.agree`: two mirrors that gathered the same from one are alike;
- `ensureTree_reaped`: the fetch of one tree, after all it names;
- `applyCommits_gathered`: the pull that fetches one item after another.
-/

namespace Softfig.Replica

open Softfig.Lib Softfig.Store Softfig.Vcs

/-! ### What is asked for -/

section

variable (hashOf : Bytes → Hash) (src : Source)

/-- What a fetch begins with, and what the replies to what was asked for list. -/
inductive Asked (roots : Want → Prop) : Want → Prop
  | root {want : Want} (h : roots want) : Asked roots want
  | child {hash : Hash} {t : TreeData} {entry : TreeEntryMsg} {want : Want}
    (h : Asked roots (.tree hash)) (hreply : src.requestTree hash = .ok t)
    (hentry : entry ∈ t.entries) (hwant : entry.want = .ok want) : Asked roots want

/-- **A receiver that gained** nothing but what was asked for, each item counted once. -/
structure Gathered (roots : Want → Prop) (r r' : Receiver) : Prop where
  copies : Copies hashOf src r'.mirror
  keptTrees : ∀ hash rows, r.mirror.db.trees.lookup hash = some rows →
    r'.mirror.db.trees.lookup hash = some rows
  keptObjects : ∀ hash bytes, r.mirror.objects.lookup hash = some bytes →
    r'.mirror.objects.lookup hash = some bytes
  nothingElse : ∀ x, r'.mirror.holds x = true → r.mirror.holds x = true ∨ Asked src roots x
  trees : r'.mirror.db.trees.keys.length + r.summary.trees =
    r.mirror.db.trees.keys.length + r'.summary.trees
  objects : r'.mirror.objects.keys.length + r.summary.objects =
    r.mirror.objects.keys.length + r'.summary.objects

/-- A fetch gathers, and touches neither commits nor references. -/
structure Reaped (roots : Want → Prop) (r r' : Receiver) : Prop extends
    Gathered hashOf src roots r r' where
  commits : r'.mirror.db.commits = r.mirror.db.commits
  refs : r'.mirror.db.refs = r.mirror.db.refs
  rest : r'.summary = { r.summary with
    trees := r'.summary.trees, objects := r'.summary.objects }

/-- The trees of these commits. -/
def RootsOf (commits : List CommitRow) (want : Want) : Prop :=
  ∃ c ∈ commits, want = .tree c.rootTree

/-- Two mirrors with the same commits, references, trees and objects. -/
structure Alike (m m' : Mirror) : Prop where
  commits : m'.db.commits = m.db.commits
  refs : m'.db.refs = m.db.refs
  trees : ∀ hash, m'.db.trees.lookup hash = m.db.trees.lookup hash
  objects : ∀ hash, m'.objects.lookup hash = m.objects.lookup hash

end

variable {hashOf : Bytes → Hash} {src : Source} {roots roots' : Want → Prop}
  {r r' r'' : Receiver} {want : Want}

/-- What is lacked still is, but for the one item. -/
theorem Adds.lacks (h : Adds hashOf src want r r') {x : Want} (hlacked : r.mirror.holds x = false)
    (hne : x ≠ want) : r'.mirror.holds x = false := by
  rw [← Bool.not_eq_true, h.holds, hlacked]
  exact fun hor => hor.elim Bool.false_ne_true hne

theorem Asked.mono (h : Asked src roots want) (hle : ∀ x, roots x → Asked src roots' x) :
    Asked src roots' want := by
  induction h with
  | root hroot => exact hle _ hroot
  | child _ hreply hentry hwant ih => exact .child ih hreply hentry hwant

theorem Asked.good (hroots : ∀ x, roots x → Good hashOf src .empty x)
    (h : Asked src roots want) : Good hashOf src .empty want := by
  induction h with
  | root hroot => exact hroots _ hroot
  | child _ hreply hentry hwant ih =>
    rcases good_tree_iff.mp ih with hheld | ⟨t, row, hreply', -, hentries⟩
    · cases hheld
    · cases hreply.symm.trans hreply'
      obtain ⟨want', hwant', hgood⟩ := hentries _ hentry
      cases hwant.symm.trans hwant'
      exact hgood

/-- What is held whole is held with all that a fetch of it asks for. -/
theorem Asked.held {m : Mirror} (hcopies : Copies hashOf src m)
    (hroots : ∀ x, roots x → m.holds x = true) (h : Asked src roots want) :
    m.holds want = true := by
  have hwhole : Whole hashOf src m want := by
    induction h with
    | root hroot => exact hcopies _ (hroots _ hroot)
    | child _ hreply hentry hwant ih =>
      obtain ⟨⟩ | ⟨hreply', -, -, hbelow⟩ := ih
      cases hreply.symm.trans hreply'
      exact hbelow _ hentry _ hwant
  cases hwhole with
  | object _ hheld => exact Option.isSome_iff_exists.mpr ⟨_, hheld⟩
  | tree _ _ hheld _ => exact Option.isSome_iff_exists.mpr ⟨_, hheld⟩

namespace Gathered

theorem holds (h : Gathered hashOf src roots r r') (hheld : r.mirror.holds want = true) :
    r'.mirror.holds want = true := holds_of_kept h.keptTrees h.keptObjects hheld

theorem refl (h : Copies hashOf src r.mirror) : Gathered hashOf src roots r r :=
  ⟨h, fun _ _ hrows => hrows, fun _ _ hbytes => hbytes, fun _ hx => .inl hx, rfl, rfl⟩

theorem trans (h : Gathered hashOf src roots r r') (h' : Gathered hashOf src roots r' r'') :
    Gathered hashOf src roots r r'' where
  copies := h'.copies
  keptTrees hash rows hrows := h'.keptTrees hash rows (h.keptTrees hash rows hrows)
  keptObjects hash bytes hbytes := h'.keptObjects hash bytes (h.keptObjects hash bytes hbytes)
  nothingElse x hx := (h'.nothingElse x hx).elim (h.nothingElse x) .inr
  trees := by
    have hfirst := h.trees
    have hlast := h'.trees
    omega
  objects := by
    have hfirst := h.objects
    have hlast := h'.objects
    omega

theorem mono (h : Gathered hashOf src roots r r')
    (hle : ∀ x, roots x → Asked src roots' x) : Gathered hashOf src roots' r r' :=
  { h with nothingElse := fun x hx => (h.nothingElse x hx).imp_right fun hasked => hasked.mono hle }

/-- A store of a commit, or of the tip, gathers nothing. -/
theorem ofEq (h : Copies hashOf src r.mirror) (htrees : r'.mirror.db.trees = r.mirror.db.trees)
    (hobjects : r'.mirror.objects = r.mirror.objects)
    (hcountTrees : r'.summary.trees = r.summary.trees)
    (hcountObjects : r'.summary.objects = r.summary.objects) :
    Gathered hashOf src roots r r' where
  copies := h.of_eq htrees hobjects
  keptTrees _ _ hrows := htrees ▸ hrows
  keptObjects _ _ hbytes := hobjects ▸ hbytes
  nothingElse x hx := by
    refine .inl ?_
    cases x with
    | tree hash => exact (congrArg (fun trees => (trees.lookup hash).isSome) htrees).symm.trans hx
    | object hash =>
      exact (congrArg (fun objects => objects.contains hash) hobjects).symm.trans hx
  trees := by rw [htrees, hcountTrees]
  objects := by rw [hobjects, hcountObjects]

end Gathered

namespace Reaped

theorem refl (h : Copies hashOf src r.mirror) : Reaped hashOf src roots r r :=
  ⟨.refl h, rfl, rfl, rfl⟩

theorem trans (h : Reaped hashOf src roots r r') (h' : Reaped hashOf src roots r' r'') :
    Reaped hashOf src roots r r'' where
  toGathered := h.toGathered.trans h'.toGathered
  commits := h'.commits.trans h.commits
  refs := h'.refs.trans h.refs
  rest := by rw [h'.rest, h.rest]

theorem mono (h : Reaped hashOf src roots r r')
    (hle : ∀ x, roots x → Asked src roots' x) : Reaped hashOf src roots' r r' :=
  ⟨h.toGathered.mono hle, h.commits, h.refs, h.rest⟩

theorem ofAdds (h : Adds hashOf src want r r') (hasked : Asked src roots want) :
    Reaped hashOf src roots r r' where
  copies := h.grew.copies
  keptTrees := h.grew.trees
  keptObjects := h.grew.objects
  nothingElse x hx := by
    rcases (h.holds x).mp hx with hheld | rfl
    · exact .inl hheld
    · exact .inr hasked
  trees := h.trees
  objects := h.objects
  commits := h.grew.commits
  refs := h.grew.refs
  rest := h.rest

end Reaped

/-- A tree from an honest owner is stored after all it names. -/
theorem storeFetched_adds {hash : Hash} {t : TreeData} {row : Hash × List TreeEntryRow}
    (hcopies : Copies hashOf src r.mirror) (hreply : src.requestTree hash = .ok t)
    (hverify : verifyTree hashOf t = .ok row) (hsorted : SortedByName row.2)
    (hheld : ∀ entry ∈ t.entries, ∀ want, entry.want = .ok want → r.mirror.holds want = true)
    (hlacked : r.mirror.holds (.tree hash) = false) :
    ∃ r', storeFetched hashOf t r = (.ok (), r') ∧ Adds hashOf src (.tree hash) r r' := by
  obtain ⟨-, hgrew, -⟩ := storeFetched_spec hcopies hreply hverify hsorted hheld
  obtain ⟨want, rows⟩ := row
  obtain rfl : want = hash :=
    Except.ok.inj ((verifyTree_ok hverify).2.symm.trans (Source.requestTree_declares hreply))
  have hnew : want ∉ r.mirror.db.trees := by
    intro hmem
    rw [show r.mirror.holds (.tree want) = true from AList.lookup_isSome.mpr hmem] at hlacked
    cases hlacked
  have hstore : storeFetched hashOf t r =
      (.ok (), { mirror := { r.mirror with db := putTree r.mirror.db want rows },
                 summary := { r.summary with trees := r.summary.trees + 1 } }) := by
    simp only [storeFetched, Mirror.storeTree, hverify]
  rw [hstore] at hgrew ⊢
  refine ⟨_, rfl, hgrew, fun x => ?_, ?_, rfl, rfl⟩
  · cases x with
    | tree hash =>
      simp only [Mirror.holds, Mirror.hasTree, Db.treeExists, lookup_putTree, Want.tree.injEq]
      split_ifs with heq <;> simp [heq]
    | object hash => simp [Mirror.holds, Mirror.hasObject]
  · have hlength := length_keys_insert hnew
      (upsertEntries ((r.mirror.db.trees.lookup want).getD []) rows)
    simp only [putTree] at hlength ⊢
    omega

/-! ### What two mirrors hold alike -/

/-- What is held whole is held as the owner serves it. -/
theorem Copies.lookup_trees {m m' : Mirror} (h : Copies hashOf src m) (h' : Copies hashOf src m')
    {hash : Hash} (hsame : m'.holds (.tree hash) = true ↔ m.holds (.tree hash) = true) :
    m'.db.trees.lookup hash = m.db.trees.lookup hash := by
  cases hheld : m.holds (.tree hash) with
  | true =>
    obtain ⟨⟩ | ⟨hreply, hverify, hrows, -⟩ := h _ hheld
    obtain ⟨⟩ | ⟨hreply', hverify', hrows', -⟩ := h' _ (hsame.mpr hheld)
    cases hreply.symm.trans hreply'
    cases hverify.symm.trans hverify'
    exact hrows'.trans hrows.symm
  | false =>
    have hheld' : m'.holds (.tree hash) = false :=
      Bool.eq_false_iff.mpr fun hnow => Bool.false_ne_true (hheld.symm.trans (hsame.mp hnow))
    exact (Option.not_isSome_iff_eq_none.mp (Bool.eq_false_iff.mp hheld')).trans
      (Option.not_isSome_iff_eq_none.mp (Bool.eq_false_iff.mp hheld)).symm

theorem Copies.lookup_objects {m m' : Mirror} (h : Copies hashOf src m) (h' : Copies hashOf src m')
    {hash : Hash} (hsame : m'.holds (.object hash) = true ↔ m.holds (.object hash) = true) :
    m'.objects.lookup hash = m.objects.lookup hash := by
  cases hheld : m.holds (.object hash) with
  | true =>
    obtain ⟨hreply, hbytes⟩ | ⟨⟩ := h _ hheld
    obtain ⟨hreply', hbytes'⟩ | ⟨⟩ := h' _ (hsame.mpr hheld)
    cases hreply.symm.trans hreply'
    exact hbytes'.trans hbytes.symm
  | false =>
    have hheld' : m'.holds (.object hash) = false :=
      Bool.eq_false_iff.mpr fun hnow => Bool.false_ne_true (hheld.symm.trans (hsame.mp hnow))
    exact (Option.not_isSome_iff_eq_none.mp (Bool.eq_false_iff.mp hheld')).trans
      (Option.not_isSome_iff_eq_none.mp (Bool.eq_false_iff.mp hheld)).symm

/-- Tables with the same keys have as many. -/
theorem length_keys_congr {κ ν : Type} [DecidableEq κ] {table table' : AList fun _ : κ => ν}
    (h : ∀ key, table'.lookup key = table.lookup key) :
    table'.keys.length = table.keys.length := by
  have hnodup := List.perm_ext_iff_of_nodup table'.keys_nodup table.keys_nodup
  refine (hnodup.mpr fun key => ?_).length_eq
  rw [← AList.mem_keys, ← AList.mem_keys, ← AList.lookup_isSome, ← AList.lookup_isSome, h]

/-- A mirror that gathered what was asked for holds just that beside what it held. -/
theorem Gathered.holds_iff (h : Gathered hashOf src roots r r')
    (hheld : ∀ x, roots x → r'.mirror.holds x = true) :
    r'.mirror.holds want = true ↔ r.mirror.holds want = true ∨ Asked src roots want :=
  ⟨h.nothingElse want, fun hwant => hwant.elim h.holds fun hasked => hasked.held h.copies hheld⟩

/-- **Two mirrors that gathered the same** from one mirror are alike, and counted the same. -/
theorem Gathered.agree (h : Gathered hashOf src roots r r') (h' : Gathered hashOf src roots r r'')
    (hheld : ∀ x, roots x → r'.mirror.holds x = true)
    (hheld' : ∀ x, roots x → r''.mirror.holds x = true) :
    (∀ hash, r''.mirror.db.trees.lookup hash = r'.mirror.db.trees.lookup hash) ∧
      (∀ hash, r''.mirror.objects.lookup hash = r'.mirror.objects.lookup hash) ∧
      r''.summary.trees = r'.summary.trees ∧ r''.summary.objects = r'.summary.objects := by
  have hsame {x : Want} : r''.mirror.holds x = true ↔ r'.mirror.holds x = true :=
    (h'.holds_iff hheld').trans (h.holds_iff hheld).symm
  have htrees (hash : Hash) := h.copies.lookup_trees h'.copies (@hsame (.tree hash))
  have hobjects (hash : Hash) := h.copies.lookup_objects h'.copies (@hsame (.object hash))
  have hkeys := length_keys_congr htrees
  have hkeys' := length_keys_congr hobjects
  have hcount := h.trees
  have hcount' := h'.trees
  have hcountObjects := h.objects
  have hcountObjects' := h'.objects
  exact ⟨htrees, hobjects, by omega, by omega⟩

/-! ### One item after another -/

/-- What the entries of a reply name. -/
def Listed (entries : List TreeEntryMsg) (want : Want) : Prop :=
  ∃ entry ∈ entries, entry.want = .ok want

/-- What a tree lists leads back to no tree it was listed by. -/
theorem asked_leads {hash : Hash} {t : TreeData} (hgood : Good hashOf src .empty (.tree hash))
    (hreply : src.requestTree hash = .ok t) (h : Asked src (Listed t.entries) want) :
    Good hashOf src .empty want ∧
      ∀ child, want = .tree child → Relation.TransGen (Leads hashOf src .empty) hash child := by
  have hentries {hash : Hash} {t : TreeData} (hgood : Good hashOf src .empty (.tree hash))
      (hreply : src.requestTree hash = .ok t) : ∀ entry ∈ t.entries,
        GoodEntry hashOf src .empty entry := by
    rcases good_tree_iff.mp hgood with hheld | ⟨t', row, hreply', -, hentries⟩
    · cases hheld
    · cases hreply.symm.trans hreply'
      exact hentries
  have hlead {hash child : Hash} {t : TreeData} {entry : TreeEntryMsg}
      (hgood : Good hashOf src .empty (.tree hash)) (hreply : src.requestTree hash = .ok t)
      (hentry : entry ∈ t.entries) (hwant : entry.want = .ok (.tree child)) :
      Leads hashOf src .empty hash child := by
    obtain ⟨before, after, hsplit⟩ := List.append_of_mem hentry
    refine .intro rfl hreply hsplit (fun e he => hentries hgood hreply e ?_) hwant
    rw [hsplit]
    exact List.mem_append_left _ he
  have hchild {hash : Hash} {t : TreeData} {entry : TreeEntryMsg} {want : Want}
      (hgood : Good hashOf src .empty (.tree hash)) (hreply : src.requestTree hash = .ok t)
      (hentry : entry ∈ t.entries) (hwant : entry.want = .ok want) :
      Good hashOf src .empty want := by
    obtain ⟨want', hwant', hgood'⟩ := hentries hgood hreply entry hentry
    cases hwant.symm.trans hwant'
    exact hgood'
  induction h with
  | root hroot =>
    obtain ⟨entry, hentry, hwant⟩ := hroot
    refine ⟨hchild hgood hreply hentry hwant, ?_⟩
    rintro child rfl
    exact .single (hlead hgood hreply hentry hwant)
  | child _ hreply' hentry hwant ih =>
    refine ⟨hchild ih.1 hreply' hentry hwant, ?_⟩
    rintro child rfl
    exact (ih.2 _ rfl).tail (hlead ih.1 hreply' hentry hwant)

theorem not_asked_self {hash : Hash} {t : TreeData} (hgood : Good hashOf src .empty (.tree hash))
    (hreply : src.requestTree hash = .ok t) : ¬Asked src (Listed t.entries) (.tree hash) := by
  intro h
  have hcycle := (asked_leads hgood hreply h).2 hash rfl
  exact not_returns_of_good hgood hash rfl ⟨hash, .refl, hcycle⟩

theorem ensureObject_reaped {target : Hash} (hcopies : Copies hashOf src r.mirror)
    (hgood : Good hashOf src .empty (.object target)) :
    (ensureObject hashOf src target r).1 = .ok () ∧
      Reaped hashOf src (· = .object target) r (ensureObject hashOf src target r).2 ∧
      (ensureObject hashOf src target r).2.mirror.holds (.object target) = true := by
  unfold ensureObject
  split_ifs with hheld
  · exact ⟨rfl, .refl hcopies, hheld⟩
  · rcases good_object_iff.mp hgood with hempty | ⟨bytes, hreply, hdigest⟩
    · cases hempty
    · obtain ⟨r', hkeep, hadds⟩ :=
        keepObject_adds hcopies hreply hdigest (Bool.eq_false_iff.mpr hheld)
      rw [hreply]
      change (keepObject hashOf target bytes r).1 = _ ∧ Reaped _ _ _ _ (keepObject _ _ _ _).2 ∧
        (keepObject hashOf target bytes r).2.mirror.holds _ = true
      rw [hkeep]
      exact ⟨rfl, .ofAdds hadds (.root rfl), (hadds.holds _).mpr (.inr rfl)⟩

theorem ensureEntries_reaped {visit : Hash → Receiver → Option Outcome}
    (hvisit : ∀ {hash : Hash} {r : Receiver} {o : Outcome}, Copies hashOf src r.mirror →
      Good hashOf src .empty (.tree hash) → visit hash r = some o →
      o.1 = .ok () ∧ Reaped hashOf src (· = .tree hash) r o.2 ∧
        o.2.mirror.holds (.tree hash) = true)
    {entries : List TreeEntryMsg} {o : Outcome} (hcopies : Copies hashOf src r.mirror)
    (hgood : ∀ entry ∈ entries, GoodEntry hashOf src .empty entry)
    (h : ensureEntries hashOf src visit entries r = some o) :
    o.1 = .ok () ∧ Reaped hashOf src (Listed entries) r o.2 ∧
      ∀ want, Listed entries want → o.2.mirror.holds want = true := by
  induction entries generalizing r with
  | nil =>
    cases h
    refine ⟨rfl, .refl hcopies, fun want hwant => ?_⟩
    obtain ⟨entry, hentry, -⟩ := hwant
    cases hentry
  | cons entry rest ih =>
    obtain ⟨⟨want, hwant, hgoodWant⟩, hgood⟩ := List.forall_mem_cons.mp hgood
    have hfirst {o : Outcome} (h : ensureEntry hashOf src visit entry r = some o) :
        o.1 = .ok () ∧ Reaped hashOf src (· = want) r o.2 ∧ o.2.mirror.holds want = true := by
      unfold ensureEntry at h
      rw [hwant] at h
      cases want with
      | tree hash => exact hvisit hcopies hgoodWant h
      | object hash =>
        cases h
        exact ensureObject_reaped hcopies hgoodWant
    have hone : ∀ x, x = want → Asked src (Listed (entry :: rest)) x := by
      rintro x rfl
      exact .root ⟨entry, List.mem_cons_self, hwant⟩
    have hothers : ∀ x, Listed rest x → Asked src (Listed (entry :: rest)) x := by
      rintro x ⟨e, he, hx⟩
      exact .root ⟨e, List.mem_cons_of_mem _ he, hx⟩
    rcases andThen_eq_some.mp h with ⟨e, hfail, -⟩ | ⟨mid, hok, hrest⟩
    · cases (hfirst hfail).1
    · obtain ⟨-, hreaped, hheld⟩ := hfirst hok
      obtain ⟨hres, hreaped', hheld'⟩ := ih hreaped.copies hgood hrest
      refine ⟨hres, (hreaped.mono hone).trans (hreaped'.mono hothers), ?_⟩
      rintro x ⟨e, he, hx⟩
      rcases List.mem_cons.mp he with rfl | he
      · cases hwant.symm.trans hx
        exact hreaped'.holds hheld
      · exact hheld' x ⟨e, he, hx⟩

/-- **A fetch of one tree** gains what it leads to, each item once. -/
theorem ensureTree_reaped
    (hsorted : ∀ hash t row, src.requestTree hash = .ok t → verifyTree hashOf t = .ok row →
      SortedByName row.2) {depth : Nat} {hash : Hash} {o : Outcome}
    (hcopies : Copies hashOf src r.mirror) (hgood : Good hashOf src .empty (.tree hash))
    (h : ensureTree hashOf src depth hash r = some o) :
    o.1 = .ok () ∧ Reaped hashOf src (· = .tree hash) r o.2 ∧
      o.2.mirror.holds (.tree hash) = true := by
  induction depth generalizing hash r o with
  | zero => cases h
  | succ depth ih =>
    unfold ensureTree at h
    split_ifs at h with hheld
    · cases h
      exact ⟨rfl, .refl hcopies, hheld⟩
    · rcases good_tree_iff.mp hgood with hempty | ⟨t, row, hreply, hverify, hentries⟩
      · cases hempty
      rw [hreply] at h
      have hlisted : ∀ x, Listed t.entries x → Asked src (· = .tree hash) x := by
        rintro x ⟨entry, hentry, hx⟩
        exact .child (.root rfl) hreply hentry hx
      rcases andThen_eq_some.mp h with ⟨e, hfail, -⟩ | ⟨mid, hok, hlast⟩
      · cases (ensureEntries_reaped ih hcopies hentries hfail).1
      · obtain ⟨-, hreaped, hbelow⟩ := ensureEntries_reaped ih hcopies hentries hok
        have hlacked : mid.mirror.holds (.tree hash) = false := by
          rw [Bool.eq_false_iff]
          intro hnow
          rcases hreaped.nothingElse _ hnow with hbefore | hasked
          · exact hheld hbefore
          · exact not_asked_self hgood hreply hasked
        obtain ⟨r', hstore, hadds⟩ := storeFetched_adds hreaped.copies hreply hverify
          (hsorted hash t row hreply hverify)
          (fun entry hentry want hwant => hbelow want ⟨entry, hentry, hwant⟩) hlacked
        rw [hstore] at hlast
        cases hlast
        refine ⟨rfl, (hreaped.mono hlisted).trans (.ofAdds hadds (.root rfl)), ?_⟩
        exact (hadds.holds _).mpr (.inr rfl)

/-! ### The commits -/

theorem storeCommitRow_frame {c : CommitData} (h : storeCommitRow c r = (.ok (), r')) :
    r'.mirror.db.trees = r.mirror.db.trees ∧ r'.mirror.objects = r.mirror.objects ∧
      r'.mirror.db.refs = r.mirror.db.refs ∧
      r'.summary = { r.summary with commits := r.summary.commits + 1 } := by
  unfold storeCommitRow Mirror.storeCommit at h
  cases hrow : commitDataToRow c with
  | error e =>
    rw [hrow] at h
    cases h
  | ok row =>
    simp only [hrow] at h
    cases hput : putCommit r.mirror.db row with
    | error e =>
      rw [hput] at h
      cases h
    | ok db =>
      rw [hput] at h
      cases h
      obtain ⟨-, -, rfl⟩ := putCommit_ok_iff.mp hput
      exact ⟨rfl, rfl, rfl, rfl⟩

/-- A commit is stored in one mirror as in another with the same commits. -/
theorem storeCommitRow_congr {c : CommitData} {r₀ r₀' : Receiver}
    (hrows : r.mirror.db.commits = r₀.mirror.db.commits)
    (h : storeCommitRow c r₀ = (.ok (), r₀')) :
    ∃ r', storeCommitRow c r = (.ok (), r') ∧
      r'.mirror.db.commits = r₀'.mirror.db.commits := by
  unfold storeCommitRow at h ⊢
  cases hstore : r₀.mirror.storeCommit c with
  | error e =>
    rw [hstore] at h
    cases h
  | ok m =>
    rw [hstore] at h
    cases h
    obtain ⟨stored, hstored, hcommits⟩ := storeCommit_congr hrows hstore
    exact ⟨⟨stored, { r.summary with commits := r.summary.commits + 1 }⟩, by rw [hstored], hcommits⟩

theorem storeCommitRows_frame {todo : List CommitData}
    (h : storeCommitRows todo r = some (.ok (), r')) :
    r'.mirror.db.trees = r.mirror.db.trees ∧ r'.mirror.objects = r.mirror.objects ∧
      r'.mirror.db.refs = r.mirror.db.refs ∧
      r'.summary = { r.summary with commits := r.summary.commits + todo.length } := by
  induction todo generalizing r with
  | nil =>
    cases h
    exact ⟨rfl, rfl, rfl, rfl⟩
  | cons c todo ih =>
    rcases andThen_eq_some.mp h with ⟨e, -, hfail⟩ | ⟨mid, hok, hrest⟩
    · cases hfail
    · obtain ⟨htrees, hobjects, hrefs, hsummary⟩ := storeCommitRow_frame (Option.some.inj hok)
      obtain ⟨htrees', hobjects', hrefs', hsummary'⟩ := ih hrest
      refine ⟨htrees'.trans htrees, hobjects'.trans hobjects, hrefs'.trans hrefs, ?_⟩
      rw [hsummary', hsummary, List.length_cons, Nat.add_assoc, Nat.add_comm 1]

/-- **The pull that fetches one item after another** gathers what the commits lead to, and stores
the commits that a store of all of them at once would. -/
theorem applyCommits_gathered
    (hsorted : ∀ hash t row, src.requestTree hash = .ok t → verifyTree hashOf t = .ok row →
      SortedByName row.2) {depth : Nat} {todo : List CommitRow} {r₀ r₀' : Receiver} {o : Outcome}
    (hcopies : Copies hashOf src r.mirror)
    (hserved : ∀ c ∈ todo, toHash32 c.rootTree.bytes = .ok c.rootTree ∧
      Good hashOf src .empty (.tree c.rootTree))
    (hrows : r.mirror.db.commits = r₀.mirror.db.commits)
    (hstore : storeCommitRows (todo.map commitRowToData) r₀ = some (.ok (), r₀'))
    (h : applyCommits hashOf src depth (todo.map commitRowToData) r = some o) :
    o.1 = .ok () ∧ Gathered hashOf src (RootsOf todo) r o.2 ∧
      (∀ x, RootsOf todo x → o.2.mirror.holds x = true) ∧
      o.2.mirror.db.commits = r₀'.mirror.db.commits ∧ o.2.mirror.db.refs = r.mirror.db.refs ∧
      o.2.summary = { r.summary with
        commits := r.summary.commits + todo.length
        trees := o.2.summary.trees
        objects := o.2.summary.objects } := by
  induction todo generalizing r r₀ with
  | nil =>
    cases h
    cases hstore
    refine ⟨rfl, .refl hcopies, ?_, hrows, rfl, rfl⟩
    rintro x ⟨c, hc, -⟩
    cases hc
  | cons c todo ih =>
    obtain ⟨⟨hroot, hgood⟩, hserved⟩ := List.forall_mem_cons.mp hserved
    have hone : ∀ x, x = .tree c.rootTree → Asked src (RootsOf (c :: todo)) x := by
      rintro x rfl
      exact .root ⟨c, List.mem_cons_self, rfl⟩
    have hothers : ∀ x, RootsOf todo x → Asked src (RootsOf (c :: todo)) x := by
      rintro x ⟨d, hd, rfl⟩
      exact .root ⟨d, List.mem_cons_of_mem c hd, rfl⟩
    have hroot' : toHash32 (commitRowToData c).rootTree = .ok c.rootTree := hroot
    simp only [List.map_cons, applyCommits, hroot'] at h
    rcases andThen_eq_some.mp hstore with ⟨e, -, hfail⟩ | ⟨mid₀, hok₀, hrest₀⟩
    · cases hfail
    rcases andThen_eq_some.mp h with ⟨e, hfail, -⟩ | ⟨mid, hok, hrest⟩
    · cases (ensureTree_reaped hsorted hcopies hgood hfail).1
    obtain ⟨-, hreaped, hheld⟩ := ensureTree_reaped hsorted hcopies hgood hok
    obtain ⟨stored, hstored, hcommits⟩ :=
      storeCommitRow_congr (hreaped.commits.trans hrows) (Option.some.inj hok₀)
    obtain ⟨htrees, hobjects, hrefs, hsummary⟩ := storeCommitRow_frame hstored
    have hgathered : Gathered hashOf src (RootsOf (c :: todo)) mid stored :=
      .ofEq hreaped.copies htrees hobjects (by rw [hsummary]) (by rw [hsummary])
    rw [hstored] at hrest
    obtain ⟨hres, hgathered', hheld', hcommits', hrefs', hsummary'⟩ :=
      ih hgathered.copies hserved hcommits hrest₀ hrest
    refine ⟨hres, ?_, ?_, hcommits', hrefs'.trans (hrefs.trans hreaped.refs), ?_⟩
    · exact ((hreaped.toGathered.mono hone).trans hgathered).trans (hgathered'.mono hothers)
    · rintro x ⟨d, hd, rfl⟩
      rcases List.mem_cons.mp hd with rfl | hd
      · exact hgathered'.holds (hgathered.holds hheld)
      · exact hheld' _ ⟨d, hd, rfl⟩
    · rw [hsummary', hsummary, hreaped.rest, List.length_cons, Nat.add_assoc, Nat.add_comm 1]

end Softfig.Replica
