import Softfig.Replica.Pull

/-!
When a fetch of a tree returns.

What a peer can deliver is fixed by its table and by what the sink held first, so a
fetch succeeds on the same trees whenever it is asked for them. It goes on without
end where the trees it follows lead back to one of them: the entries of a reply are
followed before the reply is compared with its address.

- `ensureTree_settles`: a fetch that returns succeeds just where the peer can deliver
  the tree;
- `ensureTree_ends_iff`: a fetch returns just where the trees lead back to none;
- `pullSubtree_ends_iff`, `pullBackfill_ends_iff`: so do the two pulls.
-/

namespace Softfig.Replica

open Softfig.Lib Softfig.Store Softfig.Vcs

/-! ### What a peer can deliver -/

section Deliver

variable (hashOf : Bytes → Hash) (src : Source) (m : Mirror)

/-- What is held, and what the peer delivers under its own digest with all it names. -/
inductive Good : Want → Prop
  | heldTree {hash : Hash} (h : m.hasTree hash = true) : Good (.tree hash)
  | heldObject {hash : Hash} (h : m.hasObject hash = true) : Good (.object hash)
  | object {hash : Hash} {bytes : Bytes} (hreply : src.requestObject hash = .ok bytes)
    (hdigest : hashOf bytes = hash) : Good (.object hash)
  | tree {hash : Hash} {t : TreeData} {row : Hash × List TreeEntryRow}
    (hreply : src.requestTree hash = .ok t) (hverify : verifyTree hashOf t = .ok row)
    (hwants : ∀ entry ∈ t.entries, ∃ want, entry.want = .ok want)
    (hgood : ∀ entry ∈ t.entries, ∀ want, entry.want = .ok want → Good want) :
    Good (.tree hash)

def GoodEntry (entry : TreeEntryMsg) : Prop :=
  ∃ want, entry.want = .ok want ∧ Good hashOf src m want

/-- A fetch of the first tree comes to the second: every entry before it was fetched. -/
inductive Leads : Hash → Hash → Prop
  | intro {hash child : Hash} {t : TreeData} {before after : List TreeEntryMsg}
    {entry : TreeEntryMsg} (hlacked : m.hasTree hash = false)
    (hreply : src.requestTree hash = .ok t) (hsplit : t.entries = before ++ entry :: after)
    (hbefore : ∀ e ∈ before, GoodEntry hashOf src m e)
    (hwant : entry.want = .ok (.tree child)) : Leads hash child

/-- No tree of a commit leads back to a tree, as far as the commits before it are applied. -/
def Steady (rows : Mirror) : List CommitData → Prop
  | [] => True
  | c :: rest => ∀ root, toHash32 c.rootTree = .ok root →
    ¬Returns (Leads hashOf src m) root ∧
      (Good hashOf src m (.tree root) →
        ∀ rows', rows.storeCommit c = .ok rows' → Steady rows' rest)

/-- A mirror that holds beside what it held only what the peer can deliver. -/
structure Grown (m' : Mirror) : Prop where
  kept : OnlyMatching hashOf m m'
  trees : ∀ hash, m'.hasTree hash = true → Good hashOf src m (.tree hash)
  objects : ∀ hash, m'.hasObject hash = true → Good hashOf src m (.object hash)

/-- An outcome that decides a property of the peer: a success shows it, a failure refutes it. -/
def Settles (P : Prop) (o : Outcome) : Prop :=
  (o.1 = .ok () ∧ P ∧ Grown hashOf src m o.2.mirror) ∨ ((∃ e, o.1 = .error e) ∧ ¬P)

end Deliver

variable {hashOf : Bytes → Hash} {src : Source} {m : Mirror}

theorem good_object_iff {hash : Hash} :
    Good hashOf src m (.object hash) ↔
      m.hasObject hash = true ∨
        ∃ bytes, src.requestObject hash = .ok bytes ∧ hashOf bytes = hash := by
  constructor
  · intro h
    cases h with
    | heldObject h => exact .inl h
    | object hreply hdigest => exact .inr ⟨_, hreply, hdigest⟩
  · rintro (h | ⟨bytes, hreply, hdigest⟩)
    · exact .heldObject h
    · exact .object hreply hdigest

theorem good_tree_iff {hash : Hash} :
    Good hashOf src m (.tree hash) ↔
      m.hasTree hash = true ∨
        ∃ t row, src.requestTree hash = .ok t ∧ verifyTree hashOf t = .ok row ∧
          ∀ entry ∈ t.entries, GoodEntry hashOf src m entry := by
  constructor
  · intro h
    cases h with
    | heldTree h => exact .inl h
    | tree hreply hverify hwants hgood =>
      refine .inr ⟨_, _, hreply, hverify, fun entry hmem => ?_⟩
      obtain ⟨want, hwant⟩ := hwants entry hmem
      exact ⟨want, hwant, hgood entry hmem want hwant⟩
  · rintro (h | ⟨t, row, hreply, hverify, hentries⟩)
    · exact .heldTree h
    · refine .tree hreply hverify (fun entry hmem => ?_) fun entry hmem want hwant => ?_
      · obtain ⟨want, hwant, -⟩ := hentries entry hmem
        exact ⟨want, hwant⟩
      · obtain ⟨want', hwant', hgood⟩ := hentries entry hmem
        cases hwant.symm.trans hwant'
        exact hgood

theorem Grown.refl (m : Mirror) : Grown hashOf src m m :=
  ⟨.refl m, fun _ => .heldTree, fun _ => .heldObject⟩

theorem Grown.lacksTree {m' : Mirror} (h : Grown hashOf src m m') {hash : Hash}
    (hlacks : m'.hasTree hash = false) : m.hasTree hash = false := by
  by_contra hheld
  have hmem := h.kept.keptTrees hash (AList.lookup_isSome.mp (Bool.not_eq_false _ ▸ hheld))
  have hheld' : m'.hasTree hash = true := AList.lookup_isSome.mpr hmem
  rw [hlacks] at hheld'
  cases hheld'

theorem Grown.lacksObject {m' : Mirror} (h : Grown hashOf src m m') {hash : Hash}
    (hlacks : m'.hasObject hash = false) : m.hasObject hash = false := by
  by_contra hheld
  obtain ⟨bytes, hbytes⟩ := Option.isSome_iff_exists.mp (Bool.not_eq_false _ ▸ hheld)
  have hheld' : m'.hasObject hash = true := by
    rw [Mirror.hasObject, ObjectStore.contains, h.kept.keptObjects hash bytes hbytes]
    rfl
  rw [hlacks] at hheld'
  cases hheld'

/-! ### A fetch that returns -/

theorem andThen_settles {P Q : Prop} {part : Option Outcome} {next : Receiver → Option Outcome}
    {o : Outcome} (h : andThen part next = some o)
    (hpart : ∀ mid, part = some mid → Settles hashOf src m P mid)
    (hnext : ∀ mid, P → Grown hashOf src m mid.mirror → next mid = some o →
      Settles hashOf src m Q o) : Settles hashOf src m (P ∧ Q) o := by
  rcases andThen_eq_some.mp h with ⟨e, hfail, herr⟩ | ⟨mid, hok, hrest⟩
  · rcases hpart _ hfail with ⟨hok, -⟩ | ⟨-, hnot⟩
    · cases hok
    · exact .inr ⟨⟨e, herr⟩, fun hboth => hnot hboth.1⟩
  · rcases hpart _ hok with ⟨-, hP, hgrown⟩ | ⟨⟨e, herr⟩, -⟩
    · rcases hnext mid hP hgrown hrest with ⟨hres, hQ, hgrown'⟩ | ⟨herr, hnot⟩
      · exact .inl ⟨hres, ⟨hP, hQ⟩, hgrown'⟩
      · exact .inr ⟨herr, fun hboth => hnot hboth.2⟩
    · cases herr

theorem ensureObject_settles (target : Hash) {r : Receiver} (hgrown : Grown hashOf src m r.mirror) :
    Settles hashOf src m (Good hashOf src m (.object target))
      (ensureObject hashOf src target r) := by
  unfold ensureObject
  cases hheld : r.mirror.hasObject target with
  | true => exact .inl ⟨rfl, hgrown.objects target hheld, hgrown⟩
  | false =>
    have hlacks := hgrown.lacksObject hheld
    simp only [Bool.false_eq_true, if_false]
    cases hreply : src.requestObject target with
    | error e =>
      refine .inr ⟨⟨e, rfl⟩, fun hgood => ?_⟩
      rcases good_object_iff.mp hgood with h | ⟨bytes, h, -⟩
      · rw [hlacks] at h
        cases h
      · rw [hreply] at h
        cases h
    | ok bytes =>
      by_cases hdigest : hashOf bytes = target
      · have hgood : Good hashOf src m (.object target) := .object hreply hdigest
        simp only [Mirror.storeObject, ObjectStore.put_hash, hdigest, ne_eq, not_true, if_false]
        refine .inl ⟨rfl, hgood, ?_, hgrown.trees, fun hash hmem => ?_⟩
        · exact hgrown.kept.trans (storeObject_onlyMatching r.mirror target bytes)
        · rw [Mirror.hasObject, ObjectStore.contains, ObjectStore.lookup_put] at hmem
          split_ifs at hmem with hnew
          · rw [hnew.1, hdigest]
            exact hgood
          · exact hgrown.objects hash hmem
      · simp only [Mirror.storeObject, ObjectStore.put_hash, ne_eq, hdigest, not_false_iff, if_true]
        refine .inr ⟨⟨_, rfl⟩, fun hgood => ?_⟩
        rcases good_object_iff.mp hgood with h | ⟨bytes', h, hmatch⟩
        · rw [hlacks] at h
          cases h
        · rw [hreply] at h
          cases h
          exact hdigest hmatch

theorem ensureEntry_settles {visit : Hash → Receiver → Option Outcome}
    (hvisit : ∀ hash r o, Grown hashOf src m r.mirror → visit hash r = some o →
      Settles hashOf src m (Good hashOf src m (.tree hash)) o)
    {entry : TreeEntryMsg} {r : Receiver} {o : Outcome} (hgrown : Grown hashOf src m r.mirror)
    (h : ensureEntry hashOf src visit entry r = some o) :
    Settles hashOf src m (GoodEntry hashOf src m entry) o := by
  unfold ensureEntry at h
  cases hwant : entry.want with
  | error e =>
    rw [hwant] at h
    cases h
    exact .inr ⟨⟨e, rfl⟩, by simp [GoodEntry, hwant]⟩
  | ok want =>
    have hiff : GoodEntry hashOf src m entry ↔ Good hashOf src m want := by
      simp [GoodEntry, hwant]
    rw [hwant] at h
    rw [hiff]
    cases want with
    | tree target => exact hvisit target r o hgrown h
    | object target =>
      cases h
      exact ensureObject_settles target hgrown

theorem ensureEntries_settles {visit : Hash → Receiver → Option Outcome}
    (hvisit : ∀ hash r o, Grown hashOf src m r.mirror → visit hash r = some o →
      Settles hashOf src m (Good hashOf src m (.tree hash)) o)
    {entries : List TreeEntryMsg} {r : Receiver} {o : Outcome}
    (hgrown : Grown hashOf src m r.mirror) (h : ensureEntries hashOf src visit entries r = some o) :
    Settles hashOf src m (∀ entry ∈ entries, GoodEntry hashOf src m entry) o := by
  induction entries generalizing r with
  | nil =>
    cases h
    exact .inl ⟨rfl, by simp, hgrown⟩
  | cons entry rest ih =>
    have hboth := andThen_settles h (fun mid => ensureEntry_settles hvisit hgrown)
      fun mid _ hgrown' hrest => ih hgrown' hrest
    rwa [List.forall_mem_cons]

theorem storeFetched_settles {hash : Hash} {t : TreeData} {r : Receiver}
    (hlacks : m.hasTree hash = false) (hreply : src.requestTree hash = .ok t)
    (hentries : ∀ entry ∈ t.entries, GoodEntry hashOf src m entry)
    (hgrown : Grown hashOf src m r.mirror) :
    Settles hashOf src m (Good hashOf src m (.tree hash)) (storeFetched hashOf t r) := by
  have hkeeps := storeFetched_keeps (@fetchKeeps_onlyMatching hashOf) t r
  unfold storeFetched Mirror.storeTree at hkeeps ⊢
  cases hverify : verifyTree hashOf t with
  | error e =>
    refine .inr ⟨⟨e, rfl⟩, fun hgood => ?_⟩
    rcases good_tree_iff.mp hgood with h | ⟨t', row, h, hok, -⟩
    · rw [hlacks] at h
      cases h
    · rw [hreply] at h
      cases h
      rw [hverify] at hok
      cases hok
  | ok row =>
    obtain ⟨want, entries⟩ := row
    have hgood : Good hashOf src m (.tree hash) :=
      good_tree_iff.mpr (.inr ⟨t, _, hreply, hverify, hentries⟩)
    have hhash : want = hash := by
      have hdecl := (verifyTree_ok hverify).2
      have hanswers : toHash32 t.hash = .ok hash := by
        unfold Source.requestTree at hreply
        split at hreply
        · obtain ⟨rfl, -, hanswers⟩ := TreeData.answers_ok hreply
          exact hanswers
        · cases hreply
      rw [hdecl] at hanswers
      cases hanswers
      rfl
    rw [hverify] at hkeeps
    refine .inl ⟨rfl, hgood, hgrown.kept.trans hkeeps, fun hash' hmem => ?_, hgrown.objects⟩
    simp only [Mirror.hasTree, Db.treeExists, lookup_putTree] at hmem
    split_ifs at hmem with heq
    · rw [heq, hhash]
      exact hgood
    · exact hgrown.trees hash' hmem

/-- **A fetch that returns** succeeds where the peer can deliver the tree, and fails elsewhere. -/
theorem ensureTree_settles {depth : Nat} {hash : Hash} {r : Receiver} {o : Outcome}
    (hgrown : Grown hashOf src m r.mirror) (h : ensureTree hashOf src depth hash r = some o) :
    Settles hashOf src m (Good hashOf src m (.tree hash)) o := by
  induction depth generalizing hash r o with
  | zero => cases h
  | succ depth ih =>
    unfold ensureTree at h
    cases hheld : r.mirror.hasTree hash with
    | true =>
      rw [hheld] at h
      cases h
      exact .inl ⟨rfl, hgrown.trees hash hheld, hgrown⟩
    | false =>
      have hlacks := hgrown.lacksTree hheld
      rw [hheld] at h
      simp only [Bool.false_eq_true, if_false] at h
      cases hreply : src.requestTree hash with
      | error e =>
        rw [hreply] at h
        cases h
        refine .inr ⟨⟨e, rfl⟩, fun hgood => ?_⟩
        rcases good_tree_iff.mp hgood with h | ⟨t, row, h, -⟩
        · rw [hlacks] at h
          cases h
        · rw [hreply] at h
          cases h
      | ok t =>
        rw [hreply] at h
        have hboth := andThen_settles (Q := Good hashOf src m (.tree hash)) h
          (fun mid hmid => ensureEntries_settles (fun _ _ _ => ih) hgrown hmid) ?_
        · have hiff : (∀ entry ∈ t.entries, GoodEntry hashOf src m entry) ∧
              Good hashOf src m (.tree hash) ↔ Good hashOf src m (.tree hash) := by
            refine and_iff_right_of_imp fun hgood => ?_
            rcases good_tree_iff.mp hgood with h | ⟨t', row, h, -, hentries⟩
            · rw [hlacks] at h
              cases h
            · rw [hreply] at h
              cases h
              exact hentries
          rwa [hiff] at hboth
        · intro mid hentries hgrown' hlast
          cases hlast
          exact storeFetched_settles hlacks hreply hentries hgrown'

/-! ### A fetch that goes deeper -/

theorem ensureEntry_mono {visit visit' : Hash → Receiver → Option Outcome}
    (hvisit : ∀ hash r o, visit hash r = some o → visit' hash r = some o)
    {entry : TreeEntryMsg} {r : Receiver} {o : Outcome}
    (h : ensureEntry hashOf src visit entry r = some o) :
    ensureEntry hashOf src visit' entry r = some o := by
  unfold ensureEntry at h ⊢
  split at h
  · exact h
  · exact hvisit _ _ _ h
  · exact h

theorem ensureEntries_mono {visit visit' : Hash → Receiver → Option Outcome}
    (hvisit : ∀ hash r o, visit hash r = some o → visit' hash r = some o)
    {entries : List TreeEntryMsg} {r : Receiver} {o : Outcome}
    (h : ensureEntries hashOf src visit entries r = some o) :
    ensureEntries hashOf src visit' entries r = some o := by
  induction entries generalizing r o with
  | nil => exact h
  | cons entry rest ih =>
    refine andThen_eq_some.mpr ?_
    rcases andThen_eq_some.mp h with ⟨e, hfail, herr⟩ | ⟨mid, hok, hrest⟩
    · exact .inl ⟨e, ensureEntry_mono hvisit hfail, herr⟩
    · exact .inr ⟨mid, ensureEntry_mono hvisit hok, ih hrest⟩

theorem ensureTree_succ {depth : Nat} {hash : Hash} {r : Receiver} {o : Outcome}
    (h : ensureTree hashOf src depth hash r = some o) :
    ensureTree hashOf src (depth + 1) hash r = some o := by
  induction depth generalizing hash r o with
  | zero => cases h
  | succ depth ih =>
    unfold ensureTree at h ⊢
    split_ifs at h ⊢ with hheld
    · exact h
    · cases hreply : src.requestTree hash with
      | error e =>
        rw [hreply] at h
        exact h
      | ok t =>
        rw [hreply] at h
        refine andThen_eq_some.mpr ?_
        rcases andThen_eq_some.mp h with ⟨e, hfail, herr⟩ | ⟨mid, hok, hlast⟩
        · exact .inl ⟨e, ensureEntries_mono (fun _ _ _ => ih) hfail, herr⟩
        · exact .inr ⟨mid, ensureEntries_mono (fun _ _ _ => ih) hok, hlast⟩

/-- More depth changes nothing about a fetch that returned. -/
theorem ensureTree_mono {depth depth' : Nat} (hle : depth ≤ depth') {hash : Hash} {r : Receiver}
    {o : Outcome} (h : ensureTree hashOf src depth hash r = some o) :
    ensureTree hashOf src depth' hash r = some o := by
  induction hle with
  | refl => exact h
  | step _ ih => exact ensureTree_succ ih

/-- Entries whose trees can all be fetched are all fetched, at the greatest of their depths. -/
theorem ensureEntries_ends {entries : List TreeEntryMsg} {r : Receiver}
    (hgrown : Grown hashOf src m r.mirror)
    (hends : ∀ before entry after child, entries = before ++ entry :: after →
      (∀ e ∈ before, GoodEntry hashOf src m e) → entry.want = .ok (.tree child) →
      ∀ r, Grown hashOf src m r.mirror → ∃ depth o, ensureTree hashOf src depth child r = some o) :
    ∃ depth o, ensureEntries hashOf src (ensureTree hashOf src depth) entries r = some o := by
  induction entries generalizing r with
  | nil => exact ⟨0, _, rfl⟩
  | cons entry rest ih =>
    have hentry : ∃ depth o,
        ensureEntry hashOf src (ensureTree hashOf src depth) entry r = some o := by
      cases hwant : entry.want with
      | error e => exact ⟨0, (.error e, r), by simp only [ensureEntry, hwant]⟩
      | ok want =>
        cases want with
        | tree child =>
          obtain ⟨depth, o, ho⟩ := hends [] entry rest child rfl (by simp) hwant r hgrown
          exact ⟨depth, o, by simpa only [ensureEntry, hwant] using ho⟩
        | object target =>
          exact ⟨0, ensureObject hashOf src target r, by simp only [ensureEntry, hwant]⟩
    obtain ⟨depth, o, ho⟩ := hentry
    rcases ensureEntry_settles (fun _ _ _ => ensureTree_settles) hgrown ho with
      ⟨hok, hgood, hgrown'⟩ | ⟨⟨e, herr⟩, -⟩
    · obtain ⟨depth', o', ho'⟩ := ih hgrown' fun before entry' after child hsplit hbefore =>
        hends (entry :: before) entry' after child (by rw [hsplit]; rfl)
          (List.forall_mem_cons.mpr ⟨hgood, hbefore⟩)
      refine ⟨max depth depth', o', andThen_eq_some.mpr (.inr ⟨o.2, ?_, ?_⟩)⟩
      · rw [← hok]
        exact ensureEntry_mono (fun _ _ _ => ensureTree_mono (le_max_left ..)) ho
      · exact ensureEntries_mono (fun _ _ _ => ensureTree_mono (le_max_right ..)) ho'
    · exact ⟨depth, o, andThen_eq_some.mpr (.inl ⟨e, by rw [← herr]; exact ho, herr⟩)⟩

/-- Where the trees lead back to none, a fetch returns. -/
theorem ensureTree_ends {hash : Hash} (h : ¬Returns (Leads hashOf src m) hash) {r : Receiver}
    (hgrown : Grown hashOf src m r.mirror) :
    ∃ depth o, ensureTree hashOf src depth hash r = some o := by
  have hacc : Acc (fun b a => Leads hashOf src m a b) hash := by
    refine acc_of_not_returns src.trees.keys.toFinset ?_ h
    rintro a b ⟨-, hreply, -⟩
    exact Source.requestTree_mem hreply
  clear h
  induction hacc generalizing r with
  | intro hash _ ih =>
    cases hheld : r.mirror.hasTree hash with
    | true => exact ⟨1, (.ok (), r), by simp [ensureTree, hheld]⟩
    | false =>
      cases hreply : src.requestTree hash with
      | error e => exact ⟨1, (.error e, r), by simp [ensureTree, hheld, hreply]⟩
      | ok t =>
        obtain ⟨depth, o, ho⟩ := ensureEntries_ends hgrown
          fun before entry after child hsplit hbefore hwant r hgrown' =>
            ih child ⟨hgrown.lacksTree hheld, hreply, hsplit, hbefore, hwant⟩ hgrown'
        obtain ⟨res, r'⟩ := o
        cases res with
        | error e =>
          exact ⟨depth + 1, (.error e, r'), by simp [ensureTree, hheld, hreply, ho, andThen]⟩
        | ok u =>
          exact ⟨depth + 1, storeFetched hashOf t r',
            by simp [ensureTree, hheld, hreply, ho, andThen]⟩

/-- What can be delivered leads back to nothing: it was delivered after all it names. -/
theorem not_returns_of_good {want : Want} (h : Good hashOf src m want) :
    ∀ hash, want = .tree hash → ¬Returns (Leads hashOf src m) hash := by
  induction h with
  | heldObject => exact fun _ heq => nomatch heq
  | object => exact fun _ heq => nomatch heq
  | heldTree hheld =>
    rintro _ ⟨⟩ hreturns
    obtain ⟨child, ⟨hlacked, -⟩, -⟩ := hreturns.step
    rw [hlacked] at hheld
    cases hheld
  | tree hreply _ _ _ ih =>
    rintro _ ⟨⟩ hreturns
    obtain ⟨child, ⟨-, hreply', hsplit, -, hwant⟩, hchild⟩ := hreturns.step
    rw [hreply] at hreply'
    cases hreply'
    exact ih _ (by rw [hsplit]; simp) _ hwant child rfl hchild

theorem ensureEntries_endless {visit : Hash → Receiver → Option Outcome}
    (hvisit : ∀ hash r o, Grown hashOf src m r.mirror → visit hash r = some o →
      Settles hashOf src m (Good hashOf src m (.tree hash)) o)
    {entries before after : List TreeEntryMsg} {entry : TreeEntryMsg} {child : Hash} {r : Receiver}
    (hsplit : entries = before ++ entry :: after)
    (hbefore : ∀ e ∈ before, GoodEntry hashOf src m e) (hwant : entry.want = .ok (.tree child))
    (hnone : ∀ r, Grown hashOf src m r.mirror → visit child r = none)
    (hgrown : Grown hashOf src m r.mirror) : ensureEntries hashOf src visit entries r = none := by
  subst hsplit
  induction before generalizing r with
  | nil => simp [ensureEntries, ensureEntry, hwant, hnone r hgrown, andThen]
  | cons first rest ih =>
    obtain ⟨hfirst, hrest⟩ := List.forall_mem_cons.mp hbefore
    rw [List.cons_append]
    cases ho : ensureEntries hashOf src visit (first :: (rest ++ entry :: after)) r with
    | none => rfl
    | some o =>
      rcases andThen_eq_some.mp ho with ⟨e, hfail, -⟩ | ⟨mid, hok, hlater⟩
      · rcases ensureEntry_settles hvisit hgrown hfail with ⟨hok, -⟩ | ⟨-, hnot⟩
        · cases hok
        · exact absurd hfirst hnot
      · rcases ensureEntry_settles hvisit hgrown hok with ⟨-, -, hgrown'⟩ | ⟨⟨e, herr⟩, -⟩
        · rw [ih hrest hgrown'] at hlater
          cases hlater
        · cases herr

/-- Where the trees lead back to one of them, a fetch goes deeper at every depth. -/
theorem ensureTree_endless (depth : Nat) {hash : Hash} (h : Returns (Leads hashOf src m) hash)
    {r : Receiver} (hgrown : Grown hashOf src m r.mirror) :
    ensureTree hashOf src depth hash r = none := by
  induction depth generalizing hash r with
  | zero => rfl
  | succ depth ih =>
    have hlacks : r.mirror.hasTree hash = false :=
      Bool.eq_false_iff.mpr fun hheld => not_returns_of_good (hgrown.trees hash hheld) hash rfl h
    obtain ⟨child, ⟨-, hreply, hsplit, hbefore, hwant⟩, hchild⟩ := h.step
    have hnone := ensureEntries_endless
      (fun hash r o => @ensureTree_settles hashOf src m depth hash r o) hsplit hbefore hwant
      (fun _ => ih hchild) hgrown
    simp [ensureTree, hlacks, hreply, hnone, andThen]

/-- **When a fetch returns**: just where the trees it follows lead back to none of them. -/
theorem ensureTree_ends_iff {hash : Hash} {r : Receiver} (hgrown : Grown hashOf src m r.mirror) :
    (∃ depth o, ensureTree hashOf src depth hash r = some o) ↔
      ¬Returns (Leads hashOf src m) hash := by
  constructor
  · rintro ⟨depth, o, ho⟩ hreturns
    rw [ensureTree_endless depth hreturns hgrown] at ho
    cases ho
  · exact fun h => ensureTree_ends h hgrown

theorem pullSubtree_ends_iff {rootTree : Hash} :
    (∃ depth o, pullSubtree hashOf src depth rootTree m = some o) ↔
      ¬Returns (Leads hashOf src m) rootTree := by
  rw [← ensureTree_ends_iff (r := ⟨m, {}⟩) (.refl m)]
  refine exists_congr fun depth => ?_
  unfold pullSubtree
  rcases ensureTree hashOf src depth rootTree ⟨m, {}⟩ with - | ⟨e | u, r⟩ <;> simp

/-! ### The commits of a pull -/

theorem applyCommits_mono {depth depth' : Nat} (hle : depth ≤ depth') {commits : List CommitData}
    {r : Receiver} {o : Outcome} (h : applyCommits hashOf src depth commits r = some o) :
    applyCommits hashOf src depth' commits r = some o := by
  induction commits generalizing r o with
  | nil => exact h
  | cons c rest ih =>
    unfold applyCommits at h ⊢
    split at h
    · exact h
    · refine andThen_eq_some.mpr ?_
      rcases andThen_eq_some.mp h with ⟨e, hfail, herr⟩ | ⟨mid, hok, hlater⟩
      · exact .inl ⟨e, ensureTree_mono hle hfail, herr⟩
      · refine .inr ⟨mid, ensureTree_mono hle hok, andThen_eq_some.mpr ?_⟩
        exact (andThen_eq_some.mp hlater).imp_right fun ⟨stored, hrow, hrest⟩ =>
          ⟨stored, hrow, ih hrest⟩

/-- Whether a commit row is stored depends on the commits alone. -/
theorem storeCommit_congr {m m' : Mirror} (h : m'.db.commits = m.db.commits) {c : CommitData}
    {stored : Mirror} (hok : m.storeCommit c = .ok stored) :
    ∃ stored', m'.storeCommit c = .ok stored' ∧ stored'.db.commits = stored.db.commits := by
  unfold Mirror.storeCommit at hok ⊢
  cases hrow : commitDataToRow c with
  | error e =>
    rw [hrow] at hok
    cases hok
  | ok row =>
    rw [hrow] at hok
    cases hput : putCommit m.db row with
    | error e =>
      simp only [hput] at hok
      cases hok
    | ok db =>
      simp only [hput] at hok
      cases hok
      obtain ⟨hnew, hparent, rfl⟩ := putCommit_ok_iff.mp hput
      have hput' := putCommit_ok_iff.mpr
        ⟨by rwa [← h] at hnew, by rwa [← h] at hparent, rfl⟩
      let commits := m'.db.commits.insert row.hash row.toCommitBody
      refine ⟨{ m' with db := { m'.db with commits } }, ?_, ?_⟩
      · simp only [hput', commits]
      · simp only [commits, h]

theorem Grown.storeCommit {m' stored : Mirror} (h : Grown hashOf src m m') {c : CommitData}
    (hok : m'.storeCommit c = .ok stored) : Grown hashOf src m stored := by
  have hkept := h.kept.trans (storeCommit_onlyMatching hok)
  unfold Mirror.storeCommit at hok
  split at hok
  · cases hok
  · split at hok
    · cases hok
    · rename_i db hput
      cases hok
      obtain ⟨-, -, rfl⟩ := putCommit_ok_iff.mp hput
      exact ⟨hkept, h.trees, h.objects⟩

theorem applyCommits_ends {commits : List CommitData} {rows : Mirror}
    (h : Steady hashOf src m rows commits) {r : Receiver} (hgrown : Grown hashOf src m r.mirror)
    (hrows : r.mirror.db.commits = rows.db.commits) :
    ∃ depth o, applyCommits hashOf src depth commits r = some o := by
  induction commits generalizing rows r with
  | nil => exact ⟨0, _, rfl⟩
  | cons c rest ih =>
    cases hroot : toHash32 c.rootTree with
    | error e => exact ⟨0, (.error e, r), by simp only [applyCommits, hroot]⟩
    | ok root =>
      obtain ⟨hends, hlater⟩ := h root hroot
      obtain ⟨depth, ⟨res, mid⟩, ho⟩ := ensureTree_ends hends hgrown
      rcases ensureTree_settles hgrown ho with ⟨rfl, hgood, hgrown'⟩ | ⟨⟨e, rfl⟩, -⟩
      · have hmid : rows.db.commits = mid.mirror.db.commits := by
          rw [← hrows]
          exact (ensureTree_keeps fetchKeeps_commits ho).symm
        cases hstore : mid.mirror.storeCommit c with
        | error e =>
          refine ⟨depth, (.error e, mid), ?_⟩
          simp only [applyCommits, hroot, ho, andThen, storeCommitRow, hstore]
        | ok stored =>
          obtain ⟨rows', hrows', hcommits⟩ := storeCommit_congr hmid hstore
          obtain ⟨depth', o, ho'⟩ := ih (hlater hgood rows' hrows')
            (r := ⟨stored, { mid.summary with commits := mid.summary.commits + 1 }⟩)
            (hgrown'.storeCommit hstore) hcommits.symm
          refine ⟨max depth depth', o, ?_⟩
          simp only [applyCommits, hroot, ensureTree_mono (le_max_left depth depth') ho, andThen,
            storeCommitRow, hstore]
          exact applyCommits_mono (le_max_right ..) ho'
      · refine ⟨depth, (.error e, mid), ?_⟩
        simp only [applyCommits, hroot, ho, andThen]

theorem steady_of_ends {depth : Nat} {commits : List CommitData} {rows : Mirror} {r : Receiver}
    {o : Outcome} (hgrown : Grown hashOf src m r.mirror)
    (hrows : r.mirror.db.commits = rows.db.commits)
    (h : applyCommits hashOf src depth commits r = some o) : Steady hashOf src m rows commits := by
  induction commits generalizing rows r o with
  | nil => trivial
  | cons c rest ih =>
    intro root hroot
    simp only [applyCommits, hroot] at h
    rcases andThen_eq_some.mp h with ⟨e, hfail, -⟩ | ⟨mid, hok, hlater⟩
    · refine ⟨(ensureTree_ends_iff hgrown).mp ⟨depth, _, hfail⟩, fun hgood => ?_⟩
      rcases ensureTree_settles hgrown hfail with ⟨hok, -⟩ | ⟨-, hnot⟩
      · cases hok
      · exact absurd hgood hnot
    · refine ⟨(ensureTree_ends_iff hgrown).mp ⟨depth, _, hok⟩, fun _ rows' hrows' => ?_⟩
      rcases ensureTree_settles hgrown hok with ⟨-, -, hgrown'⟩ | ⟨⟨e, herr⟩, -⟩
      · have hmid : mid.mirror.db.commits = rows.db.commits :=
          (ensureTree_keeps fetchKeeps_commits hok).trans hrows
        obtain ⟨stored, hstore, hcommits⟩ := storeCommit_congr hmid hrows'
        have hrest : applyCommits hashOf src depth rest
            ⟨stored, { mid.summary with commits := mid.summary.commits + 1 }⟩ = some o := by
          simpa only [storeCommitRow, hstore, andThen] using hlater
        exact ih (hgrown'.storeCommit hstore) hcommits hrest
      · cases herr

theorem pullBackfill_ends_iff {missing : List CommitData} {announcedTip : Hash} :
    (∃ depth o, pullBackfill hashOf src depth missing announcedTip m = some o) ↔
      Steady hashOf src m m missing.reverse := by
  constructor
  · rintro ⟨depth, o, ho⟩
    rcases andThen_eq_some.mp ho with ⟨e, hfail, -⟩ | ⟨mid, hok, -⟩
    · exact steady_of_ends (r := ⟨m, {}⟩) (.refl m) rfl hfail
    · exact steady_of_ends (r := ⟨m, {}⟩) (.refl m) rfl hok
  · intro h
    obtain ⟨depth, ⟨res, r⟩, ho⟩ := applyCommits_ends h (r := ⟨m, {}⟩) (.refl m) rfl
    cases res with
    | error e => exact ⟨depth, (.error e, r), andThen_eq_some.mpr (.inl ⟨e, ho, rfl⟩)⟩
    | ok u => exact ⟨depth, finish announcedTip r, andThen_eq_some.mpr (.inr ⟨r, ho, rfl⟩)⟩

end Softfig.Replica
