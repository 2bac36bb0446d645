import Softfig.Replica.Negotiate

/-!
A fetch of a tree over a session, from an honest owner.

A tree is stored after all it names, so what a cut leaves of a fetch is whole as far as it goes,
and the next fetch may pass over what is held.

- `Copies`: a mirror holds whole all that it holds;
- `fetchTree_spec`: a fetch keeps that, however it ends;
- `fetchTree_uncut`: over a session that is not cut, it is the fetch without sessions;
- `fetchTree_ends`: there it succeeds.
-/

namespace Softfig.Replica

open Softfig.Lib Softfig.Store Softfig.Vcs

/-! ### What a mirror holds whole -/

section

variable (hashOf : Bytes → Hash) (src : Source)

/-- What a mirror holds as the owner serves it, a tree with all below it. -/
inductive Whole (m : Mirror) : Want → Prop
  | object {hash : Hash} {bytes : Bytes} (hreply : src.requestObject hash = .ok bytes)
    (hheld : m.objects.lookup hash = some bytes) : Whole m (.object hash)
  | tree {hash : Hash} {t : TreeData} {rows : List TreeEntryRow}
    (hreply : src.requestTree hash = .ok t) (hverify : verifyTree hashOf t = .ok (hash, rows))
    (hheld : m.db.trees.lookup hash = some rows)
    (hbelow : ∀ entry ∈ t.entries, ∀ want, entry.want = .ok want → Whole m want) :
    Whole m (.tree hash)

/-- All that the mirror holds it holds whole. -/
def Copies (m : Mirror) : Prop := ∀ want, m.holds want = true → Whole hashOf src m want

/-- What a fetch may do to a mirror. -/
structure Grew (m m' : Mirror) : Prop where
  copies : Copies hashOf src m'
  trees : ∀ hash rows, m.db.trees.lookup hash = some rows → m'.db.trees.lookup hash = some rows
  objects : ∀ hash bytes, m.objects.lookup hash = some bytes → m'.objects.lookup hash = some bytes
  commits : m'.db.commits = m.db.commits
  refs : m'.db.refs = m.db.refs

/-- A receiver that gained one item it did not hold. -/
structure Adds (want : Want) (r r' : Receiver) : Prop where
  grew : Grew hashOf src r.mirror r'.mirror
  holds : ∀ x, r'.mirror.holds x = true ↔ r.mirror.holds x = true ∨ x = want
  trees : r'.mirror.db.trees.keys.length + r.summary.trees =
    r.mirror.db.trees.keys.length + r'.summary.trees
  objects : r'.mirror.objects.keys.length + r.summary.objects =
    r.mirror.objects.keys.length + r'.summary.objects
  rest : r'.summary = { r.summary with
    trees := r'.summary.trees, objects := r'.summary.objects }

end

variable {hashOf : Bytes → Hash} {src : Source} {m m' m'' : Mirror} {r : Receiver}

theorem Whole.mono
    (htrees : ∀ hash rows, m.db.trees.lookup hash = some rows →
      m'.db.trees.lookup hash = some rows)
    (hobjects : ∀ hash bytes, m.objects.lookup hash = some bytes →
      m'.objects.lookup hash = some bytes) {want : Want} (h : Whole hashOf src m want) :
    Whole hashOf src m' want := by
  induction h with
  | object hreply hheld => exact .object hreply (hobjects _ _ hheld)
  | tree hreply hverify hheld _ ih => exact .tree hreply hverify (htrees _ _ hheld) ih

/-- What an owner serves on, another that serves the same holds whole too. -/
theorem Whole.continued {src' : Source}
    (htrees : ∀ hash t, src.requestTree hash = .ok t → src'.requestTree hash = .ok t)
    (hobjects : ∀ hash bytes, src.requestObject hash = .ok bytes →
      src'.requestObject hash = .ok bytes) {want : Want} (h : Whole hashOf src m want) :
    Whole hashOf src' m want := by
  induction h with
  | object hreply hheld => exact .object (hobjects _ _ hreply) hheld
  | tree hreply hverify hheld _ ih => exact .tree (htrees _ _ hreply) hverify hheld ih

/-- What is kept is held. -/
theorem holds_of_kept
    (htrees : ∀ hash rows, m.db.trees.lookup hash = some rows →
      m'.db.trees.lookup hash = some rows)
    (hobjects : ∀ hash bytes, m.objects.lookup hash = some bytes →
      m'.objects.lookup hash = some bytes) {want : Want} (hheld : m.holds want = true) :
    m'.holds want = true := by
  cases want with
  | tree hash =>
    obtain ⟨rows, hrows⟩ := Option.isSome_iff_exists.mp hheld
    exact Option.isSome_iff_exists.mpr ⟨rows, htrees hash rows hrows⟩
  | object hash =>
    obtain ⟨bytes, hbytes⟩ := Option.isSome_iff_exists.mp hheld
    exact Option.isSome_iff_exists.mpr ⟨bytes, hobjects hash bytes hbytes⟩

namespace Grew

theorem refl (h : Copies hashOf src m) : Grew hashOf src m m :=
  ⟨h, fun _ _ hrows => hrows, fun _ _ hbytes => hbytes, rfl, rfl⟩

theorem trans (h : Grew hashOf src m m') (h' : Grew hashOf src m' m'') :
    Grew hashOf src m m'' where
  copies := h'.copies
  trees hash rows hrows := h'.trees hash rows (h.trees hash rows hrows)
  objects hash bytes hbytes := h'.objects hash bytes (h.objects hash bytes hbytes)
  commits := h'.commits.trans h.commits
  refs := h'.refs.trans h.refs

theorem holds (h : Grew hashOf src m m') {want : Want} (hheld : m.holds want = true) :
    m'.holds want = true := holds_of_kept h.trees h.objects hheld

end Grew

/-- A new key is one key more. -/
theorem length_keys_insert {κ ν : Type} [DecidableEq κ] {table : AList fun _ : κ => ν} {key : κ}
    (hnew : key ∉ table) (v : ν) : (table.insert key v).keys.length = table.keys.length + 1 := by
  rw [AList.keys_insert, List.length_cons,
    List.erase_of_not_mem fun h => hnew (AList.mem_keys.mpr h)]

/-- An object from an honest owner is stored under its address. -/
theorem keepObject_adds {target : Hash} {bytes : Bytes} (hcopies : Copies hashOf src r.mirror)
    (hreply : src.requestObject target = .ok bytes) (hdigest : hashOf bytes = target)
    (hlacked : r.mirror.holds (.object target) = false) :
    ∃ r', keepObject hashOf target bytes r = (.ok (), r') ∧
      Adds hashOf src (.object target) r r' := by
  have hnew : target ∉ r.mirror.objects := by
    intro hmem
    rw [show r.mirror.holds (.object target) = true from AList.lookup_isSome.mpr hmem] at hlacked
    cases hlacked
  have hput : r.mirror.objects.put hashOf bytes =
      (r.mirror.objects.insert target bytes, target) := by
    unfold ObjectStore.put
    rw [hdigest]
    exact if_neg hnew
  have hlookup (hash : Hash) : (r.mirror.objects.insert target bytes).lookup hash =
      if hash = target then some bytes else r.mirror.objects.lookup hash := by
    split_ifs with heq
    · exact heq ▸ AList.lookup_insert _
    · exact AList.lookup_insert_ne heq
  have hkept : ∀ hash stored, r.mirror.objects.lookup hash = some stored →
      (r.mirror.objects.insert target bytes).lookup hash = some stored :=
    fun hash stored hstored => lookup_insert_of_notMem hnew bytes hstored
  have hmono {x : Want} (hwhole : Whole hashOf src r.mirror x) :
      Whole hashOf src ⟨r.mirror.db, r.mirror.objects.insert target bytes⟩ x := by
    refine hwhole.mono ?_ hkept
    exact fun _ _ hrows => hrows
  have hholds (x : Want) :
      Mirror.holds ⟨r.mirror.db, r.mirror.objects.insert target bytes⟩ x = true ↔
        r.mirror.holds x = true ∨ x = .object target := by
    cases x with
    | tree hash => simp [Mirror.holds, Mirror.hasTree]
    | object hash =>
      simp only [Mirror.holds, Mirror.hasObject, ObjectStore.contains, hlookup, Want.object.injEq]
      split_ifs with heq <;> simp [heq]
  refine ⟨⟨⟨r.mirror.db, r.mirror.objects.insert target bytes⟩,
    { r.summary with objects := r.summary.objects + 1 }⟩, ?_, ?_⟩
  · simp only [keepObject, Mirror.storeObject, hput, ne_eq, not_true_eq_false, if_false]
  · refine ⟨⟨fun x hx => ?_, fun _ _ hrows => hrows, hkept, rfl, rfl⟩, hholds, rfl, ?_, rfl⟩
    · rcases (hholds x).mp hx with hheld | rfl
      · exact hmono (hcopies x hheld)
      · exact .object hreply (AList.lookup_insert _)
    · have hlength := length_keys_insert hnew bytes
      simp only at hlength ⊢
      omega

/-- A tree is stored after all it names, as it was received. -/
theorem storeFetched_spec {hash : Hash} {t : TreeData}
    {row : Hash × List TreeEntryRow}
    (hcopies : Copies hashOf src r.mirror) (hreply : src.requestTree hash = .ok t)
    (hverify : verifyTree hashOf t = .ok row) (hsorted : SortedByName row.2)
    (hheld : ∀ entry ∈ t.entries, ∀ want, entry.want = .ok want → r.mirror.holds want = true) :
    (storeFetched hashOf t r).1 = .ok () ∧
      Grew hashOf src r.mirror (storeFetched hashOf t r).2.mirror ∧
      (storeFetched hashOf t r).2.mirror.holds (.tree hash) = true := by
  obtain ⟨want, rows⟩ := row
  obtain rfl : want = hash :=
    Except.ok.inj ((verifyTree_ok hverify).2.symm.trans (Source.requestTree_declares hreply))
  -- what is held under this address was received from the same owner
  have hsame (held : List TreeEntryRow) (hlookup : r.mirror.db.trees.lookup want = some held) :
      held = rows := by
    obtain ⟨⟩ | ⟨hreply', hverify', hheld', -⟩ :=
      hcopies (.tree want) (Option.isSome_iff_exists.mpr ⟨held, hlookup⟩)
    obtain rfl := Except.ok.inj (hreply.symm.trans hreply')
    cases hverify.symm.trans hverify'
    exact Option.some.inj (hlookup.symm.trans hheld')
  have hrows : upsertEntries ((r.mirror.db.trees.lookup want).getD []) rows = rows := by
    cases hlookup : r.mirror.db.trees.lookup want with
    | none => exact upsertEntries_nil hsorted
    | some held =>
      obtain rfl := hsame held hlookup
      exact upsertEntries_self hsorted fun _ he => he
  have hstore : storeFetched hashOf t r =
      (.ok (), { mirror := { r.mirror with db := putTree r.mirror.db want rows },
                 summary := { r.summary with trees := r.summary.trees + 1 } }) := by
    simp only [storeFetched, Mirror.storeTree, hverify]
  have hlookup (hash : Hash) : (putTree r.mirror.db want rows).trees.lookup hash =
      if hash = want then some rows else r.mirror.db.trees.lookup hash := by
    rw [lookup_putTree, hrows]
  have hkept (hash : Hash) (held : List TreeEntryRow)
      (hhash : r.mirror.db.trees.lookup hash = some held) :
      (putTree r.mirror.db want rows).trees.lookup hash = some held := by
    rw [hlookup]
    split_ifs with heq
    · subst heq
      rw [hsame held hhash]
    · exact hhash
  have hmono {child : Want} (hwhole : Whole hashOf src r.mirror child) :
      Whole hashOf src ⟨putTree r.mirror.db want rows, r.mirror.objects⟩ child := by
    refine hwhole.mono hkept ?_
    exact fun _ _ hbytes => hbytes
  rw [hstore]
  refine ⟨rfl, ⟨fun child hchild => ?_, hkept, fun _ _ hbytes => hbytes, rfl, rfl⟩, ?_⟩
  · cases child with
    | tree hash =>
      by_cases hnew : hash = want
      · subst hnew
        refine .tree hreply hverify ((hlookup hash).trans (if_pos rfl)) ?_
        exact fun entry hmem child hwant => hmono (hcopies child (hheld entry hmem child hwant))
      · refine hmono (hcopies (.tree hash) ?_)
        simpa only [Mirror.holds, Mirror.hasTree, Db.treeExists, hlookup, hnew, if_false] using
          hchild
    | object hash => exact hmono (hcopies (.object hash) hchild)
  · exact Option.isSome_iff_exists.mpr ⟨rows, (hlookup want).trans (if_pos rfl)⟩

/-! ### A fetch from an honest owner -/

section

variable {src : Owner} {peer : Peer} {sent : Nat} {res : Except NetError Unit}
  {st : Session}

theorem fetchObject_spec (hpeer : peer.Answers src) {target : Hash}
    (hcopies : Copies hashOf src.toSource r.mirror)
    (hgood : Good hashOf src.toSource .empty (.object target))
    (h : fetchObject hashOf peer target ⟨r, sent⟩ = (res, st)) :
    Grew hashOf src.toSource r.mirror st.mirror ∧
      (res = .ok () → st.mirror.holds (.object target) = true) := by
  unfold fetchObject at h
  rw [Fallible.bind_ok (Fallible.gets_apply _ _)] at h
  split_ifs at h with hheld
  · cases h
    exact ⟨.refl hcopies, fun _ => hheld⟩
  · rcases exchange_cases hpeer r sent with ⟨hcut, -⟩ | hsent
    · rw [Fallible.bind_error hcut] at h
      cases h
      exact ⟨.refl hcopies, by simp⟩
    · rcases good_object_iff.mp hgood with hempty | ⟨bytes, hreply, hdigest⟩
      · cases hempty
      · obtain ⟨r', hkeep, hadds⟩ :=
          keepObject_adds hcopies hreply hdigest (Bool.eq_false_iff.mpr hheld)
        rw [Fallible.bind_ok hsent, hreply, Fallible.bind_ok (Fallible.ofExcept_apply _ _),
          onSink_apply, hkeep] at h
        cases h
        exact ⟨hadds.grew, fun _ => (hadds.holds _).mpr (.inr rfl)⟩

/-- What a fetch of trees does at one depth. -/
def Fetches (hashOf : Bytes → Hash) (src : Source) (visit : Hash → Pull Unit) : Prop :=
  ∀ {hash : Hash} {r : Receiver} {sent : Nat} {res : Except NetError Unit} {st : Session},
    Copies hashOf src r.mirror → Good hashOf src .empty (.tree hash) →
    visit hash ⟨r, sent⟩ = (res, st) →
      Grew hashOf src r.mirror st.mirror ∧ (res = .ok () → st.mirror.holds (.tree hash) = true)

theorem fetchEntries_spec (hpeer : peer.Answers src) {visit : Hash → Pull Unit}
    (hvisit : Fetches hashOf src.toSource visit)
    {entries : List TreeEntryMsg} (hcopies : Copies hashOf src.toSource r.mirror)
    (hgood : ∀ entry ∈ entries, GoodEntry hashOf src.toSource .empty entry)
    (h : fetchEntries hashOf peer visit entries ⟨r, sent⟩ = (res, st)) :
    Grew hashOf src.toSource r.mirror st.mirror ∧
      (res = .ok () → ∀ entry ∈ entries, ∀ want, entry.want = .ok want →
        st.mirror.holds want = true) := by
  induction entries generalizing r sent with
  | nil =>
    cases h
    exact ⟨.refl hcopies, by simp⟩
  | cons entry rest ih =>
    obtain ⟨⟨want, hwant, hgoodWant⟩, hgood⟩ := List.forall_mem_cons.mp hgood
    have hfirst {res : Except NetError Unit} {st : Session}
        (h : fetchEntry hashOf peer visit entry ⟨r, sent⟩ = (res, st)) :
        Grew hashOf src.toSource r.mirror st.mirror ∧
          (res = .ok () → st.mirror.holds want = true) := by
      unfold fetchEntry at h
      rw [hwant, Fallible.bind_ok (Fallible.ofExcept_apply _ _)] at h
      cases want with
      | tree hash => exact hvisit hcopies hgoodWant h
      | object hash => exact fetchObject_spec hpeer hcopies hgoodWant h
    rcases Fallible.bind_cases h with ⟨e, hfail, rfl⟩ | ⟨⟨⟩, ⟨r', sent'⟩, hok, hrest⟩
    · exact ⟨(hfirst hfail).1, by simp⟩
    · obtain ⟨hgrew, hheld⟩ := hfirst hok
      obtain ⟨hgrew', hheld'⟩ := ih hgrew.copies hgood hrest
      refine ⟨hgrew.trans hgrew', fun hres => List.forall_mem_cons.mpr ⟨?_, hheld' hres⟩⟩
      intro want' hwant'
      obtain rfl := Except.ok.inj (hwant.symm.trans hwant')
      exact hgrew'.holds (hheld rfl)

/-- **A fetch of a tree from an honest owner**, however it ends, keeps all that is held whole, and
where it succeeds the tree is held. -/
theorem fetchTree_spec (hpeer : peer.Answers src)
    (hsorted : ∀ hash t row, src.requestTree hash = .ok t → verifyTree hashOf t = .ok row →
      SortedByName row.2) (depth : Nat) :
    Fetches hashOf src.toSource (fetchTree hashOf peer depth) := by
  induction depth with
  | zero =>
    intro hash r sent res st hcopies _ h
    cases h
    exact ⟨.refl hcopies, by simp⟩
  | succ depth ih =>
    intro hash r sent res st hcopies hgood h
    unfold fetchTree at h
    rw [Fallible.bind_ok (Fallible.gets_apply _ _)] at h
    split_ifs at h with hheld
    · cases h
      exact ⟨.refl hcopies, fun _ => hheld⟩
    · rcases exchange_cases hpeer r sent with ⟨hcut, -⟩ | hsent
      · rw [Fallible.bind_error hcut] at h
        cases h
        exact ⟨.refl hcopies, by simp⟩
      · rcases good_tree_iff.mp hgood with hempty | ⟨t, row, hreply, hverify, hentries⟩
        · cases hempty
        · rw [Fallible.bind_ok hsent, hreply, Fallible.bind_ok (Fallible.ofExcept_apply _ _)] at h
          rcases Fallible.bind_cases h with ⟨e, hfail, rfl⟩ | ⟨⟨⟩, ⟨r', sent'⟩, hok, hlast⟩
          · exact ⟨(fetchEntries_spec hpeer ih hcopies hentries hfail).1, by simp⟩
          · obtain ⟨hgrew, hbelow⟩ := fetchEntries_spec hpeer ih hcopies hentries hok
            obtain ⟨-, hgrew', hnew⟩ := storeFetched_spec hgrew.copies hreply hverify
              (hsorted hash t row hreply hverify) (hbelow rfl)
            rw [onSink_apply] at hlast
            cases hlast
            exact ⟨hgrew.trans hgrew', fun _ => hnew⟩

/-- A fetch over a session that is not cut is the fetch without sessions. -/
theorem fetchTree_uncut {depth : Nat} {hash : Hash} {o : Outcome}
    (h : ensureTree hashOf src.toSource depth hash r = some o) (sent : Nat) :
    ∃ sent', fetchTree hashOf src.uncut depth hash ⟨r, sent⟩ = (o.1, ⟨o.2, sent'⟩) := by
  induction depth generalizing hash r o sent with
  | zero => cases h
  | succ depth ih =>
    have hobject (target : Hash) (r : Receiver) (sent : Nat) :
        ∃ sent', fetchObject hashOf src.uncut target ⟨r, sent⟩ =
          ((ensureObject hashOf src.toSource target r).1,
            ⟨(ensureObject hashOf src.toSource target r).2, sent'⟩) := by
      unfold fetchObject ensureObject
      rw [Fallible.bind_ok (Fallible.gets_apply _ _)]
      split_ifs with hheld
      · exact ⟨sent, rfl⟩
      · refine ⟨sent + 1, ?_⟩
        rw [Fallible.bind_ok (exchange_uncut src r sent)]
        cases hreply : src.requestObject target with
        | error e => rfl
        | ok bytes =>
          rw [Fallible.bind_ok (Fallible.ofExcept_apply _ _), onSink_apply]
          rfl
    have hentry {entry : TreeEntryMsg} {r : Receiver} {o : Outcome}
        (h : ensureEntry hashOf src.toSource (ensureTree hashOf src.toSource depth) entry r =
          some o) (sent : Nat) :
        ∃ sent', fetchEntry hashOf src.uncut (fetchTree hashOf src.uncut depth) entry ⟨r, sent⟩ =
          (o.1, ⟨o.2, sent'⟩) := by
      unfold ensureEntry at h
      unfold fetchEntry
      split at h
      · rename_i e hwant
        cases h
        rw [hwant]
        exact ⟨sent, rfl⟩
      · rename_i target hwant
        rw [hwant, Fallible.bind_ok (Fallible.ofExcept_apply _ _)]
        exact ih h sent
      · rename_i target hwant
        cases h
        rw [hwant, Fallible.bind_ok (Fallible.ofExcept_apply _ _)]
        exact hobject target r sent
    have hentries {entries : List TreeEntryMsg} {r : Receiver} {o : Outcome}
        (h : ensureEntries hashOf src.toSource (ensureTree hashOf src.toSource depth) entries r =
          some o) (sent : Nat) :
        ∃ sent', fetchEntries hashOf src.uncut (fetchTree hashOf src.uncut depth) entries
          ⟨r, sent⟩ = (o.1, ⟨o.2, sent'⟩) := by
      induction entries generalizing r o sent with
      | nil =>
        cases h
        exact ⟨sent, rfl⟩
      | cons entry rest ihrest =>
        rcases andThen_eq_some.mp h with ⟨e, hfail, herr⟩ | ⟨mid, hok, hrest⟩
        · obtain ⟨sent', hfail⟩ := hentry hfail sent
          rw [herr]
          exact ⟨sent', Fallible.bind_error hfail⟩
        · obtain ⟨sent', hok⟩ := hentry hok sent
          obtain ⟨sent'', hrest⟩ := ihrest hrest sent'
          exact ⟨sent'', (Fallible.bind_ok hok).trans hrest⟩
    unfold ensureTree at h
    unfold fetchTree
    rw [Fallible.bind_ok (Fallible.gets_apply _ _)]
    split_ifs at h ⊢ with hheld
    · cases h
      exact ⟨sent, rfl⟩
    · rw [Fallible.bind_ok (exchange_uncut src r sent)]
      cases hreply : src.requestTree hash with
      | error e =>
        rw [hreply] at h
        cases h
        exact ⟨sent + 1, rfl⟩
      | ok t =>
        rw [hreply] at h
        rw [Fallible.bind_ok (Fallible.ofExcept_apply _ _)]
        rcases andThen_eq_some.mp h with ⟨e, hfail, herr⟩ | ⟨mid, hok, hlast⟩
        · obtain ⟨sent', hfail⟩ := hentries hfail (sent + 1)
          rw [herr]
          exact ⟨sent', Fallible.bind_error hfail⟩
        · cases hlast
          obtain ⟨sent', hok⟩ := hentries hok (sent + 1)
          exact ⟨sent', Fallible.bind_ok hok⟩

/-- What an owner serves to an empty mirror it serves to every mirror. -/
theorem Good.of_empty {want : Want} (h : Good hashOf src.toSource .empty want) (m : Mirror) :
    Good hashOf src.toSource m want := by
  induction h with
  | heldTree hheld => cases hheld
  | heldObject hheld => cases hheld
  | object hreply hdigest => exact .object hreply hdigest
  | tree hreply hverify hwants _ ih => exact .tree hreply hverify hwants ih

/-- **A fetch of a tree from an honest owner ends**, and succeeds where it is not cut off. -/
theorem fetchTree_ends {hash : Hash} (hgood : Good hashOf src.toSource .empty (.tree hash))
    (r : Receiver) :
    ∃ depth₀ r', ∀ depth, depth₀ ≤ depth → ∀ sent,
      ∃ sent', fetchTree hashOf src.uncut depth hash ⟨r, sent⟩ = (.ok (), ⟨r', sent'⟩) := by
  have hgood' := hgood.of_empty r.mirror
  obtain ⟨depth₀, o, ho⟩ := ensureTree_ends (not_returns_of_good hgood' hash rfl) (.refl r.mirror)
  obtain ⟨hok, -⟩ | ⟨-, hnot⟩ := ensureTree_settles (.refl r.mirror) ho
  · refine ⟨depth₀, o.2, fun depth hle sent => ?_⟩
    obtain ⟨sent', hfetch⟩ := fetchTree_uncut (ensureTree_mono hle ho) sent
    exact ⟨sent', hok ▸ hfetch⟩
  · exact absurd hgood' hnot

end

end Softfig.Replica
