import Softfig.Replica.Interruptions

/-!
Pulls from any peer: what it answers to a message is anything, and may change with each message.

What a mirror stores was checked against what names it, and a row is stored after what it refers to.

- `Closed`: what a mirror holds has its digest, and what a tree names is held;
- `fetchTree_secures`: a fetch keeps that, whatever is answered;
- `Sound`: each commit was signed by the owner, its tree and its parent are held;
- `pulled_sound`: after any run of pulls the mirror is sound, and how its tip moves.
-/

namespace Softfig.Replica

open Softfig.Lib Softfig.Store Softfig.Vcs

/-- What a row of a tree refers to. -/
def wantOf (row : TreeEntryRow) : Want :=
  match row.kind with
  | .tree => .tree row.target
  | .blob => .object row.target

theorem msgToEntry_want {entry : TreeEntryMsg} {row : TreeEntryRow}
    (h : msgToEntry entry = .ok row) : entry.want = .ok (wantOf row) := by
  unfold msgToEntry at h
  unfold TreeEntryMsg.want
  cases hkind : parseKind entry.kind with
  | none =>
    rw [hkind] at h
    cases h
  | some kind =>
    rw [hkind] at h
    obtain ⟨target, htarget, h⟩ := bind_ok_iff.mp h
    cases h
    rw [htarget]
    cases kind <;> rfl

theorem msgToEntries_mem {entries : List TreeEntryMsg} {rows : List TreeEntryRow}
    (h : msgToEntries entries = .ok rows) {row : TreeEntryRow} (hrow : row ∈ rows) :
    ∃ entry ∈ entries, msgToEntry entry = .ok row := by
  induction entries generalizing rows with
  | nil =>
    cases h
    cases hrow
  | cons entry rest ih =>
    obtain ⟨first, hfirst, h⟩ := bind_ok_iff.mp h
    obtain ⟨others, hothers, h⟩ := bind_ok_iff.mp h
    cases h
    rcases List.mem_cons.mp hrow with rfl | hrow
    · exact ⟨entry, List.mem_cons_self, hfirst⟩
    · obtain ⟨e, he, heq⟩ := ih hothers hrow
      exact ⟨e, List.mem_cons_of_mem _ he, heq⟩

theorem mem_upsertEntries {rows entries : List TreeEntryRow} {row : TreeEntryRow}
    (h : row ∈ upsertEntries rows entries) : row ∈ rows ∨ row ∈ entries := by
  induction entries generalizing rows with
  | nil => exact .inl h
  | cons e es ih =>
    rcases ih h with hrows | hes
    · rcases mem_upsertEntry hrows with rfl | hrows
      · exact .inr List.mem_cons_self
      · exact .inl hrows
    · exact .inr (List.mem_cons_of_mem _ hes)

/-! ### What a fetch keeps -/

section

variable (hashOf : Bytes → Hash)

/-- **A closed mirror.** Objects have the digest they are held under; a tree's rows come from lists
with that digest, and what they refer to is held. -/
structure Closed (m : Mirror) : Prop where
  objects : m.objects.Sound hashOf
  trees : ∀ hash rows, m.db.trees.lookup hash = some rows → RowsFrom hashOf hash none rows
  below : ∀ hash rows, m.db.trees.lookup hash = some rows → ∀ row ∈ rows,
    m.holds (wantOf row) = true

/-- A mirror after a fetch: closed, with all that was held before and the same commits and tip. -/
structure Fetched (m m' : Mirror) : Prop where
  closed : Closed hashOf m'
  kept : ∀ want, m.holds want = true → m'.holds want = true
  commits : m'.db.commits = m.db.commits
  refs : m'.db.refs = m.db.refs

end

variable {hashOf : Bytes → Hash} {peer : Peer} {m m' m'' : Mirror}

namespace Fetched

theorem refl (h : Closed hashOf m) : Fetched hashOf m m := ⟨h, fun _ hheld => hheld, rfl, rfl⟩

theorem trans (h : Fetched hashOf m m') (h' : Fetched hashOf m' m'') : Fetched hashOf m m'' where
  closed := h'.closed
  kept want hheld := h'.kept want (h.kept want hheld)
  commits := h'.commits.trans h.commits
  refs := h'.refs.trans h.refs

end Fetched

theorem storeObject_fetched (h : Closed hashOf m) (hash : Hash) (bytes : Bytes) :
    Fetched hashOf m (m.storeObject hashOf hash bytes).2 ∧
      ((m.storeObject hashOf hash bytes).1 = .ok () →
        (m.storeObject hashOf hash bytes).2.holds (.object hash) = true) := by
  have hkept := @storeObject_onlyMatching hashOf m hash bytes
  have hholds (want : Want) (hheld : m.holds want = true) :
      (m.storeObject hashOf hash bytes).2.holds want = true := by
    cases want with
    | tree target => exact hheld
    | object target =>
      obtain ⟨stored, hstored⟩ := Option.isSome_iff_exists.mp hheld
      exact Option.isSome_iff_exists.mpr ⟨stored, hkept.keptObjects target stored hstored⟩
  refine ⟨⟨⟨ObjectStore.sound_put hashOf h.objects bytes, h.trees, ?_⟩, hholds, rfl, rfl⟩,
    fun hok => ?_⟩
  · exact fun target rows hrows row hrow => hholds _ (h.below target rows hrows row hrow)
  · have hput : hashOf bytes = hash := by
      by_contra hne
      simp only [Mirror.storeObject, ObjectStore.put_hash, ne_eq, hne, not_false_eq_true,
        if_true] at hok
      cases hok
    rw [← hput]
    exact AList.lookup_isSome.mpr (ObjectStore.put_mem hashOf m.objects bytes)

/-- A tree is stored where all its entries are held. -/
theorem storeTree_fetched (h : Closed hashOf m) {t : TreeData}
    (hstore : m.storeTree hashOf t = .ok m')
    (hheld : ∀ entry ∈ t.entries, ∀ want, entry.want = .ok want → m.holds want = true) {hash : Hash}
    (hdeclared : toHash32 t.hash = .ok hash) :
    Fetched hashOf m m' ∧ m'.holds (.tree hash) = true := by
  have hkept := storeTree_onlyMatching hstore
  unfold Mirror.storeTree at hstore
  split at hstore
  · cases hstore
  rename_i want rows hverify
  cases hstore
  obtain rfl : want = hash := Except.ok.inj ((verifyTree_ok hverify).2.symm.trans hdeclared)
  have hholds (target : Want) (hheld : m.holds target = true) :
      Mirror.holds { m with db := putTree m.db want rows } target = true := by
    cases target with
    | tree target =>
      exact AList.lookup_isSome.mpr (hkept.keptTrees target (AList.lookup_isSome.mp hheld))
    | object target => exact hheld
  have hrows : ∀ row ∈ rows, m.holds (wantOf row) = true := by
    intro row hrow
    obtain ⟨entries, hentries, hrest⟩ := bind_ok_iff.mp hverify
    obtain ⟨declared, -, hrest⟩ := bind_ok_iff.mp hrest
    split_ifs at hrest
    cases hrest
    obtain ⟨entry, hentry, heq⟩ := msgToEntries_mem hentries hrow
    exact hheld entry hentry _ (msgToEntry_want heq)
  refine ⟨⟨⟨h.objects, fun target found hfound => ?_, fun target found hfound row hrow => ?_⟩,
    hholds, rfl, rfl⟩, ?_⟩
  · exact .trans (h.trees target) (fun _ => rfl) (hkept.trees target found hfound)
  · refine hholds _ ?_
    rw [lookup_putTree] at hfound
    split_ifs at hfound with heq
    · cases hfound
      rcases mem_upsertEntries hrow with hold | hnew
      · cases hlookup : m.db.trees.lookup want with
        | none =>
          rw [hlookup] at hold
          cases hold
        | some old =>
          rw [hlookup] at hold
          exact h.below want old hlookup row hold
      · exact hrows row hnew
    · exact h.below target found hfound row hrow
  · simp only [Mirror.holds, Mirror.hasTree, Db.treeExists, lookup_putTree, if_true,
      Option.isSome_some]

theorem keepObject_fetched {r : Receiver} (h : Closed hashOf r.mirror) (target : Hash)
    (bytes : Bytes) :
    Fetched hashOf r.mirror (keepObject hashOf target bytes r).2.mirror ∧
      ((keepObject hashOf target bytes r).1 = .ok () →
        (keepObject hashOf target bytes r).2.mirror.holds (.object target) = true) := by
  have hstored := storeObject_fetched h target bytes
  unfold keepObject
  split <;> rename_i heq <;> rw [heq] at hstored
  · exact ⟨hstored.1, by simp⟩
  · exact hstored

theorem storeFetched_fetched {r : Receiver} (h : Closed hashOf r.mirror) {src : Source}
    {hash : Hash} {t : TreeData} (hreply : src.requestTree hash = .ok t)
    (hheld : ∀ entry ∈ t.entries, ∀ want, entry.want = .ok want → r.mirror.holds want = true) :
    Fetched hashOf r.mirror (storeFetched hashOf t r).2.mirror ∧
      ((storeFetched hashOf t r).1 = .ok () →
        (storeFetched hashOf t r).2.mirror.holds (.tree hash) = true) := by
  unfold storeFetched
  split
  · exact ⟨.refl h, by simp⟩
  · rename_i mirror hstore
    obtain ⟨hfetched, hnew⟩ := storeTree_fetched h hstore hheld (Source.requestTree_declares hreply)
    exact ⟨hfetched, fun _ => hnew⟩

/-! ### A fetch -/

/-- A message changes nothing that is stored. -/
theorem exchange_triple {I : Receiver → Prop} :
    Fallible.Triple (fun st => I st.toReceiver) (exchange peer) (fun _ st => I st.toReceiver)
      fun st => I st.toReceiver := by
  intro st hst
  unfold exchange
  cases peer st.sent with
  | none => exact hst
  | some owner => exact hst

theorem onSink_triple {I J E : Receiver → Prop} {step : Receiver → Outcome}
    (hok : ∀ r, I r → (step r).1 = .ok () → J (step r).2)
    (herror : ∀ r, I r → E (step r).2) :
    Fallible.Triple (fun st => I st.toReceiver) (onSink step) (fun _ st => J st.toReceiver)
      fun st => E st.toReceiver := by
  intro st hst
  cases hres : (step st.toReceiver).1 with
  | ok u =>
    rw [show onSink step st = (.ok u, { st with toReceiver := (step st.toReceiver).2 }) from
      Prod.ext hres rfl]
    exact hok _ hst hres
  | error e =>
    rw [show onSink step st = (.error e, { st with toReceiver := (step st.toReceiver).2 }) from
      Prod.ext hres rfl]
    exact herror _ hst

/-- What a fetch of one item establishes, from any mirror a fetch may have left. -/
def Secures (hashOf : Bytes → Hash) (fetch : Pull Unit) (want : Want) : Prop :=
  ∀ m, Fallible.Triple (fun st => Fetched hashOf m st.mirror) fetch
    (fun _ st => Fetched hashOf m st.mirror ∧ st.mirror.holds want = true)
    fun st => Fetched hashOf m st.mirror

theorem fetchObject_secures (target : Hash) :
    Secures hashOf (fetchObject hashOf peer target) (.object target) := by
  intro m
  refine .bind (R := fun now st => Fetched hashOf m st.mirror ∧ st.mirror = now)
    (.gets fun st hst => ⟨hst, rfl⟩) fun now => .ite (fun hheld => ?_) fun _ => ?_
  · refine .pure fun st hst => ⟨hst.1, ?_⟩
    rw [hst.2]
    exact hheld
  · refine .bind (R := fun _ st => Fetched hashOf m st.mirror) ?_ fun owner => ?_
    · refine .mono (exchange_triple (I := fun r => Fetched hashOf m r.mirror)) ?_ ?_ ?_
      · exact fun _ hst => hst.1
      · exact fun _ _ hst => hst
      · exact fun _ hst => hst
    · refine .bind (.ofExcept (fun _ hst => hst) fun _ _ _ hst => hst) fun bytes => ?_
      exact onSink_triple (I := fun r => Fetched hashOf m r.mirror)
        (J := fun r => Fetched hashOf m r.mirror ∧ r.mirror.holds (.object target) = true)
        (E := fun r => Fetched hashOf m r.mirror)
        (fun r hr hok => ⟨hr.trans (keepObject_fetched hr.closed target bytes).1,
          (keepObject_fetched hr.closed target bytes).2 hok⟩)
        fun r hr => hr.trans (keepObject_fetched hr.closed target bytes).1

theorem fetchEntry_secures {visit : Hash → Pull Unit}
    (hvisit : ∀ hash, Secures hashOf (visit hash) (.tree hash)) (entry : TreeEntryMsg)
    (m : Mirror) :
    Fallible.Triple (fun st => Fetched hashOf m st.mirror) (fetchEntry hashOf peer visit entry)
      (fun _ st => Fetched hashOf m st.mirror ∧
        ∀ want, entry.want = .ok want → st.mirror.holds want = true)
      fun st => Fetched hashOf m st.mirror := by
  refine .bind (R := fun want st => Fetched hashOf m st.mirror ∧ entry.want = .ok want)
    (.ofExcept (fun _ hst => hst) fun _ hwant _ hst => ⟨hst, hwant⟩) fun want => ?_
  refine .start ?_
  rintro st ⟨hst, hwant⟩
  have hsecured {fetch : Pull Unit} (hfetch : Secures hashOf fetch want) :
      Fallible.Triple (fun st' => st' = st) fetch
        (fun _ st' => Fetched hashOf m st'.mirror ∧
          ∀ want, entry.want = .ok want → st'.mirror.holds want = true)
        fun st' => Fetched hashOf m st'.mirror := by
    refine .mono (hfetch m) ?_ (fun _ st' hst' => ⟨hst'.1, ?_⟩) fun _ hst' => hst'
    · rintro _ rfl
      exact hst
    · intro want' hwant'
      obtain rfl := Except.ok.inj (hwant.symm.trans hwant')
      exact hst'.2
  cases want with
  | tree target => exact hsecured (hvisit target)
  | object target => exact hsecured (fetchObject_secures target)

theorem fetchEntries_secures {visit : Hash → Pull Unit}
    (hvisit : ∀ hash, Secures hashOf (visit hash) (.tree hash)) (entries : List TreeEntryMsg)
    (m : Mirror) :
    Fallible.Triple (fun st => Fetched hashOf m st.mirror) (fetchEntries hashOf peer visit entries)
      (fun _ st => Fetched hashOf m st.mirror ∧
        ∀ entry ∈ entries, ∀ want, entry.want = .ok want → st.mirror.holds want = true)
      fun st => Fetched hashOf m st.mirror := by
  induction entries generalizing m with
  | nil => exact .pure fun st hst => ⟨hst, by simp⟩
  | cons entry rest ih =>
    refine .bind (fetchEntry_secures hvisit entry m) fun _ => .start ?_
    rintro st ⟨hst, hheld⟩
    -- the rest is a fetch of its own from here, and keeps the first item
    refine .mono (ih st.mirror) ?_ (fun _ st' hst' => ⟨hst.trans hst'.1, ?_⟩) ?_
    · rintro _ rfl
      exact .refl hst.closed
    · refine List.forall_mem_cons.mpr ⟨fun want hwant => ?_, hst'.2⟩
      exact hst'.1.kept want (hheld want hwant)
    · exact fun _ hst' => hst.trans hst'

/-- **A fetch of a tree from any peer** leaves a closed mirror, and the tree held where it
succeeds. -/
theorem fetchTree_secures (depth : Nat) (hash : Hash) :
    Secures hashOf (fetchTree hashOf peer depth hash) (.tree hash) := by
  induction depth generalizing hash with
  | zero => exact fun m => .fail fun st hst => hst
  | succ depth ih =>
    intro m
    refine .bind (R := fun now st => Fetched hashOf m st.mirror ∧ st.mirror = now)
      (.gets fun st hst => ⟨hst, rfl⟩) fun now => .ite (fun hheld => ?_) fun _ => ?_
    · refine .pure fun st hst => ⟨hst.1, ?_⟩
      rw [hst.2]
      exact hheld
    · refine .bind (R := fun _ st => Fetched hashOf m st.mirror) ?_ fun owner => ?_
      · refine .mono (exchange_triple (I := fun r => Fetched hashOf m r.mirror)) ?_ ?_ ?_
        · exact fun _ hst => hst.1
        · exact fun _ _ hst => hst
        · exact fun _ hst => hst
      · refine .bind (R := fun tree st => Fetched hashOf m st.mirror ∧
          owner.requestTree hash = .ok tree)
          (.ofExcept (fun _ hst => hst) fun _ hreply _ hst => ⟨hst, hreply⟩) fun tree => ?_
        refine .start ?_
        rintro st ⟨hst, hreply⟩
        refine .bind (.mono (fetchEntries_secures ih tree.entries m) ?_ (fun _ _ h => h)
          fun _ h => h) fun _ => ?_
        · rintro _ rfl
          exact hst
        · exact onSink_triple
            (I := fun r => Fetched hashOf m r.mirror ∧ ∀ entry ∈ tree.entries, ∀ want,
              entry.want = .ok want → r.mirror.holds want = true)
            (J := fun r => Fetched hashOf m r.mirror ∧ r.mirror.holds (.tree hash) = true)
            (E := fun r => Fetched hashOf m r.mirror)
            (fun r hr hok => ⟨hr.1.trans (storeFetched_fetched hr.1.closed hreply hr.2).1,
              (storeFetched_fetched hr.1.closed hreply hr.2).2 hok⟩)
            fun r hr => hr.1.trans (storeFetched_fetched hr.1.closed hreply hr.2).1

/-! ### What a mirror vouches for -/

section

variable (prims : NetPrimitives) (ownerPubkey : Bytes)

/-- A stored commit has its hash and was signed by the owner. -/
def SignedBy (hash : Hash) (body : CommitBody) : Prop :=
  body.authorPubkey = ownerPubkey ∧ ∃ payload, prims.fromStr body.payload = some payload ∧
    verifyCommit prims.toPrimitives (.ofRow body payload none) hash body.signature = .ok ()

/-- **A sound mirror.** It is closed; each commit was signed by the owner, with its tree and its
parent held, and the tip is one of them. -/
structure Sound (m : Mirror) : Prop where
  closed : Closed prims.hashOf m
  signed : ∀ hash body, m.db.commits.lookup hash = some body →
    SignedBy prims ownerPubkey hash body
  roots : ∀ hash body, m.db.commits.lookup hash = some body →
    m.holds (.tree body.rootTree) = true
  parents : ∀ hash body, m.db.commits.lookup hash = some body → ∀ p ∈ body.parent,
    m.hasCommit p = true
  tip : ∀ tip, m.storedTip = some tip → m.hasCommit tip = true

/-- A mirror after a part of a pull that does not move the tip. -/
structure Advanced (m m' : Mirror) : Prop where
  sound : Sound prims ownerPubkey m'
  kept : ∀ want, m.holds want = true → m'.holds want = true
  commits : ∀ hash body, m.db.commits.lookup hash = some body →
    m'.db.commits.lookup hash = some body
  refs : m'.db.refs = m.db.refs

end

section

variable {prims : NetPrimitives} {ownerPubkey : Bytes} {c : CommitData} {r : Receiver}

theorem Sound.empty : Sound prims ownerPubkey .empty where
  closed :=
    { objects := fun _ _ h => by cases h
      trees := fun _ _ h => by cases h
      below := fun _ _ h => by cases h }
  signed _ _ h := by cases h
  roots _ _ h := by cases h
  parents _ _ h := by cases h
  tip _ h := by cases h

namespace Advanced

theorem refl (h : Sound prims ownerPubkey m) : Advanced prims ownerPubkey m m :=
  ⟨h, fun _ hheld => hheld, fun _ _ hbody => hbody, rfl⟩

theorem trans (h : Advanced prims ownerPubkey m m') (h' : Advanced prims ownerPubkey m' m'') :
    Advanced prims ownerPubkey m m'' where
  sound := h'.sound
  kept want hheld := h'.kept want (h.kept want hheld)
  commits hash body hbody := h'.commits hash body (h.commits hash body hbody)
  refs := h'.refs.trans h.refs

theorem ofFetched (h : Sound prims ownerPubkey m) (hfetched : Fetched prims.hashOf m m') :
    Advanced prims ownerPubkey m m' where
  sound :=
    { closed := hfetched.closed
      signed := hfetched.commits ▸ h.signed
      roots := fun hash body hbody =>
        hfetched.kept _ (h.roots hash body (hfetched.commits ▸ hbody))
      parents := by
        simp only [Mirror.hasCommit, hfetched.commits]
        exact h.parents
      tip := by
        simp only [Mirror.storedTip, Db.tryGetRef, Mirror.hasCommit, hfetched.commits,
          hfetched.refs]
        exact h.tip }
  kept := hfetched.kept
  commits hash body hbody := hfetched.commits ▸ hbody
  refs := hfetched.refs

theorem storedTip (h : Advanced prims ownerPubkey m m') : m'.storedTip = m.storedTip :=
  congrArg (fun refs : AList fun _ : String => Hash => refs.lookup tipRef) h.refs

theorem parentOf (h : Advanced prims ownerPubkey m m') {hash p : Hash}
    (hparent : ParentOf m.db hash p) : ParentOf m'.db hash p := by
  obtain ⟨body, hbody, hp⟩ := hparent
  exact ⟨body, h.commits hash body hbody, hp⟩

end Advanced

/-- What was verified is what is stored. -/
theorem verifyOwned_signed {row : CommitRow} (hverify : verifyOwned prims ownerPubkey c = .ok ())
    (hrow : commitDataToRow c = .ok row) :
    SignedBy prims ownerPubkey row.hash row.toCommitBody := by
  obtain ⟨hash, hhash, hrow⟩ := bind_ok_iff.mp hrow
  obtain ⟨parent, hparent, hrow⟩ := bind_ok_iff.mp hrow
  obtain ⟨root, hroot, hrow⟩ := bind_ok_iff.mp hrow
  obtain ⟨pubkey, hpubkey, hrow⟩ := bind_ok_iff.mp hrow
  obtain ⟨signature, hsignature, hrow⟩ := bind_ok_iff.mp hrow
  cases hrow
  unfold verifyOwned at hverify
  split_ifs at hverify with hauthor
  rw [hpubkey] at hverify
  obtain ⟨_, hsame, hverify⟩ := bind_ok_iff.mp hverify
  cases hsame
  cases hpayload : prims.fromStr c.payload with
  | none =>
    rw [hpayload] at hverify
    cases hverify
  | some payload =>
    rw [hpayload] at hverify
    obtain ⟨_, hsame, hverify⟩ := bind_ok_iff.mp hverify
    cases hparent.symm.trans hsame
    obtain ⟨_, hsame, hverify⟩ := bind_ok_iff.mp hverify
    cases hroot.symm.trans hsame
    obtain ⟨_, hsame, hverify⟩ := bind_ok_iff.mp hverify
    cases hhash.symm.trans hsame
    obtain ⟨_, hsame, hverify⟩ := bind_ok_iff.mp hverify
    cases hsignature.symm.trans hsame
    have hkey : pubkey.bytes = ownerPubkey := by
      rw [(toHash32_ok hpubkey).1]
      exact not_not.mp hauthor
    refine ⟨hkey, payload, hpayload, ?_⟩
    split at hverify
    · assumption
    · cases hverify

/-- **A commit is stored** after its tree, over a parent that is stored. -/
theorem storeCommitRow_advanced (h : Sound prims ownerPubkey r.mirror) {row : CommitRow}
    (hverify : verifyOwned prims ownerPubkey c = .ok ()) (hrow : commitDataToRow c = .ok row)
    (hroot : r.mirror.holds (.tree row.rootTree) = true) :
    Advanced prims ownerPubkey r.mirror (storeCommitRow c r).2.mirror ∧
      ((storeCommitRow c r).1 = .ok () →
        (storeCommitRow c r).2.mirror.db.commits.lookup row.hash = some row.toCommitBody) := by
  unfold storeCommitRow Mirror.storeCommit
  rw [hrow]
  dsimp only
  cases hput : putCommit r.mirror.db row with
  | error e => exact ⟨.refl h, by simp⟩
  | ok db =>
    obtain ⟨hfresh, hparent, rfl⟩ := putCommit_ok_iff.mp hput
    have hlookup (hash : Hash) :
        (r.mirror.db.commits.insert row.hash row.toCommitBody).lookup hash =
        if hash = row.hash then some row.toCommitBody else r.mirror.db.commits.lookup hash := by
      split_ifs with heq
      · exact heq ▸ AList.lookup_insert _
      · exact AList.lookup_insert_ne heq
    have hcommits (hash : Hash) (hheld : r.mirror.hasCommit hash = true) :
        ((r.mirror.db.commits.insert row.hash row.toCommitBody).lookup hash).isSome = true := by
      rw [hlookup]
      split_ifs
      · rfl
      · exact hheld
    refine ⟨⟨⟨⟨h.closed.objects, h.closed.trees, h.closed.below⟩, ?_, ?_, ?_, ?_⟩,
      fun _ hh => hh, ?_,
      rfl⟩, fun _ => AList.lookup_insert _⟩
    · intro hash body hbody
      rw [hlookup] at hbody
      split_ifs at hbody with heq
      · cases hbody
        exact heq ▸ verifyOwned_signed hverify hrow
      · exact h.signed hash body hbody
    · intro hash body hbody
      rw [hlookup] at hbody
      split_ifs at hbody with heq
      · cases hbody
        exact hroot
      · exact h.roots hash body hbody
    · intro hash body hbody p hp
      rw [hlookup] at hbody
      split_ifs at hbody with heq
      · cases hbody
        rcases hparent p hp with hmem | rfl
        · exact hcommits p (AList.lookup_isSome.mpr hmem)
        · exact Option.isSome_iff_exists.mpr ⟨_, AList.lookup_insert _⟩
      · exact hcommits p (h.parents hash body hbody p hp)
    · exact fun tip htip => hcommits tip (h.tip tip htip)
    · intro hash body hbody
      refine (hlookup hash).trans ?_
      rw [if_neg, hbody]
      rintro rfl
      refine hfresh (AList.lookup_isSome.mp ?_)
      rw [hbody]
      rfl

/-! ### The walk -/

/-- What a walk back found, newest first: it comes to the mirror's tip, or to a first commit for a
mirror without one. -/
inductive Walked (prims : NetPrimitives) (ownerPubkey : Bytes) (tip : Option Hash) :
    Hash → List CommitData → Prop
  | tip {cur : Hash} (htip : tip = some cur) : Walked prims ownerPubkey tip cur []
  | first {cur : Hash} {c : CommitData} (hdeclared : toHash32 c.hash = .ok cur)
    (hverify : verifyOwned prims ownerPubkey c = .ok ()) (hparent : parentOf c.parent = .ok none)
    (htip : tip = none) : Walked prims ownerPubkey tip cur [c]
  | next {cur p : Hash} {c : CommitData} {older : List CommitData}
    (hdeclared : toHash32 c.hash = .ok cur) (hverify : verifyOwned prims ownerPubkey c = .ok ())
    (hparent : parentOf c.parent = .ok (some p)) (holder : Walked prims ownerPubkey tip p older) :
    Walked prims ownerPubkey tip cur (c :: older)

theorem exchange_sink {st st' : Session} {res : Except NetError Owner}
    (h : exchange peer st = (res, st')) :
    st'.toReceiver = st.toReceiver ∧ ∀ e, res = .error e → e = .io := by
  unfold exchange at h
  split at h <;> cases h
  · exact ⟨rfl, fun e he => by cases he; rfl⟩
  · exact ⟨rfl, by simp⟩

theorem requestCommit_sink {hash : Hash} {st st' : Session} {res : Except NetError CommitData}
    (h : requestCommit peer hash st = (res, st')) :
    st'.toReceiver = st.toReceiver ∧ ∀ c, res = .ok c → toHash32 c.hash = .ok hash := by
  rcases Fallible.bind_cases h with ⟨e, hfail, rfl⟩ | ⟨owner, mid, hsent, hrest⟩
  · exact ⟨(exchange_sink hfail).1, by simp⟩
  · cases hrest
    refine ⟨(exchange_sink hsent).1, fun c hc => ?_⟩
    obtain ⟨rfl, -, hdeclared⟩ := CommitData.answers_ok hc
    exact hdeclared

theorem walkBack_walked {room : Nat} {cur : Hash} {missing : List CommitData} {st st' : Session}
    {res : Except NetError (List CommitData)}
    (h : walkBack prims ownerPubkey peer room cur missing st = (res, st')) :
    st'.toReceiver = st.toReceiver ∧ ∀ found, res = .ok found →
      ∃ walked, found = missing ++ walked ∧
        Walked prims ownerPubkey st.mirror.storedTip cur walked := by
  induction room generalizing cur missing st with
  | zero =>
    cases h
    exact ⟨rfl, by simp⟩
  | succ room ih =>
    unfold walkBack at h
    rw [Fallible.bind_ok (Fallible.gets_apply _ _)] at h
    by_cases hheld : st.mirror.hasCommit cur = true
    · rw [if_pos hheld] at h
      split_ifs at h with htip
      · cases h
        exact ⟨rfl, by simp⟩
      · cases h
        refine ⟨rfl, fun found hfound => ⟨[], ?_, .tip (not_not.mp htip)⟩⟩
        rw [List.append_nil]
        exact (Except.ok.inj hfound).symm
    · rw [if_neg hheld] at h
      rcases Fallible.bind_cases h with ⟨e, hfail, rfl⟩ | ⟨c, mid, hreply, h⟩
      · exact ⟨(requestCommit_sink hfail).1, by simp⟩
      obtain ⟨hmid, hdeclared⟩ := requestCommit_sink hreply
      rcases Fallible.ofExcept_bind_cases h with ⟨e, -, rfl, rfl⟩ | ⟨⟨⟩, hverify, h⟩
      · exact ⟨hmid, by simp⟩
      rcases Fallible.ofExcept_bind_cases h with ⟨e, -, rfl, rfl⟩ | ⟨parent, hparent, h⟩
      · exact ⟨hmid, by simp⟩
      cases parent with
      | some p =>
        obtain ⟨hst, hfound⟩ := ih h
        refine ⟨hst.trans hmid, fun found hok => ?_⟩
        obtain ⟨walked, rfl, hwalked⟩ := hfound found hok
        rw [hmid] at hwalked
        exact ⟨c :: walked, by simp, .next (hdeclared c rfl) hverify hparent hwalked⟩
      | none =>
        dsimp only at h
        split_ifs at h with htip
        · cases h
          exact ⟨hmid, by simp⟩
        · cases h
          refine ⟨hmid, fun found hfound => ⟨[c], (Except.ok.inj hfound).symm, ?_⟩⟩
          exact .first (hdeclared c rfl) hverify hparent (Option.not_isSome_iff_eq_none.mp htip)

/-! ### The backfill -/

theorem fetchCommits_append (hashOf : Bytes → Hash) (peer : Peer) (depth : Nat)
    (first rest : List CommitData) :
    fetchCommits hashOf peer depth (first ++ rest) =
      fetchCommits hashOf peer depth first >>= fun _ => fetchCommits hashOf peer depth rest := by
  induction first with
  | nil => rfl
  | cons c first ih =>
    rw [List.cons_append, fetchCommits, fetchCommits, ih]
    simp only [Fallible.bind_assoc]

/-- One commit: its tree, then its row. -/
theorem fetchCommit_advanced {depth : Nat} {cur : Hash} (hdeclared : toHash32 c.hash = .ok cur)
    (hverify : verifyOwned prims ownerPubkey c = .ok ()) {parent : Option Hash}
    (hparent : parentOf c.parent = .ok parent) {st st' : Session} {res : Except NetError Unit}
    (h : Sound prims ownerPubkey st.mirror)
    (hrun : fetchCommits prims.hashOf peer depth [c] st = (res, st')) :
    Advanced prims ownerPubkey st.mirror st'.mirror ∧ (res = .ok () →
      st'.mirror.hasCommit cur = true ∧ ∀ p ∈ parent, ParentOf st'.mirror.db cur p) := by
  unfold fetchCommits at hrun
  rcases Fallible.ofExcept_bind_cases hrun with ⟨e, -, rfl, rfl⟩ | ⟨root, hroot, hrun⟩
  · exact ⟨.refl h, by simp⟩
  have htree := @fetchTree_secures prims.hashOf peer depth root st.mirror
  rcases Fallible.bind_cases hrun with ⟨e, hfail, rfl⟩ | ⟨⟨⟩, mid, hfetch, hrun⟩
  · exact ⟨.ofFetched h (htree.error (.refl h.closed) hfail), by simp⟩
  obtain ⟨hfetched, hheld⟩ := htree.ok (.refl h.closed) hfetch
  have hadvanced := Advanced.ofFetched h hfetched
  have hrest : st'.mirror = (storeCommitRow c mid.toReceiver).2.mirror ∧
      (res = .ok () → (storeCommitRow c mid.toReceiver).1 = .ok ()) := by
    rcases Fallible.bind_cases hrun with ⟨e, hfail, rfl⟩ | ⟨⟨⟩, last, hstored, hrun⟩
    · obtain ⟨-, hst⟩ := Prod.mk.inj hfail
      exact ⟨hst ▸ rfl, by simp⟩
    · obtain ⟨hres, hst⟩ := Prod.mk.inj hstored
      cases hrun
      exact ⟨hst ▸ rfl, fun _ => hres⟩
  cases hrow : commitDataToRow c with
  | error e =>
    have hstuck : storeCommitRow c mid.toReceiver = (.error e, mid.toReceiver) := by
      simp only [storeCommitRow, Mirror.storeCommit, hrow]
    rw [hstuck] at hrest
    rw [hrest.1]
    exact ⟨hadvanced, fun hok => by cases hrest.2 hok⟩
  | ok row =>
    obtain ⟨_, hsame, hfields⟩ := bind_ok_iff.mp hrow
    cases hdeclared.symm.trans hsame
    obtain ⟨_, hsame, hfields⟩ := bind_ok_iff.mp hfields
    cases hparent.symm.trans hsame
    obtain ⟨_, hsame, hfields⟩ := bind_ok_iff.mp hfields
    cases hroot.symm.trans hsame
    obtain ⟨_, -, hfields⟩ := bind_ok_iff.mp hfields
    obtain ⟨_, -, hfields⟩ := bind_ok_iff.mp hfields
    cases hfields
    obtain ⟨hstored, hlookup⟩ := storeCommitRow_advanced hadvanced.sound hverify hrow hheld
    rw [hrest.1]
    refine ⟨hadvanced.trans hstored, fun hok => ?_⟩
    have hbody := hlookup (hrest.2 hok)
    exact ⟨Option.isSome_iff_exists.mpr ⟨_, hbody⟩, fun p hp => ⟨_, hbody, hp⟩⟩

/-- **The backfill of what a walk found**: its commits lead from the announced tip to the old. -/
theorem fetchCommits_walked {depth : Nat} {tip : Option Hash} {cur : Hash}
    {walked : List CommitData} (hwalked : Walked prims ownerPubkey tip cur walked)
    {st st' : Session} {res : Except NetError Unit}
    (h : Sound prims ownerPubkey st.mirror) (htip : st.mirror.storedTip = tip)
    (hrun : fetchCommits prims.hashOf peer depth walked.reverse st = (res, st')) :
    Advanced prims ownerPubkey st.mirror st'.mirror ∧ (res = .ok () →
      st'.mirror.hasCommit cur = true ∧
        ∀ old ∈ tip, Relation.ReflTransGen (ParentOf st'.mirror.db) cur old) := by
  induction hwalked generalizing st' res with
  | tip hcur =>
    cases hrun
    refine ⟨.refl h, fun _ => ⟨h.tip _ (htip.trans hcur), fun old hold => ?_⟩⟩
    cases hcur.symm.trans hold
    exact .refl
  | first hdeclared hverify hparent hnone =>
    obtain ⟨hadvanced, hdone⟩ := fetchCommit_advanced hdeclared hverify hparent h hrun
    refine ⟨hadvanced, fun hok => ⟨(hdone hok).1, fun old hold => ?_⟩⟩
    rw [hnone] at hold
    cases hold
  | next hdeclared hverify hparent _ ih =>
    rw [List.reverse_cons, fetchCommits_append] at hrun
    rcases Fallible.bind_cases hrun with ⟨e, hfail, rfl⟩ | ⟨⟨⟩, mid, holder, hrun⟩
    · exact ⟨(ih hfail).1, by simp⟩
    obtain ⟨hadvanced, hdone⟩ := ih holder
    obtain ⟨hadvanced', hdone'⟩ :=
      fetchCommit_advanced hdeclared hverify hparent hadvanced.sound hrun
    refine ⟨hadvanced.trans hadvanced', fun hok => ⟨(hdone' hok).1, fun old hold => ?_⟩⟩
    have hreach := (hdone rfl).2 old hold
    have hstep := (hdone' hok).2 _ rfl
    exact .head hstep (hreach.lift id fun _ _ hparent => hadvanced'.parentOf hparent)

end

/-! ### Runs -/

section

variable (prims : NetPrimitives) (ownerPubkey : Bytes) (peer : Peer)

/-- `pull_subtree` -/
def fetchSubtree (hashOf : Bytes → Hash) (depth : Nat) (rootTree : Hash) : Pull SubtreeSummary := do
  let m ← Fallible.gets fun st => st.mirror
  fetchTree hashOf peer depth rootTree
  let _ ← exchange peer
  let summary ← Fallible.gets fun st => st.summary
  return ⟨m.hasTree rootTree, summary.trees, summary.objects⟩

/-- A pull of one tree into a mirror: the mirror it leaves. -/
def subtreeInto (hashOf : Bytes → Hash) (depth : Nat) (rootTree : Hash) (m : Mirror) : Mirror :=
  (fetchSubtree peer hashOf depth rootTree ⟨⟨m, {}⟩, 0⟩).2.mirror

/-- **Any run of pulls**, from any peers, cut off anywhere. -/
inductive Pulled : Mirror → Prop
  | start : Pulled .empty
  | pull {m : Mirror} (h : Pulled m) (peer : Peer) (depth : Nat) :
    Pulled (pullInto prims ownerPubkey peer depth m).2
  | subtree {m : Mirror} (h : Pulled m) (peer : Peer) (depth : Nat) (rootTree : Hash) :
    Pulled (subtreeInto peer prims.hashOf depth rootTree m)

/-- The tip that the owner signed, as the peer's first answer announces it. -/
def Announced (tip : Hash) : Prop :=
  ∃ owner, peer 0 = some owner ∧ verifyTipannounce prims ownerPubkey owner.announce = true ∧
    toHash32 owner.announce.tipHash = .ok tip

/-- A mirror after one pull. All that it held it holds; its tip stayed, or moved to the announced
one, which leads to the old one. Where the pull failed the tip stayed, unless the session was cut
off after it was set. -/
structure AfterPull (m : Mirror) (res : Except NetError PullSummary) (m' : Mirror) : Prop where
  sound : Sound prims ownerPubkey m'
  kept : ∀ want, m.holds want = true → m'.holds want = true
  commits : ∀ hash body, m.db.commits.lookup hash = some body →
    m'.db.commits.lookup hash = some body
  moved : m'.storedTip = m.storedTip ∨ ∃ tip, m'.storedTip = some tip ∧
    Announced prims ownerPubkey peer tip ∧
    (∀ old ∈ m.storedTip, Relation.ReflTransGen (ParentOf m'.db) tip old) ∧
    ∀ e, res = .error e → e = .io

end

section

variable {prims : NetPrimitives} {ownerPubkey : Bytes}

theorem AfterPull.ofAdvanced {res : Except NetError PullSummary}
    (h : Advanced prims ownerPubkey m m') : AfterPull prims ownerPubkey peer m res m' :=
  ⟨h.sound, h.kept, h.commits, .inl h.storedTip⟩

/-- The plan of a negotiation: it stores nothing. -/
theorem negotiatePull_walked {r : Receiver} {st : Session} {res : Except NetError Plan}
    (hrun : negotiatePull prims ownerPubkey peer ⟨r, 0⟩ = (res, st)) :
    st.toReceiver = r ∧ ∀ missing tip height, res = .ok (.backfill missing tip height) →
      Announced prims ownerPubkey peer tip ∧
        Walked prims ownerPubkey r.mirror.storedTip tip missing := by
  unfold negotiatePull at hrun
  rcases Fallible.bind_cases hrun with ⟨e, hfail, rfl⟩ | ⟨owner, mid, hsent, hrun⟩
  · exact ⟨(exchange_sink hfail).1, by simp⟩
  have hmid := (exchange_sink hsent).1
  have hfirst : peer 0 = some owner := by
    unfold exchange at hsent
    dsimp only at hsent
    split at hsent <;> cases hsent
    assumption
  split_ifs at hrun with hverify hempty
  · cases hrun
    exact ⟨hmid, by simp⟩
  · cases hrun
    exact ⟨hmid, by simp⟩
  rcases Fallible.ofExcept_bind_cases hrun with ⟨e, -, rfl, rfl⟩ | ⟨announced, hannounced, hrun⟩
  · exact ⟨hmid, by simp⟩
  rw [Fallible.bind_ok (Fallible.gets_apply _ _)] at hrun
  split_ifs at hrun with htip
  · cases hrun
    exact ⟨hmid, by simp⟩
  rcases Fallible.bind_cases hrun with ⟨e, hfail, rfl⟩ | ⟨found, last, hwalk, hrun⟩
  · exact ⟨(walkBack_walked hfail).1.trans hmid, by simp⟩
  obtain ⟨hlast, hfound⟩ := walkBack_walked hwalk
  cases hrun
  refine ⟨hlast.trans hmid, fun missing tip height hok => ?_⟩
  cases hok
  obtain ⟨walked, rfl, hwalked⟩ := hfound found rfl
  rw [hmid] at hwalked
  exact ⟨⟨owner, hfirst, by simpa using hverify, hannounced⟩, hwalked⟩

/-- **One pull from any peer.** -/
theorem pullInto_after (h : Sound prims ownerPubkey m) (peer : Peer) (depth : Nat) :
    AfterPull prims ownerPubkey peer m (pullInto prims ownerPubkey peer depth m).1
      (pullInto prims ownerPubkey peer depth m).2 := by
  unfold pullInto
  dsimp only
  cases hrun : pullReplication prims ownerPubkey peer depth ⟨⟨m, {}⟩, 0⟩ with
  | mk res st =>
  dsimp only
  unfold pullReplication at hrun
  rcases Fallible.bind_cases hrun with ⟨e, hfail, rfl⟩ | ⟨plan, mid, hplan, hrun⟩
  · rw [(negotiatePull_walked hfail).1]
    exact .ofAdvanced (.refl h)
  obtain ⟨hmid, hwalked⟩ := negotiatePull_walked hplan
  have hmirror : mid.mirror = m := by rw [hmid]
  have hclosing {summary : PullSummary}
      (hlast : (exchange peer >>= fun _ => pure summary) mid = (res, st)) :
      AfterPull prims ownerPubkey peer m res st.mirror := by
    have hst : st.mirror = m := by
      rcases Fallible.bind_cases hlast with ⟨e, hfail, -⟩ | ⟨owner, last, hsent, hlast⟩
      · rw [(exchange_sink hfail).1, hmirror]
      · cases hlast
        rw [(exchange_sink hsent).1, hmirror]
    rw [hst]
    exact .ofAdvanced (.refl h)
  cases plan with
  | empty => exact hclosing hrun
  | upToDate => exact hclosing hrun
  | backfill missing tip height =>
    obtain ⟨hannounced, hwalked⟩ := hwalked missing tip height rfl
    have hsound : Sound prims ownerPubkey mid.mirror := hmirror ▸ h
    have htip : mid.mirror.storedTip = m.storedTip := by rw [hmirror]
    rcases Fallible.bind_cases hrun with ⟨e, hfail, rfl⟩ | ⟨⟨⟩, last, hdone, hrun⟩
    · have hadvanced := (fetchCommits_walked hwalked hsound htip hfail).1
      rw [hmirror] at hadvanced
      exact .ofAdvanced hadvanced
    obtain ⟨hadvanced, hled⟩ := fetchCommits_walked hwalked hsound htip hdone
    rw [hmirror] at hadvanced
    obtain ⟨hheld, hreach⟩ := hled rfl
    have hst : st.mirror = last.mirror.advanceTip tip ∧ ∀ e, res = .error e → e = .io := by
      rw [Fallible.bind_ok (onSink_apply _ last.toReceiver last.sent)] at hrun
      rcases Fallible.bind_cases hrun with ⟨e, hfail, rfl⟩ | ⟨owner, closed, hsent, hrun⟩
      · obtain ⟨hsink, hio⟩ := exchange_sink hfail
        refine ⟨by rw [hsink]; rfl, fun e' he => ?_⟩
        cases he
        exact hio e rfl
      · cases hrun
        exact ⟨by rw [(exchange_sink hsent).1]; rfl, by simp⟩
    have hnew : (last.mirror.advanceTip tip).storedTip = some tip := by
      change (last.mirror.db.refs.insert tipRef tip).lookup tipRef = some tip
      exact AList.lookup_insert _
    rw [hst.1]
    refine ⟨⟨⟨hadvanced.sound.closed.objects, hadvanced.sound.closed.trees,
      hadvanced.sound.closed.below⟩, hadvanced.sound.signed, hadvanced.sound.roots,
      hadvanced.sound.parents, fun tip' htip' => ?_⟩, hadvanced.kept, hadvanced.commits,
      .inr ⟨tip, hnew, hannounced, hreach, hst.2⟩⟩
    obtain rfl := Option.some.inj (hnew.symm.trans htip')
    exact hheld

theorem subtreeInto_advanced (h : Sound prims ownerPubkey m) (peer : Peer) (depth : Nat)
    (rootTree : Hash) :
    Advanced prims ownerPubkey m (subtreeInto peer prims.hashOf depth rootTree m) := by
  unfold subtreeInto fetchSubtree
  rw [Fallible.bind_ok (Fallible.gets_apply _ _)]
  have htree := @fetchTree_secures prims.hashOf peer depth rootTree m
  cases hfetch : fetchTree prims.hashOf peer depth rootTree ⟨⟨m, {}⟩, 0⟩ with
  | mk res st =>
  cases res with
  | error e =>
    rw [Fallible.bind_error hfetch]
    exact .ofFetched h (htree.error (.refl h.closed) hfetch)
  | ok u =>
    rw [Fallible.bind_ok hfetch]
    have hfetched := (htree.ok (.refl h.closed) hfetch).1
    cases hsent : exchange peer st with
    | mk reply last =>
    have hlast := (exchange_sink hsent).1
    cases reply with
    | error e =>
      rw [Fallible.bind_error hsent, hlast]
      exact .ofFetched h hfetched
    | ok owner =>
      rw [Fallible.bind_ok hsent, Fallible.bind_ok (Fallible.gets_apply _ _)]
      change Advanced prims ownerPubkey m last.mirror
      rw [hlast]
      exact .ofFetched h hfetched

/-- **Any run of pulls leaves a sound mirror**, and any next pull keeps what it holds and moves its
tip, if at all, to a commit the owner signed that leads to the old tip. -/
theorem pulled_sound (h : Pulled prims ownerPubkey m) :
    Sound prims ownerPubkey m ∧ ∀ peer depth,
      AfterPull prims ownerPubkey peer m (pullInto prims ownerPubkey peer depth m).1
        (pullInto prims ownerPubkey peer depth m).2 := by
  have hsound : Sound prims ownerPubkey m := by
    induction h with
    | start => exact .empty
    | pull _ peer depth ih => exact (pullInto_after ih peer depth).sound
    | subtree _ peer depth rootTree ih => exact (subtreeInto_advanced ih peer depth rootTree).sound
  exact ⟨hsound, fun peer depth => pullInto_after hsound peer depth⟩

/-- The mirror a cut left is sound, though it refuses its owner. -/
theorem pulled_sound_stranded :
    Sound demoPrims demoKey (pullInto demoPrims demoKey demoCut 2 .empty).2 :=
  (pulled_sound (.pull .start demoCut 2)).1

end

end Softfig.Replica
