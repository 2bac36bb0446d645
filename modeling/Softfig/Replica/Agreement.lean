import Softfig.Replica.Gathered

/-!
The two pulls agree: from an honest owner the full-duplex pull and the one that fetches one item
after another return the same and leave the same mirror.

- `Tally`: each open tree counts the children it waits for, and they name it;
- `cascadeLoop_settled`: a cascade stores the open trees whose children are all there;
- `Driving`: what is asked for is on its way, open or held;
- `driveLoop_gathered`: the full-duplex pull gathers what the missing commits lead to;
- `pulls_agree`: the two pulls.
-/

namespace Softfig.Replica

open Softfig.Lib Softfig.Store Softfig.Vcs

/-! ### The children an open tree waits for -/

/-- What the entries of a tree name. -/
def TreeData.wants (t : TreeData) : Finset Want :=
  (t.entries.filterMap fun entry => entry.want.toOption).toFinset

/-- The children of a tree that are lacked, or that came and were not yet counted. -/
def owed (m : Mirror) (present : List Hash) (t : TreeData) : Finset Want :=
  t.wants.filter fun want => m.holds want = false ∨ want.hash ∈ present

/-- The trees that wait for what is under this address. -/
def OpenTrees.waitingFor (b : OpenTrees) (hash : Hash) : List Hash :=
  (b.waiters.lookup hash).getD []

section

variable (hashOf : Bytes → Hash) (src : Source) (roots : Want → Prop)

/-- No address is asked for both as a tree and as an object. -/
def OneKind : Prop :=
  ∀ x y, Asked src roots x → Asked src roots y → x.hash = y.hash → x = y

/-- An open tree counts the children it is owed, and each of them names it. -/
structure Awaits (present : List Hash) (b : OpenTrees) (extra : Nat) (hash : Hash)
    (ot : OpenTree) : Prop where
  asked : Asked src roots (.tree hash)
  reply : src.requestTree hash = .ok ot.data
  lacked : b.receiver.mirror.holds (.tree hash) = false
  pending : ot.pending = (owed b.receiver.mirror present ot.data).card + extra
  positive : 0 < ot.pending
  noted : ∀ want ∈ owed b.receiver.mirror present ot.data, hash ∈ b.waitingFor want.hash

/-- **The tally of a cascade**: what is `present` was stored and is not yet counted, and the parents
`todo` are still to count one child. -/
structure Tally (todo present : List Hash) (b : OpenTrees) : Prop where
  copies : Copies hashOf src b.receiver.mirror
  here : ∀ hash ∈ present, ∃ want, Asked src roots want ∧ want.hash = hash ∧
    b.receiver.mirror.holds want = true
  nodup : present.Nodup
  once : todo.Nodup
  todoOpen : ∀ parent ∈ todo, parent ∈ b.opened
  opened : ∀ hash ot, b.opened.lookup hash = some ot →
    Awaits src roots present b (if hash ∈ todo then 1 else 0) hash ot
  distinct : ∀ hash, (b.waitingFor hash).Nodup
  waiting : ∀ hash, ∀ parent ∈ b.waitingFor hash, ∃ ot want, b.opened.lookup parent = some ot ∧
    want ∈ owed b.receiver.mirror present ot.data ∧ want.hash = hash

/-- What a cascade does: it stores some of the open trees. -/
structure Settled (b b' : OpenTrees) : Prop where
  reaped : Reaped hashOf src roots b.receiver b'.receiver
  stored : ∀ x, b'.receiver.mirror.holds x = true →
    b.receiver.mirror.holds x = true ∨ ∃ hash ∈ b.opened, x = .tree hash
  opened : ∀ hash ot', b'.opened.lookup hash = some ot' →
    ∃ ot, b.opened.lookup hash = some ot ∧ ot'.data = ot.data
  closed : ∀ hash ∈ b.opened, hash ∈ b'.opened ∨ b'.receiver.mirror.holds (.tree hash) = true

end

variable {hashOf : Bytes → Hash} {src : Source} {roots : Want → Prop} {want : Want}
  {m m' : Mirror} {t : TreeData} {present todo : List Hash} {b b' b'' : OpenTrees}

theorem mem_iff_lookup {κ ν : Type} [DecidableEq κ] {table : AList fun _ : κ => ν} {key : κ} :
    key ∈ table ↔ ∃ v, table.lookup key = some v := by
  rw [← AList.lookup_isSome, Option.isSome_iff_exists]

@[simp]
theorem mem_wants : want ∈ t.wants ↔ Listed t.entries want := by
  simp only [TreeData.wants, List.mem_toFinset, List.mem_filterMap, Listed]
  refine exists_congr fun entry => and_congr_right fun _ => ?_
  cases entry.want <;> simp [Except.toOption]

theorem mem_owed : want ∈ owed m present t ↔
    Listed t.entries want ∧ (m.holds want = false ∨ want.hash ∈ present) := by
  simp only [owed, Finset.mem_filter, mem_wants]

theorem Awaits.child {extra : Nat} {hash : Hash} {ot : OpenTree}
    (h : Awaits src roots present b extra hash ot) (hlisted : Listed ot.data.entries want) :
    Asked src roots want := by
  obtain ⟨entry, hentry, hwant⟩ := hlisted
  exact .child h.asked h.reply hentry hwant

/-- A tree that is owed nothing has its children there. -/
theorem held_of_owed (h : owed m present t = ∅) (entry : TreeEntryMsg) (hentry : entry ∈ t.entries)
    (child : Want) (hchild : entry.want = .ok child) : m.holds child = true := by
  by_contra hlacked
  have hin : child ∈ owed m present t :=
    mem_owed.mpr ⟨⟨entry, hentry, hchild⟩, .inl (Bool.eq_false_iff.mpr hlacked)⟩
  rw [h] at hin
  cases hin

/-- What is stored becomes present: a child that was lacked is owed until it is counted. -/
theorem owed_adds {r r' : Receiver} {hash : Hash} (hkind : OneKind src roots)
    (htree : Asked src roots (.tree hash)) (hreply : src.requestTree hash = .ok t)
    (hasked : Asked src roots want) (hlacked : r.mirror.holds want = false)
    (hadds : Adds hashOf src want r r') :
    owed r'.mirror (want.hash :: present) t = owed r.mirror present t := by
  refine Finset.filter_congr fun child hchild => ?_
  obtain ⟨entry, hentry, hwant⟩ := mem_wants.mp hchild
  have hchild := Asked.child htree hreply hentry hwant
  rw [← Bool.not_eq_true, ← Bool.not_eq_true, hadds.holds, List.mem_cons]
  by_cases heq : child = want
  · subst heq
    simp [hlacked]
  · have hne : child.hash ≠ want.hash := fun hhash => heq (hkind _ _ hchild hasked hhash)
    simp [heq, hne]

namespace Settled

theorem refl (h : Copies hashOf src b.receiver.mirror) : Settled hashOf src roots b b where
  reaped := .refl h
  stored _ hx := .inl hx
  opened _ ot hot := ⟨ot, hot, rfl⟩
  closed _ hmem := .inl hmem

theorem trans (h : Settled hashOf src roots b b') (h' : Settled hashOf src roots b' b'') :
    Settled hashOf src roots b b'' where
  reaped := h.reaped.trans h'.reaped
  stored x hx := by
    rcases h'.stored x hx with hmid | ⟨hash, hmem, rfl⟩
    · exact h.stored x hmid
    · obtain ⟨ot', hot'⟩ := mem_iff_lookup.mp hmem
      obtain ⟨ot, hot, -⟩ := h.opened hash ot' hot'
      exact .inr ⟨hash, mem_iff_lookup.mpr ⟨ot, hot⟩, rfl⟩
  opened hash ot'' hot'' := by
    obtain ⟨ot', hot', hdata'⟩ := h'.opened hash ot'' hot''
    obtain ⟨ot, hot, hdata⟩ := h.opened hash ot' hot'
    exact ⟨ot, hot, hdata'.trans hdata⟩
  closed hash hmem := by
    rcases h.closed hash hmem with hmid | hheld
    · exact h'.closed hash hmid
    · exact .inr (h'.reaped.holds hheld)

end Settled

/-! ### The cascade -/

/-- A table without one of its keys. -/
theorem lookup_erase_eq {κ ν : Type} [DecidableEq κ] (table : AList fun _ : κ => ν) (key key' : κ) :
    (table.erase key).lookup key' = if key' = key then none else table.lookup key' := by
  split_ifs with h
  · exact h ▸ AList.lookup_erase _ _
  · exact AList.lookup_erase_ne h

theorem lookup_insert_eq {κ ν : Type} [DecidableEq κ] (table : AList fun _ : κ => ν) (key key' : κ)
    (v : ν) : (table.insert key v).lookup key' =
      if key' = key then some v else table.lookup key' := by
  split_ifs with h
  · exact h ▸ AList.lookup_insert _
  · exact AList.lookup_insert_ne h

/-- **The next address to be counted**: its parents are those that wait for it. -/
theorem Tally.take {done : Hash} (hkind : OneKind src roots)
    (h : Tally hashOf src roots [] (done :: present) b) :
    Tally hashOf src roots (b.waitingFor done) present
      { b with waiters := b.waiters.erase done } := by
  obtain ⟨hdone, hnodup⟩ := List.nodup_cons.mp h.nodup
  obtain ⟨here, hasked, hhash, hheld⟩ := h.here done List.mem_cons_self
  have hwaiting (hash : Hash) :
      OpenTrees.waitingFor { b with waiters := b.waiters.erase done } hash =
      if hash = done then [] else b.waitingFor hash := by
    simp only [OpenTrees.waitingFor, lookup_erase_eq]
    split_ifs <;> rfl
  -- of what a tree is owed, only what came just now is no longer
  have howed {hash : Hash} {ot : OpenTree} (hot : b.opened.lookup hash = some ot) :
      owed b.receiver.mirror present ot.data =
        (owed b.receiver.mirror (done :: present) ot.data).erase here := by
    have hawaits := h.opened hash ot hot
    ext child
    rw [Finset.mem_erase, mem_owed, mem_owed, List.mem_cons]
    constructor
    · rintro ⟨hlisted, hwhy⟩
      refine ⟨?_, hlisted, hwhy.imp_right .inr⟩
      rintro rfl
      rcases hwhy with hlacked | hmem
      · rw [hheld] at hlacked
        cases hlacked
      · exact hdone (hhash ▸ hmem)
    · rintro ⟨hne, hlisted, hwhy⟩
      refine ⟨hlisted, hwhy.imp_right fun hmem => hmem.resolve_left fun heq => hne ?_⟩
      exact hkind _ _ (hawaits.child hlisted) hasked (heq.trans hhash.symm)
  have hparent {hash : Hash} {ot : OpenTree} (hot : b.opened.lookup hash = some ot) :
      hash ∈ b.waitingFor done ↔ here ∈ owed b.receiver.mirror (done :: present) ot.data := by
    constructor
    · intro hmem
      obtain ⟨ot', child, hot', hchild, hchildHash⟩ := h.waiting done hash hmem
      cases hot.symm.trans hot'
      have hawaits := h.opened hash ot hot
      obtain rfl := hkind _ _ (hawaits.child (mem_owed.mp hchild).1) hasked
        (hchildHash.trans hhash.symm)
      exact hchild
    · exact fun hmem => hhash ▸ (h.opened hash ot hot).noted here hmem
  refine ⟨h.copies, fun hash hmem => h.here hash (List.mem_cons_of_mem _ hmem), hnodup,
    h.distinct done, fun parent hmem => ?_, fun hash ot hot => ?_, fun hash => ?_,
    fun hash parent hmem => ?_⟩
  · obtain ⟨ot, -, hot, -⟩ := h.waiting done parent hmem
    exact mem_iff_lookup.mpr ⟨ot, hot⟩
  · have hawaits := h.opened hash ot hot
    refine ⟨hawaits.asked, hawaits.reply, hawaits.lacked, ?_, hawaits.positive, ?_⟩
    · have hpending := hawaits.pending
      rw [if_neg List.not_mem_nil, Nat.add_zero] at hpending
      change ot.pending = (owed b.receiver.mirror present ot.data).card + _
      rw [hpending, howed hot]
      split_ifs with hmem
      · exact (Finset.card_erase_add_one ((hparent hot).mp hmem)).symm
      · rw [Finset.erase_eq_of_notMem fun hin => hmem ((hparent hot).mpr hin), Nat.add_zero]
    · intro child hchild
      have hchild' : child ∈ owed b.receiver.mirror present ot.data := hchild
      rw [howed hot, Finset.mem_erase] at hchild'
      rw [hwaiting, if_neg]
      · exact hawaits.noted child hchild'.2
      · exact fun heq => hchild'.1 (hkind _ _ (hawaits.child (mem_owed.mp hchild'.2).1) hasked
          (heq.trans hhash.symm))
  · rw [hwaiting]
    split_ifs
    · exact List.nodup_nil
    · exact h.distinct hash
  · rw [hwaiting] at hmem
    split_ifs at hmem with heq
    · cases hmem
    · obtain ⟨ot, child, hot, hchild, rfl⟩ := h.waiting hash parent hmem
      refine ⟨ot, child, hot, ?_, rfl⟩
      change child ∈ owed b.receiver.mirror present ot.data
      rw [howed hot, Finset.mem_erase]
      refine ⟨?_, hchild⟩
      rintro rfl
      exact heq hhash

section

variable (hkind : OneKind src roots) (hroots : ∀ x, roots x → Good hashOf src .empty x)
  (hsorted : ∀ hash t row, src.requestTree hash = .ok t → verifyTree hashOf t = .ok row →
    SortedByName row.2)

include hkind

/-- A parent with its last child there is stored, and becomes present itself. -/
theorem Tally.store {parent : Hash} {ot : OpenTree} {r' : Receiver}
    (h : Tally hashOf src roots (parent :: todo) present b)
    (hot : b.opened.lookup parent = some ot)
    (hnone : owed b.receiver.mirror present ot.data = ∅)
    (hadds : Adds hashOf src (.tree parent) b.receiver r') :
    Tally hashOf src roots todo (parent :: present)
        { b with receiver := r', opened := b.opened.erase parent } ∧
      Settled hashOf src roots b { b with receiver := r', opened := b.opened.erase parent } := by
  obtain ⟨hparent, honce⟩ := List.nodup_cons.mp h.once
  have hawaits := h.opened parent ot hot
  have hmem : parent ∈ b.opened := h.todoOpen parent List.mem_cons_self
  have hlookup := lookup_erase_eq b.opened parent
  constructor
  · refine ⟨hadds.grew.copies, List.forall_mem_cons.mpr ⟨?_, fun hash hmem => ?_⟩, ?_, honce,
      fun p hp => ?_, fun hash ot' hot' => ?_, h.distinct, fun hash p hp => ?_⟩
    · exact ⟨.tree parent, hawaits.asked, rfl, (hadds.holds _).mpr (.inr rfl)⟩
    · obtain ⟨x, hasked, hhash, hheld⟩ := h.here hash hmem
      exact ⟨x, hasked, hhash, (hadds.holds x).mpr (.inl hheld)⟩
    · refine List.nodup_cons.mpr ⟨fun hin => ?_, h.nodup⟩
      obtain ⟨x, hasked, hhash, hheld⟩ := h.here parent hin
      obtain rfl := hkind _ (.tree parent) hasked hawaits.asked hhash
      rw [hawaits.lacked] at hheld
      cases hheld
    · refine AList.mem_erase.mpr ⟨?_, h.todoOpen p (List.mem_cons_of_mem _ hp)⟩
      rintro rfl
      exact hparent hp
    · change (b.opened.erase parent).lookup hash = some ot' at hot'
      rw [hlookup] at hot'
      split_ifs at hot' with hne
      have hother := h.opened hash ot' hot'
      have howed := @owed_adds hashOf _ roots _ ot'.data present _ _ _ hkind hother.asked
        hother.reply hawaits.asked hawaits.lacked hadds
      refine ⟨hother.asked, hother.reply, hadds.lacks hother.lacked (by simpa using hne), ?_,
        hother.positive, fun child hchild => ?_⟩
      · refine hother.pending.trans ?_
        change _ = (owed r'.mirror ((Want.tree parent).hash :: present) ot'.data).card + _
        rw [howed]
        simp [hne]
      · refine hother.noted child ?_
        rw [← howed]
        exact hchild
    · obtain ⟨ot', child, hot', hchild, hhash⟩ := h.waiting hash p hp
      have hne : p ≠ parent := by
        rintro rfl
        cases hot.symm.trans hot'
        rw [hnone] at hchild
        cases hchild
      have hother := h.opened p ot' hot'
      refine ⟨ot', child, ?_, ?_, hhash⟩
      · exact (hlookup p).trans ((if_neg hne).trans hot')
      · change child ∈ owed r'.mirror ((Want.tree parent).hash :: present) ot'.data
        rw [owed_adds hkind hother.asked hother.reply hawaits.asked hawaits.lacked hadds]
        exact hchild
  · refine ⟨.ofAdds hadds hawaits.asked, fun x hx => ?_, fun hash ot' hot' => ?_,
      fun hash hin => ?_⟩
    · exact ((hadds.holds x).mp hx).imp_right fun heq => ⟨parent, hmem, heq⟩
    · change (b.opened.erase parent).lookup hash = some ot' at hot'
      rw [hlookup] at hot'
      split_ifs at hot'
      exact ⟨ot', hot', rfl⟩
    · rcases eq_or_ne hash parent with rfl | hne
      · exact .inr ((hadds.holds _).mpr (.inr rfl))
      · exact .inl (AList.mem_erase.mpr ⟨hne, hin⟩)

omit hkind in
/-- A parent with children still to come counts one less. -/
theorem Tally.count {parent : Hash} {ot : OpenTree}
    (h : Tally hashOf src roots (parent :: todo) present b)
    (hot : b.opened.lookup parent = some ot) (hleft : ot.pending - 1 ≠ 0) :
    Tally hashOf src roots todo present
        { b with opened := b.opened.insert parent { ot with pending := ot.pending - 1 } } ∧
      Settled hashOf src roots b
        { b with opened := b.opened.insert parent { ot with pending := ot.pending - 1 } } := by
  obtain ⟨hparent, honce⟩ := List.nodup_cons.mp h.once
  have hmem : parent ∈ b.opened := h.todoOpen parent List.mem_cons_self
  have hlookup (hash : Hash) := lookup_insert_eq b.opened parent hash
    { ot with pending := ot.pending - 1 }
  constructor
  · refine ⟨h.copies, h.here, h.nodup, honce, fun p hp => ?_, fun hash ot' hot' => ?_, h.distinct,
      fun hash p hp => ?_⟩
    · exact AList.mem_insert _ |>.mpr (.inr (h.todoOpen p (List.mem_cons_of_mem _ hp)))
    · change (b.opened.insert parent _).lookup hash = some ot' at hot'
      rw [hlookup] at hot'
      split_ifs at hot' with heq
      · subst heq
        obtain rfl := Option.some.inj hot'
        have hawaits := h.opened hash ot hot
        refine ⟨hawaits.asked, hawaits.reply, hawaits.lacked, ?_, Nat.pos_of_ne_zero hleft,
          hawaits.noted⟩
        have hpending := hawaits.pending
        rw [if_pos List.mem_cons_self] at hpending
        rw [if_neg hparent]
        change ot.pending - 1 = (owed b.receiver.mirror present ot.data).card + 0
        omega
      · have hother := h.opened hash ot' hot'
        refine ⟨hother.asked, hother.reply, hother.lacked, ?_, hother.positive, hother.noted⟩
        have hpending := hother.pending
        simp only [List.mem_cons, heq, false_or] at hpending
        exact hpending
    · obtain ⟨ot', child, hot', hchild, hhash⟩ := h.waiting hash p hp
      rcases eq_or_ne p parent with rfl | hne
      · cases hot.symm.trans hot'
        exact ⟨_, child, (hlookup p).trans (if_pos rfl), hchild, hhash⟩
      · exact ⟨ot', child, (hlookup p).trans ((if_neg hne).trans hot'), hchild, hhash⟩
  · refine ⟨.refl h.copies, fun _ hx => .inl hx, fun hash ot' hot' => ?_, fun hash hin => ?_⟩
    · change (b.opened.insert parent _).lookup hash = some ot' at hot'
      rw [hlookup] at hot'
      split_ifs at hot' with heq
      · obtain rfl := Option.some.inj hot'
        exact ⟨ot, heq ▸ hot, rfl⟩
      · exact ⟨ot', hot', rfl⟩
    · exact .inl (AList.mem_insert _ |>.mpr (.inr hin))

include hroots hsorted

theorem settleParents_settled (h : Tally hashOf src roots todo present b) :
    ∃ present' b', settleParents hashOf todo present b = (.ok present', b') ∧
      Tally hashOf src roots [] present' b' ∧ Settled hashOf src roots b b' := by
  induction todo generalizing present b with
  | nil => exact ⟨present, b, rfl, h, .refl h.copies⟩
  | cons parent todo ih =>
    obtain ⟨ot, hot⟩ := mem_iff_lookup.mp (h.todoOpen parent List.mem_cons_self)
    have hawaits := h.opened parent ot hot
    unfold settleParents
    simp only [hot]
    split_ifs with hlast
    · have hpending := hawaits.pending
      rw [if_pos List.mem_cons_self] at hpending
      have hnone : owed b.receiver.mirror present ot.data = ∅ := Finset.card_eq_zero.mp (by omega)
      rcases good_tree_iff.mp (hawaits.asked.good hroots) with hempty | ⟨t, row, hreply, hverify, -⟩
      · cases hempty
      cases hawaits.reply.symm.trans hreply
      obtain ⟨r', hstore, hadds⟩ := storeFetched_adds h.copies hawaits.reply hverify
        (hsorted _ _ _ hawaits.reply hverify) (held_of_owed hnone) hawaits.lacked
      obtain ⟨htally, hsettled⟩ := h.store hkind hot hnone hadds
      obtain ⟨present', b', hrest, htally', hsettled'⟩ := ih htally
      refine ⟨present', b', ?_, htally', hsettled.trans hsettled'⟩
      rw [hstore]
      exact hrest
    · obtain ⟨htally, hsettled⟩ := h.count hot hlast
      obtain ⟨present', b', hrest, htally', hsettled'⟩ := ih htally
      exact ⟨present', b', hrest, htally', hsettled.trans hsettled'⟩

/-- **A cascade** stores open trees until nothing is left to count. -/
theorem cascadeLoop_settled {rounds : Nat} {res : Except NetError Unit}
    (h : Tally hashOf src roots [] present b)
    (hrun : cascadeLoop hashOf rounds present b = some (res, b')) :
    res = .ok () ∧ Tally hashOf src roots [] [] b' ∧ Settled hashOf src roots b b' := by
  induction rounds generalizing present b with
  | zero =>
    cases present with
    | nil =>
      cases hrun
      exact ⟨rfl, h, .refl h.copies⟩
    | cons done present => cases hrun
  | succ rounds ih =>
    cases present with
    | nil =>
      cases hrun
      exact ⟨rfl, h, .refl h.copies⟩
    | cons done present =>
      have htake := h.take hkind
      unfold cascadeLoop at hrun
      cases hparents : b.waiters.lookup done with
      | none =>
        simp only [hparents] at hrun
        rw [OpenTrees.waitingFor, hparents] at htake
        have herase : b.waiters.erase done = b.waiters :=
          AList.ext (List.kerase_of_notMem_keys (AList.lookup_eq_none.mp hparents))
        rw [herase] at htake
        exact ih htake hrun
      | some parents =>
        simp only [hparents] at hrun
        rw [OpenTrees.waitingFor, hparents] at htake
        obtain ⟨present', b₁, hsettle, htally, hsettled⟩ :=
          settleParents_settled hkind hroots hsorted htake
        rw [Option.getD_some] at hsettle
        rw [hsettle] at hrun
        obtain ⟨hres, htally', hsettled'⟩ := ih htally hrun
        have hfirst : Settled hashOf src roots b b₁ :=
          ⟨hsettled.reaped, hsettled.stored, hsettled.opened, hsettled.closed⟩
        exact ⟨hres, htally', hfirst.trans hsettled'⟩

end

/-! ### The children of a reply -/

/-- What the entries so far added to the pull: a child that is lacked is counted once, and asked
for unless it was asked for. -/
structure Noted (m : Mirror) (hash : Hash) (before : Discovery) (entries : List TreeEntryMsg)
    (d : Discovery) : Prop where
  depSeen : ∀ h, h ∈ d.depSeen ↔ ∃ want, Listed entries want ∧ m.holds want = false ∧ want.hash = h
  pending : d.pending = d.depSeen.card
  waiters : ∀ h, (d.waiters.lookup h).getD [] =
    (before.waiters.lookup h).getD [] ++ if h ∈ d.depSeen then [hash] else []
  seen : ∀ h, h ∈ d.seen ↔ h ∈ before.seen ∨ h ∈ d.depSeen
  frontier : ∃ new, d.frontier = new ++ before.frontier ∧ (new.map Want.hash).Nodup ∧
    (∀ want ∈ new, Listed entries want ∧ m.holds want = false ∧ want.hash ∉ before.seen) ∧
    ∀ h ∈ d.depSeen, h ∉ before.seen → ∃ want ∈ new, want.hash = h
  unchanged : d.pending = 0 → d = before

theorem listed_append {entries : List TreeEntryMsg} {entry : TreeEntryMsg} {child : Want}
    (hchild : entry.want = .ok child) :
    Listed (entries ++ [entry]) want ↔ Listed entries want ∨ want = child := by
  simp only [Listed, List.mem_append, List.mem_singleton, or_and_right, exists_or, exists_eq_left,
    hchild, Except.ok.injEq]
  rw [eq_comm (a := want)]

section

variable {hash : Hash} {before d : Discovery} {entries : List TreeEntryMsg} {entry : TreeEntryMsg}
  {child : Want}

theorem Noted.skip (h : Noted m hash before entries d) (hchild : entry.want = .ok child)
    (hskip : m.holds child = true ∨ child.hash ∈ d.depSeen) :
    Noted m hash before (entries ++ [entry]) d := by
  refine ⟨fun h' => ?_, h.pending, h.waiters, h.seen, ?_, h.unchanged⟩
  · simp only [listed_append hchild, or_and_right, exists_or, exists_eq_left, ← h.depSeen h']
    refine ⟨.inl, fun hor => hor.elim id ?_⟩
    rintro ⟨hlacked, rfl⟩
    exact hskip.resolve_left (by simp [hlacked])
  · obtain ⟨new, hnew, hnodup, hlisted, hall⟩ := h.frontier
    refine ⟨new, hnew, hnodup, fun want hwant => ?_, hall⟩
    obtain ⟨hin, hrest⟩ := hlisted want hwant
    exact ⟨(listed_append hchild).mpr (.inl hin), hrest⟩

theorem Noted.note (h : Noted m hash before entries d) (hchild : entry.want = .ok child)
    (hlacked : m.holds child = false) (hfresh : child.hash ∉ d.depSeen) :
    Noted m hash before (entries ++ [entry]) (d.note hash child) where
  depSeen h' := by
    simp only [Discovery.note, Finset.mem_insert, listed_append hchild, or_and_right, exists_or,
      exists_eq_left, ← h.depSeen h', hlacked, true_and]
    rw [or_comm, eq_comm (a := h')]
  pending := by
    simp only [Discovery.note, Finset.card_insert_of_notMem hfresh, h.pending]
  waiters h' := by
    simp only [Discovery.note, lookup_insert_eq, Finset.mem_insert]
    rcases eq_or_ne h' child.hash with rfl | hne
    · have hwaiters := h.waiters child.hash
      rw [if_neg hfresh, List.append_nil] at hwaiters
      simp [hwaiters]
    · simp only [hne, if_false, false_or, h.waiters h']
  seen h' := by
    simp only [Discovery.note, Finset.mem_insert, h.seen h']
    tauto
  frontier := by
    obtain ⟨new, hnew, hnodup, hlisted, hall⟩ := h.frontier
    have hkept : ∀ want ∈ new, Listed (entries ++ [entry]) want ∧ m.holds want = false ∧
        want.hash ∉ before.seen := by
      intro want hwant
      obtain ⟨hin, hrest⟩ := hlisted want hwant
      exact ⟨(listed_append hchild).mpr (.inl hin), hrest⟩
    simp only [Discovery.note]
    split_ifs with hseen
    · refine ⟨new, hnew, hnodup, hkept, fun h' hmem hunseen => ?_⟩
      rcases Finset.mem_insert.mp hmem with rfl | hmem
      · exact absurd (((h.seen _).mp hseen).resolve_right hfresh) hunseen
      · exact hall h' hmem hunseen
    · refine ⟨child :: new, by rw [hnew]; rfl, ?_, ?_, fun h' hmem hunseen => ?_⟩
      · refine List.nodup_cons.mpr ⟨fun hin => ?_, hnodup⟩
        obtain ⟨want, hwant, hhash⟩ := List.mem_map.mp hin
        obtain ⟨hin, hlacks, -⟩ := hlisted want hwant
        exact hfresh ((h.depSeen _).mpr ⟨want, hin, hlacks, hhash⟩)
      · refine List.forall_mem_cons.mpr
          ⟨⟨(listed_append hchild).mpr (.inr rfl), hlacked, ?_⟩, hkept⟩
        exact fun hin => hseen ((h.seen _).mpr (.inl hin))
      · rcases Finset.mem_insert.mp hmem with rfl | hmem
        · exact ⟨child, List.mem_cons_self, rfl⟩
        · obtain ⟨want, hwant, hhash⟩ := hall h' hmem hunseen
          exact ⟨want, List.mem_cons_of_mem _ hwant, hhash⟩
  unchanged hzero := by
    simp only [Discovery.note] at hzero
    omega

theorem discover_noted {rest : List TreeEntryMsg} (h : Noted m hash before entries d)
    (hrest : ∀ entry ∈ rest, ∃ want, entry.want = .ok want) :
    ∃ d', discover m hash rest d = .ok d' ∧ Noted m hash before (entries ++ rest) d' := by
  induction rest generalizing entries d with
  | nil => exact ⟨d, rfl, by rwa [List.append_nil]⟩
  | cons entry rest ih =>
    obtain ⟨⟨child, hchild⟩, hrest⟩ := List.forall_mem_cons.mp hrest
    unfold discover
    simp only [hchild]
    rw [← List.singleton_append, ← List.append_assoc]
    split_ifs with hskip
    · exact ih (h.skip hchild hskip) hrest
    · rw [not_or, Bool.not_eq_true] at hskip
      exact ih (h.note hchild hskip.1 hskip.2) hrest

theorem Noted.start (m : Mirror) (hash : Hash) (before : Discovery) (hnone : before.pending = 0)
    (hempty : before.depSeen = ∅) : Noted m hash before [] before where
  depSeen h := by simp [hempty, Listed]
  pending := by rw [hnone, hempty, Finset.card_empty]
  waiters h := by simp [hempty]
  seen h := by simp [hempty]
  frontier := ⟨[], rfl, List.nodup_nil, by simp, by simp [hempty]⟩
  unchanged _ := rfl

/-- A tree waits for as many children as it is owed. -/
theorem Noted.pending_eq (hkind : OneKind src roots) (htree : Asked src roots (.tree hash))
    (hreply : src.requestTree hash = .ok t) (h : Noted m hash before t.entries d) :
    d.pending = (owed m [] t).card := by
  have himage : d.depSeen = (owed m [] t).image Want.hash := by
    ext h'
    simp only [h.depSeen, Finset.mem_image, mem_owed, List.not_mem_nil, or_false, and_assoc]
  rw [h.pending, himage]
  refine Finset.card_image_of_injOn fun x hx y hy hhash => ?_
  obtain ⟨ex, hex, hx⟩ := (mem_owed.mp hx).1
  obtain ⟨ey, hey, hy⟩ := (mem_owed.mp hy).1
  exact hkind x y (.child htree hreply hex hx) (.child htree hreply hey hy) hhash

end

/-! ### The loop -/

/-- **What is under way**: all that was asked for is in the queue, open or held. -/
structure Driving (src : Source) (roots : Want → Prop) (queue : List Want) (st : Drive) : Prop where
  queued : ∀ want ∈ queue, Asked src roots want ∧ st.receiver.mirror.holds want = false ∧
    want.hash ∈ st.seen ∧ want.hash ∉ st.opened
  nodup : (queue.map Want.hash).Nodup
  asked : ∀ want, Asked src roots want → want.hash ∈ st.seen →
    st.receiver.mirror.holds want = true ∨ want ∈ queue ∨ want.hash ∈ st.opened
  owedSeen : ∀ hash ot, st.opened.lookup hash = some ot → ∀ want, Listed ot.data.entries want →
    st.receiver.mirror.holds want = false → want.hash ∈ st.seen
  openedSeen : ∀ hash ∈ st.opened, hash ∈ st.seen
  rootsSeen : ∀ want, roots want → st.receiver.mirror.holds want = true ∨ want.hash ∈ st.seen

section

variable {queue : List Want} {st st' : Drive} {r' : Receiver}

theorem Driving.settled (hkind : OneKind src roots) (h : Driving src roots queue st)
    (hasked : ∀ hash ∈ st.opened, Asked src roots (.tree hash))
    (hsettled : Settled hashOf src roots st.toOpenTrees st'.toOpenTrees)
    (hseen : st'.seen = st.seen) : Driving src roots queue st' := by
  have hkept {x : Want} (hx : st.receiver.mirror.holds x = true) :
      st'.receiver.mirror.holds x = true := hsettled.reaped.holds hx
  have hlacked {x : Want} (hx : st'.receiver.mirror.holds x = false) :
      st.receiver.mirror.holds x = false := by
    rw [← Bool.not_eq_true] at hx ⊢
    exact fun hheld => hx (hkept hheld)
  have hopened {hash : Hash} (hmem : hash ∈ st'.opened) : hash ∈ st.opened := by
    obtain ⟨ot', hot'⟩ := mem_iff_lookup.mp hmem
    obtain ⟨ot, hot, -⟩ := hsettled.opened hash ot' hot'
    exact mem_iff_lookup.mpr ⟨ot, hot⟩
  refine ⟨fun want hwant => ?_, h.nodup, fun want hwant hin => ?_, fun hash ot' hot' want hlisted
    hlacks => ?_, fun hash hmem => hseen ▸ h.openedSeen hash (hopened hmem), fun want hroot => ?_⟩
  · obtain ⟨hask, hlacks, hin, hnot⟩ := h.queued want hwant
    refine ⟨hask, ?_, hseen ▸ hin, fun hmem => hnot (hopened hmem)⟩
    rw [← Bool.not_eq_true]
    intro hheld
    rcases hsettled.stored want hheld with hbefore | ⟨hash, hmem, rfl⟩
    · rw [hlacks] at hbefore
      cases hbefore
    · exact hnot hmem
  · rw [hseen] at hin
    rcases h.asked want hwant hin with hheld | hqueued | hopen
    · exact .inl (hkept hheld)
    · exact .inr (.inl hqueued)
    · rcases hsettled.closed want.hash hopen with hstill | hheld
      · exact .inr (.inr hstill)
      · rw [← hkind want (.tree want.hash) hwant (hasked _ hopen) rfl] at hheld
        exact .inl hheld
  · obtain ⟨ot, hot, hdata⟩ := hsettled.opened hash ot' hot'
    rw [hseen]
    exact h.owedSeen hash ot hot want (hdata ▸ hlisted) (hlacked hlacks)
  · rw [hseen]
    exact (h.rootsSeen want hroot).imp_left hkept

theorem Driving.stored (h : Driving src roots (want :: queue) st)
    (hadds : Adds hashOf src want st.receiver r') :
    Driving src roots queue { st with receiver := r' } := by
  obtain ⟨hfresh, hnodup⟩ := List.nodup_cons.mp h.nodup
  refine ⟨fun x hx => ?_, hnodup, fun x hx hin => ?_, fun hash ot hot x hlisted hlacks => ?_,
    h.openedSeen, fun x hroot => ?_⟩
  · obtain ⟨hask, hlacks, hin, hnot⟩ := h.queued x (List.mem_cons_of_mem _ hx)
    refine ⟨hask, hadds.lacks hlacks ?_, hin, hnot⟩
    rintro rfl
    exact hfresh (List.mem_map_of_mem hx)
  · rcases h.asked x hx hin with hheld | hqueued | hopen
    · exact .inl ((hadds.holds x).mpr (.inl hheld))
    · rcases List.mem_cons.mp hqueued with rfl | hqueued
      · exact .inl ((hadds.holds x).mpr (.inr rfl))
      · exact .inr (.inl hqueued)
    · exact .inr (.inr hopen)
  · refine h.owedSeen hash ot hot x hlisted ?_
    rw [← Bool.not_eq_true] at hlacks ⊢
    exact fun hheld => hlacks ((hadds.holds x).mpr (.inl hheld))
  · exact (h.rootsSeen x hroot).imp_left fun hheld => (hadds.holds x).mpr (.inl hheld)

/-- What is stored is present, and not yet counted. -/
theorem Tally.stored (hkind : OneKind src roots) (h : Tally hashOf src roots [] [] b)
    (hasked : Asked src roots want) (hlacked : b.receiver.mirror.holds want = false)
    (hclosed : want.hash ∉ b.opened) (hadds : Adds hashOf src want b.receiver r') :
    Tally hashOf src roots [] [want.hash] { b with receiver := r' } := by
  have howed {hash : Hash} {ot : OpenTree} (hot : b.opened.lookup hash = some ot) :
      owed r'.mirror [want.hash] ot.data = owed b.receiver.mirror [] ot.data :=
    owed_adds hkind (h.opened hash ot hot).asked (h.opened hash ot hot).reply hasked hlacked hadds
  refine ⟨hadds.grew.copies, List.forall_mem_singleton.mpr ?_, List.nodup_singleton _,
    List.nodup_nil, by simp, fun hash ot hot => ?_, h.distinct, fun hash parent hmem => ?_⟩
  · exact ⟨want, hasked, rfl, (hadds.holds want).mpr (.inr rfl)⟩
  · have hawaits := h.opened hash ot hot
    refine ⟨hawaits.asked, hawaits.reply, hadds.lacks hawaits.lacked ?_, ?_, hawaits.positive,
      fun child hchild => ?_⟩
    · rintro rfl
      exact hclosed (mem_iff_lookup.mpr ⟨ot, hot⟩)
    · exact hawaits.pending.trans (congrArg (fun s => Finset.card s + _) (howed hot).symm)
    · refine hawaits.noted child ?_
      rw [← howed hot]
      exact hchild
  · obtain ⟨ot, child, hot, hchild, hhash⟩ := h.waiting hash parent hmem
    refine ⟨ot, child, hot, ?_, hhash⟩
    change child ∈ owed r'.mirror [want.hash] ot.data
    rw [howed hot]
    exact hchild

variable (hkind : OneKind src roots) (hroots : ∀ x, roots x → Good hashOf src .empty x)
  (hsorted : ∀ hash t row, src.requestTree hash = .ok t → verifyTree hashOf t = .ok row →
    SortedByName row.2)

include hkind

/-- A tree that is opened waits for the children its entries named. -/
theorem Tally.opens {hash : Hash} {d : Discovery} (h : Tally hashOf src roots [] [] st.toOpenTrees)
    (hasked : Asked src roots (.tree hash))
    (hlacked : st.receiver.mirror.holds (.tree hash) = false)
    (hclosed : hash ∉ st.opened) (hreply : src.requestTree hash = .ok t)
    (hnoted : Noted st.receiver.mirror hash ⟨0, ∅, st.waiters, st.frontier, st.seen⟩ t.entries d)
    (hpending : d.pending ≠ 0) :
    Tally hashOf src roots [] [] { st.toOpenTrees with
      opened := st.opened.insert hash ⟨t, d.pending⟩, waiters := d.waiters } := by
  have hlookup (hash' : Hash) := lookup_insert_eq st.opened hash hash' ⟨t, d.pending⟩
  have hwaiting (h' : Hash) : (d.waiters.lookup h').getD [] =
      st.waitingFor h' ++ if h' ∈ d.depSeen then [hash] else [] := hnoted.waiters h'
  have hne {parent h' : Hash} (hmem : parent ∈ st.waitingFor h') : parent ≠ hash := by
    rintro rfl
    obtain ⟨ot, -, hot, -⟩ := h.waiting h' parent hmem
    exact hclosed (mem_iff_lookup.mpr ⟨ot, hot⟩)
  refine ⟨h.copies, by simp, List.nodup_nil, List.nodup_nil, by simp, fun hash' ot hot => ?_,
    fun h' => ?_, fun h' parent hmem => ?_⟩
  · change (st.opened.insert hash _).lookup hash' = some ot at hot
    rw [hlookup] at hot
    split_ifs at hot with heq
    · subst heq
      obtain rfl := Option.some.inj hot
      refine ⟨hasked, hreply, hlacked, hnoted.pending_eq hkind hasked hreply,
        Nat.pos_of_ne_zero hpending, fun child hchild => ?_⟩
      obtain ⟨hlisted, hlacks⟩ := mem_owed.mp hchild
      have hdep : child.hash ∈ d.depSeen := (hnoted.depSeen _).mpr
        ⟨child, hlisted, hlacks.resolve_right List.not_mem_nil, rfl⟩
      change hash' ∈ (d.waiters.lookup child.hash).getD []
      rw [hwaiting, if_pos hdep]
      exact List.mem_append_right _ (List.mem_singleton_self _)
    · have hawaits := h.opened hash' ot hot
      refine ⟨hawaits.asked, hawaits.reply, hawaits.lacked, hawaits.pending, hawaits.positive,
        fun child hchild => ?_⟩
      change hash' ∈ (d.waiters.lookup child.hash).getD []
      rw [hwaiting]
      exact List.mem_append_left _ (hawaits.noted child hchild)
  · change ((d.waiters.lookup h').getD []).Nodup
    rw [hwaiting]
    refine List.nodup_append.mpr ⟨h.distinct h', by split_ifs <;> simp, fun parent hmem y hy => ?_⟩
    split_ifs at hy
    · exact (List.mem_singleton.mp hy) ▸ hne hmem
    · cases hy
  · change parent ∈ (d.waiters.lookup h').getD [] at hmem
    rw [hwaiting, List.mem_append] at hmem
    rcases hmem with hmem | hmem
    · obtain ⟨ot, child, hot, hchild, hhash⟩ := h.waiting h' parent hmem
      exact ⟨ot, child, (hlookup parent).trans ((if_neg (hne hmem)).trans hot), hchild, hhash⟩
    · split_ifs at hmem with hdep
      · obtain rfl := List.mem_singleton.mp hmem
        obtain ⟨child, hlisted, hlacks, hhash⟩ := (hnoted.depSeen h').mp hdep
        exact ⟨_, child, (hlookup parent).trans (if_pos rfl), mem_owed.mpr ⟨hlisted, .inl hlacks⟩,
          hhash⟩
      · cases hmem

theorem Driving.opens {hash : Hash} {d : Discovery}
    (h : Driving src roots (.tree hash :: (st.outstanding ++ st.frontier)) st)
    (hreply : src.requestTree hash = .ok t)
    (hnoted : Noted st.receiver.mirror hash ⟨0, ∅, st.waiters, st.frontier, st.seen⟩ t.entries d) :
    Driving src roots (st.outstanding ++ d.frontier) { st with
      opened := st.opened.insert hash ⟨t, d.pending⟩
      waiters := d.waiters
      frontier := d.frontier
      seen := d.seen } := by
  obtain ⟨hasked, -, hseen, -⟩ := h.queued (.tree hash) List.mem_cons_self
  obtain ⟨hfresh, hnodup⟩ := List.nodup_cons.mp h.nodup
  obtain ⟨new, hnew, hnewNodup, hlisted, hall⟩ := hnoted.frontier
  have hlookup (hash' : Hash) := lookup_insert_eq st.opened hash hash' ⟨t, d.pending⟩
  have hgrown {h' : Hash} (hmem : h' ∈ st.seen) : h' ∈ d.seen := (hnoted.seen h').mpr (.inl hmem)
  have hdep {x : Want} (hin : Listed t.entries x) (hlacks : st.receiver.mirror.holds x = false) :
      x.hash ∈ d.depSeen := (hnoted.depSeen _).mpr ⟨x, hin, hlacks, rfl⟩
  have hchild {x : Want} (hin : Listed t.entries x) : Asked src roots x := by
    obtain ⟨entry, hentry, hwant⟩ := hin
    exact .child hasked hreply hentry hwant
  have hmem {x : Want} : x ∈ st.outstanding ++ d.frontier ↔
      x ∈ new ∨ x ∈ st.outstanding ++ st.frontier := by
    simp only [hnew, List.mem_append]
    tauto
  refine ⟨fun x hx => ?_, ?_, fun x hx hin => ?_, fun hash' ot hot x hin hlacks => ?_,
    fun hash' hin => ?_, fun x hroot => (h.rootsSeen x hroot).imp_right hgrown⟩
  · rcases hmem.mp hx with hx | hx
    · obtain ⟨hin, hlacks, hunseen⟩ := hlisted x hx
      refine ⟨hchild hin, hlacks, (hnoted.seen _).mpr (.inr (hdep hin hlacks)), fun hopen => ?_⟩
      rcases (AList.mem_insert _).mp hopen with heq | hopen
      · exact hunseen (heq ▸ hseen)
      · exact hunseen (h.openedSeen _ hopen)
    · obtain ⟨hask, hlacks, hin, hnot⟩ := h.queued x (List.mem_cons_of_mem _ hx)
      refine ⟨hask, hlacks, hgrown hin, fun hopen => ?_⟩
      rcases (AList.mem_insert _).mp hopen with heq | hopen
      · exact hfresh (List.mem_map.mpr ⟨x, hx, heq⟩)
      · exact hnot hopen
  · have hperm : (st.outstanding ++ d.frontier).Perm (new ++ (st.outstanding ++ st.frontier)) := by
      rw [hnew]
      exact List.perm_append_comm_assoc _ _ _
    refine (hperm.map Want.hash).nodup_iff.mpr ?_
    rw [List.map_append]
    refine List.nodup_append.mpr ⟨hnewNodup, hnodup, fun a ha b hb heq => ?_⟩
    obtain ⟨x, hx, rfl⟩ := List.mem_map.mp ha
    obtain ⟨y, hy, rfl⟩ := List.mem_map.mp hb
    exact (hlisted x hx).2.2 (heq ▸ (h.queued y (List.mem_cons_of_mem _ hy)).2.2.1)
  · by_cases hbefore : x.hash ∈ st.seen
    · rcases h.asked x hx hbefore with hheld | hqueued | hopen
      · exact .inl hheld
      · rcases List.mem_cons.mp hqueued with rfl | hqueued
        · exact .inr (.inr ((AList.mem_insert _).mpr (.inl rfl)))
        · exact .inr (.inl (hmem.mpr (.inr hqueued)))
      · exact .inr (.inr ((AList.mem_insert _).mpr (.inr hopen)))
    · obtain ⟨y, hy, hhash⟩ := hall x.hash (((hnoted.seen _).mp hin).resolve_left hbefore) hbefore
      obtain rfl := hkind y x (hchild (hlisted y hy).1) hx hhash
      exact .inr (.inl (hmem.mpr (.inl hy)))
  · change (st.opened.insert hash _).lookup hash' = some ot at hot
    rw [hlookup] at hot
    split_ifs at hot with heq
    · obtain rfl := Option.some.inj hot
      exact (hnoted.seen _).mpr (.inr (hdep hin hlacks))
    · exact hgrown (h.owedSeen hash' ot hot x hin hlacks)
  · rcases (AList.mem_insert _).mp hin with rfl | hin
    · exact hgrown hseen
    · exact hgrown (h.openedSeen hash' hin)

include hroots hsorted

/-- What came is stored, and then the open trees it was the last child of. -/
theorem cascade_driven (h : Driving src roots (want :: (st.outstanding ++ st.frontier)) st)
    (htally : Tally hashOf src roots [] [] st.toOpenTrees)
    (hadds : Adds hashOf src want st.receiver r') :
    ∃ st', cascade hashOf want.hash { st with receiver := r' } = some (.ok (), st') ∧
      Driving src roots (st'.outstanding ++ st'.frontier) st' ∧
      Tally hashOf src roots [] [] st'.toOpenTrees ∧
      Reaped hashOf src roots st.receiver st'.receiver := by
  obtain ⟨hasked, hlacked, -, hclosed⟩ := h.queued want List.mem_cons_self
  have hstored := htally.stored hkind hasked hlacked hclosed hadds
  obtain ⟨res, b, hloop, hcascade⟩ := cascade_cases hashOf want.hash { st with receiver := r' }
  obtain ⟨rfl, htally', hsettled⟩ := cascadeLoop_settled hkind hroots hsorted hstored hloop
  refine ⟨_, hcascade, ?_, htally', (Reaped.ofAdds hadds hasked).trans hsettled.reaped⟩
  refine (h.stored hadds).settled hkind (fun hash hmem => ?_) hsettled rfl
  obtain ⟨ot, hot⟩ := mem_iff_lookup.mp hmem
  exact (htally.opened hash ot hot).asked

/-- **One reply** of an honest owner is taken, whatever is under way. -/
theorem receive_driven (h : Driving src roots (want :: (st.outstanding ++ st.frontier)) st)
    (htally : Tally hashOf src roots [] [] st.toOpenTrees) :
    ∃ st', receive hashOf src want st = some (.ok (), st') ∧
      Driving src roots (st'.outstanding ++ st'.frontier) st' ∧
      Tally hashOf src roots [] [] st'.toOpenTrees ∧
      Reaped hashOf src roots st.receiver st'.receiver := by
  obtain ⟨hasked, hlacked, -, hclosed⟩ := h.queued want List.mem_cons_self
  cases want with
  | object hash =>
    rcases good_object_iff.mp (hasked.good hroots) with hempty | ⟨bytes, hreply, hdigest⟩
    · cases hempty
    obtain ⟨r', hkeep, hadds⟩ := keepObject_adds htally.copies hreply hdigest hlacked
    obtain ⟨st', hcascade, hrest⟩ := cascade_driven hkind hroots hsorted h htally hadds
    refine ⟨st', ?_, hrest⟩
    have hframe : ∃ reply, src.getObject hash = .objectData reply ∧
        reply.answers hash = .ok bytes := by
      unfold Source.requestObject at hreply
      split at hreply
      · exact ⟨_, ‹_›, hreply⟩
      · cases hreply
    obtain ⟨reply, hget, hanswers⟩ := hframe
    simp only [receive, hget, receiveObject, hanswers]
    unfold keepObject at hkeep
    rcases hput : st.receiver.mirror.storeObject hashOf hash bytes with ⟨e | u, mirror⟩
    · rw [hput] at hkeep
      cases hkeep
    · rw [hput] at hkeep
      cases hkeep
      exact hcascade
  | tree hash =>
    rcases good_tree_iff.mp (hasked.good hroots) with hempty | ⟨t, row, hreply, hverify, hentries⟩
    · cases hempty
    have hwants : ∀ entry ∈ t.entries, ∃ child, entry.want = .ok child := by
      intro entry hentry
      obtain ⟨child, hchild, -⟩ := hentries entry hentry
      exact ⟨child, hchild⟩
    obtain ⟨d, hdiscover, hnoted⟩ := discover_noted
      (Noted.start st.receiver.mirror hash ⟨0, ∅, st.waiters, st.frontier, st.seen⟩ rfl rfl) hwants
    rw [List.nil_append] at hnoted
    have hframe : ∃ reply, src.getTree hash = .treeData reply ∧ reply.answers hash = .ok t := by
      unfold Source.requestTree at hreply
      split at hreply
      · exact ⟨_, ‹_›, hreply⟩
      · cases hreply
    obtain ⟨reply, hget, hanswers⟩ := hframe
    simp only [receive, hget, receiveTree, hanswers, hdiscover]
    split_ifs with hpending
    · have hnone := hnoted.pending_eq hkind hasked hreply
      rw [hpending, eq_comm, Finset.card_eq_zero] at hnone
      obtain ⟨r', hstore, hadds⟩ := storeFetched_adds htally.copies hreply hverify
        (hsorted _ _ _ hreply hverify) (held_of_owed hnone) hlacked
      rw [hstore, hnoted.unchanged hpending]
      exact cascade_driven hkind hroots hsorted h htally hadds
    · exact ⟨_, rfl, h.opens hkind hreply hnoted,
        htally.opens hkind hasked hlacked hclosed hreply hnoted hpending, .refl htally.copies⟩

/-- **The loop** takes every reply, until nothing is in the queue. -/
theorem driveLoop_driven {rounds : Nat} {res : Except NetError Unit}
    (h : Driving src roots (st.outstanding ++ st.frontier) st)
    (htally : Tally hashOf src roots [] [] st.toOpenTrees)
    (hrun : driveLoop hashOf src rounds st = some (res, st')) :
    res = .ok () ∧ Driving src roots [] st' ∧ Tally hashOf src roots [] [] st'.toOpenTrees ∧
      Reaped hashOf src roots st.receiver st'.receiver := by
  have hqueue (st : Drive) : (dispatch st).outstanding ++ (dispatch st).frontier =
      st.outstanding ++ st.frontier := by
    simp only [dispatch, List.append_assoc, List.take_append_drop]
  have hempty {st : Drive} (hnone : (dispatch st).outstanding = []) :
      st.outstanding ++ st.frontier = [] := by
    obtain ⟨hout, htake⟩ := List.append_eq_nil_iff.mp hnone
    rw [hout, List.length_nil, pipelineWindow] at htake
    rcases List.take_eq_nil_iff.mp htake with hzero | hfrontier
    · cases hzero
    · rw [hout, hfrontier]
      rfl
  have hdispatched {st : Drive} {queue : List Want} (h : Driving src roots queue st) :
      Driving src roots queue (dispatch st) :=
    ⟨h.queued, h.nodup, h.asked, h.owedSeen, h.openedSeen, h.rootsSeen⟩
  induction rounds generalizing st with
  | zero =>
    unfold driveLoop at hrun
    cases hout : (dispatch st).outstanding with
    | nil =>
      rw [hout] at hrun
      cases hrun
      rw [hempty hout] at h
      exact ⟨rfl, hdispatched h, htally, .refl htally.copies⟩
    | cons want rest =>
      rw [hout] at hrun
      cases hrun
  | succ rounds ih =>
    unfold driveLoop at hrun
    cases hout : (dispatch st).outstanding with
    | nil =>
      rw [hout] at hrun
      cases hrun
      rw [hempty hout] at h
      exact ⟨rfl, hdispatched h, htally, .refl htally.copies⟩
    | cons want rest =>
      simp only [hout] at hrun
      have htake : ∃ next : Drive, next = { dispatch st with outstanding := rest } ∧
          Driving src roots (want :: (next.outstanding ++ next.frontier)) next ∧
          Tally hashOf src roots [] [] next.toOpenTrees ∧ next.receiver = st.receiver := by
        have h' := hdispatched h
        rw [← hqueue st, hout] at h'
        exact ⟨_, rfl, ⟨h'.queued, h'.nodup, h'.asked, h'.owedSeen, h'.openedSeen, h'.rootsSeen⟩,
          htally, rfl⟩
      obtain ⟨next, hnext, hdriving, htally, hreceiver⟩ := htake
      obtain ⟨st₁, hreceive, hdriving', htally', hreaped⟩ :=
        receive_driven hkind hroots hsorted hdriving htally
      rw [← hnext, hreceive] at hrun
      obtain ⟨hres, hdriving', htally'', hreaped'⟩ := ih hdriving' htally' hrun
      exact ⟨hres, hdriving', htally'', (hreceiver ▸ hreaped).trans hreaped'⟩

omit hsorted

/-- **Nothing is left open**: an open tree would wait for another, and that for another. -/
theorem Driving.none_open (h : Driving src roots [] st)
    (htally : Tally hashOf src roots [] [] st.toOpenTrees) : st.opened.keys = [] := by
  have hnot {x : Want} (hgood : Good hashOf src .empty x) :
      ∀ hash, x = .tree hash → hash ∉ st.opened := by
    induction hgood with
    | heldTree hheld => cases hheld
    | heldObject hheld => cases hheld
    | object => simp
    | @tree hash t _ hreply _ _ _ ih =>
      rintro _ ⟨⟩ hmem
      obtain ⟨ot, hot⟩ := mem_iff_lookup.mp hmem
      have hawaits := htally.opened hash ot hot
      obtain rfl : ot.data = t := Except.ok.inj (hawaits.reply.symm.trans hreply)
      have hpending := hawaits.pending
      have hpositive := hawaits.positive
      rw [hpending, if_neg List.not_mem_nil, Nat.add_zero, Finset.card_pos] at hpositive
      obtain ⟨child, hchild⟩ := hpositive
      obtain ⟨hlisted, hlacks⟩ := mem_owed.mp hchild
      replace hlacks := hlacks.resolve_right List.not_mem_nil
      have hasked := hawaits.child hlisted
      have hseen := h.owedSeen hash ot hot child hlisted hlacks
      obtain ⟨entry, hentry, hwant⟩ := hlisted
      rcases h.asked child hasked hseen with hheld | hqueued | hopen
      · rw [hlacks] at hheld
        cases hheld
      · cases hqueued
      · obtain ⟨ot', hot'⟩ := mem_iff_lookup.mp hopen
        have hother := (htally.opened child.hash ot' hot').asked
        exact ih entry hentry child hwant child.hash (hkind _ _ hasked hother rfl) hopen
  refine List.eq_nil_iff_forall_not_mem.mpr fun hash hmem => ?_
  obtain ⟨ot, hot⟩ := mem_iff_lookup.mp (AList.mem_keys.mpr hmem)
  exact hnot ((htally.opened hash ot hot).asked.good hroots) hash rfl (AList.mem_keys.mpr hmem)

end

/-! ### The seed -/

theorem seed_asks {commits : List CommitRow}
    (hlengths : ∀ c ∈ commits, toHash32 c.rootTree.bytes = .ok c.rootTree)
    (frontier : List Want) (seen : Finset Hash) :
    ∃ new seen', seed m (commits.map commitRowToData) (frontier, seen) =
        .ok (frontier ++ new, seen') ∧
      (new.map Want.hash).Nodup ∧
      (∀ want ∈ new, RootsOf commits want ∧ m.holds want = false ∧ want.hash ∉ seen) ∧
      (∀ hash, hash ∈ seen' ↔ hash ∈ seen ∨ ∃ c ∈ commits, c.rootTree = hash) ∧
      ∀ c ∈ commits, c.rootTree ∉ seen →
        m.holds (.tree c.rootTree) = true ∨ .tree c.rootTree ∈ new := by
  induction commits generalizing frontier seen with
  | nil => exact ⟨[], seen, by simp [seed], List.nodup_nil, by simp, by simp, by simp⟩
  | cons c commits ih =>
    obtain ⟨hlength, hlengths⟩ := List.forall_mem_cons.mp hlengths
    have hroot : toHash32 (commitRowToData c).rootTree = .ok c.rootTree := hlength
    simp only [List.map_cons, seed, hroot]
    have hweaken {want : Want} (h : RootsOf commits want) : RootsOf (c :: commits) want := by
      obtain ⟨d, hd, rfl⟩ := h
      exact ⟨d, List.mem_cons_of_mem c hd, rfl⟩
    split_ifs with hfresh
    · obtain ⟨new, seen', hseed, hnodup, hnew, hseen', hall⟩ :=
        ih hlengths (frontier ++ [.tree c.rootTree]) (insert c.rootTree seen)
      refine ⟨.tree c.rootTree :: new, seen', ?_, ?_, ?_, fun hash => ?_, ?_⟩
      · rw [hseed, List.append_assoc]
        rfl
      · refine List.nodup_cons.mpr ⟨fun hmem => ?_, hnodup⟩
        obtain ⟨want, hwant, hhash⟩ := List.mem_map.mp hmem
        exact (hnew want hwant).2.2 (Finset.mem_insert.mpr (.inl hhash))
      · refine List.forall_mem_cons.mpr
          ⟨⟨⟨c, List.mem_cons_self, rfl⟩, hfresh.2, hfresh.1⟩, fun want hwant => ?_⟩
        obtain ⟨hin, hlacks, hunseen⟩ := hnew want hwant
        exact ⟨hweaken hin, hlacks, fun hmem => hunseen (Finset.mem_insert_of_mem hmem)⟩
      · simp only [hseen', Finset.mem_insert, List.exists_mem_cons_iff, eq_comm (a := hash)]
        tauto
      · refine List.forall_mem_cons.mpr ⟨fun _ => .inr List.mem_cons_self, fun d hd hunseen => ?_⟩
        by_cases heq : d.rootTree = c.rootTree
        · exact .inr (heq ▸ List.mem_cons_self)
        · refine (hall d hd fun hmem => ?_).imp_right (List.mem_cons_of_mem _)
          exact (Finset.mem_insert.mp hmem).elim heq hunseen
    · obtain ⟨new, seen', hseed, hnodup, hnew, hseen', hall⟩ :=
        ih hlengths frontier (insert c.rootTree seen)
      rw [not_and, Bool.not_eq_false] at hfresh
      refine ⟨new, seen', hseed, hnodup, fun want hwant => ?_, fun hash => ?_, ?_⟩
      · obtain ⟨hin, hlacks, hunseen⟩ := hnew want hwant
        exact ⟨hweaken hin, hlacks, fun hmem => hunseen (Finset.mem_insert_of_mem hmem)⟩
      · simp only [hseen', Finset.mem_insert, List.exists_mem_cons_iff, eq_comm (a := hash)]
        tauto
      · refine List.forall_mem_cons.mpr
          ⟨fun hunseen => .inl (hfresh hunseen), fun d hd hunseen => ?_⟩
        by_cases heq : d.rootTree = c.rootTree
        · rw [heq] at hunseen ⊢
          exact .inl (hfresh hunseen)
        · exact hall d hd fun hmem => (Finset.mem_insert.mp hmem).elim heq hunseen

/-! ### The two pulls -/

section

variable (prims : NetPrimitives) (ownerPubkey : Bytes)

/-- `pull_replication_pipelined`, over a session that is not cut: the same negotiation, and then the
full-duplex backfill. -/
def pullPipelined (src : Owner) (rounds : Nat) (m : Mirror) :
    Option (Except NetError PullSummary × Mirror) :=
  let out := negotiatePull prims ownerPubkey src.uncut ⟨⟨m, {}⟩, 0⟩
  match out.1 with
  | .error e => some (.error e, out.2.mirror)
  | .ok .empty => some (.ok {}, out.2.mirror)
  | .ok .upToDate => some (.ok { upToDate := true }, out.2.mirror)
  | .ok (.backfill missing announcedTip _) =>
    match driveBackfill prims.hashOf src.toSource rounds missing announcedTip out.2.mirror with
    | none => none
    | some (.error e, r) => some (.error e, r.mirror)
    | some (.ok (), r) => some (.ok r.summary, r.mirror)

end

section

variable {prims : NetPrimitives} {ownerPubkey : Bytes} {src : Owner}
  {commits front loose base : List CommitRow} {r : Receiver}

/-- A fetch of the commits over a session that is not cut is the fetch without sessions. -/
theorem fetchCommits_uncut {depth : Nat} {todo : List CommitData} {o : Outcome}
    (h : applyCommits hashOf src.toSource depth todo r = some o) (sent : Nat) :
    ∃ sent', fetchCommits hashOf src.uncut depth todo ⟨r, sent⟩ = (o.1, ⟨o.2, sent'⟩) := by
  induction todo generalizing r sent with
  | nil =>
    cases h
    exact ⟨sent, rfl⟩
  | cons c todo ih =>
    unfold applyCommits at h
    unfold fetchCommits
    cases hroot : toHash32 c.rootTree with
    | error e =>
      rw [hroot] at h
      cases h
      exact ⟨sent, rfl⟩
    | ok root =>
      rw [Fallible.bind_ok (Fallible.ofExcept_apply _ _)]
      simp only [hroot] at h
      rcases andThen_eq_some.mp h with ⟨e, hfail, herr⟩ | ⟨mid, hok, hrest⟩
      · obtain ⟨sent', hfetch⟩ := fetchTree_uncut hfail sent
        rw [herr]
        exact ⟨sent', Fallible.bind_error hfetch⟩
      · obtain ⟨sent', hfetch⟩ := fetchTree_uncut hok sent
        rw [Fallible.bind_ok hfetch]
        have hrow : onSink (storeCommitRow c) ⟨mid, sent'⟩ =
            ((storeCommitRow c mid).1, ⟨(storeCommitRow c mid).2, sent'⟩) := onSink_apply _ _ _
        rcases andThen_eq_some.mp hrest with ⟨e, hfail, herr⟩ | ⟨stored, hok, hlater⟩
        · rw [Option.some.inj hfail] at hrow
          rw [herr]
          exact ⟨sent', Fallible.bind_error hrow⟩
        · rw [Option.some.inj hok] at hrow
          obtain ⟨sent'', hlater⟩ := ih hlater sent'
          exact ⟨sent'', (Fallible.bind_ok hrow).trans hlater⟩

/-- The trees of an honest owner lead back to none. -/
theorem steady_of_good {todo : List CommitRow} (rows : Mirror)
    (hserved : ∀ c ∈ todo, toHash32 c.rootTree.bytes = .ok c.rootTree ∧
      Good hashOf src.toSource .empty (.tree c.rootTree)) :
    Steady hashOf src.toSource m rows (todo.map commitRowToData) := by
  induction todo generalizing rows with
  | nil => trivial
  | cons c todo ih =>
    obtain ⟨⟨hlength, hgood⟩, hserved⟩ := List.forall_mem_cons.mp hserved
    intro root hroot
    obtain rfl := Except.ok.inj (hlength.symm.trans hroot)
    exact ⟨not_returns_of_good (hgood.of_empty m) _ rfl, fun _ rows' _ => ih rows' hserved⟩

/-- With their trees held, the commits are stored one after another. -/
theorem storeCommitRows_ok (hhonest : Honest prims ownerPubkey src commits)
    {todo : List CommitRow} (h : Copied prims src commits loose base r.mirror)
    (htodo : todo.reverse ++ (loose ++ base) <:+ commits)
    (hheld : ∀ c ∈ todo, r.mirror.holds (.tree c.rootTree) = true) :
    ∃ r', storeCommitRows (todo.map commitRowToData) r = some (.ok (), r') := by
  induction todo generalizing loose r with
  | nil => exact ⟨r, rfl⟩
  | cons c todo ih =>
    rw [List.reverse_cons, List.append_assoc, List.singleton_append] at htodo
    have hc : c :: (loose ++ base) <:+ commits := (List.suffix_append _ _).trans htodo
    obtain ⟨hfirst, hheld⟩ := List.forall_mem_cons.mp hheld
    obtain ⟨r', hstore, hcopied⟩ := storeCommitRow_spec hhonest h hc hfirst
    obtain ⟨htrees, -, -, -⟩ := storeCommitRow_frame hstore
    have hkept : ∀ d ∈ todo, r'.mirror.holds (.tree d.rootTree) = true := by
      intro d hd
      have hbefore := hheld d hd
      simp only [Mirror.holds, Mirror.hasTree, Db.treeExists] at hbefore ⊢
      rwa [htrees]
    obtain ⟨r'', hrest⟩ := ih hcopied htodo hkept
    exact ⟨r'', andThen_eq_some.mpr (.inr ⟨r', congrArg some hstore, hrest⟩)⟩

/-- **The full-duplex backfill** gathers what the missing commits lead to, and then stores the
commits. -/
theorem driveBackfill_gathered (hhonest : Honest prims ownerPubkey src commits)
    (hkind : OneKind src.toSource (RootsOf front)) (h : Copied prims src commits [] base m)
    (hchain : front ++ base = commits) {announcedTip : Hash} {rounds : Nat} {o : Outcome}
    (hrun : driveBackfill prims.hashOf src.toSource rounds (front.map commitRowToData)
      announcedTip m = some o) :
    ∃ fetched stored, o = finish announcedTip stored ∧
      Reaped prims.hashOf src.toSource (RootsOf front) ⟨m, {}⟩ fetched ∧
      (∀ want, RootsOf front want → fetched.mirror.holds want = true) ∧
      storeCommitRows (front.reverse.map commitRowToData) fetched = some (.ok (), stored) := by
  have hserved : ∀ c ∈ front, Served prims ownerPubkey src c := fun c hc =>
    hhonest.served c (hchain ▸ List.mem_append_left _ hc)
  have hroots : ∀ x, RootsOf front x → Good prims.hashOf src.toSource .empty x := by
    rintro x ⟨c, hc, rfl⟩
    exact (hserved c hc).tree
  obtain ⟨frontier, seen, hseed, hnodup, hasked, hseen, hall⟩ :=
    seed_asks (m := m) (fun c hc => (hserved c hc).lengths.2.2) [] ∅
  rw [List.nil_append] at hseed
  have hstart : ∀ x, Asked src.toSource (RootsOf front) x → x.hash ∈ seen →
      m.holds x = true ∨ x ∈ frontier := by
    intro x hx hin
    obtain ⟨c, hc, hhash⟩ := ((hseen x.hash).mp hin).resolve_left (Finset.notMem_empty _)
    obtain rfl := hkind x (.tree c.rootTree) hx (.root ⟨c, hc, rfl⟩) hhash.symm
    exact hall c hc (Finset.notMem_empty _)
  have hdriving : Driving src.toSource (RootsOf front) ([] ++ frontier)
      ⟨⟨⟨m, {}⟩, ∅, ∅⟩, frontier, [], seen⟩ := by
    refine ⟨fun x hx => ?_, hnodup, fun x hx hin => (hstart x hx hin).imp_right .inl, ?_, ?_, ?_⟩
    · obtain ⟨hroot, hlacks, -⟩ := hasked x hx
      obtain ⟨c, hc, rfl⟩ := hroot
      exact ⟨.root ⟨c, hc, rfl⟩, hlacks, (hseen _).mpr (.inr ⟨c, hc, rfl⟩), AList.notMem_empty _⟩
    · intro hash ot hot
      cases hot
    · intro hash hmem
      exact absurd hmem (AList.notMem_empty _)
    · rintro x ⟨c, hc, rfl⟩
      exact .inr ((hseen _).mpr (.inr ⟨c, hc, rfl⟩))
  have htally : Tally prims.hashOf src.toSource (RootsOf front) [] [] ⟨⟨m, {}⟩, ∅, ∅⟩ := by
    refine ⟨h.whole, by simp, List.nodup_nil, List.nodup_nil, by simp, ?_, ?_, ?_⟩
    · intro hash ot hot
      cases hot
    · exact fun _ => List.nodup_nil
    · intro hash parent hmem
      cases hmem
  unfold driveBackfill at hrun
  simp only [hseed] at hrun
  split at hrun
  · cases hrun
  · rename_i e st hloop
    cases (driveLoop_driven hkind hroots hhonest.sorted hdriving htally hloop).1
  · rename_i st hloop
    obtain ⟨-, hdriving', htally', hreaped⟩ :=
      driveLoop_driven hkind hroots hhonest.sorted hdriving htally hloop
    have hnone := hdriving'.none_open hkind hroots htally'
    have hheld : ∀ x, RootsOf front x → st.receiver.mirror.holds x = true := by
      rintro x ⟨c, hc, rfl⟩
      rcases hdriving'.rootsSeen _ ⟨c, hc, rfl⟩ with hheld | hin
      · exact hheld
      · rcases hdriving'.asked _ (.root ⟨c, hc, rfl⟩) hin with hheld | hqueued | hopen
        · exact hheld
        · cases hqueued
        · rw [AList.mem_keys, hnone] at hopen
          cases hopen
    rw [if_neg (not_not.mpr hnone), ← List.map_reverse] at hrun
    have htodo : front.reverse.reverse ++ ([] ++ base) <:+ commits := by
      rw [List.reverse_reverse, List.nil_append, hchain]
    have hgrew : Grew prims.hashOf src.toSource m st.receiver.mirror :=
      ⟨hreaped.copies, hreaped.keptTrees, hreaped.keptObjects, hreaped.commits, hreaped.refs⟩
    obtain ⟨stored, hstored⟩ := storeCommitRows_ok hhonest (h.grew hgrew) htodo fun c hc =>
      hheld _ ⟨c, List.mem_reverse.mp hc, rfl⟩
    rw [hstored] at hrun
    exact ⟨st.receiver, stored, (Option.some.inj hrun).symm, hreaped, hheld, hstored⟩

/-- **The two backfills agree.** -/
theorem backfills_agree (hhonest : Honest prims ownerPubkey src commits)
    (hkind : OneKind src.toSource (RootsOf front)) (h : Copied prims src commits [] base m)
    (hchain : front ++ base = commits) (announcedTip : Hash) :
    ∃ depth₀ r₁, (∀ depth, depth₀ ≤ depth →
        applyCommits prims.hashOf src.toSource depth (front.reverse.map commitRowToData) ⟨m, {}⟩ =
          some (.ok (), r₁)) ∧
      ∀ rounds o, driveBackfill prims.hashOf src.toSource rounds (front.map commitRowToData)
          announcedTip m = some o →
        o.1 = .ok () ∧ o.2.summary = (finish announcedTip r₁).2.summary ∧
          Alike (finish announcedTip r₁).2.mirror o.2.mirror := by
  have hserved : ∀ c ∈ front.reverse, toHash32 c.rootTree.bytes = .ok c.rootTree ∧
      Good prims.hashOf src.toSource .empty (.tree c.rootTree) := by
    intro c hc
    have hc := hhonest.served c (hchain ▸ List.mem_append_left _ (List.mem_reverse.mp hc))
    exact ⟨hc.lengths.2.2, hc.tree⟩
  have hroots {x : Want} : RootsOf front.reverse x ↔ RootsOf front x := by
    simp only [RootsOf, List.mem_reverse]
  obtain ⟨depth₀, o₁, hseq⟩ :=
    applyCommits_ends (steady_of_good m hserved) (r := ⟨m, {}⟩) (.refl m) rfl
  -- what one backfill gathers, and the other from the same mirror
  have hboth {rounds : Nat} {o : Outcome} (hrun : driveBackfill prims.hashOf src.toSource rounds
      (front.map commitRowToData) announcedTip m = some o) :
      o₁.1 = .ok () ∧ o.1 = .ok () ∧ o.2.summary = (finish announcedTip o₁.2).2.summary ∧
        Alike (finish announcedTip o₁.2).2.mirror o.2.mirror := by
    obtain ⟨fetched, stored, rfl, hreaped, hheld, hstored⟩ :=
      driveBackfill_gathered hhonest hkind h hchain hrun
    obtain ⟨hres, hgathered, hheld₁, hcommits, hrefs, hsummary⟩ :=
      applyCommits_gathered hhonest.sorted h.whole hserved hreaped.commits.symm hstored hseq
    obtain ⟨htrees', hobjects', hrefs', hsummary'⟩ := storeCommitRows_frame hstored
    have hgathered' : Gathered prims.hashOf src.toSource (RootsOf front) ⟨m, {}⟩ stored :=
      hreaped.toGathered.trans (.ofEq hreaped.copies htrees' hobjects' (by rw [hsummary'])
        (by rw [hsummary']))
    have hheld' : ∀ x, RootsOf front x → stored.mirror.holds x = true := by
      rintro x ⟨c, hc, rfl⟩
      have hbefore := hheld _ ⟨c, hc, rfl⟩
      simp only [Mirror.holds, Mirror.hasTree, Db.treeExists] at hbefore ⊢
      rwa [htrees']
    obtain ⟨htrees, hobjects, hcountTrees, hcountObjects⟩ :=
      (hgathered.mono fun x hx => .root (hroots.mp hx)).agree hgathered'
        (fun x hx => hheld₁ x (hroots.mpr hx)) hheld'
    refine ⟨hres, rfl, ?_, ⟨hcommits.symm, ?_, htrees, hobjects⟩⟩
    · change ({ stored.summary with newTip := some announcedTip } : PullSummary) =
        { o₁.2.summary with newTip := some announcedTip }
      rw [hsummary, ← hcountTrees, ← hcountObjects, hsummary', hreaped.rest]
      simp
    · change stored.mirror.db.refs.insert tipRef announcedTip =
        o₁.2.mirror.db.refs.insert tipRef announcedTip
      rw [hrefs, hrefs', hreaped.refs]
  obtain ⟨rounds, o, hrun⟩ :=
    @driveBackfill_isSome prims.hashOf src.toSource (front.map commitRowToData) announcedTip m
  have hok := (hboth hrun).1
  refine ⟨depth₀, o₁.2, fun depth hdepth => ?_, fun rounds o hrun => (hboth hrun).2⟩
  rw [applyCommits_mono hdepth hseq, ← hok]

/-- **The two pulls agree**: from an honest owner that uses no address both for a tree and for an
object, and whatever pulls went before, they return the same result and leave the same mirror. -/
theorem pulls_agree (h : Interrupted prims ownerPubkey src commits m)
    (hkind : OneKind src.toSource (RootsOf commits)) :
    ∃ depth₀ res m₁, (∀ depth, depth₀ ≤ depth →
        pullInto prims ownerPubkey src.uncut depth m = (res, m₁)) ∧
      (∃ rounds o, pullPipelined prims ownerPubkey src rounds m = some o) ∧
      ∀ rounds o, pullPipelined prims ownerPubkey src rounds m = some o →
        o.1 = res ∧ Alike m₁ o.2 := by
  obtain ⟨hhonest, loose, base, hcopied⟩ := h.copied
  obtain ⟨front, hchain⟩ := hcopied.chain
  cases hplan : negotiatePull prims ownerPubkey src.uncut ⟨⟨m, {}⟩, 0⟩ with
  | mk res st =>
  obtain ⟨hst, hok, -⟩ :=
    negotiatePull_spec src.uncut_answers hhonest (r := ⟨m, {}⟩) hcopied hchain hplan
  obtain ⟨r, sent⟩ := st
  obtain rfl : r = ⟨m, {}⟩ := hst
  cases res with
  | error e =>
    refine ⟨0, .error e, m, fun depth _ => ?_, ⟨0, (.error e, m), ?_⟩, fun rounds o hrun => ?_⟩
    · simp only [pullInto, pullReplication, Fallible.bind_error hplan]
    · simp only [pullPipelined, hplan]
    · simp only [pullPipelined, hplan] at hrun
      cases hrun
      exact ⟨rfl, ⟨rfl, rfl, fun _ => rfl, fun _ => rfl⟩⟩
  | ok plan =>
  obtain ⟨rfl, hfits⟩ := hok plan rfl
  obtain ⟨rfl, -⟩ := hfits
  -- with nothing to fetch both end at once
  have hidle (summary : PullSummary)
      (hpull : ∀ depth, pullInto prims ownerPubkey src.uncut depth m = (.ok summary, m))
      (hpipelined : ∀ rounds,
        pullPipelined prims ownerPubkey src rounds m = some (.ok summary, m)) :
      ∃ depth₀ res m₁, (∀ depth, depth₀ ≤ depth →
          pullInto prims ownerPubkey src.uncut depth m = (res, m₁)) ∧
        (∃ rounds o, pullPipelined prims ownerPubkey src rounds m = some o) ∧
        ∀ rounds o, pullPipelined prims ownerPubkey src rounds m = some o →
          o.1 = res ∧ Alike m₁ o.2 := by
    refine ⟨0, .ok summary, m, fun depth _ => hpull depth, ⟨0, _, hpipelined 0⟩,
      fun rounds o hrun => ?_⟩
    rw [hpipelined rounds] at hrun
    cases hrun
    exact ⟨rfl, ⟨rfl, rfl, fun _ => rfl, fun _ => rfl⟩⟩
  cases hcommits : commits with
  | nil =>
    subst hcommits
    refine hidle {} (fun depth => ?_) fun rounds => ?_
    · unfold pullInto pullReplication
      rw [Fallible.bind_ok hplan]
      rfl
    · simp only [pullPipelined, hplan, planFor]
  | cons tip older =>
    rw [hcommits] at hplan
    cases front with
    | nil =>
      refine hidle { upToDate := true } (fun depth => ?_) fun rounds => ?_
      · unfold pullInto pullReplication
        rw [Fallible.bind_ok hplan]
        rfl
      · simp only [pullPipelined, hplan, planFor]
    | cons c front =>
      have hfront : OneKind src.toSource (RootsOf (c :: front)) := by
        have hmono : ∀ x, RootsOf (c :: front) x → Asked src.toSource (RootsOf commits) x := by
          rintro x ⟨d, hd, rfl⟩
          exact .root ⟨d, hchain ▸ List.mem_append_left _ hd, rfl⟩
        exact fun x y hx hy => hkind x y (hx.mono hmono) (hy.mono hmono)
      obtain ⟨depth₀, r₁, hseq, hpipe⟩ :=
        backfills_agree hhonest hfront hcopied hchain tip.hash
      refine ⟨depth₀, .ok (finish tip.hash r₁).2.summary, (finish tip.hash r₁).2.mirror,
        fun depth hdepth => ?_, ?_, fun rounds o hrun => ?_⟩
      · obtain ⟨sent', hfetch⟩ := fetchCommits_uncut (hseq depth hdepth) sent
        rw [List.map_reverse] at hfetch
        unfold pullInto pullReplication
        rw [Fallible.bind_ok hplan]
        dsimp only [planFor]
        rw [Fallible.bind_ok hfetch, Fallible.bind_ok (onSink_apply _ _ _),
          Fallible.bind_ok (exchange_uncut src _ sent')]
        rfl
      · obtain ⟨rounds, o, hrun⟩ := @driveBackfill_isSome prims.hashOf src.toSource
          ((c :: front).map commitRowToData) tip.hash m
        obtain ⟨hok, -, -⟩ := hpipe rounds o hrun
        refine ⟨rounds, (.ok o.2.summary, o.2.mirror), ?_⟩
        obtain ⟨res, r'⟩ := o
        obtain rfl : res = .ok () := hok
        simp only [pullPipelined, hplan, planFor, hrun]
      · simp only [pullPipelined, hplan, planFor] at hrun
        cases hdrive : driveBackfill prims.hashOf src.toSource rounds
            ((c :: front).map commitRowToData) tip.hash m with
        | none =>
          rw [hdrive] at hrun
          cases hrun
        | some o' =>
          obtain ⟨hok, hsummary, halike⟩ := hpipe rounds o' hdrive
          obtain ⟨res, r'⟩ := o'
          obtain rfl : res = .ok () := hok
          rw [hdrive] at hrun
          cases hrun
          exact ⟨congrArg Except.ok hsummary, halike⟩

end

/-! ### Where an address is both a tree's and an object's -/

/-- A file whose bytes are the canonical text of the tree beside it. -/
def mixedRows : List TreeEntryRow :=
  [⟨"a", .blob, 0o644, demoHash 123⟩, ⟨"b", .tree, 0o755, demoHash 123⟩]

def mixedSource : Source where
  trees := (AList.singleton (demoHash 34) (.treeData (demoTree (demoHash 34) mixedRows))).insert
    (demoHash 123) (.treeData (demoTree (demoHash 123) []))
  objects := AList.singleton (demoHash 123)
    (.objectData ⟨true, (demoHash 123).bytes, [123]⟩)

/-- The full-duplex backfill asks for the address once, as the file, and stores the parent without
the tree. -/
example : (driveBackfill demoPrims.hashOf mixedSource 2 [commitRowToData (demoRow 'a' 34 none)]
    (demoHash 97) .empty).map (fun o => (o.1.isOk, o.2.mirror.holds (.tree (demoHash 34)),
      o.2.mirror.holds (.tree (demoHash 123)))) = some (true, true, false) := by
  decide +kernel

/-! ### An owner of two commits -/

/-- The two pulls of a chain of two commits, into an empty mirror. -/
theorem pulls_agree_demo : ∃ depth₀ res m₁,
    (∀ depth, depth₀ ≤ depth →
      pullInto demoPrims demoKey demoOwner.uncut depth .empty = (res, m₁)) ∧
    (∃ rounds o, pullPipelined demoPrims demoKey demoOwner rounds .empty = some o) ∧
    ∀ rounds o, pullPipelined demoPrims demoKey demoOwner rounds .empty = some o →
      o.1 = res ∧ Alike m₁ o.2 := by
  refine pulls_agree (.start demoOwner_honest) ?_
  have hreach : ∀ x, Asked demoOwner.toSource (RootsOf [demoSecond, demoFirst]) x →
      x = .tree demoSecond.rootTree ∨ x = .tree demoFirst.rootTree ∨ x = .object (demoHash 0) := by
    intro x hx
    induction hx with
    | root hroot =>
      obtain ⟨c, hc, rfl⟩ := hroot
      rcases List.mem_cons.mp hc with rfl | hc
      · exact .inl rfl
      · obtain rfl := List.mem_singleton.mp hc
        exact .inr (.inl rfl)
    | child _ hreply hentry hwant ih =>
      have hsecond : demoOwner.requestTree demoSecond.rootTree =
          .ok (demoTree demoSecond.rootTree demoRows) := by decide +kernel
      have hfirst : demoOwner.requestTree demoFirst.rootTree =
          .ok (demoTree demoFirst.rootTree []) := by decide +kernel
      have hobject : (entryToMsg ⟨"a", .blob, 0o644, demoHash 0⟩).want =
          .ok (.object (demoHash 0)) := by decide +kernel
      rcases ih with heq | heq | heq <;> cases heq
      · cases hsecond.symm.trans hreply
        obtain rfl := List.mem_singleton.mp hentry
        exact .inr (.inr (Except.ok.inj (hwant.symm.trans hobject)))
      · cases hfirst.symm.trans hreply
        cases hentry
  intro x y hx hy hhash
  rcases hreach x hx with rfl | rfl | rfl <;> rcases hreach y hy with rfl | rfl | rfl
  any_goals rfl
  all_goals
    refine absurd hhash ?_
    decide +kernel

end Softfig.Replica
