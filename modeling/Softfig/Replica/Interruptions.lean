import Softfig.Replica.Fetch
import Softfig.Replica.PullRuns
import Softfig.Vcs.Gc

/-!
Pulls that are cut off, one after another, from an honest owner whose chain grows.

The commits are stored before the tip is set. A pull that is cut between the two leaves commits
the tip does not lead to, and the next walk back meets one of them and takes it for a fork.

- `Copied`: what such pulls leave, the commits below the tip and those beyond it;
- `Copied.pull`: a pull leaves that again, however it ends;
- `Copied.refused`: a mirror that holds commits beyond its tip is left as it is by every pull;
- `next_pull_iff`: when the next pull that is not cut succeeds and completes the mirror.
-/

namespace Softfig.Replica

open Softfig.Lib Softfig.Store Softfig.Vcs

/-! ### An owner's chain -/

section

variable {prims : NetPrimitives} {ownerPubkey : Bytes} {src : Owner} {commits l l' : List CommitRow}

theorem Linked.of_append (h : Linked (l ++ l')) : Linked l' := by
  induction l with
  | nil => exact h
  | cons c l ih => exact ih h.2

/-- Linked commits are told by the hash of the newest. -/
theorem Linked.unique (h : Linked l) (h' : Linked l')
    (hsame : ∀ c ∈ l, ∀ d ∈ l', c.hash = d.hash → c = d)
    (hhead : l.head?.map (·.hash) = l'.head?.map (·.hash)) : l = l' := by
  induction l generalizing l' with
  | nil =>
    cases l' with
    | nil => rfl
    | cons d l' => cases hhead
  | cons c l ih =>
    cases l' with
    | nil => cases hhead
    | cons d l' =>
      obtain rfl := hsame c List.mem_cons_self d List.mem_cons_self (Option.some.inj hhead)
      have hrest := ih h.2 h'.2
        (fun c hc d hd => hsame c (List.mem_cons_of_mem _ hc) d (List.mem_cons_of_mem _ hd))
        (h.1.symm.trans h'.1)
      rw [hrest]

/-- A commit that came back would be the first of two tails of the chain, one within the other. -/
theorem Linked.nodup (h : Linked l) (hsame : ∀ c ∈ l, ∀ d ∈ l, c.hash = d.hash → c = d) :
    (l.map (·.hash)).Nodup := by
  induction l with
  | nil => exact List.nodup_nil
  | cons c l ih =>
    have hrest := ih h.2 fun c hc d hd =>
      hsame c (List.mem_cons_of_mem _ hc) d (List.mem_cons_of_mem _ hd)
    refine List.nodup_cons.mpr ⟨fun hmem => ?_, hrest⟩
    obtain ⟨d, hd, hhash⟩ := List.mem_map.mp hmem
    obtain ⟨pre, post, rfl⟩ := List.append_of_mem hd
    have heq : c :: (pre ++ d :: post) = d :: post := by
      refine h.unique h.2.of_append (fun e he f hf => hsame e he f ?_) ?_
      · exact List.mem_cons_of_mem _ (List.mem_append_right pre hf)
      · exact congrArg some hhash.symm
    have hlength := congrArg List.length heq
    simp only [List.length_cons, List.length_append] at hlength
    omega

namespace Honest

variable (h : Honest prims ownerPubkey src commits)

include h

theorem eq_of_hash {c d : CommitRow} (hc : c ∈ commits) (hd : d ∈ commits)
    (hhash : c.hash = d.hash) : c = d := by
  have hreply := (h.served c hc).reply
  rw [hhash, (h.served d hd).reply] at hreply
  have hrow := (h.served c hc).wellFormed
  rw [← hreply, (h.served d hd).wellFormed] at hrow
  exact (Except.ok.inj hrow).symm

theorem nodup : (commits.map (·.hash)).Nodup :=
  h.linked.nodup fun _ hc _ hd => h.eq_of_hash hc hd

theorem linked_of_suffix (hl : l <:+ commits) : Linked l := by
  obtain ⟨front, rfl⟩ := hl
  exact h.linked.of_append

theorem nodup_of_suffix (hl : l <:+ commits) : (l.map (·.hash)).Nodup :=
  h.nodup.sublist (hl.sublist.map _)

end Honest

end

/-! ### A mirror of a part of the chain -/

section

variable (prims : NetPrimitives) (ownerPubkey : Bytes)

/-- What pulls leave of an owner's chain: the commits of `base`, to which the tip leads, and those
of `loose`, stored since, with their trees whole. -/
structure Copied (src : Owner) (commits loose base : List CommitRow) (m : Mirror) : Prop where
  whole : Copies prims.hashOf src.toSource m
  chain : loose ++ base <:+ commits
  rows : ∀ c ∈ loose ++ base, m.db.commits.lookup c.hash = some c.toCommitBody
  onlyRows : ∀ hash, m.hasCommit hash = true → ∃ c ∈ loose ++ base, c.hash = hash
  tip : m.storedTip = base.head?.map (·.hash)
  trees : ∀ c ∈ loose ++ base, m.holds (.tree c.rootTree) = true

end

section

variable {prims : NetPrimitives} {ownerPubkey : Bytes} {src : Owner}
  {commits front loose base : List CommitRow} {m m' : Mirror}

theorem Copies.of_eq {hashOf : Bytes → Hash} {src : Source} (h : Copies hashOf src m)
    (htrees : m'.db.trees = m.db.trees) (hobjects : m'.objects = m.objects) :
    Copies hashOf src m' := by
  intro want hheld
  have hholds : m'.holds want = m.holds want := by
    cases want with
    | tree hash => exact congrArg (fun trees => (trees.lookup hash).isSome) htrees
    | object hash => exact congrArg (fun objects => objects.contains hash) hobjects
  refine (h want (hholds ▸ hheld)).mono ?_ ?_
  · exact fun _ _ hrows => htrees ▸ hrows
  · exact fun _ _ hbytes => hobjects ▸ hbytes

namespace Copied

theorem empty (src : Owner) (commits : List CommitRow) : Copied prims src commits [] [] .empty where
  whole want hheld := by cases want <;> cases hheld
  chain := List.nil_suffix
  rows := by simp
  onlyRows _ hheld := by cases hheld
  tip := rfl
  trees := by simp

variable (h : Copied prims src commits loose base m)

include h

theorem row_mem (c : CommitRow) (hc : c ∈ loose ++ base) : c.hash ∈ m.db.commits := by
  have hrow : (m.db.commits.lookup c.hash).isSome = true := by rw [h.rows c hc]; rfl
  exact AList.lookup_isSome.mp hrow

theorem hasCommit_iff {hash : Hash} :
    m.hasCommit hash = true ↔ hash ∈ (loose ++ base).map (·.hash) := by
  rw [List.mem_map]
  refine ⟨h.onlyRows hash, ?_⟩
  rintro ⟨c, hc, hhash⟩
  exact Option.isSome_iff_exists.mpr ⟨_, hhash ▸ h.rows c hc⟩

theorem grew (hgrew : Grew prims.hashOf src.toSource m m') :
    Copied prims src commits loose base m' where
  whole := hgrew.copies
  chain := h.chain
  rows c hc := hgrew.commits ▸ h.rows c hc
  onlyRows hash hheld := by
    refine h.onlyRows hash ?_
    simpa only [Mirror.hasCommit, hgrew.commits] using hheld
  tip := by
    refine Eq.trans ?_ h.tip
    simp only [Mirror.storedTip, Db.tryGetRef, hgrew.refs]
  trees c hc := hgrew.holds (h.trees c hc)

/-- The tip is set to the newest commit that is stored. -/
theorem advanceTip {tip : CommitRow} (hhead : (loose ++ base).head? = some tip) :
    Copied prims src commits [] (loose ++ base) (m.advanceTip tip.hash) where
  whole := h.whole.of_eq rfl rfl
  chain := h.chain
  rows := h.rows
  onlyRows := h.onlyRows
  tip := by
    rw [hhead]
    change (m.db.refs.insert tipRef tip.hash).lookup tipRef = some tip.hash
    exact AList.lookup_insert _
  trees := h.trees

theorem storeCommit (hhonest : Honest prims ownerPubkey src commits) {c : CommitRow}
    (hc : c :: (loose ++ base) <:+ commits) (hheld : m.holds (.tree c.rootTree) = true) :
    ∃ m', m.storeCommit (commitRowToData c) = .ok m' ∧
      Copied prims src commits (c :: loose) base m' := by
  have hserved := hhonest.served c (hc.subset List.mem_cons_self)
  have hfresh : c.hash ∉ m.db.commits := by
    intro hmem
    have hnodup := hhonest.nodup_of_suffix hc
    rw [List.map_cons, List.nodup_cons] at hnodup
    exact hnodup.1 (h.hasCommit_iff.mp (AList.lookup_isSome.mpr hmem))
  have hparent : ∀ p ∈ c.parent, p ∈ m.db.commits ∨ p = c.hash := by
    intro p hp
    rw [(hhonest.linked_of_suffix hc).1] at hp
    obtain ⟨d, hd, rfl⟩ := Option.map_eq_some_iff.mp hp
    exact .inl (h.row_mem d (List.mem_of_mem_head? hd))
  have hlookup (hash : Hash) : (m.db.commits.insert c.hash c.toCommitBody).lookup hash =
      if hash = c.hash then some c.toCommitBody else m.db.commits.lookup hash := by
    split_ifs with heq
    · exact heq ▸ AList.lookup_insert _
    · exact AList.lookup_insert_ne heq
  refine ⟨⟨{ m.db with commits := m.db.commits.insert c.hash c.toCommitBody }, m.objects⟩, ?_, ?_⟩
  · have hput := putCommit_ok_iff.mpr ⟨hfresh, hparent, rfl⟩
    simp only [Mirror.storeCommit, hserved.wellFormed, hput]
  · refine ⟨h.whole.of_eq rfl rfl, hc, ?_, fun hash hhash => ?_, h.tip, ?_⟩
    · refine List.forall_mem_cons.mpr ⟨AList.lookup_insert _, fun d hd => ?_⟩
      refine (hlookup d.hash).trans ?_
      rw [if_neg, h.rows d hd]
      exact fun heq => hfresh (heq ▸ h.row_mem d hd)
    · rcases eq_or_ne hash c.hash with rfl | hne
      · exact ⟨c, List.mem_cons_self, rfl⟩
      · have hbefore : m.hasCommit hash = true := by
          simpa only [Mirror.hasCommit, hlookup, hne, if_false] using hhash
        obtain ⟨d, hd, hdhash⟩ := h.onlyRows hash hbefore
        exact ⟨d, List.mem_cons_of_mem _ hd, hdhash⟩
    · exact List.forall_mem_cons.mpr ⟨hheld, h.trees⟩

end Copied

/-! ### The backfill -/

section

variable {peer : Peer} {r : Receiver} {sent : Nat} {c : CommitRow} {todo : List CommitRow}

theorem storeCommitRow_spec (hhonest : Honest prims ownerPubkey src commits)
    (h : Copied prims src commits loose base r.mirror) (hc : c :: (loose ++ base) <:+ commits)
    (hheld : r.mirror.holds (.tree c.rootTree) = true) :
    ∃ r', storeCommitRow (commitRowToData c) r = (.ok (), r') ∧
      Copied prims src commits (c :: loose) base r'.mirror := by
  obtain ⟨m', hstore, hcopied⟩ := h.storeCommit hhonest hc hheld
  refine ⟨⟨m', { r.summary with commits := r.summary.commits + 1 }⟩, ?_, hcopied⟩
  simp only [storeCommitRow, hstore]

/-- **The backfill, however it ends**, stores commits of the chain, oldest first. -/
theorem fetchCommits_spec (hpeer : peer.Answers src)
    (hhonest : Honest prims ownerPubkey src commits)
    {depth : Nat} (h : Copied prims src commits loose base r.mirror)
    (htodo : todo.reverse ++ (loose ++ base) <:+ commits) {res : Except NetError Unit}
    {st : Session} (hrun : fetchCommits prims.hashOf peer depth (todo.map commitRowToData)
      ⟨r, sent⟩ = (res, st)) :
    ∃ loose', Copied prims src commits loose' base st.mirror ∧
      (res = .ok () → loose' = todo.reverse ++ loose) := by
  induction todo generalizing loose r sent with
  | nil =>
    cases hrun
    exact ⟨loose, h, fun _ => rfl⟩
  | cons c todo ih =>
    rw [List.reverse_cons, List.append_assoc, List.singleton_append] at htodo
    have hc : c :: (loose ++ base) <:+ commits := (List.suffix_append _ _).trans htodo
    have hserved := hhonest.served c (hc.subset List.mem_cons_self)
    have hroot : toHash32 (commitRowToData c).rootTree = .ok c.rootTree := hserved.lengths.2.2
    rw [List.map_cons] at hrun
    unfold fetchCommits at hrun
    rw [hroot, Fallible.bind_ok (Fallible.ofExcept_apply _ _)] at hrun
    rcases Fallible.bind_cases hrun with ⟨e, hfail, rfl⟩ | ⟨⟨⟩, ⟨r', sent'⟩, hfetch, hrest⟩
    · have hgrew := (fetchTree_spec hpeer hhonest.sorted depth h.whole hserved.tree hfail).1
      exact ⟨loose, h.grew hgrew, by simp⟩
    · obtain ⟨hgrew, hheld⟩ :=
        fetchTree_spec hpeer hhonest.sorted depth h.whole hserved.tree hfetch
      obtain ⟨r'', hstore, hcopied⟩ := storeCommitRow_spec hhonest (h.grew hgrew) hc (hheld rfl)
      have hrow : onSink (storeCommitRow (commitRowToData c)) ⟨r', sent'⟩ =
          (.ok (), ⟨r'', sent'⟩) := by
        rw [onSink_apply, hstore]
      rw [Fallible.bind_ok hrow] at hrest
      obtain ⟨loose', hcopied', hdone⟩ := ih hcopied htodo hrest
      exact ⟨loose', hcopied', fun hres => by rw [hdone hres]; simp⟩

/-- Over a session that is not cut, the backfill succeeds. -/
theorem fetchCommits_ends (hhonest : Honest prims ownerPubkey src commits)
    (h : Copied prims src commits loose base r.mirror)
    (htodo : todo.reverse ++ (loose ++ base) <:+ commits) :
    ∃ depth₀ r', ∀ depth, depth₀ ≤ depth → ∀ sent, ∃ sent',
      fetchCommits prims.hashOf src.uncut depth (todo.map commitRowToData) ⟨r, sent⟩ =
        (.ok (), ⟨r', sent'⟩) := by
  induction todo generalizing loose r with
  | nil => exact ⟨0, r, fun _ _ sent => ⟨sent, rfl⟩⟩
  | cons c todo ih =>
    rw [List.reverse_cons, List.append_assoc, List.singleton_append] at htodo
    have hc : c :: (loose ++ base) <:+ commits := (List.suffix_append _ _).trans htodo
    have hserved := hhonest.served c (hc.subset List.mem_cons_self)
    have hroot : toHash32 (commitRowToData c).rootTree = .ok c.rootTree := hserved.lengths.2.2
    obtain ⟨depth₁, r₁, hfetch⟩ := fetchTree_ends hserved.tree r
    obtain ⟨_, hfirst⟩ := hfetch depth₁ le_rfl 0
    obtain ⟨hgrew, hheld⟩ :=
      fetchTree_spec src.uncut_answers hhonest.sorted depth₁ h.whole hserved.tree hfirst
    obtain ⟨r₂, hstore, hcopied⟩ := storeCommitRow_spec hhonest (h.grew hgrew) hc (hheld rfl)
    obtain ⟨depth₂, r', hrest⟩ := ih hcopied htodo
    refine ⟨max depth₁ depth₂, r', fun depth hdepth sent => ?_⟩
    obtain ⟨sent₁, hfetch⟩ := hfetch depth (le_of_max_le_left hdepth) sent
    obtain ⟨sent₂, hrest⟩ := hrest depth (le_of_max_le_right hdepth) sent₁
    have hrow : onSink (storeCommitRow (commitRowToData c)) ⟨r₁, sent₁⟩ =
        (.ok (), ⟨r₂, sent₁⟩) := by
      rw [onSink_apply, hstore]
    refine ⟨sent₂, ?_⟩
    rw [List.map_cons]
    unfold fetchCommits
    rw [hroot, Fallible.bind_ok (Fallible.ofExcept_apply _ _), Fallible.bind_ok hfetch,
      Fallible.bind_ok hrow]
    exact hrest

end

/-! ### One pull -/

/-- The walk back comes to the mirror's tip, or to the first commit for a mirror without one: no
commit is stored beyond the tip, and those in front are within the limit. -/
def Fits (front loose base : List CommitRow) : Prop :=
  loose = [] ∧ front.length ≤ maxChainWalk + if base = [] then 1 else 0

/-- What an honest owner's pull does. -/
def planFor (src : Owner) (commits front : List CommitRow) : Plan :=
  match commits, front with
  | [], _ => .empty
  | _ :: _, [] => .upToDate
  | tip :: _, front => .backfill (front.map commitRowToData) tip.hash src.announce.height

theorem Copied.reaches_iff (hhonest : Honest prims ownerPubkey src commits)
    (h : Copied prims src commits loose base m) :
    Reaches m (maxChainWalk + 1) front (loose ++ base) ↔ Fits front loose base := by
  unfold Reaches Fits
  cases loose with
  | nil =>
    cases base with
    | nil => simp [h.tip]
    | cons d base => simp [h.tip, Nat.lt_succ_iff]
  | cons c loose =>
    have hnodup := hhonest.nodup_of_suffix h.chain
    rw [List.cons_append, List.map_cons, List.nodup_cons] at hnodup
    have hnot : m.storedTip ≠ some c.hash := by
      intro htip
      obtain ⟨d, hd, hhash⟩ := Option.map_eq_some_iff.mp (h.tip.symm.trans htip)
      refine hnodup.1 (List.mem_map.mpr ⟨d, ?_, hhash⟩)
      exact List.mem_append_right loose (List.mem_of_mem_head? hd)
    simp [hnot]

section

variable {peer : Peer} {r : Receiver} {sent : Nat}

/-- **The negotiation** stores nothing; where it succeeds, its plan is to fetch the commits in
front. -/
theorem negotiatePull_spec (hpeer : peer.Answers src)
    (hhonest : Honest prims ownerPubkey src commits)
    (h : Copied prims src commits loose base r.mirror) (hchain : front ++ (loose ++ base) = commits)
    {res : Except NetError Plan} {st : Session}
    (hrun : negotiatePull prims ownerPubkey peer ⟨r, sent⟩ = (res, st)) :
    st.toReceiver = r ∧
      (∀ plan, res = .ok plan → plan = planFor src commits front ∧ Fits front loose base) ∧
      (peer = src.uncut → Fits front loose base → ∃ plan, res = .ok plan) := by
  unfold negotiatePull at hrun
  rcases exchange_cases hpeer r sent with ⟨hcut, hne⟩ | hsent
  · rw [Fallible.bind_error hcut] at hrun
    cases hrun
    exact ⟨rfl, by simp, fun huncut => absurd huncut hne⟩
  rw [Fallible.bind_ok hsent, if_neg (by rw [hhonest.announced]; simp)] at hrun
  cases hcommits : commits with
  | nil =>
    subst hcommits
    obtain ⟨rfl, hrest⟩ := List.append_eq_nil_iff.mp hchain
    obtain ⟨rfl, rfl⟩ := List.append_eq_nil_iff.mp hrest
    rw [if_pos (by rw [hhonest.tip]; rfl)] at hrun
    cases hrun
    refine ⟨rfl, fun plan hplan => ⟨(Except.ok.inj hplan).symm, rfl, Nat.zero_le _⟩, ?_⟩
    exact fun _ _ => ⟨_, rfl⟩
  | cons tip older =>
    have hserved := hhonest.served tip (hcommits ▸ List.mem_cons_self)
    have hannounce : src.announce.tipHash = tip.hash.bytes := by
      rw [hhonest.tip, hcommits]
      rfl
    have hlength := hserved.lengths.1
    have hnonempty : src.announce.tipHash ≠ [] := by
      intro hempty
      have hbytes := (toHash32_ok hlength).2
      rw [← hannounce, hempty] at hbytes
      cases hbytes
    rw [if_neg hnonempty, hannounce, hlength, Fallible.bind_ok (Fallible.ofExcept_apply _ _),
      Fallible.bind_ok (Fallible.gets_apply _ _)] at hrun
    have htips : r.mirror.storedTip = some tip.hash ↔ front = [] ∧ loose = [] := by
      rw [h.tip]
      constructor
      · intro hsame
        have hbase : base = commits := by
          refine (hhonest.linked_of_suffix ((List.suffix_append _ _).trans h.chain)).unique
            hhonest.linked (fun c hc d hd => hhonest.eq_of_hash ?_ hd) ?_
          · exact h.chain.subset (List.mem_append_right loose hc)
          · rw [hsame, hcommits]
            rfl
        have hlen := congrArg List.length hchain
        rw [← hbase, List.length_append, List.length_append] at hlen
        exact ⟨List.eq_nil_of_length_eq_zero (by omega), List.eq_nil_of_length_eq_zero (by omega)⟩
      · rintro ⟨rfl, rfl⟩
        rw [show base = commits from hchain, hcommits]
        rfl
    dsimp only at hrun
    split_ifs at hrun with htip
    · cases hrun
      obtain ⟨rfl, rfl⟩ := htips.mp htip
      refine ⟨rfl, fun plan hplan => ⟨(Except.ok.inj hplan).symm, rfl, Nat.zero_le _⟩, ?_⟩
      exact fun _ _ => ⟨_, rfl⟩
    · have hlacked : ∀ c ∈ front, r.mirror.hasCommit c.hash = false := by
        intro c hc
        rw [Bool.eq_false_iff, ne_eq, h.hasCommit_iff]
        intro hmem
        have hnodup := hhonest.nodup
        rw [← hchain, List.map_append, List.nodup_append] at hnodup
        exact hnodup.2.2 _ (List.mem_map_of_mem hc) _ hmem rfl
      have hheld : ∀ d ∈ (loose ++ base).head?, r.mirror.hasCommit d.hash = true := by
        intro d hd
        exact h.hasCommit_iff.mpr (List.mem_map_of_mem (List.mem_of_mem_head? hd))
      have hfront : ∀ c ∈ front, Served prims ownerPubkey src c := fun c hc =>
        hhonest.served c (hchain ▸ List.mem_append_left _ hc)
      have hcur : (front ++ (loose ++ base)).head?.map (·.hash) = some tip.hash := by
        rw [hchain, hcommits]
        rfl
      have hlinked : Linked (front ++ (loose ++ base)) := hchain ▸ hhonest.linked
      -- with nothing in front the walk stops at once, at a commit that is not the tip
      have hplan (hfits : Fits front loose base) : planFor src (tip :: older) front =
          .backfill (front.map commitRowToData) tip.hash src.announce.height := by
        cases front with
        | nil => exact absurd (htips.mpr ⟨rfl, hfits.1⟩) htip
        | cons c front => rfl
      rcases Fallible.bind_cases hrun with ⟨e, hfail, rfl⟩ | ⟨found, st', hwalk, hrest⟩
      · obtain ⟨hst, -, hreach⟩ := walkBack_spec hpeer hlinked hfront hlacked hheld hcur hfail
        refine ⟨hst, by simp, fun huncut hfits => ?_⟩
        obtain ⟨found, hfound⟩ := hreach huncut ((h.reaches_iff hhonest).mpr hfits)
        cases hfound
      · obtain ⟨hst, hfound, -⟩ := walkBack_spec hpeer hlinked hfront hlacked hheld hcur hwalk
        obtain ⟨rfl, hreaches⟩ := hfound found rfl
        have hfits := (h.reaches_iff hhonest).mp hreaches
        cases hrest
        refine ⟨hst, fun plan hok => ⟨?_, hfits⟩, fun _ _ => ⟨_, rfl⟩⟩
        rw [hplan hfits, ← Except.ok.inj hok]
        rfl

/-- **A pull, however it ends**, leaves a part of the chain, all of it where it succeeds; and a
mirror the walk does not fit it leaves as it is. -/
theorem pullReplication_spec (hpeer : peer.Answers src)
    (hhonest : Honest prims ownerPubkey src commits) {depth : Nat}
    (h : Copied prims src commits loose base r.mirror) (hchain : front ++ (loose ++ base) = commits)
    {res : Except NetError PullSummary} {st : Session}
    (hrun : pullReplication prims ownerPubkey peer depth ⟨r, sent⟩ = (res, st)) :
    (∃ loose' base', Copied prims src commits loose' base' st.mirror ∧
      ∀ summary, res = .ok summary → loose' = [] ∧ base' = commits) ∧
      (¬Fits front loose base → st.mirror = r.mirror ∧ ∀ summary, res ≠ .ok summary) := by
  unfold pullReplication at hrun
  rcases Fallible.bind_cases hrun with ⟨e, hfail, rfl⟩ | ⟨plan, ⟨r', sent'⟩, hplan, hrest⟩
  · obtain ⟨hst, -, -⟩ := negotiatePull_spec hpeer hhonest h hchain hfail
    rw [hst]
    exact ⟨⟨loose, base, h, by simp⟩, fun _ => ⟨rfl, by simp⟩⟩
  obtain ⟨rfl, hok, -⟩ := negotiatePull_spec hpeer hhonest h hchain hplan
  obtain ⟨rfl, hfits⟩ := hok plan rfl
  refine ⟨?_, fun hnot => absurd hfits hnot⟩
  obtain ⟨rfl, -⟩ := hfits
  -- a pull with nothing to fetch ends with one more message
  have hunchanged (hbase : base = commits) {summary : PullSummary}
      (hdone : (exchange peer >>= fun _ => pure summary) ⟨r', sent'⟩ = (res, st)) :
      ∃ loose' base', Copied prims src commits loose' base' st.mirror ∧
        ∀ summary, res = .ok summary → loose' = [] ∧ base' = commits := by
    refine ⟨[], base, ?_, fun _ _ => ⟨rfl, hbase⟩⟩
    rcases exchange_cases hpeer r' sent' with ⟨hcut, -⟩ | hsent
    · rw [Fallible.bind_error hcut] at hdone
      cases hdone
      exact h
    · rw [Fallible.bind_ok hsent] at hdone
      cases hdone
      exact h
  cases hcommits : commits with
  | nil =>
    rw [hcommits] at hrest hchain
    refine hcommits ▸ hunchanged ?_ hrest
    rw [hcommits]
    exact (List.append_eq_nil_iff.mp hchain).2
  | cons tip older =>
    rw [hcommits] at hrest
    cases front with
    | nil => exact hcommits ▸ hunchanged hchain hrest
    | cons c front =>
      rw [← hcommits]
      have htip : (c :: front ++ base).head? = some tip := by
        rw [List.nil_append] at hchain
        rw [hchain, hcommits]
        rfl
      dsimp only [planFor] at hrest
      rw [← List.map_reverse] at hrest
      have htodo : (c :: front).reverse.reverse ++ ([] ++ base) <:+ commits := by
        rw [List.reverse_reverse, hchain]
      rcases Fallible.bind_cases hrest with ⟨e, hfail, rfl⟩ | ⟨⟨⟩, ⟨r'', sent''⟩, hdone, hlast⟩
      · obtain ⟨loose', hcopied, -⟩ := fetchCommits_spec hpeer hhonest h htodo hfail
        exact ⟨loose', base, hcopied, by simp⟩
      · obtain ⟨loose', hcopied, hloose⟩ := fetchCommits_spec hpeer hhonest h htodo hdone
        have hall : loose' = c :: front := by
          rw [hloose rfl, List.reverse_reverse, List.append_nil]
        subst hall
        have hadvanced := hcopied.advanceTip htip
        refine ⟨[], c :: front ++ base, ?_, fun _ _ => ⟨rfl, hchain⟩⟩
        rw [Fallible.bind_ok (onSink_apply _ _ _)] at hlast
        rcases exchange_cases hpeer (finish tip.hash r'').2 sent'' with ⟨hcut, -⟩ | hsent
        · rw [Fallible.bind_error hcut] at hlast
          cases hlast
          exact hadvanced
        · rw [Fallible.bind_ok hsent] at hlast
          cases hlast
          exact hadvanced

/-- **A pull that is not cut succeeds** where the walk fits. -/
theorem pullReplication_ends (hhonest : Honest prims ownerPubkey src commits)
    (h : Copied prims src commits loose base r.mirror) (hchain : front ++ (loose ++ base) = commits)
    (hfits : Fits front loose base) (sent : Nat) :
    ∃ depth₀ summary r', ∀ depth, depth₀ ≤ depth → ∃ sent',
      pullReplication prims ownerPubkey src.uncut depth ⟨r, sent⟩ = (.ok summary, ⟨r', sent'⟩) := by
  cases hplan : negotiatePull prims ownerPubkey src.uncut ⟨r, sent⟩ with
  | mk res st =>
  obtain ⟨r', sent'⟩ := st
  obtain ⟨rfl, hok, hends⟩ := negotiatePull_spec src.uncut_answers hhonest h hchain hplan
  obtain ⟨plan, rfl⟩ := hends rfl hfits
  obtain ⟨rfl, -⟩ := hok plan rfl
  obtain ⟨rfl, -⟩ := hfits
  unfold pullReplication
  simp only [Fallible.bind_ok hplan]
  cases hcommits : commits with
  | nil => exact ⟨0, {}, r', fun _ _ => ⟨sent' + 1, rfl⟩⟩
  | cons tip older =>
    cases front with
    | nil => exact ⟨0, { upToDate := true }, r', fun _ _ => ⟨sent' + 1, rfl⟩⟩
    | cons c front =>
      have htodo : (c :: front).reverse.reverse ++ ([] ++ base) <:+ commits := by
        rw [List.reverse_reverse, hchain]
      obtain ⟨depth₀, r'', hfetch⟩ := fetchCommits_ends hhonest h htodo
      refine ⟨depth₀, (finish tip.hash r'').2.summary, (finish tip.hash r'').2,
        fun depth hdepth => ?_⟩
      obtain ⟨sent'', hfetch⟩ := hfetch depth hdepth sent'
      rw [List.map_reverse] at hfetch
      refine ⟨sent'' + 1, ?_⟩
      dsimp only [planFor]
      rw [Fallible.bind_ok hfetch, Fallible.bind_ok (onSink_apply _ _ _),
        Fallible.bind_ok (exchange_uncut src _ sent'')]
      rfl

end

end

/-! ### Runs of pulls -/

section

variable (prims : NetPrimitives) (ownerPubkey : Bytes)

/-- A chain that grew: it has its old commits, and what was served before is served still. -/
structure Continues (src : Owner) (commits : List CommitRow) (src' : Owner)
    (commits' : List CommitRow) : Prop where
  chain : commits <:+ commits'
  trees : ∀ hash t, src.requestTree hash = .ok t → src'.requestTree hash = .ok t
  objects : ∀ hash bytes, src.requestObject hash = .ok bytes →
    src'.requestObject hash = .ok bytes

/-- **The mirrors of an honest owner**: its chain may grow between pulls, and each pull may be cut
off at any message. -/
inductive Interrupted : Owner → List CommitRow → Mirror → Prop
  | start {src : Owner} {commits : List CommitRow}
    (hhonest : Honest prims ownerPubkey src commits) : Interrupted src commits .empty
  | grow {src src' : Owner} {commits commits' : List CommitRow} {m : Mirror}
    (h : Interrupted src commits m) (hgrew : Continues src commits src' commits')
    (hhonest : Honest prims ownerPubkey src' commits') : Interrupted src' commits' m
  | pull {src : Owner} {commits : List CommitRow} {m : Mirror} (h : Interrupted src commits m)
    {peer : Peer} (hpeer : peer.Answers src) (depth : Nat) :
    Interrupted src commits (pullInto prims ownerPubkey peer depth m).2

/-- The mirror's tip is the announced one, and it holds every commit and all their trees. -/
structure CaughtUp (src : Owner) (commits : List CommitRow) (m : Mirror) : Prop where
  tip : (m.storedTip.map Hash.bytes).getD [] = src.announce.tipHash
  rows : ∀ c ∈ commits, m.db.commits.lookup c.hash = some c.toCommitBody
  trees : ∀ c ∈ commits, Whole prims.hashOf src.toSource m (.tree c.rootTree)

/-- The next pull, where it is not cut off and goes as deep as it must, succeeds and leaves the
mirror complete. -/
def Succeeds (src : Owner) (commits : List CommitRow) (m : Mirror) : Prop :=
  ∃ depth₀ summary m', (∀ depth, depth₀ ≤ depth →
    pullInto prims ownerPubkey src.uncut depth m = (.ok summary, m')) ∧
      CaughtUp prims src commits m'

end

/-- Every commit the mirror holds is its tip or below it. -/
def Mirror.NothingBeyondTip (m : Mirror) : Prop :=
  ∀ hash, m.hasCommit hash = true →
    ∃ tip, m.storedTip = some tip ∧ Relation.ReflTransGen (ParentOf m.db) tip hash

section

variable {prims : NetPrimitives} {ownerPubkey : Bytes} {src src' : Owner}
  {commits commits' front loose base : List CommitRow} {m : Mirror}

theorem Copied.continued (h : Copied prims src commits loose base m)
    (hgrew : Continues src commits src' commits') : Copied prims src' commits' loose base m where
  whole want hheld := (h.whole want hheld).continued hgrew.trees hgrew.objects
  chain := h.chain.trans hgrew.chain
  rows := h.rows
  onlyRows := h.onlyRows
  tip := h.tip
  trees := h.trees

theorem Interrupted.copied (h : Interrupted prims ownerPubkey src commits m) :
    Honest prims ownerPubkey src commits ∧
      ∃ loose base, Copied prims src commits loose base m := by
  induction h with
  | start hhonest => exact ⟨hhonest, [], [], .empty _ _⟩
  | grow _ hgrew hhonest ih =>
    obtain ⟨-, loose, base, hcopied⟩ := ih
    exact ⟨hhonest, loose, base, hcopied.continued hgrew⟩
  | pull _ hpeer depth ih =>
    obtain ⟨hhonest, loose, base, hcopied⟩ := ih
    obtain ⟨front, hchain⟩ := hcopied.chain
    obtain ⟨⟨loose', base', hcopied', -⟩, -⟩ :=
      pullReplication_spec hpeer hhonest (r := ⟨_, {}⟩) hcopied hchain rfl
    exact ⟨hhonest, loose', base', hcopied'⟩

theorem Copied.caughtUp (hhonest : Honest prims ownerPubkey src commits)
    (h : Copied prims src commits [] commits m) : CaughtUp prims src commits m where
  tip := by
    rw [h.tip, hhonest.tip, Option.map_map]
    rfl
  rows := h.rows
  trees c hc := h.whole _ (h.trees c hc)

/-- **The next pull succeeds** just where the walk fits. -/
theorem Copied.succeeds_iff (hhonest : Honest prims ownerPubkey src commits)
    (h : Copied prims src commits loose base m) (hchain : front ++ (loose ++ base) = commits) :
    Succeeds prims ownerPubkey src commits m ↔ Fits front loose base := by
  constructor
  · rintro ⟨depth₀, summary, m', hpull, -⟩
    by_contra hnot
    cases hrun : pullReplication prims ownerPubkey src.uncut depth₀ ⟨⟨m, {}⟩, 0⟩ with
    | mk res st =>
    obtain ⟨-, hrefused⟩ := pullReplication_spec src.uncut_answers hhonest h hchain hrun
    have hfirst := hpull depth₀ le_rfl
    simp only [pullInto, hrun] at hfirst
    exact (hrefused hnot).2 summary (congrArg Prod.fst hfirst)
  · intro hfits
    obtain ⟨depth₀, summary, r', hpull⟩ :=
      pullReplication_ends (r := ⟨m, {}⟩) hhonest h hchain hfits 0
    have hinto : ∀ depth, depth₀ ≤ depth →
        pullInto prims ownerPubkey src.uncut depth m = (.ok summary, r'.mirror) := by
      intro depth hdepth
      obtain ⟨sent', hrun⟩ := hpull depth hdepth
      simp only [pullInto, hrun]
    obtain ⟨sent', hrun⟩ := hpull depth₀ le_rfl
    obtain ⟨⟨loose', base', hcopied, hdone⟩, -⟩ :=
      pullReplication_spec src.uncut_answers hhonest (r := ⟨m, {}⟩) h hchain hrun
    obtain ⟨rfl, rfl⟩ := hdone summary rfl
    exact ⟨depth₀, summary, r'.mirror, hinto, hcopied.caughtUp hhonest⟩

/-- **A mirror that does not fit** every pull leaves as it is, and none succeeds. -/
theorem Copied.refused (hhonest : Honest prims ownerPubkey src commits)
    (h : Copied prims src commits loose base m) (hchain : front ++ (loose ++ base) = commits)
    (hnot : ¬Fits front loose base) {peer : Peer} (hpeer : peer.Answers src) (depth : Nat) :
    ∃ e, pullInto prims ownerPubkey peer depth m = (.error e, m) := by
  cases hrun : pullReplication prims ownerPubkey peer depth ⟨⟨m, {}⟩, 0⟩ with
  | mk res st =>
  obtain ⟨-, hrefused⟩ := pullReplication_spec hpeer hhonest h hchain hrun
  obtain ⟨hmirror, hres⟩ := hrefused hnot
  simp only [pullInto, hrun, hmirror]
  cases res with
  | error e => exact ⟨e, rfl⟩
  | ok summary => exact absurd rfl (hres summary)

/-! ### What of it the mirror shows -/

/-- Each commit of a chain leads to those below it. -/
theorem linked_reaches {db : Db} {c d : CommitRow} {l : List CommitRow} (hlinked : Linked (c :: l))
    (hrows : ∀ d ∈ c :: l, db.commits.lookup d.hash = some d.toCommitBody) (hd : d ∈ c :: l) :
    Relation.ReflTransGen (ParentOf db) c.hash d.hash := by
  induction l generalizing c with
  | nil =>
    obtain rfl := List.mem_singleton.mp hd
    exact .refl
  | cons e l ih =>
    rcases List.mem_cons.mp hd with rfl | hd
    · exact .refl
    · have hfirst : ParentOf db c.hash e.hash :=
        ⟨c.toCommitBody, hrows c List.mem_cons_self, hlinked.1⟩
      have hrest := ih hlinked.2 (fun d hd => hrows d (List.mem_cons_of_mem c hd)) hd
      exact .head hfirst hrest

/-- A chain leads nowhere else. -/
theorem linked_reaches_only {db : Db} {l : List CommitRow} (hlinked : Linked l)
    (hrows : ∀ d ∈ l, db.commits.lookup d.hash = some d.toCommitBody) {tip hash : Hash}
    (htip : tip ∈ l.map (·.hash)) (hreach : Relation.ReflTransGen (ParentOf db) tip hash) :
    hash ∈ l.map (·.hash) := by
  induction hreach with
  | refl => exact htip
  | tail _ hparent ih =>
    obtain ⟨c, hc, rfl⟩ := List.mem_map.mp ih
    obtain ⟨body, hbody, hp⟩ := hparent
    obtain rfl := Option.some.inj ((hrows c hc).symm.trans hbody)
    obtain ⟨pre, post, rfl⟩ := List.append_of_mem hc
    rw [(hlinked.of_append).1] at hp
    obtain ⟨d, hd, rfl⟩ := Option.map_eq_some_iff.mp hp
    refine List.mem_map_of_mem (List.mem_append_right pre ?_)
    exact List.mem_cons_of_mem c (List.mem_of_mem_head? hd)

theorem Copied.nothingBeyondTip_iff (hhonest : Honest prims ownerPubkey src commits)
    (h : Copied prims src commits loose base m) : m.NothingBeyondTip ↔ loose = [] := by
  have hbase : base <:+ commits := (List.suffix_append _ _).trans h.chain
  have hrows : ∀ d ∈ base, m.db.commits.lookup d.hash = some d.toCommitBody := fun d hd =>
    h.rows d (List.mem_append_right loose hd)
  constructor
  · intro hnothing
    cases hloose : loose with
    | nil => rfl
    | cons c loose' =>
      rw [hloose] at h
      have hc : m.hasCommit c.hash = true := h.hasCommit_iff.mpr List.mem_cons_self
      obtain ⟨tip, htip, hreach⟩ := hnothing c.hash hc
      obtain ⟨d, hd, rfl⟩ := Option.map_eq_some_iff.mp (h.tip.symm.trans htip)
      have hmem := linked_reaches_only (hhonest.linked_of_suffix hbase) hrows
        (List.mem_map_of_mem (List.mem_of_mem_head? hd)) hreach
      have hnodup := hhonest.nodup_of_suffix h.chain
      rw [List.map_append, List.nodup_append] at hnodup
      exact absurd rfl (hnodup.2.2 _ List.mem_cons_self _ hmem)
  · rintro rfl hash hheld
    obtain ⟨d, hd, rfl⟩ := h.onlyRows hash hheld
    rw [List.nil_append] at hd
    cases base with
    | nil => cases hd
    | cons c base =>
      exact ⟨c.hash, h.tip, linked_reaches (hhonest.linked_of_suffix hbase) hrows hd⟩

theorem Copied.missing_length (hhonest : Honest prims ownerPubkey src commits)
    (h : Copied prims src commits loose base m) (hchain : front ++ (loose ++ base) = commits) :
    (commits.filter fun c => !m.hasCommit c.hash).length = front.length := by
  have hnodup := hhonest.nodup
  rw [← hchain, List.map_append, List.nodup_append] at hnodup
  have hfront : ∀ c ∈ front, (!m.hasCommit c.hash) = true := by
    intro c hc
    rw [Bool.not_eq_true', Bool.eq_false_iff, ne_eq, h.hasCommit_iff]
    exact fun hmem => hnodup.2.2 _ (List.mem_map_of_mem hc) _ hmem rfl
  have hrest : ∀ c ∈ loose ++ base, ¬(!m.hasCommit c.hash) = true := by
    intro c hc
    rw [h.hasCommit_iff.mpr (List.mem_map_of_mem hc)]
    simp
  rw [← hchain, List.filter_append, List.filter_eq_self.mpr hfront,
    List.filter_eq_nil_iff.mpr hrest, List.append_nil]

theorem Copied.fits_iff (hhonest : Honest prims ownerPubkey src commits)
    (h : Copied prims src commits loose base m) (hchain : front ++ (loose ++ base) = commits) :
    Fits front loose base ↔ m.NothingBeyondTip ∧
      (commits.filter fun c => !m.hasCommit c.hash).length ≤
        maxChainWalk + if m.storedTip = none then 1 else 0 := by
  have htip : m.storedTip = none ↔ base = [] := by
    rw [h.tip, Option.map_eq_none_iff, List.head?_eq_none_iff]
  rw [h.nothingBeyondTip_iff hhonest, h.missing_length hhonest hchain]
  simp only [Fits, htip]

/-- **The next pull.** Whatever pulls went before, the next one that is not cut completes the mirror
just where the mirror holds no commit beyond its tip and the missing commits are within the limit of
the walk. A mirror with a commit beyond its tip every later pull refuses, and leaves as it is,
however the chain grows. -/
theorem next_pull_iff (h : Interrupted prims ownerPubkey src commits m) :
    (Succeeds prims ownerPubkey src commits m ↔ m.NothingBeyondTip ∧
      (commits.filter fun c => !m.hasCommit c.hash).length ≤
        maxChainWalk + if m.storedTip = none then 1 else 0) ∧
    (¬m.NothingBeyondTip → ∀ src' commits', Continues src commits src' commits' →
      Honest prims ownerPubkey src' commits' → ∀ peer : Peer, peer.Answers src' → ∀ depth,
        ∃ e, pullInto prims ownerPubkey peer depth m = (.error e, m)) := by
  obtain ⟨hhonest, loose, base, hcopied⟩ := h.copied
  obtain ⟨front, hchain⟩ := hcopied.chain
  refine ⟨?_, fun hbeyond src' commits' hgrew hhonest' peer hpeer depth => ?_⟩
  · rw [hcopied.succeeds_iff hhonest hchain, hcopied.fits_iff hhonest hchain]
  · have hcopied' := hcopied.continued hgrew
    obtain ⟨front', hchain'⟩ := hcopied'.chain
    refine hcopied'.refused hhonest' hchain' (fun hfits => ?_) hpeer depth
    exact hbeyond ((hcopied.nothingBeyondTip_iff hhonest).mpr hfits.1)

end

/-! ### A chain of two commits -/

/-- A digest that reads one byte, with which the hashes below differ: the device of a commit, and
a digit of a tree that is not empty. -/
def demoDigest (bytes : Bytes) : Hash := ⟨toBeBytes 32 (bytes[18]?.getD (bytes.headD 0)).toNat⟩

def demoPrims : NetPrimitives where
  hashOf := demoDigest
  fromStr text := if text = "{}" then some (.object []) else none
  keyFromBytes _ := true
  verifyStrict _ _ _ := true
  verify _ _ _ := true

def demoKey : Bytes := List.replicate 32 1

def demoHash (byte : Nat) : Hash := ⟨toBeBytes 32 byte⟩

def demoRow (device : Char) (tree : Nat) (parent : Option Hash) : CommitRow where
  hash := demoHash device.toNat
  parent := parent
  rootTree := demoHash tree
  authorDevice := device.toString
  authorPubkey := demoKey
  timestamp := 0
  intent := "init"
  payload := "{}"
  masterKeyId := 0
  signature := List.replicate 64 2

def demoFirst : CommitRow := demoRow 'a' 123 none

def demoSecond : CommitRow := demoRow 'b' 34 (some demoFirst.hash)

def demoRows : List TreeEntryRow := [⟨"a", .blob, 0o644, demoHash 0⟩]

def demoTree (hash : Hash) (rows : List TreeEntryRow) : TreeData :=
  ⟨true, hash.bytes, rows.map entryToMsg⟩

def demoOwner : Owner where
  trees :=
    (AList.singleton demoSecond.rootTree
      (.treeData (demoTree demoSecond.rootTree demoRows))).insert
        demoFirst.rootTree (.treeData (demoTree demoFirst.rootTree []))
  objects := AList.singleton (demoHash 0) (.objectData ⟨true, (demoHash 0).bytes, [0]⟩)
  announce := ⟨[], demoSecond.hash.bytes, 2, List.replicate 64 3⟩
  commits := (AList.singleton demoSecond.hash (commitRowToData demoSecond)).insert demoFirst.hash
    (commitRowToData demoFirst)

/-- The session is cut where the second tree is asked for. -/
def demoCut : Peer := fun message => if message < 4 then some demoOwner else none

theorem verifyTree_rows {hashOf : Bytes → Hash} {t : TreeData} {row : Hash × List TreeEntryRow}
    (h : verifyTree hashOf t = .ok row) : msgToEntries t.entries = .ok row.2 := by
  obtain ⟨entries, hentries, hrest⟩ := bind_ok_iff.mp h
  obtain ⟨declared, -, hrest⟩ := bind_ok_iff.mp hrest
  split_ifs at hrest
  cases hrest
  exact hentries

theorem demoOwner_sorted (hash : Hash) (t : TreeData) (row : Hash × List TreeEntryRow)
    (hreply : demoOwner.requestTree hash = .ok t)
    (hverify : verifyTree demoPrims.hashOf t = .ok row) : SortedByName row.2 := by
  have hrows (want : Hash) (rows : List TreeEntryRow)
      (hdecode : msgToEntries (rows.map entryToMsg) = .ok rows) (hsorted : SortedByName rows)
      (ht : (demoTree want rows).answers hash = .ok t) : SortedByName row.2 := by
    obtain ⟨rfl, -, -⟩ := TreeData.answers_ok ht
    obtain rfl := Except.ok.inj (hdecode.symm.trans (verifyTree_rows hverify))
    exact hsorted
  unfold Source.requestTree Source.getTree at hreply
  rcases eq_or_ne hash demoFirst.rootTree with rfl | hfirst
  · have hlookup : demoOwner.trees.lookup demoFirst.rootTree =
        some (.treeData (demoTree demoFirst.rootTree [])) := AList.lookup_insert _
    rw [hlookup] at hreply
    exact hrows _ [] rfl List.Pairwise.nil hreply
  rcases eq_or_ne hash demoSecond.rootTree with rfl | hsecond
  · have hlookup : demoOwner.trees.lookup demoSecond.rootTree =
        some (.treeData (demoTree demoSecond.rootTree demoRows)) := by decide +kernel
    rw [hlookup] at hreply
    exact hrows _ demoRows (by decide +kernel) (List.pairwise_singleton _ _) hreply
  · have hnone : demoOwner.trees.lookup hash = none := by
      refine (AList.lookup_insert_ne hfirst).trans (AList.lookup_eq_none.mpr ?_)
      rw [AList.mem_keys, AList.keys_singleton, List.mem_singleton]
      exact hsecond
    rw [hnone] at hreply
    cases hreply

theorem demoFirst_good :
    Good demoPrims.hashOf demoOwner.toSource .empty (.tree demoFirst.rootTree) := by
  have hreply : demoOwner.requestTree demoFirst.rootTree =
      .ok (demoTree demoFirst.rootTree []) := by decide +kernel
  have hverify : verifyTree demoPrims.hashOf (demoTree demoFirst.rootTree []) =
      .ok (demoFirst.rootTree, []) := by decide +kernel
  refine .tree hreply hverify ?_ ?_
  all_goals
    intro entry hentry
    cases hentry

theorem demoSecond_good :
    Good demoPrims.hashOf demoOwner.toSource .empty (.tree demoSecond.rootTree) := by
  have hwant : (entryToMsg ⟨"a", .blob, 0o644, demoHash 0⟩).want = .ok (.object (demoHash 0)) := by
    decide +kernel
  have hbytes : demoOwner.requestObject (demoHash 0) = .ok [0] := by decide +kernel
  have hobject : Good demoPrims.hashOf demoOwner.toSource .empty (.object (demoHash 0)) :=
    .object hbytes rfl
  have hreply : demoOwner.requestTree demoSecond.rootTree =
      .ok (demoTree demoSecond.rootTree demoRows) := by decide +kernel
  have hverify : verifyTree demoPrims.hashOf (demoTree demoSecond.rootTree demoRows) =
      .ok (demoSecond.rootTree, demoRows) := by decide +kernel
  refine .tree hreply hverify ?_ ?_
  · intro entry hentry
    obtain rfl := List.mem_singleton.mp hentry
    exact ⟨_, hwant⟩
  · intro entry hentry want hw
    obtain rfl := List.mem_singleton.mp hentry
    obtain rfl := Except.ok.inj (hwant.symm.trans hw)
    exact hobject

theorem demoOwner_honest : Honest demoPrims demoKey demoOwner [demoSecond, demoFirst] where
  announced := by decide +kernel
  tip := rfl
  linked := ⟨rfl, rfl, trivial⟩
  served := by
    refine List.forall_mem_cons.mpr ⟨?_, List.forall_mem_singleton.mpr ?_⟩
    · exact ⟨by decide +kernel, by decide +kernel, by decide +kernel, demoSecond_good⟩
    · exact ⟨by decide +kernel, by decide +kernel, by decide +kernel, demoFirst_good⟩
  sorted := demoOwner_sorted

/-- **A cut that strands a mirror**: the first commit is stored and the tip is not set, and the next
pull takes it for a fork. -/
theorem next_pull_stranded :
    ¬Succeeds demoPrims demoKey demoOwner [demoSecond, demoFirst]
      (pullInto demoPrims demoKey demoCut 2 .empty).2 := by
  have hpeer : demoCut.Answers demoOwner := by
    intro message owner h
    unfold demoCut at h
    split_ifs at h
    exact (Option.some.inj h).symm
  have hstranded : (pullInto demoPrims demoKey demoCut 2 .empty).2.storedTip = none ∧
      (pullInto demoPrims demoKey demoCut 2 .empty).2.hasCommit demoFirst.hash = true := by
    decide +kernel
  have hnext := (next_pull_iff ((Interrupted.start demoOwner_honest).pull hpeer 2)).1
  intro hsucceeds
  obtain ⟨tip, htip, -⟩ := (hnext.mp hsucceeds).1 _ hstranded.2
  cases hstranded.1.symm.trans htip

end Softfig.Replica
