import Mathlib.Data.Finset.Card
import Softfig.Replica.Pull

/-!
The full-duplex pull: many requests in flight, each tree stored as its last child is.

Every address is asked for once, however the replies refer to each other, so this
pull returns whatever the peer serves. A tree that waits for itself stays open and
is refused at the end.

- `cascadeLoop_isSome`: each round of a cascade ends an address or an open tree;
- `receive_size`: each reply ends a request, and asks for addresses never asked for;
- `driveBackfill_isSome`: the pull returns;
- `driveBackfill_onlyMatching`: it stores only items under their own digest.
-/

namespace Softfig.Replica

open Softfig.Lib Softfig.Store Softfig.Vcs

def pipelineWindow : Nat := 32

/-- A fetched tree that waits for children which are not there yet. -/
structure OpenTree where
  data : TreeData
  pending : Nat

/-- The open trees, and for a child the trees that wait for it. -/
structure OpenTrees where
  receiver : Receiver
  opened : AList fun _ : Hash => OpenTree
  waiters : AList fun _ : Hash => List Hash

structure Drive extends OpenTrees where
  frontier : List Want
  outstanding : List Want
  seen : Finset Hash

/-! ### The cascade -/

section Definitions

variable (hashOf : Bytes → Hash) (src : Source)

/-- One child fewer for each parent; a parent with none left is stored and comes to the top of
what is present. -/
def settleParents : List Hash → List Hash → OpenTrees → Except NetError (List Hash) × OpenTrees
  | [], present, b => (.ok present, b)
  | parent :: rest, present, b =>
    match b.opened.lookup parent with
    | none => (.error (.protocol "replication refcount references an unknown open tree"), b)
    | some ot =>
      if ot.pending - 1 = 0 then
        match storeFetched hashOf ot.data b.receiver with
        | (.error e, receiver) => (.error e, { b with receiver, opened := b.opened.erase parent })
        | (.ok (), receiver) =>
          settleParents rest (parent :: present)
            { b with receiver, opened := b.opened.erase parent }
      else
        settleParents rest present
          { b with opened := b.opened.insert parent { ot with pending := ot.pending - 1 } }

/-- The worklist is a stack with its top first; no result where the rounds do not suffice. -/
def cascadeLoop : Nat → List Hash → OpenTrees → Option (Except NetError Unit × OpenTrees)
  | _, [], b => some (.ok (), b)
  | 0, _ :: _, _ => none
  | rounds + 1, done :: present, b =>
    match b.waiters.lookup done with
    | none => cascadeLoop rounds present b
    | some parents =>
      match settleParents hashOf parents present { b with waiters := b.waiters.erase done } with
      | (.error e, b) => some (.error e, b)
      | (.ok present, b) => cascadeLoop rounds present b

def cascade (first : Hash) (st : Drive) : Option (Except NetError Unit × Drive) :=
  match cascadeLoop hashOf (1 + st.opened.keys.length) [first] st.toOpenTrees with
  | none => none
  | some (res, b) => some (res, { st with toOpenTrees := b })

/-! ### The loop -/

/-- What a reply adds to the pull: the children it waits for, and those to ask for. -/
structure Discovery where
  pending : Nat
  depSeen : Finset Hash
  waiters : AList fun _ : Hash => List Hash
  frontier : List Want
  seen : Finset Hash

/-- A child that is missing: asked for ahead of the rest, unless it was asked for. -/
def Discovery.note (hash : Hash) (child : Want) (d : Discovery) : Discovery where
  pending := d.pending + 1
  depSeen := insert child.hash d.depSeen
  waiters := d.waiters.insert child.hash ((d.waiters.lookup child.hash).getD [] ++ [hash])
  frontier := if child.hash ∈ d.seen then d.frontier else child :: d.frontier
  seen := insert child.hash d.seen

def discover (m : Mirror) (hash : Hash) :
    List TreeEntryMsg → Discovery → Except NetError Discovery
  | [], d => .ok d
  | entry :: rest, d =>
    match entry.want with
    | .error e => .error e
    | .ok child =>
      discover m hash rest
        (if m.holds child = true ∨ child.hash ∈ d.depSeen then d else d.note hash child)

def receiveTree (hash : Hash) (reply : TreeData) (st : Drive) :
    Option (Except NetError Unit × Drive) :=
  match reply.answers hash with
  | .error e => some (.error e, st)
  | .ok t =>
    match discover st.receiver.mirror hash t.entries
      ⟨0, ∅, st.waiters, st.frontier, st.seen⟩ with
    | .error e => some (.error e, st)
    | .ok d =>
      if d.pending = 0 then
        match storeFetched hashOf t st.receiver with
        | (.error e, receiver) => some (.error e, { st with receiver })
        | (.ok (), receiver) =>
          cascade hashOf hash
            { st with receiver, waiters := d.waiters, frontier := d.frontier, seen := d.seen }
      else
        some (.ok (), { st with
          opened := st.opened.insert hash ⟨t, d.pending⟩
          waiters := d.waiters
          frontier := d.frontier
          seen := d.seen })

def receiveObject (hash : Hash) (reply : ObjectData) (st : Drive) :
    Option (Except NetError Unit × Drive) :=
  match reply.answers hash with
  | .error e => some (.error e, st)
  | .ok bytes =>
    match st.receiver.mirror.storeObject hashOf hash bytes with
    | (.error e, mirror) => some (.error e, { st with receiver := { st.receiver with mirror } })
    | (.ok (), mirror) =>
      let summary := { st.receiver.summary with objects := st.receiver.summary.objects + 1 }
      cascade hashOf hash { st with receiver := { mirror, summary } }

/-- Replies come in the order of the requests, so each is the one for the oldest request. -/
def receive (want : Want) (st : Drive) : Option (Except NetError Unit × Drive) :=
  match want with
  | .tree hash =>
    match src.getTree hash with
    | .treeData t => receiveTree hashOf hash t st
    | _ =>
      some (.error (.protocol "replication response did not match the outstanding request"), st)
  | .object hash =>
    match src.getObject hash with
    | .objectData o => receiveObject hashOf hash o st
    | _ =>
      some (.error (.protocol "replication response did not match the outstanding request"), st)

/-- Fill the window from the front of the frontier. -/
def dispatch (st : Drive) : Drive :=
  let room := pipelineWindow - st.outstanding.length
  { st with
    outstanding := st.outstanding ++ st.frontier.take room
    frontier := st.frontier.drop room }

def driveLoop : Nat → Drive → Option (Except NetError Unit × Drive)
  | rounds, st =>
    match (dispatch st).outstanding, rounds with
    | [], _ => some (.ok (), dispatch st)
    | _ :: _, 0 => none
    | want :: rest, rounds + 1 =>
      match receive hashOf src want { dispatch st with outstanding := rest } with
      | none => none
      | some (.error e, st) => some (.error e, st)
      | some (.ok (), st) => driveLoop rounds st

/-- Ask for the trees of the missing commits that the mirror lacks. -/
def seed (m : Mirror) : List CommitData → List Want × Finset Hash →
    Except NetError (List Want × Finset Hash)
  | [], asked => .ok asked
  | c :: rest, (frontier, seen) =>
    match toHash32 c.rootTree with
    | .error e => .error e
    | .ok root =>
      let fresh := root ∉ seen ∧ m.hasTree root = false
      seed m rest (if fresh then frontier ++ [.tree root] else frontier, insert root seen)

def storeCommitRows : List CommitData → Receiver → Option Outcome
  | [], r => some (.ok (), r)
  | c :: rest, r => andThen (some (storeCommitRow c r)) (storeCommitRows rest)

/-- `drive_backfill`, from the commits that are missing, newest first. -/
def driveBackfill (rounds : Nat) (missing : List CommitData) (announcedTip : Hash) (m : Mirror) :
    Option Outcome :=
  match seed m missing ([], ∅) with
  | .error e => some (.error e, ⟨m, {}⟩)
  | .ok (frontier, seen) =>
    match driveLoop hashOf src rounds ⟨⟨⟨m, {}⟩, ∅, ∅⟩, frontier, [], seen⟩ with
    | none => none
    | some (.error e, st) => some (.error e, st.receiver)
    | some (.ok (), st) =>
      if st.opened.keys ≠ [] then
        some (.error (.protocol
          "backfill drained with trees still unstored (inconsistent subtree from source)"),
          st.receiver)
      else
        andThen (storeCommitRows missing.reverse st.receiver) fun r => some (finish announcedTip r)

end Definitions

variable {hashOf : Bytes → Hash} {src : Source}

/-! ### The pull returns -/

/-- A parent that is stored goes from the open trees to what is present. -/
theorem settleParents_size {parents present present' : List Hash} {b b' : OpenTrees}
    (h : settleParents hashOf parents present b = (.ok present', b')) :
    present'.length + b'.opened.keys.length = present.length + b.opened.keys.length := by
  induction parents generalizing present b with
  | nil =>
    cases h
    rfl
  | cons parent rest ih =>
    unfold settleParents at h
    cases hopen : b.opened.lookup parent with
    | none =>
      rw [hopen] at h
      cases h
    | some ot =>
      rw [hopen] at h
      have hmem : parent ∈ b.opened.keys :=
        AList.mem_keys.mp (AList.lookup_isSome.mp (by rw [hopen]; rfl))
      have hpos := List.length_pos_of_mem hmem
      simp only at h
      split_ifs at h with hlast
      · split at h
        · cases h
        · rw [ih h, AList.keys_erase, List.length_erase_of_mem hmem, List.length_cons]
          omega
      · rw [ih h, AList.keys_insert, List.length_cons, List.length_erase_of_mem hmem]
        omega

/-- **A cascade returns.** Each round ends an address that is present; what it adds to them it
takes from the open trees. -/
theorem cascadeLoop_isSome {rounds : Nat} {present : List Hash} {b : OpenTrees}
    (h : present.length + b.opened.keys.length ≤ rounds) :
    (cascadeLoop hashOf rounds present b).isSome := by
  induction rounds generalizing present b with
  | zero =>
    cases present with
    | nil => rfl
    | cons done present =>
      rw [List.length_cons] at h
      omega
  | succ rounds ih =>
    cases present with
    | nil => rfl
    | cons done present =>
      rw [List.length_cons] at h
      unfold cascadeLoop
      split
      · exact ih (by omega)
      · split
        · rfl
        · rename_i hsettle
          have hsize := settleParents_size hsettle
          simp only at hsize
          exact ih (by omega)

theorem cascade_cases (hashOf : Bytes → Hash) (first : Hash) (st : Drive) :
    ∃ res b, cascadeLoop hashOf (1 + st.opened.keys.length) [first] st.toOpenTrees = some (res, b) ∧
      cascade hashOf first st = some (res, { st with toOpenTrees := b }) := by
  obtain ⟨⟨res, b⟩, hloop⟩ := Option.isSome_iff_exists.mp
    (@cascadeLoop_isSome hashOf _ [first] st.toOpenTrees le_rfl)
  rw [List.length_singleton] at hloop
  refine ⟨res, b, hloop, ?_⟩
  unfold cascade
  rw [hloop]

/-- What the replies of a table name. -/
def Source.targets (src : Source) : Finset Hash :=
  (src.trees.entries.flatMap fun reply =>
    match reply.2 with
    | .treeData t => t.entries.map fun entry => ⟨entry.target⟩
    | _ => []).toFinset

theorem want_hash {entry : TreeEntryMsg} {want : Want} (h : entry.want = .ok want) :
    want.hash = ⟨entry.target⟩ := by
  obtain ⟨target, htarget, h⟩ := bind_ok_iff.mp h
  obtain ⟨rfl, -⟩ := toHash32_ok htarget
  split at h <;> cases h <;> rfl

theorem Source.mem_targets {hash : Hash} {t : TreeData} {entry : TreeEntryMsg} {want : Want}
    (ht : src.getTree hash = .treeData t) (hmem : entry ∈ t.entries)
    (hwant : entry.want = .ok want) : want.hash ∈ src.targets := by
  rw [want_hash hwant, targets, List.mem_toFinset, List.mem_flatMap]
  unfold getTree at ht
  cases hlookup : src.trees.lookup hash with
  | none =>
    rw [hlookup] at ht
    cases ht
    cases hmem
  | some reply =>
    rw [hlookup] at ht
    obtain rfl : reply = .treeData t := ht
    exact ⟨⟨hash, .treeData t⟩, AList.mem_lookup_iff.mp hlookup, List.mem_map_of_mem hmem⟩

/-- The addresses never asked for, and the requests not yet answered. -/
def Drive.size (src : Source) (st : Drive) : Nat :=
  (src.targets \ st.seen).card + st.frontier.length + st.outstanding.length

/-- An address that is asked for was never asked for. -/
theorem note_size {targets : Finset Hash} {hash : Hash} {child : Want} (d : Discovery)
    (hchild : child.hash ∈ targets) :
    (targets \ (d.note hash child).seen).card + (d.note hash child).frontier.length =
      (targets \ d.seen).card + d.frontier.length := by
  simp only [Discovery.note]
  split_ifs with hseen
  · rw [Finset.insert_eq_of_mem hseen]
  · have hcard : (targets \ d.seen).card = (targets \ insert child.hash d.seen).card + 1 := by
      rw [Finset.sdiff_insert,
        Finset.card_erase_add_one (Finset.mem_sdiff.mpr ⟨hchild, hseen⟩)]
    rw [hcard, List.length_cons]
    omega

theorem discover_size {targets : Finset Hash} {m : Mirror} {hash : Hash}
    {entries : List TreeEntryMsg}
    (hentries : ∀ entry ∈ entries, ∀ want, entry.want = .ok want → want.hash ∈ targets)
    {d d' : Discovery} (h : discover m hash entries d = .ok d') :
    (targets \ d'.seen).card + d'.frontier.length =
      (targets \ d.seen).card + d.frontier.length := by
  induction entries generalizing d with
  | nil =>
    cases h
    rfl
  | cons entry rest ih =>
    obtain ⟨hentry, hrest⟩ := List.forall_mem_cons.mp hentries
    unfold discover at h
    cases hwant : entry.want with
    | error e =>
      rw [hwant] at h
      cases h
    | ok child =>
      rw [hwant] at h
      rw [ih hrest h]
      split_ifs
      · rfl
      · exact note_size d (hentry child hwant)

theorem receiveTree_size {hash : Hash} {reply : TreeData}
    (hreply : src.getTree hash = .treeData reply) (st : Drive) :
    ∃ res st', receiveTree hashOf hash reply st = some (res, st') ∧
      (res = .ok () → st'.size src = st.size src) := by
  unfold receiveTree
  split
  · exact ⟨.error _, st, rfl, fun h => nomatch h⟩
  · rename_i t hanswers
    obtain ⟨rfl, -, -⟩ := TreeData.answers_ok hanswers
    split
    · exact ⟨.error _, st, rfl, fun h => nomatch h⟩
    · rename_i d hdiscover
      have hsize := discover_size (fun entry hmem want => src.mem_targets hreply hmem) hdiscover
      split_ifs
      · split
        · exact ⟨.error _, _, rfl, fun h => nomatch h⟩
        · obtain ⟨res, b, -, hcascade⟩ := cascade_cases hashOf hash _
          refine ⟨res, _, hcascade, fun _ => ?_⟩
          simp only [Drive.size] at hsize ⊢
          omega
      · refine ⟨.ok (), _, rfl, fun _ => ?_⟩
        simp only [Drive.size] at hsize ⊢
        omega

theorem receiveObject_size (hash : Hash) (reply : ObjectData) (st : Drive) :
    ∃ res st', receiveObject hashOf hash reply st = some (res, st') ∧
      (res = .ok () → st'.size src = st.size src) := by
  unfold receiveObject
  split
  · exact ⟨.error _, st, rfl, fun h => nomatch h⟩
  · split
    · exact ⟨.error _, _, rfl, fun h => nomatch h⟩
    · obtain ⟨res, b, -, hcascade⟩ := cascade_cases hashOf hash _
      exact ⟨res, _, hcascade, fun _ => rfl⟩

/-- A reply is taken in one go, and asks only for addresses never asked for. -/
theorem receive_size (want : Want) (st : Drive) :
    ∃ res st', receive hashOf src want st = some (res, st') ∧
      (res = .ok () → st'.size src = st.size src) := by
  cases want with
  | tree hash =>
    simp only [receive]
    split
    · exact receiveTree_size ‹_› st
    · exact ⟨.error _, st, rfl, fun h => nomatch h⟩
  | object hash =>
    simp only [receive]
    split
    · exact receiveObject_size hash _ st
    · exact ⟨.error _, st, rfl, fun h => nomatch h⟩

theorem dispatch_size (st : Drive) : (dispatch st).size src = st.size src := by
  simp only [Drive.size, dispatch, List.length_append, List.length_take, List.length_drop]
  omega

/-- **The loop returns.** Each round answers a request. -/
theorem driveLoop_isSome {rounds : Nat} {st : Drive} (h : st.size src ≤ rounds) :
    (driveLoop hashOf src rounds st).isSome := by
  induction rounds generalizing st with
  | zero =>
    have hnone : (dispatch st).outstanding = [] := by
      have hsize := @dispatch_size src st
      simp only [Drive.size] at hsize h
      exact List.length_eq_zero_iff.mp (by omega)
    unfold driveLoop
    rw [hnone]
    rfl
  | succ rounds ih =>
    unfold driveLoop
    cases hout : (dispatch st).outstanding with
    | nil => rfl
    | cons want rest =>
      obtain ⟨res, st', hreceive, hsize⟩ :=
        @receive_size hashOf src want { dispatch st with outstanding := rest }
      simp only [hreceive]
      cases res with
      | error e => rfl
      | ok u =>
        refine ih ?_
        rw [hsize rfl]
        have hbefore := @dispatch_size src st
        simp only [Drive.size, hout, List.length_cons] at hbefore h ⊢
        omega

theorem storeCommitRows_isSome (commits : List CommitData) (r : Receiver) :
    (storeCommitRows commits r).isSome := by
  induction commits generalizing r with
  | nil => rfl
  | cons c rest ih =>
    unfold storeCommitRows
    rcases storeCommitRow c r with ⟨e | u, r'⟩
    · rfl
    · exact ih r'

/-- **The full-duplex pull returns**, whatever the peer serves. -/
theorem driveBackfill_isSome (missing : List CommitData) (announcedTip : Hash) (m : Mirror) :
    ∃ rounds o, driveBackfill hashOf src rounds missing announcedTip m = some o := by
  unfold driveBackfill
  cases hseed : seed m missing ([], ∅) with
  | error e => exact ⟨0, _, rfl⟩
  | ok asked =>
    obtain ⟨frontier, seen⟩ := asked
    refine ⟨Drive.size src ⟨⟨⟨m, {}⟩, ∅, ∅⟩, frontier, [], seen⟩, ?_⟩
    obtain ⟨⟨res, st⟩, hloop⟩ := Option.isSome_iff_exists.mp
      (@driveLoop_isSome hashOf src _ ⟨⟨⟨m, {}⟩, ∅, ∅⟩, frontier, [], seen⟩ le_rfl)
    simp only [hloop]
    cases res with
    | error e => exact ⟨_, rfl⟩
    | ok u =>
      simp only
      split_ifs
      · exact ⟨_, rfl⟩
      · obtain ⟨⟨res, r⟩, hrows⟩ :=
          Option.isSome_iff_exists.mp (storeCommitRows_isSome missing.reverse st.receiver)
        rw [hrows]
        cases res with
        | error e => exact ⟨_, rfl⟩
        | ok u => exact ⟨_, rfl⟩

/-! ### It stores only items under their own digest -/

theorem settleParents_onlyMatching {parents present : List Hash} {b b' : OpenTrees}
    {res : Except NetError (List Hash)}
    (h : settleParents hashOf parents present b = (res, b')) :
    OnlyMatching hashOf b.receiver.mirror b'.receiver.mirror := by
  induction parents generalizing present b with
  | nil =>
    cases h
    exact .refl _
  | cons parent rest ih =>
    unfold settleParents at h
    split at h
    · cases h
      exact .refl _
    · rename_i ot _
      have hstored := storeFetched_keeps (@fetchKeeps_onlyMatching hashOf) ot.data b.receiver
      split_ifs at h
      · split at h
        all_goals
          rename_i receiver hfetched
          rw [hfetched] at hstored
        · cases h
          exact hstored
        · exact hstored.trans (ih h)
      · have hrest := ih h
        exact hrest

theorem cascadeLoop_onlyMatching {rounds : Nat} {present : List Hash} {b b' : OpenTrees}
    {res : Except NetError Unit} (h : cascadeLoop hashOf rounds present b = some (res, b')) :
    OnlyMatching hashOf b.receiver.mirror b'.receiver.mirror := by
  induction rounds generalizing present b with
  | zero =>
    cases present with
    | nil =>
      cases h
      exact .refl _
    | cons done present => cases h
  | succ rounds ih =>
    cases present with
    | nil =>
      cases h
      exact .refl _
    | cons done present =>
      unfold cascadeLoop at h
      split at h
      · exact ih h
      · split at h
        all_goals
          rename_i hsettle
          have hstored := settleParents_onlyMatching hsettle
        · cases h
          exact hstored
        · exact hstored.trans (ih h)

theorem cascade_onlyMatching {first : Hash} {st st' : Drive} {res : Except NetError Unit}
    (h : cascade hashOf first st = some (res, st')) :
    OnlyMatching hashOf st.receiver.mirror st'.receiver.mirror := by
  obtain ⟨res', b, hloop, hcascade⟩ := cascade_cases hashOf first st
  rw [hcascade] at h
  cases h
  exact cascadeLoop_onlyMatching hloop

theorem receiveTree_onlyMatching {hash : Hash} {reply : TreeData} {st st' : Drive}
    {res : Except NetError Unit} (h : receiveTree hashOf hash reply st = some (res, st')) :
    OnlyMatching hashOf st.receiver.mirror st'.receiver.mirror := by
  unfold receiveTree at h
  split at h
  · cases h
    exact .refl _
  · rename_i t _
    have hstored := storeFetched_keeps (@fetchKeeps_onlyMatching hashOf) t st.receiver
    split at h
    · cases h
      exact .refl _
    · split_ifs at h
      · split at h
        all_goals
          rename_i hfetched
          rw [hfetched] at hstored
        · cases h
          exact hstored
        · exact hstored.trans (cascade_onlyMatching h)
      · cases h
        exact .refl _

theorem receiveObject_onlyMatching {hash : Hash} {reply : ObjectData} {st st' : Drive}
    {res : Except NetError Unit} (h : receiveObject hashOf hash reply st = some (res, st')) :
    OnlyMatching hashOf st.receiver.mirror st'.receiver.mirror := by
  unfold receiveObject at h
  split at h
  · cases h
    exact .refl _
  · rename_i bytes _
    have hstored : OnlyMatching hashOf _ _ :=
      storeObject_onlyMatching st.receiver.mirror hash bytes
    split at h
    all_goals
      rename_i hput
      rw [hput] at hstored
    · cases h
      exact hstored
    · exact hstored.trans (cascade_onlyMatching h)

theorem receive_onlyMatching {want : Want} {st st' : Drive} {res : Except NetError Unit}
    (h : receive hashOf src want st = some (res, st')) :
    OnlyMatching hashOf st.receiver.mirror st'.receiver.mirror := by
  unfold receive at h
  split at h <;> split at h
  · exact receiveTree_onlyMatching h
  · cases h
    exact .refl _
  · exact receiveObject_onlyMatching h
  · cases h
    exact .refl _

theorem driveLoop_onlyMatching {rounds : Nat} {st st' : Drive} {res : Except NetError Unit}
    (h : driveLoop hashOf src rounds st = some (res, st')) :
    OnlyMatching hashOf st.receiver.mirror st'.receiver.mirror := by
  induction rounds generalizing st with
  | zero =>
    unfold driveLoop at h
    cases hout : (dispatch st).outstanding with
    | nil =>
      rw [hout] at h
      cases h
      exact .refl _
    | cons want rest =>
      rw [hout] at h
      cases h
  | succ rounds ih =>
    unfold driveLoop at h
    cases hout : (dispatch st).outstanding with
    | nil =>
      rw [hout] at h
      cases h
      exact .refl _
    | cons want rest =>
      simp only [hout] at h
      split at h
      · cases h
      all_goals
        rename_i hreceive
        have hstored := receive_onlyMatching hreceive
      · cases h
        exact hstored
      · exact hstored.trans (ih h)

theorem storeCommitRows_onlyMatching {commits : List CommitData} {r : Receiver} {o : Outcome}
    (h : storeCommitRows commits r = some o) : OnlyMatching hashOf r.mirror o.2.mirror := by
  induction commits generalizing r o with
  | nil =>
    cases h
    exact .refl _
  | cons c rest ih =>
    refine andThen_keeps fetchKeeps_onlyMatching h (fun mid hrow => ?_) fun _ _ => ih
    cases hrow
    exact storeCommitRow_onlyMatching c r

/-- **The full-duplex pull stores only matching items.** -/
theorem driveBackfill_onlyMatching {rounds : Nat} {missing : List CommitData} {announcedTip : Hash}
    {m : Mirror} {o : Outcome}
    (h : driveBackfill hashOf src rounds missing announcedTip m = some o) :
    OnlyMatching hashOf m o.2.mirror := by
  unfold driveBackfill at h
  split at h
  · cases h
    exact .refl _
  · split at h
    · cases h
    all_goals
      rename_i hloop
      have hstored := driveLoop_onlyMatching hloop
    · cases h
      exact hstored
    · split_ifs at h
      · cases h
        exact hstored
      · refine hstored.trans (andThen_keeps fetchKeeps_onlyMatching h
          (fun mid => storeCommitRows_onlyMatching) fun mid o hlast => ?_)
        cases hlast
        exact advanceTip_onlyMatching mid.mirror announcedTip

end Softfig.Replica
