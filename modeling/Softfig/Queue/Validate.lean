import Softfig.Lib.ColouredDfs
import Softfig.Lib.Except
import Softfig.Queue.Model

/-!
What the queue files must satisfy before the scheduler reads them, and the
refusals that name what they violate.

- `validate_exact`: a list is accepted exactly where the writer invariants hold,
  a reported link cycle is one, and some row of an accepted list waits for
  nothing live;
- `SlicesToml.validate_ok_iff`: the same for a milestone's slice order.
-/

namespace Softfig.Queue

inductive QueueRefusal where
  | exists (id : String)
  | badName (name : String)
  | unknownProject (project : String)
  | unknownId (id : String)
  | linkCycle (id : String)
  | linkedFrom (id : String)
  | laneMismatch (id : String)
  | started (id : String)
  | running (id : String)
  | daemonOwned (id : String)
  | memberNotAllowed (verb : String)
  | milestoneMismatch (found expected : String)
  | invalidItemShape (id : String)
  deriving DecidableEq

/-- The wire name. -/
def QueueRefusal.code : QueueRefusal → String
  | .exists _ => "exists"
  | .badName _ => "bad_name"
  | .unknownProject _ => "unknown_project"
  | .unknownId _ => "unknown_id"
  | .linkCycle _ => "link_cycle"
  | .linkedFrom _ => "linked_from"
  | .laneMismatch _ => "lane_mismatch"
  | .started _ => "started"
  | .running _ => "running"
  | .daemonOwned _ => "daemon_owned"
  | .memberNotAllowed _ => "member_not_allowed"
  | .milestoneMismatch _ _ => "milestone_mismatch"
  | .invalidItemShape _ => "invalid_item_shape"

/-! ### The checks -/

/-- The map a sequence of pairs collects to: a later pair replaces an earlier
one of its key. -/
def collect {α : Type} : List (String × α) → String → Option α
  | [], _ => none
  | (k, v) :: rest, key => (collect rest key).or (if k = key then some v else none)

/-- Urgent rows first, and every restack row among them. -/
def checkLanes : Bool → List Entry → Except QueueRefusal Unit
  | _, [] => .ok ()
  | seenNormal, e :: es =>
    if e.kind = .restack ∧ e.lane ≠ .urgent then .error (.laneMismatch e.id)
    else if e.lane = .urgent ∧ seenNormal = true then .error (.laneMismatch e.id)
    else checkLanes (seenNormal || e.lane = .normal) es

/-- No id twice. -/
def checkIds : List String → List String → Except QueueRefusal Unit
  | _, [] => .ok ()
  | seen, id :: ids =>
    if id ∈ seen then .error (.exists id) else checkIds (id :: seen) ids

/-- The index of the live row of an id. -/
def QueueToml.live (queue : QueueToml) : String → Option Nat :=
  collect (queue.entries.zipIdx.map fun (e, i) => (e.id, i))

/-- Links that name no live row and no row archived done. -/
def unresolved (live : String → Option Nat) (done after : List String) : List String :=
  after.filter fun link => (live link).isNone ∧ link ∉ done

def checkLinks (live : String → Option Nat) (done : List String) :
    List Entry → Except QueueRefusal Unit
  | [] => .ok ()
  | e :: es =>
    match unresolved live done e.after with
    | link :: _ => .error (.unknownId link)
    | [] => checkLinks live done es

/-- The live rows a live row waits for. -/
def QueueToml.links (queue : QueueToml) (i : Nat) : List Nat :=
  match queue.entries[i]? with
  | none => []
  | some e => e.after.filterMap queue.live

/-- Search the links between live rows for a cycle. -/
def QueueToml.checkCycles (queue : QueueToml) : Except QueueRefusal Unit :=
  match Lib.ColouredDfs.findCycle queue.links (List.range queue.entries.length) with
  | .ok _ => .ok ()
  | .error i => .error (.linkCycle ((queue.entries[i]?.map (·.id)).getD ""))

/-- The repo of a project name. -/
def QueueToml.repoOf (queue : QueueToml) : String → Option String :=
  collect (queue.projects.map fun p => (p.name, p.repo))

/-- Every project exists, and one started normal row for each repo; `started`
holds the repos that have theirs. -/
def checkStarted (repoOf : String → Option String) :
    List String → List Entry → Except QueueRefusal Unit
  | _, [] => .ok ()
  | started, e :: es =>
    match repoOf e.project with
    | none => .error (.unknownProject e.project)
    | some repo =>
      if e.lane = .normal ∧ e.status.isStarted = true then
        if repo ∈ started then .error (.started e.id) else checkStarted repoOf (repo :: started) es
      else checkStarted repoOf started es

/-- Check a list against its archive. -/
def QueueToml.validate (queue : QueueToml) (archive : QueueArchiveToml) :
    Except QueueRefusal Unit := do
  checkLanes false queue.entries
  checkIds [] (queue.allIds archive)
  checkLinks queue.live archive.doneIds queue.entries
  queue.checkCycles
  checkStarted queue.repoOf [] queue.entries

/-- Item ids differ, and only slices count follow-ups. -/
def checkItems : List String → List SliceItem → Except QueueRefusal Unit
  | _, [] => .ok ()
  | seen, item :: items =>
    if item.id ∈ seen then .error (.exists item.id)
    else
      match item.kind, item.followUps with
      | .slice, none => .error (.invalidItemShape item.id)
      | .sub, some _ => .error (.invalidItemShape item.id)
      | .slice, some _ => checkItems (item.id :: seen) items
      | .sub, none => checkItems (item.id :: seen) items

/-- Check a slice order read from the folder of a milestone. -/
def SlicesToml.validate (slices : SlicesToml) (expected : String) : Except QueueRefusal Unit :=
  if slices.milestone ≠ expected then .error (.milestoneMismatch slices.milestone expected)
  else checkItems [] slices.items

/-- At most two levels below the top. -/
def subDepth (milestone : String) : Except QueueRefusal Unit :=
  if milestone.toList.count '/' ≥ 3 then .error (.badName milestone) else .ok ()

/-! ### The writer invariants -/

/-- A live row waits for a live row. -/
def QueueToml.LinkTo (queue : QueueToml) (a b : Entry) : Prop :=
  a ∈ queue.entries ∧ b ∈ queue.entries ∧ b.id ∈ a.after

/-- A normal row that holds a repo. -/
def QueueToml.Starts (queue : QueueToml) (repo : String) (e : Entry) : Prop :=
  e.lane = .normal ∧ e.status.isStarted = true ∧ queue.repoOf e.project = some repo

instance (queue : QueueToml) (repo : String) (e : Entry) : Decidable (queue.Starts repo e) := by
  unfold QueueToml.Starts
  infer_instance

/-- The invariants of the list against its archive. -/
structure QueueToml.WriterInvariant (queue : QueueToml) (archive : QueueArchiveToml) : Prop where
  urgentFirst : queue.entries.Pairwise fun a b => a.lane = .normal → b.lane ≠ .urgent
  restackUrgent : ∀ e ∈ queue.entries, e.kind = .restack → e.lane = .urgent
  idsDistinct : (queue.allIds archive).Nodup
  linksResolve : ∀ e ∈ queue.entries, ∀ id ∈ e.after,
    (∃ l ∈ queue.entries, l.id = id) ∨ id ∈ archive.doneIds
  linksAcyclic : ∀ e, ¬ Relation.TransGen queue.LinkTo e e
  projectsExist : ∀ e ∈ queue.entries, ∃ p ∈ queue.projects, p.name = e.project
  oneStarted : ∀ repo, (queue.entries.filter fun e => queue.Starts repo e).length ≤ 1

/-! ### Collected maps -/

theorem collect_isSome {α : Type} {pairs : List (String × α)} {key : String} :
    (collect pairs key).isSome = true ↔ key ∈ pairs.map Prod.fst := by
  induction pairs with
  | nil => simp [collect]
  | cons pair rest ih =>
    obtain ⟨k, v⟩ := pair
    rw [collect, Option.isSome_or, Bool.or_eq_true, ih]
    by_cases hk : k = key
    · simp [hk]
    · simp [hk, Ne.symm hk]

theorem collect_mem {α : Type} {pairs : List (String × α)} {key : String} {v : α}
    (h : collect pairs key = some v) : (key, v) ∈ pairs := by
  induction pairs with
  | nil => simp [collect] at h
  | cons pair rest ih =>
    obtain ⟨k, w⟩ := pair
    rw [collect, Option.or_eq_some_iff] at h
    rcases h with h | ⟨-, h⟩
    · exact List.mem_cons_of_mem _ (ih h)
    · by_cases hk : k = key
      · rw [if_pos hk] at h
        obtain rfl := Option.some.inj h
        subst hk
        exact List.mem_cons_self
      · rw [if_neg hk] at h
        cases h

theorem collect_eq_some {α : Type} {pairs : List (String × α)}
    (hnodup : (pairs.map Prod.fst).Nodup) {key : String} {v : α} :
    collect pairs key = some v ↔ (key, v) ∈ pairs := by
  constructor
  · exact collect_mem
  · intro hmem
    have hsome : (collect pairs key).isSome = true :=
      collect_isSome.mpr (List.mem_map.mpr ⟨(key, v), hmem, rfl⟩)
    obtain ⟨w, hw⟩ := Option.isSome_iff_exists.mp hsome
    have hpair := List.inj_on_of_nodup_map hnodup hmem (collect_mem hw) rfl
    rw [hw, (Prod.mk.inj hpair).2]

/-! ### What each check accepts -/

theorem checkLanes_ok_iff {seen : Bool} {es : List Entry} :
    checkLanes seen es = .ok () ↔
      (∀ e ∈ es, e.kind = .restack → e.lane = .urgent) ∧
      (seen = true → ∀ e ∈ es, e.lane ≠ .urgent) ∧
      es.Pairwise fun a b => a.lane = .normal → b.lane ≠ .urgent := by
  induction es generalizing seen with
  | nil => simp [checkLanes]
  | cons e es ih =>
    rw [checkLanes]
    split
    · rename_i hrestack
      simp [hrestack]
    · rename_i hrestack
      split
      · rename_i hlate
        simp [hlate]
      · rename_i hlate
        rw [ih]
        have hlane : e.lane ≠ .urgent ↔ e.lane = .normal := by
          cases e.lane <;> decide
        simp only [not_and, ne_eq, not_not] at hrestack
        simp only [List.forall_mem_cons, List.pairwise_cons, Bool.or_eq_true, decide_eq_true_eq]
        constructor
        · rintro ⟨hkinds, hnormal, hpairs⟩
          refine ⟨⟨hrestack, hkinds⟩, ?_, ?_, hpairs⟩
          · intro hseen
            exact ⟨fun h => hlate ⟨h, hseen⟩, hnormal (Or.inl hseen)⟩
          · intro b hb he
            exact hnormal (Or.inr he) b hb
        · rintro ⟨⟨-, hkinds⟩, hseen, hfirst, hpairs⟩
          refine ⟨hkinds, ?_, hpairs⟩
          rintro (h | h)
          · exact (hseen h).2
          · exact fun b hb => hfirst b hb h

theorem checkIds_ok_iff {seen ids : List String} :
    checkIds seen ids = .ok () ↔ ids.Nodup ∧ ∀ id ∈ ids, id ∉ seen := by
  induction ids generalizing seen with
  | nil => simp [checkIds]
  | cons id ids ih =>
    rw [checkIds]
    by_cases hid : id ∈ seen
    · simp [hid]
    · rw [if_neg hid, ih]
      rw [List.nodup_cons, List.forall_mem_cons]
      simp only [List.mem_cons, not_or]
      constructor
      · rintro ⟨hnodup, hfresh⟩
        exact ⟨⟨fun h => (hfresh id h).1 rfl, hnodup⟩, hid, fun x hx => (hfresh x hx).2⟩
      · rintro ⟨⟨hnotin, hnodup⟩, -, hfresh⟩
        refine ⟨hnodup, fun x hx => ⟨?_, hfresh x hx⟩⟩
        rintro rfl
        exact hnotin hx

theorem unresolved_eq_nil {live : String → Option Nat} {done after : List String} :
    unresolved live done after = [] ↔ ∀ link ∈ after, (live link).isSome = true ∨ link ∈ done := by
  simp only [unresolved, List.filter_eq_nil_iff, decide_eq_true_eq, not_and, not_not,
    Option.isNone_iff_eq_none, Option.isSome_iff_ne_none]
  constructor
  · intro h link hlink
    by_cases hnone : live link = none
    · exact Or.inr (h link hlink hnone)
    · exact Or.inl hnone
  · intro h link hlink hnone
    exact (h link hlink).resolve_left (fun hne => hne hnone)

theorem checkLinks_ok_iff {live : String → Option Nat} {done : List String} {es : List Entry} :
    checkLinks live done es = .ok () ↔
      ∀ e ∈ es, ∀ link ∈ e.after, (live link).isSome = true ∨ link ∈ done := by
  induction es with
  | nil => simp [checkLinks]
  | cons e es ih =>
    rw [checkLinks, List.forall_mem_cons, ← unresolved_eq_nil]
    cases hun : unresolved live done e.after with
    | nil => simpa using ih
    | cons link rest => simp

/-- The started normal rows on one repo, those of a map. -/
def startedRows (repoOf : String → Option String) (repo : String) (es : List Entry) : List Entry :=
  es.filter fun e => e.lane = .normal ∧ e.status.isStarted = true ∧ repoOf e.project = some repo

theorem checkStarted_ok_iff {repoOf : String → Option String} {started : List String}
    {es : List Entry} :
    checkStarted repoOf started es = .ok () ↔
      (∀ e ∈ es, (repoOf e.project).isSome = true) ∧
      ∀ repo, (if repo ∈ started then 1 else 0) + (startedRows repoOf repo es).length ≤ 1 := by
  induction es generalizing started with
  | nil =>
    simp only [checkStarted, startedRows, List.filter_nil, List.length_nil, true_iff]
    refine ⟨by simp, fun repo => ?_⟩
    split <;> omega
  | cons e es ih =>
    rw [checkStarted, List.forall_mem_cons]
    cases hrepo : repoOf e.project with
    | none => simp
    | some repo =>
      have hrow (r : String) : (startedRows repoOf r (e :: es)).length =
          (if e.lane = .normal ∧ e.status.isStarted = true ∧ repo = r then 1 else 0) +
            (startedRows repoOf r es).length := by
        simp only [startedRows, List.filter_cons, hrepo, Option.some.injEq, decide_eq_true_eq]
        split
        · simp [Nat.add_comm]
        · simp
      simp only [Option.isSome_some, true_and, hrow]
      by_cases hstarted : e.lane = .normal ∧ e.status.isStarted = true
      · rw [if_pos hstarted]
        obtain ⟨hlane, hstatus⟩ := hstarted
        by_cases hheld : repo ∈ started
        · rw [if_pos hheld]
          simp only [reduceCtorEq, false_iff, not_and]
          intro _ h
          have := h repo
          simp only [hheld, if_true, hlane, hstatus, and_self] at this
          omega
        · rw [if_neg hheld, ih]
          refine and_congr_right fun _ => forall_congr' fun r => ?_
          by_cases hr : repo = r
          · subst hr
            simp [hlane, hstatus, hheld]
          · simp [hr, Ne.symm hr]
      · rw [if_neg hstarted, ih]
        refine and_congr_right fun _ => forall_congr' fun r => ?_
        have hrow : ¬ (e.lane = .normal ∧ e.status.isStarted = true ∧ repo = r) :=
          fun h => hstarted ⟨h.1, h.2.1⟩
        rw [if_neg hrow, Nat.zero_add]

/-! ### Links between live rows -/

section links

variable {queue : QueueToml}

theorem live_pairs_keys :
    (queue.entries.zipIdx.map fun (e, i) => (e.id, i)).map Prod.fst = queue.entries.map (·.id) := by
  rw [List.map_map]
  conv_rhs => rw [← List.zipIdx_map_fst 0 queue.entries, List.map_map]
  rfl

theorem live_isSome {id : String} :
    (queue.live id).isSome = true ↔ ∃ l ∈ queue.entries, l.id = id := by
  rw [QueueToml.live, collect_isSome, live_pairs_keys, List.mem_map]

theorem live_eq_some (hids : (queue.entries.map (·.id)).Nodup) {id : String} {j : Nat} :
    queue.live id = some j ↔ ∃ e, queue.entries[j]? = some e ∧ e.id = id := by
  rw [QueueToml.live, collect_eq_some (by rwa [live_pairs_keys]), List.mem_map]
  constructor
  · rintro ⟨⟨e, i⟩, hmem, heq⟩
    obtain ⟨rfl, rfl⟩ := Prod.mk.inj heq
    exact ⟨e, List.mem_zipIdx_iff_getElem?.mp hmem, rfl⟩
  · rintro ⟨e, he, rfl⟩
    exact ⟨(e, j), List.mem_zipIdx_iff_getElem?.mpr he, rfl⟩

theorem edge_iff (hids : (queue.entries.map (·.id)).Nodup) {i j : Nat} :
    Lib.ColouredDfs.Edge queue.links i j ↔
      ∃ a b, queue.entries[i]? = some a ∧ queue.entries[j]? = some b ∧ b.id ∈ a.after := by
  rw [Lib.ColouredDfs.Edge, QueueToml.links]
  cases ha : queue.entries[i]? with
  | none => simp
  | some a =>
    simp only [List.mem_filterMap, live_eq_some hids, Option.some.injEq, exists_and_left,
      exists_eq_left']
    constructor
    · rintro ⟨link, hlink, b, hb, rfl⟩
      exact ⟨b, hb, hlink⟩
    · rintro ⟨b, hb, hlink⟩
      exact ⟨b.id, hlink, b, hb, rfl⟩

/-- A path of indices is a path of rows. -/
theorem linkTo_of_edges (hids : (queue.entries.map (·.id)).Nodup) {i j : Nat}
    (h : Relation.TransGen (Lib.ColouredDfs.Edge queue.links) i j) :
    ∃ a b, queue.entries[i]? = some a ∧ queue.entries[j]? = some b ∧
      Relation.TransGen queue.LinkTo a b := by
  induction h with
  | single hedge =>
    obtain ⟨a, b, ha, hb, hlink⟩ := (edge_iff hids).mp hedge
    exact ⟨a, b, ha, hb,
      .single ⟨List.mem_of_getElem? ha, List.mem_of_getElem? hb, hlink⟩⟩
  | tail _ hedge ih =>
    obtain ⟨a, b, ha, hb, hpath⟩ := ih
    obtain ⟨b', c, hb', hc, hlink⟩ := (edge_iff hids).mp hedge
    obtain rfl : b = b' := Option.some.inj (hb.symm.trans hb')
    exact ⟨a, c, ha, hc,
      hpath.tail ⟨List.mem_of_getElem? hb, List.mem_of_getElem? hc, hlink⟩⟩

/-- A row is accessible where its index ends. -/
theorem acc_of_ends (hids : (queue.entries.map (·.id)).Nodup) {i : Nat}
    (h : Lib.ColouredDfs.Ends queue.links i) {e : Entry} (he : queue.entries[i]? = some e) :
    Acc (fun a b => queue.LinkTo b a) e := by
  induction h generalizing e with
  | intro i _ ih =>
    constructor
    rintro b ⟨-, hb, hlink⟩
    obtain ⟨j, hj⟩ := List.mem_iff_getElem?.mp hb
    exact ih j ((edge_iff hids).mpr ⟨e, b, he, hj, hlink⟩) hj

theorem checkCycles_ends (hids : (queue.entries.map (·.id)).Nodup)
    (h : queue.checkCycles = .ok ()) :
    ∀ i < queue.entries.length, Lib.ColouredDfs.Ends queue.links i := by
  rw [QueueToml.checkCycles] at h
  cases hfind : Lib.ColouredDfs.findCycle queue.links (List.range queue.entries.length) with
  | error c => simp [hfind] at h
  | ok colour =>
    have hclosed : ∀ k ∈ List.range queue.entries.length, ∀ n ∈ queue.links k,
        n ∈ List.range queue.entries.length := by
      intro k _ n hn
      obtain ⟨a, b, -, hb, -⟩ := (edge_iff hids).mp hn
      exact List.mem_range.mpr (List.getElem?_eq_some_iff.mp hb).1
    intro i hi
    exact Lib.ColouredDfs.findCycle_ok hclosed hfind i (List.mem_range.mpr hi)

/-- A reported row lies on a cycle of links. -/
theorem checkCycles_error (hids : (queue.entries.map (·.id)).Nodup) {refusal : QueueRefusal}
    (h : queue.checkCycles = .error refusal) :
    ∃ e ∈ queue.entries, refusal = .linkCycle e.id ∧ Relation.TransGen queue.LinkTo e e := by
  rw [QueueToml.checkCycles] at h
  cases hfind : Lib.ColouredDfs.findCycle queue.links (List.range queue.entries.length) with
  | ok colour => simp [hfind] at h
  | error c =>
    obtain ⟨a, b, ha, hb, hcycle⟩ :=
      linkTo_of_edges hids (Lib.ColouredDfs.findCycle_error hfind)
    obtain rfl : a = b := Option.some.inj (ha.symm.trans hb)
    simp only [hfind, ha, Option.map_some, Option.getD_some, Except.error.injEq] at h
    exact ⟨a, List.mem_of_getElem? ha, h.symm, hcycle⟩

theorem checkCycles_ok_iff (hids : (queue.entries.map (·.id)).Nodup) :
    queue.checkCycles = .ok () ↔ ∀ e, ¬ Relation.TransGen queue.LinkTo e e := by
  constructor
  · intro h e hcycle
    obtain ⟨b, ⟨he, -, -⟩, -⟩ := Relation.TransGen.head'_iff.mp hcycle
    obtain ⟨i, hi⟩ := List.mem_iff_getElem?.mp he
    have hends := checkCycles_ends hids h i (List.getElem?_eq_some_iff.mp hi).1
    refine Lib.ColouredDfs.not_transGen_of_acc (acc_of_ends hids hends hi) ?_
    exact Relation.transGen_swap.mp hcycle
  · intro hacyclic
    cases hcheck : queue.checkCycles with
    | ok _ => rfl
    | error refusal =>
      obtain ⟨e, -, -, hcycle⟩ := checkCycles_error hids hcheck
      exact absurd hcycle (hacyclic e)

end links

/-! ### The whole check -/

theorem repoOf_isSome {queue : QueueToml} {name : String} :
    (queue.repoOf name).isSome = true ↔ ∃ p ∈ queue.projects, p.name = name := by
  rw [QueueToml.repoOf, collect_isSome, List.map_map, List.mem_map]
  rfl

section validate

variable {queue : QueueToml} {archive : QueueArchiveToml}

theorem checkLanes_error {seen : Bool} {es : List Entry} {refusal : QueueRefusal}
    (h : checkLanes seen es = .error refusal) : ∃ e ∈ es, refusal = .laneMismatch e.id := by
  induction es generalizing seen with
  | nil => cases h
  | cons e es ih =>
    rw [checkLanes] at h
    split at h
    · exact ⟨e, List.mem_cons_self, (Except.error.inj h).symm⟩
    · split at h
      · exact ⟨e, List.mem_cons_self, (Except.error.inj h).symm⟩
      · obtain ⟨e', he', hrefusal⟩ := ih h
        exact ⟨e', List.mem_cons_of_mem _ he', hrefusal⟩

theorem checkIds_error {seen ids : List String} {refusal : QueueRefusal}
    (h : checkIds seen ids = .error refusal) : ∃ id ∈ ids, refusal = .exists id := by
  induction ids generalizing seen with
  | nil => cases h
  | cons id ids ih =>
    rw [checkIds] at h
    split at h
    · exact ⟨id, List.mem_cons_self, (Except.error.inj h).symm⟩
    · obtain ⟨id', hid', hrefusal⟩ := ih h
      exact ⟨id', List.mem_cons_of_mem _ hid', hrefusal⟩

theorem checkLinks_error {live : String → Option Nat} {done : List String} {es : List Entry}
    {refusal : QueueRefusal} (h : checkLinks live done es = .error refusal) :
    ∃ e ∈ es, ∃ link ∈ e.after, refusal = .unknownId link := by
  induction es with
  | nil => cases h
  | cons e es ih =>
    rw [checkLinks] at h
    cases hun : unresolved live done e.after with
    | cons link rest =>
      simp only [hun, Except.error.injEq] at h
      have hlink : link ∈ unresolved live done e.after := by
        rw [hun]
        exact List.mem_cons_self
      exact ⟨e, List.mem_cons_self, link, List.mem_of_mem_filter hlink, h.symm⟩
    | nil =>
      simp only [hun] at h
      obtain ⟨e', he', link, hlink, hrefusal⟩ := ih h
      exact ⟨e', List.mem_cons_of_mem _ he', link, hlink, hrefusal⟩

theorem checkStarted_error {repoOf : String → Option String} {started : List String}
    {es : List Entry} {refusal : QueueRefusal} (h : checkStarted repoOf started es = .error refusal) :
    ∃ e ∈ es, refusal = .unknownProject e.project ∨ refusal = .started e.id := by
  induction es generalizing started with
  | nil => cases h
  | cons e es ih =>
    rw [checkStarted] at h
    have hrest {started : List String} (h : checkStarted repoOf started es = .error refusal) :
        ∃ e' ∈ e :: es, refusal = .unknownProject e'.project ∨ refusal = .started e'.id := by
      obtain ⟨e', he', hrefusal⟩ := ih h
      exact ⟨e', List.mem_cons_of_mem _ he', hrefusal⟩
    cases hrepo : repoOf e.project with
    | none =>
      simp only [hrepo, Except.error.injEq] at h
      exact ⟨e, List.mem_cons_self, Or.inl h.symm⟩
    | some repo =>
      simp only [hrepo] at h
      split at h
      · split at h
        · exact ⟨e, List.mem_cons_self, Or.inr (Except.error.inj h).symm⟩
        · exact hrest h
      · exact hrest h

theorem validate_ok_iff_checks :
    queue.validate archive = .ok () ↔
      checkLanes false queue.entries = .ok () ∧ checkIds [] (queue.allIds archive) = .ok () ∧
      checkLinks queue.live archive.doneIds queue.entries = .ok () ∧
      queue.checkCycles = .ok () ∧ checkStarted queue.repoOf [] queue.entries = .ok () := by
  simp only [QueueToml.validate, Lib.bind_ok_iff]
  constructor
  · rintro ⟨⟨⟩, hlanes, ⟨⟩, hids, ⟨⟩, hlinks, ⟨⟩, hcycles, hstarted⟩
    exact ⟨hlanes, hids, hlinks, hcycles, hstarted⟩
  · rintro ⟨hlanes, hids, hlinks, hcycles, hstarted⟩
    exact ⟨(), hlanes, (), hids, (), hlinks, (), hcycles, hstarted⟩

theorem liveIds_nodup (hids : checkIds [] (queue.allIds archive) = .ok ()) :
    (queue.entries.map (·.id)).Nodup :=
  (List.nodup_append.mp (checkIds_ok_iff.mp hids).1).1

theorem validate_ok_iff : queue.validate archive = .ok () ↔ queue.WriterInvariant archive := by
  rw [validate_ok_iff_checks]
  constructor
  · rintro ⟨hlanes, hids, hlinks, hcycles, hstarted⟩
    have hnodup := liveIds_nodup hids
    obtain ⟨hrestack, -, hpairs⟩ := checkLanes_ok_iff.mp hlanes
    obtain ⟨hprojects, hone⟩ := checkStarted_ok_iff.mp hstarted
    refine
      { urgentFirst := hpairs
        restackUrgent := hrestack
        idsDistinct := (checkIds_ok_iff.mp hids).1
        linksResolve := ?_
        linksAcyclic := (checkCycles_ok_iff hnodup).mp hcycles
        projectsExist := fun e he => repoOf_isSome.mp (hprojects e he)
        oneStarted := ?_ }
    · intro e he id hid
      exact (checkLinks_ok_iff.mp hlinks e he id hid).imp_left live_isSome.mp
    · intro repo
      have := hone repo
      rwa [if_neg (List.not_mem_nil), Nat.zero_add] at this
  · intro hinv
    have hids : checkIds [] (queue.allIds archive) = .ok () :=
      checkIds_ok_iff.mpr ⟨hinv.idsDistinct, fun _ _ => List.not_mem_nil⟩
    refine ⟨checkLanes_ok_iff.mpr ⟨hinv.restackUrgent, by simp, hinv.urgentFirst⟩, hids, ?_,
      (checkCycles_ok_iff (liveIds_nodup hids)).mpr hinv.linksAcyclic, ?_⟩
    · refine checkLinks_ok_iff.mpr fun e he id hid => ?_
      exact (hinv.linksResolve e he id hid).imp_left live_isSome.mpr
    · refine checkStarted_ok_iff.mpr ⟨fun e he => ?_, fun repo => ?_⟩
      · exact repoOf_isSome.mpr (hinv.projectsExist e he)
      · rw [if_neg (List.not_mem_nil), Nat.zero_add]
        exact hinv.oneStarted repo

/-- A refused list has a row on a cycle where the refusal says so. -/
theorem validate_linkCycle {id : String} (h : queue.validate archive = .error (.linkCycle id)) :
    ∃ e ∈ queue.entries, e.id = id ∧ Relation.TransGen queue.LinkTo e e := by
  simp only [QueueToml.validate, Lib.bind_error_iff] at h
  rcases h with h | ⟨⟨⟩, -, h | ⟨⟨⟩, hids, h | ⟨⟨⟩, -, h | ⟨⟨⟩, -, h⟩⟩⟩⟩
  · obtain ⟨e, -, hne⟩ := checkLanes_error h
    cases hne
  · obtain ⟨e, -, hne⟩ := checkIds_error h
    cases hne
  · obtain ⟨e, -, link, -, hne⟩ := checkLinks_error h
    cases hne
  · obtain ⟨e, he, hrefusal, hcycle⟩ := checkCycles_error (liveIds_nodup hids) h
    exact ⟨e, he, (QueueRefusal.linkCycle.inj hrefusal).symm, hcycle⟩
  · obtain ⟨e, -, hne | hne⟩ := checkStarted_error h <;> cases hne

/-- Some row of an accepted list that is not empty waits for no live row. -/
theorem exists_unlinked (hvalid : queue.validate archive = .ok ()) (hne : queue.entries ≠ []) :
    ∃ e ∈ queue.entries, ∀ id ∈ e.after, id ∈ archive.doneIds := by
  obtain ⟨-, hids, hlinks, hcycles, -⟩ := validate_ok_iff_checks.mp hvalid
  have hnodup := liveIds_nodup hids
  have hends := checkCycles_ends hnodup hcycles 0 (List.length_pos_iff.mpr hne)
  obtain ⟨i, hpath, hsink⟩ := hends.exists_sink
  have hi : i < queue.entries.length := by
    rcases Relation.ReflTransGen.cases_tail hpath with rfl | ⟨j, -, hedge⟩
    · exact List.length_pos_iff.mpr hne
    · obtain ⟨a, b, -, hb, -⟩ := (edge_iff hnodup).mp hedge
      exact (List.getElem?_eq_some_iff.mp hb).1
  have he : queue.entries[i]? = some queue.entries[i] := List.getElem?_eq_getElem hi
  have hmem : queue.entries[i] ∈ queue.entries := List.getElem_mem hi
  refine ⟨queue.entries[i], hmem, fun id hid => ?_⟩
  rcases checkLinks_ok_iff.mp hlinks _ hmem id hid with hlive | hdone
  · obtain ⟨j, hj⟩ := Option.isSome_iff_exists.mp hlive
    have : j ∈ queue.links i := by
      rw [QueueToml.links, he]
      exact List.mem_filterMap.mpr ⟨id, hid, hj⟩
    rw [hsink] at this
    cases this
  · exact hdone

end validate

/-- **The check is exactly the writer invariants**: it accepts a list where they
hold, a link cycle it reports is one, and links alone never hold up every row. -/
theorem validate_exact (queue : QueueToml) (archive : QueueArchiveToml) :
    (queue.validate archive = .ok () ↔ queue.WriterInvariant archive) ∧
    (∀ id, queue.validate archive = .error (.linkCycle id) →
      ∃ e ∈ queue.entries, e.id = id ∧ Relation.TransGen queue.LinkTo e e) ∧
    (queue.validate archive = .ok () → queue.entries ≠ [] →
      ∃ e ∈ queue.entries, ∀ id ∈ e.after, id ∈ archive.doneIds) := by
  refine ⟨validate_ok_iff, ?_, ?_⟩
  · intro id h
    exact validate_linkCycle h
  · intro hvalid hne
    exact exists_unlinked hvalid hne

/-- A queued task of the tests' one project. -/
def taskRow (id : String) (after : List String) : Entry :=
  ⟨id, .task, id, "softfig", .normal, .queued, after, "2026-10-11T09:00:00Z", "fix/" ++ id,
    "", "", "", 0, none⟩

example :
    QueueToml.validate ⟨[⟨"softfig", "~/codebase/main", "main"⟩],
      [taskRow "a" ["b"], taskRow "b" ["a"]]⟩ ⟨[]⟩ = .error (.linkCycle "a") := by
  decide +kernel

/-! ### Slice orders -/

/-- A slice counts follow-ups, a sub-milestone none. -/
def SliceItem.WellShaped (item : SliceItem) : Prop :=
  item.kind = .slice ↔ item.followUps.isSome = true

theorem checkItems_ok_iff {seen : List String} {items : List SliceItem} :
    checkItems seen items = .ok () ↔
      (items.map (·.id)).Nodup ∧ (∀ item ∈ items, item.id ∉ seen) ∧
      ∀ item ∈ items, item.WellShaped := by
  induction items generalizing seen with
  | nil => simp [checkItems]
  | cons item items ih =>
    obtain ⟨kind, id, status, followUps⟩ := item
    rw [checkItems, List.map_cons, List.nodup_cons, List.forall_mem_cons, List.forall_mem_cons]
    by_cases hid : id ∈ seen
    · simp [hid]
    · have hrest : checkItems (id :: seen) items = .ok () ↔
          (id ∉ items.map (·.id) ∧ (items.map (·.id)).Nodup) ∧
          (∀ item ∈ items, item.id ∉ seen) ∧ ∀ item ∈ items, item.WellShaped := by
        rw [ih]
        simp only [List.mem_cons, not_or, List.mem_map, not_exists, not_and]
        constructor
        · rintro ⟨hnodup, hfresh, hshape⟩
          exact ⟨⟨fun x hx => (hfresh x hx).1, hnodup⟩, fun x hx => (hfresh x hx).2, hshape⟩
        · rintro ⟨⟨hnotin, hnodup⟩, hfresh, hshape⟩
          exact ⟨hnodup, fun x hx => ⟨hnotin x hx, hfresh x hx⟩, hshape⟩
      rw [if_neg hid]
      cases kind <;> cases followUps <;> simp [SliceItem.WellShaped, hid, hrest]

/-- A slice order is accepted where it names its folder, its ids differ and each
item has the shape of its kind. -/
theorem SlicesToml.validate_ok_iff {slices : SlicesToml} {expected : String} :
    slices.validate expected = .ok () ↔
      slices.milestone = expected ∧ (slices.items.map (·.id)).Nodup ∧
      ∀ item ∈ slices.items, item.WellShaped := by
  rw [SlicesToml.validate]
  by_cases hname : slices.milestone = expected
  · simp [hname, checkItems_ok_iff]
  · simp [hname]

end Softfig.Queue
