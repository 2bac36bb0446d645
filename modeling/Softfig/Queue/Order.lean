import Softfig.Queue.Identities

/-!
The order of work that has started.

Human verbs put rows where they like until the work starts; what they may still
re-order afterwards is a lane change of an entry and an item that is parked.

- `ItemsStep.keeps`: an edit of a slice order moves no item that is active, done or
  split;
- `started_order_kept`: through every run, the order of started items, and of
  entries that no update gives another lane or a position.
-/

namespace Softfig.Queue

open Lib

/-! ### Started items -/

/-- An item that runs or ran. -/
def SliceStatus.isStarted : SliceStatus → Bool
  | .active | .done | .split => true
  | .queued | .blocked | .deferred => false

/-- The item of a slice order is started. -/
def Garden.Started (g : Garden) (milestone id : String) : Prop :=
  ∃ dir ∈ g.milestones.lookup milestone, ∃ item ∈ Rows.row? (·.id) id dir.slices.items,
    item.status.isStarted = true

instance (g : Garden) (milestone id : String) : Decidable (g.Started milestone id) := by
  unfold Garden.Started
  infer_instance

section items

variable {id : String} {items items' : List SliceItem}

/-- A move is of an item that is not started. -/
theorem moveItem_keeps {position : Option Position} (h : moveItem id position items = .ok items') :
    Rows.Keeps (·.id) (fun k => k = id ∧ position.isSome = true ∧ ∃ item,
      Rows.row? (·.id) id items = some item ∧ item.status.isStarted = false) items items' := by
  unfold moveItem at h
  split at h
  · rename_i position item hitem
    simp only [bind_ok_iff, ensure_ok_iff, refuse_ok_iff] at h
    obtain ⟨⟨⟩, -, ⟨⟩, ⟨hactive, hdone, hsplit⟩, i, -, h⟩ := h
    obtain rfl := Except.ok.inj h
    have hidle : item.status.isStarted = false := by
      cases hstatus : item.status with
      | active => exact absurd hstatus hactive
      | done => exact absurd hstatus hdone
      | split => exact absurd hstatus hsplit
      | queued => rfl
      | blocked => rfl
      | deferred => rfl
    exact (Rows.Keeps.erase.mono fun k hk => ⟨hk, rfl, item, hitem, hidle⟩).trans .insertIdx
  · obtain rfl := Except.ok.inj h
    exact .of_keys_eq rfl

theorem setItemStatus_keys {status : Option SliceStatus}
    (h : setItemStatus id status items = .ok items') :
    items'.map (·.id) = items.map (·.id) := by
  unfold setItemStatus at h
  split at h
  · obtain rfl := Except.ok.inj h
    rfl
  · cases h
  · cases h
  · obtain rfl := Except.ok.inj h
    exact Rows.map_modify fun _ => rfl
  · obtain rfl := Except.ok.inj h
    exact Rows.map_modify fun _ => rfl
  · obtain rfl := Except.ok.inj h
    exact Rows.map_modify fun _ => rfl
  · obtain rfl := Except.ok.inj h
    exact Rows.map_modify fun _ => rfl

/-- No edit moves a started item. -/
theorem ItemsStep.keeps {g : Garden} {op : Op} {milestone : String}
    (h : ItemsStep g op milestone items items') :
    Rows.Keeps (·.id) (fun k => ∃ item, Rows.row? (·.id) k items = some item ∧
      item.status.isStarted = false) items items' := by
  cases h with
  | update _ _ _ hmove hstatus =>
    refine ((moveItem_keeps hmove).mono ?_).trans (.of_keys_eq (setItemStatus_keys hstatus))
    rintro k ⟨rfl, -, hitem⟩
    exact hitem
  | claim hclaim =>
    obtain ⟨item, -, -, ⟨-, rfl⟩ | ⟨-, rfl⟩⟩ := claimItem_ok hclaim
    · exact .of_keys_eq (Rows.map_modify fun _ => rfl)
    · exact .of_keys_eq rfl
  | setStatus => exact .of_keys_eq (Rows.map_modify (setStatus_id _))
  | followUps => exact .of_keys_eq (Rows.map_modify fun _ => rfl)
  | split _ hsplit =>
    obtain ⟨item, p, -, -, -, -, rfl⟩ := splitItems_ok hsplit
    refine Rows.Keeps.trans ?_ .insertIdx
    exact .of_keys_eq (Rows.map_modify fun _ => rfl)

end items

/-- A request moves no started item of a folder. -/
theorem DirStep.keeps {g : Garden} {op : Op} {milestone : String} {dir : MilestoneDir}
    {dir' : Option MilestoneDir} (h : DirStep g op milestone (some dir) dir') :
    ∃ d, dir' = some d ∧ Rows.Keeps (·.id) (fun k => ∃ item,
      Rows.row? (·.id) k dir.slices.items = some item ∧ item.status.isStarted = false)
      dir.slices.items d.slices.items := by
  cases h with
  | same => exact ⟨dir, rfl, .of_keys_eq rfl⟩
  | items _ hitems _ => exact ⟨_, rfl, hitems.keeps⟩
  | insert => exact ⟨_, rfl, .insertIdx⟩

/-! ### Orders through runs -/

/-- Two items of a slice order stand in an order. -/
def Garden.ItemsOrdered (g : Garden) (milestone x y : String) : Prop :=
  ∃ dir, g.milestones.lookup milestone = some dir ∧ [x, y].Sublist (dir.slices.items.map (·.id))

/-- Two entries stand in an order. -/
def Garden.EntriesOrdered (g : Garden) (x y : String) : Prop :=
  [x, y].Sublist (g.queueToml.entries.map (·.id))

theorem itemsOrdered_step {op : Op} {g g' : Garden} (hdirs : DirsStep op g g')
    {milestone x y : String} (hx : g.Started milestone x) (hy : g.Started milestone y)
    (h : g.ItemsOrdered milestone x y) : g'.ItemsOrdered milestone x y := by
  obtain ⟨dir, hdir, hxy⟩ := h
  have hstep := hdirs milestone
  rw [hdir] at hstep
  obtain ⟨d, hd, hkeeps⟩ := hstep.keeps
  have hstill {z : String} (hz : g.Started milestone z) : ¬ ∃ item,
      Rows.row? (·.id) z dir.slices.items = some item ∧ item.status.isStarted = false := by
    obtain ⟨dir₀, hdir₀, item, hitem, hstarted⟩ := hz
    obtain rfl : dir₀ = dir := Option.some.inj (hdir₀.symm.trans hdir)
    rintro ⟨item', hitem', hidle⟩
    obtain rfl : item = item' := Option.some.inj (hitem.symm.trans hitem')
    rw [hstarted] at hidle
    cases hidle
  exact ⟨d, hd, hkeeps x y (hstill hx) (hstill hy) hxy⟩

theorem itemsOrdered_run {milestone x y : String} {g g' : Garden} {ops : List Op}
    (hrun : queueSystem.Guarded (fun g _ => g.Started milestone x ∧ g.Started milestone y) g ops g')
    (h : g.ItemsOrdered milestone x y) : g'.ItemsOrdered milestone x y := by
  induction hrun with
  | refl => exact h
  | snoc _ hguard hstep ih =>
    exact itemsOrdered_step (apply_dirs (queueSystem_step.mp hstep)) hguard.1 hguard.2 ih

/-- A live id was live before, or is none the two files knew. -/
theorem live_back {op : Op} {g g' : Garden} (hstep : QueueStep op g g') {x : String}
    (hknown : x ∈ g.queueToml.allIds g.archiveToml)
    (hlive : x ∈ g'.queueToml.entries.map (·.id)) : x ∈ g.queueToml.entries.map (·.id) := by
  rcases mem_allIds.mp hknown with ⟨e, he, rfl⟩ | ⟨a, ha, hid⟩
  · exact List.mem_map_of_mem he
  · obtain ⟨moved, harchive, -, -⟩ := hstep.rows.archived
    refine absurd hlive (archived_not_live hstep.valid ?_ hid)
    rw [harchive]
    exact List.mem_append_left _ ha

/-- Entries that no update moves keep their order while they are live. -/
theorem entriesOrdered_run {x y : String} {g g' : Garden} {ops : List Op}
    (hreach : queueSystem.Reachable g)
    (hrun : queueSystem.Guarded (fun g op => ¬ op.Moves g x ∧ ¬ op.Moves g y) g ops g')
    (h : g.EntriesOrdered x y) (hx : x ∈ g'.queueToml.entries.map (·.id))
    (hy : y ∈ g'.queueToml.entries.map (·.id)) : g'.EntriesOrdered x y := by
  have hids : ∀ z ∈ [x, y], z ∈ g.queueToml.allIds g.archiveToml := fun z hz =>
    List.mem_append_left _ (h.subset hz)
  induction hrun with
  | refl => exact h
  | @snoc t r labels label hbefore hguard hstep ih =>
    have hrun := hbefore.run
    have ht := hreach.run hrun
    have hqueue := apply_rows (valid_of_reachable ht) (queueSystem_step.mp hstep)
    have hknown (z : String) (hz : z ∈ [x, y]) : z ∈ t.queueToml.allIds t.archiveToml :=
      mem_allIds_run (queueInvariant_of_reachable hreach) hrun (hids z hz)
    have hx' := live_back hqueue (hknown x List.mem_cons_self) hx
    have hy' := live_back hqueue (hknown y (List.mem_cons_of_mem _ List.mem_cons_self)) hy
    refine hqueue.order x y ?_ ?_ (ih hx' hy')
    · rintro (hmoves | hgone)
      · exact hguard.1 hmoves
      · exact hgone hx
    · rintro (hmoves | hgone)
      · exact hguard.2 hmoves
      · exact hgone hy

/-! ### Refused moves -/

/-- A started item is given no position. -/
theorem sliceUpdate_refused {g g' : Garden} {args : SliceUpdateArgs}
    (hmove : args.moveSpec.isSome = true) (hstarted : g.Started args.milestone args.id) :
    sliceUpdate g args ≠ .ok g' := by
  intro h
  simp only [sliceUpdate, bind_ok_iff, ensure_ok_iff, expect_ok_iff] at h
  obtain ⟨⟨⟩, -, ⟨⟩, -, position, hposition, loaded, hload, slices, rfl, ⟨⟩, -, moved, hmoved, -⟩ := h
  obtain ⟨dir, hdir, rfl, -⟩ := Garden.loadSlices_some hload
  obtain ⟨dir₀, hdir₀, item, hitem, hstatus⟩ := hstarted
  obtain rfl : dir₀ = dir := Option.some.inj (hdir₀.symm.trans hdir)
  have hitem' : Rows.row? (·.id) args.id dir₀.slices.items = some item := hitem
  rw [← parseMove_isSome hposition] at hmove
  obtain ⟨place, rfl⟩ := Option.isSome_iff_exists.mp hmove
  simp only [moveItem, hitem', bind_ok_iff, ensure_ok_iff] at hmoved
  obtain ⟨⟨⟩, -, ⟨⟩, ⟨hactive, hdone, hsplit⟩, -⟩ := hmoved
  cases hcase : item.status with
  | active => exact hactive hcase
  | done => exact hdone hcase
  | split => exact hsplit hcase
  | queued => simp [SliceStatus.isStarted, hcase] at hstatus
  | blocked => simp [SliceStatus.isStarted, hcase] at hstatus
  | deferred => simp [SliceStatus.isStarted, hcase] at hstatus

/-- A row whose claim is recorded is given no position. -/
theorem updateEntry_refused {g g' : Garden} {args : QueueUpdateEntryArgs} {now : String}
    (hmove : args.moveSpec.isSome = true)
    (hclaimed : ∃ row ∈ g.queueToml.entries, row.id = args.id ∧ row.claimed ≠ "") :
    queueUpdateEntry g args now ≠ .ok g' := by
  intro h
  simp only [queueUpdateEntry, bind_ok_iff, ensure_ok_iff, expect_ok_iff] at h
  obtain ⟨⟨⟩, -, position, hposition, state, hload, ⟨queue, archive⟩, rfl, ⟨⟩, -, rows₁, hlane,
    rows₂, hmoved, -⟩ := h
  obtain ⟨rfl, -, hvalid⟩ := loadQueueState_toml hload
  have hkeys := liveIds_nodup_of_valid hvalid
  have h₁ := updateLane_ok hkeys hlane
  obtain ⟨row, hrow, hid, hne⟩ := hclaimed
  have hmem : { row with lane := args.lane.getD row.lane } ∈ rows₁ :=
    (h₁.mem _).mpr (Or.inr ⟨row, hrow, hid, rfl⟩)
  have hfind : Rows.row? (·.id) args.id rows₁ =
      some { row with lane := args.lane.getD row.lane } := by
    rw [← hid]
    exact Rows.row?_of_mem (h₁.keys.nodup_iff.mpr hkeys) hmem
  rw [← parseMove_isSome hposition] at hmove
  obtain ⟨place, rfl⟩ := Option.isSome_iff_exists.mp hmove
  simp only [updateMove, hfind, bind_ok_iff, ensure_ok_iff] at hmoved
  obtain ⟨⟨⟩, -, ⟨⟩, hclaimed, -⟩ := hmoved
  exact hne hclaimed

/-- A milestone whose first slice is done and whose second runs, and a task. -/
def startedOps : List Op :=
  [.queueAddProject ⟨"app", "r", none, false⟩,
    .queueAddEntry ⟨none, .milestone, some "m", some "M", some "x", some "y", "app", none, [], none,
      none, [⟨"a", none, "body"⟩, ⟨"b", none, "body"⟩], false⟩ "t0",
    .queueAddEntry ⟨none, .task, some "fix", some "Fix", some "x", some "y", "app", none, [], none,
      none, [], false⟩ "t1",
    .claim "m" (some "001"), .setStatus "m" (some "001") .done "t2", .claim "m" (some "002")]

/-- A slice put in front of them. -/
def frontOp : Op := .sliceInsert ⟨"m", "next", "body", some "front", none, false⟩

/-- A list whose only row has its claim recorded. -/
def claimedGarden : Garden :=
  ⟨some ⟨[⟨"app", "r", "main"⟩],
    [{ newEntry "001" .task "Fix" "app" .normal [] "fix/001" "t0" with claimed := "t1" }]⟩,
    none, ∅, ⟨1, []⟩⟩

/-- Two tasks of two repos, the second claimed. -/
def claimedOps : List Op :=
  [.queueAddProject ⟨"app", "r1", none, false⟩, .queueAddProject ⟨"web", "r2", none, false⟩,
    .queueAddEntry ⟨none, .task, some "one", some "One", some "x", some "y", "app", none, [], none,
      none, [], false⟩ "t0",
    .queueAddEntry ⟨none, .task, some "two", some "Two", some "x", some "y", "web", none, [], none,
      none, [], false⟩ "t1"]

end Softfig.Queue
