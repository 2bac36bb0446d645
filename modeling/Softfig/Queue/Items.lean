import Softfig.Queue.Entries

/-!
What the verbs and the daemon's writes do to the slice orders.

- `apply_dirs`: an accepted request leaves each milestone's folder as it is,
  edits its items in one of five ways, puts a slice in, or starts the folder.
-/

namespace Softfig.Queue

open Lib

/-! ### One request on one folder -/

/-- How a request edits the items of a slice order. -/
inductive ItemsStep (g : Garden) : Op → String → List SliceItem → List SliceItem → Prop where
  | update {args : SliceUpdateArgs} {position : Option Position}
      {items moved items' : List SliceItem} : args.dryRun = false →
      parseMove args.moveSpec = .ok position → args.id ∈ items.map (·.id) →
      moveItem args.id position items = .ok moved →
      setItemStatus args.id args.status moved = .ok items' →
      ItemsStep g (.sliceUpdate args) args.milestone items items'
  | claim {entry unit : String} {items items' : List SliceItem} :
      claimItem unit items = .ok items' → ItemsStep g (.claim entry (some unit)) entry items items'
  | setStatus {entry unit now : String} {new : DaemonStatusArg} {status : SliceStatus}
      {item : SliceItem} {items : List SliceItem} : Rows.row? (·.id) unit items = some item →
      sliceStatusOf new = some status → checkUnitStatus g entry item status = .ok () →
      ItemsStep g (.setStatus entry (some unit) new now) entry items
        (Rows.modify (·.id) unit (SliceItem.setStatus status) items)
  | followUps {entry unit : String} {count : Nat} {item : SliceItem} {items : List SliceItem} :
      Rows.row? (·.id) unit items = some item → item.kind = .slice →
      ItemsStep g (.followUps entry (some unit) count) entry items
        (Rows.modify (·.id) unit (fun i => { i with followUps := some count }) items)
  | split {args : QueueV2AddSubArgs} {items items' : List SliceItem} :
      validateSlug args.slug = true → splitItems args.slice args.slug args.atEnd items = .ok items' →
      ItemsStep g (.addSub args) args.milestone items items'

/-- The folder of a new milestone. -/
def newDir (identity : String) (slices : List QueueSliceSpec) : MilestoneDir :=
  ⟨⟨identity, (newSlices slices).1⟩, (newSlices slices).2⟩

/-- How a request changes the folder of a milestone. -/
inductive DirStep (g : Garden) : Op → String → Option MilestoneDir → Option MilestoneDir → Prop where
  | same {op : Op} {milestone : String} {dir : Option MilestoneDir} :
      DirStep g op milestone dir dir
  | items {op : Op} {milestone : String} {dir : MilestoneDir} {items : List SliceItem} :
      dir.slices.validate milestone = .ok () → ItemsStep g op milestone dir.slices.items items →
      SlicesToml.validate { dir.slices with items } milestone = .ok () →
      DirStep g op milestone (some dir) (some { dir with slices := { dir.slices with items } })
  | insert {args : SliceInsertArgs} {dir : MilestoneDir} {position : Position} {i : Nat} :
      args.dryRun = false → validateSlug args.slug = true →
      parsePosition args.position args.ref = .ok position →
      dir.slices.validate args.milestone = .ok () →
      placeItem dir.slices.items position = .ok i →
      SlicesToml.validate { dir.slices with
        items := dir.slices.items.insertIdx i (sliceItem dir.docs.nextNumber) }
        args.milestone = .ok () →
      DirStep g (.sliceInsert args) args.milestone (some dir)
        (some ⟨{ dir.slices with
            items := dir.slices.items.insertIdx i (sliceItem dir.docs.nextNumber) },
          dir.docs.write dir.docs.nextNumber [noteFilename dir.docs.nextNumber args.slug]⟩)
  | milestone {args : QueueAddEntryArgs} {slug now : String} :
      args.kind = .milestone → args.slug = some slug → validateSlug slug = true →
      DirStep g (.queueAddEntry args now) slug none (some (newDir slug args.slices))
  | sub {args : QueueV2AddSubArgs} : validateSlug args.slug = true →
      DirStep g (.addSub args) (args.milestone ++ "/" ++ args.slug) none
        (some (newDir (args.milestone ++ "/" ++ args.slug) args.slices))

/-! ### Folders looked up after a write -/

section lookup

variable {g : Garden}

theorem lookup_writeSlices {milestone m : String} {slices : SlicesToml} {dir : MilestoneDir}
    (hdir : g.milestones.lookup milestone = some dir) :
    (g.writeSlices milestone slices).milestones.lookup m =
      if m = milestone then some { dir with slices } else g.milestones.lookup m := by
  simp only [Garden.writeSlices, hdir]
  split
  · rename_i h
    rw [h, AList.lookup_insert]
  · rename_i h
    rw [AList.lookup_insert_ne h]

theorem lookup_writeSlice {milestone m file : String} {slices : SlicesToml} {number : Nat}
    {dir : MilestoneDir} (hdir : g.milestones.lookup milestone = some dir) :
    (g.writeSlice milestone slices number file).milestones.lookup m =
      if m = milestone then some ⟨slices, dir.docs.write number [file]⟩
      else g.milestones.lookup m := by
  simp only [Garden.writeSlice, hdir]
  split
  · rename_i h
    rw [h, AList.lookup_insert]
  · rename_i h
    rw [AList.lookup_insert_ne h]

theorem lookup_writeMilestone {identity m : String} {slices : List QueueSliceSpec} :
    (g.writeMilestone identity slices).milestones.lookup m =
      if m = identity then some (newDir identity slices) else g.milestones.lookup m := by
  show (g.milestones.insert identity _).lookup m = _
  split
  · rename_i h
    rw [h, AList.lookup_insert]
    rfl
  · rename_i h
    rw [AList.lookup_insert_ne h]

end lookup

/-! ### The step of each request -/

/-- What an accepted request leaves of the folders. -/
def DirsStep (op : Op) (g g' : Garden) : Prop :=
  ∀ m, DirStep g op m (g.milestones.lookup m) (g'.milestones.lookup m)

section step

variable {g g' : Garden}

theorem DirsStep.of_eq {op : Op} (h : g'.milestones = g.milestones) : DirsStep op g g' := by
  intro m
  rw [h]
  exact .same

theorem required_ok {text : Option String} {field value : String}
    (h : required text field = .ok value) : text = some value ∧ isBlank value = false := by
  rw [required, expect_ok_iff, Option.filter_eq_some_iff] at h
  obtain ⟨htext, hblank⟩ := h
  exact ⟨htext, by simpa using hblank⟩

theorem dirsStep_addEntry {args : QueueAddEntryArgs} {now : String}
    (h : queueAddEntry g args now = .ok g') : DirsStep (.queueAddEntry args now) g g' := by
  unfold queueAddEntry at h
  split at h
  · cases h
  · split at h
    · rename_i hkind
      simp only [addMilestone, bind_ok_iff, ensure_ok_iff] at h
      obtain ⟨slug, hslug, title, -, -, -, -, -, ⟨⟩, hvalid, position, -, ⟨⟩, -, ⟨⟩, hfresh, loaded,
        -, queue, -, h⟩ := h
      rcases commit_cases (Except.ok.inj h) with ⟨-, rfl⟩ | ⟨-, rfl⟩
      · exact .of_eq rfl
      · intro m
        rw [lookup_writeMilestone]
        split
        · rename_i hm
          rw [hm, AList.lookup_eq_none.mpr hfresh]
          exact .milestone hkind (required_ok hslug).1 hvalid
        · exact .same
    · simp only [addTask, bind_ok_iff] at h
      obtain ⟨slug, -, title, -, -, -, -, -, ⟨⟩, -, ⟨⟩, -, position, -, ⟨⟩, -, loaded, -, queue, -,
        h⟩ := h
      rcases commit_cases (Except.ok.inj h) with ⟨-, rfl⟩ | ⟨-, rfl⟩
      · exact .of_eq rfl
      · exact .of_eq rfl
    · unfold addRestack at h
      split at h
      · cases h
      · simp only [bind_ok_iff] at h
        obtain ⟨⟨⟩, -, loaded, -, made, -, ⟨⟩, -, h⟩ := h
        rcases commit_cases (Except.ok.inj h) with ⟨-, rfl⟩ | ⟨-, rfl⟩
        · exact .of_eq rfl
        · exact .of_eq rfl

/-- An edit of the items of one folder. -/
theorem DirsStep.writeSlices {op : Op} {milestone : String} {dir : MilestoneDir}
    {items : List SliceItem} (hdir : g.milestones.lookup milestone = some dir)
    (hvalid : dir.slices.validate milestone = .ok ())
    (hitems : ItemsStep g op milestone dir.slices.items items)
    (hvalid' : SlicesToml.validate { dir.slices with items } milestone = .ok ())
    (hg' : g'.milestones = (g.writeSlices milestone { dir.slices with items }).milestones) :
    DirsStep op g g' := by
  intro m
  rw [hg', lookup_writeSlices hdir]
  split
  · rename_i hm
    rw [hm, hdir]
    exact .items hvalid hitems hvalid'
  · exact .same

theorem dirsStep_sliceInsert {args : SliceInsertArgs} (h : sliceInsert g args = .ok g') :
    DirsStep (.sliceInsert args) g g' := by
  simp only [sliceInsert, bind_ok_iff, ensure_ok_iff, refuse_ok_iff, expect_ok_iff] at h
  obtain ⟨⟨⟩, hslug, ⟨⟩, -, ⟨⟩, -, ⟨⟩, -, position, hposition, loaded, hload, slices, rfl, ⟨⟩, -, i,
    hplace, ⟨⟩, hvalid', h⟩ := h
  obtain ⟨dir, hdir, rfl, hvalid⟩ := Garden.loadSlices_some hload
  have hdocs : g.sliceDocs args.milestone = dir.docs := by
    rw [Garden.sliceDocs, hdir]
    rfl
  rw [hdocs] at hvalid' h
  rcases commit_cases (Except.ok.inj h) with ⟨-, rfl⟩ | ⟨hdry, rfl⟩
  · exact .of_eq rfl
  · intro m
    rw [lookup_writeSlice hdir]
    split
    · rename_i hm
      rw [hm, hdir]
      exact .insert hdry hslug hposition hvalid hplace hvalid'
    · exact .same

theorem dirsStep_sliceUpdate {args : SliceUpdateArgs} (h : sliceUpdate g args = .ok g') :
    DirsStep (.sliceUpdate args) g g' := by
  simp only [sliceUpdate, bind_ok_iff, ensure_ok_iff, expect_ok_iff] at h
  obtain ⟨⟨⟩, -, ⟨⟩, -, position, hposition, loaded, hload, slices, rfl, ⟨⟩, hid, moved, hmove, items,
    hstatus, h⟩ := h
  obtain ⟨dir, hdir, rfl, hvalid⟩ := Garden.loadSlices_some hload
  split at h
  · obtain rfl := Except.ok.inj h
    exact .of_eq rfl
  · simp only [bind_ok_iff, refuse_ok_iff] at h
    obtain ⟨⟨⟩, hvalid', h⟩ := h
    rcases commit_cases (Except.ok.inj h) with ⟨-, rfl⟩ | ⟨hdry, rfl⟩
    · exact .of_eq rfl
    · exact .writeSlices hdir hvalid (.update hdry hposition hid hmove hstatus) hvalid' rfl

/-- A claim keeps ids and shapes. -/
theorem claimItem_ok {unit : String} {items items' : List SliceItem}
    (h : claimItem unit items = .ok items') : ∃ item, Rows.row? (·.id) unit items = some item ∧
      (∀ other ∈ items, other.status = .active → other.id = unit) ∧
      (item.status = .queued ∧
          items' = Rows.modify (·.id) unit (fun i => { i with status := .active }) items ∨
        item.status = .active ∧ items' = items) := by
  simp only [claimItem, bind_ok_iff, expect_ok_iff] at h
  obtain ⟨item, hitem, h⟩ := h
  refine ⟨item, hitem, ?_⟩
  split at h
  · cases h
  · rename_i hnone
    have hactive : ∀ other ∈ items, other.status = .active → other.id = unit := by
      intro other hother hstatus
      by_contra hne
      simpa [hne, hstatus] using List.find?_eq_none.mp hnone other hother
    refine ⟨hactive, ?_⟩
    split at h
    · rename_i hstatus
      exact Or.inl ⟨hstatus, (Except.ok.inj h).symm⟩
    · rename_i hstatus
      exact Or.inr ⟨hstatus, (Except.ok.inj h).symm⟩
    · cases h

theorem validate_claimItem {milestone unit : String} {slices : SlicesToml} {items : List SliceItem}
    (hvalid : slices.validate milestone = .ok ()) (h : claimItem unit slices.items = .ok items) :
    SlicesToml.validate { slices with items } milestone = .ok () := by
  obtain ⟨item, -, -, ⟨-, rfl⟩ | ⟨-, rfl⟩⟩ := claimItem_ok h
  · obtain ⟨hname, hids, hshape⟩ := SlicesToml.validate_ok_iff.mp hvalid
    have hrows : Rows.Rewrites (·.id) unit (fun i : SliceItem => { i with status := .active })
        slices.items (Rows.modify (·.id) unit (fun i => { i with status := .active })
          slices.items) :=
      .modify hids fun _ => rfl
    refine SlicesToml.validate_ok_iff.mpr ⟨hname, hrows.keys.nodup_iff.mpr hids, ?_⟩
    exact hrows.forall_mem hshape fun item hitem _ => hshape item hitem
  · exact hvalid

theorem dirsStep_claim {entry : String} {unit : Option String}
    (h : queueV2Claim g entry unit = .ok g') : DirsStep (.claim entry unit) g g' := by
  simp only [queueV2Claim, bind_ok_iff] at h
  obtain ⟨⟨⟩, -, loaded, -, entries, -, g₁, hunit, ⟨⟩, -, h⟩ := h
  obtain rfl := Except.ok.inj h
  cases unit with
  | none =>
    obtain rfl := Except.ok.inj hunit
    exact .of_eq rfl
  | some unit =>
    simp only [claimUnit, bind_ok_iff] at hunit
    obtain ⟨⟨⟩, -, slices, hload, items, hclaim, hunit⟩ := hunit
    obtain rfl := Except.ok.inj hunit
    obtain ⟨dir, hdir, rfl, hvalid⟩ := loadSlicesOf_ok hload
    exact .writeSlices hdir hvalid (.claim hclaim) (validate_claimItem hvalid hclaim) rfl

theorem dirsStep_setStatus {entry now : String} {unit : Option String} {new : DaemonStatusArg}
    (h : queueV2SetStatus g entry unit new now = .ok g') :
    DirsStep (.setStatus entry unit new now) g g' := by
  simp only [queueV2SetStatus, bind_ok_iff] at h
  obtain ⟨⟨⟩, -, h⟩ := h
  cases unit with
  | none =>
    simp only [setEntryStatus, bind_ok_iff] at h
    obtain ⟨loaded, -, ⟨⟩, -, ⟨⟩, -, h⟩ := h
    split at h
    · simp only [bind_ok_iff] at h
      obtain ⟨⟨⟩, -, h⟩ := h
      obtain rfl := Except.ok.inj h
      exact .of_eq rfl
    · simp only [bind_ok_iff] at h
      obtain ⟨status, -, ⟨⟩, -, h⟩ := h
      obtain rfl := Except.ok.inj h
      exact .of_eq rfl
  | some unit =>
    simp only [setUnitStatus, bind_ok_iff, expect_ok_iff, refuse_ok_iff] at h
    obtain ⟨slices, hload, item, hitem, status, hstatus, ⟨⟩, hcheck, ⟨⟩, hvalid', h⟩ := h
    obtain rfl := Except.ok.inj h
    obtain ⟨dir, hdir, rfl, hvalid⟩ := loadSlicesOf_ok hload
    exact .writeSlices hdir hvalid (.setStatus hitem hstatus hcheck) hvalid' rfl

theorem dirsStep_followUps {entry : String} {unit : Option String} {count : Nat}
    (h : queueV2FollowUps g entry unit count = .ok g') :
    DirsStep (.followUps entry unit count) g g' := by
  simp only [queueV2FollowUps, bind_ok_iff] at h
  obtain ⟨⟨⟩, -, h⟩ := h
  cases unit with
  | none =>
    simp only [setEntryFollowUps, bind_ok_iff] at h
    obtain ⟨loaded, -, ⟨⟩, -, h⟩ := h
    obtain rfl := Except.ok.inj h
    exact .of_eq rfl
  | some unit =>
    simp only [setUnitFollowUps, bind_ok_iff, expect_ok_iff, ensure_ok_iff, refuse_ok_iff] at h
    obtain ⟨slices, hload, item, hitem, ⟨⟩, hkind, ⟨⟩, hvalid', h⟩ := h
    obtain rfl := Except.ok.inj h
    obtain ⟨dir, hdir, rfl, hvalid⟩ := loadSlicesOf_ok hload
    exact .writeSlices hdir hvalid (.followUps hitem hkind) hvalid' rfl

theorem dirsStep_addSub {args : QueueV2AddSubArgs} (h : queueV2AddSub g args = .ok g') :
    DirsStep (.addSub args) g g' := by
  simp only [queueV2AddSub, bind_ok_iff, ensure_ok_iff] at h
  obtain ⟨⟨⟩, -, ⟨⟩, hslug, ⟨⟩, -, ⟨⟩, -, ⟨⟩, -, h⟩ := h
  split at h
  · cases h
  · simp only [bind_ok_iff, ensure_ok_iff, refuse_ok_iff] at h
    obtain ⟨⟨⟩, hfresh, parent, hload, items, hsplit, ⟨⟩, hvalid', ⟨⟩, -, h⟩ := h
    obtain rfl := Except.ok.inj h
    obtain ⟨dir, hdir, rfl, hvalid⟩ := loadSlicesOf_ok hload
    intro m
    rw [lookup_writeMilestone]
    split
    · rename_i hm
      rw [hm, AList.lookup_eq_none.mpr hfresh]
      exact .sub hslug
    · exact DirsStep.writeSlices hdir hvalid (.split hslug hsplit) hvalid' rfl m

end step

/-- **One accepted request on the folders.** -/
theorem apply_dirs {op : Op} {g g' : Garden} (h : op.apply g = .ok g') : DirsStep op g g' := by
  cases op with
  | queueAddProject args =>
    simp only [Op.apply, queueAddProject, bind_ok_iff] at h
    obtain ⟨⟨⟩, -, ⟨⟩, -, ⟨⟩, -, loaded, -, ⟨⟩, -, h⟩ := h
    rcases commit_cases (Except.ok.inj h) with ⟨-, rfl⟩ | ⟨-, rfl⟩
    · exact .of_eq rfl
    · exact .of_eq rfl
  | queueAddEntry args now => exact dirsStep_addEntry h
  | queueUpdateEntry args now =>
    simp only [Op.apply, queueUpdateEntry, bind_ok_iff] at h
    obtain ⟨⟨⟩, -, position, -, state, -, loaded, -, ⟨⟩, -, rows₁, -, rows₂, -, rows₃, -, made, -,
      h⟩ := h
    split at h
    · obtain rfl := Except.ok.inj h
      exact .of_eq rfl
    · simp only [bind_ok_iff] at h
      obtain ⟨⟨⟩, -, h⟩ := h
      rcases commit_cases (Except.ok.inj h) with ⟨-, rfl⟩ | ⟨-, rfl⟩
      · exact .of_eq rfl
      · exact .of_eq rfl
  | sliceInsert args => exact dirsStep_sliceInsert h
  | sliceUpdate args => exact dirsStep_sliceUpdate h
  | queueDrop args order now =>
    simp only [Op.apply, queueDrop, bind_ok_iff] at h
    obtain ⟨⟨⟩, -, ⟨⟩, -, state, -, loaded, -, row, -, ⟨⟩, -, ⟨⟩, -, made, -, ⟨⟩, -, h⟩ := h
    rcases commit_cases (Except.ok.inj h) with ⟨-, rfl⟩ | ⟨-, rfl⟩
    · exact .of_eq rfl
    · exact .of_eq rfl
  | claim entry unit => exact dirsStep_claim h
  | setStatus entry unit new now => exact dirsStep_setStatus h
  | followUps entry unit count => exact dirsStep_followUps h
  | sessionLog entry line =>
    simp only [Op.apply, queueV2SessionLog, bind_ok_iff] at h
    obtain ⟨⟨⟩, -, ⟨⟩, -, loaded, -, h⟩ := h
    obtain rfl := Except.ok.inj h
    exact .of_eq rfl
  | deferred entry tests =>
    simp only [Op.apply, queueV2Deferred, bind_ok_iff] at h
    obtain ⟨⟨⟩, -, ⟨⟩, -, ⟨⟩, -, loaded, -, h⟩ := h
    obtain rfl := Except.ok.inj h
    exact .of_eq rfl
  | addSub args => exact dirsStep_addSub h

/-! ### The items after an edit -/

section edit

variable {id : String} {items items' : List SliceItem}

theorem moveItem_ok {position : Option Position} (hids : (items.map (·.id)).Nodup)
    (h : moveItem id position items = .ok items') :
    Rows.Rewrites (·.id) id (fun i => i) items items' := by
  unfold moveItem at h
  split at h
  · rename_i position item hitem
    simp only [bind_ok_iff, refuse_ok_iff] at h
    obtain ⟨⟨⟩, -, ⟨⟩, -, i, hi, h⟩ := h
    obtain rfl := Except.ok.inj h
    exact .move (f := fun i => i) hids (fun _ => rfl) hitem (placeItem_le hi)
  · obtain rfl := Except.ok.inj h
    exact .refl fun _ _ _ => rfl

/-- A human status is never `active` nor `split`. -/
theorem setItemStatus_ok {status : Option SliceStatus} (hids : (items.map (·.id)).Nodup)
    (h : setItemStatus id status items = .ok items') :
    ∃ f : SliceItem → SliceItem,
      (∀ i, (f i).kind = i.kind ∧ (f i).id = i.id ∧ (f i).status = status.getD i.status) ∧
      status ≠ some .active ∧ status ≠ some .split ∧ Rows.Rewrites (·.id) id f items items' := by
  have hset (status : SliceStatus) : ∀ i : SliceItem, ({ i with status } : SliceItem).id = i.id :=
    fun _ => rfl
  unfold setItemStatus at h
  split at h
  · obtain rfl := Except.ok.inj h
    exact ⟨fun i => i, fun _ => ⟨rfl, rfl, rfl⟩, nofun, nofun, .refl fun _ _ _ => rfl⟩
  · cases h
  · cases h
  · obtain rfl := Except.ok.inj h
    exact ⟨SliceItem.finish, fun _ => ⟨rfl, rfl, rfl⟩, nofun, nofun, .modify hids (fun _ => rfl)⟩
  · obtain rfl := Except.ok.inj h
    exact ⟨fun i => { i with status := .queued }, fun _ => ⟨rfl, rfl, rfl⟩, nofun, nofun,
      .modify hids (hset _)⟩
  · obtain rfl := Except.ok.inj h
    exact ⟨fun i => { i with status := .blocked }, fun _ => ⟨rfl, rfl, rfl⟩, nofun, nofun,
      .modify hids (hset _)⟩
  · obtain rfl := Except.ok.inj h
    exact ⟨fun i => { i with status := .deferred }, fun _ => ⟨rfl, rfl, rfl⟩, nofun, nofun,
      .modify hids (hset _)⟩

theorem setStatus_id (status : SliceStatus) (item : SliceItem) :
    (item.setStatus status).id = item.id := by
  unfold SliceItem.setStatus
  split <;> rfl

theorem setStatus_kind (status : SliceStatus) (item : SliceItem) :
    (item.setStatus status).kind = item.kind := by
  unfold SliceItem.setStatus
  split <;> rfl

theorem setStatus_status (status : SliceStatus) (item : SliceItem) :
    (item.setStatus status).status = status := by
  unfold SliceItem.setStatus
  split
  · rename_i h
    rw [h]
    rfl
  · rfl

theorem sliceStatusOf_ne_active {new : DaemonStatusArg} {status : SliceStatus}
    (h : sliceStatusOf new = some status) : status ≠ .active := by
  rintro rfl
  cases new <;> cases h

/-- The active slice is split and the sub-milestone put in, queued. -/
theorem splitItems_ok {slice slug : String} {atEnd : Bool}
    (h : splitItems slice slug atEnd items = .ok items') :
    ∃ item p, Rows.row? (·.id) slice items = some item ∧ item.kind = .slice ∧
      item.status = .active ∧ Rows.position? (·.id) slice items = some p ∧
      items' = (Rows.modify (·.id) slice (fun it => { it with status := .split }) items).insertIdx
        (if atEnd then (Rows.modify (·.id) slice (fun it => { it with status := .split })
          items).length else p + 1) ⟨.sub, slug, .queued, none⟩ := by
  simp only [splitItems, bind_ok_iff, expect_ok_iff, ensure_ok_iff] at h
  obtain ⟨item, hitem, p, hp, ⟨⟩, ⟨hkind, hactive⟩, h⟩ := h
  exact ⟨item, p, hitem, hkind, hactive, hp, (Except.ok.inj h).symm⟩

theorem newSlices_queued {slices : List QueueSliceSpec} {item : SliceItem}
    (h : item ∈ (newSlices slices).1) : item.status = .queued := by
  unfold newSlices at h
  split at h
  · rw [List.mem_singleton.mp h]
    rfl
  · obtain ⟨s, -, rfl⟩ := List.mem_map.mp h
    rfl

/-- The items of a new milestone are numbered from 1. -/
theorem newSlices_ids (slices : List QueueSliceSpec) :
    ∃ n, 0 < n ∧ (newSlices slices).1 = (List.range n).map (fun i => sliceItem (i + 1)) ∧
      (newSlices slices).2.seq = n := by
  unfold newSlices
  split
  · exact ⟨1, Nat.one_pos, rfl, rfl⟩
  · rename_i h
    refine ⟨slices.length, List.length_pos_of_ne_nil (by simpa using h), ?_, rfl⟩
    have hindex : slices.zipIdx.map Prod.snd = List.range slices.length :=
      List.zipIdx_map_snd 0 slices ▸ List.range_eq_range'.symm
    rw [← hindex, List.map_map]
    rfl

theorem validate_newDir {identity : String} {slices : List QueueSliceSpec} :
    (newDir identity slices).slices.validate identity = .ok () := by
  obtain ⟨n, -, hitems, -⟩ := newSlices_ids slices
  refine SlicesToml.validate_ok_iff.mpr ⟨rfl, ?_, ?_⟩
  · show ((newSlices slices).1.map (·.id)).Nodup
    rw [hitems, List.map_map]
    refine (List.nodup_range).map fun i j hij => ?_
    have := pad3_injective hij
    omega
  · show ∀ item ∈ (newSlices slices).1, item.WellShaped
    rw [hitems]
    intro item hitem
    obtain ⟨i, -, rfl⟩ := List.mem_map.mp hitem
    exact ⟨fun _ => rfl, fun _ => rfl⟩

/-- Items keep their kind and id, and the only new one is the sub-milestone of a
request for one. -/
theorem ItemsStep.source {g : Garden} {op : Op} {milestone : String} (hids : (items.map (·.id)).Nodup)
    (h : ItemsStep g op milestone items items') : ∀ i' ∈ items',
      (∃ i ∈ items, i'.kind = i.kind ∧ i'.id = i.id) ∨
        i'.kind = .sub ∧ validateSlug i'.id = true ∧
          ∃ args, op = .addSub args ∧ i'.id = args.slug := by
  have hkept {id : String} {f : SliceItem → SliceItem} {before after : List SliceItem}
      (hrows : Rows.Rewrites (·.id) id f before after)
      (hf : ∀ i, (f i).kind = i.kind ∧ (f i).id = i.id) :
      ∀ i' ∈ after, ∃ i ∈ before, i'.kind = i.kind ∧ i'.id = i.id :=
    hrows.forall_mem (fun i hi => ⟨i, hi, rfl, rfl⟩) fun i hi _ => ⟨i, hi, hf i⟩
  cases h with
  | update _ _ _ hmove hstatus =>
    have hmoved := moveItem_ok hids hmove
    obtain ⟨f, hf, -, -, hrows⟩ := setItemStatus_ok (hmoved.keys.nodup_iff.mpr hids) hstatus
    intro i' hi'
    obtain ⟨i, hi, hkind, hid⟩ := hkept hrows (fun i => ⟨(hf i).1, (hf i).2.1⟩) i' hi'
    obtain ⟨j, hj, hkind', hid'⟩ := hkept hmoved (fun _ => ⟨rfl, rfl⟩) i hi
    exact Or.inl ⟨j, hj, hkind.trans hkind', hid.trans hid'⟩
  | @claim _ unit _ _ hclaim =>
    obtain ⟨item, -, -, ⟨-, rfl⟩ | ⟨-, rfl⟩⟩ := claimItem_ok hclaim
    · intro i' hi'
      have hrows : Rows.Rewrites (·.id) unit (fun i : SliceItem => { i with status := .active })
          items (Rows.modify (·.id) unit (fun i => { i with status := .active }) items) :=
        .modify hids fun _ => rfl
      exact Or.inl (hkept hrows (fun _ => ⟨rfl, rfl⟩) i' hi')
    · exact fun i' hi' => Or.inl ⟨i', hi', rfl, rfl⟩
  | setStatus =>
    intro i' hi'
    exact Or.inl (hkept (.modify hids (setStatus_id _))
      (fun i => ⟨setStatus_kind _ i, setStatus_id _ i⟩) i' hi')
  | @followUps _ unit count =>
    intro i' hi'
    have hrows : Rows.Rewrites (·.id) unit
        (fun i : SliceItem => { i with followUps := some count })
        items (Rows.modify (·.id) unit (fun i => { i with followUps := some count }) items) :=
      .modify hids fun _ => rfl
    exact Or.inl (hkept hrows (fun _ => ⟨rfl, rfl⟩) i' hi')
  | @split args _ _ hslug hsplit =>
    obtain ⟨item, p, -, -, -, -, rfl⟩ := splitItems_ok hsplit
    intro i' hi'
    have hrows : Rows.Rewrites (·.id) args.slice (fun i : SliceItem => { i with status := .split })
        items (Rows.modify (·.id) args.slice (fun i => { i with status := .split }) items) :=
      .modify hids fun _ => rfl
    rcases List.eq_or_mem_of_mem_insertIdx hi' with rfl | hi'
    · exact Or.inr ⟨rfl, hslug, args, rfl, rfl⟩
    · exact Or.inl (hkept hrows (fun _ => ⟨rfl, rfl⟩) i' hi')

end edit

end Softfig.Queue
