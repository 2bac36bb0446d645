import Softfig.Queue.Ops

/-!
What the verbs and the daemon's writes do to the rows of the list.

`Op.editRow` says what an accepted request leaves of a row; every later fact
about rows is read off the step it proves.

- `apply_rows`: an accepted request edits or archives each row so, and the other
  rows it leaves are new;
- `valid_of_reachable`: the list of every reachable garden validates.
-/

namespace Softfig.Queue

open Lib

/-! ### Loads and writes -/

section garden

variable {g : Garden}

@[simp]
theorem writeQueue_queueToml {queue : QueueToml} {archive : Option QueueArchiveToml} :
    (g.writeQueue queue archive).queueToml = queue := rfl

@[simp]
theorem writeQueue_archiveToml {queue : QueueToml} {archive : Option QueueArchiveToml} :
    (g.writeQueue queue archive).archiveToml = archive.getD g.archiveToml := by
  cases archive with
  | none => rfl
  | some a => rfl

@[simp]
theorem writeQueue_milestones {queue : QueueToml} {archive : Option QueueArchiveToml} :
    (g.writeQueue queue archive).milestones = g.milestones := rfl

@[simp]
theorem writeQueue_tasks {queue : QueueToml} {archive : Option QueueArchiveToml} :
    (g.writeQueue queue archive).tasks = g.tasks := rfl

@[simp]
theorem writeSlices_queueToml {milestone : String} {slices : SlicesToml} :
    (g.writeSlices milestone slices).queueToml = g.queueToml := by
  unfold Garden.writeSlices
  split <;> rfl

@[simp]
theorem writeSlices_archiveToml {milestone : String} {slices : SlicesToml} :
    (g.writeSlices milestone slices).archiveToml = g.archiveToml := by
  unfold Garden.writeSlices
  split <;> rfl

@[simp]
theorem writeSlices_tasks {milestone : String} {slices : SlicesToml} :
    (g.writeSlices milestone slices).tasks = g.tasks := by
  unfold Garden.writeSlices
  split <;> rfl

@[simp]
theorem writeSlice_queueToml {milestone file : String} {slices : SlicesToml} {number : Nat} :
    (g.writeSlice milestone slices number file).queueToml = g.queueToml := by
  unfold Garden.writeSlice
  split <;> rfl

@[simp]
theorem writeSlice_archiveToml {milestone file : String} {slices : SlicesToml} {number : Nat} :
    (g.writeSlice milestone slices number file).archiveToml = g.archiveToml := by
  unfold Garden.writeSlice
  split <;> rfl

@[simp]
theorem writeSlice_tasks {milestone file : String} {slices : SlicesToml} {number : Nat} :
    (g.writeSlice milestone slices number file).tasks = g.tasks := by
  unfold Garden.writeSlice
  split <;> rfl

@[simp]
theorem writeMilestone_queueToml {identity : String} {slices : List QueueSliceSpec} :
    (g.writeMilestone identity slices).queueToml = g.queueToml := rfl

@[simp]
theorem writeMilestone_archiveToml {identity : String} {slices : List QueueSliceSpec} :
    (g.writeMilestone identity slices).archiveToml = g.archiveToml := rfl

@[simp]
theorem writeMilestone_tasks {identity : String} {slices : List QueueSliceSpec} :
    (g.writeMilestone identity slices).tasks = g.tasks := rfl

/-- What was loaded is what the files hold, and it is valid. -/
theorem loadQueueState_toml {queue : QueueToml} {archive : QueueArchiveToml}
    (h : g.loadQueueState = .ok (some (queue, archive))) :
    g.queueToml = queue ∧ g.archiveToml = archive ∧ queue.validate archive = .ok () := by
  obtain ⟨hqueue, rfl, hvalid⟩ := Garden.loadQueueState_some h
  exact ⟨by rw [Garden.queueToml, hqueue]; rfl, rfl, hvalid⟩

theorem loadEntryRow_ok {entry : String} {loaded : QueueToml × QueueArchiveToml × Entry}
    (h : g.loadEntryRow entry = .ok loaded) :
    loaded.1 = g.queueToml ∧ loaded.2.1 = g.archiveToml ∧
      g.queueToml.validate g.archiveToml = .ok () ∧
      Rows.row? (·.id) (rowIdOf entry) g.queueToml.entries = some loaded.2.2 := by
  simp only [Garden.loadEntryRow, bind_ok_iff, expect_ok_iff] at h
  obtain ⟨state, hload, ⟨queue, archive⟩, rfl, row, hrow, h⟩ := h
  obtain ⟨rfl, rfl, hvalid⟩ := loadQueueState_toml hload
  obtain rfl := Except.ok.inj h
  exact ⟨rfl, rfl, hvalid, hrow⟩

theorem loadSlicesOf_ok {milestone : String} {slices : SlicesToml}
    (h : g.loadSlicesOf milestone = .ok slices) :
    ∃ dir, g.milestones.lookup milestone = some dir ∧ dir.slices = slices ∧
      slices.validate milestone = .ok () := by
  simp only [Garden.loadSlicesOf, bind_ok_iff, expect_ok_iff] at h
  obtain ⟨loaded, hload, rfl⟩ := h
  exact Garden.loadSlices_some hload

theorem loadForAdd_ok {project : String} {after : List String}
    {loaded : QueueToml × QueueArchiveToml} (h : g.loadForAdd project after = .ok loaded) :
    loaded = (g.queueToml, g.archiveToml) ∧ g.queueToml.validate g.archiveToml = .ok () ∧
      project ∈ g.queueToml.projects.map (·.name) ∧
      ensureLinks g.queueToml g.archiveToml after = .ok () := by
  simp only [Garden.loadForAdd, bind_ok_iff, expect_ok_iff, ensure_ok_iff] at h
  obtain ⟨state, hload, ⟨queue, archive⟩, rfl, ⟨⟩, hproject, ⟨⟩, hlinks, h⟩ := h
  obtain ⟨rfl, rfl, hvalid⟩ := loadQueueState_toml hload
  obtain rfl := Except.ok.inj h
  exact ⟨rfl, hvalid, hproject, hlinks⟩

theorem insertEntry_ok {queue queue' : QueueToml} {archive : QueueArchiveToml} {entry : Entry}
    {position : Position} (h : insertEntry queue archive entry position = .ok queue') :
    ∃ i, placeEntry queue.entries entry.lane position = .ok i ∧
      queue' = { queue with entries := queue.entries.insertIdx i entry } ∧
      queue'.validate archive = .ok () := by
  simp only [insertEntry, bind_ok_iff, refuse_ok_iff] at h
  obtain ⟨i, hi, ⟨⟩, hvalid, h⟩ := h
  obtain rfl := Except.ok.inj h
  exact ⟨i, hi, rfl, hvalid⟩

theorem liveIds_nodup_of_valid {queue : QueueToml} {archive : QueueArchiveToml}
    (h : queue.validate archive = .ok ()) : (queue.entries.map (·.id)).Nodup :=
  (List.nodup_append.mp (validate_ok_iff.mp h).idsDistinct).1

end garden

/-! ### What a request does to a row -/

/-- What an update leaves of its row, or nothing where it archives it. -/
def QueueUpdateEntryArgs.edit (args : QueueUpdateEntryArgs) (e : Entry) : Option Entry :=
  let e := { e with lane := args.lane.getD e.lane, after := args.after.getD e.after }
  match args.status with
  | none | some .active | some .paused | some .split => some e
  | some .queued => some (e.request .queued)
  | some .blocked => some (e.request .blocked)
  | some .deferred => some (e.request .deferred)
  | some .done => none

/-- What an accepted request leaves of a row, or nothing where it archives it. -/
def Op.editRow (op : Op) (e : Entry) : Option Entry :=
  match op with
  | .claim entry _ => some (if e.id = rowIdOf entry then { e with status := .active } else e)
  | .setStatus entry none new _ =>
    if e.id = rowIdOf entry then (entryStatusOf new).map fun s => e.land s else some e
  | .followUps entry none count =>
    some (if e.id = rowIdOf entry then { e with followUps := count } else e)
  | .queueUpdateEntry args _ =>
    if args.dryRun = false ∧ e.id = args.id then args.edit e else some e
  | .queueDrop args _ _ => if args.dryRun = false ∧ e.id = args.id then none else some e
  | _ => some e

/-- The daemon's `done` on the row of an id. -/
def Op.Closes (op : Op) (id : String) : Prop :=
  ∃ entry now, op = .setStatus entry none .done now ∧ rowIdOf entry = id

/-- A row that was not there: queued, never claimed, and named by its slug or by a
number handed out. -/
structure NewRow (g' : Garden) (e : Entry) : Prop where
  queued : e.status = .queued
  settled : e.pendingStatus = none
  unclaimed : e.claimed = ""
  parentless : e.parent = ""
  identity : (validateSlug e.id = true ∧ e.id ∈ g'.milestones ∧ e.kind = .milestone) ∨
    ∃ n ≤ g'.tasks.seq, e.id = pad3 n ∧ e.kind ≠ .milestone

/-- What an accepted request does to the rows: each live one is edited or
archived, and the others live are new. -/
structure RowsLaw (op : Op) (g g' : Garden) : Prop where
  kept : ∀ e ∈ g.queueToml.entries, ∀ e', op.editRow e = some e' → e' ∈ g'.queueToml.entries
  source : ∀ e' ∈ g'.queueToml.entries,
    (∃ e ∈ g.queueToml.entries, op.editRow e = some e') ∨ NewRow g' e'
  archived : ∃ moved, g'.archiveToml.entries = g.archiveToml.entries ++ moved ∧
    (∀ e ∈ g.queueToml.entries, op.editRow e = none → ∃ a ∈ moved, a.row.id = e.id) ∧
    ∀ a ∈ moved, ∃ e ∈ g.queueToml.entries, op.editRow e = none ∧ a.row.id = e.id ∧
      (a.row.pendingStatus = none ∧ op.Closes e.id ∨
        a.row.pendingStatus = e.pendingStatus ∧ e.status ≠ .active)

/-- An edited row keeps its id and its claim. -/
theorem entry_of_editRow {op : Op} {e e' : Entry} (h : op.editRow e = some e') :
    e'.id = e.id ∧ e'.claimed = e.claimed := by
  have hrequest (new : EntryStatus) (e : Entry) :
      (e.request new).id = e.id ∧ (e.request new).claimed = e.claimed := by
    unfold Entry.request
    split <;> exact ⟨rfl, rfl⟩
  unfold Op.editRow at h
  split at h
  · obtain rfl := Option.some.inj h
    split <;> exact ⟨rfl, rfl⟩
  · split at h
    · obtain ⟨s, -, rfl⟩ := Option.map_eq_some_iff.mp h
      exact ⟨rfl, rfl⟩
    · obtain rfl := Option.some.inj h
      exact ⟨rfl, rfl⟩
  · obtain rfl := Option.some.inj h
    split <;> exact ⟨rfl, rfl⟩
  · split at h
    · unfold QueueUpdateEntryArgs.edit at h
      dsimp only at h
      split at h
      · obtain rfl := Option.some.inj h
        exact ⟨rfl, rfl⟩
      · obtain rfl := Option.some.inj h
        exact ⟨rfl, rfl⟩
      · obtain rfl := Option.some.inj h
        exact ⟨rfl, rfl⟩
      · obtain rfl := Option.some.inj h
        exact ⟨rfl, rfl⟩
      · obtain rfl := Option.some.inj h
        exact hrequest _ _
      · obtain rfl := Option.some.inj h
        exact hrequest _ _
      · obtain rfl := Option.some.inj h
        exact hrequest _ _
      · cases h
    · obtain rfl := Option.some.inj h
      exact ⟨rfl, rfl⟩
  · split at h
    · cases h
    · obtain rfl := Option.some.inj h
      exact ⟨rfl, rfl⟩
  · obtain rfl := Option.some.inj h
    exact ⟨rfl, rfl⟩

theorem entry_id_of_editRow {op : Op} {e e' : Entry} (h : op.editRow e = some e') :
    e'.id = e.id :=
  (entry_of_editRow h).1

section law

variable {op : Op} {g g' : Garden}

/-- A request that leaves the list and the archive as they are. -/
theorem RowsLaw.same (hedit : ∀ e ∈ g.queueToml.entries, op.editRow e = some e)
    (hlive : g'.queueToml.entries = g.queueToml.entries)
    (harchive : g'.archiveToml.entries = g.archiveToml.entries) : RowsLaw op g g' where
  kept e he e' h := by
    rw [hedit e he] at h
    rw [hlive, ← Option.some.inj h]
    exact he
  source e' he' := by
    rw [hlive] at he'
    exact Or.inl ⟨e', he', hedit e' he'⟩
  archived := by
    refine ⟨[], by rw [harchive, List.append_nil], fun e he h => ?_, by simp⟩
    rw [hedit e he] at h
    cases h

/-- A request that changes the row of an id. -/
theorem RowsLaw.rewrite {id : String} {f : Entry → Entry}
    (hedit : ∀ e ∈ g.queueToml.entries, op.editRow e = some (if e.id = id then f e else e))
    (hlive : Rows.Rewrites (·.id) id f g.queueToml.entries g'.queueToml.entries)
    (harchive : g'.archiveToml.entries = g.archiveToml.entries) : RowsLaw op g g' where
  kept e he e' h := by
    rw [hedit e he] at h
    obtain rfl := Option.some.inj h
    rw [hlive.mem]
    by_cases hid : e.id = id
    · rw [if_pos hid]
      exact Or.inr ⟨e, he, hid, rfl⟩
    · rw [if_neg hid]
      exact Or.inl ⟨he, hid⟩
  source e' he' := by
    rcases (hlive.mem e').mp he' with ⟨he, hid⟩ | ⟨e, he, hid, rfl⟩
    · refine Or.inl ⟨e', he, ?_⟩
      rw [hedit e' he, if_neg hid]
    · refine Or.inl ⟨e, he, ?_⟩
      rw [hedit e he, if_pos hid]
  archived := by
    refine ⟨[], by rw [harchive, List.append_nil], fun e he h => ?_, by simp⟩
    rw [hedit e he] at h
    cases h

/-- A request that adds rows. -/
theorem RowsLaw.insert (hedit : ∀ e ∈ g.queueToml.entries, op.editRow e = some e)
    (hkept : ∀ e ∈ g.queueToml.entries, e ∈ g'.queueToml.entries)
    (hsource : ∀ e' ∈ g'.queueToml.entries, e' ∈ g.queueToml.entries ∨ NewRow g' e')
    (harchive : g'.archiveToml.entries = g.archiveToml.entries) : RowsLaw op g g' where
  kept e he e' h := by
    rw [hedit e he] at h
    rw [← Option.some.inj h]
    exact hkept e he
  source e' he' := by
    rcases hsource e' he' with he | hnew
    · exact Or.inl ⟨e', he, hedit e' he⟩
    · exact Or.inr hnew
  archived := by
    refine ⟨[], by rw [harchive, List.append_nil], fun e he h => ?_, by simp⟩
    rw [hedit e he] at h
    cases h

/-- A request that archives the row of an id, and adds rows. -/
theorem RowsLaw.archive {id : String} {row : Entry} {moved : ArchivedEntry}
    (hrow : Rows.row? (·.id) id g.queueToml.entries = some row)
    (hedit : ∀ e ∈ g.queueToml.entries, op.editRow e = if e.id = id then none else some e)
    (hkept : ∀ e ∈ g.queueToml.entries, e.id ≠ id → e ∈ g'.queueToml.entries)
    (hsource : ∀ e' ∈ g'.queueToml.entries,
      e' ∈ g.queueToml.entries ∧ e'.id ≠ id ∨ NewRow g' e')
    (harchive : g'.archiveToml.entries = g.archiveToml.entries ++ [moved])
    (hmoved : moved.row.id = id)
    (hpending : moved.row.pendingStatus = none ∧ op.Closes id ∨
      moved.row.pendingStatus = row.pendingStatus ∧ row.status ≠ .active) : RowsLaw op g g' where
  kept e he e' h := by
    rw [hedit e he] at h
    split at h
    · cases h
    · rename_i hid
      rw [← Option.some.inj h]
      exact hkept e he hid
  source e' he' := by
    rcases hsource e' he' with ⟨he, hid⟩ | hnew
    · refine Or.inl ⟨e', he, ?_⟩
      rw [hedit e' he, if_neg hid]
    · exact Or.inr hnew
  archived := by
    obtain ⟨hmem, hid⟩ := Rows.row?_some hrow
    refine ⟨[moved], harchive, fun e he h => ⟨moved, List.mem_singleton_self _, ?_⟩,
      fun a ha => ⟨row, hmem, ?_, ?_, ?_⟩⟩
    · rw [hedit e he] at h
      split at h
      · rename_i he'
        rw [hmoved, he']
      · cases h
    · rw [hedit row hmem, if_pos hid]
    · rw [List.mem_singleton.mp ha, hmoved, hid]
    · rw [List.mem_singleton.mp ha, hid]
      exact hpending

end law

/-! ### The list after a request -/

def Garden.Valid (g : Garden) : Prop := g.queueToml.validate g.archiveToml = .ok ()

/-- An update that gives the row of an id another lane or, where no claim of it is
recorded, a position. -/
def Op.Moves (op : Op) (g : Garden) (id : String) : Prop :=
  ∃ args now row, op = .queueUpdateEntry args now ∧ args.dryRun = false ∧ args.id = id ∧
    Rows.row? (·.id) id g.queueToml.entries = some row ∧
    ((∃ lane, args.lane = some lane ∧ row.lane ≠ lane) ∨
      args.moveSpec.isSome = true ∧ row.claimed = "")

/-- What an accepted request leaves of the list and its order, its projects and the
numbers handed out. -/
structure QueueStep (op : Op) (g g' : Garden) : Prop where
  rows : RowsLaw op g g'
  order : Rows.Keeps (·.id) (fun id => op.Moves g id ∨ id ∉ g'.queueToml.entries.map (·.id))
    g.queueToml.entries g'.queueToml.entries
  valid : g'.Valid
  projects : g'.queueToml.projects = g.queueToml.projects ∨
    ∃ p, p.name ∉ g.queueToml.projects.map (·.name) ∧
      g'.queueToml.projects = g.queueToml.projects ++ [p]
  mark : g.tasks.seq ≤ g'.tasks.seq

theorem archived_not_live {queue : QueueToml} {archive : QueueArchiveToml}
    (h : queue.validate archive = .ok ()) {a : ArchivedEntry} (ha : a ∈ archive.entries)
    {id : String} (hid : a.row.id = id) : id ∉ queue.entries.map (·.id) := by
  intro hlive
  have hdisjoint := (List.nodup_append.mp (validate_ok_iff.mp h).idsDistinct).2.2
  exact hdisjoint _ hlive _ (List.mem_map.mpr ⟨a, ha, rfl⟩) hid.symm

theorem lt_nextNumber (dir : NumberedDir) : dir.seq < dir.nextNumber := by
  unfold NumberedDir.nextNumber
  omega

section step

variable {g g' : Garden}

/-- A request that leaves the queue files as they are. -/
theorem QueueStep.same {op : Op} (hvalid : g.Valid)
    (hedit : ∀ e ∈ g.queueToml.entries, op.editRow e = some e) (hqueue : g'.queueToml = g.queueToml)
    (harchive : g'.archiveToml = g.archiveToml) (htasks : g'.tasks.seq = g.tasks.seq) :
    QueueStep op g g' where
  rows := .same hedit (by rw [hqueue]) (by rw [harchive])
  order := .of_keys_eq (by rw [hqueue])
  valid := by rwa [Garden.Valid, hqueue, harchive]
  projects := Or.inl (by rw [hqueue])
  mark := htasks.ge

/-- A dry run leaves the garden as it is. -/
theorem commit_cases {dryRun : Bool} {after : Garden} (h : commit dryRun g after = g') :
    (dryRun = true ∧ g' = g) ∨ dryRun = false ∧ g' = after := by
  cases dryRun with
  | true => exact Or.inl ⟨rfl, h.symm⟩
  | false => exact Or.inr ⟨rfl, h.symm⟩

theorem loaded_queueToml {loaded : Option (QueueToml × QueueArchiveToml)}
    (h : g.loadQueueState = .ok loaded) :
    (loaded.map Prod.fst).getD ⟨[], []⟩ = g.queueToml := by
  cases loaded with
  | none => rw [Garden.queueToml, Garden.loadQueueState_none h]; rfl
  | some state =>
    obtain ⟨hqueue, -, -⟩ := loadQueueState_toml h
    exact hqueue.symm

theorem collect_append {α : Type} {pairs : List (String × α)} {k key : String} {v : α}
    (hne : key ≠ k) : collect (pairs ++ [(k, v)]) key = collect pairs key := by
  induction pairs with
  | nil => simp [collect, Ne.symm hne]
  | cons pair pairs ih =>
    obtain ⟨k', v'⟩ := pair
    rw [List.cons_append, collect, collect, ih]

/-- A project of a new name changes nothing for the rows. -/
theorem validate_addProject {queue : QueueToml} {archive : QueueArchiveToml} {p : Project}
    (hvalid : queue.validate archive = .ok ()) (hname : p.name ∉ queue.projects.map (·.name)) :
    QueueToml.validate { queue with projects := queue.projects ++ [p] } archive = .ok () := by
  have hinv := validate_ok_iff.mp hvalid
  have hrepo : ∀ e ∈ queue.entries,
      QueueToml.repoOf { queue with projects := queue.projects ++ [p] } e.project =
        queue.repoOf e.project := by
    intro e he
    obtain ⟨p', hp', hname'⟩ := hinv.projectsExist e he
    rw [QueueToml.repoOf, QueueToml.repoOf, List.map_append]
    refine collect_append ?_
    rintro heq
    exact hname (List.mem_map.mpr ⟨p', hp', hname'.trans heq⟩)
  refine validate_ok_iff.mpr
    { urgentFirst := hinv.urgentFirst
      restackUrgent := hinv.restackUrgent
      idsDistinct := hinv.idsDistinct
      linksResolve := hinv.linksResolve
      linksAcyclic := hinv.linksAcyclic
      projectsExist := ?_
      oneStarted := ?_ }
  · intro e he
    obtain ⟨p', hp', hname'⟩ := hinv.projectsExist e he
    exact ⟨p', List.mem_append_left _ hp', hname'⟩
  · intro repo
    refine le_of_eq_of_le (congrArg List.length (List.filter_congr fun e he => ?_))
      (hinv.oneStarted repo)
    simp only [QueueToml.Starts, hrepo e he]

theorem queueStep_addProject {args : QueueAddProjectArgs} (hvalid : g.Valid)
    (h : queueAddProject g args = .ok g') : QueueStep (.queueAddProject args) g g' := by
  simp only [queueAddProject, bind_ok_iff, ensure_ok_iff] at h
  obtain ⟨⟨⟩, -, ⟨⟩, -, ⟨⟩, -, loaded, hload, ⟨⟩, hname, h⟩ := h
  rw [loaded_queueToml hload] at h hname
  rcases commit_cases (Except.ok.inj h) with ⟨-, rfl⟩ | ⟨-, rfl⟩
  · exact .same hvalid (fun _ _ => rfl) rfl rfl rfl
  · exact
      { rows := .same (fun _ _ => rfl) rfl rfl
        order := .of_keys_eq rfl
        valid := validate_addProject hvalid hname
        projects := Or.inr ⟨_, hname, rfl⟩
        mark := le_refl _ }

/-- A new row put in its lane. -/
theorem QueueStep.add {op : Op} {entry : Entry} {position : Position} {queue : QueueToml}
    (hedit : ∀ e ∈ g.queueToml.entries, op.editRow e = some e)
    (hinsert : insertEntry g.queueToml g.archiveToml entry position = .ok queue)
    (hnew : NewRow g' entry) (hqueue : g'.queueToml = queue)
    (harchive : g'.archiveToml = g.archiveToml) (hmark : g.tasks.seq ≤ g'.tasks.seq) :
    QueueStep op g g' := by
  obtain ⟨i, hi, rfl, hvalid⟩ := insertEntry_ok hinsert
  have hle := placeEntry_le hi
  refine
    { rows := .insert hedit (fun e he => ?_) (fun e he => ?_) (by rw [harchive])
      order := by
        rw [hqueue]
        exact .insertIdx
      valid := by rwa [Garden.Valid, hqueue, harchive]
      projects := Or.inl (by rw [hqueue])
      mark := hmark }
  · rw [hqueue]
    exact (List.mem_insertIdx hle).mpr (Or.inr he)
  · rw [hqueue] at he
    rcases (List.mem_insertIdx hle).mp he with rfl | he
    · exact Or.inr hnew
    · exact Or.inl he

theorem queueStep_addMilestone {args : QueueAddEntryArgs} {now : String} (hvalid : g.Valid)
    (h : addMilestone g args now = .ok g') : QueueStep (.queueAddEntry args now) g g' := by
  simp only [addMilestone, bind_ok_iff, ensure_ok_iff] at h
  obtain ⟨slug, -, title, -, -, -, -, -, ⟨⟩, hslug, position, -, ⟨⟩, -, ⟨⟩, -, loaded, hload, queue,
    hinsert, h⟩ := h
  obtain ⟨rfl, -, -, -⟩ := loadForAdd_ok hload
  rcases commit_cases (Except.ok.inj h) with ⟨-, rfl⟩ | ⟨-, rfl⟩
  · exact .same hvalid (fun _ _ => rfl) rfl rfl rfl
  · refine .add (fun _ _ => rfl) hinsert ?_ rfl rfl (le_refl _)
    exact ⟨rfl, rfl, rfl, rfl, Or.inl ⟨hslug, (AList.mem_insert _).mpr (Or.inl rfl), rfl⟩⟩

theorem queueStep_addTask {args : QueueAddEntryArgs} {now : String} (hvalid : g.Valid)
    (h : addTask g args now = .ok g') : QueueStep (.queueAddEntry args now) g g' := by
  simp only [addTask, bind_ok_iff, ensure_ok_iff] at h
  obtain ⟨slug, -, title, -, -, -, -, -, ⟨⟩, -, ⟨⟩, -, position, -, ⟨⟩, -, loaded, hload, queue,
    hinsert, h⟩ := h
  obtain ⟨rfl, -, -, -⟩ := loadForAdd_ok hload
  rcases commit_cases (Except.ok.inj h) with ⟨-, rfl⟩ | ⟨-, rfl⟩
  · exact .same hvalid (fun _ _ => rfl) rfl rfl rfl
  · refine .add (fun _ _ => rfl) hinsert ?_ rfl rfl (lt_nextNumber _).le
    exact ⟨rfl, rfl, rfl, rfl, Or.inr ⟨_, le_refl _, rfl, nofun⟩⟩

/-- A row of a restack, at the back of the urgent lane. -/
theorem restackCore_ok {tasks : NumberedDir} {queue : QueueToml} {project now : String}
    {number : Nat} {made : QueueToml × String}
    (h : restackCore tasks queue project number now = .ok made) :
    ∃ i ≤ queue.entries.length, ∃ title, made.1 =
      { queue with
        entries := queue.entries.insertIdx i
          (newEntry (pad3 number) .restack title project .urgent [] "" now) } := by
  simp only [restackCore, bind_ok_iff, ensure_ok_iff, refuse_ok_iff] at h
  obtain ⟨⟨⟩, -, i, hi, h⟩ := h
  obtain rfl := Except.ok.inj h
  exact ⟨i, placeEntry_le hi, _, rfl⟩

/-- Restacks add rows of the numbers from the first on. -/
theorem restacks_ok {tasks : NumberedDir} {now : String} {projects : List String} {number : Nat}
    {queue : QueueToml} {made : QueueToml × List String}
    (h : restacks tasks now number projects queue = .ok made) :
    made.1.projects = queue.projects ∧ queue.entries.Sublist made.1.entries ∧
      ∀ e ∈ made.1.entries, e ∈ queue.entries ∨
        ∃ n, number ≤ n ∧ n < number + made.2.length ∧ ∃ title project,
          e = newEntry (pad3 n) .restack title project .urgent [] "" now := by
  induction projects generalizing number queue made with
  | nil =>
    obtain rfl := Except.ok.inj h
    exact ⟨rfl, .refl _, fun e he => Or.inl he⟩
  | cons project projects ih =>
    simp only [restacks, bind_ok_iff] at h
    obtain ⟨first, hfirst, rest, hrest, h⟩ := h
    obtain rfl := Except.ok.inj h
    obtain ⟨i, hi, title, hqueue⟩ := restackCore_ok hfirst
    obtain ⟨hprojects, hkept, hsource⟩ := ih hrest
    rw [hqueue] at hprojects hkept hsource
    refine ⟨hprojects, (List.sublist_insertIdx _ _ _).trans hkept, fun e he => ?_⟩
    rw [List.length_cons]
    rcases hsource e he with he | ⟨n, hle, hlt, htitle⟩
    · rcases (List.mem_insertIdx hi).mp he with rfl | he
      · exact Or.inr ⟨number, le_refl _, by omega, title, project, rfl⟩
      · exact Or.inl he
    · exact Or.inr ⟨n, by omega, by omega, htitle⟩

theorem newRow_restack {n : Nat} {title project now : String} (h : n ≤ g'.tasks.seq) :
    NewRow g' (newEntry (pad3 n) .restack title project .urgent [] "" now) :=
  ⟨rfl, rfl, rfl, rfl, Or.inr ⟨n, h, rfl, nofun⟩⟩

theorem queueStep_addRestack {args : QueueAddEntryArgs} {now : String} (hvalid : g.Valid)
    (h : addRestack g args now = .ok g') : QueueStep (.queueAddEntry args now) g g' := by
  unfold addRestack at h
  split at h
  · cases h
  · simp only [bind_ok_iff, ensure_ok_iff, refuse_ok_iff] at h
    obtain ⟨⟨⟩, -, loaded, hload, made, hmade, ⟨⟩, hvalid', h⟩ := h
    obtain ⟨rfl, -, -, -⟩ := loadForAdd_ok hload
    obtain ⟨i, hi, title, hqueue⟩ := restackCore_ok hmade
    rcases commit_cases (Except.ok.inj h) with ⟨-, rfl⟩ | ⟨-, rfl⟩
    · exact .same hvalid (fun _ _ => rfl) rfl rfl rfl
    · have hentries : made.1.entries = g.queueToml.entries.insertIdx i
          (newEntry (pad3 g.tasks.nextNumber) .restack title args.project .urgent [] "" now) := by
        rw [hqueue]
      refine
        { rows := .insert (fun _ _ => rfl) (fun e he => ?_) (fun e he => ?_) rfl
          order := by
            show Rows.Keeps _ _ _ made.1.entries
            rw [hentries]
            exact .insertIdx
          valid := hvalid'
          projects := Or.inl (congrArg (·.projects) hqueue)
          mark := (lt_nextNumber _).le }
      · exact hentries ▸ (List.mem_insertIdx hi).mpr (Or.inr he)
      · rcases (List.mem_insertIdx hi).mp (hentries ▸ he) with rfl | he
        · exact Or.inr (newRow_restack (le_refl _))
        · exact Or.inl he

theorem queueStep_addEntry {args : QueueAddEntryArgs} {now : String} (hvalid : g.Valid)
    (h : queueAddEntry g args now = .ok g') : QueueStep (.queueAddEntry args now) g g' := by
  unfold queueAddEntry at h
  split at h
  · cases h
  · split at h
    · exact queueStep_addMilestone hvalid h
    · exact queueStep_addTask hvalid h
    · exact queueStep_addRestack hvalid h

theorem queueStep_drop {args : QueueDropArgs} {order : HashOrder} {now : String}
    (hvalid : g.Valid) (h : queueDrop g args order now = .ok g') :
    QueueStep (.queueDrop args order now) g g' := by
  simp only [queueDrop, bind_ok_iff, ensure_ok_iff, refuse_ok_iff, expect_ok_iff] at h
  obtain ⟨⟨⟩, -, ⟨⟩, -, state, hload, ⟨queue, archive⟩, rfl, row, hrow, ⟨⟩, -, ⟨⟩, hactive, made,
    hmade, ⟨⟩, hvalid', h⟩ := h
  obtain ⟨rfl, rfl, -⟩ := loadQueueState_toml hload
  obtain ⟨hprojects, hkept, hsource⟩ := restacks_ok hmade
  obtain ⟨-, hid⟩ := Rows.row?_some hrow
  have hkeys := liveIds_nodup_of_valid hvalid
  rcases commit_cases (Except.ok.inj h) with ⟨hdry, rfl⟩ | ⟨hdry, rfl⟩
  · refine .same hvalid (fun e _ => ?_) rfl rfl rfl
    simp [Op.editRow, hdry]
  · have hgone : args.id ∉ made.1.entries.map (·.id) :=
      archived_not_live hvalid' (List.mem_append_right _ (List.mem_singleton_self _)) hid
    refine
      { rows := .archive hrow (fun e _ => ?_) (fun e he hne => ?_) (fun e he => ?_) rfl hid
          (Or.inr ⟨rfl, hactive⟩)
        order := (Rows.Keeps.erase.mono fun _ hgone' => Or.inr (hgone' ▸ hgone)).trans
          (.of_sublist (hkept.map _))
        valid := hvalid'
        projects := Or.inl hprojects
        mark := ?_ }
    · simp [Op.editRow, hdry]
    · exact hkept.subset ((Rows.mem_erase hkeys).mpr ⟨he, hne⟩)
    · rcases hsource e he with he | ⟨n, hle, hlt, title, project, rfl⟩
      · exact Or.inl ((Rows.mem_erase hkeys).mp he)
      · refine Or.inr (newRow_restack ?_)
        have hfiles : made.2.isEmpty = false := by
          rw [List.isEmpty_eq_false_iff_exists_mem]
          exact List.exists_mem_of_length_pos (by omega)
        rw [hfiles]
        show n ≤ g.tasks.nextNumber + made.2.length - 1
        omega
    · have hlt := lt_nextNumber g.tasks
      show g.tasks.seq ≤ (if made.2.isEmpty then g.tasks else _).seq
      split
      · exact le_refl _
      · rename_i hfiles
        show g.tasks.seq ≤ g.tasks.nextNumber + made.2.length - 1
        omega

end step

/-! ### queue_update_entry -/

section update

variable {id : String} {entries entries' : List Entry}

theorem updateLane_ok {lane : Option Lane} (hkeys : (entries.map (·.id)).Nodup)
    (h : updateLane id lane entries = .ok entries') :
    Rows.Rewrites (·.id) id (fun e => { e with lane := lane.getD e.lane }) entries entries' := by
  unfold updateLane at h
  split at h
  · rename_i lane e hrow
    obtain ⟨hmem, hid⟩ := Rows.row?_some hrow
    split at h
    · rename_i hlane
      obtain rfl := Except.ok.inj h
      refine .refl fun e' he' hid' => ?_
      obtain rfl := List.inj_on_of_nodup_map hkeys he' hmem (hid'.trans hid.symm)
      rw [← hlane]
      rfl
    · simp only [bind_ok_iff, refuse_ok_iff] at h
      obtain ⟨i, hi, h⟩ := h
      obtain rfl := Except.ok.inj h
      exact .move (f := fun e => { e with lane := lane }) hkeys (fun _ => rfl) hrow
        (placeEntry_le hi)
  · rename_i lane _ _ hnone
    obtain rfl := Except.ok.inj h
    refine .refl fun e he hid => ?_
    cases hlane : lane with
    | none => rfl
    | some new =>
      refine absurd ?_ (hnone new e hlane)
      rw [← hid]
      exact Rows.row?_of_mem hkeys he

/-- Only a row that changes its lane moves. -/
theorem updateLane_keeps {lane : Option Lane} (h : updateLane id lane entries = .ok entries') :
    Rows.Keeps (·.id) (fun k => k = id ∧ ∃ new row, lane = some new ∧
      Rows.row? (·.id) id entries = some row ∧ row.lane ≠ new) entries entries' := by
  unfold updateLane at h
  split at h
  · rename_i lane e hrow
    split at h
    · obtain rfl := Except.ok.inj h
      exact .of_keys_eq rfl
    · rename_i hlane
      simp only [bind_ok_iff, refuse_ok_iff] at h
      obtain ⟨i, -, h⟩ := h
      obtain rfl := Except.ok.inj h
      exact (Rows.Keeps.erase.mono fun k hk => ⟨hk, lane, e, rfl, hrow, hlane⟩).trans .insertIdx
  · obtain rfl := Except.ok.inj h
    exact .of_keys_eq rfl

/-- Only a row given a position moves, and no claim of it is recorded. -/
theorem updateMove_keeps {position : Option Position}
    (h : updateMove id position entries = .ok entries') :
    Rows.Keeps (·.id) (fun k => k = id ∧ position.isSome = true ∧ ∃ row,
      Rows.row? (·.id) id entries = some row ∧ row.claimed = "") entries entries' := by
  unfold updateMove at h
  split at h
  · rename_i position e hrow
    simp only [bind_ok_iff, ensure_ok_iff, refuse_ok_iff] at h
    obtain ⟨⟨⟩, -, ⟨⟩, hclaimed, i, -, h⟩ := h
    obtain rfl := Except.ok.inj h
    exact (Rows.Keeps.erase.mono fun k hk => ⟨hk, rfl, e, hrow, hclaimed⟩).trans .insertIdx
  · obtain rfl := Except.ok.inj h
    exact .of_keys_eq rfl

theorem updateAfter_keys {links : Option (List String)} {queue : QueueToml}
    {archive : QueueArchiveToml} (h : updateAfter id links queue archive = .ok entries') :
    entries'.map (·.id) = queue.entries.map (·.id) := by
  unfold updateAfter at h
  split at h
  · obtain rfl := Except.ok.inj h
    rfl
  · simp only [bind_ok_iff] at h
    obtain ⟨⟨⟩, -, h⟩ := h
    obtain rfl := Except.ok.inj h
    exact Rows.map_modify fun _ => rfl

theorem updateMove_ok {position : Option Position} (hkeys : (entries.map (·.id)).Nodup)
    (h : updateMove id position entries = .ok entries') :
    Rows.Rewrites (·.id) id (fun e => e) entries entries' := by
  unfold updateMove at h
  split at h
  · rename_i position e hrow
    simp only [bind_ok_iff, ensure_ok_iff, refuse_ok_iff] at h
    obtain ⟨⟨⟩, -, ⟨⟩, -, i, hi, h⟩ := h
    obtain rfl := Except.ok.inj h
    exact .move (f := fun e => e) hkeys (fun _ => rfl) hrow (placeEntry_le hi)
  · obtain rfl := Except.ok.inj h
    exact .refl fun _ _ _ => rfl

theorem updateAfter_ok {links : Option (List String)} {queue : QueueToml}
    {archive : QueueArchiveToml} (hkeys : (queue.entries.map (·.id)).Nodup)
    (h : updateAfter id links queue archive = .ok entries') :
    Rows.Rewrites (·.id) id (fun e => { e with after := links.getD e.after }) queue.entries
      entries' := by
  unfold updateAfter at h
  split at h
  · obtain rfl := Except.ok.inj h
    exact .refl fun _ _ _ => rfl
  · rename_i links
    simp only [bind_ok_iff] at h
    obtain ⟨⟨⟩, -, h⟩ := h
    obtain rfl := Except.ok.inj h
    exact .modify hkeys fun _ => rfl

theorem request_id (new : EntryStatus) (e : Entry) : (e.request new).id = e.id := by
  unfold Entry.request
  split <;> rfl

theorem parseMove_isSome {spec : Option QueueMoveSpec} {position : Option Position}
    (h : parseMove spec = .ok position) : position.isSome = spec.isSome := by
  cases spec with
  | none =>
    obtain rfl := Except.ok.inj h
    rfl
  | some m =>
    cases hparse : parsePosition (some m.target) m.ref with
    | error e =>
      rw [parseMove, hparse] at h
      cases h
    | ok place =>
      rw [parseMove, hparse] at h
      obtain rfl := Except.ok.inj h
      rfl

/-- An update that archives nothing rewrites the row. -/
theorem updateStatus_ok {status : Option QueueStatusArg} {archived : List ArchivedEntry}
    {now : String} {made : List Entry × List ArchivedEntry}
    (hkeys : (entries.map (·.id)).Nodup)
    (h : updateStatus id status entries archived now = .ok made) :
    (made.2 = archived ∧ ∃ f : Entry → Entry, (∀ e, (f e).id = e.id) ∧
      (∀ args : QueueUpdateEntryArgs, args.status = status → ∀ e, args.edit e =
        some (f { e with lane := args.lane.getD e.lane, after := args.after.getD e.after })) ∧
      Rows.Rewrites (·.id) id f entries made.1 ∧
      made.1.map (·.id) = entries.map (·.id)) ∨
    status = some .done ∧ ∃ row, Rows.row? (·.id) id entries = some row ∧ row.status ≠ .active ∧
      made = (Rows.erase (·.id) id entries, archived ++ [⟨row, now, .done, none⟩]) := by
  have hrequest (new : EntryStatus) : Rows.Rewrites (·.id) id (Entry.request new) entries
      (Rows.modify (·.id) id (Entry.request new) entries) :=
    .modify hkeys (request_id new)
  unfold updateStatus at h
  split at h
  · obtain rfl := Except.ok.inj h
    refine Or.inl ⟨rfl, fun e => e, fun _ => rfl, fun args hargs e => ?_,
      .refl fun _ _ _ => rfl, rfl⟩
    simp only [QueueUpdateEntryArgs.edit, hargs]
  · cases h
  · cases h
  · cases h
  · obtain rfl := Except.ok.inj h
    refine Or.inl ⟨rfl, Entry.request .queued, request_id _, fun args hargs e => ?_, hrequest _,
      Rows.map_modify (request_id _)⟩
    simp only [QueueUpdateEntryArgs.edit, hargs]
  · obtain rfl := Except.ok.inj h
    refine Or.inl ⟨rfl, Entry.request .blocked, request_id _, fun args hargs e => ?_, hrequest _,
      Rows.map_modify (request_id _)⟩
    simp only [QueueUpdateEntryArgs.edit, hargs]
  · obtain rfl := Except.ok.inj h
    refine Or.inl ⟨rfl, Entry.request .deferred, request_id _, fun args hargs e => ?_, hrequest _,
      Rows.map_modify (request_id _)⟩
    simp only [QueueUpdateEntryArgs.edit, hargs]
  · simp only [bind_ok_iff, ensure_ok_iff, expect_ok_iff] at h
    obtain ⟨row, hrow, ⟨⟩, hactive, h⟩ := h
    exact Or.inr ⟨rfl, row, hrow, hactive, (Except.ok.inj h).symm⟩

end update

theorem queueStep_updateEntry {args : QueueUpdateEntryArgs} {now : String} {g g' : Garden}
    (hvalid : g.Valid) (h : queueUpdateEntry g args now = .ok g') :
    QueueStep (.queueUpdateEntry args now) g g' := by
  simp only [queueUpdateEntry, bind_ok_iff, ensure_ok_iff, expect_ok_iff] at h
  obtain ⟨⟨⟩, -, position, hposition, state, hload, ⟨queue, archive⟩, rfl, ⟨⟩, -, rows₁, hlane, rows₂,
    hmove, rows₃, hafter, made, hstatus, h⟩ := h
  obtain ⟨rfl, rfl, -⟩ := loadQueueState_toml hload
  have hkeys := liveIds_nodup_of_valid hvalid
  have h₁ := updateLane_ok hkeys hlane
  have h₂ := updateMove_ok (h₁.keys.nodup_iff.mpr hkeys) hmove
  have h₁₂ := h₁.trans h₂ fun _ => rfl
  have h₃ := updateAfter_ok (h₁₂.keys.nodup_iff.mpr hkeys) hafter
  have h₁₃ := h₁₂.trans h₃ fun _ => rfl
  have hkeys₃ : (rows₃.map (·.id)).Nodup := h₁₃.keys.nodup_iff.mpr hkeys
  have hdry (hdry : args.dryRun = true) (e : Entry) :
      Op.editRow (.queueUpdateEntry args now) e = some e := by
    simp [Op.editRow, hdry]
  have horder (hdry : args.dryRun = false) :
      Rows.Keeps (·.id) (Op.Moves (.queueUpdateEntry args now) g) g.queueToml.entries rows₃ := by
    refine ((updateLane_keeps hlane).mono ?_).trans
      (((updateMove_keeps hmove).mono ?_).trans (.of_keys_eq (updateAfter_keys hafter)))
    · rintro k ⟨rfl, new, row, hnew, hrow, hne⟩
      exact ⟨args, now, row, rfl, hdry, rfl, hrow, Or.inl ⟨new, hnew, hne⟩⟩
    · rintro k ⟨rfl, hsome, row, hrow, hclaimed⟩
      obtain ⟨hmem, hid⟩ := Rows.row?_some hrow
      obtain ⟨e, he, hid', rfl⟩ := ((h₁.mem row).mp hmem).resolve_left fun hne => hne.2 hid
      refine ⟨args, now, e, rfl, hdry, rfl, ?_,
        Or.inr ⟨parseMove_isSome hposition ▸ hsome, hclaimed⟩⟩
      rw [← hid']
      exact Rows.row?_of_mem hkeys he
  rcases updateStatus_ok hkeys₃ hstatus with
    ⟨harchived, f, hid, hedit, hrows, hkeys₄⟩ | ⟨hdone, row, hrow, hactive, rfl⟩
  · have hall := h₁₃.trans hrows fun _ => rfl
    have hlaw (hdry : args.dryRun = false) (e : Entry) :
        Op.editRow (.queueUpdateEntry args now) e = some (if e.id = args.id then
          f { e with lane := args.lane.getD e.lane, after := args.after.getD e.after }
          else e) := by
      by_cases hid : e.id = args.id
      · rw [if_pos hid, Op.editRow, if_pos ⟨hdry, hid⟩]
        exact hedit args rfl e
      · rw [if_neg hid, Op.editRow, if_neg fun h => hid h.2]
    split at h
    · rename_i hsame
      obtain rfl := Except.ok.inj h
      refine
        { rows := ?_
          order := .of_keys_eq rfl
          valid := hvalid
          projects := Or.inl rfl
          mark := le_refl _ }
      cases hdry' : args.dryRun with
      | true => exact .same (fun e _ => hdry hdry' e) rfl rfl
      | false => exact .rewrite (fun e _ => hlaw hdry' e) (hsame.1 ▸ hall) rfl
    · simp only [bind_ok_iff, refuse_ok_iff] at h
      obtain ⟨⟨⟩, hvalid', h⟩ := h
      rcases commit_cases (Except.ok.inj h) with ⟨hdry', rfl⟩ | ⟨hdry', rfl⟩
      · exact .same hvalid (fun e _ => hdry hdry' e) rfl rfl rfl
      · have harchive : (if args.status = some .done then some (QueueArchiveToml.mk made.2)
            else none).getD g.archiveToml = ⟨made.2⟩ := by
          rw [harchived]
          split <;> rfl
        refine
          { rows := .rewrite (fun e _ => hlaw hdry' e) hall ?_
            order := ((horder hdry').trans (.of_keys_eq hkeys₄)).mono fun _ => Or.inl
            valid := ?_
            projects := Or.inl rfl
            mark := le_refl _ }
        · rw [writeQueue_archiveToml, harchive, harchived]
        · rwa [Garden.Valid, writeQueue_archiveToml, harchive]
  · obtain ⟨hmem, hid⟩ := Rows.row?_some hrow
    obtain ⟨e₀, he₀, hid₀, rfl⟩ := ((h₁₃.mem row).mp hmem).resolve_left fun hne => hne.2 hid
    have hrow₀ : Rows.row? (·.id) args.id g.queueToml.entries = some e₀ := by
      rw [← hid₀]
      exact Rows.row?_of_mem hkeys he₀
    rw [if_neg fun hsame => List.cons_ne_nil _ _ (List.append_right_eq_self.mp hsame.2)] at h
    simp only [bind_ok_iff, refuse_ok_iff, hdone, if_true] at h
    obtain ⟨⟨⟩, hvalid', h⟩ := h
    rcases commit_cases (Except.ok.inj h) with ⟨hdry', rfl⟩ | ⟨hdry', rfl⟩
    · exact .same hvalid (fun e _ => hdry hdry' e) rfl rfl rfl
    · have hgone : args.id ∉ (Rows.erase (·.id) args.id rows₃).map (·.id) :=
        archived_not_live hvalid' (List.mem_append_right _ (List.mem_singleton_self _)) hid
      refine
        { rows := .archive hrow₀ (fun e _ => ?_) (fun e he hne => ?_) (fun e he => ?_) rfl hid
            (Or.inr ⟨rfl, hactive⟩)
          order := ((horder hdry').mono fun _ => Or.inl).trans
            (Rows.Keeps.erase.mono fun _ hgone' => Or.inr (hgone' ▸ hgone))
          valid := hvalid'
          projects := Or.inl rfl
          mark := le_refl _ }
      · by_cases hid : e.id = args.id
        · rw [if_pos hid, Op.editRow, if_pos ⟨hdry', hid⟩, QueueUpdateEntryArgs.edit, hdone]
        · rw [if_neg hid, Op.editRow, if_neg fun h => hid h.2]
      · exact (Rows.mem_erase hkeys₃).mpr ⟨(h₁₃.mem e).mpr (Or.inl ⟨he, hne⟩), hne⟩
      · obtain ⟨he, hne⟩ := (Rows.mem_erase hkeys₃).mp he
        rcases (h₁₃.mem e).mp he with ⟨he, -⟩ | ⟨e₁, -, hid₁, rfl⟩
        · exact Or.inl ⟨he, hne⟩
        · exact absurd hid₁ hne

/-! ### The daemon's writes -/

section daemon

variable {g g' : Garden}

/-- The row an operation addresses, with the list valid. -/
theorem loadEntryRow_row {entry : String} {loaded : QueueToml × QueueArchiveToml × Entry}
    (h : g.loadEntryRow entry = .ok loaded) : ∃ row, loaded = (g.queueToml, g.archiveToml, row) ∧
      row ∈ g.queueToml.entries ∧ row.id = rowIdOf entry ∧
      Rows.row? (·.id) (rowIdOf entry) g.queueToml.entries = some row := by
  obtain ⟨hqueue, harchive, -, hrow⟩ := loadEntryRow_ok h
  obtain ⟨hmem, hid⟩ := Rows.row?_some hrow
  exact ⟨loaded.2.2, by rw [← hqueue, ← harchive], hmem, hid, hrow⟩

/-- A slice order is written beside the queue files. -/
theorem claimUnit_frame {entry : String} {kind : EntryKind} {unit : Option String}
    (h : claimUnit g entry kind unit = .ok g') :
    g'.queueToml = g.queueToml ∧ g'.archiveToml = g.archiveToml ∧ g'.tasks = g.tasks := by
  cases unit with
  | none =>
    obtain rfl := Except.ok.inj h
    exact ⟨rfl, rfl, rfl⟩
  | some unit =>
    simp only [claimUnit, bind_ok_iff] at h
    obtain ⟨⟨⟩, -, slices, -, items, -, h⟩ := h
    obtain rfl := Except.ok.inj h
    exact ⟨writeSlices_queueToml, writeSlices_archiveToml, writeSlices_tasks⟩

theorem claimEntry_ok {row : Entry} {entries entries' : List Entry}
    (hkeys : (entries.map (·.id)).Nodup) (hrow : row ∈ entries)
    (h : claimEntry row entries = .ok entries') :
    entries'.map (·.id) = entries.map (·.id) ∧
      Rows.Rewrites (·.id) row.id (fun e => { e with status := .active }) entries entries' := by
  have hmodify : Rows.Rewrites (·.id) row.id (fun e : Entry => { e with status := .active })
      entries (Rows.modify (·.id) row.id (fun e => { e with status := .active }) entries) :=
    .modify hkeys fun _ => rfl
  cases hstatus : row.status with
  | queued =>
    simp only [claimEntry, hstatus] at h
    obtain rfl := Except.ok.inj h
    exact ⟨Rows.map_modify fun _ => rfl, hmodify⟩
  | paused =>
    simp only [claimEntry, hstatus] at h
    obtain rfl := Except.ok.inj h
    exact ⟨Rows.map_modify fun _ => rfl, hmodify⟩
  | active =>
    simp only [claimEntry, hstatus] at h
    obtain rfl := Except.ok.inj h
    refine ⟨rfl, .refl fun e he hid => ?_⟩
    rw [List.inj_on_of_nodup_map hkeys he hrow hid, ← hstatus]
  | blocked =>
    simp only [claimEntry, hstatus] at h
    cases h
  | deferred =>
    simp only [claimEntry, hstatus] at h
    cases h

theorem queueStep_claim {entry : String} {unit : Option String} (hvalid : g.Valid)
    (h : queueV2Claim g entry unit = .ok g') : QueueStep (.claim entry unit) g g' := by
  simp only [queueV2Claim, bind_ok_iff, refuse_ok_iff] at h
  obtain ⟨⟨⟩, -, loaded, hload, entries, hclaim, g₁, hunit, ⟨⟩, hvalid', h⟩ := h
  obtain ⟨row, rfl, hmem, hid, -⟩ := loadEntryRow_row hload
  obtain ⟨-, harchive, htasks⟩ := claimUnit_frame hunit
  obtain rfl := Except.ok.inj h
  obtain ⟨hkeys, hrows⟩ := claimEntry_ok (liveIds_nodup_of_valid hvalid) hmem hclaim
  refine
    { rows := .rewrite (fun e _ => ?_) hrows ?_
      order := .of_keys_eq hkeys
      valid := ?_
      projects := Or.inl rfl
      mark := ?_ }
  · simp only [Op.editRow, hid]
  · rw [writeQueue_archiveToml, Option.getD_none, harchive]
  · rwa [Garden.Valid, writeQueue_archiveToml, Option.getD_none, harchive]
  · rw [writeQueue_tasks, htasks]

/-- A write of a slice order changes no row. -/
theorem queueStep_setUnitStatus {entry unit now : String} {new : DaemonStatusArg}
    (hvalid : g.Valid) (h : setUnitStatus g entry unit new = .ok g') :
    QueueStep (.setStatus entry (some unit) new now) g g' := by
  simp only [setUnitStatus, bind_ok_iff] at h
  obtain ⟨slices, -, item, -, status, -, ⟨⟩, -, ⟨⟩, -, h⟩ := h
  obtain rfl := Except.ok.inj h
  exact .same hvalid (fun _ _ => rfl) writeSlices_queueToml writeSlices_archiveToml
    (by rw [writeSlices_tasks])

theorem queueStep_setEntryStatus {entry now : String} {new : DaemonStatusArg} (hvalid : g.Valid)
    (h : setEntryStatus g entry new now = .ok g') :
    QueueStep (.setStatus entry none new now) g g' := by
  simp only [setEntryStatus, bind_ok_iff, ensure_ok_iff] at h
  obtain ⟨loaded, hload, ⟨⟩, hactive, ⟨⟩, -, h⟩ := h
  obtain ⟨row, rfl, hmem, hid, hrow⟩ := loadEntryRow_row hload
  have hkeys := liveIds_nodup_of_valid hvalid
  split at h
  · rename_i hdone
    simp only [bind_ok_iff, refuse_ok_iff] at h
    obtain ⟨⟨⟩, hvalid', h⟩ := h
    obtain rfl := Except.ok.inj h
    have hgone : row.id ∉ (Rows.erase (·.id) row.id g.queueToml.entries).map (·.id) :=
      archived_not_live hvalid' (List.mem_append_right _ (List.mem_singleton_self _)) rfl
    refine
      { rows := .archive hrow (fun e _ => ?_) (fun e he hne => ?_) (fun e he => ?_) rfl hid
          (Or.inl ⟨rfl, entry, now, by rw [hdone], rfl⟩)
        order := Rows.Keeps.erase.mono fun _ hgone' => Or.inr (hgone' ▸ hgone)
        valid := hvalid'
        projects := Or.inl rfl
        mark := le_refl _ }
    · rw [hdone]
      rfl
    · rw [← hid] at hne
      exact (Rows.mem_erase hkeys).mpr ⟨he, hne⟩
    · rw [← hid]
      exact Or.inl ((Rows.mem_erase hkeys).mp he)
  · simp only [bind_ok_iff, refuse_ok_iff, expect_ok_iff] at h
    obtain ⟨status, hstatus, ⟨⟩, hvalid', h⟩ := h
    obtain rfl := Except.ok.inj h
    have hrows : Rows.Rewrites (·.id) row.id (Entry.land status) g.queueToml.entries
        (Rows.modify (·.id) row.id (Entry.land status) g.queueToml.entries) :=
      .modify hkeys fun _ => rfl
    refine
      { rows := .rewrite (fun e _ => ?_) hrows rfl
        order := .of_keys_eq (Rows.map_modify fun _ => rfl)
        valid := hvalid'
        projects := Or.inl rfl
        mark := le_refl _ }
    simp only [Op.editRow, hstatus, Option.map_some, hid]
    split <;> rfl

theorem queueStep_setStatus {entry now : String} {unit : Option String} {new : DaemonStatusArg}
    (hvalid : g.Valid) (h : queueV2SetStatus g entry unit new now = .ok g') :
    QueueStep (.setStatus entry unit new now) g g' := by
  simp only [queueV2SetStatus, bind_ok_iff] at h
  obtain ⟨⟨⟩, -, h⟩ := h
  cases unit with
  | none => exact queueStep_setEntryStatus hvalid h
  | some unit => exact queueStep_setUnitStatus hvalid h

theorem queueStep_followUps {entry : String} {unit : Option String} {count : Nat}
    (hvalid : g.Valid) (h : queueV2FollowUps g entry unit count = .ok g') :
    QueueStep (.followUps entry unit count) g g' := by
  simp only [queueV2FollowUps, bind_ok_iff] at h
  obtain ⟨⟨⟩, -, h⟩ := h
  cases unit with
  | none =>
    simp only [setEntryFollowUps, bind_ok_iff, refuse_ok_iff] at h
    obtain ⟨loaded, hload, ⟨⟩, hvalid', h⟩ := h
    obtain ⟨row, rfl, -, hid, -⟩ := loadEntryRow_row hload
    obtain rfl := Except.ok.inj h
    have hrows : Rows.Rewrites (·.id) row.id (fun e : Entry => { e with followUps := count })
        g.queueToml.entries (Rows.modify (·.id) row.id (fun e => { e with followUps := count })
          g.queueToml.entries) :=
      .modify (liveIds_nodup_of_valid hvalid) fun _ => rfl
    refine
      { rows := .rewrite (fun e _ => ?_) hrows rfl
        order := .of_keys_eq (Rows.map_modify fun _ => rfl)
        valid := hvalid'
        projects := Or.inl rfl
        mark := le_refl _ }
    simp only [Op.editRow, hid]
  | some unit =>
    simp only [setUnitFollowUps, bind_ok_iff, ensure_ok_iff] at h
    obtain ⟨slices, -, item, -, ⟨⟩, -, ⟨⟩, -, h⟩ := h
    obtain rfl := Except.ok.inj h
    exact .same hvalid (fun _ _ => rfl) writeSlices_queueToml writeSlices_archiveToml
      (by rw [writeSlices_tasks])

end daemon

/-- **One accepted request.** It edits or archives each row as `Op.editRow` says, and
the list it leaves validates. -/
theorem apply_rows {op : Op} {g g' : Garden} (hvalid : g.Valid) (h : op.apply g = .ok g') :
    QueueStep op g g' := by
  cases op with
  | queueAddProject args => exact queueStep_addProject hvalid h
  | queueAddEntry args now => exact queueStep_addEntry hvalid h
  | queueUpdateEntry args now => exact queueStep_updateEntry hvalid h
  | sliceInsert args =>
    simp only [Op.apply, sliceInsert, bind_ok_iff] at h
    obtain ⟨⟨⟩, -, ⟨⟩, -, ⟨⟩, -, ⟨⟩, -, position, -, loaded, -, slices, -, ⟨⟩, -, i, -, ⟨⟩, -, h⟩ := h
    rcases commit_cases (Except.ok.inj h) with ⟨-, rfl⟩ | ⟨-, rfl⟩
    · exact .same hvalid (fun _ _ => rfl) rfl rfl rfl
    · exact .same hvalid (fun _ _ => rfl) writeSlice_queueToml writeSlice_archiveToml
        (by rw [writeSlice_tasks])
  | sliceUpdate args =>
    simp only [Op.apply, sliceUpdate, bind_ok_iff] at h
    obtain ⟨⟨⟩, -, ⟨⟩, -, position, -, loaded, -, slices, -, ⟨⟩, -, items, -, items', -, h⟩ := h
    split at h
    · obtain rfl := Except.ok.inj h
      exact .same hvalid (fun _ _ => rfl) rfl rfl rfl
    · simp only [bind_ok_iff] at h
      obtain ⟨⟨⟩, -, h⟩ := h
      rcases commit_cases (Except.ok.inj h) with ⟨-, rfl⟩ | ⟨-, rfl⟩
      · exact .same hvalid (fun _ _ => rfl) rfl rfl rfl
      · exact .same hvalid (fun _ _ => rfl) writeSlices_queueToml writeSlices_archiveToml
          (by rw [writeSlices_tasks])
  | queueDrop args order now => exact queueStep_drop hvalid h
  | claim entry unit => exact queueStep_claim hvalid h
  | setStatus entry unit new now => exact queueStep_setStatus hvalid h
  | followUps entry unit count => exact queueStep_followUps hvalid h
  | sessionLog entry line =>
    simp only [Op.apply, queueV2SessionLog, bind_ok_iff] at h
    obtain ⟨⟨⟩, -, ⟨⟩, -, loaded, -, h⟩ := h
    obtain rfl := Except.ok.inj h
    exact .same hvalid (fun _ _ => rfl) rfl rfl rfl
  | deferred entry tests =>
    simp only [Op.apply, queueV2Deferred, bind_ok_iff] at h
    obtain ⟨⟨⟩, -, ⟨⟩, -, ⟨⟩, -, loaded, -, h⟩ := h
    obtain rfl := Except.ok.inj h
    exact .same hvalid (fun _ _ => rfl) rfl rfl rfl
  | addSub args =>
    simp only [Op.apply, queueV2AddSub, bind_ok_iff] at h
    obtain ⟨⟨⟩, -, ⟨⟩, -, ⟨⟩, -, ⟨⟩, -, ⟨⟩, -, h⟩ := h
    split at h
    · cases h
    · simp only [bind_ok_iff] at h
      obtain ⟨⟨⟩, -, parent, -, items, -, ⟨⟩, -, ⟨⟩, -, h⟩ := h
      obtain rfl := Except.ok.inj h
      refine .same hvalid (fun _ _ => rfl) ?_ ?_ ?_
      · rw [writeMilestone_queueToml, writeSlices_queueToml]
      · rw [writeMilestone_archiveToml, writeSlices_archiveToml]
      · rw [writeMilestone_tasks, writeSlices_tasks]

theorem queueSystem_step {g g' : Garden} {op : Op} :
    queueSystem.step g op g' ↔ op.apply g = .ok g' := by
  show (op.apply g).toOption = some g' ↔ _
  cases op.apply g with
  | ok after => simp [Except.toOption]
  | error e => simp [Except.toOption]

/-- The list of a reachable garden validates. -/
theorem valid_of_reachable {g : Garden} (h : queueSystem.Reachable g) : g.Valid := by
  refine System.Reachable.invariant ?_ ?_ h
  · rintro g rfl
    rfl
  · intro g op g' _ hvalid hstep
    exact (apply_rows hvalid (queueSystem_step.mp hstep)).valid

end Softfig.Queue
