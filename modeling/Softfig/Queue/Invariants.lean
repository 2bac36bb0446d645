import Softfig.Queue.Items

/-!
What holds of the queue files in every reachable garden, whatever verbs and
daemon writes came before.

- `queue_states`: the files validate, one item of an order is active at most,
  human statuses wait on active rows only, an id stays in exactly one of the list
  and the archive, and a status that waits is replaced by a human, lands with the
  daemon's next status, or is dropped by its `done` or `blocked`.
-/

namespace Softfig.Queue

open Lib

/-! ### One active item -/

/-- At most one item of a slice order is active. -/
def OneActive (items : List SliceItem) : Prop :=
  (items.filter fun i => i.status = .active).length ≤ 1

theorem oneActive_iff {items : List SliceItem} (hids : (items.map (·.id)).Nodup) :
    OneActive items ↔ ∀ i ∈ items, ∀ j ∈ items, i.status = .active → j.status = .active →
      i.id = j.id := by
  rw [OneActive, Rows.filter_length_le_one_iff hids]
  simp only [decide_eq_true_eq]

/-- An edit of one item that starts none but the only one keeps at most one active. -/
theorem OneActive.rewrites {id : String} {f : SliceItem → SliceItem}
    {items items' : List SliceItem} (hids : (items.map (·.id)).Nodup) (hone : OneActive items)
    (h : Rows.Rewrites (·.id) id f items items') (hf : ∀ i, (f i).id = i.id)
    (hstart : ∀ i ∈ items, (f i).status = .active → i.status = .active ∨
      ∀ j ∈ items, j.status = .active → j.id = id) : OneActive items' := by
  rw [oneActive_iff hids] at hone
  rw [oneActive_iff (h.keys.nodup_iff.mpr hids)]
  intro i hi j hj hactive hactive'
  rcases (h.mem i).mp hi with ⟨hi, hne⟩ | ⟨i, hi₀, hid, rfl⟩
  · rcases (h.mem j).mp hj with ⟨hj, -⟩ | ⟨j, hj₀, hid', rfl⟩
    · exact hone i hi j hj hactive hactive'
    · rw [hf]
      rcases hstart j hj₀ hactive' with hwas | honly
      · exact hone i hi j hj₀ hactive hwas
      · exact absurd (honly i hi hactive) hne
  · rw [hf]
    rcases (h.mem j).mp hj with ⟨hj, hne⟩ | ⟨j, hj, hid', rfl⟩
    · rcases hstart i hi₀ hactive with hwas | honly
      · exact hone i hi₀ j hj hwas hactive'
      · exact absurd (honly j hj hactive') hne
    · rw [hf]
      exact hid.trans hid'.symm

/-- A queued item put in is not active. -/
theorem OneActive.insert {items : List SliceItem} {k : Nat} {item : SliceItem}
    (h : OneActive items) (hk : k ≤ items.length) (hqueued : item.status = .queued) :
    OneActive (items.insertIdx k item) := by
  have hperm := (List.perm_insertIdx item items hk).filter (fun i => i.status = .active)
  unfold OneActive
  rw [hperm.length_eq, List.filter_cons_of_neg (by simp [hqueued])]
  exact h

theorem OneActive.step {g : Garden} {op : Op} {milestone : String} {items items' : List SliceItem}
    (hids : (items.map (·.id)).Nodup) (hone : OneActive items)
    (h : ItemsStep g op milestone items items') : OneActive items' := by
  cases h with
  | @update args _ _ _ _ _ _ _ hmove hstatus =>
    have hmoved := moveItem_ok hids hmove
    have hids' := hmoved.keys.nodup_iff.mpr hids
    have hone' := hone.rewrites hids hmoved (fun _ => rfl) fun _ _ h => Or.inl h
    obtain ⟨f, hf, hactive, -, hrows⟩ := setItemStatus_ok hids' hstatus
    refine hone'.rewrites hids' hrows (fun i => (hf i).2.1) fun i _ h => Or.inl ?_
    rw [(hf i).2.2] at h
    cases hnew : args.status with
    | none => rwa [hnew] at h
    | some new => exact absurd (h ▸ hnew ▸ rfl) hactive
  | claim hclaim =>
    obtain ⟨item, -, honly, ⟨-, rfl⟩ | ⟨-, rfl⟩⟩ := claimItem_ok hclaim
    · refine hone.rewrites hids (f := fun i => { i with status := .active })
        (.modify hids fun _ => rfl) (fun _ => rfl) fun _ _ _ => Or.inr honly
    · exact hone
  | setStatus _ hstatus _ =>
    refine hone.rewrites hids (.modify hids (setStatus_id _)) (setStatus_id _) fun i _ h => ?_
    rw [setStatus_status] at h
    exact absurd h (sliceStatusOf_ne_active hstatus)
  | @followUps _ _ count _ _ _ _ =>
    exact hone.rewrites hids (f := fun i => { i with followUps := some count })
      (.modify hids fun _ => rfl) (fun _ => rfl) fun _ _ h => Or.inl h
  | @split args _ _ _ hsplit =>
    obtain ⟨item, p, -, -, -, hp, rfl⟩ := splitItems_ok hsplit
    have hrows : Rows.Rewrites (·.id) args.slice (fun i : SliceItem => { i with status := .split })
        items (Rows.modify (·.id) args.slice (fun i => { i with status := .split }) items) :=
      .modify hids fun _ => rfl
    refine (hone.rewrites hids hrows (fun _ => rfl) fun _ _ h => absurd h (by simp)).insert ?_ rfl
    have hlength : (Rows.modify (·.id) args.slice
        (fun i : SliceItem => { i with status := .split }) items).length = items.length := by
      have := hrows.keys.length_eq
      rwa [List.length_map, List.length_map] at this
    have := Rows.position?_lt hp
    split
    · exact le_refl _
    · omega

/-! ### The files -/

/-- What holds of the files of a reachable garden. -/
structure QueueInvariant (g : Garden) : Prop where
  queue : g.queueToml.validate g.archiveToml = .ok ()
  orders : ∀ m dir, g.milestones.lookup m = some dir → dir.slices.validate m = .ok ()
  oneActive : ∀ m dir, g.milestones.lookup m = some dir → OneActive dir.slices.items
  waiting : ∀ e ∈ g.queueToml.entries, e.pendingStatus.isSome = true → e.status = .active
  settled : ∀ a ∈ g.archiveToml.entries, a.row.pendingStatus = none

/-- What holds of a folder, if it is there. -/
def DirInvariant (milestone : String) (dir : Option MilestoneDir) : Prop :=
  ∀ d, dir = some d → d.slices.validate milestone = .ok () ∧ OneActive d.slices.items

theorem DirInvariant.step {g : Garden} {op : Op} {milestone : String}
    {dir dir' : Option MilestoneDir} (hdir : DirInvariant milestone dir)
    (h : DirStep g op milestone dir dir') : DirInvariant milestone dir' := by
  have hnew (identity : String) (slices : List QueueSliceSpec) :
      DirInvariant identity (some (newDir identity slices)) := by
    rintro d ⟨⟩
    refine ⟨validate_newDir, ?_⟩
    have hnone : (newSlices slices).1.filter (fun i => i.status = .active) = [] := by
      refine List.filter_eq_nil_iff.mpr fun item hitem => ?_
      rw [newSlices_queued hitem]
      simp
    show OneActive (newSlices slices).1
    unfold OneActive
    rw [hnone]
    exact Nat.zero_le _
  cases h with
  | same => exact hdir
  | items hvalid hitems hvalid' =>
    rintro d ⟨⟩
    obtain ⟨-, hids, -⟩ := SlicesToml.validate_ok_iff.mp hvalid
    exact ⟨hvalid', OneActive.step hids (hdir _ rfl).2 hitems⟩
  | insert _ _ _ _ hplace hvalid' =>
    rintro d ⟨⟩
    exact ⟨hvalid', (hdir _ rfl).2.insert (placeItem_le hplace) rfl⟩
  | milestone => exact hnew _ _
  | sub => exact hnew _ _

/-- A row waits for the daemon only while it is active. -/
theorem waiting_editRow {op : Op} {e e' : Entry} (h : op.editRow e = some e')
    (hwaiting : e.pendingStatus.isSome = true → e.status = .active)
    (hpending : e'.pendingStatus.isSome = true) : e'.status = .active := by
  have hrequest (new : EntryStatus) (e : Entry)
      (hwaiting : e.pendingStatus.isSome = true → e.status = .active)
      (hpending : (e.request new).pendingStatus.isSome = true) :
      (e.request new).status = .active := by
    unfold Entry.request at hpending ⊢
    split at hpending
    · rename_i hactive
      rwa [if_pos hactive]
    · rename_i hactive
      exact absurd (hwaiting hpending) hactive
  unfold Op.editRow at h
  split at h
  · obtain rfl := Option.some.inj h
    split at hpending
    · rename_i hid
      rw [if_pos hid]
    · rename_i hid
      rw [if_neg hid]
      exact hwaiting hpending
  · split at h
    · obtain ⟨s, -, rfl⟩ := Option.map_eq_some_iff.mp h
      cases hpending
    · obtain rfl := Option.some.inj h
      exact hwaiting hpending
  · obtain rfl := Option.some.inj h
    split at hpending
    · rename_i hid
      rw [if_pos hid]
      exact hwaiting hpending
    · rename_i hid
      rw [if_neg hid]
      exact hwaiting hpending
  · split at h
    · unfold QueueUpdateEntryArgs.edit at h
      dsimp only at h
      split at h
      · obtain rfl := Option.some.inj h
        exact hwaiting hpending
      · obtain rfl := Option.some.inj h
        exact hwaiting hpending
      · obtain rfl := Option.some.inj h
        exact hwaiting hpending
      · obtain rfl := Option.some.inj h
        exact hwaiting hpending
      · obtain rfl := Option.some.inj h
        exact hrequest _ _ hwaiting hpending
      · obtain rfl := Option.some.inj h
        exact hrequest _ _ hwaiting hpending
      · obtain rfl := Option.some.inj h
        exact hrequest _ _ hwaiting hpending
      · cases h
    · obtain rfl := Option.some.inj h
      exact hwaiting hpending
  · split at h
    · cases h
    · obtain rfl := Option.some.inj h
      exact hwaiting hpending
  · obtain rfl := Option.some.inj h
    exact hwaiting hpending

theorem QueueInvariant.step {op : Op} {g g' : Garden} (hg : QueueInvariant g)
    (h : op.apply g = .ok g') : QueueInvariant g' := by
  have hrows := apply_rows hg.queue h
  have hdirs (m : String) : DirInvariant m (g'.milestones.lookup m) :=
    DirInvariant.step (fun d hd => ⟨hg.orders m d hd, hg.oneActive m d hd⟩) (apply_dirs h m)
  refine
    { queue := hrows.valid
      orders := fun m d hd => (hdirs m d hd).1
      oneActive := fun m d hd => (hdirs m d hd).2
      waiting := fun e' he' hpending => ?_
      settled := fun a ha => ?_ }
  · rcases hrows.rows.source e' he' with ⟨e, he, hedit⟩ | hnew
    · exact waiting_editRow hedit (hg.waiting e he) hpending
    · rw [hnew.settled] at hpending
      cases hpending
  · obtain ⟨moved, harchive, -, hmoved⟩ := hrows.rows.archived
    rw [harchive] at ha
    rcases List.mem_append.mp ha with ha | ha
    · exact hg.settled a ha
    · obtain ⟨e, he, -, -, ⟨hnone, -⟩ | ⟨hsame, hactive⟩⟩ := hmoved a ha
      · exact hnone
      · rw [hsame]
        cases hpending : e.pendingStatus with
        | none => rfl
        | some s => exact absurd (hg.waiting e he (by rw [hpending]; rfl)) hactive

theorem queueInvariant_of_reachable {g : Garden} (h : queueSystem.Reachable g) :
    QueueInvariant g := by
  refine System.Reachable.invariant ?_ ?_ h
  · rintro g rfl
    refine
      { queue := rfl
        orders := fun m dir hdir => ?_
        oneActive := fun m dir hdir => ?_
        waiting := fun e he => ?_
        settled := fun a ha => ?_ }
    · cases hdir
    · cases hdir
    · cases he
    · cases ha
  · intro g op g' _ hg hstep
    exact hg.step (queueSystem_step.mp hstep)

/-! ### Ids -/

theorem mem_allIds {queue : QueueToml} {archive : QueueArchiveToml} {id : String} :
    id ∈ queue.allIds archive ↔
      (∃ e ∈ queue.entries, e.id = id) ∨ ∃ a ∈ archive.entries, a.row.id = id := by
  simp [QueueToml.allIds]

/-- No request loses an id. -/
theorem mem_allIds_step {op : Op} {g g' : Garden} (hstep : QueueStep op g g') {id : String}
    (hid : id ∈ g.queueToml.allIds g.archiveToml) :
    id ∈ g'.queueToml.allIds g'.archiveToml := by
  obtain ⟨moved, harchive, hmoved, -⟩ := hstep.rows.archived
  rw [mem_allIds, harchive]
  rcases mem_allIds.mp hid with ⟨e, he, rfl⟩ | ⟨a, ha, rfl⟩
  · cases hedit : op.editRow e with
    | some e' => exact Or.inl ⟨e', hstep.rows.kept e he e' hedit, entry_id_of_editRow hedit⟩
    | none =>
      obtain ⟨a, ha, hid⟩ := hmoved e he hedit
      exact Or.inr ⟨a, List.mem_append_right _ ha, hid⟩
  · exact Or.inr ⟨a, List.mem_append_left _ ha, rfl⟩

theorem mem_allIds_run {g g' : Garden} {ops : List Op} (hg : QueueInvariant g)
    (hrun : queueSystem.Run g ops g') {id : String}
    (hid : id ∈ g.queueToml.allIds g.archiveToml) :
    id ∈ g'.queueToml.allIds g'.archiveToml := by
  have hboth : QueueInvariant g' ∧ id ∈ g'.queueToml.allIds g'.archiveToml := by
    refine hrun.invariant (P := fun g => QueueInvariant g ∧
      id ∈ g.queueToml.allIds g.archiveToml) ?_ ⟨hg, hid⟩
    rintro g op g' ⟨hg, hid⟩ hstep
    have happly := queueSystem_step.mp hstep
    exact ⟨hg.step happly, mem_allIds_step (apply_rows hg.queue happly) hid⟩
  exact hboth.2

/-! ### A status that waits -/

def QueueStatusArg.requested : QueueStatusArg → Option EntryStatus
  | .queued => some .queued
  | .blocked => some .blocked
  | .deferred => some .deferred
  | .done | .active | .paused | .split => none

/-- The status a human request asks of a row. -/
def Op.requested (op : Op) (id : String) : Option EntryStatus :=
  match op with
  | .queueUpdateEntry args _ =>
    if args.dryRun = false ∧ id = args.id then args.status.bind QueueStatusArg.requested else none
  | _ => none

/-- The status the daemon writes on a row. -/
def Op.written (op : Op) (id : String) : Option DaemonStatusArg :=
  match op with
  | .setStatus entry none new _ => if id = rowIdOf entry then some new else none
  | _ => none

/-- What becomes of a human status that waits on a row. -/
inductive PendingFate (op : Op) (g' : Garden) (id : String) (s : EntryStatus) : Prop where
  | kept {e : Entry} : op.requested id = none → op.written id = none →
      e ∈ g'.queueToml.entries → e.id = id → e.pendingStatus = some s → PendingFate op g' id s
  | replaced {new : EntryStatus} {e : Entry} : op.requested id = some new →
      e ∈ g'.queueToml.entries → e.id = id → e.pendingStatus = some new → PendingFate op g' id s
  | applied {new : DaemonStatusArg} {e : Entry} : op.written id = some new → new ≠ .done →
      new ≠ .blocked → e ∈ g'.queueToml.entries → e.id = id → e.status = s →
      e.pendingStatus = none → PendingFate op g' id s
  | blocked {e : Entry} : op.written id = some .blocked → e ∈ g'.queueToml.entries → e.id = id →
      e.status = .blocked → e.pendingStatus = none → PendingFate op g' id s
  | done {a : ArchivedEntry} : op.written id = some .done → a ∈ g'.archiveToml.entries →
      a.row.id = id → a.row.pendingStatus = none → PendingFate op g' id s

/-- The status that lands. -/
theorem land_status (new : EntryStatus) (e : Entry) : (e.land new).status =
    if new = .blocked then new else e.pendingStatus.getD new := rfl

/-- An update of an active row leaves it live. -/
theorem edit_active {args : QueueUpdateEntryArgs} {e : Entry} {s : EntryStatus}
    (hactive : e.status = .active) (hpending : e.pendingStatus = some s)
    (hdone : args.status ≠ some .done) : ∃ e', args.edit e = some e' ∧
      e'.pendingStatus = some ((args.status.bind QueueStatusArg.requested).getD s) := by
  have hrequest (new : EntryStatus) : ∃ e', some (Entry.request new
      { e with lane := args.lane.getD e.lane, after := args.after.getD e.after }) = some e' ∧
        e'.pendingStatus = some new := by
    refine ⟨_, rfl, ?_⟩
    rw [Entry.request, if_pos hactive]
  unfold QueueUpdateEntryArgs.edit
  cases hstatus : args.status with
  | none => exact ⟨_, rfl, hpending⟩
  | some new =>
    cases new with
    | queued => exact hrequest .queued
    | blocked => exact hrequest .blocked
    | deferred => exact hrequest .deferred
    | done => exact absurd hstatus hdone
    | active => exact ⟨_, rfl, hpending⟩
    | paused => exact ⟨_, rfl, hpending⟩
    | split => exact ⟨_, rfl, hpending⟩

theorem pending_fate {op : Op} {g g' : Garden} (hg : QueueInvariant g)
    (h : op.apply g = .ok g') {e : Entry} (he : e ∈ g.queueToml.entries) {s : EntryStatus}
    (hpending : e.pendingStatus = some s) : PendingFate op g' e.id s := by
  have hactive : e.status = .active := hg.waiting e he (by rw [hpending]; rfl)
  have hrows := (apply_rows hg.queue h).rows
  -- an active row leaves the list by the daemon's `done` only
  have hclosed (hnone : op.editRow e = none) : op.Closes e.id ∧ ∃ a ∈ g'.archiveToml.entries,
      a.row.id = e.id ∧ a.row.pendingStatus = none := by
    obtain ⟨moved, harchive, hmoved, hsource⟩ := hrows.archived
    obtain ⟨a, ha, hid⟩ := hmoved e he hnone
    obtain ⟨e₁, he₁, -, hid₁, hwhy⟩ := hsource a ha
    obtain rfl : e₁ = e := List.inj_on_of_nodup_map (liveIds_nodup_of_valid hg.queue) he₁ he
      (hid₁.symm.trans hid)
    rcases hwhy with ⟨hsettled, hcloses⟩ | ⟨-, hne⟩
    · exact ⟨hcloses, a, harchive ▸ List.mem_append_right _ ha, hid, hsettled⟩
    · exact absurd hactive hne
  have hkept (hreq : op.requested e.id = none) (hwrite : op.written e.id = none) {e' : Entry}
      (hedit : op.editRow e = some e') (hsame : e'.pendingStatus = e.pendingStatus) :
      PendingFate op g' e.id s :=
    .kept hreq hwrite (hrows.kept e he e' hedit) (entry_id_of_editRow hedit) (hsame.trans hpending)
  cases op with
  | queueUpdateEntry args now =>
    by_cases hmine : args.dryRun = false ∧ e.id = args.id
    · have hedit : Op.editRow (.queueUpdateEntry args now) e = args.edit e := if_pos hmine
      by_cases hdone : args.status = some .done
      · obtain ⟨⟨entry, now', hop, -⟩, -⟩ := hclosed (by
          rw [hedit, QueueUpdateEntryArgs.edit, hdone])
        cases hop
      · obtain ⟨e', hsome, hnew⟩ := edit_active hactive hpending hdone
        have hreq : Op.requested (.queueUpdateEntry args now) e.id =
            args.status.bind QueueStatusArg.requested := if_pos hmine
        have hmem := hrows.kept e he e' (hedit.trans hsome)
        have hid := entry_id_of_editRow (hedit.trans hsome)
        cases hnew' : args.status.bind QueueStatusArg.requested with
        | none =>
          rw [hnew', Option.getD_none] at hnew
          exact .kept (hreq.trans hnew') rfl hmem hid hnew
        | some new =>
          rw [hnew', Option.getD_some] at hnew
          exact .replaced (hreq.trans hnew') hmem hid hnew
    · exact hkept (if_neg hmine) rfl (if_neg hmine) rfl
  | setStatus entry unit new now =>
    cases unit with
    | some unit => exact hkept rfl rfl rfl rfl
    | none =>
      by_cases hmine : e.id = rowIdOf entry
      · have hwrite : Op.written (.setStatus entry none new now) e.id = some new := if_pos hmine
        have hedit : Op.editRow (.setStatus entry none new now) e =
            (entryStatusOf new).map fun s => e.land s := if_pos hmine
        cases hstatus : entryStatusOf new with
        | none =>
          obtain ⟨⟨entry', now', hop, -⟩, a, ha, hid, hsettled⟩ := hclosed (by
            rw [hedit, hstatus]
            rfl)
          cases hop
          exact .done hwrite ha hid hsettled
        | some landed =>
          rw [hstatus] at hedit
          have hmem := hrows.kept e he _ hedit
          by_cases hblocked : landed = .blocked
          · obtain rfl : new = .blocked := by
              cases new <;> cases hstatus <;> first | rfl | cases hblocked
            exact .blocked hwrite hmem rfl (by rw [land_status, if_pos hblocked, hblocked]) rfl
          · refine .applied hwrite ?_ ?_ hmem rfl ?_ rfl
            · rintro rfl
              cases hstatus
            · rintro rfl
              cases hstatus
              exact hblocked rfl
            · rw [land_status, if_neg hblocked, hpending]
              rfl
      · exact hkept rfl (if_neg hmine) (if_neg hmine) rfl
  | claim entry unit =>
    refine hkept rfl rfl rfl ?_
    split <;> rfl
  | followUps entry unit count =>
    cases unit with
    | some unit => exact hkept rfl rfl rfl rfl
    | none =>
      refine hkept rfl rfl rfl ?_
      split <;> rfl
  | queueDrop args order now =>
    by_cases hmine : args.dryRun = false ∧ e.id = args.id
    · obtain ⟨⟨entry, now', hop, -⟩, -⟩ := hclosed (if_pos hmine)
      cases hop
    · exact hkept rfl rfl (if_neg hmine) rfl
  | queueAddProject args => exact hkept rfl rfl rfl rfl
  | queueAddEntry args now => exact hkept rfl rfl rfl rfl
  | sliceInsert args => exact hkept rfl rfl rfl rfl
  | sliceUpdate args => exact hkept rfl rfl rfl rfl
  | sessionLog entry line => exact hkept rfl rfl rfl rfl
  | deferred entry tests => exact hkept rfl rfl rfl rfl
  | addSub args => exact hkept rfl rfl rfl rfl

/-- **The states of the queue.** In every reachable garden the files validate, one
item of an order is active at most and only active rows have a status waiting;
from there on each id is in the list or the archive, once, and each accepted
request keeps a waiting status, replaces it, lands it or drops it. -/
theorem queue_states :
    (∀ g, queueSystem.Reachable g → QueueInvariant g) ∧
      (∀ g ops g', queueSystem.Reachable g → queueSystem.Run g ops g' →
        ∀ id ∈ g.queueToml.allIds g.archiveToml,
          (g'.queueToml.allIds g'.archiveToml).count id = 1) ∧
      ∀ g op g', queueSystem.Reachable g → queueSystem.step g op g' →
        ∀ e ∈ g.queueToml.entries, ∀ s, e.pendingStatus = some s →
          PendingFate op g' e.id s := by
  refine ⟨fun g => queueInvariant_of_reachable, ?_, ?_⟩
  · intro g ops g' hreach hrun id hid
    have hg' := queueInvariant_of_reachable (hreach.run hrun)
    have hnodup := (validate_ok_iff.mp hg'.queue).idsDistinct
    exact List.count_eq_one_of_mem hnodup
      (mem_allIds_run (queueInvariant_of_reachable hreach) hrun hid)
  · intro g op g' hreach hstep e he s hpending
    exact pending_fate (queueInvariant_of_reachable hreach) (queueSystem_step.mp hstep) he hpending

/-- A project with one task, which the daemon claims and a human blocks. -/
def waitingOps : List Op :=
  [.queueAddProject ⟨"app", "r", none, false⟩,
    .queueAddEntry ⟨none, .task, some "fix", some "Fix", some "m", some "f", "app", none, [], none,
      none, [], false⟩ "t0",
    .claim "001" none,
    .queueUpdateEntry ⟨"001", none, none, none, some .blocked, false⟩ "t1"]

theorem queue_states_waiting : ∃ g g' e, queueSystem.Reachable g ∧ e ∈ g.queueToml.entries ∧
    e.id = "001" ∧ e.status = .active ∧ QueueInvariant g ∧
    (g.queueToml.allIds g.archiveToml).count "001" = 1 ∧
    PendingFate (.setStatus "001" none .paused "t2") g' e.id .blocked := by
  obtain ⟨g, hreach, hg⟩ := exists_reachable waitingOps (fun g =>
    ((Op.setStatus "001" none .paused "t2").apply g).toOption.isSome &&
      g.queueToml.entries.any fun e =>
        e.id = "001" && e.status = .active && e.pendingStatus = some .blocked) (by decide +kernel)
  simp only [Bool.and_eq_true, List.any_eq_true, decide_eq_true_eq] at hg
  obtain ⟨haccepted, e, he, ⟨hid, hactive⟩, hpending⟩ := hg
  obtain ⟨g', hstep⟩ := Option.isSome_iff_exists.mp haccepted
  have hmem : "001" ∈ g.queueToml.allIds g.archiveToml := mem_allIds.mpr (Or.inl ⟨e, he, hid⟩)
  refine ⟨g, g', e, hreach, he, hid, hactive, queue_states.1 g hreach, ?_, ?_⟩
  · exact queue_states.2.1 g [] g hreach (.refl g) "001" hmem
  · exact queue_states.2.2 g _ g' hreach hstep e he .blocked hpending

end Softfig.Queue
