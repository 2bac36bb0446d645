import Softfig.Queue.Agreement

/-!
Numbers handed out: tasks and restacks number one folder, slices that of their
milestone, and a human's slug lives among the numbers.

- `WriterInvariant.insert`: a fresh queued row put in its lane keeps a list valid;
- `adds_accepted`: where no milestone is named by a number, every well-formed
  request for a new entry or slice is accepted;
- `adds_accepted_fails`: a milestone named `001` refuses every task of its list.
-/

namespace Softfig.Queue

open Lib

/-! ### Placement in a lane -/

section place

variable {entries : List Entry} {lane : Lane} {position : Position} {i : Nat}

/-- The position is next to a row of the lane, or the end of an empty lane. -/
def NextTo (entries : List Entry) (lane : Lane) (i : Nat) : Prop :=
  (∃ p e, entries[p]? = some e ∧ e.lane = lane ∧ (i = p ∨ i = p + 1)) ∨
    (lane = .urgent ∧ i = 0) ∨ (lane = .normal ∧ i = entries.length)

theorem laneFront_nextTo (entries : List Entry) (lane : Lane) :
    NextTo entries lane (laneFront entries lane) := by
  unfold laneFront
  split
  · rename_i p hp
    obtain ⟨hlt, hlane, -⟩ := List.findIdx?_eq_some_iff_getElem.mp hp
    exact Or.inl ⟨p, entries[p], List.getElem?_eq_getElem hlt, of_decide_eq_true hlane, Or.inl rfl⟩
  · cases lane with
    | urgent => exact Or.inr (Or.inl ⟨rfl, rfl⟩)
    | normal => exact Or.inr (Or.inr ⟨rfl, rfl⟩)

theorem laneBack_nextTo (entries : List Entry) (lane : Lane) :
    NextTo entries lane (laneBack entries lane) := by
  unfold laneBack
  split
  · rename_i k hk
    obtain ⟨hlt, hlane, -⟩ := List.findIdx?_eq_some_iff_getElem.mp hk
    have hget := List.getElem?_eq_getElem hlt
    rw [List.length_reverse] at hlt
    rw [List.getElem?_reverse hlt] at hget
    exact Or.inl ⟨_, _, hget, of_decide_eq_true hlane, Or.inr (by omega)⟩
  · exact laneFront_nextTo entries lane

theorem refIndex_row {ref : String} {p : Nat} (h : refIndex entries lane ref = .ok p) :
    ∃ e, entries[p]? = some e ∧ e.lane = lane := by
  rw [refIndex] at h
  split at h
  · rename_i e j he hj
    split at h
    · cases h
    · rename_i hlane
      obtain rfl := Except.ok.inj h
      rw [Rows.row?, List.find?_eq_bind_findIdx?_getElem?] at he
      rw [Rows.position?] at hj
      rw [hj] at he
      exact ⟨e, he, not_not.mp hlane⟩
  · cases h

theorem placeEntry_nextTo (h : placeEntry entries lane position = .ok i) :
    NextTo entries lane i := by
  cases position with
  | front =>
    obtain rfl := Except.ok.inj h
    exact laneFront_nextTo entries lane
  | back =>
    obtain rfl := Except.ok.inj h
    exact laneBack_nextTo entries lane
  | before ref =>
    obtain ⟨e, he, hlane⟩ := refIndex_row h
    exact Or.inl ⟨i, e, he, hlane, Or.inl rfl⟩
  | after ref =>
    rw [placeEntry] at h
    cases hp : refIndex entries lane ref with
    | error refusal => simp [hp, Except.map] at h
    | ok p =>
      simp only [hp, Except.map, Except.ok.injEq] at h
      obtain ⟨e, he, hlane⟩ := refIndex_row hp
      exact Or.inl ⟨p, e, he, hlane, Or.inr h.symm⟩

/-- Before a place of the urgent lane all is urgent, behind one of the normal lane
all is normal. -/
theorem NextTo.lanes (h : NextTo entries lane i)
    (hurgent : entries.Pairwise fun a b => a.lane = .normal → b.lane ≠ .urgent) :
    (lane = .urgent → ∀ e ∈ entries.take i, e.lane ≠ .normal) ∧
      (lane = .normal → ∀ e ∈ entries.drop i, e.lane ≠ .urgent) := by
  rcases h with ⟨p, e, he, rfl, hi⟩ | ⟨rfl, rfl⟩ | ⟨rfl, rfl⟩
  · obtain ⟨hlt, rfl⟩ := List.getElem?_eq_some_iff.mp he
    rw [List.pairwise_iff_getElem] at hurgent
    constructor
    · intro hlane x hx hnormal
      obtain ⟨k, hk⟩ := List.getElem?_of_mem hx
      rw [List.getElem?_take] at hk
      split at hk
      · rename_i hki
        obtain ⟨hlt', rfl⟩ := List.getElem?_eq_some_iff.mp hk
        rcases Nat.lt_or_ge k p with hkp | hkp
        · exact hurgent k p hlt' hlt hkp hnormal hlane
        · obtain rfl : k = p := by omega
          rw [hlane] at hnormal
          cases hnormal
      · cases hk
    · intro hlane x hx hlate
      obtain ⟨k, hk⟩ := List.getElem?_of_mem hx
      rw [List.getElem?_drop] at hk
      obtain ⟨hlt', rfl⟩ := List.getElem?_eq_some_iff.mp hk
      rcases Nat.lt_or_ge p (i + k) with hpk | hpk
      · exact hurgent p (i + k) hlt hlt' hpk hlane hlate
      · obtain rfl : i + k = p := by omega
        rw [hlane] at hlate
        cases hlate
  · exact ⟨fun _ x hx => absurd hx List.not_mem_nil, nofun⟩
  · refine ⟨nofun, fun _ x hx => ?_⟩
    rw [List.drop_length] at hx
    exact absurd hx List.not_mem_nil

end place

/-! ### A fresh row -/

section fresh

variable {queue : QueueToml} {archive : QueueArchiveToml} {entry : Entry} {i : Nat}

/-- A queued row of a fresh id, put in its lane, keeps the writer's invariants. -/
theorem WriterInvariant.insert (h : queue.WriterInvariant archive)
    (hfresh : entry.id ∉ queue.allIds archive) (hproject : entry.project ∈ queue.projects.map (·.name))
    (hlinks : ∀ link ∈ entry.after, link ∈ queue.entries.map (·.id) ∨ link ∈ archive.doneIds)
    (hqueued : entry.status = .queued) (hrestack : entry.kind = .restack → entry.lane = .urgent)
    (hle : i ≤ queue.entries.length) (hplace : NextTo queue.entries entry.lane i) :
    QueueToml.WriterInvariant { queue with entries := queue.entries.insertIdx i entry } archive := by
  have hmem {e : Entry} : e ∈ queue.entries.insertIdx i entry ↔ e = entry ∨ e ∈ queue.entries :=
    List.mem_insertIdx hle
  have hlive : entry.id ∉ queue.entries.map (·.id) := fun hlive =>
    hfresh (List.mem_append_left _ hlive)
  -- no row waits for an id that was not there
  have hunlinked : ∀ e ∈ queue.entries.insertIdx i entry, entry.id ∉ e.after := by
    intro e he hlink
    have hresolved : entry.id ∈ queue.entries.map (·.id) ∨ entry.id ∈ archive.doneIds := by
      rcases hmem.mp he with rfl | he
      · exact hlinks _ hlink
      · refine (h.linksResolve e he _ hlink).imp_left ?_
        rintro ⟨l, hl, hid⟩
        exact List.mem_map.mpr ⟨l, hl, hid⟩
    rcases hresolved with hlive' | hdone
    · exact hlive hlive'
    · obtain ⟨a, ha, hid⟩ := List.mem_map.mp hdone
      refine hfresh (List.mem_append_right _ (List.mem_map.mpr ⟨a, ?_, hid⟩))
      exact (List.mem_filter.mp ha).1
  obtain ⟨hbefore, hbehind⟩ := hplace.lanes h.urgentFirst
  refine
    { urgentFirst := ?_
      restackUrgent := fun e he hkind => ?_
      idsDistinct := ?_
      linksResolve := fun e he link hlink => ?_
      linksAcyclic := fun e hcycle => ?_
      projectsExist := fun e he => ?_
      oneStarted := fun repo => ?_ }
  · have hsplit := h.urgentFirst
    rw [← List.take_append_drop i queue.entries, List.pairwise_append] at hsplit
    obtain ⟨htake, hdrop, hcross⟩ := hsplit
    show (queue.entries.insertIdx i entry).Pairwise _
    rw [Rows.insertIdx_eq hle, List.pairwise_append, List.pairwise_cons]
    refine ⟨htake, ⟨fun e he hlane => hbehind hlane e he, hdrop⟩, fun a ha b hb hnormal => ?_⟩
    rcases List.mem_cons.mp hb with rfl | hb
    · exact fun hurgent => hbefore hurgent a ha hnormal
    · exact hcross a ha b hb hnormal
  · rcases hmem.mp he with rfl | he
    · exact hrestack hkind
    · exact h.restackUrgent e he hkind
  · have hperm : ((queue.entries.insertIdx i entry).map (·.id) ++ archive.entries.map (·.row.id)).Perm
        (entry.id :: queue.allIds archive) :=
      ((List.perm_insertIdx entry queue.entries hle).map _).append_right _
    exact hperm.nodup_iff.mpr (List.nodup_cons.mpr ⟨hfresh, h.idsDistinct⟩)
  · have hlink' : link ∈ queue.entries.map (·.id) ∨ link ∈ archive.doneIds := by
      rcases hmem.mp he with rfl | he
      · exact hlinks _ hlink
      · refine (h.linksResolve e he _ hlink).imp_left ?_
        rintro ⟨l, hl, hid⟩
        exact List.mem_map.mpr ⟨l, hl, hid⟩
    refine hlink'.imp_left fun hlive => ?_
    obtain ⟨l, hl, hid⟩ := List.mem_map.mp hlive
    exact ⟨l, hmem.mpr (Or.inr hl), hid⟩
  · -- a path between old rows is one of the old list
    have hpath : ∀ a b, Relation.TransGen
        (QueueToml.LinkTo { queue with entries := queue.entries.insertIdx i entry }) a b →
        a ∈ queue.entries → b ∈ queue.entries ∧ Relation.TransGen queue.LinkTo a b := by
      have hedge (a b : Entry) (ha : a ∈ queue.entries) (hab : QueueToml.LinkTo
          { queue with entries := queue.entries.insertIdx i entry } a b) :
          b ∈ queue.entries ∧ queue.LinkTo a b := by
        obtain ⟨ha', hb, hlink⟩ := hab
        have hb : b ∈ queue.entries := by
          rcases hmem.mp hb with rfl | hb
          · exact absurd hlink (hunlinked a ha')
          · exact hb
        exact ⟨hb, ha, hb, hlink⟩
      intro a b hab ha
      induction hab with
      | single hstep =>
        obtain ⟨hb, hlink⟩ := hedge _ _ ha hstep
        exact ⟨hb, .single hlink⟩
      | tail _ hstep ih =>
        obtain ⟨hb, hpath⟩ := ih
        obtain ⟨hc, hlink⟩ := hedge _ _ hb hstep
        exact ⟨hc, hpath.tail hlink⟩
    obtain ⟨d, -, hd, he, hlink⟩ := Relation.TransGen.tail'_iff.mp hcycle
    have hold : e ∈ queue.entries := by
      rcases hmem.mp he with rfl | he
      · exact absurd hlink (hunlinked d hd)
      · exact he
    exact h.linksAcyclic e (hpath e e hcycle hold).2
  · rcases hmem.mp he with rfl | he
    · obtain ⟨p, hp, hname⟩ := List.mem_map.mp hproject
      exact ⟨p, hp, hname⟩
    · exact h.projectsExist e he
  · have hperm := (List.perm_insertIdx entry queue.entries hle).filter fun e => queue.Starts repo e
    have hidle : ¬ queue.Starts repo entry := by
      rintro ⟨-, hstarted, -⟩
      rw [hqueued] at hstarted
      cases hstarted
    rw [List.filter_cons_of_neg (by simpa using hidle)] at hperm
    show ((queue.entries.insertIdx i entry).filter fun e => queue.Starts repo e).length ≤ 1
    rw [hperm.length_eq]
    exact h.oneStarted repo

end fresh

/-! ### The documents of a folder -/

theorem noteFilename_number {n m : Nat} {slug slug' : String}
    (h : noteFilename n slug = noteFilename m slug') : n = m := by
  have hdigits (n : Nat) (slug : String) :
      (noteFilename n slug).toList.takeWhile Char.isDigit = (pad3 n).toList := by
    simp only [noteFilename, String.toList_append, List.append_assoc]
    rw [List.takeWhile_append_of_pos fun c hc => pad3_isDigit hc]
    exact List.append_nil _
  have hnumber := congrArg (fun name => name.toList.takeWhile Char.isDigit) h
  simp only [hdigits] at hnumber
  exact pad3_injective (String.toList_injective hnumber)

/-- Every document is named by a number handed out. -/
def NumberedDir.Named (dir : NumberedDir) : Prop :=
  ∀ file ∈ dir.files, ∃ n ≤ dir.seq, ∃ slug, file = noteFilename n slug

section named

variable {dir : NumberedDir} {seq : Nat} {files : List String}

theorem NumberedDir.Named.write (h : dir.Named) (hle : dir.seq ≤ seq)
    (hfiles : ∀ file ∈ files, ∃ n ≤ seq, ∃ slug, file = noteFilename n slug) :
    (dir.write seq files).Named := by
  intro file hfile
  rcases List.mem_append.mp hfile with hold | hnew
  · obtain ⟨n, hn, hname⟩ := h file hold
    exact ⟨n, hn.trans hle, hname⟩
  · exact hfiles file hnew

/-- No document has the next number. -/
theorem NumberedDir.Named.fresh (h : dir.Named) (slug : String) :
    noteFilename dir.nextNumber slug ∉ dir.files := by
  intro hmem
  obtain ⟨n, hn, slug', hname⟩ := h _ hmem
  have hnext := lt_nextNumber dir
  rw [noteFilename_number hname] at hnext
  omega

theorem NumberedDir.Named.next (h : dir.Named) (slug : String) :
    (dir.write dir.nextNumber [noteFilename dir.nextNumber slug]).Named := by
  refine h.write (lt_nextNumber dir).le fun file hfile => ?_
  exact ⟨_, le_refl _, slug, List.mem_singleton.mp hfile⟩

theorem newDir_named (identity : String) (slices : List QueueSliceSpec) :
    (newDir identity slices).docs.Named := by
  intro file hfile
  unfold newDir newSlices at hfile ⊢
  simp only at hfile ⊢
  split at hfile
  · rename_i hempty
    rw [if_pos hempty]
    exact ⟨1, le_refl _, "plan", List.mem_singleton.mp hfile⟩
  · rename_i hempty
    rw [if_neg hempty]
    obtain ⟨⟨s, i⟩, hs, rfl⟩ := List.mem_map.mp hfile
    have hlt := (List.mem_zipIdx hs).2.1
    rw [Nat.zero_add] at hlt
    exact ⟨i + 1, hlt, s.slug, rfl⟩

theorem restackCore_file {queue : QueueToml} {project now : String} {number : Nat}
    {made : QueueToml × String} (h : restackCore dir queue project number now = .ok made) :
    made.2 = noteFilename number ("restack-" ++ project) := by
  simp only [restackCore, bind_ok_iff] at h
  obtain ⟨⟨⟩, -, i, -, h⟩ := h
  rw [← Except.ok.inj h]

theorem restacks_files {now : String} {projects : List String} {number : Nat}
    {queue : QueueToml} {made : QueueToml × List String}
    (h : restacks dir now number projects queue = .ok made) :
    ∀ file ∈ made.2, ∃ n < number + made.2.length, ∃ slug, file = noteFilename n slug := by
  induction projects generalizing number queue made with
  | nil =>
    obtain rfl := Except.ok.inj h
    exact fun file hfile => absurd hfile List.not_mem_nil
  | cons project projects ih =>
    simp only [restacks, bind_ok_iff] at h
    obtain ⟨first, hfirst, rest, hrest, h⟩ := h
    obtain rfl := Except.ok.inj h
    intro file hfile
    rw [List.length_cons]
    rcases List.mem_cons.mp hfile with rfl | hfile
    · exact ⟨number, by omega, _, restackCore_file hfirst⟩
    · obtain ⟨n, hn, hname⟩ := ih hrest file hfile
      exact ⟨n, by omega, hname⟩

end named

/-! ### What a request leaves of the numbers -/

section step

variable {g g' : Garden}

/-- Task documents keep their names. -/
theorem tasks_named {op : Op} (hnamed : g.tasks.Named) (h : op.apply g = .ok g') :
    g'.tasks.Named := by
  cases op with
  | queueAddProject args =>
    simp only [Op.apply, queueAddProject, bind_ok_iff] at h
    obtain ⟨⟨⟩, -, ⟨⟩, -, ⟨⟩, -, loaded, -, ⟨⟩, -, h⟩ := h
    rcases commit_cases (Except.ok.inj h) with ⟨-, rfl⟩ | ⟨-, rfl⟩
    · exact hnamed
    · exact hnamed
  | queueAddEntry args now =>
    simp only [Op.apply, queueAddEntry] at h
    split at h
    · cases h
    · split at h
      · simp only [addMilestone, bind_ok_iff] at h
        obtain ⟨slug, -, title, -, mission, -, finish, -, ⟨⟩, -, position, -, ⟨⟩, -, ⟨⟩, -, loaded, -,
          queue, -, h⟩ := h
        rcases commit_cases (Except.ok.inj h) with ⟨-, rfl⟩ | ⟨-, rfl⟩
        · exact hnamed
        · exact hnamed
      · simp only [addTask, bind_ok_iff] at h
        obtain ⟨slug, -, title, -, mission, -, finish, -, ⟨⟩, -, ⟨⟩, -, position, -, ⟨⟩, -, loaded, -,
          queue, -, h⟩ := h
        rcases commit_cases (Except.ok.inj h) with ⟨-, rfl⟩ | ⟨-, rfl⟩
        · exact hnamed
        · exact hnamed.next slug
      · unfold addRestack at h
        split at h
        · cases h
        · simp only [bind_ok_iff] at h
          obtain ⟨⟨⟩, -, loaded, -, made, hmade, ⟨⟩, -, h⟩ := h
          rcases commit_cases (Except.ok.inj h) with ⟨-, rfl⟩ | ⟨-, rfl⟩
          · exact hnamed
          · show (g.tasks.write _ [made.2]).Named
            rw [restackCore_file hmade]
            exact hnamed.next _
  | queueUpdateEntry args now =>
    simp only [Op.apply, queueUpdateEntry, bind_ok_iff] at h
    obtain ⟨⟨⟩, -, position, -, state, -, loaded, -, ⟨⟩, -, rows₁, -, rows₂, -, rows₃, -, made, -,
      h⟩ := h
    split at h
    · obtain rfl := Except.ok.inj h
      exact hnamed
    · simp only [bind_ok_iff] at h
      obtain ⟨⟨⟩, -, h⟩ := h
      rcases commit_cases (Except.ok.inj h) with ⟨-, rfl⟩ | ⟨-, rfl⟩
      · exact hnamed
      · exact hnamed
  | sliceInsert args =>
    simp only [Op.apply, sliceInsert, bind_ok_iff] at h
    obtain ⟨⟨⟩, -, ⟨⟩, -, ⟨⟩, -, ⟨⟩, -, position, -, loaded, -, slices, -, ⟨⟩, -, i, -, ⟨⟩, -, h⟩ := h
    rcases commit_cases (Except.ok.inj h) with ⟨-, rfl⟩ | ⟨-, rfl⟩
    · exact hnamed
    · rwa [writeSlice_tasks]
  | sliceUpdate args =>
    simp only [Op.apply, sliceUpdate, bind_ok_iff] at h
    obtain ⟨⟨⟩, -, ⟨⟩, -, position, -, loaded, -, slices, -, ⟨⟩, -, moved, -, items, -, h⟩ := h
    split at h
    · obtain rfl := Except.ok.inj h
      exact hnamed
    · simp only [bind_ok_iff] at h
      obtain ⟨⟨⟩, -, h⟩ := h
      rcases commit_cases (Except.ok.inj h) with ⟨-, rfl⟩ | ⟨-, rfl⟩
      · exact hnamed
      · rwa [writeSlices_tasks]
  | queueDrop args order now =>
    simp only [Op.apply, queueDrop, bind_ok_iff] at h
    obtain ⟨⟨⟩, -, ⟨⟩, -, state, -, loaded, -, row, -, ⟨⟩, -, ⟨⟩, -, made, hmade, ⟨⟩, -, h⟩ := h
    rcases commit_cases (Except.ok.inj h) with ⟨-, rfl⟩ | ⟨-, rfl⟩
    · exact hnamed
    · show NumberedDir.Named (if made.2.isEmpty then g.tasks else _)
      have hnext := lt_nextNumber g.tasks
      split
      · exact hnamed
      · refine hnamed.write (by omega) fun file hfile => ?_
        obtain ⟨n, hn, hname⟩ := restacks_files hmade file hfile
        exact ⟨n, by omega, hname⟩
  | claim entry unit =>
    simp only [Op.apply, queueV2Claim, bind_ok_iff] at h
    obtain ⟨⟨⟩, -, loaded, -, entries, -, g₁, hunit, ⟨⟩, -, h⟩ := h
    obtain ⟨-, -, htasks⟩ := claimUnit_frame hunit
    obtain rfl := Except.ok.inj h
    rwa [writeQueue_tasks, htasks]
  | setStatus entry unit new now =>
    simp only [Op.apply, queueV2SetStatus, bind_ok_iff] at h
    obtain ⟨⟨⟩, -, h⟩ := h
    cases unit with
    | none =>
      simp only [setEntryStatus, bind_ok_iff] at h
      obtain ⟨loaded, -, ⟨⟩, -, ⟨⟩, -, h⟩ := h
      split at h
      · simp only [bind_ok_iff] at h
        obtain ⟨⟨⟩, -, h⟩ := h
        obtain rfl := Except.ok.inj h
        exact hnamed
      · simp only [bind_ok_iff] at h
        obtain ⟨status, -, ⟨⟩, -, h⟩ := h
        obtain rfl := Except.ok.inj h
        exact hnamed
    | some unit =>
      simp only [setUnitStatus, bind_ok_iff] at h
      obtain ⟨slices, -, item, -, status, -, ⟨⟩, -, ⟨⟩, -, h⟩ := h
      obtain rfl := Except.ok.inj h
      rwa [writeSlices_tasks]
  | followUps entry unit count =>
    simp only [Op.apply, queueV2FollowUps, bind_ok_iff] at h
    obtain ⟨⟨⟩, -, h⟩ := h
    cases unit with
    | none =>
      simp only [setEntryFollowUps, bind_ok_iff] at h
      obtain ⟨loaded, -, ⟨⟩, -, h⟩ := h
      obtain rfl := Except.ok.inj h
      exact hnamed
    | some unit =>
      simp only [setUnitFollowUps, bind_ok_iff] at h
      obtain ⟨slices, -, item, -, ⟨⟩, -, ⟨⟩, -, h⟩ := h
      obtain rfl := Except.ok.inj h
      rwa [writeSlices_tasks]
  | sessionLog entry line =>
    simp only [Op.apply, queueV2SessionLog, bind_ok_iff] at h
    obtain ⟨⟨⟩, -, ⟨⟩, -, loaded, -, h⟩ := h
    obtain rfl := Except.ok.inj h
    exact hnamed
  | deferred entry tests =>
    simp only [Op.apply, queueV2Deferred, bind_ok_iff] at h
    obtain ⟨⟨⟩, -, ⟨⟩, -, ⟨⟩, -, loaded, -, h⟩ := h
    obtain rfl := Except.ok.inj h
    exact hnamed
  | addSub args =>
    simp only [Op.apply, queueV2AddSub, bind_ok_iff] at h
    obtain ⟨⟨⟩, -, ⟨⟩, -, ⟨⟩, -, ⟨⟩, -, ⟨⟩, -, h⟩ := h
    split at h
    · cases h
    · simp only [bind_ok_iff] at h
      obtain ⟨⟨⟩, -, parent, -, items, -, ⟨⟩, -, ⟨⟩, -, h⟩ := h
      obtain rfl := Except.ok.inj h
      rwa [writeMilestone_tasks, writeSlices_tasks]

/-- A folder is started by a new milestone, or by a new sub-milestone of one. -/
theorem folder_started {op : Op} (h : op.apply g = .ok g') {m : String} (hm : m ∈ g'.milestones)
    (hnew : m ∉ g.milestones) :
    (∃ args now, op = .queueAddEntry args now ∧ args.kind = .milestone ∧ args.slug = some m ∧
      args.dryRun = false ∧ validateSlug m = true) ∨
    ∃ args, op = .addSub args ∧ m = args.milestone ++ "/" ++ args.slug ∧
      isBlank args.milestone = false ∧ subDepth m = .ok () := by
  obtain ⟨dir, hdir⟩ := Option.isSome_iff_exists.mp (AList.lookup_isSome.mpr hm)
  have hstep := apply_dirs h m
  rw [AList.lookup_eq_none.mpr hnew, hdir] at hstep
  cases hstep with
  | @milestone args _ now hkind hslug hvalid =>
    refine Or.inl ⟨args, now, rfl, hkind, hslug, ?_, hvalid⟩
    simp only [Op.apply, queueAddEntry, hkind] at h
    split at h
    · cases h
    · simp only [addMilestone, bind_ok_iff] at h
      obtain ⟨slug, -, title, -, mission, -, finish, -, ⟨⟩, -, position, -, ⟨⟩, -, ⟨⟩, -, loaded, -,
        queue, -, h⟩ := h
      rcases commit_cases (Except.ok.inj h) with ⟨-, rfl⟩ | ⟨hdry, -⟩
      · exact absurd hm hnew
      · exact hdry
  | @sub args hslug =>
    refine Or.inr ⟨args, rfl, rfl, ?_⟩
    simp only [Op.apply, queueV2AddSub, ensureSubTexts, bind_ok_iff, ensure_ok_iff,
      refuse_ok_iff] at h
    obtain ⟨⟨⟩, ⟨⟨⟩, hblank, -⟩, ⟨⟩, -, ⟨⟩, -, ⟨⟩, -, ⟨⟩, hdepth, -⟩ := h
    exact ⟨hblank, hdepth⟩

/-- The request gives no milestone or sub-milestone a number from 1 on for a slug. -/
def Op.KeepsNumbers : Op → Prop
  | .queueAddEntry args _ => args.kind = .milestone → args.dryRun = false →
      ∀ n, 0 < n → args.slug ≠ some (pad3 n)
  | .addSub args => ∀ n, 0 < n → args.slug ≠ pad3 n
  | _ => True

/-- What numbers rest on: documents are named by numbers handed out, folders have
usable identities, and no slug is a number from 1 on. -/
structure Numbers (g : Garden) : Prop where
  tasks : g.tasks.Named
  docs : ∀ m dir, g.milestones.lookup m = some dir → dir.docs.Named
  folders : ∀ m ∈ g.milestones, isBlank m = false ∧ subDepth m = .ok () ∧
    ∀ n, 0 < n → m ≠ pad3 n
  subs : ∀ m dir, g.milestones.lookup m = some dir →
    ∀ i ∈ dir.slices.items, i.kind = .sub → ∀ n, 0 < n → i.id ≠ pad3 n

theorem docs_named_step {op : Op} {m : String} {dir dir' : Option MilestoneDir}
    (hdir : ∀ d, dir = some d → d.docs.Named) (h : DirStep g op m dir dir') :
    ∀ d, dir' = some d → d.docs.Named := by
  cases h with
  | same => exact hdir
  | @items _ _ dir =>
    rintro d ⟨⟩
    exact hdir dir rfl
  | insert =>
    rintro d ⟨⟩
    exact (hdir _ rfl).next _
  | milestone =>
    rintro d ⟨⟩
    exact newDir_named _ _
  | sub =>
    rintro d ⟨⟩
    exact newDir_named _ _

theorem subs_step {op : Op} {m : String} {dir dir' : Option MilestoneDir} (hop : op.KeepsNumbers)
    (hdir : ∀ d, dir = some d →
      ∀ i ∈ d.slices.items, i.kind = .sub → ∀ n, 0 < n → i.id ≠ pad3 n)
    (h : DirStep g op m dir dir') :
    ∀ d, dir' = some d → ∀ i ∈ d.slices.items, i.kind = .sub → ∀ n, 0 < n → i.id ≠ pad3 n := by
  have hplanned (identity : String) (slices : List QueueSliceSpec) :
      ∀ i ∈ (newDir identity slices).slices.items, i.kind = .slice := by
    intro i hi
    obtain ⟨k, -, hitems, -⟩ := newSlices_ids slices
    have hmem : i ∈ (List.range k).map fun i => sliceItem (i + 1) := hitems ▸ hi
    obtain ⟨j, -, rfl⟩ := List.mem_map.mp hmem
    rfl
  cases h with
  | same => exact hdir
  | items hvalid hitems _ =>
    rintro d ⟨⟩ i' hi' hsub
    obtain ⟨-, hids, -⟩ := SlicesToml.validate_ok_iff.mp hvalid
    rcases hitems.source hids i' hi' with ⟨i, hi, hkind, hid⟩ | ⟨-, -, args, rfl, hid⟩
    · rw [hid]
      exact hdir _ rfl i hi (hkind ▸ hsub)
    · rw [hid]
      exact hop
  | insert =>
    rintro d ⟨⟩ i' hi' hsub
    rcases List.eq_or_mem_of_mem_insertIdx hi' with rfl | hi'
    · cases hsub
    · exact hdir _ rfl i' hi' hsub
  | milestone =>
    rintro d ⟨⟩ i' hi' hsub
    rw [hplanned _ _ i' hi'] at hsub
    cases hsub
  | sub =>
    rintro d ⟨⟩ i' hi' hsub
    rw [hplanned _ _ i' hi'] at hsub
    cases hsub

theorem Numbers.step {op : Op} (hg : Numbers g) (hop : op.KeepsNumbers)
    (h : op.apply g = .ok g') : Numbers g' where
  tasks := tasks_named hg.tasks h
  docs m := docs_named_step (hg.docs m) (apply_dirs h m)
  folders m hm := by
    by_cases hold : m ∈ g.milestones
    · exact hg.folders m hold
    · rcases folder_started h hm hold with ⟨args, now, rfl, hkind, hslug, hdry, hvalid⟩ |
        ⟨args, rfl, rfl, hblank, hdepth⟩
      · have htext := IdText.slug hvalid
        refine ⟨htext.not_blank, ?_, fun n hn hpad => hop hkind hdry n hn (hpad ▸ hslug)⟩
        rw [subDepth, List.count_eq_zero.mpr htext.no_slash]
        rfl
      · refine ⟨isBlank_append (isBlank_append hblank), hdepth, fun n _ hpad => ?_⟩
        refine (IdText.pad3 n).no_slash ?_
        rw [← hpad, String.toList_append, String.toList_append]
        simp
  subs m := subs_step hop (hg.subs m) (apply_dirs h m)

/-- The numbers of a garden reached by requests that keep them. -/
theorem numbers_of_guarded {ops : List Op}
    (h : queueSystem.Guarded (fun _ op => op.KeepsNumbers) .empty ops g) : Numbers g := by
  induction h with
  | refl =>
    refine
      { tasks := fun file hfile => absurd hfile List.not_mem_nil
        docs := fun m dir hdir => ?_
        folders := fun m hm => ?_
        subs := fun m dir hdir => ?_ }
    · cases hdir
    · cases hm
    · cases hdir
  | snoc _ hop hstep ih => exact ih.step hop (queueSystem_step.mp hstep)

/-- The next task number is no id of the two files. -/
theorem Numbers.task_fresh (hg : Numbers g) (hids : Identities g) :
    pad3 g.tasks.nextNumber ∉ g.queueToml.allIds g.archiveToml := by
  have hnext := lt_nextNumber g.tasks
  have hother {id : String} (hid : RowId g id) : id ≠ pad3 g.tasks.nextNumber := by
    rcases hid with ⟨-, hmem⟩ | ⟨n, hn, rfl⟩
    · exact (hg.folders id hmem).2.2 _ (by omega)
    · intro hpad
      have hsame := pad3_injective hpad
      omega
  intro hmem
  rcases List.mem_append.mp hmem with hlive | harchived
  · obtain ⟨e, he, hid⟩ := List.mem_map.mp hlive
    exact hother (hids.live e he) hid
  · obtain ⟨a, ha, hid⟩ := List.mem_map.mp harchived
    exact hother (hids.archived a ha) hid

/-- The next slice number of a folder is no id of its order. -/
theorem Numbers.slice_fresh (hg : Numbers g) (hids : Identities g) {m : String}
    {dir : MilestoneDir} (hdir : g.milestones.lookup m = some dir) :
    pad3 dir.docs.nextNumber ∉ dir.slices.items.map (·.id) := by
  have hnext := lt_nextNumber dir.docs
  intro hmem
  obtain ⟨i, hi, hid⟩ := List.mem_map.mp hmem
  rcases hids.items m dir hdir i hi with ⟨-, n, hn, hnumber⟩ | ⟨hsub, -⟩
  · have hsame := pad3_injective (hnumber.symm.trans hid)
    omega
  · exact hg.subs m dir hdir i hi hsub _ (by omega) hid

end step

/-! ### Well-formed requests -/

/-- A position of a lane: one of its ends, or next to a live row of it. -/
def Position.InLane (entries : List Entry) (lane : Lane) : Position → Prop
  | .front | .back => True
  | .before ref | .after ref => ∃ e ∈ entries, e.id = ref ∧ e.lane = lane

/-- A position of a slice order: one of its ends, or next to an item. -/
def Position.InOrder (items : List SliceItem) : Position → Prop
  | .front | .back => True
  | .before ref | .after ref => ref ∈ items.map (·.id)

/-- A text that is there and not blank. -/
def Given (text : Option String) : Prop := ∃ t, text = some t ∧ isBlank t = false

/-- The arguments of a milestone or a task: its slug and texts, a position in its
lane, and links to live rows or rows archived done. -/
structure Garden.Documented (g : Garden) (args : QueueAddEntryArgs) (slug : String) : Prop where
  given : args.slug = some slug
  slugValid : validateSlug slug = true
  title : Given args.title
  mission : Given args.mission
  finishCriteria : Given args.finishCriteria
  position : ∃ position, parsePosition args.position args.ref = .ok position ∧
    position.InLane g.queueToml.entries (args.lane.getD .normal)
  links : ∀ link ∈ args.after,
    link ∈ g.queueToml.entries.map (·.id) ∨ link ∈ g.archiveToml.doneIds

/-- A request for a new entry of a project that is there: a milestone of a fresh slug
with its slices, a task, or a restack. -/
structure Garden.WellFormedEntry (g : Garden) (args : QueueAddEntryArgs) : Prop where
  allowed : (args.member.bind fun _ => memberReservedField args) = none
  project : args.project ∈ g.queueToml.projects.map (·.name)
  arguments : match args.kind with
    | .milestone => ∃ slug, g.Documented args slug ∧ slug ∉ g.milestones ∧
        slug ∉ g.queueToml.allIds g.archiveToml ∧
        ∀ s ∈ args.slices, validateSlug s.slug = true ∧ isBlank s.body = false
    | .task => ∃ slug, g.Documented args slug ∧ args.slices = []
    | .restack => restackGiven args = none ∧ isBlank args.project = false

/-- A request for a new slice of a milestone that is there. -/
structure Garden.WellFormedSlice (g : Garden) (args : SliceInsertArgs) : Prop where
  slugValid : validateSlug args.slug = true
  body : isBlank args.body = false
  position : ∃ dir, g.milestones.lookup args.milestone = some dir ∧
    ∃ position, parsePosition args.position args.ref = .ok position ∧
      position.InOrder dir.slices.items

/-! ### What the verbs accept -/

section accept

variable {g : Garden}

theorem required_accepts {text : Option String} {t field : String} (htext : text = some t)
    (hblank : isBlank t = false) : required text field = .ok t := by
  rw [required, htext, Option.filter_some, hblank]
  rfl

theorem refIndex_accepts {entries : List Entry} {lane : Lane} {ref : String}
    (hids : (entries.map (·.id)).Nodup) (href : ∃ e ∈ entries, e.id = ref ∧ e.lane = lane) :
    ∃ i, refIndex entries lane ref = .ok i := by
  obtain ⟨e, he, rfl, hlane⟩ := href
  have hrow : Rows.row? (·.id) e.id entries = some e := Rows.row?_of_mem hids he
  have hsome : (Rows.position? (·.id) e.id entries).isSome = true := by
    rw [Rows.position?, List.findIdx?_isSome, List.any_eq_true]
    exact ⟨e, he, decide_eq_true rfl⟩
  obtain ⟨i, hi⟩ := Option.isSome_iff_exists.mp hsome
  refine ⟨i, ?_⟩
  simp only [refIndex, hrow, hi, hlane]
  exact if_neg (not_not.mpr rfl)

theorem placeEntry_accepts {entries : List Entry} {lane : Lane} {position : Position}
    (hids : (entries.map (·.id)).Nodup) (h : position.InLane entries lane) :
    ∃ i, placeEntry entries lane position = .ok i := by
  cases position with
  | front => exact ⟨_, rfl⟩
  | back => exact ⟨_, rfl⟩
  | before ref => exact refIndex_accepts hids h
  | after ref =>
    obtain ⟨i, hi⟩ := refIndex_accepts hids h
    exact ⟨i + 1, by rw [placeEntry, hi]; rfl⟩

theorem placeItem_accepts {items : List SliceItem} {position : Position}
    (h : position.InOrder items) : ∃ i, placeItem items position = .ok i := by
  have hindex {ref : String} (href : ref ∈ items.map (·.id)) : ∃ i, itemIndex items ref = .ok i := by
    obtain ⟨item, hitem, rfl⟩ := List.mem_map.mp href
    have hsome : (Rows.position? (·.id) item.id items).isSome = true := by
      rw [Rows.position?, List.findIdx?_isSome, List.any_eq_true]
      exact ⟨item, hitem, decide_eq_true rfl⟩
    obtain ⟨i, hi⟩ := Option.isSome_iff_exists.mp hsome
    exact ⟨i, by rw [itemIndex, hi]⟩
  cases position with
  | front => exact ⟨_, rfl⟩
  | back => exact ⟨_, rfl⟩
  | before ref => exact hindex h
  | after ref =>
    obtain ⟨i, hi⟩ := hindex h
    exact ⟨i + 1, by rw [placeItem, hi]; rfl⟩

/-- The files of a garden with a project are loaded for a new entry of it. -/
theorem loadForAdd_accepts {project : String} {after : List String} (hvalid : g.Valid)
    (hproject : project ∈ g.queueToml.projects.map (·.name))
    (hlinks : ∀ link ∈ after,
      link ∈ g.queueToml.entries.map (·.id) ∨ link ∈ g.archiveToml.doneIds) :
    g.loadForAdd project after = .ok (g.queueToml, g.archiveToml) := by
  have hload : g.loadQueueState = .ok (some (g.queueToml, g.archiveToml)) := by
    rw [Garden.loadQueueState]
    cases hqueue : g.queue with
    | none =>
      rw [Garden.queueToml, hqueue] at hproject
      cases hproject
    | some queue =>
      have hsame : g.queueToml = queue := by rw [Garden.queueToml, hqueue]; rfl
      rw [Garden.Valid, hsame] at hvalid
      simp only [hvalid, hsame]
  have hresolved : unresolvedLink g.queueToml g.archiveToml after = none := by
    rw [unresolvedLink, List.find?_eq_none]
    intro link hlink hmissing
    have hmissing := of_decide_eq_true hmissing
    exact (hlinks link hlink).elim hmissing.1 hmissing.2
  simp only [Garden.loadForAdd, bind_ok_iff, expect_ok_iff, ensure_ok_iff]
  refine ⟨_, hload, _, rfl, (), hproject, (), ?_, rfl⟩
  rw [ensureLinks, hresolved]

theorem insertEntry_accepts (entry : Entry) {position : Position} (hvalid : g.Valid)
    (hfresh : entry.id ∉ g.queueToml.allIds g.archiveToml)
    (hproject : entry.project ∈ g.queueToml.projects.map (·.name))
    (hlinks : ∀ link ∈ entry.after,
      link ∈ g.queueToml.entries.map (·.id) ∨ link ∈ g.archiveToml.doneIds)
    (hqueued : entry.status = .queued) (hrestack : entry.kind = .restack → entry.lane = .urgent)
    (hposition : position.InLane g.queueToml.entries entry.lane) :
    ∃ queue, insertEntry g.queueToml g.archiveToml entry position = .ok queue := by
  obtain ⟨i, hi⟩ := placeEntry_accepts (liveIds_nodup_of_valid hvalid) hposition
  refine ⟨{ g.queueToml with entries := g.queueToml.entries.insertIdx i entry }, ?_⟩
  simp only [insertEntry, bind_ok_iff, refuse_ok_iff]
  refine ⟨i, hi, (), ?_, rfl⟩
  exact validate_ok_iff.mpr (WriterInvariant.insert (validate_ok_iff.mp hvalid) hfresh hproject
    hlinks hqueued hrestack (placeEntry_le hi) (placeEntry_nextTo hi))

theorem ensureSlices_accepts {slices : List QueueSliceSpec}
    (h : ∀ s ∈ slices, validateSlug s.slug = true ∧ isBlank s.body = false) :
    ensureSlices slices = .ok () := by
  induction slices with
  | nil => rfl
  | cons s rest ih =>
    obtain ⟨hslug, hbody⟩ := h s List.mem_cons_self
    simp only [ensureSlices, bind_ok_iff, ensure_ok_iff]
    exact ⟨(), hslug, (), hbody, ih fun s hs => h s (List.mem_cons_of_mem _ hs)⟩

section entry

variable {args : QueueAddEntryArgs} {slug : String} (now : String)

theorem addMilestone_accepts (hvalid : g.Valid) (h : g.Documented args slug)
    (hproject : args.project ∈ g.queueToml.projects.map (·.name)) (hfolder : slug ∉ g.milestones)
    (hfresh : slug ∉ g.queueToml.allIds g.archiveToml)
    (hslices : ∀ s ∈ args.slices, validateSlug s.slug = true ∧ isBlank s.body = false) :
    ∃ g', addMilestone g args now = .ok g' := by
  obtain ⟨title, htitle, htitle'⟩ := h.title
  obtain ⟨mission, hmission, hmission'⟩ := h.mission
  obtain ⟨finish, hfinish, hfinish'⟩ := h.finishCriteria
  obtain ⟨position, hposition, hlane⟩ := h.position
  obtain ⟨queue, hqueue⟩ := insertEntry_accepts
    (newEntry slug .milestone title args.project (args.lane.getD .normal) args.after
      ("feat/" ++ slug) now) hvalid hfresh hproject h.links rfl nofun hlane
  simp only [addMilestone, bind_ok_iff, ensure_ok_iff]
  exact ⟨_, slug, required_accepts h.given (IdText.slug h.slugValid).not_blank,
    title, required_accepts htitle htitle', mission, required_accepts hmission hmission',
    finish, required_accepts hfinish hfinish', (), h.slugValid, position, hposition,
    (), ensureSlices_accepts hslices, (), hfolder, _, loadForAdd_accepts hvalid hproject h.links,
    queue, hqueue, rfl⟩

theorem addTask_accepts (hvalid : g.Valid) (h : g.Documented args slug)
    (hproject : args.project ∈ g.queueToml.projects.map (·.name)) (hslices : args.slices = [])
    (hfresh : pad3 g.tasks.nextNumber ∉ g.queueToml.allIds g.archiveToml)
    (hfile : noteFilename g.tasks.nextNumber slug ∉ g.tasks.files) :
    ∃ g', addTask g args now = .ok g' := by
  obtain ⟨title, htitle, htitle'⟩ := h.title
  obtain ⟨mission, hmission, hmission'⟩ := h.mission
  obtain ⟨finish, hfinish, hfinish'⟩ := h.finishCriteria
  obtain ⟨position, hposition, hlane⟩ := h.position
  obtain ⟨queue, hqueue⟩ := insertEntry_accepts
    (newEntry (pad3 g.tasks.nextNumber) .task title args.project
      (args.lane.getD .normal) args.after ("fix/" ++ pad3 g.tasks.nextNumber) now)
    hvalid hfresh hproject h.links rfl nofun hlane
  simp only [addTask, bind_ok_iff, ensure_ok_iff]
  exact ⟨_, slug, required_accepts h.given (IdText.slug h.slugValid).not_blank,
    title, required_accepts htitle htitle', mission, required_accepts hmission hmission',
    finish, required_accepts hfinish hfinish', (), h.slugValid, (), by rw [hslices]; rfl,
    position, hposition, (), hfile, _, loadForAdd_accepts hvalid hproject h.links,
    queue, hqueue, rfl⟩

theorem addRestack_accepts (hvalid : g.Valid) (hgiven : restackGiven args = none)
    (hblank : isBlank args.project = false)
    (hproject : args.project ∈ g.queueToml.projects.map (·.name))
    (hfresh : pad3 g.tasks.nextNumber ∉ g.queueToml.allIds g.archiveToml)
    (hfile : noteFilename g.tasks.nextNumber ("restack-" ++ args.project) ∉ g.tasks.files) :
    ∃ g', addRestack g args now = .ok g' := by
  have hback : Position.InLane g.queueToml.entries .urgent .back := trivial
  obtain ⟨queue, hqueue⟩ := insertEntry_accepts
    (newEntry (pad3 g.tasks.nextNumber) .restack ("Restack " ++ args.project) args.project .urgent
      [] "" now)
    hvalid hfresh hproject (fun link hlink => absurd hlink List.not_mem_nil) rfl (fun _ => rfl) hback
  simp only [insertEntry, bind_ok_iff, refuse_ok_iff] at hqueue
  obtain ⟨i, hi, ⟨⟩, hvalid', h⟩ := hqueue
  simp only [addRestack, hgiven, restackCore, bind_ok_iff, ensure_ok_iff, refuse_ok_iff]
  exact ⟨_, (), hblank, _,
    loadForAdd_accepts hvalid hproject fun link hlink => absurd hlink List.not_mem_nil,
    _, ⟨(), hfile, i, hi, rfl⟩, (), hvalid', rfl⟩

end entry

theorem sliceInsert_accepts {args : SliceInsertArgs} (hvalid : ∀ m dir,
      g.milestones.lookup m = some dir → dir.slices.validate m = .ok ())
    (h : g.WellFormedSlice args)
    (hfolder : isBlank args.milestone = false ∧ subDepth args.milestone = .ok ())
    (hnumber : ∀ dir, g.milestones.lookup args.milestone = some dir →
      pad3 dir.docs.nextNumber ∉ dir.slices.items.map (·.id) ∧
        noteFilename dir.docs.nextNumber args.slug ∉ dir.docs.files) :
    ∃ g', sliceInsert g args = .ok g' := by
  obtain ⟨dir, hdir, position, hposition, horder⟩ := h.position
  obtain ⟨hfresh, hfile⟩ := hnumber dir hdir
  obtain ⟨i, hi⟩ := placeItem_accepts horder
  have hload : g.loadSlices args.milestone = .ok (some dir.slices) := by
    rw [Garden.loadSlices, hdir]
    simp only [hvalid _ _ hdir]
  have hdocs : g.sliceDocs args.milestone = dir.docs := by
    rw [Garden.sliceDocs, hdir]
    rfl
  obtain ⟨hname, hids, hshape⟩ := SlicesToml.validate_ok_iff.mp (hvalid _ _ hdir)
  have hle := placeItem_le hi
  have hvalid' : SlicesToml.validate { dir.slices with
      items := dir.slices.items.insertIdx i (sliceItem dir.docs.nextNumber) } args.milestone =
      .ok () := by
    refine SlicesToml.validate_ok_iff.mpr ⟨hname, ?_, fun item hitem => ?_⟩
    · have hperm := (List.perm_insertIdx (sliceItem dir.docs.nextNumber) dir.slices.items hle).map
        (·.id)
      exact hperm.nodup_iff.mpr (List.nodup_cons.mpr ⟨hfresh, hids⟩)
    · rcases (List.mem_insertIdx hle).mp hitem with rfl | hitem
      · exact ⟨fun _ => rfl, fun _ => rfl⟩
      · exact hshape item hitem
  simp only [sliceInsert, hdocs, bind_ok_iff, ensure_ok_iff, refuse_ok_iff, expect_ok_iff]
  exact ⟨_, (), h.slugValid, (), h.body, (), hfolder.1, (), hfolder.2, position, hposition, _, hload,
    dir.slices, rfl, (), hfile, i, hi, (), hvalid', rfl⟩

end accept

/-- A task of the project `app`. -/
def taskArgs : QueueAddEntryArgs :=
  ⟨none, .task, some "fix", some "Fix", some "x", some "y", "app", none, [], none, none, [], false⟩

/-- A milestone of the project `app`. -/
def milestoneArgs (slug : String) : QueueAddEntryArgs :=
  ⟨none, .milestone, some slug, some "M", some "x", some "y", "app", none, [], none, none, [], false⟩

/-- A project and a milestone of it. -/
def milestoneOps (slug : String) : List Op :=
  [.queueAddProject ⟨"app", "r", none, false⟩, .queueAddEntry (milestoneArgs slug) "t0"]

theorem wellFormed_taskArgs {g : Garden} (h : g.queueToml.projects.map (·.name) = ["app"]) :
    g.WellFormedEntry taskArgs where
  allowed := rfl
  project := by
    rw [h]
    exact List.mem_singleton_self _
  arguments := by
    refine ⟨"fix", ?_, rfl⟩
    exact
      { given := rfl
        slugValid := by decide
        title := ⟨"Fix", rfl, by decide⟩
        mission := ⟨"x", rfl, by decide⟩
        finishCriteria := ⟨"y", rfl, by decide⟩
        position := ⟨.back, by decide, trivial⟩
        links := fun link hlink => absurd hlink List.not_mem_nil }

end Softfig.Queue
