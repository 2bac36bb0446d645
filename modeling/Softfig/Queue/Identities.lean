import Softfig.Queue.Invariants

/-!
What the ids of a reachable garden look like.

A row of the list is named by a milestone's slug or by a number handed out; an
item of a slice order by a number of its folder or by a sub-milestone's slug.

- `identities_of_reachable`: so it is in every reachable garden, the archive
  included;
- `IdText.rowIdOf_append`: the first component of an identity is its row's id.
-/

namespace Softfig.Queue

open Lib

/-! ### Texts -/

/-- The characters of ids: not empty, no slash, no white space. -/
def IdText (id : String) : Prop := id.toList ≠ [] ∧ ∀ c ∈ id.toList, isSlugChar c = true

theorem pad3_toList (n : Nat) : (pad3 n).toList = (Nat.toDigits 10 n).leftpad 3 '0' := by
  rw [pad3, String.toList_ofList]

theorem pad3_isDigit {n : Nat} {c : Char} (h : c ∈ (pad3 n).toList) : c.isDigit = true := by
  rw [pad3_toList, List.leftpad, List.mem_append] at h
  rcases h with h | h
  · rw [List.eq_of_mem_replicate h]
    rfl
  · exact Nat.isDigit_of_mem_toDigits (by omega) (by omega) h

theorem IdText.pad3 (n : Nat) : IdText (pad3 n) := by
  constructor
  · rw [pad3_toList]
    intro hnil
    have hlength := congrArg List.length hnil
    rw [List.length_leftpad, List.length_nil] at hlength
    omega
  · intro c hc
    unfold isSlugChar
    rw [pad3_isDigit hc]
    simp

theorem IdText.slug {slug : String} (h : validateSlug slug = true) : IdText slug := by
  simp only [validateSlug, Bool.and_eq_true, decide_eq_true_eq, List.all_eq_true] at h
  exact ⟨h.1.1, h.2⟩

theorem isLower_bounds {c : Char} (h : c.isLower = true) : 97 ≤ c.toNat ∧ c.toNat ≤ 122 := by
  change (decide ('a'.val ≤ c.val) && decide (c.val ≤ 'z'.val)) = true at h
  simp only [Bool.and_eq_true, decide_eq_true_eq] at h
  exact ⟨UInt32.le_iff_toNat_le.mp h.1, UInt32.le_iff_toNat_le.mp h.2⟩

theorem isSlugChar_range {c : Char} (h : isSlugChar c = true) :
    45 ≤ c.toNat ∧ c.toNat ≤ 122 ∧ c.toNat ≠ 47 := by
  have hval : c.toNat = c.val.toNat := rfl
  simp only [isSlugChar, Bool.or_eq_true, Char.isDigit, Bool.and_eq_true,
    decide_eq_true_eq, UInt32.le_iff_toNat_le, ge_iff_le] at h
  rcases h with (hlower | ⟨hlow, hhigh⟩) | rfl
  · have hbounds := isLower_bounds hlower
    omega
  · have : '0'.val.toNat = 48 := rfl
    have : '9'.val.toNat = 57 := rfl
    omega
  · decide

theorem isSlugChar_not_whitespace {c : Char} (h : isSlugChar c = true) :
    isWhitespace c = false := by
  obtain ⟨hlow, hhigh, -⟩ := isSlugChar_range h
  simp only [isWhitespace, Bool.or_eq_false_iff, Bool.and_eq_false_imp, decide_eq_true_eq,
    decide_eq_false_iff_not]
  omega

theorem IdText.not_blank {id : String} (h : IdText id) : isBlank id = false := by
  obtain ⟨c, hc⟩ := List.exists_mem_of_ne_nil _ h.1
  rw [isBlank, List.all_eq_false]
  exact ⟨c, hc, by rw [isSlugChar_not_whitespace (h.2 c hc)]; simp⟩

theorem IdText.no_slash {id : String} (h : IdText id) : '/' ∉ id.toList := by
  intro hc
  obtain ⟨-, -, hne⟩ := isSlugChar_range (h.2 _ hc)
  exact hne rfl

/-- The first component of an identity is its row's id. -/
theorem IdText.rowIdOf_append {id : String} (h : IdText id) (rest : String)
    (hrest : rest = "" ∨ ∃ tail, rest = "/" ++ tail) : rowIdOf (id ++ rest) = id := by
  have htake : (id.toList ++ rest.toList).takeWhile (fun c => decide (c ≠ '/')) = id.toList := by
    rw [List.takeWhile_append_of_pos fun c hc => ?_]
    · rcases hrest with rfl | ⟨tail, rfl⟩
      · simp
      · simp
    · simp only [ne_eq, decide_eq_true_eq]
      rintro rfl
      exact h.no_slash hc
  rw [rowIdOf, String.toList_append, htake, String.ofList_toList]

/-! ### The ids of a garden -/

/-- The slug of a milestone, or a number of the task folder. -/
def RowId (g : Garden) (id : String) : Prop :=
  (validateSlug id = true ∧ id ∈ g.milestones) ∨ ∃ n ≤ g.tasks.seq, id = pad3 n

/-- A slice's number of the folder, or a sub-milestone's slug. -/
def ItemId (docs : NumberedDir) (item : SliceItem) : Prop :=
  (item.kind = .slice ∧ ∃ n ≤ docs.seq, item.id = pad3 n) ∨
    item.kind = .sub ∧ validateSlug item.id = true

structure Identities (g : Garden) : Prop where
  live : ∀ e ∈ g.queueToml.entries, RowId g e.id
  archived : ∀ a ∈ g.archiveToml.entries, RowId g a.row.id
  items : ∀ m dir, g.milestones.lookup m = some dir → ∀ i ∈ dir.slices.items, ItemId dir.docs i
  projects : (g.queueToml.projects.map (·.name)).Nodup

theorem RowId.text {g : Garden} {id : String} (h : RowId g id) : IdText id := by
  rcases h with ⟨hslug, -⟩ | ⟨n, -, rfl⟩
  · exact .slug hslug
  · exact .pad3 n

theorem ItemId.text {docs : NumberedDir} {item : SliceItem} (h : ItemId docs item) :
    IdText item.id := by
  rcases h with ⟨-, n, -, hid⟩ | ⟨-, hslug⟩
  · rw [hid]
    exact .pad3 n
  · exact .slug hslug

/-- A folder stays, and its mark only grows. -/
theorem DirStep.grows {g : Garden} {op : Op} {milestone : String} {dir : MilestoneDir}
    {dir' : Option MilestoneDir} (h : DirStep g op milestone (some dir) dir') :
    ∃ d, dir' = some d ∧ dir.docs.seq ≤ d.docs.seq := by
  cases h with
  | same => exact ⟨dir, rfl, le_refl _⟩
  | items => exact ⟨_, rfl, le_refl _⟩
  | insert => exact ⟨_, rfl, (lt_nextNumber _).le⟩

theorem mem_milestones_step {op : Op} {g g' : Garden} (h : DirsStep op g g') {m : String}
    (hm : m ∈ g.milestones) : m ∈ g'.milestones := by
  obtain ⟨dir, hdir⟩ := Option.isSome_iff_exists.mp (AList.lookup_isSome.mpr hm)
  have hstep := h m
  rw [hdir] at hstep
  obtain ⟨d, hd, -⟩ := hstep.grows
  rw [← AList.lookup_isSome, hd]
  rfl

theorem RowId.step {op : Op} {g g' : Garden} (hqueue : QueueStep op g g')
    (hdirs : DirsStep op g g') {id : String} (h : RowId g id) : RowId g' id := by
  rcases h with ⟨hslug, hmem⟩ | ⟨n, hn, hid⟩
  · exact Or.inl ⟨hslug, mem_milestones_step hdirs hmem⟩
  · exact Or.inr ⟨n, hn.trans hqueue.mark, hid⟩

theorem NewRow.rowId {g' : Garden} {e : Entry} (h : NewRow g' e) : RowId g' e.id := by
  rcases h.identity with ⟨hslug, hmem, -⟩ | ⟨n, hn, hid, -⟩
  · exact Or.inl ⟨hslug, hmem⟩
  · exact Or.inr ⟨n, hn, hid⟩

theorem itemId_newDir {identity : String} {slices : List QueueSliceSpec} {item : SliceItem}
    (h : item ∈ (newDir identity slices).slices.items) :
    ItemId (newDir identity slices).docs item := by
  obtain ⟨n, -, hitems, hseq⟩ := newSlices_ids slices
  have hmem : item ∈ (List.range n).map fun i => sliceItem (i + 1) := hitems ▸ h
  obtain ⟨i, hi, rfl⟩ := List.mem_map.mp hmem
  have hlt := List.mem_range.mp hi
  refine Or.inl ⟨rfl, i + 1, ?_, rfl⟩
  show i + 1 ≤ (newSlices slices).2.seq
  omega

/-- The items of a folder after a request. -/
theorem itemId_step {g : Garden} {op : Op} {milestone : String} {dir dir' : Option MilestoneDir}
    (hdir : ∀ d, dir = some d → ∀ i ∈ d.slices.items, ItemId d.docs i)
    (h : DirStep g op milestone dir dir') :
    ∀ d, dir' = some d → ∀ i ∈ d.slices.items, ItemId d.docs i := by
  cases h with
  | same => exact hdir
  | items hvalid hitems _ =>
    rintro d ⟨⟩ i' hi'
    obtain ⟨-, hids, -⟩ := SlicesToml.validate_ok_iff.mp hvalid
    rcases hitems.source hids i' hi' with ⟨i, hi, hkind, hid⟩ | ⟨hkind, hslug, -⟩
    · have hitem := hdir _ rfl i hi
      rw [ItemId, hkind, hid]
      exact hitem
    · exact Or.inr ⟨hkind, hslug⟩
  | @insert args d₀ =>
    rintro d ⟨⟩ i' hi'
    have hle := (lt_nextNumber d₀.docs).le
    rcases List.eq_or_mem_of_mem_insertIdx hi' with rfl | hi'
    · exact Or.inl ⟨rfl, d₀.docs.nextNumber, le_refl _, rfl⟩
    · rcases hdir _ rfl i' hi' with ⟨hkind, n, hn, hid⟩ | hsub
      · exact Or.inl ⟨hkind, n, hn.trans hle, hid⟩
      · exact Or.inr hsub
  | milestone =>
    rintro d ⟨⟩ i' hi'
    exact itemId_newDir hi'
  | sub =>
    rintro d ⟨⟩ i' hi'
    exact itemId_newDir hi'

theorem Identities.step {op : Op} {g g' : Garden} (hg : Identities g)
    (hqueue : QueueStep op g g') (hdirs : DirsStep op g g') : Identities g' where
  live e' he' := by
    rcases hqueue.rows.source e' he' with ⟨e, he, hedit⟩ | hnew
    · rw [entry_id_of_editRow hedit]
      exact (hg.live e he).step hqueue hdirs
    · exact hnew.rowId
  archived a ha := by
    obtain ⟨moved, harchive, -, hmoved⟩ := hqueue.rows.archived
    rw [harchive] at ha
    rcases List.mem_append.mp ha with ha | ha
    · exact (hg.archived a ha).step hqueue hdirs
    · obtain ⟨e, he, -, hid, -⟩ := hmoved a ha
      rw [hid]
      exact (hg.live e he).step hqueue hdirs
  items m := itemId_step (hg.items m) (hdirs m)
  projects := by
    rcases hqueue.projects with hsame | ⟨p, hfresh, hadd⟩
    · rw [hsame]
      exact hg.projects
    · rw [hadd, List.map_append]
      refine List.nodup_append.mpr ⟨hg.projects, List.nodup_singleton _, ?_⟩
      rintro a ha b hb rfl
      rw [List.mem_singleton.mp hb] at ha
      exact hfresh ha

/-- **The ids of a reachable garden.** -/
theorem identities_of_reachable {g : Garden} (h : queueSystem.Reachable g) : Identities g := by
  refine System.Reachable.invariant ?_ ?_ h
  · rintro g rfl
    refine
      { live := fun e he => ?_
        archived := fun a ha => ?_
        items := fun m dir hdir => ?_
        projects := List.nodup_nil }
    · cases he
    · cases ha
    · cases hdir
  · intro g op g' hreach hg hstep
    have happly := queueSystem_step.mp hstep
    exact hg.step (apply_rows (valid_of_reachable hreach) happly) (apply_dirs happly)

end Softfig.Queue
