import Softfig.Mount.Inner

/-!
What a verb or the kernel stages in the overlay of a mount.

Each operation stages a list of entries, and what is live after it is what its last entry at a path
says. A rename reads every moving file first and then stages removals, the directories above the
new places, the files and the directories.

- `live_stageAll`: what a list of staged entries leaves live;
- `live_ensureOverlayDirs`, `live_stageRemove`: what a write and a removal leave live;
- `stageRename_eq`, `renamed`: what a rename stages, and what it leaves live;
- `Renamed.rooted`: a rename keeps the working tree rooted, unless it covers a directory that is not
  empty or finds its new place below something removed.
-/

namespace Softfig.Mount

open Softfig.Lib
open Softfig.Store (Bytes Hash)
open Softfig.Vcs (FileName Path)

/-! ### Staging -/

namespace Inner

variable (inner : Inner)

def stageAll (entries : List (RepoPath × OverlayEntry)) : Inner :=
  entries.foldl (fun inner e => inner.stage e.1 e.2) inner

/-- One ancestor of `ensure_overlay_dirs`. -/
def ensureDir (anc : RepoPath) : Inner :=
  if (inner.overlay.get anc).isSome then inner
  else if (inner.view.lookup anc).map Entry.kind = some .dir then inner
  else inner.stage anc (.dir 0o040755)

def ensureOverlayDirs (file : RepoPath) : Inner :=
  (RepoPath.parents file).foldl ensureDir inner

def stageWrite (rel : RepoPath) (content : Bytes) : Inner :=
  let mode := (inner.currentMode rel).getD 0o100644
  (inner.ensureOverlayDirs rel).stage rel (.file content mode)

/-- `stage_mode`; a directory has no mode to stage. -/
def stageMode (rel : RepoPath) (mode : UInt32) (bytes : Bytes) : Inner :=
  if inner.entryKindOf rel = some .dir then inner else inner.stage rel (.file bytes mode)

/-- The live files and directories at a path and below it. -/
def renameMovers (path : RepoPath) : List RepoPath × List RepoPath :=
  match inner.entryKindOf path with
  | some .blob => ([path], [])
  | some .dir =>
    let found := descend inner.liveChildren inner.depth path
    ((found.filter fun f => !f.2.isDir).map Prod.fst,
      path :: (found.filter fun f => f.2.isDir).map Prod.fst)
  | none => ([], [])

/-- One file of the second pass of a rename: its place, its content and its mode. -/
def moveFile (move : RepoPath × RepoPath × Bytes × UInt32) : Inner :=
  ((inner.stage move.1 .removed).ensureOverlayDirs move.2.1).stage move.2.1
    (.file move.2.2.1 move.2.2.2)

def moveDir (move : RepoPath × RepoPath × UInt32) : Inner :=
  (inner.stage move.1 .removed).stage move.2.1 (.dir move.2.2)

/-- The first pass of a rename: the bytes and the mode of every moving file. -/
def filePlan (io : MountIo) (src dst : RepoPath) :
    List RepoPath → Option (List (RepoPath × RepoPath × Bytes × UInt32))
  | [] => some []
  | file :: files => do
    let content ← readWorkfile io inner file
    let plan ← filePlan io src dst files
    return (file, RepoPath.remap src dst file, content.getD [],
      (inner.currentMode file).getD 0o100644) :: plan

def dirPlan (src dst : RepoPath) (dirs : List RepoPath) : List (RepoPath × RepoPath × UInt32) :=
  dirs.map fun dir => (dir, RepoPath.remap src dst dir, (inner.currentMode dir).getD 0o040755)

/-- `stage_rename`; a read error stages nothing. -/
def stageRename (io : MountIo) (src dst : RepoPath) : Option Inner := do
  let (files, dirs) := inner.renameMovers src
  let plan ← inner.filePlan io src dst files
  return (inner.dirPlan src dst dirs).foldl moveDir (plan.foldl moveFile inner)

def stageRemove (path : RepoPath) : Inner :=
  let (files, dirs) := inner.renameMovers path
  inner.stageAll ((files ++ dirs).map fun found => (found, .removed))

end Inner

/-! ### What staging leaves -/

section

variable {inner : Inner}

theorem stageAll_append (inner : Inner) (first rest : List (RepoPath × OverlayEntry)) :
    inner.stageAll (first ++ rest) = (inner.stageAll first).stageAll rest :=
  List.foldl_append

theorem view_stageAll (inner : Inner) (entries : List (RepoPath × OverlayEntry)) :
    (inner.stageAll entries).view = inner.view := by
  induction entries generalizing inner with
  | nil => rfl
  | cons e entries ih => exact ih (inner.stage e.1 e.2)

/-- **What a list of staged entries leaves live**: what its entries at the path all say, where there
is one or it was so before. -/
theorem live_stageAll {entries : List (RepoPath × OverlayEntry)} {path : RepoPath}
    {P : Option (Live (UInt32 × ContentSource)) → Prop}
    (hall : ∀ e ∈ entries, e.1 = path → P e.2.live)
    (hsome : P (inner.live path) ∨ ∃ e ∈ entries, e.1 = path) :
    P ((inner.stageAll entries).live path) := by
  induction entries generalizing inner with
  | nil => exact hsome.resolve_right fun ⟨e, he, _⟩ => absurd he List.not_mem_nil
  | cons e entries ih =>
    refine ih (fun e' he' => hall e' (List.mem_cons_of_mem _ he')) ?_
    rw [live_stage]
    by_cases heq : path = e.1
    · rw [if_pos heq]
      exact Or.inl (hall e List.mem_cons_self heq.symm)
    · rw [if_neg heq]
      refine hsome.imp_right ?_
      rintro ⟨e', he', rfl⟩
      rcases List.mem_cons.mp he' with rfl | hmem
      · exact absurd rfl heq
      · exact ⟨e', hmem, rfl⟩

theorem live_stageAll_eq {entries : List (RepoPath × OverlayEntry)} {path : RepoPath}
    {node : Option (Live (UInt32 × ContentSource))}
    (hall : ∀ e ∈ entries, e.1 = path → e.2.live = node)
    (hsome : inner.live path = node ∨ ∃ e ∈ entries, e.1 = path) :
    (inner.stageAll entries).live path = node :=
  live_stageAll (P := (· = node)) hall hsome

theorem live_stageAll_of_notMem {entries : List (RepoPath × OverlayEntry)} {path : RepoPath}
    (h : ∀ e ∈ entries, e.1 ≠ path) : (inner.stageAll entries).live path = inner.live path :=
  live_stageAll_eq (fun e he heq => absurd heq (h e he)) (Or.inl rfl)

/-- An overlay entry after a list of staged ones is one of them or was there before. -/
theorem get_stageAll {entries : List (RepoPath × OverlayEntry)} {path : RepoPath}
    {entry : OverlayEntry} (h : (inner.stageAll entries).overlay.get path = some entry) :
    (path, entry) ∈ entries ∨ inner.overlay.get path = some entry := by
  induction entries generalizing inner with
  | nil => exact Or.inr h
  | cons e entries ih =>
    rcases ih h with hmem | hget
    · exact Or.inl (List.mem_cons_of_mem _ hmem)
    · have hget : (inner.overlay.stage e.1 e.2).get path = some entry := hget
      rw [Overlay.get_stage] at hget
      split_ifs at hget with heq
      · cases hget
        rw [heq]
        exact Or.inl List.mem_cons_self
      · exact Or.inr hget

/-- What `ensure_overlay_dirs` stages: directories among the ancestors, so that each is staged or
a directory. -/
theorem ensureDirs_eq (inner : Inner) (dirs : List RepoPath) :
    ∃ entries, dirs.foldl Inner.ensureDir inner = inner.stageAll entries ∧
      (∀ e ∈ entries, e.1 ∈ dirs ∧ e.2 = .dir 0o040755) ∧
      ∀ dir ∈ dirs, (∃ e ∈ entries, e.1 = dir) ∨ (inner.overlay.get dir).isSome ∨
        inner.live dir = some .dir := by
  induction dirs generalizing inner with
  | nil =>
    refine ⟨[], rfl, fun e he => ?_, fun dir hdir => ?_⟩
    · cases he
    · cases hdir
  | cons anc dirs ih =>
    rw [List.foldl_cons, Inner.ensureDir]
    split_ifs with hstaged hcommitted
    · obtain ⟨entries, heq, hdirs, hall⟩ := ih inner
      refine ⟨entries, heq, fun e he => ⟨List.mem_cons_of_mem _ (hdirs e he).1, (hdirs e he).2⟩, ?_⟩
      intro dir hdir
      rcases List.mem_cons.mp hdir with rfl | hmem
      · exact Or.inr (Or.inl hstaged)
      · exact hall dir hmem
    · obtain ⟨entries, heq, hdirs, hall⟩ := ih inner
      refine ⟨entries, heq, fun e he => ⟨List.mem_cons_of_mem _ (hdirs e he).1, (hdirs e he).2⟩, ?_⟩
      intro dir hdir
      rcases List.mem_cons.mp hdir with rfl | hmem
      · refine Or.inr (Or.inr (entryKindOf_dir.mp ?_))
        rw [Inner.entryKindOf, Option.not_isSome_iff_eq_none.mp hstaged]
        exact hcommitted
      · exact hall dir hmem
    · obtain ⟨entries, heq, hdirs, hall⟩ := ih (inner.stage anc (.dir 0o040755))
      refine ⟨(anc, .dir 0o040755) :: entries, heq, ?_, ?_⟩
      · intro e he
        rcases List.mem_cons.mp he with rfl | hmem
        · exact ⟨List.mem_cons_self, rfl⟩
        · exact ⟨List.mem_cons_of_mem _ (hdirs e hmem).1, (hdirs e hmem).2⟩
      · intro dir hdir
        by_cases hanc : dir = anc
        · exact Or.inl ⟨_, List.mem_cons_self, hanc.symm⟩
        · rcases hall dir ((List.mem_cons.mp hdir).resolve_left hanc) with
            ⟨e, he, hedir⟩ | hget | hlive
          · exact Or.inl ⟨e, List.mem_cons_of_mem _ he, hedir⟩
          · have hget : ((inner.overlay.stage anc (.dir 0o040755)).get dir).isSome := hget
            rw [Overlay.get_stage, if_neg hanc] at hget
            exact Or.inr (Or.inl hget)
          · rw [live_stage, if_neg hanc] at hlive
            exact Or.inr (Or.inr hlive)

/-- No ancestor of a path is staged as a file or as removed. -/
def ParentsFree (inner : Inner) (path : RepoPath) : Prop :=
  ∀ dir ∈ RepoPath.parents path, ∀ entry, inner.overlay.get dir = some entry → entry.isDir = true

theorem live_of_isDir {path : RepoPath} {entry : OverlayEntry}
    (hget : inner.overlay.get path = some entry) (hdir : entry.isDir = true) :
    inner.live path = some .dir := by
  rw [live_of_get hget]
  cases entry <;> first | rfl | cases hdir

/-- Where no ancestor is staged as anything else, all become directories. -/
theorem live_ensureOverlayDirs {file : RepoPath} (hfree : ParentsFree inner file)
    (path : RepoPath) : (inner.ensureOverlayDirs file).live path =
      if path ∈ RepoPath.parents file then some .dir else inner.live path := by
  obtain ⟨entries, heq, hdirs, hall⟩ := ensureDirs_eq inner (RepoPath.parents file)
  rw [Inner.ensureOverlayDirs, heq]
  split_ifs with hpath
  · refine live_stageAll_eq (fun e he _ => by rw [(hdirs e he).2]; rfl) ?_
    rcases hall path hpath with hex | hget | hlive
    · exact Or.inr hex
    · obtain ⟨entry, hentry⟩ := Option.isSome_iff_exists.mp hget
      exact Or.inl (live_of_isDir hentry (hfree path hpath entry hentry))
    · exact Or.inl hlive
  · exact live_stageAll_of_notMem fun e he heq => hpath (heq ▸ (hdirs e he).1)

/-- **Everything live at a path and below it moves**, files and directories apart. -/
theorem mem_renameMovers_of (hrooted : Rooted inner.live) {src : RepoPath}
    (hsrc : inner.live src ≠ some .dir → src ≠ []) {path : RepoPath} :
    (path ∈ (inner.renameMovers src).1 ↔
      src <+: path ∧ ∃ source, inner.live path = some (.file source)) ∧
    (path ∈ (inner.renameMovers src).2 ↔ src <+: path ∧ inner.live path = some .dir) := by
  have hlists := liveChildren_lists inner
  unfold Inner.renameMovers
  cases hlive : inner.live src with
  | none =>
    have hgone : ∀ node, src <+: path → inner.live path ≠ some node := by
      rintro node ⟨rest, rfl⟩ hnode
      by_cases hrest : rest = []
      · subst hrest
        rw [List.append_nil, hlive] at hnode
        cases hnode
      · rw [hrooted.not_below_none hlive (hsrc (by simp [hlive])) hrest] at hnode
        cases hnode
    rw [entryKindOf_none.mpr hlive]
    refine ⟨iff_of_false List.not_mem_nil ?_, iff_of_false List.not_mem_nil ?_⟩
    · rintro ⟨hpre, source, hfile⟩
      exact hgone _ hpre hfile
    · rintro ⟨hpre, hdir⟩
      exact hgone _ hpre hdir
  | some node =>
    cases node with
    | file source =>
      have hself : ∀ node, src <+: path → inner.live path = some node → path = src := by
        rintro node ⟨rest, rfl⟩ hnode
        by_cases hrest : rest = []
        · rw [hrest, List.append_nil]
        · rw [hrooted.not_below_file hlive (hsrc (by simp [hlive])) hrest] at hnode
          cases hnode
      rw [entryKindOf_blob.mpr ⟨source, hlive⟩]
      refine ⟨?_, iff_of_false List.not_mem_nil ?_⟩
      · rw [List.mem_singleton]
        constructor
        · rintro rfl
          exact ⟨List.prefix_rfl, source, hlive⟩
        · rintro ⟨hpre, source, hfile⟩
          exact hself _ hpre hfile
      · rintro ⟨hpre, hdir⟩
        rw [hself _ hpre hdir, hlive] at hdir
        cases hdir
    | dir =>
      have hfound : ∀ node, (path, node) ∈ descend inner.liveChildren inner.depth src ↔
          (src <+: path ∧ path ≠ src) ∧ inner.live path = some node := by
        intro node
        rw [mem_descend hrooted hlists]
        constructor
        · rintro ⟨rest, hrest, rfl, -, hnode⟩
          exact ⟨⟨List.prefix_append _ _, by simpa using hrest⟩, hnode⟩
        · rintro ⟨⟨⟨rest, rfl⟩, hne⟩, hnode⟩
          refine ⟨rest, by simpa using hne, rfl, ?_, hnode⟩
          have hdepth := length_le_depth (by rw [hnode]; rfl : (inner.live (src ++ rest)).isSome)
          rw [List.length_append] at hdepth
          omega
      rw [entryKindOf_dir.mpr hlive]
      constructor
      · simp only [List.mem_map, List.mem_filter]
        constructor
        · rintro ⟨⟨found, node⟩, ⟨hmem, hkind⟩, rfl⟩
          obtain ⟨⟨hpre, -⟩, hnode⟩ := (hfound node).mp hmem
          cases node with
          | file source => exact ⟨hpre, source, hnode⟩
          | dir => cases hkind
        · rintro ⟨hpre, source, hfile⟩
          refine ⟨(path, .file source), ⟨(hfound _).mpr ⟨⟨hpre, ?_⟩, hfile⟩, rfl⟩, rfl⟩
          rintro rfl
          rw [hlive] at hfile
          cases hfile
      · rw [List.mem_cons]
        simp only [List.mem_map, List.mem_filter]
        constructor
        · rintro (rfl | ⟨⟨found, node⟩, ⟨hmem, hkind⟩, rfl⟩)
          · exact ⟨List.prefix_rfl, hlive⟩
          · obtain ⟨⟨hpre, -⟩, hnode⟩ := (hfound node).mp hmem
            cases node with
            | file source => cases hkind
            | dir => exact ⟨hpre, hnode⟩
        · rintro ⟨hpre, hdir⟩
          by_cases hself : path = src
          · exact Or.inl hself
          · exact Or.inr ⟨(path, .dir), ⟨(hfound _).mpr ⟨⟨hpre, hself⟩, hdir⟩, rfl⟩, rfl⟩

theorem mem_renameMovers (hrooted : Rooted inner.live) {src : RepoPath} (hsrc : src ≠ [])
    {path : RepoPath} :
    (path ∈ (inner.renameMovers src).1 ↔
      src <+: path ∧ ∃ source, inner.live path = some (.file source)) ∧
    (path ∈ (inner.renameMovers src).2 ↔ src <+: path ∧ inner.live path = some .dir) :=
  mem_renameMovers_of hrooted fun _ => hsrc

/-- Nothing is left live at a removed path and below it. -/
theorem live_stageRemove_of (hrooted : Rooted inner.live) {path : RepoPath}
    (hpath : inner.live path ≠ some .dir → path ≠ []) (q : RepoPath) :
    (inner.stageRemove path).live q = if path <+: q then none else inner.live q := by
  have hmovers : ∀ q, q ∈ (inner.renameMovers path).1 ++ (inner.renameMovers path).2 ↔
      path <+: q ∧ (inner.live q).isSome := by
    intro q
    obtain ⟨hfiles, hdirs⟩ := @mem_renameMovers_of inner hrooted path hpath q
    rw [List.mem_append, hfiles, hdirs, ← and_or_left]
    refine and_congr_right fun _ => ?_
    cases inner.live q with
    | none => simp
    | some node => cases node <;> simp
  rw [Inner.stageRemove]
  split_ifs with hpre
  · refine live_stageAll_eq ?_ ?_
    · intro e he _
      obtain ⟨found, -, rfl⟩ := List.mem_map.mp he
      rfl
    · cases hlive : inner.live q with
      | none => exact Or.inl rfl
      | some node =>
        refine Or.inr ⟨(q, .removed), List.mem_map.mpr ⟨q, ?_, rfl⟩, rfl⟩
        exact (hmovers q).mpr ⟨hpre, by rw [hlive]; rfl⟩
  · refine live_stageAll_of_notMem fun e he heq => hpre ?_
    obtain ⟨found, hfound, rfl⟩ := List.mem_map.mp he
    exact heq ▸ ((hmovers found).mp hfound).1

theorem live_stageRemove (hrooted : Rooted inner.live) {path : RepoPath} (hpath : path ≠ [])
    (q : RepoPath) :
    (inner.stageRemove path).live q = if path <+: q then none else inner.live q :=
  live_stageRemove_of hrooted (fun _ => hpath) q

/-! ### Renames -/

/-- What the files of a rename stage. -/
structure FilesMoved (inner : Inner) (plan : List (RepoPath × RepoPath × Bytes × UInt32))
    (entries : List (RepoPath × OverlayEntry)) : Prop where
  only : ∀ e ∈ entries, ∃ move ∈ plan, e = (move.1, .removed) ∨
    e = (move.2.1, .file move.2.2.1 move.2.2.2) ∨
    e.1 ∈ RepoPath.parents move.2.1 ∧ e.2 = .dir 0o040755
  source : ∀ move ∈ plan, (move.1, .removed) ∈ entries
  target : ∀ move ∈ plan, (move.2.1, .file move.2.2.1 move.2.2.2) ∈ entries
  above : ∀ move ∈ plan, ∀ dir ∈ RepoPath.parents move.2.1, (∃ e ∈ entries, e.1 = dir) ∨
    (inner.overlay.get dir).isSome ∨ inner.live dir = some .dir

theorem get_isSome_stageAll {entries : List (RepoPath × OverlayEntry)} {path : RepoPath}
    (h : ((inner.stageAll entries).overlay.get path).isSome) :
    (∃ e ∈ entries, e.1 = path) ∨ (inner.overlay.get path).isSome := by
  obtain ⟨entry, hentry⟩ := Option.isSome_iff_exists.mp h
  rcases get_stageAll hentry with hmem | hget
  · exact Or.inl ⟨_, hmem, rfl⟩
  · exact Or.inr (by rw [hget]; rfl)

/-- Staged, or a directory, after a list of entries: staged by them, or so before. -/
theorem staged_stageAll {entries : List (RepoPath × OverlayEntry)} {path : RepoPath}
    (h : ((inner.stageAll entries).overlay.get path).isSome ∨
      (inner.stageAll entries).live path = some .dir) :
    (∃ e ∈ entries, e.1 = path) ∨ (inner.overlay.get path).isSome ∨
      inner.live path = some .dir := by
  rcases h with hget | hlive
  · exact (get_isSome_stageAll hget).imp_right Or.inl
  · by_cases hex : ∃ e ∈ entries, e.1 = path
    · exact Or.inl hex
    · rw [live_stageAll_of_notMem fun e he heq => hex ⟨e, he, heq⟩] at hlive
      exact Or.inr (Or.inr hlive)

theorem moveFile_eq (inner : Inner) (move : RepoPath × RepoPath × Bytes × UInt32) :
    ∃ entries, inner.moveFile move = inner.stageAll entries ∧
      FilesMoved inner [move] entries := by
  obtain ⟨dirs, heq, hdirs, hall⟩ :=
    ensureDirs_eq (inner.stage move.1 .removed) (RepoPath.parents move.2.1)
  refine ⟨(move.1, .removed) :: (dirs ++ [(move.2.1, .file move.2.2.1 move.2.2.2)]), ?_, ?_⟩
  · rw [Inner.moveFile, Inner.ensureOverlayDirs, heq, Inner.stageAll, Inner.stageAll,
      List.foldl_cons, List.foldl_append]
    rfl
  · constructor
    · intro e he
      refine ⟨move, List.mem_singleton_self _, ?_⟩
      rcases List.mem_cons.mp he with rfl | hmem
      · exact Or.inl rfl
      · rcases List.mem_append.mp hmem with hdir | hfile
        · exact Or.inr (Or.inr (hdirs e hdir))
        · exact Or.inr (Or.inl (List.mem_singleton.mp hfile))
    · rintro _ hmove
      obtain rfl := List.mem_singleton.mp hmove
      exact List.mem_cons_self
    · rintro _ hmove
      obtain rfl := List.mem_singleton.mp hmove
      simp
    · rintro _ hmove dir hdir
      obtain rfl := List.mem_singleton.mp hmove
      rcases hall dir hdir with ⟨e, he, hedir⟩ | hstaged
      · exact Or.inl ⟨e, List.mem_cons_of_mem _ (List.mem_append_left _ he), hedir⟩
      · have hstaged : (∃ e ∈ [(_, OverlayEntry.removed)], e.1 = dir) ∨ _ :=
          staged_stageAll hstaged
        refine hstaged.imp_left ?_
        rintro ⟨e, he, hedir⟩
        obtain rfl := List.mem_singleton.mp he
        exact ⟨_, List.mem_cons_self, hedir⟩

theorem FilesMoved.append {first rest : List (RepoPath × RepoPath × Bytes × UInt32)}
    {entries more : List (RepoPath × OverlayEntry)} (h : FilesMoved inner first entries)
    (h' : FilesMoved (inner.stageAll entries) rest more) :
    FilesMoved inner (first ++ rest) (entries ++ more) where
  only := by
    intro e he
    rcases List.mem_append.mp he with hmem | hmem
    · obtain ⟨move, hmove, hcases⟩ := h.only e hmem
      exact ⟨move, List.mem_append_left _ hmove, hcases⟩
    · obtain ⟨move, hmove, hcases⟩ := h'.only e hmem
      exact ⟨move, List.mem_append_right _ hmove, hcases⟩
  source := by
    intro move hmove
    rcases List.mem_append.mp hmove with hmem | hmem
    · exact List.mem_append_left _ (h.source move hmem)
    · exact List.mem_append_right _ (h'.source move hmem)
  target := by
    intro move hmove
    rcases List.mem_append.mp hmove with hmem | hmem
    · exact List.mem_append_left _ (h.target move hmem)
    · exact List.mem_append_right _ (h'.target move hmem)
  above := by
    intro move hmove dir hdir
    rcases List.mem_append.mp hmove with hmem | hmem
    · rcases h.above move hmem dir hdir with ⟨e, he, hedir⟩ | hstaged
      · exact Or.inl ⟨e, List.mem_append_left _ he, hedir⟩
      · exact Or.inr hstaged
    · rcases h'.above move hmem dir hdir with ⟨e, he, hedir⟩ | hstaged
      · exact Or.inl ⟨e, List.mem_append_right _ he, hedir⟩
      · refine (staged_stageAll hstaged).imp_left ?_
        rintro ⟨e, he, hedir⟩
        exact ⟨e, List.mem_append_left _ he, hedir⟩

theorem moveFiles_eq (inner : Inner) (plan : List (RepoPath × RepoPath × Bytes × UInt32)) :
    ∃ entries, plan.foldl Inner.moveFile inner = inner.stageAll entries ∧
      FilesMoved inner plan entries := by
  induction plan generalizing inner with
  | nil =>
    exact ⟨[], rfl, ⟨fun e he => absurd he List.not_mem_nil, nofun, nofun, nofun⟩⟩
  | cons move plan ih =>
    obtain ⟨entries, heq, hmoved⟩ := moveFile_eq inner move
    obtain ⟨more, hmore, hrest⟩ := ih (inner.moveFile move)
    rw [heq] at hrest hmore
    refine ⟨entries ++ more, ?_, hmoved.append hrest⟩
    rw [List.foldl_cons, heq, hmore, stageAll_append]

/-- What the directories of a rename stage. -/
def dirEntries (plan : List (RepoPath × RepoPath × UInt32)) : List (RepoPath × OverlayEntry) :=
  plan.flatMap fun move => [(move.1, .removed), (move.2.1, .dir move.2.2)]

theorem moveDirs_eq (inner : Inner) (plan : List (RepoPath × RepoPath × UInt32)) :
    plan.foldl Inner.moveDir inner = inner.stageAll (dirEntries plan) := by
  induction plan generalizing inner with
  | nil => rfl
  | cons move plan ih => exact ih (inner.moveDir move)

theorem filePlan_eq {io : MountIo} {src dst : RepoPath} {files : List RepoPath}
    {plan : List (RepoPath × RepoPath × Bytes × UInt32)}
    (h : inner.filePlan io src dst files = some plan) :
    plan.map Prod.fst = files ∧ ∀ move ∈ plan, move.2.1 = RepoPath.remap src dst move.1 ∧
      ∃ content, readWorkfile io inner move.1 = some content ∧ move.2.2.1 = content.getD [] := by
  induction files generalizing plan with
  | nil =>
    cases h
    exact ⟨rfl, fun move hmove => absurd hmove List.not_mem_nil⟩
  | cons file files ih =>
    obtain ⟨content, hcontent, h⟩ := Option.bind_eq_some_iff.mp h
    obtain ⟨rest, hrest, h⟩ := Option.bind_eq_some_iff.mp h
    cases h
    obtain ⟨hfiles, hmoves⟩ := ih hrest
    refine ⟨by rw [List.map_cons, hfiles], fun move hmove => ?_⟩
    rcases List.mem_cons.mp hmove with rfl | hmem
    · exact ⟨rfl, content, hcontent, rfl⟩
    · exact hmoves move hmem

/-- Neither of two paths lies on the other. -/
def Apart (src dst : RepoPath) : Prop := ¬ src <+: dst ∧ ¬ dst <+: src

theorem Apart.not_both {src dst path : RepoPath} (h : Apart src dst) (hsrc : src <+: path)
    (hdst : dst <+: path) : False := by
  rcases List.prefix_or_prefix_of_prefix hsrc hdst with hle | hle
  · exact h.1 hle
  · exact h.2 hle

/-- One entry that a rename stages. -/
inductive RenameEntry (inner : Inner) (src dst : RepoPath) : RepoPath × OverlayEntry → Prop where
  | source {path : RepoPath} : src <+: path → RenameEntry inner src dst (path, .removed)
  | file {rest : RepoPath} {source : UInt32 × ContentSource} (content : Bytes) (mode : UInt32) :
      inner.live (src ++ rest) = some (.file source) →
      RenameEntry inner src dst (dst ++ rest, .file content mode)
  | above {rest dir : RepoPath} {source : UInt32 × ContentSource} (mode : UInt32) :
      inner.live (src ++ rest) = some (.file source) → dir ∈ RepoPath.parents (dst ++ rest) →
      RenameEntry inner src dst (dir, .dir mode)
  | dir {rest : RepoPath} (mode : UInt32) : inner.live (src ++ rest) = some .dir →
      RenameEntry inner src dst (dst ++ rest, .dir mode)

/-- **What a rename stages.** -/
theorem stageRename_eq {io : MountIo} {src dst : RepoPath} {inner' : Inner}
    (h : inner.stageRename io src dst = some inner') (hrooted : Rooted inner.live)
    (hsrc : src ≠ []) : ∃ entries, inner' = inner.stageAll entries ∧
      (∀ e ∈ entries, RenameEntry inner src dst e) ∧
      (∀ path, src <+: path → (inner.live path).isSome → (path, .removed) ∈ entries) ∧
      (∀ rest source, inner.live (src ++ rest) = some (.file source) →
        (∃ content mode, (dst ++ rest, .file content mode) ∈ entries) ∧
        ∀ dir ∈ RepoPath.parents (dst ++ rest), (∃ e ∈ entries, e.1 = dir) ∨
          (inner.overlay.get dir).isSome ∨ inner.live dir = some .dir) ∧
      (∀ rest, inner.live (src ++ rest) = some .dir →
        ∃ mode, (dst ++ rest, .dir mode) ∈ entries) ∧
      ∀ path content mode, (path, .file content mode) ∈ entries → ∃ rest, path = dst ++ rest ∧
        readWorkfile io inner (src ++ rest) = some (some content) := by
  obtain ⟨plan, hplan, h⟩ := Option.bind_eq_some_iff.mp h
  cases h
  have hplan : inner.filePlan io src dst (inner.renameMovers src).1 = some plan := hplan
  obtain ⟨hfiles, hmoves⟩ := filePlan_eq hplan
  have hremap := fun move hmove => (hmoves move hmove).1
  obtain ⟨moved, heq, hmoved⟩ := moveFiles_eq inner plan
  have hmovers := fun path => @mem_renameMovers inner hrooted src hsrc path
  have hplanned : ∀ move ∈ plan, ∃ rest source, move.1 = src ++ rest ∧ move.2.1 = dst ++ rest ∧
      inner.live (src ++ rest) = some (.file source) := by
    intro move hmove
    have hfile : move.1 ∈ (inner.renameMovers src).1 := by
      rw [← hfiles]
      exact List.mem_map_of_mem hmove
    obtain ⟨⟨rest, hrest⟩, source, hsource⟩ := (hmovers _).1.mp hfile
    refine ⟨rest, source, hrest.symm, ?_, hrest ▸ hsource⟩
    rw [hremap move hmove, ← hrest, RepoPath.remap_append]
  have hexists : ∀ rest source, inner.live (src ++ rest) = some (.file source) →
      ∃ move ∈ plan, move.1 = src ++ rest ∧ move.2.1 = dst ++ rest := by
    intro rest source hsource
    have hmem := (hmovers (src ++ rest)).1.mpr ⟨List.prefix_append _ _, source, hsource⟩
    rw [← hfiles] at hmem
    obtain ⟨move, hmove, hpath⟩ := List.mem_map.mp hmem
    refine ⟨move, hmove, hpath, ?_⟩
    rw [hremap move hmove, hpath, RepoPath.remap_append]
  have hdirs : ∀ e, e ∈ dirEntries (inner.dirPlan src dst (inner.renameMovers src).2) ↔
      ∃ rest, inner.live (src ++ rest) = some .dir ∧ (e = (src ++ rest, .removed) ∨
        e = (dst ++ rest, .dir ((inner.currentMode (src ++ rest)).getD 0o040755))) := by
    intro e
    simp only [dirEntries, Inner.dirPlan, List.mem_flatMap, List.mem_map]
    constructor
    · rintro ⟨_, ⟨dir, hdir, rfl⟩, he⟩
      obtain ⟨⟨rest, rfl⟩, hlive⟩ := (hmovers dir).2.mp hdir
      refine ⟨rest, hlive, ?_⟩
      simpa [RepoPath.remap_append] using he
    · rintro ⟨rest, hlive, he⟩
      refine ⟨_, ⟨src ++ rest, (hmovers _).2.mpr ⟨List.prefix_append _ _, hlive⟩, rfl⟩, ?_⟩
      simpa [RepoPath.remap_append] using he
  refine ⟨moved ++ dirEntries (inner.dirPlan src dst (inner.renameMovers src).2),
    ?_, ?_, ?_, ?_, ?_, ?_⟩
  · have hresult : (inner.dirPlan src dst (inner.renameMovers src).2).foldl Inner.moveDir
        (plan.foldl Inner.moveFile inner) = inner.stageAll
          (moved ++ dirEntries (inner.dirPlan src dst (inner.renameMovers src).2)) := by
      rw [heq, moveDirs_eq, stageAll_append]
    exact hresult
  · intro e he
    rcases List.mem_append.mp he with hmem | hmem
    · obtain ⟨move, hmove, hcases⟩ := hmoved.only e hmem
      obtain ⟨rest, source, hfrom, hto, hsource⟩ := hplanned move hmove
      rw [hfrom, hto] at hcases
      rcases hcases with rfl | rfl | ⟨hdir, hentry⟩
      · exact .source (List.prefix_append _ _)
      · exact .file _ _ hsource
      · obtain ⟨dir, entry⟩ := e
        cases hentry
        exact .above _ hsource hdir
    · obtain ⟨rest, hlive, rfl | rfl⟩ := (hdirs e).mp hmem
      · exact .source (List.prefix_append _ _)
      · exact .dir _ hlive
  · rintro path ⟨rest, rfl⟩ hsome
    obtain ⟨node, hnode⟩ := Option.isSome_iff_exists.mp hsome
    cases node with
    | file source =>
      obtain ⟨move, hmove, hfrom, -⟩ := hexists rest source hnode
      exact List.mem_append_left _ (hfrom ▸ hmoved.source move hmove)
    | dir => exact List.mem_append_right _ ((hdirs _).mpr ⟨rest, hnode, Or.inl rfl⟩)
  · intro rest source hsource
    obtain ⟨move, hmove, -, hto⟩ := hexists rest source hsource
    rw [← hto]
    refine ⟨⟨_, _, List.mem_append_left _ (hmoved.target move hmove)⟩, fun dir hdir => ?_⟩
    refine (hmoved.above move hmove dir hdir).imp_left ?_
    rintro ⟨e, he, hedir⟩
    exact ⟨e, List.mem_append_left _ he, hedir⟩
  · intro rest hlive
    exact ⟨_, List.mem_append_right _ ((hdirs _).mpr ⟨rest, hlive, Or.inr rfl⟩)⟩
  · intro path content mode hmem
    rcases List.mem_append.mp hmem with hfile | hdir
    · obtain ⟨move, hmove, hcases⟩ := hmoved.only _ hfile
      obtain ⟨rest, source, hfrom, hto, hsource⟩ := hplanned move hmove
      obtain ⟨-, read, hread, hcontent⟩ := hmoves move hmove
      rcases hcases with heq | heq | ⟨-, heq⟩
      · cases heq
      · cases heq
        refine ⟨rest, hto, ?_⟩
        rw [hfrom] at hread
        rw [hread, hcontent]
        unfold readWorkfile at hread
        rw [hsource] at hread
        obtain ⟨bytes, -, rfl⟩ := Option.map_eq_some_iff.mp hread
        rfl
      · cases heq
    · obtain ⟨rest, -, heq | heq⟩ := (hdirs _).mp hdir
      · cases heq
      · cases heq

/-- Some file moves. -/
def FileMoves (inner : Inner) (src : RepoPath) : Prop :=
  ∃ rest source, inner.live (src ++ rest) = some (.file source)

/-- What a rename leaves live. -/
structure Renamed (inner : Inner) (src dst : RepoPath) (inner' : Inner) : Prop where
  source : ∀ rest, inner'.live (src ++ rest) = none
  file : ∀ rest source, inner.live (src ++ rest) = some (.file source) →
    ∃ source', inner'.live (dst ++ rest) = some (.file source')
  dir : ∀ rest, inner.live (src ++ rest) = some .dir → inner'.live (dst ++ rest) = some .dir
  still : ∀ rest, inner.live (src ++ rest) = none →
    inner'.live (dst ++ rest) = inner.live (dst ++ rest)
  above : FileMoves inner src → ∀ dir ∈ RepoPath.parents dst, inner'.live dir = some .dir
  other : ∀ path, ¬ src <+: path → ¬ dst <+: path →
    path ∉ RepoPath.parents dst ∨ ¬ FileMoves inner src → inner'.live path = inner.live path

/-- An ancestor of a moved file's place that is not at or below the new place is above it. -/
theorem parents_append {dst rest dir : RepoPath} (h : dir ∈ RepoPath.parents (dst ++ rest)) :
    dst <+: dir ∨ dir ∈ RepoPath.parents dst := by
  obtain ⟨hne, hpre, -⟩ := RepoPath.mem_parents.mp h
  rcases List.prefix_or_prefix_of_prefix hpre (List.prefix_append dst rest) with hle | hle
  · by_cases heq : dir = dst
    · exact Or.inl (heq ▸ List.prefix_rfl)
    · exact Or.inr (RepoPath.mem_parents.mpr ⟨hne, hle, heq⟩)
  · exact Or.inl hle

theorem mem_parents_append {dst rest dir : RepoPath} (h : dir ∈ RepoPath.parents dst) :
    dir ∈ RepoPath.parents (dst ++ rest) := by
  obtain ⟨hne, hpre, hdir⟩ := RepoPath.mem_parents.mp h
  refine RepoPath.mem_parents.mpr ⟨hne, hpre.trans (List.prefix_append _ _), ?_⟩
  rintro rfl
  exact hdir (hpre.eq_of_length_le (by simp))

/-- A strict ancestor below the new place has a directory at the same place below the old one. -/
theorem dir_of_parents (hrooted : Rooted inner.live) {src dst rest rest' : RepoPath}
    {source : UInt32 × ContentSource} (hsrc : src ≠ [])
    (hfile : inner.live (src ++ rest) = some (.file source))
    (h : dst ++ rest' ∈ RepoPath.parents (dst ++ rest)) :
    inner.live (src ++ rest') = some .dir := by
  obtain ⟨-, hpre, hne⟩ := RepoPath.mem_parents.mp h
  obtain ⟨more, rfl⟩ := (List.prefix_append_right_inj dst).mp hpre
  have hmore : more ≠ [] := by
    rintro rfl
    exact hne (by rw [List.append_nil])
  rw [← List.append_assoc] at hfile
  refine (hrooted.dir_of_append hmore (by rw [hfile]; rfl)).resolve_left ?_
  simp [hsrc]

/-- **What a rename leaves live**: everything at its new place, nothing at its old one. -/
theorem renamed {io : MountIo} {src dst : RepoPath} {inner' : Inner}
    (h : inner.stageRename io src dst = some inner') (hrooted : Rooted inner.live)
    (hapart : Apart src dst) (hfree : ParentsFree inner dst) : Renamed inner src dst inner' := by
  have hsrc : src ≠ [] := by
    rintro rfl
    exact hapart.1 List.nil_prefix
  obtain ⟨entries, rfl, honly, hgone, hfiles, hdirs, -⟩ := stageRename_eq h hrooted hsrc
  have hat : ∀ {rest rest' : RepoPath}, dst ++ rest = dst ++ rest' → rest = rest' :=
    fun heq => List.append_cancel_left heq
  refine ⟨?_, ?_, ?_, ?_, ?_, ?_⟩
  · intro rest
    refine live_stageAll_eq ?_ ?_
    · intro e he heq
      cases honly e he with
      | source _ => rfl
      | file _ _ _ => exact (hapart.not_both (List.prefix_append _ _) ⟨_, heq⟩).elim
      | @above rest' dir source mode hfile hdir =>
        obtain rfl : dir = src ++ rest := heq
        obtain ⟨-, hpre, -⟩ := RepoPath.mem_parents.mp hdir
        exact (hapart.not_both ((List.prefix_append _ _).trans hpre)
          (List.prefix_append _ _)).elim
      | dir _ _ => exact (hapart.not_both (List.prefix_append _ _) ⟨_, heq⟩).elim
    · cases hlive : inner.live (src ++ rest) with
      | none => exact Or.inl rfl
      | some node =>
        exact Or.inr ⟨_, hgone _ (List.prefix_append _ _) (by rw [hlive]; rfl), rfl⟩
  · intro rest source hfile
    obtain ⟨⟨content, mode, hmem⟩, -⟩ := hfiles rest source hfile
    refine live_stageAll (P := fun node => ∃ source', node = some (.file source')) ?_
      (Or.inr ⟨_, hmem, rfl⟩)
    intro e he heq
    cases honly e he with
    | source hpre => exact (hapart.not_both hpre ⟨_, heq.symm⟩).elim
    | file content mode _ => exact ⟨_, rfl⟩
    | @above rest' dir source' mode hfile' hdir =>
      obtain rfl : dir = dst ++ rest := heq
      rw [dir_of_parents hrooted hsrc hfile' hdir] at hfile
      cases hfile
    | dir mode hdir =>
      rw [hat heq, hfile] at hdir
      cases hdir
  · intro rest hdir
    obtain ⟨mode, hmem⟩ := hdirs rest hdir
    refine live_stageAll_eq ?_ (Or.inr ⟨_, hmem, rfl⟩)
    intro e he heq
    cases honly e he with
    | source hpre => exact (hapart.not_both hpre ⟨_, heq.symm⟩).elim
    | file content mode hfile =>
      rw [hat heq, hdir] at hfile
      cases hfile
    | above mode _ _ => rfl
    | dir mode _ => rfl
  · intro rest hnone
    refine live_stageAll_of_notMem ?_
    intro e he heq
    cases honly e he with
    | source hpre => exact hapart.not_both hpre ⟨_, heq.symm⟩
    | file content mode hfile =>
      rw [hat heq, hnone] at hfile
      cases hfile
    | @above rest' dir source' mode hfile' hdir =>
      obtain rfl : dir = dst ++ rest := heq
      rw [dir_of_parents hrooted hsrc hfile' hdir] at hnone
      cases hnone
    | dir mode hdir =>
      rw [hat heq, hnone] at hdir
      cases hdir
  · rintro ⟨rest, source, hfile⟩ dir hdir
    obtain ⟨-, hpre, hne⟩ := RepoPath.mem_parents.mp hdir
    obtain ⟨-, habove⟩ := hfiles rest source hfile
    refine live_stageAll_eq ?_ ?_
    · intro e he heq
      cases honly e he with
      | source hsrc' =>
        obtain rfl : _ = dir := heq
        exact (hapart.1 (hsrc'.trans hpre)).elim
      | file content mode _ =>
        obtain rfl : _ = dir := heq
        exact (hne (hpre.eq_of_length_le (by simp))).elim
      | above mode _ _ => rfl
      | dir mode _ => rfl
    · rcases habove dir (mem_parents_append hdir) with hex | hget | hlive
      · exact Or.inr hex
      · obtain ⟨entry, hentry⟩ := Option.isSome_iff_exists.mp hget
        exact Or.inl (live_of_isDir hentry (hfree dir hdir entry hentry))
      · exact Or.inl hlive
  · intro path hnotSrc hnotDst hcase
    refine live_stageAll_of_notMem ?_
    intro e he heq
    cases honly e he with
    | source hpre => exact hnotSrc (heq ▸ hpre)
    | file content mode _ => exact hnotDst ⟨_, heq⟩
    | @above rest' dir source' mode hfile' hdir =>
      obtain rfl : dir = path := heq
      rcases hcase with hnot | hnot
      · rcases parents_append hdir with hle | hmem
        · exact hnotDst hle
        · exact hnot hmem
      · exact hnot ⟨rest', source', hfile'⟩
    | dir mode _ => exact hnotDst ⟨_, heq⟩

/-- What a rename must meet: neither end lies on the other, no ancestor of the new place is staged
as anything but a directory, something is above the new place, and no file moves onto a directory
that is not empty or to the root of a mount. -/
structure RenameOk (inner : Inner) (mountRoots : List Path) (src dst : RepoPath) : Prop where
  apart : Apart src dst
  free : ParentsFree inner dst
  placed : dst.dropLast = [] ∨ inner.live dst.dropLast = some .dir ∨ FileMoves inner src
  covers : ∀ rest source, inner.live (src ++ rest) = some (.file source) →
    ∀ name, inner.live (dst ++ rest ++ [name]) = none
  noRoot : ∀ rest source, inner.live (src ++ rest) = some (.file source) →
    RepoPath.toPath (dst ++ rest) ∉ mountRoots

theorem Renamed.rooted {src dst : RepoPath} {inner' : Inner} {mountRoots : List Path}
    (h : Renamed inner src dst inner') (hrooted : Rooted inner.live)
    (hok : RenameOk inner mountRoots src dst) : Rooted inner'.live := by
  have hsrc : src ≠ [] := by
    rintro rfl
    exact hok.apart.1 List.nil_prefix
  -- what is above the new place, or was there before
  have habove : ∀ dir, dir ≠ [] → ¬ src <+: dir → ¬ dst <+: dir → inner.live dir = some .dir →
      inner'.live dir = some .dir := by
    intro dir hne hnotSrc hnotDst hdir
    by_cases hparent : dir ∈ RepoPath.parents dst ∧ FileMoves inner src
    · exact h.above hparent.2 dir hparent.1
    · rw [h.other dir hnotSrc hnotDst (by tauto), hdir]
  intro dir name hlive
  by_cases hsource : src <+: dir ++ [name]
  · obtain ⟨rest, hrest⟩ := hsource
    rw [← hrest, h.source] at hlive
    cases hlive
  have hnotSrc : ¬ src <+: dir := fun hle => hsource (hle.trans (List.prefix_append _ _))
  by_cases hdest : dst <+: dir ++ [name]
  · by_cases hle : dst <+: dir
    · obtain ⟨rest, rfl⟩ := hle
      refine Or.inr ?_
      have hnil : src ++ rest ≠ [] := by simp [hsrc]
      cases hmoved : inner.live (src ++ (rest ++ [name])) with
      | some node =>
        rw [← List.append_assoc] at hmoved
        have hdir := hrooted (src ++ rest) name (by rw [hmoved]; rfl)
        exact h.dir rest (hdir.resolve_left hnil)
      | none =>
        have hstill := h.still _ hmoved
        rw [List.append_assoc, hstill, ← List.append_assoc] at hlive
        cases hparent : inner.live (src ++ rest) with
        | none =>
          rw [h.still rest hparent]
          refine (hrooted (dst ++ rest) name hlive).resolve_left fun heq => ?_
          exact hok.apart.2 ((List.append_eq_nil_iff.mp heq).1 ▸ List.nil_prefix)
        | some node =>
          cases node with
          | file source =>
            rw [hok.covers rest source hparent name] at hlive
            cases hlive
          | dir => exact h.dir rest hparent
    · -- the new place itself
      have heq : dst = dir ++ [name] := by
        rcases List.prefix_concat_iff.mp hdest with heq | hpre
        · exact heq
        · exact absurd hpre hle
      by_cases hnil : dir = []
      · exact Or.inl hnil
      · refine Or.inr ?_
        have hmem : dir ∈ RepoPath.parents dst := by
          refine RepoPath.mem_parents.mpr ⟨hnil, heq ▸ List.prefix_append _ _, ?_⟩
          rintro rfl
          exact hle List.prefix_rfl
        by_cases hmoves : FileMoves inner src
        · exact h.above hmoves dir hmem
        · refine habove dir hnil hnotSrc hle ?_
          have hplaced := hok.placed
          rw [heq, List.dropLast_concat] at hplaced
          rcases hplaced with hroot | hdir | hfile
          · exact absurd hroot hnil
          · exact hdir
          · exact absurd hfile hmoves
  · have hnotDst : ¬ dst <+: dir := fun hle => hdest (hle.trans (List.prefix_append _ _))
    by_cases hnil : dir = []
    · exact Or.inl hnil
    · refine Or.inr ?_
      by_cases hparent : dir ++ [name] ∈ RepoPath.parents dst ∧ FileMoves inner src
      · refine h.above hparent.2 dir ?_
        obtain ⟨-, hpre, -⟩ := RepoPath.mem_parents.mp hparent.1
        refine RepoPath.mem_parents.mpr ⟨hnil, (List.prefix_append _ _).trans hpre, ?_⟩
        rintro rfl
        exact hnotDst List.prefix_rfl
      · rw [h.other _ hsource hdest (by tauto)] at hlive
        exact habove dir hnil hnotSrc hnotDst ((hrooted dir name hlive).resolve_left hnil)

end

end Softfig.Mount
