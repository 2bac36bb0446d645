import Softfig.Mount.Staging

/-!
The two passes of a rename, entry by entry.

The first pass reads every moving file, the second applies the moves to whatever the overlay then
is: a moved path is marked removed, its new place gets the file or the directory, and a directory
is staged above the new place of a file where nothing is staged.

- `moveFiles_get_place`, `moveFiles_get_gone`, `moveFiles_get_other`: the entries after the files;
- `applied`: the entries after all moves, from any overlay;
- `movedLive`: what is live after a rename.
-/

namespace Softfig.Mount

open Softfig.Lib
open Softfig.Store (Bytes)

abbrev FileMove := RepoPath × RepoPath × Bytes × UInt32

abbrev DirMove := RepoPath × RepoPath × UInt32

/-- The second pass of a rename. -/
def Inner.applyMoves (inner : Inner) (files : List FileMove) (dirs : List DirMove) : Inner :=
  dirs.foldl Inner.moveDir (files.foldl Inner.moveFile inner)

/-! ### The entries after the second pass -/

section

variable {inner : Inner} {path : RepoPath}

theorem get_stage (inner : Inner) (path : RepoPath) (entry : OverlayEntry) (q : RepoPath) :
    (inner.stage path entry).overlay.get q =
      if q = path then some entry else inner.overlay.get q :=
  Overlay.get_stage _ _ _ _

/-- The directory that is staged where nothing is. -/
def madeDir (inner : Inner) (dirs : List RepoPath) (path : RepoPath) : Option OverlayEntry :=
  if path ∈ dirs ∧ (inner.view.lookup path).map Entry.kind ≠ some .dir then
    some (.dir 0o040755)
  else none

theorem madeDir_append (inner : Inner) (dirs more : List RepoPath) (path : RepoPath) :
    madeDir inner (dirs ++ more) path =
      (madeDir inner dirs path).or (madeDir inner more path) := by
  unfold madeDir
  by_cases hkind : (inner.view.lookup path).map Entry.kind = some .dir
  · simp [hkind]
  · by_cases hdirs : path ∈ dirs
    · simp [hkind, hdirs]
    · simp [hkind, hdirs]

theorem madeDir_of_view {inner' : Inner} (h : inner'.view = inner.view) (dirs : List RepoPath)
    (path : RepoPath) : madeDir inner' dirs path = madeDir inner dirs path := by
  rw [madeDir, madeDir, h]

theorem ensureDir_get (inner : Inner) (dir path : RepoPath) :
    (inner.ensureDir dir).view = inner.view ∧ (inner.ensureDir dir).overlay.get path =
      (inner.overlay.get path).or (madeDir inner [dir] path) := by
  have hother : path ≠ dir → madeDir inner [dir] path = none := fun hne => by
    rw [madeDir, if_neg]
    rintro ⟨hmem, -⟩
    exact hne (List.mem_singleton.mp hmem)
  unfold Inner.ensureDir
  split_ifs with hstaged hdir
  · refine ⟨rfl, ?_⟩
    by_cases heq : path = dir
    · obtain ⟨entry, hentry⟩ := Option.isSome_iff_exists.mp hstaged
      rw [heq, hentry]
      rfl
    · rw [hother heq, Option.or_none]
  · refine ⟨rfl, ?_⟩
    by_cases heq : path = dir
    · rw [heq, madeDir, if_neg (fun hmade => hmade.2 hdir), Option.or_none]
    · rw [hother heq, Option.or_none]
  · refine ⟨rfl, ?_⟩
    rw [get_stage]
    by_cases heq : path = dir
    · rw [heq, if_pos rfl, Option.not_isSome_iff_eq_none.mp hstaged, madeDir,
        if_pos ⟨List.mem_singleton_self _, hdir⟩]
      rfl
    · rw [if_neg heq, hother heq, Option.or_none]

theorem ensureDirs_get (inner : Inner) (dirs : List RepoPath) (path : RepoPath) :
    (dirs.foldl Inner.ensureDir inner).view = inner.view ∧
      (dirs.foldl Inner.ensureDir inner).overlay.get path =
        (inner.overlay.get path).or (madeDir inner dirs path) := by
  induction dirs generalizing inner with
  | nil => exact ⟨rfl, by simp [madeDir]⟩
  | cons dir dirs ih =>
    obtain ⟨hview, hget⟩ := ih (inner.ensureDir dir)
    obtain ⟨hview', hget'⟩ := ensureDir_get inner dir path
    refine ⟨hview.trans hview', hget.trans ?_⟩
    rw [hget', madeDir_of_view hview', Option.or_assoc, ← madeDir_append]
    rfl

/-- One file of the second pass. -/
theorem moveFile_get (inner : Inner) (move : FileMove) (path : RepoPath) :
    (inner.moveFile move).view = inner.view ∧ (inner.moveFile move).overlay.get path =
      if path = move.2.1 then some (.file move.2.2.1 move.2.2.2)
      else if path = move.1 then some .removed
      else (inner.overlay.get path).or (madeDir inner (RepoPath.parents move.2.1) path) := by
  obtain ⟨hview, hget⟩ :=
    ensureDirs_get (inner.stage move.1 .removed) (RepoPath.parents move.2.1) path
  refine ⟨hview, ?_⟩
  rw [Inner.moveFile, get_stage]
  split_ifs with hplace hsource
  · rfl
  · rw [Inner.ensureOverlayDirs, hget, get_stage, if_pos hsource]
    rfl
  · rw [Inner.ensureOverlayDirs, hget, get_stage, if_neg hsource]
    rfl

theorem moveDir_get (inner : Inner) (move : DirMove) (path : RepoPath) :
    (inner.moveDir move).view = inner.view ∧ (inner.moveDir move).overlay.get path =
      if path = move.2.1 then some (.dir move.2.2)
      else if path = move.1 then some .removed
      else inner.overlay.get path :=
  ⟨rfl, by rw [Inner.moveDir, get_stage, get_stage]⟩

/-- What the files of a rename leave where no file moves from or to. -/
theorem moveFiles_get_other {plan : List FileMove}
    (hother : ∀ move ∈ plan, path ≠ move.2.1 ∧ path ≠ move.1) :
    (plan.foldl Inner.moveFile inner).view = inner.view ∧
      (plan.foldl Inner.moveFile inner).overlay.get path = (inner.overlay.get path).or
        (madeDir inner (plan.flatMap fun move => RepoPath.parents move.2.1) path) := by
  induction plan generalizing inner with
  | nil => exact ⟨rfl, by simp [madeDir]⟩
  | cons move plan ih =>
    obtain ⟨hplace, hsource⟩ := hother move List.mem_cons_self
    obtain ⟨hview, hget⟩ := moveFile_get inner move path
    rw [if_neg hplace, if_neg hsource] at hget
    obtain ⟨hview', hget'⟩ := @ih (inner.moveFile move) fun other hmem =>
      hother other (List.mem_cons_of_mem _ hmem)
    rw [List.foldl_cons]
    refine ⟨hview'.trans hview, ?_⟩
    rw [hget', hget, madeDir_of_view hview, Option.or_assoc, ← madeDir_append, List.flatMap_cons]

/-- A file is at its new place, unless a later one moves away from there or to it. -/
theorem moveFiles_get_place {plan : List FileMove} {move : FileMove} (hmove : move ∈ plan)
    (hlast : plan.Pairwise fun first later => first.2.1 ≠ later.1)
    (hsame : ∀ other ∈ plan, other.2.1 = move.2.1 → other = move) :
    (plan.foldl Inner.moveFile inner).overlay.get move.2.1 =
      some (.file move.2.2.1 move.2.2.2) := by
  induction plan generalizing inner with
  | nil => exact absurd hmove List.not_mem_nil
  | cons first plan ih =>
    obtain ⟨hfirst, hlast⟩ := List.pairwise_cons.mp hlast
    have hsame' := fun other hmem => hsame other (List.mem_cons_of_mem first hmem)
    by_cases hmem : move ∈ plan
    · exact ih hmem hlast hsame'
    · obtain rfl := (List.mem_cons.mp hmove).resolve_right hmem
      rw [List.foldl_cons, (moveFiles_get_other fun other hother => ⟨?_, hfirst other hother⟩).2,
        (moveFile_get inner move move.2.1).2, if_pos rfl]
      · rfl
      · intro heq
        exact hmem (hsame' other hother heq.symm ▸ hother)

/-- Where a file moves from, and none to, a removal is staged. -/
theorem moveFiles_get_gone {plan : List FileMove} (hmove : ∃ move ∈ plan, move.1 = path)
    (hplace : ∀ move ∈ plan, path ≠ move.2.1) :
    (plan.foldl Inner.moveFile inner).overlay.get path = some .removed := by
  induction plan generalizing inner with
  | nil =>
    obtain ⟨move, hmem, -⟩ := hmove
    exact absurd hmem List.not_mem_nil
  | cons first plan ih =>
    have hplace' := fun other hmem => hplace other (List.mem_cons_of_mem first hmem)
    rw [List.foldl_cons]
    by_cases hmore : ∃ move ∈ plan, move.1 = path
    · exact ih hmore hplace'
    · have hfirst : first.1 = path := by
        obtain ⟨move, hmem, heq⟩ := hmove
        rcases List.mem_cons.mp hmem with rfl | hmem
        · exact heq
        · exact absurd ⟨move, hmem, heq⟩ hmore
      rw [(moveFiles_get_other fun move hmem =>
          ⟨hplace' move hmem, fun heq => hmore ⟨move, hmem, heq.symm⟩⟩).2,
        (moveFile_get inner first path).2, if_neg (hplace first List.mem_cons_self),
        if_pos hfirst.symm]
      rfl

theorem moveDirs_view (inner : Inner) (dirs : List DirMove) :
    (dirs.foldl Inner.moveDir inner).view = inner.view := by
  rw [moveDirs_eq, view_stageAll]

theorem moveDirs_get_other {dirs : List DirMove}
    (hother : ∀ move ∈ dirs, path ≠ move.2.1 ∧ path ≠ move.1) :
    (dirs.foldl Inner.moveDir inner).overlay.get path = inner.overlay.get path := by
  induction dirs generalizing inner with
  | nil => rfl
  | cons move dirs ih =>
    obtain ⟨hplace, hsource⟩ := hother move List.mem_cons_self
    rw [List.foldl_cons, ih fun other hmem => hother other (List.mem_cons_of_mem _ hmem),
      (moveDir_get inner move path).2, if_neg hplace, if_neg hsource]

/-- A directory is at its new place, unless a later one moves away from there. -/
theorem moveDirs_get_place {dirs : List DirMove} {move : DirMove} (hmove : move ∈ dirs)
    (hlast : dirs.Pairwise fun first later => first.2.1 ≠ later.1) :
    ∃ mode, (dirs.foldl Inner.moveDir inner).overlay.get move.2.1 = some (.dir mode) := by
  induction dirs generalizing inner move with
  | nil => exact absurd hmove List.not_mem_nil
  | cons first dirs ih =>
    obtain ⟨hfirst, hlast⟩ := List.pairwise_cons.mp hlast
    by_cases hmem : ∃ other ∈ dirs, other.2.1 = move.2.1
    · obtain ⟨other, hother, heq⟩ := hmem
      rw [List.foldl_cons, ← heq]
      exact ih hother hlast
    · obtain rfl : move = first :=
        (List.mem_cons.mp hmove).resolve_right fun hmore => hmem ⟨move, hmore, rfl⟩
      refine ⟨move.2.2, ?_⟩
      rw [List.foldl_cons, moveDirs_get_other fun other hother =>
          ⟨fun heq => hmem ⟨other, hother, heq.symm⟩, hfirst other hother⟩,
        (moveDir_get inner move move.2.1).2, if_pos rfl]

theorem moveDirs_get_gone {dirs : List DirMove} (hmove : ∃ move ∈ dirs, move.1 = path)
    (hplace : ∀ move ∈ dirs, path ≠ move.2.1) :
    (dirs.foldl Inner.moveDir inner).overlay.get path = some .removed := by
  induction dirs generalizing inner with
  | nil =>
    obtain ⟨move, hmem, -⟩ := hmove
    exact absurd hmem List.not_mem_nil
  | cons first dirs ih =>
    have hplace' := fun other hmem => hplace other (List.mem_cons_of_mem first hmem)
    rw [List.foldl_cons]
    by_cases hmore : ∃ move ∈ dirs, move.1 = path
    · exact ih hmore hplace'
    · have hfirst : first.1 = path := by
        obtain ⟨move, hmem, heq⟩ := hmove
        rcases List.mem_cons.mp hmem with rfl | hmem
        · exact heq
        · exact absurd ⟨move, hmem, heq⟩ hmore
      rw [moveDirs_get_other fun move hmem =>
          ⟨hplace' move hmem, fun heq => hmore ⟨move, hmem, heq.symm⟩⟩,
        (moveDir_get inner first path).2, if_neg (hplace first List.mem_cons_self),
        if_pos hfirst.symm]

end

/-! ### The plan of a rename -/

/-- What the first pass reads of a file. -/
def Inner.fileMove (inner : Inner) (io : MountIo) (src dst file : RepoPath) : FileMove :=
  (file, RepoPath.remap src dst file, ((readWorkfile io inner file).getD none).getD [],
    (inner.currentMode file).getD 0o100644)

section

variable {io : MountIo} {inner : Inner} {src dst path : RepoPath}

/-- The first pass reads every file, or it fails. -/
theorem filePlan_eq_some {files : List RepoPath} {plan : List FileMove} :
    inner.filePlan io src dst files = some plan ↔
      (∀ file ∈ files, (readWorkfile io inner file).isSome) ∧
        plan = files.map (inner.fileMove io src dst) := by
  induction files generalizing plan with
  | nil =>
    constructor
    · intro h
      cases h
      exact ⟨fun file hfile => absurd hfile List.not_mem_nil, rfl⟩
    · rintro ⟨-, rfl⟩
      rfl
  | cons file files ih =>
    rw [List.forall_mem_cons, List.map_cons]
    constructor
    · intro h
      obtain ⟨content, hread, h⟩ := Option.bind_eq_some_iff.mp h
      obtain ⟨rest, hrest, h⟩ := Option.bind_eq_some_iff.mp h
      obtain ⟨hall, rfl⟩ := ih.mp hrest
      cases h
      exact ⟨⟨by rw [hread]; rfl, hall⟩, by rw [Inner.fileMove, hread]; rfl⟩
    · rintro ⟨⟨hread, hall⟩, rfl⟩
      obtain ⟨content, hread⟩ := Option.isSome_iff_exists.mp hread
      refine Option.bind_eq_some_iff.mpr ⟨content, hread, ?_⟩
      refine Option.bind_eq_some_iff.mpr ⟨_, ih.mpr ⟨hall, rfl⟩, ?_⟩
      rw [Inner.fileMove, hread]
      rfl

theorem nodup_renameMovers (inner : Inner) (src : RepoPath) :
    (inner.renameMovers src).1.Nodup ∧ (inner.renameMovers src).2.Nodup := by
  have hlists := liveChildren_lists inner
  have hnodup := nodup_descend hlists inner.depth src
  have hpart : ∀ keep : RepoPath × Live (UInt32 × ContentSource) → Bool,
      (((descend inner.liveChildren inner.depth src).filter keep).map Prod.fst).Nodup :=
    fun keep => hnodup.sublist (List.filter_sublist.map _)
  unfold Inner.renameMovers
  cases inner.entryKindOf src with
  | none => exact ⟨List.nodup_nil, List.nodup_nil⟩
  | some kind =>
    cases kind with
    | blob => exact ⟨List.nodup_singleton _, List.nodup_nil⟩
    | dir =>
      refine ⟨hpart _, List.nodup_cons.mpr ⟨fun hmem => ?_, hpart _⟩⟩
      have hfound := (List.filter_sublist.map Prod.fst).subset hmem
      exact absurd (length_lt_of_mem_descend hlists hfound) (Nat.lt_irrefl _)

end

/-! ### What a rename leaves -/

/-- The moves of a rename applied to whatever the overlay then is. -/
def Inner.applyRename (base inner : Inner) (io : MountIo) (src dst : RepoPath) : Inner :=
  base.applyMoves ((inner.renameMovers src).1.map (inner.fileMove io src dst))
    (inner.dirPlan src dst (inner.renameMovers src).2)

/-- Every moving file can be read. -/
def Readable (io : MountIo) (inner : Inner) (src : RepoPath) : Prop :=
  ∀ rest mode source, inner.live (src ++ rest) = some (.file (mode, source)) →
    (io.content (src ++ rest) source).isSome

/-- No new place of something that moves is a path that moves away. -/
def PlacesFree (inner : Inner) (src dst : RepoPath) : Prop :=
  ∀ rest rest', (inner.live (src ++ rest)).isSome → (inner.live (src ++ rest')).isSome →
    dst ++ rest = src ++ rest' → rest = rest'

section

variable {io : MountIo} {base inner : Inner} {src dst path : RepoPath}

theorem readWorkfile_of_live {mode : UInt32} {source : ContentSource}
    (h : inner.live path = some (.file (mode, source))) :
    readWorkfile io inner path = (io.content path source).map some := by
  rw [readWorkfile, h]

theorem readable_iff (hrooted : Rooted inner.live) (hsrc : src ≠ []) : Readable io inner src ↔
    ∀ file ∈ (inner.renameMovers src).1, (readWorkfile io inner file).isSome := by
  have hmovers := fun path => (@mem_renameMovers inner hrooted src hsrc path).1
  constructor
  · intro h file hfile
    obtain ⟨⟨rest, rfl⟩, ⟨mode, source⟩, hlive⟩ := (hmovers file).mp hfile
    rw [readWorkfile_of_live hlive, Option.isSome_map]
    exact h rest mode source hlive
  · intro h rest mode source hlive
    have hread := h _ ((hmovers _).mpr ⟨List.prefix_append _ _, _, hlive⟩)
    rwa [readWorkfile_of_live hlive, Option.isSome_map] at hread

/-- A rename that is not refused by a read applies its moves. -/
theorem stageRename_eq_some (hrooted : Rooted inner.live) (hsrc : src ≠ []) {inner' : Inner} :
    inner.stageRename io src dst = some inner' ↔
      Readable io inner src ∧ inner' = inner.applyRename inner io src dst := by
  rw [readable_iff hrooted hsrc]
  constructor
  · intro h
    obtain ⟨plan, hplan, h⟩ := Option.bind_eq_some_iff.mp h
    obtain ⟨hall, rfl⟩ := filePlan_eq_some.mp hplan
    exact ⟨hall, (Option.some.inj h).symm⟩
  · rintro ⟨hall, rfl⟩
    exact Option.bind_eq_some_iff.mpr ⟨_, filePlan_eq_some.mpr ⟨hall, rfl⟩, rfl⟩

/-- What stands in the overlay after the moves of a rename, which start from any overlay. -/
structure Applied (base inner : Inner) (io : MountIo) (src dst : RepoPath) (after : Inner) :
    Prop where
  view : after.view = base.view
  file : ∀ rest mode source, inner.live (src ++ rest) = some (.file (mode, source)) →
    after.overlay.get (dst ++ rest) =
      some (.file ((io.content (src ++ rest) source).getD []) mode)
  dir : ∀ rest, inner.live (src ++ rest) = some .dir →
    ∃ mode, after.overlay.get (dst ++ rest) = some (.dir mode)
  gone : ∀ rest, (inner.live (src ++ rest)).isSome →
    (∀ rest', src ++ rest = dst ++ rest' → inner.live (src ++ rest') = none) →
      after.overlay.get (src ++ rest) = some .removed
  other : ∀ path, (∀ rest, path = src ++ rest → inner.live path = none) →
    (∀ rest, path = dst ++ rest → inner.live (src ++ rest) = none) →
      after.overlay.get path = (base.overlay.get path).or
        (madeDir base ((inner.renameMovers src).1.flatMap fun file =>
          RepoPath.parents (RepoPath.remap src dst file)) path)

theorem mem_fileMoves (hrooted : Rooted inner.live) (hsrc : src ≠ []) {move : FileMove} :
    move ∈ (inner.renameMovers src).1.map (inner.fileMove io src dst) ↔
      ∃ rest mode source, inner.live (src ++ rest) = some (.file (mode, source)) ∧
        move = (src ++ rest, dst ++ rest, (io.content (src ++ rest) source).getD [], mode) := by
  have hmovers := fun path => (@mem_renameMovers inner hrooted src hsrc path).1
  have hmove : ∀ rest mode source, inner.live (src ++ rest) = some (.file (mode, source)) →
      inner.fileMove io src dst (src ++ rest) =
        (src ++ rest, dst ++ rest, (io.content (src ++ rest) source).getD [], mode) := by
    intro rest mode source hlive
    rw [Inner.fileMove, RepoPath.remap_append, readWorkfile_of_live hlive,
      currentMode_of_live hlive]
    cases io.content (src ++ rest) source <;> rfl
  rw [List.mem_map]
  constructor
  · rintro ⟨file, hfile, rfl⟩
    obtain ⟨⟨rest, rfl⟩, ⟨mode, source⟩, hlive⟩ := (hmovers file).mp hfile
    exact ⟨rest, mode, source, hlive, hmove rest mode source hlive⟩
  · rintro ⟨rest, mode, source, hlive, rfl⟩
    refine ⟨src ++ rest, ?_, hmove rest mode source hlive⟩
    exact (hmovers _).mpr ⟨List.prefix_append _ _, _, hlive⟩

theorem mem_dirMoves (hrooted : Rooted inner.live) (hsrc : src ≠ []) {move : DirMove} :
    move ∈ inner.dirPlan src dst (inner.renameMovers src).2 ↔
      ∃ rest, inner.live (src ++ rest) = some .dir ∧
        move = (src ++ rest, dst ++ rest, (inner.currentMode (src ++ rest)).getD 0o040755) := by
  have hmovers := fun path => (@mem_renameMovers inner hrooted src hsrc path).2
  rw [Inner.dirPlan, List.mem_map]
  constructor
  · rintro ⟨dir, hdir, rfl⟩
    obtain ⟨⟨rest, rfl⟩, hlive⟩ := (hmovers dir).mp hdir
    exact ⟨rest, hlive, by rw [RepoPath.remap_append]⟩
  · rintro ⟨rest, hlive, rfl⟩
    refine ⟨src ++ rest, (hmovers _).mpr ⟨List.prefix_append _ _, hlive⟩, ?_⟩
    rw [RepoPath.remap_append]

/-- No move of a rename takes away what an earlier one put. -/
theorem pairwise_moves (hrooted : Rooted inner.live) (hsrc : src ≠ [])
    (hfree : PlacesFree inner src dst) :
    ((inner.renameMovers src).1.map (inner.fileMove io src dst)).Pairwise
        (fun first later => first.2.1 ≠ later.1) ∧
      (inner.dirPlan src dst (inner.renameMovers src).2).Pairwise
        fun first later => first.2.1 ≠ later.1 := by
  have hmovers := fun path => @mem_renameMovers inner hrooted src hsrc path
  have hsame : ∀ first later, src <+: first → src <+: later → (inner.live first).isSome →
      (inner.live later).isSome → first ≠ later → RepoPath.remap src dst first ≠ later := by
    rintro first later ⟨rest, rfl⟩ ⟨rest', rfl⟩ hfirst hlater hne heq
    rw [RepoPath.remap_append] at heq
    exact hne (by rw [hfree rest rest' hfirst hlater heq])
  obtain ⟨hnodupFiles, hnodupDirs⟩ := nodup_renameMovers inner src
  constructor
  · refine List.pairwise_map.mpr (hnodupFiles.imp_of_mem ?_)
    intro first later hfirst hlater
    obtain ⟨hpre, source, hlive⟩ := (hmovers first).1.mp hfirst
    obtain ⟨hpre', source', hlive'⟩ := (hmovers later).1.mp hlater
    exact hsame first later hpre hpre' (by rw [hlive]; rfl) (by rw [hlive']; rfl)
  · refine List.pairwise_map.mpr (hnodupDirs.imp_of_mem ?_)
    intro first later hfirst hlater
    obtain ⟨hpre, hlive⟩ := (hmovers first).2.mp hfirst
    obtain ⟨hpre', hlive'⟩ := (hmovers later).2.mp hlater
    exact hsame first later hpre hpre' (by rw [hlive]; rfl) (by rw [hlive']; rfl)

theorem view_moveFiles (inner : Inner) (plan : List FileMove) :
    (plan.foldl Inner.moveFile inner).view = inner.view := by
  obtain ⟨entries, heq, -⟩ := moveFiles_eq inner plan
  rw [heq, view_stageAll]

/-- **What the moves of a rename leave in the overlay.** -/
theorem applied (hrooted : Rooted inner.live) (hsrc : src ≠ []) (hfree : PlacesFree inner src dst)
    (base : Inner) : Applied base inner io src dst (base.applyRename inner io src dst) := by
  have hfiles := fun move => @mem_fileMoves io inner src dst hrooted hsrc move
  have hdirs := fun move => @mem_dirMoves inner src dst hrooted hsrc move
  obtain ⟨hlastFiles, hlastDirs⟩ := @pairwise_moves io inner src dst hrooted hsrc hfree
  constructor
  · exact (moveDirs_view _ _).trans (view_moveFiles _ _)
  · intro rest mode source hlive
    have hmove := (hfiles _).mpr ⟨rest, mode, source, hlive, rfl⟩
    have hplace := @moveFiles_get_place base _ _ hmove hlastFiles (by
      intro other hother heq
      obtain ⟨rest', mode', source', hlive', rfl⟩ := (hfiles _).mp hother
      obtain rfl : rest' = rest := List.append_cancel_left heq
      rw [hlive] at hlive'
      cases hlive'
      rfl)
    refine Eq.trans (moveDirs_get_other ?_) hplace
    intro other hother
    obtain ⟨rest', hdir, rfl⟩ := (hdirs _).mp hother
    constructor
    · intro heq
      obtain rfl : rest = rest' := List.append_cancel_left heq
      rw [hlive] at hdir
      cases hdir
    · intro heq
      obtain rfl := hfree rest rest' (by rw [hlive]; rfl) (by rw [hdir]; rfl) heq
      rw [hlive] at hdir
      cases hdir
  · intro rest hdir
    exact moveDirs_get_place ((hdirs _).mpr ⟨rest, hdir, rfl⟩) hlastDirs
  · intro rest hlive hnot
    have hapart : ∀ rest', src ++ rest = dst ++ rest' → ¬(inner.live (src ++ rest')).isSome := by
      intro rest' heq
      rw [hnot rest' heq]
      exact Bool.false_ne_true
    have hplaces : ∀ other ∈ inner.dirPlan src dst (inner.renameMovers src).2,
        src ++ rest ≠ other.2.1 := by
      intro other hother heq
      obtain ⟨rest', hdir, rfl⟩ := (hdirs _).mp hother
      exact hapart rest' heq (by rw [hdir]; rfl)
    obtain ⟨node, hnode⟩ := Option.isSome_iff_exists.mp hlive
    cases node with
    | dir =>
      exact moveDirs_get_gone ⟨_, (hdirs _).mpr ⟨rest, hnode, rfl⟩, rfl⟩ hplaces
    | file source =>
      obtain ⟨mode, source⟩ := source
      refine Eq.trans (moveDirs_get_other fun other hother => ⟨hplaces other hother, ?_⟩) ?_
      · intro heq
        obtain ⟨rest', hdir, rfl⟩ := (hdirs _).mp hother
        have heq : src ++ rest = src ++ rest' := heq
        rw [← heq, hnode] at hdir
        cases hdir
      · refine moveFiles_get_gone ⟨_, (hfiles _).mpr ⟨rest, mode, source, hnode, rfl⟩, rfl⟩ ?_
        intro other hother heq
        obtain ⟨rest', mode', source', hfile, rfl⟩ := (hfiles _).mp hother
        exact hapart rest' heq (by rw [hfile]; rfl)
  · intro path hsource hplace
    have hmade : ((inner.renameMovers src).1.map (inner.fileMove io src dst)).flatMap
        (fun move => RepoPath.parents move.2.1) = (inner.renameMovers src).1.flatMap fun file =>
          RepoPath.parents (RepoPath.remap src dst file) := by
      rw [List.flatMap_map]
      rfl
    rw [← hmade]
    refine Eq.trans (moveDirs_get_other ?_) (moveFiles_get_other ?_).2
    · intro other hother
      obtain ⟨rest, hdir, rfl⟩ := (hdirs _).mp hother
      constructor
      · intro heq
        rw [hplace rest heq] at hdir
        cases hdir
      · intro heq
        have heq : path = src ++ rest := heq
        rw [← heq, hsource rest heq] at hdir
        cases hdir
    · intro other hother
      obtain ⟨rest, mode, source, hfile, rfl⟩ := (hfiles _).mp hother
      constructor
      · intro heq
        rw [hplace rest heq] at hfile
        cases hfile
      · intro heq
        have heq : path = src ++ rest := heq
        rw [← heq, hsource rest heq] at hfile
        cases hfile

end

/-! ### What is live after a rename -/

/-- The mode and the bytes of a live file; the bytes are none where they cannot be read. -/
def fileAt (io : MountIo) (inner : Inner) (path : RepoPath) : Option (UInt32 × Option Bytes) :=
  match inner.live path with
  | some (.file source) => some (source.1, io.content path source.2)
  | _ => none

/-- Neither is the source the root, nor does the destination lie in it. -/
def Outside (src dst : RepoPath) : Prop := src ≠ [] ∧ (src <+: dst → src = dst)

section

variable {io : MountIo} {inner after : Inner} {src dst path : RepoPath}

theorem fileAt_of_file {mode : UInt32} {source : ContentSource}
    (h : inner.live path = some (.file (mode, source))) :
    fileAt io inner path = some (mode, io.content path source) := by
  rw [fileAt, h]

theorem fileAt_of_dir (h : inner.live path = some .dir) : fileAt io inner path = none := by
  rw [fileAt, h]

theorem fileAt_of_none (h : inner.live path = none) : fileAt io inner path = none := by
  rw [fileAt, h]

theorem fileAt_eq_some {mode : UInt32} {content : Option Bytes} :
    fileAt io inner path = some (mode, content) ↔
      ∃ source, inner.live path = some (.file (mode, source)) ∧ io.content path source = content := by
  unfold fileAt
  cases inner.live path with
  | none => simp
  | some node =>
    cases node with
    | dir => simp
    | file source =>
      obtain ⟨mode', source⟩ := source
      simp [and_assoc]

theorem fileAt_eq_none : fileAt io inner path = none ↔
    ∀ source, inner.live path ≠ some (.file source) := by
  unfold fileAt
  split
  · rename_i source hlive
    exact iff_of_false nofun fun hnot => hnot source hlive
  · rename_i hnot
    exact iff_of_true rfl hnot

/-- What is staged and what is committed under it decide what is live. -/
theorem live_eq (inner : Inner) (path : RepoPath) : inner.live path =
    ((inner.overlay.get path).map OverlayEntry.live).getD
      ((inner.view.lookup path).map Entry.live) := by
  unfold Inner.live
  cases inner.overlay.get path <;> rfl

/-- What a rename leaves live, path by path. -/
structure MovedLive (inner : Inner) (io : MountIo) (src dst : RepoPath) (after : Inner) : Prop where
  file : ∀ rest mode source, inner.live (src ++ rest) = some (.file (mode, source)) →
    after.live (dst ++ rest) =
      some (.file (mode, .overlay ((io.content (src ++ rest) source).getD [])))
  dir : ∀ rest, inner.live (src ++ rest) = some .dir → after.live (dst ++ rest) = some .dir
  gone : ∀ rest, (inner.live (src ++ rest)).isSome →
    (∀ rest', src ++ rest = dst ++ rest' → inner.live (src ++ rest') = none) →
      after.live (src ++ rest) = none
  above : ∀ path ∈ RepoPath.parents dst, ¬src <+: path → FileMoves inner src →
    inner.overlay.get path = none → after.live path = some .dir
  same : ∀ path, (∀ rest, path = src ++ rest → inner.live path = none) →
    (∀ rest, path = dst ++ rest → inner.live (src ++ rest) = none) →
      path ∉ RepoPath.parents dst ∨ ¬FileMoves inner src ∨ (inner.overlay.get path).isSome →
        after.live path = inner.live path

theorem movedLive (hrooted : Rooted inner.live) (hsrc : src ≠ []) (hfree : PlacesFree inner src dst) :
    MovedLive inner io src dst (inner.applyRename inner io src dst) := by
  have happlied := @applied io inner src dst hrooted hsrc hfree inner
  generalize inner.applyRename inner io src dst = after at happlied
  have hmovers := fun path => (@mem_renameMovers inner hrooted src hsrc path).1
  constructor
  · intro rest mode source hlive
    rw [live_of_get (happlied.file rest mode source hlive)]
    rfl
  · intro rest hlive
    obtain ⟨mode, hget⟩ := happlied.dir rest hlive
    rw [live_of_get hget]
    rfl
  · intro rest hlive hnot
    rw [live_of_get (happlied.gone rest hlive hnot)]
    rfl
  · rintro path hpath hnotSrc ⟨rest, source, hfile⟩ hget
    have hparent : path ∈ (inner.renameMovers src).1.flatMap fun file =>
        RepoPath.parents (RepoPath.remap src dst file) := by
      refine List.mem_flatMap.mpr
        ⟨src ++ rest, (hmovers _).mpr ⟨List.prefix_append _ _, source, hfile⟩, ?_⟩
      rw [RepoPath.remap_append]
      exact mem_parents_append hpath
    have hother := happlied.other path (fun rest heq => absurd ⟨rest, heq.symm⟩ hnotSrc) (by
      rintro rest rfl
      obtain ⟨-, hpre, hne⟩ := RepoPath.mem_parents.mp hpath
      exact absurd (hpre.eq_of_length_le (by simp)) hne)
    rw [hget, madeDir] at hother
    by_cases hkind : (inner.view.lookup path).map Entry.kind = some .dir
    · rw [if_neg (fun h => h.2 hkind)] at hother
      rw [live_of_get_none hother, happlied.view, ← live_of_get_none hget, ← entryKindOf_dir,
        Inner.entryKindOf, hget]
      exact hkind
    · rw [if_pos ⟨hparent, hkind⟩] at hother
      rw [live_of_get hother]
      rfl
  · intro path hsource hplace hcase
    have hother := happlied.other path hsource hplace
    rw [live_eq, hother, happlied.view, live_eq]
    cases hget : inner.overlay.get path with
    | some entry => rfl
    | none =>
      have hmade : madeDir inner ((inner.renameMovers src).1.flatMap fun file =>
          RepoPath.parents (RepoPath.remap src dst file)) path = none := by
        rw [madeDir, if_neg]
        rintro ⟨hmem, hkind⟩
        obtain ⟨file, hfile, hparent⟩ := List.mem_flatMap.mp hmem
        obtain ⟨⟨rest, rfl⟩, source, hlive⟩ := (hmovers file).mp hfile
        rw [RepoPath.remap_append] at hparent
        rcases parents_append hparent with ⟨rest', rfl⟩ | hdst
        · have hnone := hplace rest' rfl
          rw [dir_of_parents hrooted hsrc hlive hparent] at hnone
          cases hnone
        · rcases hcase with hnot | hnot | hstaged
          · exact hnot hdst
          · exact hnot ⟨rest, source, hlive⟩
          · rw [hget] at hstaged
            cases hstaged
      rw [hmade]
      rfl

end

end Softfig.Mount
