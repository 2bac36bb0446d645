import Softfig.Mount.Moves

/-!
Which renames, removals and writes inside a rename leave exactly what they should.

- `exact_of_clean`, `clean_of_exact`: when a rename that is not refused moves every file with its
  bytes and its mode, keeps all others and leaves everything in reach of a descent;
- `kept_of_raceClean`, `raceClean_of_kept`: when a write that runs between the two passes of a
  rename is live afterwards;
- `remove_exact_iff`: when a removal takes away exactly what is at its path and below it;
- `Staging.meets_iff_clean`: the three together.
-/

namespace Softfig.Mount

open Softfig.Lib
open Softfig.Store (Bytes)
open Softfig.Vcs (FileName)

/-! ### What is asked of each -/

/-- A rename that succeeds: every moved file is at its new place with its mode and its bytes, all
other files stay but for a plain one at the destination, and a descent reaches what is live. -/
structure RenameExact (io : MountIo) (inner : Inner) (src dst : RepoPath) (after : Inner) : Prop where
  moved : ∀ rest file, fileAt io inner (src ++ rest) = some file →
    fileAt io after (dst ++ rest) = some file
  kept : ∀ path, (∀ rest, path = dst ++ rest → fileAt io inner (src ++ rest) = none) →
    fileAt io after path =
      if src <+: path ∨ path = dst ∧ (inner.live src).isSome then none else fileAt io inner path
  elsewhere : ∀ path, ¬src <+: path → ¬dst <+: path → ¬path <+: dst →
    after.live path = inner.live path
  reachable : Rooted after.live

/-- No moved path is the source at its new place; the directories above the new place are there, or
nothing is; no file moves onto a directory that holds something else, and no directory in the
source onto a file. -/
structure RenameClean (inner : Inner) (src dst : RepoPath) : Prop where
  apart : ∀ rest, rest ≠ [] → src = dst ++ rest → inner.live (src ++ rest) = none
  above : FileMoves inner src → ∀ dir ∈ RepoPath.parents dst,
    inner.live dir = some .dir ∨ inner.overlay.get dir = none ∧ inner.live dir = none
  placed : (inner.live src).isSome → ¬FileMoves inner src →
    dst.dropLast = [] ∨ inner.live dst.dropLast = some .dir
  covers : ∀ rest source name, inner.live (src ++ rest) = some (.file source) →
    (inner.live (dst ++ rest ++ [name])).isSome → src <+: dst ++ rest ++ [name]
  replaces : ∀ rest, rest ≠ [] → inner.live (src ++ rest) = some .dir →
    ∀ source, inner.live (dst ++ rest) ≠ some (.file source)

/-! ### Renames -/

section

variable {io : MountIo} {inner after : Inner} {src dst path : RepoPath}

theorem placesFree_of_apart (hrooted : Rooted inner.live) (hout : Outside src dst)
    (hapart : ∀ rest, rest ≠ [] → src = dst ++ rest → inner.live (src ++ rest) = none) :
    PlacesFree inner src dst := by
  intro rest rest' hlive _ heq
  have hsame : src = dst → rest = rest' := by
    rintro rfl
    exact List.append_cancel_left heq
  rcases List.prefix_or_prefix_of_prefix (List.prefix_append src rest')
    (heq ▸ List.prefix_append dst rest) with hle | ⟨more, hmore⟩
  · exact hsame (hout.2 hle)
  · by_cases hnil : more = []
    · refine hsame ?_
      rw [← hmore, hnil, List.append_nil]
    · have hnone := hapart more hnil hmore.symm
      obtain rfl : rest = more ++ rest' := by
        rw [← hmore, List.append_assoc] at heq
        exact List.append_cancel_left heq
      by_cases hrest : rest' = []
      · rw [hrest, List.append_nil, hnone] at hlive
        cases hlive
      · rw [← List.append_assoc,
          hrooted.not_below_none hnone (by simp [hnil]) hrest] at hlive
        cases hlive

/-- The source is live where something at it or below it is. -/
theorem source_live (hrooted : Rooted inner.live) (hsrc : src ≠ []) {rest : RepoPath}
    (h : (inner.live (src ++ rest)).isSome) : (inner.live src).isSome := by
  by_cases hrest : rest = []
  · rwa [hrest, List.append_nil] at h
  · rw [(hrooted.dir_of_append hrest h).resolve_left hsrc]
    rfl

/-- What is strictly above the destination is neither in the source nor at the destination. -/
theorem above_apart (hout : Outside src dst) (h : path ∈ RepoPath.parents dst) :
    ¬src <+: path ∧ ¬dst <+: path := by
  obtain ⟨-, hpre, hne⟩ := RepoPath.mem_parents.mp h
  have hnot : ¬dst <+: path := fun hle => hne (hpre.eq_of_length_le hle.length_le)
  refine ⟨fun hle => hnot ?_, hnot⟩
  rw [← hout.2 (hle.trans hpre)]
  exact hle

/-- Above the destination of a clean rename all are directories afterwards. -/
theorem dir_above (hrooted : Rooted inner.live) (hout : Outside src dst)
    (hlive : MovedLive inner io src dst after) (hclean : RenameClean inner src dst)
    (hsource : (inner.live src).isSome) (hpath : path ∈ RepoPath.parents dst) :
    after.live path = some .dir := by
  obtain ⟨hnotSrc, hnotDst⟩ := above_apart hout hpath
  have hsame := hlive.same path (fun rest heq => absurd ⟨rest, heq.symm⟩ hnotSrc)
    fun rest heq => absurd ⟨rest, heq.symm⟩ hnotDst
  by_cases hmoves : FileMoves inner src
  · cases hget : inner.overlay.get path with
    | none => exact hlive.above path hpath hnotSrc hmoves hget
    | some entry =>
      rw [hsame (.inr (.inr (by rw [hget]; rfl)))]
      rcases hclean.above hmoves path hpath with hdir | ⟨hnone, -⟩
      · exact hdir
      · rw [hget] at hnone
        cases hnone
  · rw [hsame (.inr (.inl hmoves))]
    obtain ⟨hnil, ⟨rest, hrest⟩, hne⟩ := RepoPath.mem_parents.mp hpath
    have hmore : rest ≠ [] := by
      rintro rfl
      exact hne (by rw [← hrest, List.append_nil])
    have hlast : dst.dropLast = path ++ rest.dropLast := by
      rw [← hrest, List.dropLast_append_of_ne_nil hmore]
    rcases hclean.placed hsource hmoves with hroot | hdir
    · rw [hlast] at hroot
      exact absurd (List.append_eq_nil_iff.mp hroot).1 hnil
    · rw [hlast] at hdir
      by_cases hrest' : rest.dropLast = []
      · rwa [hrest', List.append_nil] at hdir
      · exact (hrooted.dir_of_append hrest' (by rw [hdir]; rfl)).resolve_left hnil

theorem rooted_of_clean (hrooted : Rooted inner.live) (hout : Outside src dst)
    (hlive : MovedLive inner io src dst after) (hclean : RenameClean inner src dst) :
    Rooted after.live := by
  intro dir name hafter
  refine or_iff_not_imp_left.mpr fun hnil => ?_
  by_cases hplace : ∃ rest, dir ++ [name] = dst ++ rest ∧ (inner.live (src ++ rest)).isSome
  · obtain ⟨rest, heq, hmoved⟩ := hplace
    by_cases hrest : rest = []
    · -- the new place itself
      rw [hrest, List.append_nil] at heq hmoved
      refine dir_above hrooted hout hlive hclean hmoved (RepoPath.mem_parents.mpr ⟨hnil, ?_, ?_⟩)
      · rw [← heq]
        exact List.prefix_append _ _
      · rintro rfl
        simpa using congrArg List.length heq
    · -- below the new place: its directory moved with it
      obtain ⟨rest', name', rfl⟩ := (List.eq_nil_or_concat' rest).resolve_left hrest
      rw [← List.append_assoc] at heq hmoved
      obtain ⟨rfl, -⟩ := List.append_inj' heq rfl
      exact hlive.dir rest' ((hrooted _ _ hmoved).resolve_left (by simp [hout.1]))
  · have hsource : ∀ rest, dir ++ [name] = src ++ rest → inner.live (dir ++ [name]) = none := by
      intro rest heq
      by_contra hne
      have hnone := hlive.gone rest (by rw [← heq]; exact Option.isSome_iff_ne_none.mpr hne) (by
        intro rest' heq'
        by_contra hne'
        exact hplace ⟨rest', heq.trans heq', Option.isSome_iff_ne_none.mpr hne'⟩)
      rw [heq, hnone] at hafter
      cases hafter
    have hdest : ∀ rest, dir ++ [name] = dst ++ rest → inner.live (src ++ rest) = none := by
      intro rest heq
      by_contra hne
      exact hplace ⟨rest, heq, Option.isSome_iff_ne_none.mpr hne⟩
    by_cases hmade : dir ++ [name] ∈ RepoPath.parents dst ∧ FileMoves inner src
    · obtain ⟨hparent, rest, source, hfile⟩ := hmade
      obtain ⟨-, hpre, hne⟩ := RepoPath.mem_parents.mp hparent
      refine dir_above hrooted hout hlive hclean
        (source_live hrooted hout.1 (by rw [hfile]; rfl)) (RepoPath.mem_parents.mpr
          ⟨hnil, (List.prefix_append _ _).trans hpre, ?_⟩)
      rintro rfl
      exact (above_apart hout hparent).2 (List.prefix_append _ _)
    · rw [hlive.same _ hsource hdest (by tauto)] at hafter
      have hdir := (hrooted dir name hafter).resolve_left hnil
      by_cases hat : ∃ rest, dir = dst ++ rest ∧ (inner.live (src ++ rest)).isSome
      · obtain ⟨rest, rfl, hmoved⟩ := hat
        cases hnode : inner.live (src ++ rest) with
        | none =>
          rw [hnode] at hmoved
          cases hmoved
        | some node =>
          cases node with
          | dir => exact hlive.dir rest hnode
          | file source =>
            obtain ⟨more, heq⟩ := hclean.covers rest source name hnode hafter
            rw [hsource more heq.symm] at hafter
            cases hafter
      · have hdirSource : ∀ rest, dir = src ++ rest → inner.live dir = none := by
          rintro rest rfl
          rw [hsource (rest ++ [name]) (List.append_assoc _ _ _)] at hafter
          cases hafter
        have hdirDest : ∀ rest, dir = dst ++ rest → inner.live (src ++ rest) = none := by
          intro rest heq
          by_contra hne
          exact hat ⟨rest, heq, Option.isSome_iff_ne_none.mpr hne⟩
        by_cases hparent : dir ∈ RepoPath.parents dst ∧ FileMoves inner src
        · obtain ⟨hparent, rest, source, hfile⟩ := hparent
          exact dir_above hrooted hout hlive hclean
            (source_live hrooted hout.1 (by rw [hfile]; rfl)) hparent
        · rw [hlive.same dir hdirSource hdirDest (by tauto), hdir]

theorem exact_of_clean (hrooted : Rooted inner.live) (hout : Outside src dst)
    (hread : Readable io inner src) (hlive : MovedLive inner io src dst after)
    (hclean : RenameClean inner src dst) : RenameExact io inner src dst after := by
  have hmoved : ∀ rest file, fileAt io inner (src ++ rest) = some file →
      fileAt io after (dst ++ rest) = some file := by
    rintro rest ⟨mode, content⟩ hfile
    obtain ⟨source, hsource, rfl⟩ := fileAt_eq_some.mp hfile
    obtain ⟨bytes, hbytes⟩ := Option.isSome_iff_exists.mp (hread rest mode source hsource)
    rw [fileAt_of_file (hlive.file rest mode source hsource), hbytes]
    rfl
  refine ⟨hmoved, ?_, ?_, rooted_of_clean hrooted hout hlive hclean⟩
  · intro path hnone
    by_cases hplace : ∃ rest, path = dst ++ rest ∧ (inner.live (src ++ rest)).isSome
    · obtain ⟨rest, rfl, hsome⟩ := hplace
      have hdir : inner.live (src ++ rest) = some .dir := by
        have hnot := fileAt_eq_none.mp (hnone rest rfl)
        obtain ⟨node, hnode⟩ := Option.isSome_iff_exists.mp hsome
        cases node with
        | file source => exact absurd hnode (hnot source)
        | dir => exact hnode
      rw [fileAt_of_dir (hlive.dir rest hdir)]
      split_ifs with hreplaced
      · rfl
      · refine (fileAt_eq_none.mpr (hclean.replaces rest ?_ hdir)).symm
        rintro rfl
        rw [List.append_nil] at hreplaced hsome
        exact hreplaced (.inr ⟨rfl, hsome⟩)
    · have hdest : ∀ rest, path = dst ++ rest → inner.live (src ++ rest) = none := by
        intro rest heq
        by_contra hne
        exact hplace ⟨rest, heq, Option.isSome_iff_ne_none.mpr hne⟩
      by_cases hgone : src <+: path ∧ (inner.live path).isSome
      · obtain ⟨⟨rest, rfl⟩, hsome⟩ := hgone
        rw [fileAt_of_none (hlive.gone rest hsome hdest), if_pos (.inl (List.prefix_append _ _))]
      · have hsource : ∀ rest, path = src ++ rest → inner.live path = none := by
          rintro rest rfl
          by_contra hne
          exact hgone ⟨List.prefix_append _ _, Option.isSome_iff_ne_none.mpr hne⟩
        by_cases hmade : path ∈ RepoPath.parents dst ∧ FileMoves inner src ∧
            inner.overlay.get path = none
        · obtain ⟨hparent, hmoves, hget⟩ := hmade
          obtain ⟨hnotSrc, hnotDst⟩ := above_apart hout hparent
          rw [fileAt_of_dir (hlive.above path hparent hnotSrc hmoves hget), if_neg]
          · rcases hclean.above hmoves path hparent with hdir | ⟨-, hfree⟩
            · rw [fileAt_of_dir hdir]
            · rw [fileAt_of_none hfree]
          · rintro (hle | ⟨rfl, -⟩)
            · exact hnotSrc hle
            · exact hnotDst List.prefix_rfl
        · have hsame : after.live path = inner.live path := by
            refine hlive.same path hsource hdest ?_
            rw [Option.isSome_iff_ne_none]
            tauto
          rw [fileAt, hsame, ← fileAt]
          split_ifs with hreplaced
          · rcases hreplaced with ⟨rest, heq⟩ | ⟨rfl, hsome⟩
            · exact fileAt_of_none (hsource rest heq.symm)
            · have hnone := hdest [] (List.append_nil _).symm
              rw [List.append_nil] at hnone
              rw [hnone] at hsome
              cases hsome
          · rfl
  · intro path hnotSrc hnotDst hnotAbove
    refine hlive.same path (fun rest heq => absurd ⟨rest, heq.symm⟩ hnotSrc)
      (fun rest heq => absurd ⟨rest, heq.symm⟩ hnotDst) (.inl fun hparent => ?_)
    exact hnotAbove (RepoPath.mem_parents.mp hparent).2.1

/-- A rename onto itself is clean. -/
theorem RenameClean.refl (hrooted : Rooted inner.live) (hsrc : src ≠ []) :
    RenameClean inner src src where
  apart := by
    intro rest hrest heq
    exact absurd (List.self_eq_append_right.mp heq) hrest
  above := by
    rintro ⟨rest, source, hfile⟩ dir hdir
    obtain ⟨hnil, ⟨more, hmore⟩, hne⟩ := RepoPath.mem_parents.mp hdir
    refine .inl ((hrooted.dir_of_append (?_ : more ≠ []) ?_).resolve_left hnil)
    · rintro rfl
      exact hne (by rw [← hmore, List.append_nil])
    · rw [hmore]
      exact source_live hrooted hsrc (by rw [hfile]; rfl)
  placed := by
    intro hlive _
    rw [← List.dropLast_append_getLast hsrc] at hlive
    exact hrooted _ _ hlive
  covers := by
    intro rest source name hfile hlive
    rw [hrooted.not_below_file hfile (by simp [hsrc]) (List.cons_ne_nil _ _)] at hlive
    cases hlive
  replaces := by
    intro rest _ hdir source hfile
    rw [hdir] at hfile
    cases hfile

/-- A rename that leaves what it should is clean, where its destination is not above the source. -/
theorem clean_of_exact (hrooted : Rooted inner.live) (hout : Outside src dst)
    (hbelow : dst <+: src → dst = src) (hlive : MovedLive inner io src dst after)
    (hexact : RenameExact io inner src dst after) : RenameClean inner src dst := by
  by_cases heq : src = dst
  · exact heq ▸ RenameClean.refl hrooted hout.1
  have hapart : Apart src dst := ⟨fun hle => heq (hout.2 hle), fun hle => heq (hbelow hle).symm⟩
  have hdst : dst ≠ [] := by
    rintro rfl
    exact hapart.2 List.nil_prefix
  have hplaced : (inner.live src).isSome → (after.live dst).isSome := by
    intro hsome
    obtain ⟨node, hnode⟩ := Option.isSome_iff_exists.mp hsome
    rw [← List.append_nil src] at hnode
    rw [← List.append_nil dst]
    cases node with
    | file source => rw [hlive.file [] source.1 source.2 hnode]; rfl
    | dir => rw [hlive.dir [] hnode]; rfl
  constructor
  · rintro rest - rfl
    exact absurd (List.prefix_append _ _) hapart.2
  · rintro hmoves dir hdir
    obtain ⟨hnotSrc, hnotDst⟩ := above_apart hout hdir
    obtain ⟨hnil, ⟨more, hmore⟩, hne⟩ := RepoPath.mem_parents.mp hdir
    have hafter : after.live dir = some .dir := by
      refine (hexact.reachable.dir_of_append (?_ : more ≠ []) ?_).resolve_left hnil
      · rintro rfl
        exact hne (by rw [← hmore, List.append_nil])
      · obtain ⟨rest, source, hfile⟩ := hmoves
        rw [hmore]
        exact hplaced (source_live hrooted hout.1 (by rw [hfile]; rfl))
    cases hget : inner.overlay.get dir with
    | some entry =>
      refine .inl ?_
      rw [← hafter]
      exact (hlive.same dir (fun rest heq => absurd ⟨rest, heq.symm⟩ hnotSrc)
        (fun rest heq => absurd ⟨rest, heq.symm⟩ hnotDst) (.inr (.inr (by rw [hget]; rfl)))).symm
    | none =>
      have hkept := hexact.kept dir fun rest heq => absurd ⟨rest, heq.symm⟩ hnotDst
      rw [fileAt_of_dir hafter, if_neg] at hkept
      · cases hnode : inner.live dir with
        | none => exact .inr ⟨rfl, rfl⟩
        | some node =>
          cases node with
          | dir => exact .inl rfl
          | file source => exact absurd hnode (fileAt_eq_none.mp hkept.symm source)
      · rintro (hle | ⟨rfl, -⟩)
        · exact hnotSrc hle
        · exact hnotDst List.prefix_rfl
  · intro hsome hstill
    have hafter := hplaced hsome
    rw [← List.dropLast_append_getLast hdst] at hafter
    refine or_iff_not_imp_left.mpr fun hnil => ?_
    have hdir := (hexact.reachable _ _ hafter).resolve_left hnil
    have hparent : dst.dropLast ∈ RepoPath.parents dst := by
      refine RepoPath.mem_parents.mpr ⟨hnil, List.dropLast_prefix _, fun hlast => ?_⟩
      have hlen := congrArg List.length hlast
      rw [List.length_dropLast] at hlen
      have := List.length_pos_iff.mpr hdst
      omega
    obtain ⟨hnotSrc, hnotDst⟩ := above_apart hout hparent
    rw [← hdir]
    exact (hlive.same _ (fun rest heq => absurd ⟨rest, heq.symm⟩ hnotSrc)
      (fun rest heq => absurd ⟨rest, heq.symm⟩ hnotDst) (.inr (.inl hstill))).symm
  · intro rest source name hfile hsome
    by_contra hnot
    have hsame : after.live (dst ++ rest ++ [name]) = inner.live (dst ++ rest ++ [name]) := by
      refine hlive.same _ (fun more heq => absurd ⟨more, heq.symm⟩ hnot) ?_ (.inl ?_)
      · intro more heq
        obtain rfl : more = rest ++ [name] := by
          rw [List.append_assoc] at heq
          exact (List.append_cancel_left heq).symm
        rw [← List.append_assoc]
        exact hrooted.not_below_file hfile (by simp [hout.1]) (List.cons_ne_nil _ _)
      · intro hparent
        exact (above_apart hout hparent).2 ⟨rest ++ [name], (List.append_assoc _ _ _).symm⟩
    have hdir := (hexact.reachable (dst ++ rest) name (by rw [hsame]; exact hsome)).resolve_left
      (by simp [hdst])
    rw [hlive.file rest source.1 source.2 hfile] at hdir
    cases hdir
  · intro rest hrest hdir source hfile
    have hkept := hexact.kept (dst ++ rest) (by
      intro rest' heq
      obtain rfl := List.append_cancel_left heq
      exact fileAt_of_dir hdir)
    rw [fileAt_of_dir (hlive.dir rest hdir), if_neg] at hkept
    · exact fileAt_eq_none.mp hkept.symm source hfile
    · rintro (hle | ⟨heq', -⟩)
      · exact hapart.not_both hle (List.prefix_append _ _)
      · exact hrest (List.append_right_eq_self.mp heq')

end

/-! ### Writes inside a rename -/

/-- `stage_rename` with a `stage_write` between its two passes. -/
def Inner.renameRacing (inner : Inner) (io : MountIo) (src dst rel : RepoPath) (content : Bytes) :
    Inner :=
  let written := inner.stageWrite rel content
  match inner.filePlan io src dst (inner.renameMovers src).1 with
  | none => written
  | some plan => written.applyMoves plan (inner.dirPlan src dst (inner.renameMovers src).2)

/-- The content of a write is live at its path, or where that path moved to. -/
def WriteKept (io : MountIo) (after : Inner) (src dst rel : RepoPath) (content : Bytes) : Prop :=
  ∃ mode, fileAt io after rel = some (mode, some content) ∨
    ∃ rest, rel = src ++ rest ∧ fileAt io after (dst ++ rest) = some (mode, some content)

/-- A write inside a rename is at no path that moves and at no new place, unless it repeats the
bytes of the file that moves. -/
structure RaceClean (io : MountIo) (inner : Inner) (src dst rel : RepoPath) (content : Bytes) :
    Prop where
  apart : ∀ rest, rest ≠ [] → src = dst ++ rest → inner.live (src ++ rest) = none
  untouched : ∀ rest, (inner.live (src ++ rest)).isSome → rel = src ++ rest ∨ rel = dst ++ rest →
    ∃ mode source, inner.live (src ++ rest) = some (.file (mode, source)) ∧
      io.content (src ++ rest) source = some content

section

variable {io : MountIo} {inner after : Inner} {src dst rel : RepoPath} {content : Bytes}

theorem renameRacing_eq (hrooted : Rooted inner.live) (hsrc : src ≠ [])
    (hread : Readable io inner src) : inner.renameRacing io src dst rel content =
      (inner.stageWrite rel content).applyRename inner io src dst := by
  have hplan : inner.filePlan io src dst (inner.renameMovers src).1 =
      some ((inner.renameMovers src).1.map (inner.fileMove io src dst)) :=
    filePlan_eq_some.mpr ⟨(readable_iff hrooted hsrc).mp hread, rfl⟩
  rw [Inner.renameRacing, hplan]
  rfl

theorem renameRacing_of_unread (hrooted : Rooted inner.live) (hsrc : src ≠ [])
    (hread : ¬Readable io inner src) : inner.renameRacing io src dst rel content =
      inner.stageWrite rel content := by
  cases hplan : inner.filePlan io src dst (inner.renameMovers src).1 with
  | none => rw [Inner.renameRacing, hplan]
  | some plan =>
    exact absurd ((readable_iff hrooted hsrc).mpr (filePlan_eq_some.mp hplan).1) hread

theorem get_stageWrite (inner : Inner) (rel : RepoPath) (content : Bytes) :
    (inner.stageWrite rel content).overlay.get rel =
      some (.file content ((inner.currentMode rel).getD 0o100644)) := by
  rw [Inner.stageWrite, get_stage, if_pos rfl]

theorem fileAt_of_get {path : RepoPath} {mode : UInt32}
    (h : after.overlay.get path = some (.file content mode)) :
    fileAt io after path = some (mode, some content) := by
  rw [fileAt_of_file (by rw [live_of_get h]; rfl)]
  rfl

/-- **A clean write is kept.** -/
theorem kept_of_raceClean (hrooted : Rooted inner.live) (hout : Outside src dst)
    (h : Readable io inner src → RaceClean io inner src dst rel content) :
    WriteKept io (inner.renameRacing io src dst rel content) src dst rel content := by
  by_cases hread : Readable io inner src
  · obtain ⟨hapart, huntouched⟩ := h hread
    have happlied := @applied io inner src dst hrooted hout.1
      (placesFree_of_apart hrooted hout hapart) (inner.stageWrite rel content)
    rw [renameRacing_eq hrooted hout.1 hread]
    have hplace : ∀ rest, (inner.live (src ++ rest)).isSome → rel = src ++ rest ∨ rel = dst ++ rest →
        ∃ mode, fileAt io ((inner.stageWrite rel content).applyRename inner io src dst)
          (dst ++ rest) = some (mode, some content) := by
      intro rest hlive hrel
      obtain ⟨mode, source, hfile, hsame⟩ := huntouched rest hlive hrel
      have hget := happlied.file rest mode source hfile
      rw [hsame] at hget
      exact ⟨mode, fileAt_of_get hget⟩
    by_cases hsource : ∃ rest, rel = src ++ rest ∧ (inner.live rel).isSome
    · obtain ⟨rest, rfl, hlive⟩ := hsource
      obtain ⟨mode, hmoved⟩ := hplace rest hlive (.inl rfl)
      exact ⟨mode, .inr ⟨rest, rfl, hmoved⟩⟩
    by_cases hdest : ∃ rest, rel = dst ++ rest ∧ (inner.live (src ++ rest)).isSome
    · obtain ⟨rest, hrel, hlive⟩ := hdest
      obtain ⟨mode, hmoved⟩ := hplace rest hlive (.inr hrel)
      exact ⟨mode, .inl (hrel ▸ hmoved)⟩
    · have hget := happlied.other rel
        (fun rest heq => by
          by_contra hne
          exact hsource ⟨rest, heq, Option.isSome_iff_ne_none.mpr hne⟩)
        (fun rest heq => by
          by_contra hne
          exact hdest ⟨rest, heq, Option.isSome_iff_ne_none.mpr hne⟩)
      rw [get_stageWrite, Option.some_or] at hget
      exact ⟨_, .inl (fileAt_of_get hget)⟩
  · rw [renameRacing_of_unread hrooted hout.1 hread]
    exact ⟨_, .inl (fileAt_of_get (get_stageWrite inner rel content))⟩

/-- A write that is kept was clean, where the destination is not above the source. -/
theorem raceClean_of_kept (hrooted : Rooted inner.live) (hout : Outside src dst)
    (hbelow : dst <+: src → dst = src) (hread : Readable io inner src)
    (h : WriteKept io (inner.renameRacing io src dst rel content) src dst rel content) :
    RaceClean io inner src dst rel content := by
  have hapart : ∀ rest, rest ≠ [] → src = dst ++ rest → inner.live (src ++ rest) = none := by
    rintro rest hrest rfl
    exact absurd (List.self_eq_append_right.mp (hbelow (List.prefix_append _ _))) hrest
  refine ⟨hapart, fun rest hlive hrel => ?_⟩
  have happlied := @applied io inner src dst hrooted hout.1
    (placesFree_of_apart hrooted hout hapart) (inner.stageWrite rel content)
  rw [renameRacing_eq hrooted hout.1 hread] at h
  generalize (inner.stageWrite rel content).applyRename inner io src dst = after at happlied h
  -- the write is live at the new place of the path it is at or moves to
  have hplace : ∃ mode, fileAt io after (dst ++ rest) = some (mode, some content) := by
    obtain ⟨mode, hat | ⟨rest', rfl, hmoved⟩⟩ := h
    · rcases hrel with rfl | rfl
      · by_cases heq : src = dst
        · exact ⟨mode, heq ▸ hat⟩
        · have hgone := happlied.gone rest hlive fun rest' hrest' => by
            refine absurd ?_ heq
            rcases List.prefix_or_prefix_of_prefix (List.prefix_append src rest)
              ⟨rest', hrest'.symm⟩ with hle | hle
            · exact hout.2 hle
            · exact (hbelow hle).symm
          rw [fileAt_of_none (by rw [live_of_get hgone]; rfl)] at hat
          cases hat
      · exact ⟨mode, hat⟩
    · suffices hsame : rest' = rest by exact ⟨mode, hsame ▸ hmoved⟩
      rcases hrel with hrel | hrel
      · exact List.append_cancel_left hrel
      · have heq : src = dst := by
          rcases List.prefix_or_prefix_of_prefix (List.prefix_append src rest')
            ⟨rest, hrel.symm⟩ with hle | hle
          · exact hout.2 hle
          · exact (hbelow hle).symm
        rw [heq] at hrel
        exact List.append_cancel_left hrel
  obtain ⟨mode, hmode⟩ := hplace
  obtain ⟨node, hnode⟩ := Option.isSome_iff_exists.mp hlive
  cases node with
  | dir =>
    obtain ⟨mode', hget⟩ := happlied.dir rest hnode
    rw [fileAt_of_dir (by rw [live_of_get hget]; rfl)] at hmode
    cases hmode
  | file source =>
    obtain ⟨mode', source⟩ := source
    obtain ⟨bytes, hbytes⟩ := Option.isSome_iff_exists.mp (hread rest mode' source hnode)
    have hget := happlied.file rest mode' source hnode
    rw [hbytes] at hget
    rw [fileAt_of_get hget] at hmode
    cases hmode
    exact ⟨_, source, hnode, hbytes⟩

end

/-! ### Removals -/

section

variable {io : MountIo} {inner : Inner} {path : RepoPath}

/-- A removal is of a path below the root, or the root is a directory, or there is no file. -/
def RemoveClean (inner : Inner) (path : RepoPath) : Prop :=
  path = [] → inner.live [] = some .dir ∨ ∀ q source, q ≠ [] → inner.live q ≠ some (.file source)

theorem remove_exact_iff (hrooted : Rooted inner.live) :
    (∀ q, fileAt io (inner.stageRemove path) q =
      if path <+: q then none else fileAt io inner q) ↔ RemoveClean inner path := by
  by_cases hdir : inner.live path ≠ some .dir → path ≠ []
  · have hlive := live_stageRemove_of hrooted hdir
    refine iff_of_true (fun q => ?_) fun hroot => ?_
    · unfold fileAt
      rw [hlive]
      split_ifs <;> rfl
    · subst hroot
      exact .inl (by_contra fun hnot => hdir hnot rfl)
  · obtain ⟨hnot, rfl⟩ : inner.live path ≠ some .dir ∧ path = [] := by tauto
    have hother : ∀ q, (inner.stageRemove []).live q = if q = [] then none else inner.live q := by
      intro q
      rw [Inner.stageRemove, Inner.renameMovers]
      cases hroot : inner.live [] with
      | none =>
        rw [entryKindOf_none.mpr hroot]
        split_ifs with hq
        · exact hq ▸ hroot
        · rfl
      | some node =>
        cases node with
        | file source =>
          rw [entryKindOf_blob.mpr ⟨source, hroot⟩]
          exact live_stage inner [] .removed q
        | dir => exact absurd hroot hnot
    constructor
    · intro h _
      refine .inr fun q source hq hfile => ?_
      have hnone := h q
      rw [if_pos List.nil_prefix, fileAt, hother, if_neg hq, hfile] at hnone
      cases hnone
    · intro h q
      rw [if_pos List.nil_prefix]
      refine fileAt_eq_none.mpr fun source => ?_
      rw [hother]
      split_ifs with hq
      · simp
      · exact ((h rfl).resolve_left hnot) q source hq

end

/-! ### Every staging -/

/-- A rename, a removal, or a rename with a write between its passes. -/
inductive Staging where
  | rename (src dst : RepoPath)
  | remove (path : RepoPath)
  | race (src dst rel : RepoPath) (content : Bytes)

/-- `stage_rename` with its result: what the overlay is after it, and whether it succeeds. -/
def Inner.renameCall (inner : Inner) (io : MountIo) (src dst : RepoPath) : Bool × Inner :=
  match inner.stageRename io src dst with
  | some after => (true, after)
  | none => (false, inner)

namespace Staging

variable (io : MountIo) (inner : Inner)

def Outside : Staging → Prop
  | .rename src dst => Mount.Outside src dst
  | .remove _ => True
  | .race src dst _ _ => Mount.Outside src dst

/-- The destination is not strictly above the source. -/
def NotAbove : Staging → Prop
  | .rename src dst => dst <+: src → dst = src
  | .remove _ => True
  | .race src dst _ _ => dst <+: src → dst = src

/-- A rename that succeeds is exact and one that fails stages nothing, a removal takes away what is
at its path and below it, and a write inside a rename is kept. -/
def Meets : Staging → Prop
  | .rename src dst =>
      ((inner.renameCall io src dst).1 = true →
        RenameExact io inner src dst (inner.renameCall io src dst).2) ∧
      ((inner.renameCall io src dst).1 = false →
        (inner.renameCall io src dst).2.overlay = inner.overlay)
  | .remove path => ∀ q, fileAt io (inner.stageRemove path) q =
      if path <+: q then none else fileAt io inner q
  | .race src dst rel content =>
      WriteKept io (inner.renameRacing io src dst rel content) src dst rel content

def Clean : Staging → Prop
  | .rename src dst => Readable io inner src → RenameClean inner src dst
  | .remove path => RemoveClean inner path
  | .race src dst rel content =>
      Readable io inner src → RaceClean io inner src dst rel content

variable {io inner}

theorem meets_rename_iff (hrooted : Rooted inner.live) {src dst : RepoPath} (hsrc : src ≠ []) :
    Meets io inner (.rename src dst) ↔ (Readable io inner src →
      RenameExact io inner src dst (inner.applyRename inner io src dst)) := by
  have heq := fun after => @stageRename_eq_some io inner src dst hrooted hsrc after
  rw [Meets, Inner.renameCall]
  cases hcall : inner.stageRename io src dst with
  | none =>
    refine iff_of_true ⟨nofun, fun _ => rfl⟩ fun hread => ?_
    rw [(heq _).mpr ⟨hread, rfl⟩] at hcall
    cases hcall
  | some after =>
    obtain ⟨hread, rfl⟩ := (heq after).mp hcall
    simp [hread]

/-- **What a clean staging leaves is exactly what it should**, from any state that a descent
reaches all of; and only a clean one's is, where no destination is above its source. -/
theorem meets_iff_clean (hrooted : Rooted inner.live) (staging : Staging) (hout : staging.Outside) :
    (staging.Clean io inner → staging.Meets io inner) ∧
      (staging.NotAbove → staging.Meets io inner → staging.Clean io inner) := by
  cases staging with
  | rename src dst =>
    rw [meets_rename_iff hrooted hout.1]
    constructor
    · intro hclean hread
      exact exact_of_clean hrooted hout hread (movedLive hrooted hout.1
        (placesFree_of_apart hrooted hout (hclean hread).apart)) (hclean hread)
    · intro hbelow hmeets hread
      have hfree := placesFree_of_apart hrooted hout (by
        rintro rest hrest rfl
        exact absurd (List.self_eq_append_right.mp (hbelow (List.prefix_append _ _))) hrest)
      exact clean_of_exact hrooted hout hbelow (movedLive hrooted hout.1 hfree) (hmeets hread)
  | remove path =>
    exact ⟨(remove_exact_iff hrooted).mpr, fun _ => (remove_exact_iff hrooted).mp⟩
  | race src dst rel content =>
    exact ⟨kept_of_raceClean hrooted hout, fun hbelow hmeets hread =>
      raceClean_of_kept hrooted hout hbelow hread hmeets⟩

end Staging

/-! ### A page of a directory that is renamed -/

def docsDir : FileName := ⟨"docs", by decide⟩

def pageFile : FileName := ⟨"page.md", by decide⟩

def sharedDir : FileName := ⟨"shared", by decide⟩

def stagedIo : MountIo := ⟨fun _ => none, fun _ _ => none, fun _ => none, fun _ => []⟩

/-- A staged directory with one file. -/
def stagedPage : Inner :=
  ((⟨∅, .new⟩ : Inner).stage [docsDir] (.dir 0o040755)).stage [docsDir, pageFile]
    (.file [1] 0o100644)

theorem live_stagedPage (path : RepoPath) : stagedPage.live path =
    if path = [docsDir, pageFile] then some (.file (0o100644, .overlay [1]))
    else if path = [docsDir] then some .dir else none := by
  rw [stagedPage, live_stage, live_stage]
  rfl

theorem rooted_stagedPage : Rooted stagedPage.live := by
  intro dir name hlive
  rw [live_stagedPage] at hlive
  split_ifs at hlive with hpage hdocs
  · have hpage : dir ++ [name] = [docsDir] ++ [pageFile] := hpage
    obtain ⟨rfl, -⟩ := List.append_inj' hpage rfl
    exact .inr rfl
  · have hdocs : dir ++ [name] = [] ++ [docsDir] := hdocs
    exact .inl (List.append_inj' hdocs rfl).1
  · cases hlive

/-- The directory renamed, and its page written between the two passes. -/
def lostWrite : Staging := .race [docsDir] [sharedDir] [docsDir, pageFile] [2]

namespace Staging

/-- What is written to a file between the passes of the rename that moves it is lost. -/
theorem not_meets_lostWrite : ¬lostWrite.Meets stagedIo stagedPage := by
  intro h
  have hclean := raceClean_of_kept rooted_stagedPage ⟨by simp, by decide⟩ (by decide) (by
    intro rest mode source hlive
    rw [live_stagedPage] at hlive
    split_ifs at hlive
    · cases hlive
      rfl
    · cases hlive) h
  obtain ⟨mode, source, hlive, hcontent⟩ :=
    hclean.untouched [pageFile] (by rw [live_stagedPage]; rfl) (.inl rfl)
  rw [live_stagedPage] at hlive
  cases hlive
  cases hcontent

/-- The directory removed: what is at it and below it is gone, and nothing else is. -/
theorem meets_removed : (Staging.remove [docsDir]).Meets stagedIo stagedPage :=
  (meets_iff_clean rooted_stagedPage (.remove [docsDir]) trivial).1
    fun hroot => absurd hroot (List.cons_ne_nil _ _)

end Staging

end Softfig.Mount
