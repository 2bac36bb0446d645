import Softfig.Doc.MemberGuard
import Softfig.Lib.Except
import Softfig.Mount.Working

/-!
What the worktree operations of a fleet member may do: writes, batches of writes, renames and
removals, each guarded by what is in the tree, and staged in the overlay.

A write compares the old and the new text of one document. A removal looks for a document at or
below a path with something a member may not remove, and a rename is a removal at both of its ends.

- `firstDocWith_eq_none`: a scan that finds nothing has seen every document below its path;
- `write_kept`, `remove_kept`, `rename_kept`: what each operation keeps;
- `member_ops_keep`: what every run of them keeps.
-/

namespace Softfig.Mount

open Softfig.Lib
open Softfig.Doc hiding isFence
open Softfig.LayerB (ascii)
open Softfig.Store (Bytes)
open Softfig.Vcs (FileName Path Component)
open Softfig.Queue (subDocReserved)

/-! ### Paths -/

/-- The names of components; one that is no name but `.` makes the path none. -/
def canonicalNames : List Component → Option RepoPath
  | [] => some []
  | .normal name :: rest => (canonicalNames rest).map (name :: ·)
  | .curDir :: rest => canonicalNames rest
  | _ :: _ => none

/-- `canonical_rel` -/
def canonicalRel (rel : String) : Option RepoPath := canonicalNames (Path.parse rel).components

def fileName? (text : String) : Option FileName :=
  if h : Vcs.isFileName text.toList = true then some ⟨text, h⟩ else none

def backlogDir : RepoPath := [⟨"growlight", by decide⟩, ⟨"backlog", by decide⟩]

def isBacklogRel (rel : RepoPath) : Bool := decide (backlogDir <+: rel)

/-- The garden root or an ancestor of the backlog. -/
def spansBacklog (rel : RepoPath) : Bool := decide (rel <+: backlogDir ∧ rel ≠ backlogDir)

/-- A task document, a `CLAUDE.md` or a slice document of the backlog. -/
def isItemDocPath (rel : RepoPath) : Bool :=
  isBacklogRel rel &&
    match rel.reverse with
    | [] => false
    | name :: above => decide (name.text = "CLAUDE.md") ||
        (".md".toList.isSuffixOf name.text.toList &&
          above.head?.any fun dir => decide (dir.text = "tasks") || decide (dir.text = "slices"))

/-! ### Scans -/

section

variable (io : MountIo) (inner : Inner)

/-- `WorkTree::read` -/
def workRead (rel : RepoPath) : Option Bytes := (readWorkfile io inner rel).join

/-- The text of a document. -/
def docAt (rel : RepoPath) : Option Text := (workRead io inner rel).map io.fromUtf8Lossy

/-- The paths of the entries of a directory. The path of an entry of the root starts with a slash,
and is refused. -/
def childPaths (dir : RepoPath) : List RepoPath :=
  if dir = [] then []
  else ((readDirEntries inner dir).filterMap fun e => fileName? e.1).map (dir ++ [·])

/-- `first_doc_with`, that many levels deep. -/
def firstDocWith (pred : Text → Bool) : Nat → RepoPath → Option (RepoPath × Text)
  | 0, _ => none
  | fuel + 1, rel =>
    if inner.entryKindOf rel = some .dir then
      (childPaths inner rel).findSome? (firstDocWith pred fuel)
    else
      (docAt io inner rel).bind fun text => if pred text then some (rel, text) else none

def firstReservedDoc (rel : RepoPath) : Option (RepoPath × Text) :=
  firstDocWith io inner (fun text => (reservedField text subDocReserved).isSome) (inner.depth + 1)
    rel

def firstFleetDoc (rel : RepoPath) : Option (RepoPath × Text) :=
  firstDocWith io inner held (inner.depth + 1) rel

/-- The files below a directory, as paths from the one that is renamed. -/
def landingRests (src : RepoPath) : Nat → RepoPath → List RepoPath
  | 0, _ => []
  | fuel + 1, rest =>
    if src = [] ∧ rest ≠ [] then []
    else (readDirEntries inner (src ++ rest)).flatMap fun e =>
      match fileName? e.1 with
      | none => []
      | some name =>
        if e.2 then landingRests src fuel (rest ++ [name]) else [rest ++ [name]]

/-- `landings`: where the files of a rename land. -/
def landings (src dst : RepoPath) : List RepoPath :=
  if inner.entryKindOf src = some .dir then
    (landingRests inner src (inner.depth + 1) []).map (dst ++ ·)
  else [dst]

/-! ### The guards of a member -/

/-- `guard_member_change`, for bytes of the caller. -/
def guardMemberChange (rel : RepoPath) (old new : Option Text) : Option MemberRefusal :=
  (memberRegionRefusal old new).or <|
    if !isBacklogRel rel then none
    else (memberVaultRefusal rel.text old new).or <| (memberReservedRefusal old new).or <|
      (memberFleetRefusal old new).or <|
        if old.isNone && new.isSome && isItemDocPath rel then some .itemDoc else none

/-- What of the backlog a removal removes. -/
def removalScope (rel : RepoPath) : Option RepoPath :=
  if spansBacklog rel then some backlogDir else if isBacklogRel rel then some rel else none

def guardMemberRemoval (rel : RepoPath) : Option MemberRefusal :=
  (removalScope rel).bind fun scope =>
    ((firstReservedDoc io inner scope).bind fun found =>
      memberReservedRefusal (some found.2) none).or <|
    ((firstFleetDoc io inner scope).bind fun found => memberFleetRefusal (some found.2) none).or <|
    (firstDocWith io inner (fun text => decide (regions text ≠ [])) (inner.depth + 1) scope).bind
      fun found => memberRegionRefusal (some found.2) none

def guardMemberRename (src dst : RepoPath) : Option MemberRefusal :=
  (guardMemberRemoval io inner src).or <|
    (if isBacklogRel dst || spansBacklog dst then
      (firstReservedDoc io inner src).bind fun found => memberReservedRefusal none (some found.2)
    else none).or <|
    (if (landings inner src dst).any isItemDocPath then some .itemDoc else none).or <|
    guardMemberRemoval io inner dst

end

/-! ### The operations -/

inductive WorkRefusal where
  | notGardenRelative (rel : String)
  | sharedChainUnkeyed
  | member (refusal : MemberRefusal)
  | stageRename
  deriving DecidableEq

/-- A worktree operation on behalf of a fleet member. -/
inductive MemberOp where
  | write (rel : String) (bytes : Bytes)
  | rename (src dst : String)
  | remove (rel : String)
  | batch (writes : List (String × Bytes))

section

variable (io : MountIo) (s : MountState)

def canonicalOrRefuse (rel : String) : Except WorkRefusal RepoPath :=
  match canonicalRel rel with
  | some path => .ok path
  | none => .error (.notGardenRelative rel)

def checkWrite (path : RepoPath) : Except WorkRefusal Unit :=
  if unkeyedSharedOwner s path then .error .sharedChainUnkeyed else .ok ()

def guardResult : Option MemberRefusal → Except WorkRefusal Unit
  | none => .ok ()
  | some refusal => .error (.member refusal)

/-- `check_write_bytes_over`: a write against a known prior content. -/
def checkWriteBytesOver (rel : String) (old : Option Bytes) (bytes : Bytes) :
    Except WorkRefusal Unit := do
  let path ← canonicalOrRefuse rel
  checkWrite s path
  guardResult (guardMemberChange path (old.map io.fromUtf8Lossy) (some (io.fromUtf8Lossy bytes)))

def write (rel : String) (bytes : Bytes) : Except WorkRefusal MountState := do
  let path ← canonicalOrRefuse rel
  checkWrite s path
  guardResult (guardMemberChange path (docAt io s.inner path) (some (io.fromUtf8Lossy bytes)))
  return { s with inner := s.inner.stageWrite path bytes }

def rename (src dst : String) : Except WorkRefusal MountState := do
  let source ← canonicalOrRefuse src
  let target ← canonicalOrRefuse dst
  checkWrite s target
  guardResult (guardMemberRename io s.inner source target)
  match s.inner.stageRename io source target with
  | none => .error .stageRename
  | some inner => .ok { s with inner := inner }

def remove (rel : String) : Except WorkRefusal MountState := do
  let path ← canonicalOrRefuse rel
  guardResult (guardMemberRemoval io s.inner path)
  return { s with inner := s.inner.stageRemove path }

/-- The checks of a batch, each over what the ones before it would write. -/
def checkBatch : List (String × Bytes) → List (String × Bytes) → Except WorkRefusal Unit
  | _, [] => .ok ()
  | guarded, (rel, bytes) :: rest => do
    let old := (guarded.lookup rel).or ((canonicalRel rel).bind (workRead io s.inner))
    checkWriteBytesOver io s rel old bytes
    checkBatch ((rel, bytes) :: guarded) rest

end

section

variable (io : MountIo)

def writeAll : MountState → List (String × Bytes) → Except WorkRefusal MountState
  | s, [] => .ok s
  | s, (rel, bytes) :: rest => do
    let next ← write io s rel bytes
    writeAll next rest

def memberAct (s : MountState) : MemberOp → Except WorkRefusal MountState
  | .write rel bytes => write io s rel bytes
  | .rename src dst => rename io s src dst
  | .remove rel => remove io s rel
  | .batch writes => do
    checkBatch io s [] writes
    writeAll io s writes

/-- The accepted operations of members, from any tidy working tree. -/
def memberSystem : System MountState MemberOp where
  init s := Tidy s
  step s op s' := memberAct io s op = .ok s'

end

/-! ### What a scan sees -/

section

variable {io : MountIo} {inner : Inner}

theorem fileName?_text (name : FileName) : fileName? name.text = some name := by
  rw [fileName?, dif_pos name.valid]

theorem mem_childPaths {dir : RepoPath} (hdir : dir ≠ []) {path : RepoPath} :
    path ∈ childPaths inner dir ↔
      ∃ name, path = dir ++ [name] ∧ (inner.live (dir ++ [name])).isSome := by
  rw [childPaths, if_neg hdir]
  simp only [List.mem_map, List.mem_filterMap]
  constructor
  · rintro ⟨name, ⟨⟨text, isDir⟩, hmem, hname⟩, rfl⟩
    obtain ⟨found, node, hlive, htext, -⟩ := mem_readDirEntries.mp hmem
    rw [← htext, fileName?_text] at hname
    cases hname
    exact ⟨name, rfl, by rw [hlive]; rfl⟩
  · rintro ⟨name, rfl, hsome⟩
    obtain ⟨node, hlive⟩ := Option.isSome_iff_exists.mp hsome
    exact ⟨name, ⟨⟨name.text, node.isDir⟩, mem_readDirEntries.mpr ⟨name, node, hlive, rfl, rfl⟩,
      fileName?_text name⟩, rfl⟩

/-- A document is a live file. -/
theorem live_of_docAt {path : RepoPath} {text : Text} (h : docAt io inner path = some text) :
    ∃ source, inner.live path = some (.file source) := by
  obtain ⟨bytes, hread, -⟩ := Option.map_eq_some_iff.mp h
  have hread : readWorkfile io inner path = some (some bytes) := Option.join_eq_some_iff.mp hread
  unfold readWorkfile at hread
  split at hread
  · rename_i source hlive
    exact ⟨source, hlive⟩
  · cases hread

/-- A document is read through what is live. -/
theorem docAt_congr {inner' : Inner} {path path' : RepoPath} (hpath : path = path')
    (h : inner'.live path = inner.live path') : docAt io inner' path = docAt io inner path' := by
  subst hpath
  rw [docAt, docAt, workRead, workRead, readWorkfile, readWorkfile, h]

theorem docAt_none {path : RepoPath} (h : ∀ source, inner.live path ≠ some (.file source)) :
    docAt io inner path = none := by
  cases hdoc : docAt io inner path with
  | none => rfl
  | some text =>
    obtain ⟨source, hlive⟩ := live_of_docAt hdoc
    exact absurd hlive (h source)

/-- **A scan that finds nothing has seen every document** at its path and below it. -/
theorem firstDocWith_eq_none (hrooted : Rooted inner.live) {pred : Text → Bool} {fuel : Nat}
    {rel : RepoPath} (hrel : rel ≠ []) (h : firstDocWith io inner pred fuel rel = none)
    {rest : RepoPath} (hfuel : rest.length < fuel) {text : Text}
    (hdoc : docAt io inner (rel ++ rest) = some text) : pred text = false := by
  induction fuel generalizing rel rest with
  | zero => exact absurd hfuel (Nat.not_lt_zero _)
  | succ fuel ih =>
    obtain ⟨source, hlive⟩ := live_of_docAt hdoc
    rw [firstDocWith] at h
    cases rest with
    | nil =>
      rw [List.append_nil] at hdoc hlive
      have hkind : inner.entryKindOf rel ≠ some .dir := by
        rw [Ne, entryKindOf_dir, hlive]
        nofun
      rw [if_neg hkind, hdoc, Option.bind_some] at h
      split_ifs at h with hpred
      exact Bool.eq_false_iff.mpr hpred
    | cons name rest =>
      have hdir : inner.live rel = some .dir :=
        (hrooted.dir_of_append (List.cons_ne_nil _ _) (by rw [hlive]; rfl)).resolve_left hrel
      rw [if_pos (entryKindOf_dir.mpr hdir), List.findSome?_eq_none_iff] at h
      have happend : rel ++ name :: rest = (rel ++ [name]) ++ rest := by simp
      have hchild : (inner.live (rel ++ [name])).isSome := by
        cases rest with
        | nil => rw [hlive]; rfl
        | cons next rest =>
          rw [happend] at hlive
          have hname := (hrooted.dir_of_append (List.cons_ne_nil _ _)
            (by rw [hlive]; rfl)).resolve_left (by simp)
          rw [hname]
          rfl
      rw [happend] at hdoc
      refine ih (by simp) (h _ ((mem_childPaths hrel).mpr ⟨name, rfl, hchild⟩)) ?_ hdoc
      rw [List.length_cons] at hfuel
      omega

/-- Every file of a rename is one of its landings. -/
theorem mem_landingRests (hrooted : Rooted inner.live) {src : RepoPath} (hsrc : src ≠ [])
    {fuel : Nat} {rest more : RepoPath} {source : UInt32 × ContentSource} (hmore : more ≠ [])
    (hfile : inner.live (src ++ rest ++ more) = some (.file source)) (hfuel : more.length ≤ fuel) :
    rest ++ more ∈ landingRests inner src fuel rest := by
  induction fuel generalizing rest more with
  | zero =>
    have hnil := List.length_eq_zero_iff.mp (Nat.le_zero.mp hfuel)
    exact absurd hnil hmore
  | succ fuel ih =>
    obtain ⟨name, more, rfl⟩ := List.exists_cons_of_ne_nil hmore
    rw [landingRests, if_neg (fun hnil => hsrc hnil.1), List.mem_flatMap]
    have happend : src ++ rest ++ name :: more = src ++ rest ++ [name] ++ more := by simp
    by_cases hlast : more = []
    · subst hlast
      have hentry := mem_readDirEntries.mpr ⟨name, _, hfile, rfl, rfl⟩
      refine ⟨_, hentry, ?_⟩
      dsimp only
      rw [fileName?_text]
      exact List.mem_singleton_self _
    · rw [happend] at hfile
      have hdir := (hrooted.dir_of_append hlast (by rw [hfile]; rfl)).resolve_left (by simp)
      have hentry := mem_readDirEntries.mpr ⟨name, _, hdir, rfl, rfl⟩
      refine ⟨_, hentry, ?_⟩
      dsimp only
      rw [fileName?_text]
      have hlength : more.length ≤ fuel := by
        rw [List.length_cons] at hfuel
        omega
      have hrest := @ih (rest ++ [name]) more hlast (by simpa using hfile) hlength
      simpa [Live.isDir] using hrest

/-! ### What the guards find -/

theorem scan_eq_none (hrooted : Rooted inner.live) {pred : Text → Bool} {rel path : RepoPath}
    (hrel : rel ≠ []) (h : firstDocWith io inner pred (inner.depth + 1) rel = none)
    (hpath : rel <+: path) {text : Text} (hdoc : docAt io inner path = some text) :
    pred text = false := by
  obtain ⟨rest, rfl⟩ := hpath
  obtain ⟨source, hlive⟩ := live_of_docAt hdoc
  have hdepth := length_le_depth (show (inner.live (rel ++ rest)).isSome by rw [hlive]; rfl)
  rw [List.length_append] at hdepth
  exact firstDocWith_eq_none hrooted hrel h (by omega) hdoc

theorem backlogDir_ne_nil : backlogDir ≠ [] := by simp [backlogDir]

/-- A document of the backlog at or below a path is in the scope of its removal. -/
theorem removalScope_of_prefix {rel path : RepoPath} (hrel : rel ≠ []) (hpath : rel <+: path)
    (hbacklog : isBacklogRel path = true) :
    ∃ scope, removalScope rel = some scope ∧ scope ≠ [] ∧ scope <+: path := by
  have hbelow : backlogDir <+: path := of_decide_eq_true hbacklog
  rw [removalScope]
  by_cases hspans : spansBacklog rel = true
  · exact ⟨backlogDir, if_pos hspans, backlogDir_ne_nil, hbelow⟩
  · refine ⟨rel, ?_, hrel, hpath⟩
    have hin : isBacklogRel rel = true := by
      refine decide_eq_true ?_
      rcases List.prefix_or_prefix_of_prefix hpath hbelow with hle | hle
      · by_cases heq : rel = backlogDir
        · exact heq ▸ List.prefix_rfl
        · exact absurd (decide_eq_true ⟨hle, heq⟩) hspans
      · exact hle
    rw [if_neg hspans, if_pos hin]

theorem firstDocWith_spec {pred : Text → Bool} {fuel : Nat} {rel : RepoPath}
    {found : RepoPath × Text} (h : firstDocWith io inner pred fuel rel = some found) :
    pred found.2 = true := by
  induction fuel generalizing rel with
  | zero => cases h
  | succ fuel ih =>
    rw [firstDocWith] at h
    split_ifs at h
    · obtain ⟨child, -, hchild⟩ := List.exists_of_findSome?_eq_some h
      exact ih hchild
    · obtain ⟨text, -, htext⟩ := Option.bind_eq_some_iff.mp h
      split_ifs at htext with hpred
      cases htext
      exact hpred

/-- A removal that passes its guard removes no document with a reserved line, a hold or a managed
region. -/
theorem passes_removal (hrooted : Rooted inner.live) {rel : RepoPath} (hrel : rel ≠ [])
    (h : guardMemberRemoval io inner rel = none) {path : RepoPath} (hpath : rel <+: path)
    (hbacklog : isBacklogRel path = true) {text : Text} (hdoc : docAt io inner path = some text) :
    regions text = [] ∧ reservedField text subDocReserved = none ∧ held text = false := by
  obtain ⟨scope, hscope, hne, hbelow⟩ := removalScope_of_prefix hrel hpath hbacklog
  rw [guardMemberRemoval, hscope, Option.bind_some] at h
  obtain ⟨hreserved, h⟩ := Option.or_eq_none_iff.mp h
  obtain ⟨hfleet, hregion⟩ := Option.or_eq_none_iff.mp h
  refine ⟨?_, ?_, ?_⟩
  · have hnone : firstDocWith io inner (fun text => decide (regions text ≠ [])) (inner.depth + 1)
        scope = none := by
      rw [Option.bind_eq_none_iff] at hregion
      refine Option.eq_none_iff_forall_ne_some.mpr fun found hfound => ?_
      have hpass := hregion found hfound
      rw [memberRegionRefusal_eq_none] at hpass
      exact of_decide_eq_true (firstDocWith_spec hfound) hpass
    exact not_not.mp (of_decide_eq_false (scan_eq_none hrooted hne hnone hbelow hdoc))
  · have hnone : firstReservedDoc io inner scope = none := by
      rw [Option.bind_eq_none_iff] at hreserved
      refine Option.eq_none_iff_forall_ne_some.mpr fun found hfound => ?_
      have hpass := hreserved found hfound
      have hlines : reservedField found.2 subDocReserved = none := reservedField_eq_none.mpr
        fun key hkey => (memberReservedRefusal_eq_none.mp hpass key hkey).1
      have hsome := firstDocWith_spec hfound
      rw [hlines] at hsome
      cases hsome
    exact Option.not_isSome_iff_eq_none.mp
      (Bool.eq_false_iff.mp (scan_eq_none hrooted hne hnone hbelow hdoc))
  · have hnone : firstFleetDoc io inner scope = none := by
      rw [Option.bind_eq_none_iff] at hfleet
      refine Option.eq_none_iff_forall_ne_some.mpr fun found hfound => ?_
      have hpass := memberFleetRefusal_eq_none.mp (hfleet found hfound) (firstDocWith_spec hfound)
      cases hpass
    exact scan_eq_none hrooted hne hnone hbelow hdoc

end

/-! ### What members keep -/

def IsFile (inner : Inner) (path : RepoPath) : Prop :=
  ∃ source, inner.live path = some (.file source)

/-- What the operations of members keep of the backlog: every document that has something a member
may not change stays with it, a held one stays held, and no item document is new. -/
structure BacklogKept (io : MountIo) (start now : Inner) : Prop where
  kept : ∀ path text, isBacklogRel path = true → docAt io start path = some text →
    Carries path.text text → ∃ text', docAt io now path = some text' ∧
      DocKept path.text text text'
  held : ∀ path text, isBacklogRel path = true → docAt io start path = some text →
    held text = true → ∃ text', docAt io now path = some text' ∧ held text' = true
  created : ∀ path, isItemDocPath path = true → IsFile now path → IsFile start path

/-- No ancestor of a path is a file. -/
def NoFileAbove (inner : Inner) (path : RepoPath) : Prop :=
  ∀ dir ∈ RepoPath.parents path, ∀ source, inner.live dir ≠ some (.file source)

/-- No document of the backlog at or below a path has an inline vault region. -/
def NoVaultBelow (io : MountIo) (inner : Inner) (path : RepoPath) : Prop :=
  ∀ (doc : RepoPath) (text : Text), path <+: doc → isBacklogRel doc = true →
    docAt io inner doc = some text → vaultRegions text doc.text = []

/-- A write lands on a file, or in a directory. -/
structure WriteSound (s : MountState) (path : RepoPath) : Prop where
  writable : Writable s path
  above : NoFileAbove s.inner path

/-- A rename keeps the tree a tree, and neither moves nor replaces a vault region. -/
structure RenameSound (io : MountIo) (s : MountState) (src dst : RepoPath) : Prop where
  ok : RenameOk s.inner (enabledMountRoots s.registry) src dst
  above : NoFileAbove s.inner dst
  source : NoVaultBelow io s.inner src
  target : NoVaultBelow io s.inner dst

/-- A removal is not of the garden root, and removes no vault region. -/
structure RemoveSound (io : MountIo) (s : MountState) (path : RepoPath) : Prop where
  ne_nil : path ≠ []
  vault : NoVaultBelow io s.inner path

def WritesSound (io : MountIo) : MountState → List (String × Bytes) → Prop
  | _, [] => True
  | s, (rel, bytes) :: rest =>
    (∀ path, canonicalRel rel = some path → WriteSound s path) ∧
      ∀ next, write io s rel bytes = .ok next → WritesSound io next rest

/-- What an operation must meet. -/
def MemberOp.Sound (io : MountIo) (s : MountState) : MemberOp → Prop
  | .write rel _ => ∀ path, canonicalRel rel = some path → WriteSound s path
  | .rename src dst => ∀ source target, canonicalRel src = some source →
      canonicalRel dst = some target → RenameSound io s source target
  | .remove rel => ∀ path, canonicalRel rel = some path → RemoveSound io s path
  | .batch writes => WritesSound io s writes

section

variable {io : MountIo} {s s' : MountState}

theorem BacklogKept.refl (inner : Inner) : BacklogKept io inner inner where
  kept _ text _ hdoc _ := ⟨text, hdoc, .refl _ _⟩
  held _ text _ hdoc hheld := ⟨text, hdoc, hheld⟩
  created _ _ h := h

theorem BacklogKept.trans {start mid now : Inner} (h : BacklogKept io start mid)
    (h' : BacklogKept io mid now) : BacklogKept io start now where
  kept := by
    intro path text hbacklog hdoc hcarries
    obtain ⟨text', hdoc', hkept⟩ := h.kept path text hbacklog hdoc hcarries
    obtain ⟨text'', hdoc'', hkept'⟩ := h'.kept path text' hbacklog hdoc' (hkept.carries hcarries)
    exact ⟨text'', hdoc'', hkept.trans hkept'⟩
  held := by
    intro path text hbacklog hdoc hheld
    obtain ⟨text', hdoc', hheld'⟩ := h.held path text hbacklog hdoc hheld
    exact h'.held path text' hbacklog hdoc' hheld'
  created path hitem hfile := h.created path hitem (h'.created path hitem hfile)

/-- What stays of every document is enough to keep the held ones. -/
theorem BacklogKept.of_kept {start now : Inner}
    (hkept : ∀ path text, isBacklogRel path = true → docAt io start path = some text →
      Carries path.text text → ∃ text', docAt io now path = some text' ∧
        DocKept path.text text text')
    (hcreated : ∀ path, isItemDocPath path = true → IsFile now path → IsFile start path) :
    BacklogKept io start now where
  kept := hkept
  held := by
    intro path text hbacklog hdoc hheld
    obtain ⟨text', hdoc', hstays⟩ :=
      hkept path text hbacklog hdoc (Or.inr (Or.inr (Or.inr hheld)))
    exact ⟨text', hdoc', hstays.held hheld⟩
  created := hcreated

/-- A document that a removal may remove has nothing that must stay. -/
theorem not_carries (hrooted : Rooted s.inner.live) {rel : RepoPath} (hrel : rel ≠ [])
    (hguard : guardMemberRemoval io s.inner rel = none) (hvault : NoVaultBelow io s.inner rel)
    {path : RepoPath} (hpath : rel <+: path) (hbacklog : isBacklogRel path = true) {text : Text}
    (hdoc : docAt io s.inner path = some text) : ¬ Carries path.text text := by
  obtain ⟨hregions, hreserved, hheld⟩ := passes_removal hrooted hrel hguard hpath hbacklog hdoc
  rintro (h | h | h | h)
  · exact h hregions
  · exact h (hvault path text hpath hbacklog hdoc)
  · exact h hreserved
  · rw [hheld] at h
    cases h

theorem guardResult_eq_ok {refusal : Option MemberRefusal} :
    guardResult refusal = .ok () ↔ refusal = none := by
  cases refusal <;> simp [guardResult]

theorem canonicalOrRefuse_eq_ok {rel : String} {path : RepoPath} :
    canonicalOrRefuse rel = .ok path ↔ canonicalRel rel = some path := by
  unfold canonicalOrRefuse
  cases canonicalRel rel <;> simp

/-- An accepted write passed the guards, and is staged. -/
theorem write_eq_ok {rel : String} {bytes : Bytes} (h : write io s rel bytes = .ok s') :
    ∃ path, canonicalRel rel = some path ∧
      guardMemberChange path (docAt io s.inner path) (some (io.fromUtf8Lossy bytes)) = none ∧
      s' = { s with inner := s.inner.stageWrite path bytes } := by
  obtain ⟨path, hpath, h⟩ := bind_ok_iff.mp h
  obtain ⟨-, -, h⟩ := bind_ok_iff.mp h
  obtain ⟨⟨⟩, hguard, h⟩ := bind_ok_iff.mp h
  cases h
  exact ⟨path, canonicalOrRefuse_eq_ok.mp hpath, guardResult_eq_ok.mp hguard, rfl⟩

theorem remove_eq_ok {rel : String} (h : remove io s rel = .ok s') :
    ∃ path, canonicalRel rel = some path ∧ guardMemberRemoval io s.inner path = none ∧
      s' = { s with inner := s.inner.stageRemove path } := by
  obtain ⟨path, hpath, h⟩ := bind_ok_iff.mp h
  obtain ⟨⟨⟩, hguard, h⟩ := bind_ok_iff.mp h
  cases h
  exact ⟨path, canonicalOrRefuse_eq_ok.mp hpath, guardResult_eq_ok.mp hguard, rfl⟩

theorem rename_eq_ok {src dst : String} (h : rename io s src dst = .ok s') :
    ∃ source target inner', canonicalRel src = some source ∧ canonicalRel dst = some target ∧
      guardMemberRename io s.inner source target = none ∧
      s.inner.stageRename io source target = some inner' ∧ s' = { s with inner := inner' } := by
  obtain ⟨source, hsource, h⟩ := bind_ok_iff.mp h
  obtain ⟨target, htarget, h⟩ := bind_ok_iff.mp h
  obtain ⟨-, -, h⟩ := bind_ok_iff.mp h
  obtain ⟨⟨⟩, hguard, h⟩ := bind_ok_iff.mp h
  split at h
  · cases h
  · rename_i inner' hrename
    cases h
    exact ⟨source, target, inner', canonicalOrRefuse_eq_ok.mp hsource,
      canonicalOrRefuse_eq_ok.mp htarget, guardResult_eq_ok.mp hguard, hrename, rfl⟩

/-- What a write leaves live. -/
theorem live_stageWrite {rel : RepoPath} (hok : Writable s rel) (bytes : Bytes) (q : RepoPath) :
    (s.inner.stageWrite rel bytes).live q =
      if q = rel then some (.file ((s.inner.currentMode rel).getD 0o100644, .overlay bytes))
      else if q ∈ RepoPath.parents rel then some .dir else s.inner.live q := by
  rw [Inner.stageWrite, live_stage, live_ensureOverlayDirs hok.free]
  rfl

theorem docAt_stageWrite {rel : RepoPath} (hsound : WriteSound s rel) (bytes : Bytes)
    (q : RepoPath) : docAt io (s.inner.stageWrite rel bytes) q =
      if q = rel then some (io.fromUtf8Lossy bytes) else docAt io s.inner q := by
  have hlive := live_stageWrite hsound.writable bytes q
  by_cases hself : q = rel
  · rw [if_pos hself] at hlive ⊢
    rw [docAt, workRead, readWorkfile, hlive]
    rfl
  · rw [if_neg hself] at hlive ⊢
    by_cases habove : q ∈ RepoPath.parents rel
    · rw [if_pos habove] at hlive
      rw [docAt_none (hsound.above q habove), docAt_none (by simp [hlive])]
    · rw [if_neg habove] at hlive
      exact docAt_congr rfl hlive

/-- **An accepted write keeps the backlog.** -/
theorem write_kept {rel : String} {bytes : Bytes} (h : write io s rel bytes = .ok s')
    (hsound : ∀ path, canonicalRel rel = some path → WriteSound s path) :
    BacklogKept io s.inner s'.inner := by
  obtain ⟨path, hpath, hguard, rfl⟩ := write_eq_ok h
  have hsound := hsound path hpath
  obtain ⟨hregion, hrest⟩ := Option.or_eq_none_iff.mp hguard
  refine .of_kept ?_ ?_
  · intro q text hbacklog hdoc _
    dsimp only
    rw [docAt_stageWrite hsound]
    by_cases hself : q = path
    · subst hself
      rw [hbacklog, Bool.not_true, if_neg Bool.false_ne_true] at hrest
      obtain ⟨hvault, hrest⟩ := Option.or_eq_none_iff.mp hrest
      obtain ⟨hreserved, hrest⟩ := Option.or_eq_none_iff.mp hrest
      obtain ⟨hfleet, -⟩ := Option.or_eq_none_iff.mp hrest
      rw [hdoc] at hregion hvault hreserved hfleet
      exact ⟨_, if_pos rfl, docKept_of_passes hregion hvault hreserved hfleet⟩
    · exact ⟨text, (if_neg hself).trans hdoc, .refl _ _⟩
  · rintro q hitem ⟨source, hlive⟩
    dsimp only at hlive
    rw [live_stageWrite hsound.writable] at hlive
    split_ifs at hlive with hself
    · subst hself
      have hbacklog : isBacklogRel q = true := (Bool.and_eq_true _ _ ▸ hitem : _ ∧ _).1
      rw [hbacklog, Bool.not_true, if_neg Bool.false_ne_true] at hrest
      obtain ⟨-, hrest⟩ := Option.or_eq_none_iff.mp hrest
      obtain ⟨-, hrest⟩ := Option.or_eq_none_iff.mp hrest
      obtain ⟨-, hitemless⟩ := Option.or_eq_none_iff.mp hrest
      cases hdoc : docAt io s.inner q with
      | some text => exact live_of_docAt hdoc
      | none => simp [hdoc, hitem] at hitemless
    · cases hlive
    · exact ⟨source, hlive⟩

/-- **An accepted removal keeps the backlog**, if no vault region is removed. -/
theorem remove_kept (htidy : Tidy s) {rel : String} (h : remove io s rel = .ok s')
    (hsound : ∀ path, canonicalRel rel = some path → RemoveSound io s path) :
    BacklogKept io s.inner s'.inner := by
  obtain ⟨path, hpath, hguard, rfl⟩ := remove_eq_ok h
  obtain ⟨hne, hvault⟩ := hsound path hpath
  have hlive := live_stageRemove htidy.rooted hne
  refine .of_kept ?_ ?_
  · intro q text hbacklog hdoc hcarries
    by_cases hbelow : path <+: q
    · exact absurd hcarries (not_carries htidy.rooted hne hguard hvault hbelow hbacklog hdoc)
    · refine ⟨text, ?_, .refl _ _⟩
      rw [← hdoc]
      exact docAt_congr rfl ((hlive q).trans (if_neg hbelow))
  · rintro q - ⟨source, hfile⟩
    dsimp only at hfile
    rw [hlive] at hfile
    split_ifs at hfile
    exact ⟨source, hfile⟩

/-- **An accepted rename keeps the backlog**, if no vault region is moved or replaced. -/
theorem rename_kept (htidy : Tidy s) {src dst : String} (h : rename io s src dst = .ok s')
    (hsound : ∀ source target, canonicalRel src = some source → canonicalRel dst = some target →
      RenameSound io s source target) : BacklogKept io s.inner s'.inner := by
  obtain ⟨source, target, inner', hsource, htarget, hguard, hrename, rfl⟩ := rename_eq_ok h
  obtain ⟨hok, habove, hvaultSrc, hvaultDst⟩ := hsound source target hsource htarget
  have hmoved := renamed hrename htidy.rooted hok.apart hok.free
  obtain ⟨hremoval, hguard⟩ := Option.or_eq_none_iff.mp hguard
  obtain ⟨-, hguard⟩ := Option.or_eq_none_iff.mp hguard
  obtain ⟨hlandings, hreplaced⟩ := Option.or_eq_none_iff.mp hguard
  have hsrc : source ≠ [] := by
    rintro rfl
    exact hok.apart.1 List.nil_prefix
  have hdst : target ≠ [] := by
    rintro rfl
    exact hok.apart.2 List.nil_prefix
  -- away from both ends the same is live, but for directories above the new place
  have hother : ∀ q, ¬ source <+: q → ¬ target <+: q → inner'.live q = s.inner.live q ∨
      q ∈ RepoPath.parents target ∧ inner'.live q = some .dir := by
    intro q hnotSrc hnotDst
    by_cases hparent : q ∈ RepoPath.parents target ∧ FileMoves s.inner source
    · exact Or.inr ⟨hparent.1, hmoved.above hparent.2 q hparent.1⟩
    · exact Or.inl (hmoved.other q hnotSrc hnotDst (by tauto))
  refine .of_kept ?_ ?_
  · intro q text hbacklog hdoc hcarries
    by_cases hbelowSrc : source <+: q
    · exact absurd hcarries
        (not_carries htidy.rooted hsrc hremoval hvaultSrc hbelowSrc hbacklog hdoc)
    by_cases hbelowDst : target <+: q
    · exact absurd hcarries
        (not_carries htidy.rooted hdst hreplaced hvaultDst hbelowDst hbacklog hdoc)
    refine ⟨text, ?_, .refl _ _⟩
    rcases hother q hbelowSrc hbelowDst with hsame | ⟨hparent, -⟩
    · rw [← hdoc]
      exact docAt_congr rfl hsame
    · obtain ⟨found, hfile⟩ := live_of_docAt hdoc
      exact absurd hfile (habove q hparent found)
  · rintro q hitem ⟨found, hfile⟩
    dsimp only at hfile
    by_cases hbelowSrc : source <+: q
    · obtain ⟨rest, rfl⟩ := hbelowSrc
      rw [hmoved.source rest] at hfile
      cases hfile
    by_cases hbelowDst : target <+: q
    · obtain ⟨rest, rfl⟩ := hbelowDst
      cases hnode : s.inner.live (source ++ rest) with
      | none =>
        rw [hmoved.still rest hnode] at hfile
        exact ⟨found, hfile⟩
      | some node =>
        cases node with
        | dir =>
          rw [hmoved.dir rest hnode] at hfile
          cases hfile
        | file moved =>
          -- a file that moves is one of the landings
          have hland : target ++ rest ∈ landings s.inner source target := by
            unfold landings
            by_cases hrest : rest = []
            · subst hrest
              rw [List.append_nil] at hnode
              have hkind : s.inner.entryKindOf source ≠ some .dir := by
                rw [Ne, entryKindOf_dir, hnode]
                nofun
              rw [if_neg hkind, List.append_nil]
              exact List.mem_singleton_self _
            · have hdir := (htidy.rooted.dir_of_append hrest (by rw [hnode]; rfl)).resolve_left hsrc
              have hdepth := length_le_depth (show (s.inner.live (source ++ rest)).isSome by
                rw [hnode]
                rfl)
              rw [List.length_append] at hdepth
              have hfile : s.inner.live (source ++ [] ++ rest) = some (.file moved) := by
                rw [List.append_nil, hnode]
              rw [if_pos (entryKindOf_dir.mpr hdir)]
              refine List.mem_map_of_mem ?_
              have hfuel : rest.length ≤ s.inner.depth + 1 := by omega
              exact mem_landingRests htidy.rooted hsrc hrest hfile hfuel
          have hany : (landings s.inner source target).any isItemDocPath = true :=
            List.any_eq_true.mpr ⟨_, hland, hitem⟩
          rw [if_pos hany] at hlandings
          cases hlandings
    · rcases hother q hbelowSrc hbelowDst with hsame | ⟨-, hdir⟩
      · rw [hsame] at hfile
        exact ⟨found, hfile⟩
      · rw [hdir] at hfile
        cases hfile

theorem Tidy.write (htidy : Tidy s) {rel : String} {bytes : Bytes}
    (h : write io s rel bytes = .ok s')
    (hsound : ∀ path, canonicalRel rel = some path → WriteSound s path) : Tidy s' := by
  obtain ⟨path, hpath, -, rfl⟩ := write_eq_ok h
  exact htidy.stageWrite bytes (hsound path hpath).writable

/-- The writes of a batch keep the backlog, one after the other. -/
theorem writeAll_kept {writes : List (String × Bytes)} (htidy : Tidy s)
    (h : writeAll io s writes = .ok s') (hsound : WritesSound io s writes) :
    BacklogKept io s.inner s'.inner ∧ Tidy s' := by
  induction writes generalizing s with
  | nil =>
    cases h
    exact ⟨.refl _, htidy⟩
  | cons entry writes ih =>
    obtain ⟨rel, bytes⟩ := entry
    obtain ⟨next, hwrite, hrest⟩ := bind_ok_iff.mp h
    obtain ⟨hfirst, hmore⟩ := hsound
    obtain ⟨hkept, htidy'⟩ := ih (htidy.write hwrite hfirst) hrest (hmore next hwrite)
    exact ⟨(write_kept hwrite hfirst).trans hkept, htidy'⟩

/-- **One accepted operation** keeps the backlog and the tree. -/
theorem memberAct_kept (htidy : Tidy s) {op : MemberOp} (h : memberAct io s op = .ok s')
    (hsound : op.Sound io s) : BacklogKept io s.inner s'.inner ∧ Tidy s' := by
  cases op with
  | write rel bytes => exact ⟨write_kept h hsound, htidy.write h hsound⟩
  | rename src dst =>
    refine ⟨rename_kept htidy h hsound, ?_⟩
    obtain ⟨source, target, inner', hsource, htarget, -, hrename, rfl⟩ := rename_eq_ok h
    exact htidy.stageRename hrename (hsound source target hsource htarget).ok
  | remove rel =>
    refine ⟨remove_kept htidy h hsound, ?_⟩
    obtain ⟨path, hpath, -, rfl⟩ := remove_eq_ok h
    exact htidy.stageRemove (hsound path hpath).ne_nil
  | batch writes =>
    obtain ⟨⟨⟩, -, hwrites⟩ := bind_ok_iff.mp h
    exact writeAll_kept htidy hwrites hsound

/-- **What every run of accepted operations keeps**: in a run whose steps all are sound, every
document of the backlog stays with what a member may not change, every held one stays held and no
item document is new. -/
theorem member_ops_keep {s₀ : MountState} {ops : List MemberOp}
    (hinit : (memberSystem io).init s₀)
    (hrun : (memberSystem io).Guarded (fun s op => op.Sound io s) s₀ ops s) :
    BacklogKept io s₀.inner s.inner := by
  have hall : BacklogKept io s₀.inner s.inner ∧ Tidy s := by
    induction hrun with
    | refl => exact ⟨.refl _, hinit⟩
    | snoc _ hsound hstep ih =>
      obtain ⟨hkept, htidy⟩ := ih
      obtain ⟨hstays, htidy'⟩ := memberAct_kept htidy hstep hsound
      exact ⟨hkept.trans hstays, htidy'⟩
  exact hall.1

end

/-! ### A backlog of one document -/

section

def noteName : FileName := ⟨"n.md", by decide⟩

def notePath : RepoPath := backlogDir ++ [noteName]

/-- Documents in ASCII, stored as they are. -/
def asciiIo (content : Bytes) : MountIo :=
  ⟨fun _ => some content, fun _ blob => some blob, some, List.map fun b => Char.ofNat b.toNat⟩

def dirEntry : Entry := ⟨.dir, 0o040755, ⟨[]⟩⟩

def oneNote : MountState where
  inner := ⟨((((∅ : AList fun _ : RepoPath => Entry).insert backlogDir.dropLast dirEntry).insert
    backlogDir dirEntry).insert notePath ⟨.blob, 0o100644, ⟨[]⟩⟩), .new⟩
  registry := .deviceOnly

theorem live_oneNote (path : RepoPath) : oneNote.inner.live path =
    if path = notePath then some (.file (0o100644, .blob ⟨[]⟩))
    else if path = backlogDir ∨ path = backlogDir.dropLast then some .dir else none := by
  rw [live_of_get_none (show oneNote.inner.overlay.get path = none from rfl), oneNote]
  dsimp only
  by_cases hnote : path = notePath
  · rw [if_pos hnote, hnote, AList.lookup_insert]
    rfl
  rw [if_neg hnote, AList.lookup_insert_ne hnote]
  by_cases hbacklog : path = backlogDir
  · rw [if_pos (Or.inl hbacklog), hbacklog, AList.lookup_insert]
    rfl
  rw [AList.lookup_insert_ne hbacklog]
  by_cases htop : path = backlogDir.dropLast
  · rw [if_pos (Or.inr htop), htop, AList.lookup_insert]
    rfl
  · rw [AList.lookup_insert_ne htop, if_neg (by tauto)]
    rfl

theorem oneNote_tidy : Tidy oneNote where
  rooted := by
    intro dir name hsome
    rw [live_oneNote] at hsome
    split_ifs at hsome with hnote habove
    · have hdir := congrArg List.dropLast hnote
      rw [List.dropLast_concat, notePath, List.dropLast_concat] at hdir
      refine Or.inr ?_
      rw [live_oneNote, if_neg (by rw [hdir]; simp [notePath]), if_pos (Or.inl hdir)]
    · rcases habove with hbacklog | htop
      · have hdir := congrArg List.dropLast hbacklog
        rw [List.dropLast_concat] at hdir
        refine Or.inr ?_
        rw [live_oneNote, if_neg (by rw [hdir]; simp [notePath, backlogDir]), if_pos (Or.inr hdir)]
      · have hdir := congrArg List.dropLast htop
        rw [List.dropLast_concat] at hdir
        exact Or.inl hdir
    · cases hsome
  root := by
    intro source hfile
    rw [live_oneNote, if_neg (by simp [notePath]), if_neg (by simp [backlogDir])] at hfile
    cases hfile
  noStray := by
    intro path entry hget
    cases hget

/-- A note that is held. -/
def heldNote : Bytes := ascii "> Fleet: no\n"

/-- A document whose only region is a vault region. -/
def vaultNote : Bytes := ascii "<vault id=\"k\">s</vault>\n"

/-- Both notes pass the guards: another line of prose in the one, and the removal of the other. -/
theorem accepted_notes :
    (write (asciiIo heldNote) oneNote "growlight//backlog/./n.md"
      (heldNote ++ heldNote)).toOption.isSome = true ∧
    (remove (asciiIo vaultNote) oneNote "growlight/backlog/n.md").toOption.isSome = true ∧
    canonicalRel "growlight//backlog/./n.md" = some notePath ∧
    canonicalRel "growlight/backlog/n.md" = some notePath ∧
    ((docAt (asciiIo vaultNote) oneNote.inner notePath).any
      fun text => decide (vaultRegions text notePath.text ≠ [])) = true := by
  decide +kernel

theorem exists_of_toOption {result : Except WorkRefusal MountState}
    (h : result.toOption.isSome = true) : ∃ s, result = .ok s := by
  cases result with
  | error refusal => cases h
  | ok s => exact ⟨s, rfl⟩

theorem writeSound_oneNote : WriteSound oneNote notePath where
  writable :=
    { ne_nil := by simp [notePath]
      free := fun _ _ _ hget => by cases hget
      empty := by
        intro name
        rw [live_oneNote, if_neg (by simp [notePath]), if_neg (by simp [notePath, backlogDir])]
      noRoot := by simp [oneNote, enabledMountRoots, Vcs.ChainRegistry.enabledChains,
        Vcs.ChainRegistry.deviceOnly, Vcs.Chain.device] }
  above := by
    intro dir hdir source hfile
    rw [live_oneNote, if_neg (RepoPath.mem_parents.mp hdir).2.2] at hfile
    split_ifs at hfile
    cases hfile

/-- A held note is written under another spelling of its path. -/
theorem member_ops_keep_held : ∃ s, memberAct (asciiIo heldNote) oneNote
      (.write "growlight//backlog/./n.md" (heldNote ++ heldNote)) = .ok s ∧
    BacklogKept (asciiIo heldNote) oneNote.inner s.inner := by
  obtain ⟨hwrite, -, hpath, -⟩ := accepted_notes
  obtain ⟨s, hs⟩ := exists_of_toOption hwrite
  have hstep : (memberSystem (asciiIo heldNote)).step oneNote
      (.write "growlight//backlog/./n.md" (heldNote ++ heldNote)) s := hs
  refine ⟨s, hs, member_ops_keep oneNote_tidy (.snoc (.refl _) ?_ hstep)⟩
  intro path hcanonical
  rw [hpath] at hcanonical
  cases hcanonical
  exact writeSound_oneNote

/-- A member removes a document whose only region is a vault region. -/
theorem member_ops_keep_fails :
    ¬ ∀ (io : MountIo) (s₀ s : MountState) (ops : List MemberOp),
      (memberSystem io).init s₀ → (memberSystem io).Run s₀ ops s →
        BacklogKept io s₀.inner s.inner := by
  intro h
  obtain ⟨-, hremove, -, hpath, hvault⟩ := accepted_notes
  obtain ⟨s, hs⟩ := exists_of_toOption hremove
  have hstep : (memberSystem (asciiIo vaultNote)).step oneNote
      (.remove "growlight/backlog/n.md") s := hs
  have hkept := h (asciiIo vaultNote) oneNote s _ oneNote_tidy (.snoc (.refl _) hstep)
  obtain ⟨text, hdoc, hregions⟩ := (Option.any_eq_true _ _).mp hvault
  obtain ⟨text', hnow, -⟩ := hkept.kept notePath text (by simp [isBacklogRel, notePath]) hdoc
    (Or.inr (Or.inl (of_decide_eq_true hregions)))
  obtain ⟨path, hcanonical, -, rfl⟩ := remove_eq_ok hs
  rw [hpath] at hcanonical
  cases hcanonical
  have hne : notePath ≠ [] := by simp [notePath]
  have hlive := live_stageRemove oneNote_tidy.rooted hne notePath
  rw [if_pos List.prefix_rfl] at hlive
  obtain ⟨source, hfile⟩ := live_of_docAt hnow
  dsimp only at hfile
  rw [hlive] at hfile
  cases hfile

end

end Softfig.Mount
