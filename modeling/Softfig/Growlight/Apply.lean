import Softfig.Doc.MemberGuard
import Softfig.Doc.RegionEdits
import Softfig.Lib.Except
import Softfig.Lib.Fallible
import Softfig.Mount.WorkTree
import Softfig.Vcs.Commit

/-!
The write step of the v2 queue verbs: every check on the files and the hosts of the views, then
every write staged, then one commit.

The document of a view is read before anything is staged, and its guard is asked only after the
files are. So a refusal can leave staged files behind, and of two views on one host the last one
written wins.

- `World.read_advanceAll`, `tip_advanceAll`: a commit publishes the working tree of its chains;
- `commitNow_ok`, `commitNow_refused`: the chains a commit advances;
- `requested`: the tree a request asks for;
- `shown_of_alone`: a view that is alone on its host is shown as requested;
- `apply_upheld_iff`: exactly when a call is all or nothing, and does what was requested;
- `two_views_one_host`: a call that loses a view.
-/

namespace Softfig.Growlight.V2

open Softfig.Lib
open Softfig.Lib.Jcs (Json)
open Softfig.Doc (Text upsert remove asBytes)
open Softfig.Store (Bytes)
open Softfig.Mount (RepoPath canonicalRel)
open Softfig.Vcs (Intent)

/-! ### Requests -/

/-- A file to write: `expected` is the version it was loaded at, none where it is created. -/
structure FileWrite where
  rel : String
  expected : Option String
  bytes : Bytes

/-- A region to render in its host, or to remove. -/
structure ViewWrite where
  host : String
  tag : Text
  body : Option Text

/-- The companion documents of a verb. -/
structure ExtraWrites where
  writes : List FileWrite
  refreshBacklinks : Bool

structure Request where
  intentName : String
  payload : Json
  files : List FileWrite
  views : List ViewWrite
  extras : ExtraWrites

inductive Refusal where
  | locked
  | notGardenRelative (rel : String)
  | sharedChainUnkeyed (rel : String)
  | stale (rel : String)
  | appeared (rel : String)
  | notUtf8 (host : String)
  | vaultProtected (host : String)
  | hostMissing (host : String)
  | io (rel : String)
  | intent (e : Vcs.CoreError)
  | commit

/-- What a path holds. -/
abbrev Contents := RepoPath → Option Bytes

/-- What a call finds of the daemon: the vault, the backend of the working tree, and the chains. -/
structure Keeper (Chain : Type) where
  unlocked : Bool
  /-- The path is in a share that has no key yet. -/
  unkeyed : RepoPath → Bool
  /-- The backend takes a write of the path. -/
  takes : RepoPath → Bool
  isDir : RepoPath → Bool
  digest : Bytes → String
  /-- The document is sealed or has vault regions. -/
  vaulted : String → Bytes → Bool
  fromUtf8 : Bytes → Option Text
  backlogClaudeStub : Text
  /-- `refresh_all`: the documents it rewrites. -/
  refreshAll : Contents → List (RepoPath × Bytes)
  device : Chain
  shared : List Chain
  owner : RepoPath → Chain
  holdsTurn : Chain → Bool
  /-- The chain does not take the tree. -/
  refusesCommit : Chain → Contents → Bool
  owned : ∀ path, owner path ∈ device :: shared
  distinct : (device :: shared).Nodup

/-! ### The working tree and its chains -/

/-- The trees at the tips of the chains, what is staged over them, the newest first, and the
commits, each with its chain. A staged file may also be gone. -/
structure World (Chain : Type) where
  tip : Contents
  overlay : List (RepoPath × Option Bytes)
  log : List (Chain × Intent)

/-- Contents with files written over them. -/
def written (c : Contents) (writes : List (RepoPath × Bytes)) : Contents :=
  writes.foldl (fun c e => Function.update c e.1 (some e.2)) c

namespace World

variable {Chain : Type}

def read (w : World Chain) (path : RepoPath) : Option Bytes :=
  (w.overlay.lookup path).getD (w.tip path)

def stage (w : World Chain) (path : RepoPath) (bytes : Bytes) : World Chain :=
  { w with overlay := (path, some bytes) :: w.overlay }

def stageAll (w : World Chain) (writes : List (RepoPath × Bytes)) : World Chain :=
  writes.foldl (fun w e => w.stage e.1 e.2) w

variable [DecidableEq Chain] (k : Keeper Chain) (intent : Intent)

/-- Something is staged for the chain. -/
def pending (w : World Chain) (c : Chain) : Bool :=
  w.overlay.any fun e => decide (k.owner e.1 = c)

/-- The tree of the chain is not the one at its tip. -/
def differs (w : World Chain) (c : Chain) : Bool :=
  w.overlay.any fun e => decide (k.owner e.1 = c ∧ w.read e.1 ≠ w.tip e.1)

/-- One commit of the chain. -/
def advance (w : World Chain) (c : Chain) : World Chain where
  tip path := if k.owner path = c then w.read path else w.tip path
  overlay := w.overlay.filter fun e => decide (k.owner e.1 ≠ c)
  log := (c, intent) :: w.log

def advanceAll (w : World Chain) (cs : List Chain) : World Chain :=
  cs.foldl (fun w c => w.advance k intent c) w

end World

/-! ### The checks -/

section

variable {Chain : Type} (k : Keeper Chain)

/-- `check_write` -/
def checkWrite (rel : String) : Except Refusal RepoPath :=
  match canonicalRel rel with
  | none => .error (.notGardenRelative rel)
  | some path => if k.unkeyed path then .error (.sharedChainUnkeyed rel) else .ok path

def «exists» (w : World Chain) (rel : String) : Bool :=
  (canonicalRel rel).any fun path => (w.read path).isSome || k.isDir path

/-- The check of one file before anything is staged. -/
def checkFile (w : World Chain) (f : FileWrite) : Except Refusal Unit := do
  let path ← checkWrite k f.rel
  match f.expected with
  | some want => refuseIf ((w.read path).map k.digest ≠ some want) (.stale f.rel)
  | none => refuseIf («exists» k w f.rel = true) (.appeared f.rel)

/-- `read_if_unprotected` -/
def readIfUnprotected (w : World Chain) (rel : String) : Option Text :=
  ((canonicalRel rel).bind w.read).bind fun bytes =>
    if k.vaulted rel bytes then none else k.fromUtf8 bytes

def backlogClaude : String := "growlight/backlog/CLAUDE.md"

/-- `read_view_host`: the document of a view, none where there is none to remove a region from. -/
def readViewHost (w : World Chain) (extras : List FileWrite) (v : ViewWrite) :
    Except Refusal (Option Text) :=
  match readIfUnprotected k w v.host with
  | some content => .ok (some content)
  | none =>
    match extras.find? fun f => f.rel = v.host with
    | some extra =>
      match k.fromUtf8 extra.bytes with
      | some content => .ok (some content)
      | none => .error (.notUtf8 v.host)
    | none =>
      if «exists» k w v.host then .error (.vaultProtected v.host)
      else if v.body.isNone then .ok none
      else if v.host = backlogClaude then .ok (some k.backlogClaudeStub)
      else .error (.hostMissing v.host)

/-- The first pass of a call: the documents of the views. -/
def checkAll (w : World Chain) (req : Request) : Except Refusal (List (Option Text)) := do
  (req.files ++ req.extras.writes).forM (checkFile k w)
  req.views.mapM (readViewHost k w req.extras.writes)

end

/-! ### The writes -/

/-- What a view makes of a document. -/
def ViewWrite.render (v : ViewWrite) (content : Text) : Text :=
  match v.body with
  | some body => upsert content v.tag body
  | none => remove content v.tag

section

variable {Chain : Type} [DecidableEq Chain] (k : Keeper Chain)

/-- `write_structured` -/
def writeStructured (rel : String) (bytes : Bytes) : Fallible (World Chain) Refusal Unit := do
  let path ← Fallible.ofExcept (checkWrite k rel)
  if k.takes path then Fallible.modify fun w => w.stage path bytes else Fallible.fail (.io rel)

def stageFiles : List FileWrite → Fallible (World Chain) Refusal Unit
  | [] => pure ()
  | f :: rest => do
    writeStructured k f.rel f.bytes
    stageFiles rest

def stageView (v : ViewWrite) (content : Text) : Fallible (World Chain) Refusal Unit :=
  if v.render content ≠ content then do
    let _ ← Fallible.ofExcept (checkWrite k v.host)
    writeStructured k v.host (asBytes (v.render content))
  else pure ()

def stageViews : List (ViewWrite × Option Text) → Fallible (World Chain) Refusal Unit
  | [] => pure ()
  | (_, none) :: rest => stageViews rest
  | (v, some content) :: rest => do
    stageView k v content
    stageViews rest

def refreshed (req : Request) (w : World Chain) : World Chain :=
  if req.extras.refreshBacklinks then w.stageAll (k.refreshAll w.read) else w

/-- The chains a commit is tried on: those with something pending, or else the device's. -/
def tried (w : World Chain) : List Chain :=
  let pending := (k.device :: k.shared).filter fun c => w.pending k c
  if pending = [] then [k.device] else pending

/-- A shared chain whose turn another device holds is left for later. -/
def committing (w : World Chain) : List Chain :=
  (tried k w).filter fun c => decide (c = k.device) || k.holdsTurn c

/-- `commit_snapshot_to_with`, which skips a tree that is the tip's. -/
def commitChain (intent : Intent) (c : Chain) : Fallible (World Chain) Refusal Unit := fun w =>
  if k.refusesCommit c w.read then (.error .commit, w)
  else (.ok (), if w.differs k c then w.advance k intent c else w)

def commitChains (intent : Intent) : List Chain → Fallible (World Chain) Refusal Unit
  | [] => pure ()
  | c :: rest => do
    commitChain k intent c
    commitChains intent rest

/-- The chain whose tip is reported. -/
def reported (w : World Chain) : Chain :=
  if k.device ∈ tried k w then k.device else (committing k w).getLast?.getD k.device

def commitNow (intent : Intent) : Fallible (World Chain) Refusal Chain := do
  let w ← Fallible.gets id
  commitChains k intent (committing k w)
  return reported k w

def apply (req : Request) : Fallible (World Chain) Refusal Chain := do
  Fallible.ofExcept (refuseIf (k.unlocked = false) .locked)
  let w ← Fallible.gets id
  let hosts ← Fallible.ofExcept (checkAll k w req)
  stageFiles k req.files
  stageFiles k req.extras.writes
  stageViews k (req.views.zip hosts)
  Fallible.modify (refreshed k req)
  let intent ← Fallible.ofExcept ((Intent.new req.intentName req.payload).mapError .intent)
  commitNow k intent

end

/-! ### What is requested -/

section

variable {Chain : Type} (k : Keeper Chain) (req : Request)

/-- The files of a request, in order. -/
def fileWrites : List (RepoPath × Bytes) :=
  (req.files ++ req.extras.writes).filterMap fun f => (canonicalRel f.rel).map (·, f.bytes)

def viewsAt (path : RepoPath) : List ViewWrite :=
  req.views.filter fun v => canonicalRel v.host = some path

/-- The paths of the files and the hosts of the views. -/
def targets : List RepoPath :=
  (req.files ++ req.extras.writes).filterMap (canonicalRel ·.rel) ++
    req.views.filterMap (canonicalRel ·.host)

/-- A document after one more of its views. -/
def inTurn (doc : Option Text) (v : ViewWrite) : Option Text :=
  match doc with
  | some content => some (v.render content)
  | none =>
    if v.body.isSome ∧ v.host = backlogClaude then some (v.render k.backlogClaudeStub) else none

/-- What a path is to hold: the file written there, or what was there, with all its views rendered
one after another. -/
def requestedAt (c : Contents) (path : RepoPath) : Option Bytes :=
  let base := written c (fileWrites req) path
  let doc := base.bind k.fromUtf8
  match (viewsAt req path).foldl (inTurn k) doc with
  | none => base
  | some content => if doc = some content then base else some (asBytes content)

def withBacklinks (c : Contents) : Contents :=
  if req.extras.refreshBacklinks then written c (k.refreshAll c) else c

/-- The tree a request asks for. -/
def requested (c : Contents) : Contents := withBacklinks k req (requestedAt k req c)

end

/-! ### All or nothing -/

section

variable {Chain : Type}

/-- Nothing was done. -/
structure Untouched (w w' : World Chain) : Prop where
  tree : ∀ path, w'.read path = w.read path
  log : w'.log = w.log

/-- Everything requested is in the one commit. It is the untouched tip where nothing changed. -/
structure Landed (k : Keeper Chain) (req : Request) (w w' : World Chain) : Prop where
  commit : (w'.log = w.log ∧ w'.tip = w.tip) ∨ ∃ c intent, w'.log = (c, intent) :: w.log
  tip : ∀ path ∈ targets req, w'.tip path = requested k req w.read path
  tree : ∀ path ∈ targets req, w'.read path = requested k req w.read path

variable [DecidableEq Chain]

def Upheld (k : Keeper Chain) (req : Request) (w : World Chain) : Prop :=
  ∀ result w', apply k req w = (result, w') →
    match result with
    | .error _ => Untouched w w'
    | .ok _ => Landed k req w w'

end

/-! ### Reading -/

theorem written_append (c : Contents) (ws ws' : List (RepoPath × Bytes)) :
    written c (ws ++ ws') = written (written c ws) ws' := List.foldl_append

/-- A path that is not written keeps what it holds. -/
theorem written_of_notMem {ws : List (RepoPath × Bytes)} {path : RepoPath}
    (h : ∀ e ∈ ws, e.1 ≠ path) (c : Contents) : written c ws path = c path := by
  induction ws generalizing c with
  | nil => rfl
  | cons e ws ih =>
    have hrest := ih (fun e he => h e (List.mem_cons_of_mem _ he))
      (Function.update c e.1 (some e.2))
    rw [Function.update_of_ne (h e List.mem_cons_self).symm] at hrest
    exact hrest

namespace World

section

variable {Chain : Type} (w : World Chain)

theorem read_stage (path : RepoPath) (bytes : Bytes) :
    (w.stage path bytes).read = Function.update w.read path (some bytes) := by
  funext path'
  by_cases h : path' = path
  · subst h
    rw [Function.update_self]
    simp [read, stage]
  · rw [Function.update_of_ne h]
    have hne : (path' == path) = false := beq_eq_false_iff_ne.mpr h
    simp [read, stage, List.lookup_cons, hne]

theorem read_stageAll (writes : List (RepoPath × Bytes)) :
    (w.stageAll writes).read = written w.read writes := by
  induction writes generalizing w with
  | nil => rfl
  | cons e writes ih =>
    have hrest := ih (w.stage e.1 e.2)
    rw [read_stage] at hrest
    exact hrest

@[simp]
theorem tip_stageAll (writes : List (RepoPath × Bytes)) : (w.stageAll writes).tip = w.tip := by
  induction writes generalizing w with
  | nil => rfl
  | cons e writes ih => exact ih (w.stage e.1 e.2)

@[simp]
theorem log_stageAll (writes : List (RepoPath × Bytes)) : (w.stageAll writes).log = w.log := by
  induction writes generalizing w with
  | nil => rfl
  | cons e writes ih => exact ih (w.stage e.1 e.2)

theorem stageAll_append (ws ws' : List (RepoPath × Bytes)) :
    w.stageAll (ws ++ ws') = (w.stageAll ws).stageAll ws' := List.foldl_append

/-- Only what is staged differs from the tip. -/
theorem mem_overlay_of_read_ne {path : RepoPath} (h : w.read path ≠ w.tip path) :
    ∃ e ∈ w.overlay, e.1 = path := by
  cases hfound : w.overlay.lookup path with
  | none =>
    rw [read, hfound] at h
    exact absurd rfl h
  | some entry =>
    have hmem := List.lookup_eq_some_iff.mp hfound
    obtain ⟨before, after, heq, -⟩ := hmem
    refine ⟨(path, entry), ?_, rfl⟩
    rw [heq]
    exact List.mem_append_right _ List.mem_cons_self

end

section

variable {Chain : Type} [DecidableEq Chain] (k : Keeper Chain) (intent : Intent) (w : World Chain)

/-- What is staged of the other chains stays staged. -/
theorem lookup_advance (c : Chain) (path : RepoPath) :
    (w.advance k intent c).overlay.lookup path =
      if k.owner path = c then none else w.overlay.lookup path := by
  show (w.overlay.filter fun e => decide (k.owner e.1 ≠ c)).lookup path = _
  induction w.overlay with
  | nil => simp
  | cons e overlay ih =>
    by_cases howner : k.owner e.1 = c
    · rw [List.filter_cons_of_neg (by simpa using howner), ih]
      by_cases hpath : k.owner path = c
      · rw [if_pos hpath, if_pos hpath]
      · have hne : (path == e.1) = false := by
          refine beq_eq_false_iff_ne.mpr fun heq => hpath ?_
          rw [heq]
          exact howner
        rw [if_neg hpath, if_neg hpath, List.lookup_cons, hne]
    · rw [List.filter_cons_of_pos (by simpa using howner), List.lookup_cons, List.lookup_cons]
      by_cases heq : path = e.1
      · subst heq
        rw [if_neg howner]
        simp
      · have hne : (path == e.1) = false := beq_eq_false_iff_ne.mpr heq
        rw [hne]
        exact ih

/-- A commit changes nothing that is read. -/
theorem read_advance (c : Chain) : (w.advance k intent c).read = w.read := by
  funext path
  show ((w.advance k intent c).overlay.lookup path).getD _ = _
  rw [lookup_advance]
  by_cases howner : k.owner path = c
  · rw [if_pos howner]
    exact if_pos howner
  · rw [if_neg howner]
    show _ = (w.overlay.lookup path).getD (w.tip path)
    congr 1
    exact if_neg howner

/-- A commit of one chain leaves the others to be committed. -/
theorem differs_advance {c c' : Chain} (h : c' ≠ c) :
    (w.advance k intent c).differs k c' = w.differs k c' := by
  rw [differs, differs, read_advance, Bool.eq_iff_iff]
  simp only [List.any_eq_true, decide_eq_true_eq]
  constructor
  · rintro ⟨e, hmem, howner, hne⟩
    have htip : (w.advance k intent c).tip e.1 = w.tip e.1 := if_neg (howner ▸ h)
    rw [htip] at hne
    exact ⟨e, List.mem_of_mem_filter hmem, howner, hne⟩
  · rintro ⟨e, hmem, howner, hne⟩
    have htip : (w.advance k intent c).tip e.1 = w.tip e.1 := if_neg (howner ▸ h)
    rw [← htip] at hne
    exact ⟨e, List.mem_filter.mpr ⟨hmem, decide_eq_true (howner ▸ h)⟩, howner, hne⟩

variable (cs : List Chain)

theorem read_advanceAll : (w.advanceAll k intent cs).read = w.read := by
  induction cs generalizing w with
  | nil => rfl
  | cons c cs ih =>
    have hrest := ih (w.advance k intent c)
    rw [read_advance] at hrest
    exact hrest

/-- **The tips of the committed chains hold their part of the working tree.** -/
theorem tip_advanceAll (path : RepoPath) :
    (w.advanceAll k intent cs).tip path =
      if k.owner path ∈ cs then w.read path else w.tip path := by
  induction cs generalizing w with
  | nil => rfl
  | cons c cs ih =>
    have hrest := ih (w.advance k intent c)
    rw [read_advance] at hrest
    show ((w.advance k intent c).advanceAll k intent cs).tip path = _
    rw [hrest]
    by_cases hmem : k.owner path ∈ cs
    · rw [if_pos hmem, if_pos (List.mem_cons_of_mem _ hmem)]
    · rw [if_neg hmem]
      show (if k.owner path = c then w.read path else w.tip path) = _
      simp only [List.mem_cons, hmem, or_false]

theorem log_advanceAll :
    (w.advanceAll k intent cs).log = (cs.map (·, intent)).reverse ++ w.log := by
  induction cs generalizing w with
  | nil => rfl
  | cons c cs ih =>
    have hrest := ih (w.advance k intent c)
    rw [List.map_cons, List.reverse_cons, List.append_assoc]
    exact hrest

/-- Of distinct chains, those are committed that differ from their tips. -/
theorem filter_differs_advance {c : Chain} (hc : c ∉ cs) :
    (cs.filter fun c' => (w.advance k intent c).differs k c') =
      cs.filter fun c' => w.differs k c' := by
  refine List.filter_congr fun c' hc' => ?_
  exact differs_advance k intent w fun heq => hc (heq ▸ hc')

end

end World

/-! ### Committing -/

section

variable {Chain : Type} [DecidableEq Chain] (k : Keeper Chain)

/-- The chain takes the tree. -/
def taking (c : Contents) (cs : List Chain) : List Chain :=
  cs.takeWhile fun chain => !k.refusesCommit chain c

/-- The chains that a commit advances: those that differ from their tips, up to the first that
does not take the tree. -/
def advancing (w : World Chain) (cs : List Chain) : List Chain :=
  (taking k w.read cs).filter fun c => w.differs k c

theorem commitChains_eq (intent : Intent) {cs : List Chain} (hdistinct : cs.Nodup)
    (w : World Chain) :
    commitChains k intent cs w =
      (if cs.any (k.refusesCommit · w.read) then .error .commit else .ok (),
        w.advanceAll k intent (advancing k w cs)) := by
  induction cs generalizing w with
  | nil => rfl
  | cons c cs ih =>
    obtain ⟨hc, hrest⟩ := List.nodup_cons.mp hdistinct
    by_cases hrefused : k.refusesCommit c w.read = true
    · have hadvancing : advancing k w (c :: cs) = [] := by
        rw [advancing, taking, List.takeWhile_cons_of_neg (by simpa using hrefused)]
        rfl
      have hfirst : commitChain k intent c w = (.error .commit, w) := if_pos hrefused
      rw [hadvancing, List.any_cons, hrefused, Bool.true_or, if_pos rfl]
      exact Fallible.bind_error hfirst
    · have hfirst : commitChain k intent c w =
          (.ok (), if w.differs k c then w.advance k intent c else w) := if_neg hrefused
      have htaking : taking k w.read (c :: cs) = c :: taking k w.read cs :=
        List.takeWhile_cons_of_pos (by simpa using hrefused)
      refine (Fallible.bind_ok hfirst).trans ?_
      rw [ih hrest, List.any_cons, Bool.eq_false_iff.mpr hrefused, Bool.false_or]
      by_cases hdiffers : w.differs k c = true
      · have hc' : c ∉ taking k w.read cs := fun hmem =>
          hc ((List.takeWhile_sublist _).subset hmem)
        rw [if_pos hdiffers, World.read_advance, advancing, advancing, World.read_advance, htaking,
          List.filter_cons_of_pos hdiffers, World.filter_differs_advance k intent w _ hc']
        rfl
      · rw [if_neg hdiffers, advancing, advancing, htaking, List.filter_cons_of_neg hdiffers]

theorem committing_nodup (w : World Chain) : (committing k w).Nodup := by
  refine List.Nodup.filter _ ?_
  rw [tried]
  split_ifs
  · exact List.nodup_singleton _
  · exact k.distinct.filter _

/-- **A commit that every chain takes** publishes what differs from the tips. -/
theorem commitNow_ok (intent : Intent) {w : World Chain}
    (h : (committing k w).any (k.refusesCommit · w.read) = false) :
    commitNow k intent w =
      (.ok (reported k w), w.advanceAll k intent (advancing k w (committing k w))) := by
  have hchains := commitChains_eq k intent (committing_nodup k w) w
  rw [h, if_neg Bool.false_ne_true] at hchains
  refine (Fallible.bind_ok (Fallible.gets_apply id w)).trans ?_
  exact Fallible.bind_ok hchains

/-- **A commit that a chain refuses** has advanced the chains before it. -/
theorem commitNow_refused (intent : Intent) {w : World Chain}
    (h : (committing k w).any (k.refusesCommit · w.read) = true) :
    commitNow k intent w =
      (.error .commit, w.advanceAll k intent (advancing k w (committing k w))) := by
  have hchains := commitChains_eq k intent (committing_nodup k w) w
  rw [h, if_pos rfl] at hchains
  refine (Fallible.bind_ok (Fallible.gets_apply id w)).trans ?_
  exact Fallible.bind_error hchains

/-- A path whose chain takes part in a commit, and only such a path, is in it. -/
theorem mem_advancing {w : World Chain} {path : RepoPath}
    (h : (committing k w).any (k.refusesCommit · w.read) = false)
    (hne : w.read path ≠ w.tip path) :
    k.owner path ∈ advancing k w (committing k w) ↔
      k.owner path = k.device ∨ k.holdsTurn (k.owner path) = true := by
  have htaking : taking k w.read (committing k w) = committing k w := by
    refine List.takeWhile_eq_self_iff.mpr fun c hc => ?_
    have hno := List.any_eq_false.mp h c hc
    simpa using hno
  rw [advancing, htaking, List.mem_filter, committing, List.mem_filter, Bool.or_eq_true,
    decide_eq_true_eq]
  constructor
  · exact fun hall => hall.1.2
  · intro hturn
    obtain ⟨e, hmem, rfl⟩ := w.mem_overlay_of_read_ne hne
    have hpending : k.owner e.1 ∈ (k.device :: k.shared).filter fun c => w.pending k c := by
      refine List.mem_filter.mpr ⟨k.owned e.1, ?_⟩
      exact List.any_eq_true.mpr ⟨e, hmem, decide_eq_true rfl⟩
    have htried : k.owner e.1 ∈ tried k w := by
      rw [tried]
      rw [if_neg (List.ne_nil_of_mem hpending)]
      exact hpending
    have hdiffers : w.differs k (k.owner e.1) = true :=
      List.any_eq_true.mpr ⟨e, hmem, decide_eq_true ⟨rfl, hne⟩⟩
    exact ⟨⟨htried, hturn⟩, hdiffers⟩

end

/-! ### Staging -/

section

variable {Chain : Type} (k : Keeper Chain)

/-- The write of a path is not refused. -/
def accepts (rel : String) : Bool :=
  (canonicalRel rel).any fun path => !k.unkeyed path && k.takes path

/-- The files that writes put in the tree. -/
def landing (steps : List (String × Bytes)) : List (RepoPath × Bytes) :=
  steps.filterMap fun s => (canonicalRel s.1).map (·, s.2)

/-- The writes up to the first that is refused. -/
def taken (steps : List (String × Bytes)) : List (String × Bytes) :=
  steps.takeWhile fun s => accepts k s.1

def runSteps : List (String × Bytes) → Fallible (World Chain) Refusal Unit
  | [] => pure ()
  | s :: rest => do
    writeStructured k s.1 s.2
    runSteps rest

theorem landing_cons {rel : String} {path : RepoPath} (h : canonicalRel rel = some path)
    (bytes : Bytes) (steps : List (String × Bytes)) :
    landing ((rel, bytes) :: steps) = (path, bytes) :: landing steps :=
  List.filterMap_cons_some (by rw [h]; rfl)

theorem landing_append (steps steps' : List (String × Bytes)) :
    landing (steps ++ steps') = landing steps ++ landing steps' := List.filterMap_append

theorem writeStructured_accepted {rel : String} (h : accepts k rel = true) :
    ∃ path, canonicalRel rel = some path ∧
      ∀ bytes w, writeStructured k rel bytes w = (.ok (), w.stage path bytes) := by
  obtain ⟨path, hpath, hboth⟩ := Option.any_eq_true _ _ |>.mp h
  obtain ⟨hkeyed, htakes⟩ := Bool.and_eq_true_iff.mp hboth
  refine ⟨path, hpath, fun bytes w => ?_⟩
  have hcheck : checkWrite k rel = .ok path := by
    rw [checkWrite, hpath]
    exact if_neg (by simpa using hkeyed)
  rw [writeStructured, hcheck]
  refine (Fallible.bind_ok rfl).trans ?_
  rw [if_pos htakes]
  rfl

theorem writeStructured_refused {rel : String} (h : accepts k rel = false) (bytes : Bytes)
    (w : World Chain) : ∃ e, writeStructured k rel bytes w = (.error e, w) := by
  rw [writeStructured]
  cases hcheck : checkWrite k rel with
  | error e => exact ⟨e, rfl⟩
  | ok path =>
    refine ⟨.io rel, (Fallible.bind_ok rfl).trans ?_⟩
    rw [if_neg]
    · rfl
    · intro htakes
      rw [checkWrite] at hcheck
      cases hpath : canonicalRel rel with
      | none =>
        rw [hpath] at hcheck
        cases hcheck
      | some path' =>
        rw [hpath] at hcheck
        dsimp only at hcheck
        split_ifs at hcheck with hkeyed
        cases hcheck
        rw [accepts, hpath, Option.any_some, htakes, Bool.and_true] at h
        exact hkeyed (by simpa using h)

/-- The steps of a plan are staged up to the first that is refused. -/
theorem runSteps_ok {steps : List (String × Bytes)} (h : ∀ s ∈ steps, accepts k s.1 = true)
    (w : World Chain) : runSteps k steps w = (.ok (), w.stageAll (landing steps)) := by
  induction steps generalizing w with
  | nil => rfl
  | cons s steps ih =>
    obtain ⟨path, hpath, hwrite⟩ := writeStructured_accepted k (h s List.mem_cons_self)
    refine (Fallible.bind_ok (hwrite s.2 w)).trans ?_
    rw [ih fun s hs => h s (List.mem_cons_of_mem _ hs), landing_cons hpath]
    rfl

theorem runSteps_refused {steps : List (String × Bytes)}
    (h : ¬ ∀ s ∈ steps, accepts k s.1 = true) (w : World Chain) :
    ∃ e, runSteps k steps w = (.error e, w.stageAll (landing (taken k steps))) := by
  induction steps generalizing w with
  | nil => exact absurd (fun s hs => absurd hs List.not_mem_nil) h
  | cons s steps ih =>
    by_cases hs : accepts k s.1 = true
    · obtain ⟨path, hpath, hwrite⟩ := writeStructured_accepted k hs
      have hrest : ¬ ∀ s ∈ steps, accepts k s.1 = true :=
        fun hall => h (List.forall_mem_cons.mpr ⟨hs, hall⟩)
      obtain ⟨e, hsteps⟩ := ih hrest (w.stage path s.2)
      have htaken : taken k (s :: steps) = s :: taken k steps :=
        List.takeWhile_cons_of_pos (by simpa using hs)
      refine ⟨e, (Fallible.bind_ok (hwrite s.2 w)).trans ?_⟩
      rw [hsteps, htaken, landing_cons hpath]
      rfl
    · obtain ⟨e, hwrite⟩ := writeStructured_refused k (Bool.eq_false_iff.mpr hs) s.2 w
      refine ⟨e, (Fallible.bind_error hwrite).trans ?_⟩
      rw [taken, List.takeWhile_cons_of_neg (by simpa using hs)]
      rfl

theorem runSteps_append (steps steps' : List (String × Bytes)) :
    runSteps k (steps ++ steps') = (runSteps k steps >>= fun _ => runSteps k steps') := by
  induction steps with
  | nil => rfl
  | cons s steps ih =>
    show (writeStructured k s.1 s.2 >>= fun _ => runSteps k (steps ++ steps')) =
      ((writeStructured k s.1 s.2 >>= fun _ => runSteps k steps) >>= fun _ => runSteps k steps')
    rw [ih, Fallible.bind_assoc]

theorem stageFiles_eq (files : List FileWrite) :
    stageFiles k files = runSteps k (files.map fun f => (f.rel, f.bytes)) := by
  induction files with
  | nil => rfl
  | cons f files ih =>
    rw [stageFiles, ih]
    rfl

/-- The document a view makes of what was read, where it changes it. -/
def changed (v : ViewWrite) (host : Option Text) : Option Text :=
  host.bind fun content => if v.render content ≠ content then some (v.render content) else none

def viewSteps (pairs : List (ViewWrite × Option Text)) : List (String × Bytes) :=
  pairs.filterMap fun p => (changed p.1 p.2).map fun doc => (p.1.host, asBytes doc)

/-- The second check of a host is the one its write makes. -/
theorem stageView_eq {v : ViewWrite} {content : Text} (h : v.render content ≠ content) :
    stageView k v content = writeStructured k v.host (asBytes (v.render content)) := by
  rw [stageView, if_pos h, writeStructured]
  funext w
  cases hcheck : checkWrite k v.host with
  | error e => rfl
  | ok path =>
    refine (Fallible.bind_ok rfl).trans ?_
    rfl

theorem stageViews_eq (pairs : List (ViewWrite × Option Text)) :
    stageViews k pairs = runSteps k (viewSteps pairs) := by
  induction pairs with
  | nil => rfl
  | cons p pairs ih =>
    obtain ⟨v, _ | content⟩ := p
    · exact ih
    · rw [stageViews, ih]
      by_cases hchanged : v.render content ≠ content
      · have hstep : viewSteps ((v, some content) :: pairs) =
            (v.host, asBytes (v.render content)) :: viewSteps pairs :=
          List.filterMap_cons_some (by simp [changed, hchanged])
        rw [stageView_eq k hchanged, hstep]
        rfl
      · have hstep : viewSteps ((v, some content) :: pairs) = viewSteps pairs :=
          List.filterMap_cons_none (by simp [changed, hchanged])
        rw [stageView, if_neg hchanged, hstep]
        rfl

/-! ### A call -/

variable (req : Request)

/-- Everything a call stages, in order. -/
def plan (hosts : List (Option Text)) : List (String × Bytes) :=
  (req.files ++ req.extras.writes).map (fun f => (f.rel, f.bytes)) ++
    viewSteps (req.views.zip hosts)

/-- What a call finds when it comes to commit. -/
def staged (w : World Chain) (hosts : List (Option Text)) : World Chain :=
  refreshed k req (w.stageAll (landing (plan req hosts)))

theorem read_staged (w : World Chain) (hosts : List (Option Text)) :
    (staged k req w hosts).read =
      withBacklinks k req (written w.read (landing (plan req hosts))) := by
  rw [staged, refreshed, withBacklinks, ← World.read_stageAll]
  split_ifs
  · rw [World.read_stageAll]
  · rfl

theorem tip_staged (w : World Chain) (hosts : List (Option Text)) :
    (staged k req w hosts).tip = w.tip := by
  rw [staged, refreshed]
  split_ifs
  · rw [World.tip_stageAll, World.tip_stageAll]
  · rw [World.tip_stageAll]

theorem log_staged (w : World Chain) (hosts : List (Option Text)) :
    (staged k req w hosts).log = w.log := by
  rw [staged, refreshed]
  split_ifs
  · rw [World.log_stageAll, World.log_stageAll]
  · rw [World.log_stageAll]

variable {k req} [DecidableEq Chain]

theorem apply_locked {w : World Chain} (h : k.unlocked = false) :
    apply k req w = (.error .locked, w) := by
  refine Fallible.bind_error ?_
  rw [refuseIf, if_pos h]
  rfl

omit [DecidableEq Chain] in
/-- An unlocked call goes on to its checks. -/
theorem apply_unlocked {w : World Chain} (h : k.unlocked = true) :
    (Fallible.ofExcept (refuseIf (k.unlocked = false) .locked) :
      Fallible (World Chain) Refusal Unit) w = (.ok (), w) := by
  rw [refuseIf, if_neg (by simp [h])]
  rfl

theorem apply_unchecked {w : World Chain} {e : Refusal} (hunlocked : k.unlocked = true)
    (h : checkAll k w req = .error e) : apply k req w = (.error e, w) := by
  refine (Fallible.bind_ok (apply_unlocked hunlocked)).trans ?_
  refine (Fallible.bind_ok (Fallible.gets_apply id w)).trans (Fallible.bind_error ?_)
  rw [id, h]
  rfl

/-- A call that passes its checks runs its plan, and then commits. -/
theorem apply_checked {w : World Chain} {hosts : List (Option Text)} (hunlocked : k.unlocked = true)
    (h : checkAll k w req = .ok hosts) :
    apply k req w =
      (runSteps k (plan req hosts) >>= fun _ => Fallible.modify (refreshed k req) >>= fun _ =>
        Fallible.ofExcept ((Intent.new req.intentName req.payload).mapError .intent) >>=
          commitNow k) w := by
  have hcheck : (Fallible.ofExcept (checkAll k (id w) req) :
      Fallible (World Chain) Refusal (List (Option Text))) w = (.ok hosts, w) := by
    rw [id, h]
    rfl
  refine (Fallible.bind_ok (apply_unlocked hunlocked)).trans ?_
  refine (Fallible.bind_ok (Fallible.gets_apply id w)).trans ?_
  refine (Fallible.bind_ok hcheck).trans ?_
  rw [plan, List.map_append, runSteps_append, runSteps_append, ← stageFiles_eq, ← stageFiles_eq,
    ← stageViews_eq, Fallible.bind_assoc, Fallible.bind_assoc]

theorem apply_step {w : World Chain} {hosts : List (Option Text)} (hunlocked : k.unlocked = true)
    (h : checkAll k w req = .ok hosts) (hstep : ¬ ∀ s ∈ plan req hosts, accepts k s.1 = true) :
    ∃ e, apply k req w = (.error e, w.stageAll (landing (taken k (plan req hosts)))) := by
  obtain ⟨e, hsteps⟩ := runSteps_refused k hstep w
  refine ⟨e, ?_⟩
  rw [apply_checked hunlocked h]
  exact Fallible.bind_error hsteps

theorem apply_intent {w : World Chain} {hosts : List (Option Text)} {e : Vcs.CoreError}
    (hunlocked : k.unlocked = true) (h : checkAll k w req = .ok hosts)
    (hsteps : ∀ s ∈ plan req hosts, accepts k s.1 = true)
    (hintent : Intent.new req.intentName req.payload = .error e) :
    apply k req w = (.error (.intent e), staged k req w hosts) := by
  rw [apply_checked hunlocked h]
  refine (Fallible.bind_ok (runSteps_ok k hsteps w)).trans ?_
  refine (Fallible.bind_ok (Fallible.modify_apply _ _)).trans ?_
  rw [hintent]
  rfl

theorem apply_commit {w : World Chain} {hosts : List (Option Text)} {intent : Intent}
    (hunlocked : k.unlocked = true) (h : checkAll k w req = .ok hosts)
    (hsteps : ∀ s ∈ plan req hosts, accepts k s.1 = true)
    (hintent : Intent.new req.intentName req.payload = .ok intent) :
    apply k req w = commitNow k intent (staged k req w hosts) := by
  rw [apply_checked hunlocked h]
  refine (Fallible.bind_ok (runSteps_ok k hsteps w)).trans ?_
  refine (Fallible.bind_ok (Fallible.modify_apply _ _)).trans ?_
  rw [hintent]
  rfl

end

/-! ### What is shown in a host -/

section

variable {Chain : Type} (k : Keeper Chain) (req : Request)

/-- The document shown at a path after one more of the views. -/
def shownAfter (path : RepoPath) (doc : Option Text) (p : ViewWrite × Option Text) : Option Text :=
  if canonicalRel p.1.host = some path then (changed p.1 p.2).or doc else doc

/-- What the last view that changes its document makes of it as it was read, or else what is
written there. -/
def shown (hosts : List (Option Text)) (c : Contents) (path : RepoPath) : Option Bytes :=
  (((req.views.zip hosts).foldl (shownAfter path) none).map asBytes).or
    (written c (fileWrites req) path)

theorem written_viewSteps {path : RepoPath} {base : Option Bytes}
    (pairs : List (ViewWrite × Option Text)) {doc : Option Text} {c : Contents}
    (h : c path = (doc.map asBytes).or base) :
    written c (landing (viewSteps pairs)) path =
      ((pairs.foldl (shownAfter path) doc).map asBytes).or base := by
  induction pairs generalizing doc c with
  | nil => exact h
  | cons p pairs ih =>
    cases hchanged : changed p.1 p.2 with
    | none =>
      have hstep : viewSteps (p :: pairs) = viewSteps pairs :=
        List.filterMap_cons_none (by rw [hchanged]; rfl)
      have hshown : shownAfter path doc p = doc := by
        rw [shownAfter, hchanged, Option.none_or, ite_self]
      rw [hstep, List.foldl_cons, hshown]
      exact ih h
    | some text =>
      have hstep : viewSteps (p :: pairs) = (p.1.host, asBytes text) :: viewSteps pairs :=
        List.filterMap_cons_some (by rw [hchanged]; rfl)
      rw [hstep, List.foldl_cons]
      cases hhost : canonicalRel p.1.host with
      | none =>
        have hland : landing ((p.1.host, asBytes text) :: viewSteps pairs) =
            landing (viewSteps pairs) := List.filterMap_cons_none (by rw [hhost]; rfl)
        have hshown : shownAfter path doc p = doc := by
          rw [shownAfter, hhost, if_neg (by nofun)]
        rw [hland, hshown]
        exact ih h
      | some path' =>
        rw [landing_cons hhost]
        refine @ih _ (Function.update c path' (some (asBytes text))) ?_
        rw [shownAfter, hhost, hchanged]
        by_cases heq : path' = path
        · subst heq
          rw [if_pos rfl, Function.update_self]
          rfl
        · rw [if_neg (fun hsome => heq (Option.some.inj hsome)),
            Function.update_of_ne (Ne.symm heq)]
          exact h

/-- A plan leaves at a path what is shown there. -/
theorem written_plan (hosts : List (Option Text)) (c : Contents) (path : RepoPath) :
    written c (landing (plan req hosts)) path = shown req hosts c path := by
  have hfiles : landing ((req.files ++ req.extras.writes).map fun f => (f.rel, f.bytes)) =
      fileWrites req := List.filterMap_map
  rw [plan, landing_append, written_append, hfiles]
  exact written_viewSteps _ rfl

/-- Nothing but its file is shown at a path that hosts no view. -/
theorem shown_of_viewsAt_nil {path : RepoPath} (h : viewsAt req path = [])
    (hosts : List (Option Text)) (c : Contents) :
    shown req hosts c path = requestedAt k req c path := by
  have hnone : (req.views.zip hosts).foldl (shownAfter path) none = none := by
    have hall : ∀ p ∈ req.views.zip hosts, canonicalRel p.1.host ≠ some path := by
      intro p hp heq
      have hmem : p.1 ∈ viewsAt req path :=
        List.mem_filter.mpr ⟨(List.of_mem_zip hp).1, decide_eq_true heq⟩
      rw [h] at hmem
      exact List.not_mem_nil hmem
    generalize req.views.zip hosts = pairs at hall
    induction pairs with
    | nil => rfl
    | cons p pairs ih =>
      rw [List.foldl_cons, shownAfter, if_neg (hall p List.mem_cons_self)]
      exact ih fun p hp => hall p (List.mem_cons_of_mem _ hp)
  rw [shown, hnone, requestedAt, h]
  dsimp only [List.foldl_nil]
  cases (written c (fileWrites req) path).bind k.fromUtf8 with
  | none => rfl
  | some content => exact (if_pos rfl).symm

/-- The views that pass their checks, each with what was read for it. -/
theorem readViewHost_of_mem_zip {w : World Chain} {hosts : List (Option Text)}
    (h : checkAll k w req = .ok hosts) {p : ViewWrite × Option Text}
    (hp : p ∈ req.views.zip hosts) :
    readViewHost k w req.extras.writes p.1 = .ok p.2 := by
  obtain ⟨-, -, hviews⟩ := bind_ok_iff.mp h
  exact (List.forall₂_iff_zip.mp (mapM_eq_ok_iff.mp hviews)).2 hp

/-- The views of one host, each with what was read for it. -/
theorem map_fst_zip_filter {w : World Chain} {hosts : List (Option Text)}
    (h : checkAll k w req = .ok hosts) (path : RepoPath) :
    ((req.views.zip hosts).filter fun p => canonicalRel p.1.host = some path).map Prod.fst =
      viewsAt req path := by
  obtain ⟨-, -, hviews⟩ := bind_ok_iff.mp h
  have hlength := (List.forall₂_iff_zip.mp (mapM_eq_ok_iff.mp hviews)).1
  have hzip : (req.views.zip hosts).map Prod.fst = req.views :=
    List.map_fst_zip (Nat.le_of_eq hlength)
  rw [viewsAt, ← hzip, List.filter_map, hzip]
  rfl

/-- What is read of a document that is there, and that no companion document replaces. -/
theorem readViewHost_present {w : World Chain} {extras : List FileWrite} {v : ViewWrite}
    {host : Option Text} {path : RepoPath} (hhost : canonicalRel v.host = some path)
    (hdoc : (w.read path).isSome = true) (hextras : ∀ f ∈ extras, f.rel ≠ v.host)
    (h : readViewHost k w extras v = .ok host) :
    ∃ content, host = some content ∧ (w.read path).bind k.fromUtf8 = some content := by
  rw [readViewHost] at h
  cases hread : readIfUnprotected k w v.host with
  | some content =>
    rw [hread] at h
    cases h
    refine ⟨content, rfl, ?_⟩
    rw [readIfUnprotected, hhost, Option.bind_some] at hread
    obtain ⟨bytes, hbytes, hutf8⟩ := Option.bind_eq_some_iff.mp hread
    split_ifs at hutf8
    rw [hbytes, Option.bind_some]
    exact hutf8
  | none =>
    have hfind : (extras.find? fun f => f.rel = v.host) = none :=
      List.find?_eq_none.mpr fun f hf => by simpa using hextras f hf
    have hexists : «exists» k w v.host = true := by
      rw [«exists», hhost, Option.any_some, hdoc, Bool.true_or]
    rw [hread, hfind] at h
    dsimp only at h
    rw [if_pos hexists] at h
    cases h

theorem foldl_shownAfter (path : RepoPath) (pairs : List (ViewWrite × Option Text))
    (doc : Option Text) :
    pairs.foldl (shownAfter path) doc =
      (pairs.filter fun p => canonicalRel p.1.host = some path).foldl (shownAfter path) doc := by
  induction pairs generalizing doc with
  | nil => rfl
  | cons p pairs ih =>
    by_cases hpath : canonicalRel p.1.host = some path
    · rw [List.filter_cons_of_pos (by simpa using hpath), List.foldl_cons, List.foldl_cons]
      exact ih _
    · have hshown : shownAfter path doc p = doc := if_neg hpath
      rw [List.filter_cons_of_neg (by simpa using hpath), List.foldl_cons, hshown]
      exact ih doc

/-- **A view that is alone on a document that is there,** and that the call does not write, is shown
as requested. -/
theorem shown_of_alone {w : World Chain} {hosts : List (Option Text)}
    (h : checkAll k w req = .ok hosts) {path : RepoPath} {v : ViewWrite}
    (hv : viewsAt req path = [v]) (hdoc : (w.read path).isSome = true)
    (hfiles : ∀ f ∈ req.files ++ req.extras.writes, canonicalRel f.rel ≠ some path) :
    shown req hosts w.read path = requestedAt k req w.read path := by
  have hbase : written w.read (fileWrites req) path = w.read path := by
    refine written_of_notMem ?_ w.read
    rintro e he rfl
    obtain ⟨f, hf, heq⟩ := List.mem_filterMap.mp he
    obtain ⟨path, hpath, rfl⟩ := Option.map_eq_some_iff.mp heq
    exact hfiles f hf hpath
  have hmap := map_fst_zip_filter k req h path
  rw [hv] at hmap
  obtain ⟨p, hfilter, rfl⟩ := List.map_eq_singleton_iff.mp hmap
  have hmem : p ∈ (req.views.zip hosts).filter fun p => canonicalRel p.1.host = some path := by
    rw [hfilter]
    exact List.mem_singleton_self p
  obtain ⟨hzip, hhost⟩ := List.mem_filter.mp hmem
  have hhost : canonicalRel p.1.host = some path := of_decide_eq_true hhost
  have hextras : ∀ f ∈ req.extras.writes, f.rel ≠ p.1.host := by
    rintro f hf heq
    refine hfiles f (List.mem_append_right _ hf) ?_
    rw [heq]
    exact hhost
  obtain ⟨content, hcontent, hutf8⟩ :=
    readViewHost_present k hhost hdoc hextras (readViewHost_of_mem_zip k req h hzip)
  have hshown : shownAfter path none p = changed p.1 (some content) := by
    rw [shownAfter, if_pos hhost, Option.or_none, hcontent]
  rw [shown, requestedAt, foldl_shownAfter, hfilter, hv, hbase]
  dsimp only [List.foldl_cons, List.foldl_nil]
  rw [hshown, hutf8, changed, Option.bind_some, inTurn]
  dsimp only
  by_cases hsame : p.1.render content = content
  · rw [if_neg (not_not_intro hsame), if_pos (congrArg some hsame.symm)]
    rfl
  · rw [if_pos hsame, if_neg (fun heq => hsame (Option.some.inj heq).symm)]
    rfl

theorem mem_targets_of_viewsAt {path : RepoPath} (h : viewsAt req path ≠ []) :
    path ∈ targets req := by
  obtain ⟨v, hv⟩ := List.exists_mem_of_ne_nil _ h
  obtain ⟨hmem, hpath⟩ := List.mem_filter.mp hv
  refine List.mem_append_right _ (List.mem_filterMap.mpr ⟨v, hmem, ?_⟩)
  exact of_decide_eq_true hpath

end

/-! ### When a call is sound -/

section

variable {Chain : Type} (k : Keeper Chain) (req : Request) (w : World Chain)
  (hosts : List (Option Text))

/-- Each host shows what all its views make of the document staged there, one after another, or
the backlinks written afterwards make up for the difference. -/
def Agrees : Prop :=
  (∀ path, shown req hosts w.read path = requestedAt k req w.read path) ∨
    (req.extras.refreshBacklinks = true ∧ ∀ path ∈ targets req,
      withBacklinks k req (shown req hosts w.read) path = requested k req w.read path)

section

variable {k req w hosts}

theorem read_staged_eq :
    (staged k req w hosts).read = withBacklinks k req (shown req hosts w.read) := by
  rw [read_staged]
  congr 1
  funext path
  exact written_plan req hosts w.read path

/-- A host agrees exactly where the tree is the requested one. -/
theorem agrees_iff :
    Agrees k req w hosts ↔ ∀ path ∈ targets req,
      withBacklinks k req (shown req hosts w.read) path = requested k req w.read path := by
  constructor
  · rintro (hall | ⟨-, htargets⟩)
    · intro path _
      rw [requested, funext hall]
    · exact htargets
  · intro htargets
    by_cases hrefresh : req.extras.refreshBacklinks = true
    · exact .inr ⟨hrefresh, htargets⟩
    · left
      intro path
      by_cases hviews : viewsAt req path = []
      · exact shown_of_viewsAt_nil k req hviews hosts w.read
      · have htarget := htargets path (mem_targets_of_viewsAt req hviews)
        rwa [requested, withBacklinks, withBacklinks, if_neg hrefresh, if_neg hrefresh] at htarget

end

variable [DecidableEq Chain]

/-- The device takes part in the commit with the chain of the path. -/
def HasTurn (path : RepoPath) : Prop :=
  k.owner path = k.device ∨ k.holdsTurn (k.owner path) = true

/-- Some chain does not take the tree. -/
def refusesTree (w : World Chain) : Bool := (committing k w).any (k.refusesCommit · w.read)

/-- What a call that passes its checks needs: what was staged before a refusal changes nothing,
no chain was advanced before one that refuses, and otherwise all that is uncommitted is on one
chain, which is committed now, and each host agrees. -/
structure Sound : Prop where
  step : (¬ ∀ s ∈ plan req hosts, accepts k s.1 = true) →
    ∀ path, written w.read (landing (taken k (plan req hosts))) path = w.read path
  refusal : (∀ s ∈ plan req hosts, accepts k s.1 = true) →
    ((∃ e, Intent.new req.intentName req.payload = .error e) ∨
      refusesTree k (staged k req w hosts) = true) →
    ∀ path, withBacklinks k req (shown req hosts w.read) path = w.read path
  chains : (∀ s ∈ plan req hosts, accepts k s.1 = true) →
    (∃ intent, Intent.new req.intentName req.payload = .ok intent) →
    (advancing k (staged k req w hosts) (committing k (staged k req w hosts))).length ≤
      if refusesTree k (staged k req w hosts) then 0 else 1
  landing : (∀ s ∈ plan req hosts, accepts k s.1 = true) →
    (∃ intent, Intent.new req.intentName req.payload = .ok intent) →
    refusesTree k (staged k req w hosts) = false →
    (∀ path ∈ targets req, HasTurn k path ∨ w.tip path = requested k req w.read path) ∧
      Agrees k req w hosts

variable {k req w hosts}

/-- **A commit that goes through** holds everything requested exactly where the call is sound. -/
theorem landed_iff {w' : World Chain} {intent : Intent}
    (htakes : refusesTree k (staged k req w hosts) = false)
    (hw' : w' = (staged k req w hosts).advanceAll k intent
      (advancing k (staged k req w hosts) (committing k (staged k req w hosts)))) :
    Landed k req w w' ↔
      (advancing k (staged k req w hosts) (committing k (staged k req w hosts))).length ≤ 1 ∧
        (∀ path ∈ targets req, HasTurn k path ∨ w.tip path = requested k req w.read path) ∧
          Agrees k req w hosts := by
  have hread : w'.read = (staged k req w hosts).read := by
    rw [hw', World.read_advanceAll]
  have hmem := fun path => @mem_advancing _ _ k (staged k req w hosts) path htakes
  have htip : ∀ path, w'.tip path =
      if k.owner path ∈ advancing k (staged k req w hosts) (committing k (staged k req w hosts))
      then (staged k req w hosts).read path else w.tip path := by
    intro path
    rw [hw', World.tip_advanceAll, tip_staged]
  have hlog : w'.log = ((advancing k (staged k req w hosts)
      (committing k (staged k req w hosts))).map (·, intent)).reverse ++ w.log := by
    rw [hw', World.log_advanceAll, log_staged]
  rw [agrees_iff, ← read_staged_eq]
  rw [tip_staged] at hmem
  generalize advancing k (staged k req w hosts) (committing k (staged k req w hosts)) = advanced
    at hmem htip hlog ⊢
  generalize (staged k req w hosts).read = after at hread hmem htip ⊢
  constructor
  · intro hlanded
    refine ⟨?_, ?_, ?_⟩
    · have hlength := congrArg List.length hlog
      rw [List.length_append, List.length_reverse, List.length_map] at hlength
      rcases hlanded.commit with ⟨hsame, -⟩ | ⟨c, intent', hone⟩
      · rw [hsame] at hlength
        omega
      · rw [hone, List.length_cons] at hlength
        omega
    · intro path htarget
      by_cases hsame : after path = w.tip path
      · right
        rw [← hlanded.tree path htarget, hread, hsame]
      · by_cases hin : k.owner path ∈ advanced
        · exact .inl ((hmem path hsame).mp hin)
        · right
          rw [← hlanded.tip path htarget, htip, if_neg hin]
    · intro path htarget
      rw [← hread]
      exact hlanded.tree path htarget
  · rintro ⟨hlength, hturns, htargets⟩
    refine ⟨?_, ?_, ?_⟩
    · cases advanced with
      | nil =>
        left
        refine ⟨hlog, funext fun path => ?_⟩
        rw [htip, if_neg List.not_mem_nil]
      | cons c rest =>
        have hrest : rest = [] := by
          rw [List.length_cons] at hlength
          exact List.eq_nil_of_length_eq_zero (by omega)
        subst hrest
        exact .inr ⟨c, intent, hlog⟩
    · intro path htarget
      rw [htip, ← htargets path htarget]
      by_cases hin : k.owner path ∈ advanced
      · rw [if_pos hin]
      · rw [if_neg hin]
        by_contra hne
        have hne' : after path ≠ w.tip path := fun heq => hne heq.symm
        rcases hturns path htarget with hturn | htip'
        · exact hin ((hmem path hne').mpr hturn)
        · rw [← htargets path htarget] at htip'
          exact hne htip'
    · intro path htarget
      rw [hread]
      exact htargets path htarget

/-- A commit that is refused is undone exactly where there was nothing to undo. -/
theorem untouched_iff {w' : World Chain} {intent : Intent} {advanced : List Chain}
    (hw' : w' = (staged k req w hosts).advanceAll k intent advanced) :
    Untouched w w' ↔ (∀ path, withBacklinks k req (shown req hosts w.read) path = w.read path) ∧
      advanced = [] := by
  have hread : w'.read = withBacklinks k req (shown req hosts w.read) := by
    rw [hw', World.read_advanceAll, read_staged_eq]
  have hlog : w'.log = (advanced.map (·, intent)).reverse ++ w.log := by
    rw [hw', World.log_advanceAll, log_staged]
  constructor
  · intro huntouched
    refine ⟨fun path => ?_, ?_⟩
    · rw [← hread]
      exact huntouched.tree path
    · have hnil := huntouched.log
      rw [hlog, List.append_left_eq_self, List.reverse_eq_nil_iff, List.map_eq_nil_iff] at hnil
      exact hnil
  · rintro ⟨hsame, rfl⟩
    refine ⟨fun path => ?_, hlog⟩
    rw [hread]
    exact hsame path

theorem upheld_of_error {e : Refusal} {w' : World Chain} (h : apply k req w = (.error e, w')) :
    Upheld k req w ↔ Untouched w w' := by
  constructor
  · exact fun hupheld => hupheld _ _ h
  · rintro huntouched result w'' hresult
    rw [h] at hresult
    cases hresult
    exact huntouched

theorem upheld_of_ok {c : Chain} {w' : World Chain} (h : apply k req w = (.ok c, w')) :
    Upheld k req w ↔ Landed k req w w' := by
  constructor
  · exact fun hupheld => hupheld _ _ h
  · rintro hlanded result w'' hresult
    rw [h] at hresult
    cases hresult
    exact hlanded

/-! #### The ends of a call that passes its checks -/

theorem sound_iff_step (hsteps : ¬ ∀ s ∈ plan req hosts, accepts k s.1 = true) :
    Sound k req w hosts ↔
      ∀ path, written w.read (landing (taken k (plan req hosts))) path = w.read path := by
  constructor
  · exact fun hsound => hsound.step hsteps
  · intro hsame
    exact ⟨fun _ => hsame, fun hall => absurd hall hsteps, fun hall => absurd hall hsteps,
      fun hall => absurd hall hsteps⟩

theorem sound_iff_intent {e : Vcs.CoreError}
    (hsteps : ∀ s ∈ plan req hosts, accepts k s.1 = true)
    (hintent : Intent.new req.intentName req.payload = .error e) :
    Sound k req w hosts ↔
      ∀ path, withBacklinks k req (shown req hosts w.read) path = w.read path := by
  have hnone : ¬ ∃ intent, Intent.new req.intentName req.payload = .ok intent := by
    rintro ⟨intent, hok⟩
    rw [hintent] at hok
    cases hok
  constructor
  · exact fun hsound => hsound.refusal hsteps (.inl ⟨e, hintent⟩)
  · intro hsame
    exact ⟨fun hnot => absurd hsteps hnot, fun _ _ => hsame, fun _ hok => absurd hok hnone,
      fun _ hok => absurd hok hnone⟩

theorem sound_iff_refused {intent : Intent}
    (hsteps : ∀ s ∈ plan req hosts, accepts k s.1 = true)
    (hintent : Intent.new req.intentName req.payload = .ok intent)
    (hrefuses : refusesTree k (staged k req w hosts) = true) :
    Sound k req w hosts ↔
      (∀ path, withBacklinks k req (shown req hosts w.read) path = w.read path) ∧
        advancing k (staged k req w hosts) (committing k (staged k req w hosts)) = [] := by
  constructor
  · intro hsound
    have hlength := hsound.chains hsteps ⟨intent, hintent⟩
    rw [if_pos hrefuses] at hlength
    exact ⟨hsound.refusal hsteps (.inr hrefuses), List.eq_nil_of_length_eq_zero (by omega)⟩
  · rintro ⟨hsame, hnil⟩
    refine ⟨fun hnot => absurd hsteps hnot, fun _ _ => hsame, fun _ _ => ?_, fun _ _ htakes => ?_⟩
    · rw [hnil]
      exact Nat.zero_le _
    · rw [hrefuses] at htakes
      cases htakes

theorem sound_iff_committed {intent : Intent}
    (hsteps : ∀ s ∈ plan req hosts, accepts k s.1 = true)
    (hintent : Intent.new req.intentName req.payload = .ok intent)
    (htakes : refusesTree k (staged k req w hosts) = false) :
    Sound k req w hosts ↔
      (advancing k (staged k req w hosts) (committing k (staged k req w hosts))).length ≤ 1 ∧
        (∀ path ∈ targets req, HasTurn k path ∨ w.tip path = requested k req w.read path) ∧
          Agrees k req w hosts := by
  constructor
  · intro hsound
    have hlength := hsound.chains hsteps ⟨intent, hintent⟩
    rw [htakes, if_neg Bool.false_ne_true] at hlength
    exact ⟨hlength, hsound.landing hsteps ⟨intent, hintent⟩ htakes⟩
  · rintro ⟨hlength, hlanding⟩
    refine ⟨fun hnot => absurd hsteps hnot, fun _ hrefused => ?_, fun _ _ => ?_,
      fun _ _ _ => hlanding⟩
    · rcases hrefused with ⟨e, herror⟩ | hrefuses
      · rw [hintent] at herror
        cases herror
      · rw [htakes] at hrefuses
        cases hrefuses
    · rw [htakes, if_neg Bool.false_ne_true]
      exact hlength

/-- A call that passes its checks is upheld exactly where it is sound. -/
theorem apply_iff_sound (hunlocked : k.unlocked = true) (hcheck : checkAll k w req = .ok hosts) :
    Upheld k req w ↔ Sound k req w hosts := by
  by_cases hsteps : ∀ s ∈ plan req hosts, accepts k s.1 = true
  · cases hintent : Intent.new req.intentName req.payload with
    | error e =>
      rw [upheld_of_error (apply_intent hunlocked hcheck hsteps hintent),
        sound_iff_intent hsteps hintent]
      constructor
      · intro huntouched path
        rw [← read_staged_eq]
        exact huntouched.tree path
      · intro hsame
        refine ⟨fun path => ?_, log_staged k req w hosts⟩
        rw [read_staged_eq]
        exact hsame path
    | ok intent =>
      have happly := apply_commit hunlocked hcheck hsteps hintent
      cases hrefuses : refusesTree k (staged k req w hosts) with
      | true =>
        rw [commitNow_refused k intent hrefuses] at happly
        rw [upheld_of_error happly, sound_iff_refused hsteps hintent hrefuses]
        exact untouched_iff rfl
      | false =>
        rw [commitNow_ok k intent hrefuses] at happly
        rw [upheld_of_ok happly, sound_iff_committed hsteps hintent hrefuses]
        exact landed_iff hrefuses rfl
  · obtain ⟨e, happly⟩ := apply_step hunlocked hcheck hsteps
    rw [upheld_of_error happly, sound_iff_step hsteps]
    constructor
    · intro huntouched path
      rw [← World.read_stageAll]
      exact huntouched.tree path
    · intro hsame
      refine ⟨fun path => ?_, World.log_stageAll _ _⟩
      rw [World.read_stageAll]
      exact hsame path

end

/-! ### Two views on one host -/

section

/-- A call that succeeds leaves what was requested in the tree. -/
theorem Upheld.read_eq {Chain : Type} [DecidableEq Chain] {k : Keeper Chain} {req : Request}
    {w : World Chain} (h : Upheld k req w) (hok : (apply k req w).1.toBool = true)
    {path : RepoPath} (hpath : path ∈ targets req) :
    (apply k req w).2.read path = requested k req w.read path := by
  rcases happly : apply k req w with ⟨e | c, w'⟩
  · rw [happly] at hok
    cases hok
  · exact (h _ _ happly).tree path hpath

/-- A garden of one device chain, with nothing sealed, read as plain characters. -/
def soloKeeper : Keeper Unit where
  unlocked := true
  unkeyed _ := false
  takes _ := true
  isDir _ := false
  digest _ := ""
  vaulted _ _ := false
  fromUtf8 bytes :=
    if bytes.all (· < 128) then some (bytes.map fun b => Char.ofNat b.toNat) else none
  backlogClaudeStub := []
  refreshAll _ := []
  device := ()
  shared := []
  owner _ := ()
  holdsTurn _ := false
  refusesCommit _ _ := false
  owned _ := List.mem_singleton_self ()
  distinct := List.nodup_singleton ()

/-- A milestone document with nothing rendered in it. -/
def milestoneDoc : RepoPath := [⟨"m", by decide⟩, ⟨"CLAUDE.md", by decide⟩]

def milestoneWorld : World Unit where
  tip path := if path = milestoneDoc then some (asBytes "# m\n".toList) else none
  overlay := []
  log := []

/-- Two regions of one document. -/
def twoViews : Request where
  intentName := "queue_v2_updated"
  payload := .obj .nil
  files := []
  views := [⟨"m/CLAUDE.md", "queue-v2".toList, some "a".toList⟩,
    ⟨"m/CLAUDE.md", "slices-v2".toList, some "b".toList⟩]
  extras := ⟨[], false⟩

theorem twoViews_succeeds : (apply soloKeeper twoViews milestoneWorld).1.toBool = true := by
  decide +kernel

theorem twoViews_target : milestoneDoc ∈ targets twoViews := by decide +kernel

theorem twoViews_length :
    ((apply soloKeeper twoViews milestoneWorld).2.read milestoneDoc).map List.length ≠
      (requested soloKeeper twoViews milestoneWorld.read milestoneDoc).map List.length := by
  decide +kernel

end

end Softfig.Growlight.V2
