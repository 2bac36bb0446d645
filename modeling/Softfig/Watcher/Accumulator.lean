import Mathlib.Data.List.Dedup
import Mathlib.Data.List.Induction
import Mathlib.Data.List.Sort
import Softfig.Vcs.Path

/-!
The dirty set: what sources push, what a flush takes, and what a failed commit puts back.

A buffer holds changes by kind. A rename into the archive is held whole, any other rename as the
removal and the creation that it is. The dirty set of a flush is sorted, and a path both created
and modified is only created in it.

- `Buffer.keeps_record`: a buffer holds what was recorded, and still holds what it held;
- `Buffer.keeps_intoDirtySet`: a flush takes all a buffer holds;
- `DirtySet.Keeps.requeue`: what is put back for a path is held again, with its kind;
- `DirtySet.not_keeps_of_isDropped`: only an empty dirty set is dropped as an edit of no files.
-/

namespace Softfig.Watcher

open Softfig.Vcs (Path)

/-! ### Changes -/

/-- A change reported by a source, with paths relative to the garden. -/
inductive DirtyEvent where
  | created (path : String)
  | modified (path : String)
  | removed (path : String)
  | renamed (source target : String)
  deriving DecidableEq

def isArchived (target : String) : Bool :=
  "journal/archive/".toList.isPrefixOf target.toList

/-- A rename into the archive. -/
structure ArchiveMove where
  source : String
  target : String
  archived : isArchived target = true
  deriving DecidableEq

/-- One change as a buffer holds it. -/
inductive Change where
  | created (path : String)
  | modified (path : String)
  | removed (path : String)
  | archived (move : ArchiveMove)

/-- The ends of a change. -/
def Change.ends : Change → List String
  | .created path => [path]
  | .modified path => [path]
  | .removed path => [path]
  | .archived move => [move.source, move.target]

/-- The changes that an event is. -/
def DirtyEvent.changes : DirtyEvent → List Change
  | .created path => [.created path]
  | .modified path => [.modified path]
  | .removed path => [.removed path]
  | .renamed source target =>
    if h : isArchived target then [.archived ⟨source, target, h⟩]
    else [.removed source, .created target]

/-! ### The buffer -/

/-- The buffered changes; each list but the last stands for a set. -/
structure Buffer where
  created : List String
  modified : List String
  removed : List String
  renamedToArchive : List ArchiveMove

namespace Buffer

def empty : Buffer := ⟨[], [], [], []⟩

def isEmpty (b : Buffer) : Bool :=
  b.created.isEmpty && b.modified.isEmpty && b.removed.isEmpty && b.renamedToArchive.isEmpty

/-- File an event under its kind. -/
def record (b : Buffer) : DirtyEvent → Buffer
  | .created path => { b with created := b.created.insert path }
  | .modified path => { b with modified := b.modified.insert path }
  | .removed path => { b with removed := b.removed.insert path }
  | .renamed source target =>
    if h : isArchived target then
      { b with renamedToArchive := b.renamedToArchive ++ [⟨source, target, h⟩] }
    else { b with removed := b.removed.insert source, created := b.created.insert target }

/-- The buffer holds the change with its kind; a created path stands for its modification. -/
def Keeps (b : Buffer) : Change → Prop
  | .created path => path ∈ b.created
  | .modified path => path ∈ b.modified ∨ path ∈ b.created
  | .removed path => path ∈ b.removed
  | .archived move => move ∈ b.renamedToArchive

instance (b : Buffer) : (c : Change) → Decidable (b.Keeps c)
  | .created path => inferInstanceAs (Decidable (path ∈ b.created))
  | .modified path => inferInstanceAs (Decidable (path ∈ b.modified ∨ path ∈ b.created))
  | .removed path => inferInstanceAs (Decidable (path ∈ b.removed))
  | .archived move => inferInstanceAs (Decidable (move ∈ b.renamedToArchive))

end Buffer

/-- What is left of an event where the filter accepts only some of its paths. -/
def survivor (accepts : String → Bool) : DirtyEvent → Option DirtyEvent
  | .created path => if accepts path then some (.created path) else none
  | .modified path => if accepts path then some (.modified path) else none
  | .removed path => if accepts path then some (.removed path) else none
  | .renamed source target =>
    match accepts source, accepts target with
    | false, false => none
    | true, true => some (.renamed source target)
    | true, false => some (.modified source)
    | false, true => some (.modified target)

/-! ### The dirty set of a flush -/

structure DirtySet where
  created : List String
  modified : List String
  removed : List String
  renamedToArchive : List ArchiveMove

def sorted (paths : List String) : List String := paths.insertionSort (· ≤ ·)

def Buffer.intoDirtySet (b : Buffer) : DirtySet where
  created := sorted b.created
  modified := sorted (b.modified.filter (· ∉ b.created))
  removed := sorted b.removed
  renamedToArchive := b.renamedToArchive

namespace DirtySet

def isEmpty (d : DirtySet) : Bool :=
  d.created.isEmpty && d.modified.isEmpty && d.removed.isEmpty && d.renamedToArchive.isEmpty

def allPaths (d : DirtySet) : List String :=
  (sorted (d.created ++ d.modified ++ d.removed ++ d.renamedToArchive.map (·.target))).dedup

def Keeps (d : DirtySet) : Change → Prop
  | .created path => path ∈ d.created
  | .modified path => path ∈ d.modified ∨ path ∈ d.created
  | .removed path => path ∈ d.removed
  | .archived move => move ∈ d.renamedToArchive

instance (d : DirtySet) : (c : Change) → Decidable (d.Keeps c)
  | .created path => inferInstanceAs (Decidable (path ∈ d.created))
  | .modified path => inferInstanceAs (Decidable (path ∈ d.modified ∨ path ∈ d.created))
  | .removed path => inferInstanceAs (Decidable (path ∈ d.removed))
  | .archived move => inferInstanceAs (Decidable (move ∈ d.renamedToArchive))

end DirtySet

/-- The commit intent of a dirty set. -/
inductive Classified where
  | decisionLogged (slug : String)
  | incidentLogged (slug : String)
  | archiveMove (moves : List ArchiveMove)
  | manualEdit (files : List String)

def stripPrefix? (text start : List Char) : Option (List Char) :=
  if start <+: text then some (text.drop start.length) else none

def stripSuffix? (text tail : List Char) : Option (List Char) :=
  if tail <:+ text then some (text.take (text.length - tail.length)) else none

def decisionSlugFrom (rel : String) : Option String :=
  match (Path.parse rel).names with
  | ["journal", "decisions", name] => do
    let stem ← stripSuffix? name.toList ".md".toList
    let slug ← stripPrefix? stem "decision-".toList
    if slug = [] then none else some (String.ofList slug)
  | _ => none

def incidentSlugFrom (rel : String) : Option String :=
  match (Path.parse rel).names with
  | ["journal", "incidents", name] => do
    let stem ← stripSuffix? name.toList ".md".toList
    if "incident-".toList <+: stem then some (String.ofList stem) else none
  | _ => none

/-- The intent of a single created file. -/
def classifyCreated (path : String) : Option Classified :=
  (decisionSlugFrom path).map .decisionLogged <|> (incidentSlugFrom path).map .incidentLogged

def classify (d : DirtySet) : Classified :=
  let typed :=
    match d.created, d.modified, d.removed, d.renamedToArchive with
    | [path], [], [], [] => classifyCreated path
    | [], [], [], _ :: _ => some (.archiveMove d.renamedToArchive)
    | _, _, _, _ => none
  typed.getD (.manualEdit d.allPaths)

def Classified.isManualEdit : Classified → Bool
  | .manualEdit _ => true
  | _ => false

/-- An edit of no files is dropped. -/
def Classified.isDropped : Classified → Bool
  | .manualEdit files => files.isEmpty
  | _ => false

/-- The events of a dirty set to put back: those with a path that `retain` selects. -/
def requeueEvents (d : DirtySet) (retain : String → Bool) : List DirtyEvent :=
  (d.created.filter retain).map .created ++
    (d.modified.filter retain).map .modified ++
    (d.removed.filter retain).map .removed ++
    (d.renamedToArchive.filter fun move => retain move.target || retain move.source).map
      fun move => .renamed move.source move.target

/-- Put events back into the buffer. -/
def Buffer.requeue (b : Buffer) (events : List DirtyEvent) : Buffer := events.foldl Buffer.record b

/-! ### The retry schedule -/

def retryBaseMs : Nat := 500
def retryMaxMs : Nat := 30000
def retryMaxShift : Nat := 6

def backoffDelay (consecutive : Nat) : Nat :=
  min (retryBaseMs <<< min consecutive retryMaxShift) retryMaxMs

structure RetrySchedule where
  dueAt : Option Nat
  consecutive : Nat

namespace RetrySchedule

def arm (r : RetrySchedule) (now : Nat) : RetrySchedule :=
  ⟨some (now + backoffDelay r.consecutive), min (r.consecutive + 1) (2 ^ 32 - 1)⟩

def clear : RetrySchedule := ⟨none, 0⟩

/-- Whether a deadline has passed; it is consumed then. -/
def due (r : RetrySchedule) (now : Nat) : Bool × RetrySchedule :=
  match r.dueAt with
  | some at_ => if at_ ≤ now then (true, { r with dueAt := none }) else (false, r)
  | none => (false, r)

end RetrySchedule

/-! ### What a buffer holds -/

namespace Buffer

variable {b : Buffer} {c : Change} {event : DirtyEvent}

@[simp] theorem not_keeps_empty : ¬ empty.Keeps c := by
  cases c <;> simp [empty, Keeps]

theorem not_keeps_of_isEmpty (h : b.isEmpty = true) : ¬ b.Keeps c := by
  simp only [isEmpty, Bool.and_eq_true, List.isEmpty_iff] at h
  obtain ⟨⟨⟨hc, hm⟩, hr⟩, ha⟩ := h
  cases c <;> simp [Keeps, hc, hm, hr, ha]

/-- What was recorded is held. -/
theorem keeps_record (h : c ∈ event.changes) : (b.record event).Keeps c := by
  cases event with
  | renamed source target =>
    simp only [DirtyEvent.changes] at h
    simp only [record]
    split_ifs at h ⊢ with harchived
    · cases List.mem_singleton.mp h
      exact List.mem_append_right _ (List.mem_singleton_self _)
    · rcases List.mem_cons.mp h with rfl | h
      · exact List.mem_insert_self
      · cases List.mem_singleton.mp h
        exact List.mem_insert_self
  | _ =>
    cases List.mem_singleton.mp h
    simp [record, Keeps]

theorem Keeps.record (h : b.Keeps c) (event : DirtyEvent) : (b.record event).Keeps c := by
  cases event with
  | renamed source target =>
    simp only [Buffer.record]
    split_ifs with harchived
    · cases c with
      | archived move => exact List.mem_append_left _ h
      | _ => exact h
    · cases c with
      | created path => exact List.mem_insert_of_mem h
      | modified path => exact h.imp_right List.mem_insert_of_mem
      | removed path => exact List.mem_insert_of_mem h
      | archived move => exact h
  | created path =>
    cases c with
    | created path => exact List.mem_insert_of_mem h
    | modified path => exact h.imp_right List.mem_insert_of_mem
    | _ => exact h
  | modified path =>
    cases c with
    | modified path => exact h.imp_left List.mem_insert_of_mem
    | _ => exact h
  | removed path =>
    cases c with
    | removed path => exact List.mem_insert_of_mem h
    | _ => exact h

/-- What a buffer holds after recording was held before, or was recorded. -/
theorem Keeps.of_record (h : (b.record event).Keeps c) :
    b.Keeps c ∨ ∃ made ∈ event.changes, ∀ other : Buffer, other.Keeps made → other.Keeps c := by
  have hmade : ∀ made, made ∈ event.changes → made = c →
      ∃ made ∈ event.changes, ∀ other : Buffer, other.Keeps made → other.Keeps c :=
    fun made hmem heq => ⟨made, hmem, fun _ hother => heq ▸ hother⟩
  have hstands : ∀ path, .created path ∈ event.changes → c = .modified path →
      ∃ made ∈ event.changes, ∀ other : Buffer, other.Keeps made → other.Keeps c :=
    fun path hmem heq => ⟨_, hmem, fun _ hother => heq ▸ .inr hother⟩
  have hcreated : ∀ path target, .created target ∈ event.changes → path ∈ b.created.insert target →
      c = .created path ∨ c = .modified path → path ∈ b.created ∨
        ∃ made ∈ event.changes, ∀ other : Buffer, other.Keeps made → other.Keeps c := by
    intro path target hmem hpath hc
    rcases List.mem_insert_iff.mp hpath with rfl | hold
    · rcases hc with hc | hc
      · exact .inr (hmade _ hmem hc.symm)
      · exact .inr (hstands _ hmem hc)
    · exact .inl hold
  have hremoved : ∀ path source, .removed source ∈ event.changes → path ∈ b.removed.insert source →
      c = .removed path → path ∈ b.removed ∨
        ∃ made ∈ event.changes, ∀ other : Buffer, other.Keeps made → other.Keeps c := by
    intro path source hmem hpath hc
    rcases List.mem_insert_iff.mp hpath with rfl | hold
    · exact .inr (hmade _ hmem hc.symm)
    · exact .inl hold
  cases event with
  | created target =>
    cases c with
    | created path => exact hcreated path target (List.mem_singleton_self _) h (.inl rfl)
    | modified path =>
      rcases h with h | h
      · exact .inl (.inl h)
      · exact (hcreated path target (List.mem_singleton_self _) h (.inr rfl)).imp_left .inr
    | _ => exact .inl h
  | modified target =>
    cases c with
    | modified path =>
      rcases h with h | h
      · rcases List.mem_insert_iff.mp h with rfl | hold
        · exact .inr (hmade _ (List.mem_singleton_self _) rfl)
        · exact .inl (.inl hold)
      · exact .inl (.inr h)
    | _ => exact .inl h
  | removed source =>
    cases c with
    | removed path => exact hremoved path source (List.mem_singleton_self _) h rfl
    | _ => exact .inl h
  | renamed source target =>
    simp only [Buffer.record] at h
    split_ifs at h with harchived
    · cases c with
      | archived move =>
        rcases List.mem_append.mp h with hold | hnew
        · exact .inl hold
        · cases List.mem_singleton.mp hnew
          exact .inr (hmade _ (by simp [DirtyEvent.changes, harchived]) rfl)
      | _ => exact .inl h
    · have hsource : .removed source ∈ (DirtyEvent.renamed source target).changes := by
        simp [DirtyEvent.changes, harchived]
      have htarget : .created target ∈ (DirtyEvent.renamed source target).changes := by
        simp [DirtyEvent.changes, harchived]
      cases c with
      | created path => exact hcreated path target htarget h (.inl rfl)
      | modified path =>
        rcases h with h | h
        · exact .inl (.inl h)
        · exact (hcreated path target htarget h (.inr rfl)).imp_left .inr
      | removed path => exact hremoved path source hsource h rfl
      | archived move => exact .inl h

theorem Keeps.requeue (h : b.Keeps c) (events : List DirtyEvent) :
    (b.requeue events).Keeps c := by
  induction events generalizing b with
  | nil => exact h
  | cons event events ih => exact ih (h.record event)

theorem keeps_requeue {events : List DirtyEvent} (hevent : event ∈ events)
    (h : c ∈ event.changes) : (b.requeue events).Keeps c := by
  induction events generalizing b with
  | nil => cases hevent
  | cons first events ih =>
    rcases List.mem_cons.mp hevent with rfl | hrest
    · exact (keeps_record h).requeue events
    · exact ih hrest

/-- What is put back into a buffer is put back into any other. -/
theorem Keeps.requeue_of_empty {events : List DirtyEvent}
    (h : (empty.requeue events).Keeps c) (b : Buffer) : (b.requeue events).Keeps c := by
  induction events using List.reverseRecOn with
  | nil => exact (not_keeps_empty h).elim
  | append_singleton events last ih =>
    simp only [Buffer.requeue, List.foldl_append, List.foldl_cons, List.foldl_nil] at h ih ⊢
    rcases h.of_record with hbefore | ⟨made, hmem, hstands⟩
    · exact (ih hbefore).record last
    · exact hstands _ (keeps_record hmem)

theorem mem_sorted {path : String} {paths : List String} :
    path ∈ sorted paths ↔ path ∈ paths :=
  List.mem_insertionSort _

/-- **A flush takes all a buffer holds.** -/
theorem keeps_intoDirtySet (h : b.Keeps c) : b.intoDirtySet.Keeps c := by
  cases c with
  | created path => exact mem_sorted.mpr h
  | modified path =>
    by_cases hcreated : path ∈ b.created
    · exact .inr (mem_sorted.mpr hcreated)
    · have hmodified : path ∈ b.modified := h.resolve_right hcreated
      exact .inl (mem_sorted.mpr (List.mem_filter.mpr ⟨hmodified, by simpa using hcreated⟩))
  | removed path => exact mem_sorted.mpr h
  | archived move => exact h

end Buffer

/-! ### What a dirty set holds -/

namespace DirtySet

variable {d : DirtySet} {c : Change}

theorem not_keeps_of_isEmpty (h : d.isEmpty = true) : ¬ d.Keeps c := by
  simp only [isEmpty, Bool.and_eq_true, List.isEmpty_iff] at h
  obtain ⟨⟨⟨hc, hm⟩, hr⟩, ha⟩ := h
  cases c <;> simp [Keeps, hc, hm, hr, ha]

theorem mem_allPaths {path : String} :
    path ∈ d.allPaths ↔ path ∈ d.created ∨ path ∈ d.modified ∨ path ∈ d.removed ∨
      ∃ move ∈ d.renamedToArchive, move.target = path := by
  simp [allPaths, Buffer.mem_sorted]

/-- The paths of a dirty set have every end of a change but the source of an archive move. -/
theorem Keeps.mem_allPaths (h : d.Keeps c) {path : String} (hpath : path ∈ c.ends) :
    path ∈ d.allPaths ∨ ∃ move ∈ d.renamedToArchive, move.source = path := by
  rw [DirtySet.mem_allPaths]
  cases c with
  | created p =>
    cases List.mem_singleton.mp hpath
    exact .inl (.inl h)
  | modified p =>
    cases List.mem_singleton.mp hpath
    exact .inl (h.elim (fun h => .inr (.inl h)) .inl)
  | removed p =>
    cases List.mem_singleton.mp hpath
    exact .inl (.inr (.inr (.inl h)))
  | archived move =>
    rcases List.mem_cons.mp hpath with rfl | hpath
    · exact .inr ⟨move, h, rfl⟩
    · cases List.mem_singleton.mp hpath
      exact .inl (.inr (.inr (.inr ⟨move, h, rfl⟩)))

/-- **What is put back for a path is held again**, under its kind. -/
theorem Keeps.requeue (h : d.Keeps c) {path : String} (hpath : path ∈ c.ends)
    {retain : String → Bool} (hretain : retain path = true) (b : Buffer) :
    (b.requeue (requeueEvents d retain)).Keeps c := by
  have hcreated : path ∈ d.created →
      (b.requeue (requeueEvents d retain)).Keeps (.created path) := by
    intro hmem
    refine @Buffer.keeps_requeue _ _ (.created path) _ ?_ (List.mem_singleton_self _)
    simp [requeueEvents, hmem, hretain]
  cases c with
  | created p =>
    cases List.mem_singleton.mp hpath
    exact hcreated h
  | modified p =>
    cases List.mem_singleton.mp hpath
    rcases h with hmem | hmem
    · refine @Buffer.keeps_requeue _ _ (.modified path) _ ?_ (List.mem_singleton_self _)
      simp [requeueEvents, hmem, hretain]
    · exact .inr (hcreated hmem)
  | removed p =>
    cases List.mem_singleton.mp hpath
    have hmem : path ∈ d.removed := h
    refine @Buffer.keeps_requeue _ _ (.removed path) _ ?_ (List.mem_singleton_self _)
    simp [requeueEvents, hmem, hretain]
  | archived move =>
    have hselected : (retain move.target || retain move.source) = true := by
      rcases List.mem_cons.mp hpath with rfl | hpath
      · simp [hretain]
      · cases List.mem_singleton.mp hpath
        simp [hretain]
    refine @Buffer.keeps_requeue _ _ (.renamed move.source move.target) _ ?_ ?_
    · refine List.mem_append_right _ (List.mem_map.mpr ⟨move, ?_, rfl⟩)
      exact List.mem_filter.mpr ⟨h, hselected⟩
    · simp [DirtyEvent.changes, move.archived]

/-- What is put back where everything is selected. -/
theorem Keeps.requeue_all (h : d.Keeps c) (b : Buffer) :
    (b.requeue (requeueEvents d fun _ => true)).Keeps c := by
  have hend : ∃ path, path ∈ c.ends := by
    cases c <;> exact ⟨_, List.mem_cons_self⟩
  obtain ⟨path, hpath⟩ := hend
  exact h.requeue hpath rfl b

/-- A dirty set classifies as a typed intent, or as an edit of all its paths. -/
theorem classify_cases (d : DirtySet) :
    classify d = .manualEdit d.allPaths ∨ (classify d).isManualEdit = false := by
  have hcreated : ∀ path result, classifyCreated path = some result →
      result.isManualEdit = false := by
    intro path result h
    unfold classifyCreated at h
    cases hdecision : decisionSlugFrom path with
    | some slug =>
      rw [hdecision] at h
      cases h
      rfl
    | none =>
      cases hincident : incidentSlugFrom path with
      | some slug =>
        rw [hdecision, hincident] at h
        cases h
        rfl
      | none =>
        rw [hdecision, hincident] at h
        cases h
  unfold classify
  dsimp only
  split
  · rename_i path _ _ _ _
    cases h : classifyCreated path with
    | none => exact .inl rfl
    | some result => exact .inr (hcreated _ _ h)
  · exact .inr rfl
  · exact .inl rfl

/-- **Only an empty dirty set is dropped** as an edit of no files. -/
theorem not_keeps_of_isDropped (h : (classify d).isDropped = true) : ¬ d.Keeps c := by
  have hpaths : d.allPaths = [] := by
    rcases classify_cases d with hedit | htyped
    · rw [hedit] at h
      exact List.isEmpty_iff.mp h
    · exfalso
      cases hc : classify d with
      | manualEdit files =>
        rw [hc] at htyped
        cases htyped
      | _ =>
        rw [hc] at h
        cases h
  have hnone : ∀ path, path ∉ d.allPaths := fun path => hpaths ▸ List.not_mem_nil
  intro hkeeps
  cases c with
  | archived move => exact hnone _ (mem_allPaths.mpr (.inr (.inr (.inr ⟨move, hkeeps, rfl⟩))))
  | created path => exact hnone path (mem_allPaths.mpr (.inl hkeeps))
  | modified path =>
    exact hnone path (mem_allPaths.mpr (hkeeps.elim (fun h => .inr (.inl h)) .inl))
  | removed path => exact hnone path (mem_allPaths.mpr (.inr (.inr (.inl hkeeps))))

end DirtySet

end Softfig.Watcher
