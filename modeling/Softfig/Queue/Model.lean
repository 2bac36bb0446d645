import Mathlib.Data.List.Basic

/-!
The three files that hold the backlog: the live list, the archive of the rows
that left it, and the slice order of a milestone. File order is list order.
-/

namespace Softfig.Queue

/-- A project: a name bound to a repo and the branch merges land on. -/
structure Project where
  name : String
  repo : String
  main : String
  deriving DecidableEq

inductive EntryKind where
  | milestone
  | task
  | restack
  deriving DecidableEq

inductive Lane where
  | urgent
  | normal
  deriving DecidableEq

inductive EntryStatus where
  | queued
  | active
  | paused
  | blocked
  | deferred
  deriving DecidableEq

/-- The status holds the repo of a normal row. -/
def EntryStatus.isStarted : EntryStatus → Bool
  | .active | .paused => true
  | .queued | .blocked | .deferred => false

/-- One live row. `parent`, `base` and `claimed` are set by the first claim;
`pending_status` is a human status change waiting for the daemon. -/
structure Entry where
  id : String
  kind : EntryKind
  title : String
  project : String
  lane : Lane
  status : EntryStatus
  after : List String
  added : String
  branch : String
  parent : String
  base : String
  claimed : String
  followUps : Nat
  pendingStatus : Option EntryStatus
  deriving DecidableEq

inductive FinalStatus where
  | done
  | dropped
  deriving DecidableEq

/-- A row that left the list. -/
structure ArchivedEntry where
  row : Entry
  finished : String
  finalStatus : FinalStatus
  reason : Option String
  deriving DecidableEq

/-- `growlight/backlog/queue.toml`. -/
structure QueueToml where
  projects : List Project
  entries : List Entry
  deriving DecidableEq

/-- `growlight/backlog/queue-archive.toml`. -/
structure QueueArchiveToml where
  entries : List ArchivedEntry
  deriving DecidableEq

inductive SliceKind where
  | slice
  | sub
  deriving DecidableEq

inductive SliceStatus where
  | queued
  | active
  | done
  | split
  | blocked
  | deferred
  deriving DecidableEq

structure SliceItem where
  kind : SliceKind
  id : String
  status : SliceStatus
  followUps : Option Nat
  deriving DecidableEq

/-- A milestone's `slices.toml`; a sub-milestone is named `<parent>/<sub>`. -/
structure SlicesToml where
  milestone : String
  items : List SliceItem
  deriving DecidableEq

/-- The rows of an archive that satisfy links. -/
def QueueArchiveToml.doneIds (archive : QueueArchiveToml) : List String :=
  (archive.entries.filter fun a => a.finalStatus = .done).map (·.row.id)

/-- Every id the two files know, live rows first. -/
def QueueToml.allIds (queue : QueueToml) (archive : QueueArchiveToml) : List String :=
  queue.entries.map (·.id) ++ archive.entries.map (·.row.id)

end Softfig.Queue
