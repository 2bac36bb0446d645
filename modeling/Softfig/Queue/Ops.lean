import Softfig.Lib.Transition
import Softfig.Queue.Verbs

/-!
The daemon's writes on the queue: claims, status changes, follow-up counts and
sub-milestones. An entry is addressed by a milestone identity, whose first
component names its row.
-/

namespace Softfig.Queue

open Lib

/-- The row of an identity. -/
def rowIdOf (entry : String) : String := String.ofList (entry.toList.takeWhile (· ≠ '/'))

/-- Load the files and the row an operation addresses. -/
def Garden.loadEntryRow (g : Garden) (entry : String) :
    Except WireError (QueueToml × QueueArchiveToml × Entry) := do
  let loaded ← g.loadQueueState
  let (queue, archive) ← expect (.refused (.unknownId (rowIdOf entry))) loaded
  let row ← expect (.refused (.unknownId (rowIdOf entry)))
    (Rows.row? (·.id) (rowIdOf entry) queue.entries)
  .ok (queue, archive, row)

/-- Load a slice order that must be there. -/
def Garden.loadSlicesOf (g : Garden) (milestone : String) : Except WireError SlicesToml := do
  let loaded ← g.loadSlices milestone
  expect (.refused (.unknownId milestone)) loaded

/-- The checks of an operation's address. -/
def ensureAddress (entry : String) (unit : Option String) : Except WireError Unit := do
  ensure (isBlank entry = false) (.badArgs (.empty "entry"))
  ensure (unit.all (fun u => !isBlank u) = true) (.badArgs (.empty "unit"))

/-! ### queue_v2_claim -/

/-- A queued or paused row becomes active; an active one is claimed again. -/
def claimEntry (row : Entry) (entries : List Entry) : Except WireError (List Entry) :=
  match row.status with
  | .queued | .paused =>
    .ok (Rows.modify (·.id) row.id (fun e => { e with status := .active }) entries)
  | .active => .ok entries
  | .blocked | .deferred => .error (.badArgs (.entryNotClaimable row.id row.status))

/-- A queued item becomes active, an active one is claimed again, unless another
item is active. -/
def claimItem (unit : String) (items : List SliceItem) : Except WireError (List SliceItem) := do
  let item ← expect (.refused (.unknownId unit)) (Rows.row? (·.id) unit items)
  match items.find? fun other => other.id ≠ unit ∧ other.status = .active with
  | some other => .error (.refused (.started other.id))
  | none =>
    match item.status with
    | .queued => .ok (Rows.modify (·.id) unit (fun i => { i with status := .active }) items)
    | .active => .ok items
    | status => .error (.badArgs (.sliceNotClaimable unit status))

/-- Claim the unit of a milestone, if one is named. -/
def claimUnit (g : Garden) (entry : String) (kind : EntryKind) :
    Option String → Except WireError Garden
  | none => .ok g
  | some unit => do
    ensure (kind = .milestone) (.badArgs (.onlyMilestonesHaveSlices entry kind))
    let slices ← g.loadSlicesOf entry
    let items ← claimItem unit slices.items
    .ok (g.writeSlices entry { slices with items })

def queueV2Claim (g : Garden) (entry : String) (unit : Option String) :
    Except WireError Garden := do
  ensureAddress entry unit
  let (queue, archive, row) ← g.loadEntryRow entry
  let entries ← claimEntry row queue.entries
  let g ← claimUnit g entry row.kind unit
  refuse (QueueToml.validate { queue with entries } archive)
  .ok (g.writeQueue { queue with entries } none)

/-! ### queue_v2_set_status -/

def entryStatusOf : DaemonStatusArg → Option EntryStatus
  | .paused => some .paused
  | .blocked => some .blocked
  | .deferred => some .deferred
  | .queued => some .queued
  | .done | .split => none

def sliceStatusOf : DaemonStatusArg → Option SliceStatus
  | .done => some .done
  | .split => some .split
  | .blocked => some .blocked
  | .deferred => some .deferred
  | .queued => some .queued
  | .paused => none

/-- Nothing is left to do on an item. -/
def SliceStatus.isClosed : SliceStatus → Bool
  | .done | .split | .deferred => true
  | .queued | .active | .blocked => false

/-- An open sub-milestone closes to done or deferred, once its own order has
nothing open. -/
def checkSubClose (g : Garden) (parent sub : String) (status new : SliceStatus) :
    Except WireError Unit := do
  ensure (new = .done ∨ new = .deferred) (.badArgs (.subClosesOnly sub new))
  ensure (status = .queued ∨ status = .active) (.badArgs (.subNotOpen sub status))
  let identity := parent ++ "/" ++ sub
  let tree ← g.loadSlicesOf identity
  let openIds := (tree.items.filter fun i => !i.status.isClosed).map (·.id)
  ensure (openIds = []) (.badArgs (.openItems identity openIds))

/-- What an item must be for the daemon to set its status. -/
def checkUnitStatus (g : Garden) (entry : String) (item : SliceItem) (new : SliceStatus) :
    Except WireError Unit :=
  match item.kind with
  | .slice => ensure (item.status = .active) (.badArgs (.sliceNotActive item.id item.status))
  | .sub => checkSubClose g entry item.id item.status new

/-- The status the daemon sets on an item. -/
def SliceItem.setStatus (status : SliceStatus) (item : SliceItem) : SliceItem :=
  if status = .done then item.finish else { item with status }

/-- The status of an item of a milestone. -/
def setUnitStatus (g : Garden) (entry unit : String) (new : DaemonStatusArg) :
    Except WireError Garden := do
  let slices ← g.loadSlicesOf entry
  let item ← expect (.refused (.unknownId unit)) (Rows.row? (·.id) unit slices.items)
  let status ← expect (.badArgs (.notASliceStatus new)) (sliceStatusOf new)
  checkUnitStatus g entry item status
  let slices :=
    { slices with items := Rows.modify (·.id) unit (SliceItem.setStatus status) slices.items }
  refuse (slices.validate entry)
  .ok (g.writeSlices entry slices)

/-- The status that lands on a row: a pending human status, unless the daemon
blocks the row. -/
def Entry.land (new : EntryStatus) (e : Entry) : Entry :=
  let applied := if new = .blocked then new else e.pendingStatus.getD new
  { e with status := applied, pendingStatus := none }

/-- The status of a row; `done` archives it. -/
def setEntryStatus (g : Garden) (entry : String) (new : DaemonStatusArg) (now : String) :
    Except WireError Garden := do
  let (queue, archive, row) ← g.loadEntryRow entry
  ensure (row.status = .active) (.badArgs (.entryNotActive row.id row.status))
  ensure (new ≠ .split) (.badArgs (.notAnEntryStatus new))
  if new = .done then do
    let entries := Rows.erase (·.id) row.id queue.entries
    let archived := archive.entries ++ [⟨{ row with pendingStatus := none }, now, .done, none⟩]
    refuse (QueueToml.validate { queue with entries } ⟨archived⟩)
    .ok (g.writeQueue { queue with entries } (some ⟨archived⟩))
  else do
    let status ← expect (.badArgs (.notAnEntryStatus new)) (entryStatusOf new)
    let entries := Rows.modify (·.id) row.id (Entry.land status) queue.entries
    refuse (QueueToml.validate { queue with entries } archive)
    .ok (g.writeQueue { queue with entries } none)

def queueV2SetStatus (g : Garden) (entry : String) (unit : Option String) (new : DaemonStatusArg)
    (now : String) : Except WireError Garden := do
  ensureAddress entry unit
  match unit with
  | some unit => setUnitStatus g entry unit new
  | none => setEntryStatus g entry new now

/-! ### queue_v2_follow_ups -/

/-- The count of a slice. -/
def setUnitFollowUps (g : Garden) (entry unit : String) (count : Nat) :
    Except WireError Garden := do
  let slices ← g.loadSlicesOf entry
  let item ← expect (.refused (.unknownId unit)) (Rows.row? (·.id) unit slices.items)
  ensure (item.kind = .slice) (.badArgs (.followUpsSliceOnly unit))
  let edit (i : SliceItem) : SliceItem := { i with followUps := some count }
  let slices := { slices with items := Rows.modify (·.id) unit edit slices.items }
  refuse (slices.validate entry)
  .ok (g.writeSlices entry slices)

/-- The count of a task, a restack or a close-out. -/
def setEntryFollowUps (g : Garden) (entry : String) (count : Nat) : Except WireError Garden := do
  let (queue, archive, row) ← g.loadEntryRow entry
  let edit (e : Entry) : Entry := { e with followUps := count }
  let entries := Rows.modify (·.id) row.id edit queue.entries
  refuse (QueueToml.validate { queue with entries } archive)
  .ok (g.writeQueue { queue with entries } none)

def queueV2FollowUps (g : Garden) (entry : String) (unit : Option String) (count : Nat) :
    Except WireError Garden := do
  ensureAddress entry unit
  match unit with
  | some unit => setUnitFollowUps g entry unit count
  | none => setEntryFollowUps g entry count

/-! ### queue_v2_session_log and queue_v2_deferred -/

/-- A line for the document of a unit; documents' texts are no part of the files. -/
def queueV2SessionLog (g : Garden) (entry line : String) : Except WireError Garden := do
  ensure (isBlank entry = false) (.badArgs (.empty "entry"))
  ensure (isBlank line = false) (.badArgs (.empty "line"))
  let _ ← g.loadEntryRow entry
  .ok g

/-- The tests of an entry that wait for a human, in its document. -/
def queueV2Deferred (g : Garden) (entry : String) (tests : List (String × String)) :
    Except WireError Garden := do
  ensure (isBlank entry = false) (.badArgs (.empty "entry"))
  ensure (tests ≠ []) (.badArgs (.empty "tests"))
  ensure (∀ t ∈ tests, isBlank t.1 = false ∧ isBlank t.2 = false) (.badArgs (.empty "tests"))
  let _ ← g.loadEntryRow entry
  .ok g

/-! ### queue_v2_add_sub -/

structure QueueV2AddSubArgs where
  milestone : String
  slice : String
  slug : String
  title : String
  mission : String
  finishCriteria : String
  slices : List QueueSliceSpec
  atEnd : Bool

/-- The first field of a sub-milestone's texts that holds a reserved line; a slice
body may declare its models. -/
def subDocViolation (args : QueueV2AddSubArgs) : Option (String × String) :=
  let declares (field text : String) (keys : List String) : Option (String × String) :=
    (reservedField text keys).map fun key => (field, key)
  (declares "mission" args.mission subDocReserved).or <|
    (declares "finish_criteria" args.finishCriteria subDocReserved).or <|
      args.slices.zipIdx.findSome? fun (s, i) =>
        (declares ("slices[" ++ toString i ++ "].title") (s.title.getD s.slug) subDocReserved).or
          (declares ("slices[" ++ toString i ++ "].body") s.body sliceBodyReserved)

/-- The texts of the arguments are there. -/
def ensureSubTexts (args : QueueV2AddSubArgs) : Except WireError Unit := do
  ensure (isBlank args.milestone = false) (.badArgs (.empty "milestone"))
  ensure (isBlank args.slice = false) (.badArgs (.empty "slice"))
  ensure (isBlank args.title = false) (.badArgs (.empty "title"))
  ensure (isBlank args.mission = false) (.badArgs (.empty "mission"))
  ensure (isBlank args.finishCriteria = false) (.badArgs (.empty "finish_criteria"))

/-- The parent's items: the active slice split, and the sub-milestone right behind
it or at the end. -/
def splitItems (slice slug : String) (atEnd : Bool) (items : List SliceItem) :
    Except WireError (List SliceItem) := do
  let item ← expect (.refused (.unknownId slice)) (Rows.row? (·.id) slice items)
  let i ← expect (.refused (.unknownId slice)) (Rows.position? (·.id) slice items)
  ensure (item.kind = .slice ∧ item.status = .active)
    (.badArgs (.notAnActiveSlice slice item.kind item.status))
  let items := Rows.modify (·.id) slice (fun it => { it with status := .split }) items
  let position := if atEnd then items.length else i + 1
  .ok (items.insertIdx position ⟨.sub, slug, .queued, none⟩)

def queueV2AddSub (g : Garden) (args : QueueV2AddSubArgs) : Except WireError Garden := do
  ensureSubTexts args
  ensure (validateSlug args.slug = true) (.refused (.badName args.slug))
  ensure (args.slices ≠ []) (.badArgs .noSlices)
  ensureSlices args.slices
  let identity := args.milestone ++ "/" ++ args.slug
  refuse (subDepth identity)
  match subDocViolation args with
  | some (field, key) => .error (.badArgs (.fieldNotAllowed field key))
  | none => do
    ensure (identity ∉ g.milestones) (.refused (.exists identity))
    let parent ← g.loadSlicesOf args.milestone
    let items ← splitItems args.slice args.slug args.atEnd parent.items
    refuse (SlicesToml.validate { parent with items } args.milestone)
    refuse (SlicesToml.validate ⟨identity, (newSlices args.slices).1⟩ identity)
    .ok ((g.writeSlices args.milestone { parent with items }).writeMilestone identity args.slices)

/-! ### The verbs and operations together -/

/-- What a human or the daemon asks for; `now` is the time stamped. -/
inductive Op where
  | queueAddProject (args : QueueAddProjectArgs)
  | queueAddEntry (args : QueueAddEntryArgs) (now : String)
  | queueUpdateEntry (args : QueueUpdateEntryArgs) (now : String)
  | sliceInsert (args : SliceInsertArgs)
  | sliceUpdate (args : SliceUpdateArgs)
  | queueDrop (args : QueueDropArgs) (order : HashOrder) (now : String)
  | claim (entry : String) (unit : Option String)
  | setStatus (entry : String) (unit : Option String) (new : DaemonStatusArg) (now : String)
  | followUps (entry : String) (unit : Option String) (count : Nat)
  | sessionLog (entry line : String)
  | deferred (entry : String) (tests : List (String × String))
  | addSub (args : QueueV2AddSubArgs)

/-- The garden an accepted request leaves. -/
def Op.apply (g : Garden) : Op → Except WireError Garden
  | .queueAddProject args => Queue.queueAddProject g args
  | .queueAddEntry args now => Queue.queueAddEntry g args now
  | .queueUpdateEntry args now => Queue.queueUpdateEntry g args now
  | .sliceInsert args => Queue.sliceInsert g args
  | .sliceUpdate args => Queue.sliceUpdate g args
  | .queueDrop args order now => Queue.queueDrop g args order now
  | .claim entry unit => queueV2Claim g entry unit
  | .setStatus entry unit new now => queueV2SetStatus g entry unit new now
  | .followUps entry unit count => queueV2FollowUps g entry unit count
  | .sessionLog entry line => queueV2SessionLog g entry line
  | .deferred entry tests => queueV2Deferred g entry tests
  | .addSub args => queueV2AddSub g args

/-- The gardens the verbs and operations reach from an empty one. -/
def queueSystem : System Garden Op :=
  .ofFun .empty fun g op => (op.apply g).toOption

/-- The garden a sequence of accepted requests leaves. -/
def Garden.after (ops : List Op) : Option Garden :=
  System.replay (fun g op => (op.apply g).toOption) .empty ops

/-- What a replay shows of the garden it ends in. -/
theorem exists_reachable (ops : List Op) (p : Garden → Bool)
    (h : (Garden.after ops).any p = true) : ∃ g, queueSystem.Reachable g ∧ p g = true := by
  cases hafter : Garden.after ops with
  | none =>
    rw [hafter] at h
    cases h
  | some g =>
    rw [hafter] at h
    exact ⟨g, ⟨.empty, ops, rfl, System.replay_run hafter⟩, h⟩

end Softfig.Queue
