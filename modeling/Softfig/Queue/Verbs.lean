import Softfig.Lib.Except
import Softfig.Queue.Garden

/-!
The human verbs of the queue. Each loads and validates the files, edits them in
memory, validates what it is about to write, and writes everything at once; a
dry run stops before the write.
-/

namespace Softfig.Queue

open Lib

/-- What a verb leaves: a dry run writes nothing. -/
def commit (dryRun : Bool) (before after : Garden) : Garden := if dryRun then before else after

/-! ### queue_add_project -/

structure QueueAddProjectArgs where
  name : String
  repo : String
  main : Option String
  dryRun : Bool

def queueAddProject (g : Garden) (args : QueueAddProjectArgs) : Except WireError Garden := do
  let main := args.main.getD "main"
  ensure (validateSlug args.name = true) (.refused (.badName args.name))
  ensure (isBlank args.repo = false) (.badArgs (.empty "repo"))
  ensure (isBlank main = false) (.badArgs (.empty "main"))
  let loaded ← g.loadQueueState
  let queue := (loaded.map Prod.fst).getD ⟨[], []⟩
  ensure (args.name ∉ queue.projects.map (·.name)) (.refused (.exists args.name))
  let queue := { queue with projects := queue.projects ++ [⟨args.name, args.repo, main⟩] }
  .ok (commit args.dryRun g (g.writeQueue queue none))

/-! ### queue_add_entry -/

structure QueueSliceSpec where
  slug : String
  title : Option String
  body : String

/-- `member` is the fleet member that calls, if one does. -/
structure QueueAddEntryArgs where
  member : Option String
  kind : EntryKind
  slug : Option String
  title : Option String
  mission : Option String
  finishCriteria : Option String
  project : String
  lane : Option Lane
  after : List String
  position : Option String
  ref : Option String
  slices : List QueueSliceSpec
  dryRun : Bool

/-- The first field of a member's text that holds a reserved line. -/
def memberReservedField (args : QueueAddEntryArgs) : Option (String × String) :=
  let declares (field : String) (text : Option String) : Option (String × String) :=
    (text.bind fun t => reservedField t subDocReserved).map fun key => (field, key)
  (declares "title" args.title).or <| (declares "mission" args.mission).or <|
    (declares "finish_criteria" args.finishCriteria).or <|
      args.slices.zipIdx.findSome? fun (s, i) =>
        (declares ("slices[" ++ toString i ++ "].title") s.title).or
          (declares ("slices[" ++ toString i ++ "].body") (some s.body))

/-- A text that must be there. -/
def required (text : Option String) (field : String) : Except WireError String :=
  expect (.badArgs (.empty field)) (text.filter fun t => !isBlank t)

/-- The first link that names no live entry and no row archived done. -/
def unresolvedLink (queue : QueueToml) (archive : QueueArchiveToml) (after : List String) :
    Option String :=
  after.find? fun link => link ∉ queue.entries.map (·.id) ∧ link ∉ archive.doneIds

def ensureLinks (queue : QueueToml) (archive : QueueArchiveToml) (after : List String) :
    Except WireError Unit :=
  match unresolvedLink queue archive after with
  | some link => .error (.refused (.unknownId link))
  | none => .ok ()

/-- Load the files for a new entry of a project. -/
def Garden.loadForAdd (g : Garden) (project : String) (after : List String) :
    Except WireError (QueueToml × QueueArchiveToml) := do
  let loaded ← g.loadQueueState
  let (queue, archive) ← expect (.refused (.unknownProject project)) loaded
  ensure (project ∈ queue.projects.map (·.name)) (.refused (.unknownProject project))
  ensureLinks queue archive after
  .ok (queue, archive)

/-- Put an entry in and check the list. -/
def insertEntry (queue : QueueToml) (archive : QueueArchiveToml) (entry : Entry)
    (position : Position) : Except WireError QueueToml := do
  let i ← refuse (placeEntry queue.entries entry.lane position)
  let queue := { queue with entries := queue.entries.insertIdx i entry }
  refuse (queue.validate archive)
  .ok queue

/-- A new row: queued, never claimed. -/
def newEntry (id : String) (kind : EntryKind) (title project : String) (lane : Lane)
    (after : List String) (branch now : String) : Entry where
  id := id
  kind := kind
  title := title
  project := project
  lane := lane
  status := .queued
  after := after
  added := now
  branch := branch
  parent := ""
  base := ""
  claimed := ""
  followUps := 0
  pendingStatus := none

/-- A new slice of a number. -/
def sliceItem (number : Nat) : SliceItem := ⟨.slice, pad3 number, .queued, some 0⟩

/-- The items and documents of a new milestone: its slices in order, or the
planning slice. -/
def newSlices (slices : List QueueSliceSpec) : List SliceItem × NumberedDir :=
  if slices.isEmpty then ([sliceItem 1], ⟨1, [noteFilename 1 "plan"]⟩)
  else
    (slices.zipIdx.map fun (_, i) => sliceItem (i + 1),
      ⟨slices.length, slices.zipIdx.map fun (s, i) => noteFilename (i + 1) s.slug⟩)

def ensureSlices : List QueueSliceSpec → Except WireError Unit
  | [] => .ok ()
  | s :: rest => do
    ensure (validateSlug s.slug = true) (.refused (.badName s.slug))
    ensure (isBlank s.body = false) (.badArgs (.emptySliceBody s.slug))
    ensureSlices rest

/-- Write the folder of a new milestone. -/
def Garden.writeMilestone (g : Garden) (identity : String) (slices : List QueueSliceSpec) :
    Garden :=
  let (items, docs) := newSlices slices
  { g with milestones := g.milestones.insert identity ⟨⟨identity, items⟩, docs⟩ }

def addMilestone (g : Garden) (args : QueueAddEntryArgs) (now : String) :
    Except WireError Garden := do
  let slug ← required args.slug "slug"
  let title ← required args.title "title"
  let _ ← required args.mission "mission"
  let _ ← required args.finishCriteria "finish_criteria"
  ensure (validateSlug slug = true) (.refused (.badName slug))
  let position ← parsePosition args.position args.ref
  ensureSlices args.slices
  ensure (slug ∉ g.milestones) (.refused (.exists slug))
  let (queue, archive) ← g.loadForAdd args.project args.after
  let entry := newEntry slug .milestone title args.project (args.lane.getD .normal) args.after
    ("feat/" ++ slug) now
  let queue ← insertEntry queue archive entry position
  .ok (commit args.dryRun g ((g.writeQueue queue none).writeMilestone slug args.slices))

def addTask (g : Garden) (args : QueueAddEntryArgs) (now : String) : Except WireError Garden := do
  let slug ← required args.slug "slug"
  let title ← required args.title "title"
  let _ ← required args.mission "mission"
  let _ ← required args.finishCriteria "finish_criteria"
  ensure (validateSlug slug = true) (.refused (.badName slug))
  ensure (args.slices.isEmpty = true) (.badArgs .taskTakesNoSlices)
  let position ← parsePosition args.position args.ref
  let number := g.tasks.nextNumber
  let file := noteFilename number slug
  let id := pad3 number
  ensure (file ∉ g.tasks.files) (.refused (.exists id))
  let (queue, archive) ← g.loadForAdd args.project args.after
  let entry := newEntry id .task title args.project (args.lane.getD .normal) args.after
    ("fix/" ++ id) now
  let queue ← insertEntry queue archive entry position
  .ok (commit args.dryRun g
    { g.writeQueue queue none with tasks := g.tasks.write number [file] })

/-- Put a restack row of a project at the back of the urgent lane; the document
is written with the list. -/
def restackCore (tasks : NumberedDir) (queue : QueueToml) (project : String) (number : Nat)
    (now : String) : Except WireError (QueueToml × String) := do
  let file := noteFilename number ("restack-" ++ project)
  let id := pad3 number
  ensure (file ∉ tasks.files) (.refused (.exists id))
  let entry := newEntry id .restack ("Restack " ++ project) project .urgent [] "" now
  let i ← refuse (placeEntry queue.entries .urgent .back)
  .ok ({ queue with entries := queue.entries.insertIdx i entry }, file)

/-- What a restack's arguments may not hold. -/
def restackGiven (args : QueueAddEntryArgs) : Option String :=
  ([("slug", args.slug.isSome), ("title", args.title.isSome), ("mission", args.mission.isSome),
    ("finish_criteria", args.finishCriteria.isSome), ("lane", args.lane.isSome),
    ("position", args.position.isSome), ("ref", args.ref.isSome), ("after", !args.after.isEmpty),
    ("slices", !args.slices.isEmpty)].find? fun (_, given) => given).map Prod.fst

def addRestack (g : Garden) (args : QueueAddEntryArgs) (now : String) :
    Except WireError Garden := do
  match restackGiven args with
  | some name => .error (.badArgs (.restackTakesOnlyProject name))
  | none => do
    ensure (isBlank args.project = false) (.badArgs (.empty "project"))
    let (queue, archive) ← g.loadForAdd args.project []
    let number := g.tasks.nextNumber
    let (queue, file) ← restackCore g.tasks queue args.project number now
    refuse (queue.validate archive)
    .ok (commit args.dryRun g
      { g.writeQueue queue none with tasks := g.tasks.write number [file] })

def queueAddEntry (g : Garden) (args : QueueAddEntryArgs) (now : String) :
    Except WireError Garden :=
  match args.member.bind fun _ => memberReservedField args with
  | some (field, key) => .error (.badArgs (.fieldNotAllowed field key))
  | none =>
    match args.kind with
    | .milestone => addMilestone g args now
    | .task => addTask g args now
    | .restack => addRestack g args now

/-! ### queue_update_entry -/

structure QueueMoveSpec where
  target : String
  ref : Option String

structure QueueUpdateEntryArgs where
  id : String
  lane : Option Lane
  moveSpec : Option QueueMoveSpec
  after : Option (List String)
  status : Option QueueStatusArg
  dryRun : Bool

def parseMove : Option QueueMoveSpec → Except WireError (Option Position)
  | none => .ok none
  | some m => (parsePosition (some m.target) m.ref).map some

/-- 1. A row that changes its lane goes to the back of urgent or the front of
normal. -/
def updateLane (id : String) (lane : Option Lane) (entries : List Entry) :
    Except WireError (List Entry) :=
  match lane, Rows.row? (·.id) id entries with
  | some lane, some e =>
    if e.lane = lane then .ok entries
    else do
      let rest := Rows.erase (·.id) id entries
      let position := match lane with
        | .urgent => Position.back
        | .normal => Position.front
      let i ← refuse (placeEntry rest lane position)
      .ok (rest.insertIdx i { e with lane })
  | _, _ => .ok entries

/-- 2. A row that was never claimed moves inside its lane. -/
def updateMove (id : String) (position : Option Position) (entries : List Entry) :
    Except WireError (List Entry) :=
  match position, Rows.row? (·.id) id entries with
  | some position, some e => do
    ensure (position.refersTo id = false) (.badArgs (.relativeToItself id))
    ensure (e.claimed = "") (.refused (.started id))
    let rest := Rows.erase (·.id) id entries
    let i ← refuse (placeEntry rest e.lane position)
    .ok (rest.insertIdx i e)
  | _, _ => .ok entries

/-- 3. The links are replaced as a whole. -/
def updateAfter (id : String) (links : Option (List String)) (queue : QueueToml)
    (archive : QueueArchiveToml) : Except WireError (List Entry) :=
  match links with
  | none => .ok queue.entries
  | some links => do
    ensureLinks queue archive links
    .ok (Rows.modify (·.id) id (fun e => { e with after := links }) queue.entries)

/-- A human status on a row: on an active one it waits. -/
def Entry.request (new : EntryStatus) (e : Entry) : Entry :=
  if e.status = .active then { e with pendingStatus := some new } else { e with status := new }

/-- 4. The status; `done` archives the row. -/
def updateStatus (id : String) (status : Option QueueStatusArg) (entries : List Entry)
    (archived : List ArchivedEntry) (now : String) :
    Except WireError (List Entry × List ArchivedEntry) :=
  match status with
  | none => .ok (entries, archived)
  | some .active | some .paused | some .split => .error (.refused (.daemonOwned id))
  | some .queued => .ok (Rows.modify (·.id) id (Entry.request .queued) entries, archived)
  | some .blocked => .ok (Rows.modify (·.id) id (Entry.request .blocked) entries, archived)
  | some .deferred => .ok (Rows.modify (·.id) id (Entry.request .deferred) entries, archived)
  | some .done => do
    let row ← expect (.refused (.unknownId id)) (Rows.row? (·.id) id entries)
    ensure (row.status ≠ .active) (.refused (.running id))
    .ok (Rows.erase (·.id) id entries, archived ++ [⟨row, now, .done, none⟩])

def queueUpdateEntry (g : Garden) (args : QueueUpdateEntryArgs) (now : String) :
    Except WireError Garden := do
  ensure (isBlank args.id = false) (.badArgs (.empty "id"))
  let position ← parseMove args.moveSpec
  let loaded ← g.loadQueueState
  let (queue, archive) ← expect (.refused (.unknownId args.id)) loaded
  ensure (args.id ∈ queue.entries.map (·.id)) (.refused (.unknownId args.id))
  let entries ← updateLane args.id args.lane queue.entries
  let entries ← updateMove args.id position entries
  let entries ← updateAfter args.id args.after { queue with entries } archive
  let (entries, archived) ← updateStatus args.id args.status entries archive.entries now
  -- an edit that changes nothing commits nothing
  if entries = queue.entries ∧ archived = archive.entries then .ok g
  else do
    refuse (QueueToml.validate { queue with entries } ⟨archived⟩)
    let archiveWrite := if args.status = some .done then some ⟨archived⟩ else none
    .ok (commit args.dryRun g (g.writeQueue { queue with entries } archiveWrite))

/-! ### slice_insert and slice_update -/

structure SliceInsertArgs where
  milestone : String
  slug : String
  body : String
  position : Option String
  ref : Option String
  dryRun : Bool

/-- Write a slice order with a new document in its folder. -/
def Garden.writeSlice (g : Garden) (milestone : String) (slices : SlicesToml) (number : Nat)
    (file : String) : Garden :=
  match g.milestones.lookup milestone with
  | none => g
  | some dir =>
    { g with milestones := g.milestones.insert milestone ⟨slices, dir.docs.write number [file]⟩ }

/-- The documents of a milestone's slices. -/
def Garden.sliceDocs (g : Garden) (milestone : String) : NumberedDir :=
  ((g.milestones.lookup milestone).map (·.docs)).getD ⟨0, []⟩

def sliceInsert (g : Garden) (args : SliceInsertArgs) : Except WireError Garden := do
  ensure (validateSlug args.slug = true) (.refused (.badName args.slug))
  ensure (isBlank args.body = false) (.badArgs (.empty "body"))
  ensure (isBlank args.milestone = false) (.badArgs (.empty "milestone"))
  refuse (subDepth args.milestone)
  let position ← parsePosition args.position args.ref
  let loaded ← g.loadSlices args.milestone
  let slices ← expect (.refused (.unknownId args.milestone)) loaded
  let docs := g.sliceDocs args.milestone
  let number := docs.nextNumber
  let file := noteFilename number args.slug
  ensure (file ∉ docs.files) (.refused (.exists (pad3 number)))
  let i ← refuse (placeItem slices.items position)
  let slices := { slices with items := slices.items.insertIdx i (sliceItem number) }
  refuse (slices.validate args.milestone)
  .ok (commit args.dryRun g (g.writeSlice args.milestone slices number file))

structure SliceUpdateArgs where
  milestone : String
  id : String
  moveSpec : Option QueueMoveSpec
  status : Option SliceStatus
  dryRun : Bool

/-- 1. An item that is not started, done or split moves in file order. -/
def moveItem (id : String) (position : Option Position) (items : List SliceItem) :
    Except WireError (List SliceItem) :=
  match position, Rows.row? (·.id) id items with
  | some position, some item => do
    ensure (position.refersTo id = false) (.badArgs (.relativeToItself id))
    ensure (item.status ≠ .active ∧ item.status ≠ .done ∧ item.status ≠ .split)
      (.refused (.started id))
    let rest := Rows.erase (·.id) id items
    let i ← refuse (placeItem rest position)
    .ok (rest.insertIdx i item)
  | _, _ => .ok items

/-- A slice that is done has no follow-ups. -/
def SliceItem.finish (item : SliceItem) : SliceItem :=
  { item with
    status := .done
    followUps := if item.kind = .slice then some 0 else item.followUps }

/-- 2. The human statuses. -/
def setItemStatus (id : String) (status : Option SliceStatus) (items : List SliceItem) :
    Except WireError (List SliceItem) :=
  match status with
  | none => .ok items
  | some .active | some .split => .error (.refused (.daemonOwned id))
  | some .done => .ok (Rows.modify (·.id) id SliceItem.finish items)
  | some .queued => .ok (Rows.modify (·.id) id (fun item => { item with status := .queued }) items)
  | some .blocked =>
    .ok (Rows.modify (·.id) id (fun item => { item with status := .blocked }) items)
  | some .deferred =>
    .ok (Rows.modify (·.id) id (fun item => { item with status := .deferred }) items)

def sliceUpdate (g : Garden) (args : SliceUpdateArgs) : Except WireError Garden := do
  ensure (isBlank args.milestone = false) (.badArgs (.empty "milestone"))
  ensure (isBlank args.id = false) (.badArgs (.empty "id"))
  let position ← parseMove args.moveSpec
  let loaded ← g.loadSlices args.milestone
  let slices ← expect (.refused (.unknownId args.milestone)) loaded
  ensure (args.id ∈ slices.items.map (·.id)) (.refused (.unknownId args.id))
  let items ← moveItem args.id position slices.items
  let items ← setItemStatus args.id args.status items
  if items = slices.items then .ok g
  else do
    refuse (SlicesToml.validate { slices with items } args.milestone)
    .ok (commit args.dryRun g (g.writeSlices args.milestone { slices with items }))

/-! ### queue_drop -/

structure QueueDropArgs where
  id : String
  reason : String
  dryRun : Bool

/-- The order a hash set is walked in: any one. -/
structure HashOrder where
  iter : List String → List String
  perm : ∀ l, (iter l).Perm l

/-- Restacks of several projects, numbered one after the other. -/
def restacks (tasks : NumberedDir) (now : String) :
    Nat → List String → QueueToml → Except WireError (QueueToml × List String)
  | _, [], queue => .ok (queue, [])
  | number, project :: projects, queue => do
    let (queue, file) ← restackCore tasks queue project number now
    let (queue, files) ← restacks tasks now (number + 1) projects queue
    .ok (queue, file :: files)

/-- The projects of the rows whose branch was cut from an entry's. -/
def childProjects (queue : QueueToml) (id : String) : List String :=
  ((queue.entries.filter fun e => e.parent = id).map (·.project)).dedup

def queueDrop (g : Garden) (args : QueueDropArgs) (order : HashOrder) (now : String) :
    Except WireError Garden := do
  ensure (isBlank args.id = false) (.badArgs (.empty "id"))
  ensure (isBlank args.reason = false) (.badArgs (.empty "reason"))
  let loaded ← g.loadQueueState
  let (queue, archive) ← expect (.refused (.unknownId args.id)) loaded
  let row ← expect (.refused (.unknownId args.id)) (Rows.row? (·.id) args.id queue.entries)
  ensure (∀ e ∈ queue.entries, args.id ∉ e.after) (.refused (.linkedFrom args.id))
  ensure (row.status ≠ .active) (.refused (.running args.id))
  let projects := order.iter (childProjects queue args.id)
  let archive : QueueArchiveToml :=
    ⟨archive.entries ++ [⟨row, now, .dropped, some args.reason⟩]⟩
  let entries := Rows.erase (·.id) args.id queue.entries
  let number := g.tasks.nextNumber
  let (queue, files) ← restacks g.tasks now number projects { queue with entries }
  refuse (queue.validate archive)
  -- the mark is the last number handed out
  let tasks := if files.isEmpty then g.tasks else g.tasks.write (number + files.length - 1) files
  .ok (commit args.dryRun g { g.writeQueue queue (some archive) with tasks })

end Softfig.Queue
