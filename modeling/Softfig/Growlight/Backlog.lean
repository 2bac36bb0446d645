import Softfig.Growlight.QueueTable
import Softfig.Lib.Transition

/-!
The legacy queue verbs: `add_queue`, `add_backlog_item`, `set_item_status` and
`reorder_backlog_item`.

The backlog document holds the registry of queues and a table for each of them, and every verb reads
the tables it needs and writes back the one it changes. Who holds an active item is in memory only,
by the region of its queue and its id.
-/

namespace Softfig.Growlight

open Doc (Text lines regionBody hasRegion upsert remove openMarker closeMarker)
open Queue (trim validateSlug noteFilename pad3 NumberedDir)
open Lib (refuseIf)

/-- Why a verb does nothing, or fails after it staged its writes. -/
inductive BacklogError where
  | badItemType (itemType : Text)
  | invalidSlug (slug : Text)
  | empty (field : String)
  | reservedName (name : Text)
  | badStatus (status : Text)
  | memberLegacy (verb : String)
  | noSuchQueue (queue : Text)
  | queueExists (name : Text)
  | vaultProtected
  | milestoneExists (path : Text)
  | alreadyExists (path : Text)
  | refused
  | itemExists (id : Text)
  | noBacklog
  | noItem (id : Text)
  | manyQueues (id : Text) (queues : List Text)
  | heldByOther (id holder : Text)
  | noHolder (id : Text)
  | alreadyClaimed (id holder : Text)
  | alreadyActive (id : Text)
  | positionTakesNoRef (position : Text)
  | positionRequiresRef (position : Text)
  | unknownPosition (position : Text)
  | reorder (e : ReorderError)
  | commitFailed
  deriving DecidableEq

/-! ### Arguments -/

def itemTypes : List Text := ["milestone".toList, "task".toList]

def active : Text := "active".toList

def queued : Text := "queued".toList

def statuses : List Text := [queued, active, "done".toList, "blocked".toList, "deferred".toList]

/-- The statuses a member may set. -/
def handoffs : List Text := ["done".toList, "deferred".toList, "blocked".toList]

structure AddQueueArgs where
  name : Text
  repo : Text

structure AddBacklogItemArgs where
  itemType : Text
  slug : Text
  title : Text
  mission : Text
  finishCriteria : Text
  queue : Option Text

structure SetItemStatusArgs where
  id : Text
  status : Text
  queue : Option Text
  holder : Option Text
  ifStatus : Option Text

structure ReorderBacklogItemArgs where
  id : Text
  position : Text
  refId : Option Text
  queue : Option Text

def nonEmpty (field : String) (value : Text) : Except BacklogError Unit :=
  refuseIf (trim value = []) (.empty field)

def checkSlug (slug : Text) : Except BacklogError Unit :=
  refuseIf (validateSlug (String.ofList slug) = false) (.invalidSlug slug)

/-- A queue name is a slug other than the implicit queue's. -/
def validateQueueName (name : Text) : Except BacklogError Unit := do
  refuseIf (name = defaultQueue) (.reservedName name)
  checkSlug name

/-- `before` and `after` take a reference, the others none. -/
def parsePosition (position : Text) (refId : Option Text) : Except BacklogError Position :=
  let ref := (refId.map trim).filter (· ≠ [])
  if position = "top".toList ∨ position = "bottom".toList then
    if ref.isSome then .error (.positionTakesNoRef position)
    else .ok (if position = "top".toList then .top else .bottom)
  else if position = "before".toList ∨ position = "after".toList then
    match ref with
    | none => .error (.positionRequiresRef position)
    | some r => .ok (if position = "before".toList then .before r else .after r)
  else .error (.unknownPosition position)

/-! ### The documents -/

/-- The prose of the backlog document. -/
def backlogProse : Text :=
  "# growlight/backlog/\n\n".toList ++
  "The growlight work queue. Each row is a backlog item the loop drains — a ".toList ++
  "milestone (with ordered slices) or a standalone task. One item is `active` ".toList ++
  "at a time; the loop pulls the next `queued` item by order.\n\n".toList ++
  "Item docs live in `milestones/<id>/` and `tasks/NNN-<slug>.md`. Status + ".toList ++
  "order are owned by the daemon-managed queue table below — change it only via ".toList ++
  "`add_backlog_item` / `set_item_status`, never by hand.\n\n".toList ++ "## Queue".toList

/-- The backlog document with an empty table, as the first item finds it. -/
def backlogStub : Text :=
  backlogProse ++ "\n\n".toList ++ openMarker queueTag ++ "\n\n".toList ++ QueueTable.render [] ++
    "\n\n".toList ++ closeMarker queueTag ++ ['\n']

def milestoneClaude (id : Text) : Text :=
  "growlight/backlog/milestones/".toList ++ id ++ "/CLAUDE.md".toList

def slicesSeq (id : Text) : Text :=
  "growlight/backlog/milestones/".toList ++ id ++ "/slices/.seq".toList

def taskPath (name : String) : Text := "growlight/backlog/tasks/".toList ++ name.toList

def milestoneDoc (args : AddBacklogItemArgs) : Text :=
  "# backlog: ".toList ++ args.title ++ "\n\n> Milestone `".toList ++ args.slug ++
  "`. Status + queue order live in the backlog queue table (`../../CLAUDE.md`); slices run in ".toList
  ++ "order and this item is done only when all are done and integration is verified.\n\n".toList ++
  "## Mission\n\n".toList ++ Doc.trimNewlines args.mission ++ "\n\n## Finish criteria\n\n".toList ++
  Doc.trimNewlines args.finishCriteria ++ ['\n']

def taskDoc (args : AddBacklogItemArgs) (date : Text) : Text :=
  "# ".toList ++ args.title ++ "\n\n> Last reviewed: ".toList ++ date ++ "\n\n## Mission\n\n".toList ++
  Doc.trimNewlines args.mission ++ "\n\n## Finish criteria\n\n".toList ++
  Doc.trimNewlines args.finishCriteria ++ ['\n']

def registryOf (content : Text) : List QueueDef :=
  ((regionBody content queuesTag).map Registry.parse).getD []

def rowsOf (content tag : Text) : List QueueRow :=
  ((regionBody content tag).map QueueTable.parse).getD []

/-- Write a region, under a heading of its own where there is none. -/
def upsertSectionRegion (content heading tag body : Text) : Text :=
  if hasRegion content tag then upsert content tag body
  else
    let core := Doc.trimNewlines content
    let lead := if core = [] then [] else core ++ "\n\n".toList
    upsert (lead ++ "## ".toList ++ heading ++ ['\n']) tag body

def backlinksTag : Text := "backlinks".toList

/-- The list of the documents that refer to one. -/
def renderBacklinks (sources : List Text) : Text :=
  "_Backlinks:_\n".toList ++ sources.flatMap fun source => "\n- ".toList ++ ticked source

/-- What the refresh of the backlinks makes of the backlog document. -/
inductive LinkEdit where
  | keep
  | write (sources : List Text)
  | drop

def LinkEdit.apply (content : Text) : LinkEdit → Text
  | .keep => content
  | .write sources => upsert content backlinksTag (renderBacklinks sources)
  | .drop => remove content backlinksTag

/-! ### Holders -/

/-- An item: the tag of its queue's region and its id. -/
abbrev PartKey := Text × Text

inductive ClaimGate where
  | grant
  | deny (holder : Text)
  | untracked
  deriving DecidableEq

/-- Whether a claimant may have an item, by who holds it. -/
def claimGate (held : Option Text) (claimant : Option Text) : ClaimGate :=
  match claimant with
  | none => .untracked
  | some c =>
    match held with
    | some h => if h ≠ c then .deny h else .grant
    | none => .grant

inductive HolderOp where
  | record (holder : Text)
  | clear
  | leave
  deriving DecidableEq

def HolderOp.apply (op : HolderOp) (holders : PartKey → Option Text) (key : PartKey) :
    PartKey → Option Text :=
  match op with
  | .record holder => Function.update holders key (some holder)
  | .clear => Function.update holders key none
  | .leave => holders

/-! ### The store -/

/-- The garden around the backlog: whether its document can be read, which writes are refused, and
what a committed document reads back as. -/
structure Grounds where
  readable : Text → Bool
  checkWrite : Text → Text → Bool
  checkDerived : Text → Bool
  settle : Text → Text

/-- The backlog document, the milestones that have one, the tasks, and the holders. -/
structure Backlog where
  doc : Option Text
  milestones : List Text
  tasks : NumberedDir
  holders : PartKey → Option Text

/-- What an accepted verb returns. -/
inductive Reply where
  | queue (name repo : Text)
  | item (id path : Text)
  | status (id status : Text)
  | index (id : Text) (index : Nat)
  deriving DecidableEq

section verbs

variable (grounds : Grounds) (b : Backlog)

/-- The document as the verbs that create it find it. -/
def Backlog.content : Text := b.doc.getD backlogStub

/-- The document, or the one to start from. -/
def readOrStub : Except BacklogError Text :=
  match b.doc with
  | none => .ok backlogStub
  | some text => if grounds.readable text then .ok text else .error .vaultProtected

def readDoc : Except BacklogError Text :=
  match b.doc with
  | none => .error .noBacklog
  | some text => if grounds.readable text then .ok text else .error .vaultProtected

/-- The guards on a document that differs only in what the daemon derives. -/
def writeDerived (text : Text) : Except BacklogError Text :=
  if grounds.checkDerived text then .ok text else .error .refused

/-- The registry with a queue more, and an empty table for it. -/
def registerQueue (content : Text) (args : AddQueueArgs) : Text :=
  let registered := upsertSectionRegion content "Queues".toList queuesTag
    (Registry.render (registryOf content ++ [⟨args.name, args.repo⟩]))
  upsertSectionRegion registered ("Queue: ".toList ++ args.name) (itemRegionTag args.name)
    (QueueTable.render [])

def addQueue (member : Option Text) (args : AddQueueArgs) : Except BacklogError Text := do
  refuseIf member.isSome (.memberLegacy "add_queue")
  validateQueueName args.name
  nonEmpty "repo" args.repo
  let content ← readOrStub grounds b
  refuseIf ((registryOf content).any fun d => d.name = args.name) (.queueExists args.name)
  writeDerived grounds (registerQueue content args)

def checkItem (member : Option Text) (args : AddBacklogItemArgs) : Except BacklogError Unit := do
  refuseIf (args.itemType ∉ itemTypes) (.badItemType args.itemType)
  checkSlug args.slug
  nonEmpty "title" args.title
  nonEmpty "mission" args.mission
  nonEmpty "finish_criteria" args.finishCriteria
  refuseIf member.isSome (.memberLegacy "add_backlog_item")

/-- A queue other than the implicit one is registered. -/
def checkQueue (queue : Text) : Except BacklogError Unit :=
  if queue = defaultQueue then .ok ()
  else do
    let content ← readOrStub grounds b
    refuseIf (isKnown (registryOf content) queue = false) (.noSuchQueue queue)

/-- Write an item's own documents; its id and its path. -/
def writeItem (args : AddBacklogItemArgs) (date : Text) : Backlog × Except BacklogError (Text × Text) :=
  if args.itemType = "milestone".toList then
    let path := milestoneClaude args.slug
    if args.slug ∈ b.milestones then (b, .error (.milestoneExists path))
    else if !grounds.checkWrite path (milestoneDoc args) then (b, .error .refused)
    else
      let written := { b with milestones := b.milestones ++ [args.slug] }
      if !grounds.checkWrite (slicesSeq args.slug) "0\n".toList then (written, .error .refused)
      else (written, .ok (args.slug, path))
  else
    let number := b.tasks.nextNumber
    let name := noteFilename number (String.ofList args.slug)
    if name ∈ b.tasks.files then (b, .error (.alreadyExists (taskPath name)))
    else if !grounds.checkWrite (taskPath name) (taskDoc args date) then (b, .error .refused)
    else if !grounds.checkWrite (taskPath ".seq") (Nat.toDigits 10 number ++ ['\n']) then
      (b, .error .refused)
    else ({ b with tasks := b.tasks.write number [name] },
      .ok ((pad3 number).toList, taskPath name))

/-- Append a row whose id the table does not have. -/
def enqueue (tag : Text) (row : QueueRow) : Except BacklogError Text := do
  let content ← readOrStub grounds b
  let rows := rowsOf content tag
  refuseIf (rows.any fun r => r.id = row.id) (.itemExists row.id)
  writeDerived grounds (upsert content tag (QueueTable.render (rows ++ [row])))

/-- Every queue with the tag of its region: the implicit one, then those of the registry. -/
def itemRegions (registry : List QueueDef) : List (Text × Text) :=
  (defaultQueue, itemRegionTag defaultQueue) :: registry.map fun d => (d.name, itemRegionTag d.name)

/-- The region of the queue given, or of the only queue with the id. -/
def resolveItemRegion (content id : Text) (queue : Option Text) : Except BacklogError Text :=
  match queue with
  | some q =>
    if isKnown (registryOf content) q then .ok (itemRegionTag q) else .error (.noSuchQueue q)
  | none =>
    let hits := (itemRegions (registryOf content)).filter fun region =>
      (rowsOf content region.2).any fun r => r.id = id
    match hits.map Prod.fst with
    | [] => .error (.noItem id)
    | [name] => .ok (itemRegionTag name)
    | names => .error (.manyQueues id names)

/-- The place of the row of an id. -/
def findRow (rows : List QueueRow) (id : Text) : Except BacklogError (Fin rows.length) :=
  match rows.findFinIdx? fun r => r.id = id with
  | none => .error (.noItem id)
  | some i => .ok i

/-- A member reaches only the item it holds. -/
def checkHolder (member : Option Text) (key : PartKey) : Except BacklogError Unit :=
  match member, b.holders key with
  | none, _ => .ok ()
  | some m, some h => refuseIf (h ≠ m) (.heldByOther key.2 h)
  | some _, none => .error (.noHolder key.2)

/-- What a claim or a release does to the holder of an item. -/
def holderOp (key : PartKey) (args : SetItemStatusArgs) : Except BacklogError HolderOp :=
  if args.status = active then
    match claimGate (b.holders key) args.holder with
    | .deny h => .error (.alreadyClaimed key.2 h)
    | .grant => .ok ((args.holder.map HolderOp.record).getD .leave)
    | .untracked => .ok .leave
  else .ok .clear

/-- What `set_item_status` is to do: the document to write, if any, and the holder to set. -/
structure StatusChange where
  doc : Option Text
  key : PartKey
  op : HolderOp
  status : Text

def QueueRow.withStatus (row : QueueRow) (status : Text) : QueueRow := { row with status }

/-- The document with the status of a row; a second row of a queue is not made active. -/
def writeStatus (content tag : Text) (rows : List QueueRow) (i : Fin rows.length) (status : Text) :
    Except BacklogError Text :=
  let other := if status = active then
    rows.zipIdx.find? fun (r, j) => j ≠ i ∧ r.status = active else none
  match other with
  | some (other, _) => .error (.alreadyActive other.id)
  | none => writeDerived grounds
      (upsert content tag (QueueTable.render (rows.set i ((rows.get i).withStatus status))))

/-- The change of a status in the table of a region. -/
def changeStatus (member : Option Text) (args : SetItemStatusArgs) (content tag : Text)
    (rows : List QueueRow) : Except BacklogError StatusChange := do
  let i ← findRow rows args.id
  let key : PartKey := (tag, args.id)
  checkHolder b member key
  if args.ifStatus.any fun want => (rows.get i).status ≠ want then
    return ⟨none, key, .leave, (rows.get i).status⟩
  else
    let op ← holderOp b key args
    if (rows.get i).status = args.status then return ⟨none, key, op, args.status⟩
    else
      let doc ← writeStatus grounds content tag rows i args.status
      return ⟨some doc, key, op, args.status⟩

def checkStatus (member : Option Text) (args : SetItemStatusArgs) : Except BacklogError Unit := do
  nonEmpty "id" args.id
  refuseIf (args.status ∉ statuses) (.badStatus args.status)
  refuseIf (member.isSome ∧ args.status ∉ handoffs) (.memberLegacy "set_item_status")

def setItemStatus (member : Option Text) (args : SetItemStatusArgs) :
    Except BacklogError StatusChange := do
  checkStatus member args
  let content ← readDoc grounds b
  let tag ← resolveItemRegion content args.id args.queue
  changeStatus grounds b member args content tag (rowsOf content tag)

/-- The document with a row moved, `none` where it stands there already, and the row's new place. -/
def reorderBacklogItem (member : Option Text) (args : ReorderBacklogItemArgs) :
    Except BacklogError (Option Text × Nat) := do
  nonEmpty "id" args.id
  let position ← parsePosition args.position args.refId
  refuseIf member.isSome (.memberLegacy "reorder_backlog_item")
  let content ← readDoc grounds b
  let tag ← resolveItemRegion content args.id args.queue
  let rows := rowsOf content tag
  let start ← findRow rows args.id
  let moved ← (reordered rows start position).mapError .reorder
  let index := moved.findIdx (fun r => r.id = args.id) + 1
  if moved = rows then return (none, index)
  else
    let doc ← writeDerived grounds (upsert content tag (QueueTable.render moved))
    return (some doc, index)

end verbs

/-! ### Calls -/

inductive Verb where
  | addQueue (args : AddQueueArgs)
  | addBacklogItem (args : AddBacklogItemArgs) (date : Text) (links : LinkEdit)
  | setItemStatus (args : SetItemStatusArgs)
  | reorderBacklogItem (args : ReorderBacklogItemArgs)

/-- What a verb stages, its reply, and whether there is something to commit. -/
def Backlog.stage (grounds : Grounds) (b : Backlog) (member : Option Text) :
    Verb → Backlog × Except BacklogError (Reply × Bool)
  | .addQueue args =>
    match Growlight.addQueue grounds b member args with
    | .error e => (b, .error e)
    | .ok doc => ({ b with doc }, .ok (.queue args.name args.repo, true))
  | .addBacklogItem args date links =>
    let queue := args.queue.getD defaultQueue
    match checkItem member args >>= fun _ => checkQueue grounds b queue with
    | .error e => (b, .error e)
    | .ok () =>
      match writeItem grounds b args date with
      | (written, .error e) => (written, .error e)
      | (written, .ok (id, path)) =>
        match enqueue grounds written (itemRegionTag queue) ⟨id, args.itemType, args.title, queued⟩ with
        | .error e => (written, .error e)
        | .ok doc => ({ written with doc := links.apply doc }, .ok (.item id path, true))
  | .setItemStatus args =>
    match Growlight.setItemStatus grounds b member args with
    | .error e => (b, .error e)
    | .ok change =>
      ({ b with doc := change.doc <|> b.doc, holders := change.op.apply b.holders change.key },
        .ok (.status args.id change.status, change.doc.isSome))
  | .reorderBacklogItem args =>
    match Growlight.reorderBacklogItem grounds b member args with
    | .error e => (b, .error e)
    | .ok (doc, index) =>
      ({ b with doc := doc <|> b.doc }, .ok (.index args.id index, doc.isSome))

/-- A call of a verb, by a member of the fleet or by no member, and whether its commit succeeds. -/
structure BacklogCall where
  verb : Verb
  member : Option Text
  committed : Bool

/-- Stage and commit; a commit that fails leaves what is staged. -/
def Backlog.call (grounds : Grounds) (b : Backlog) (call : BacklogCall) :
    Backlog × Except BacklogError Reply :=
  match b.stage grounds call.member call.verb with
  | (staged, .error e) => (staged, .error e)
  | (staged, .ok (reply, false)) => (staged, .ok reply)
  | (staged, .ok (reply, true)) =>
    if call.committed then ({ staged with doc := staged.doc.map grounds.settle }, .ok reply)
    else (staged, .error .commitFailed)

end Softfig.Growlight
