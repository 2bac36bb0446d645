import Softfig.Growlight.Backlog

/-!
The backlog as a board: named queues and the rows of each, without the document they stand in.

- `Board.Does`: what an accepted verb does to the board;
- `Rewrites`: what writing one region leaves of the others;
- `Shows.writeRows`, `Shows.registerQueue`, `Shows.links`: the document shows the board that the
  verb leaves, where it was ready to be written and every cell is a line.
-/

namespace Softfig.Growlight

open Doc (Text lines join join_lines regionBody hasRegion upsert remove Plain Solid IsTag Fits ScansAs dangling
  regionsOf fenceAfter)
open Queue (isWhitespace trim validateSlug)
open Lib (refuseIf)

/-! ### The board -/

/-- The registered queues and the rows of every queue. -/
structure Board where
  queues : List QueueDef
  items : Text → List QueueRow

namespace Board

def empty : Board := ⟨[], fun _ => []⟩

/-- The queue is the implicit one or a registered one. -/
def Known (board : Board) (queue : Text) : Prop :=
  queue = defaultQueue ∨ ∃ d ∈ board.queues, d.name = queue

def Holds (board : Board) (queue id : Text) : Prop := ∃ row ∈ board.items queue, row.id = id

/-- The queue given, or the only one with the id. -/
def Addressed (board : Board) (id : Text) (given : Option Text) (queue : Text) : Prop :=
  board.Known queue ∧ board.Holds queue id ∧
    match given with
    | some q => queue = q
    | none => ∀ q, board.Known q → board.Holds q id → q = queue

def setItems (board : Board) (queue : Text) (rows : List QueueRow) : Board :=
  { board with items := Function.update board.items queue rows }

@[simp]
theorem setItems_self (board : Board) (queue : Text) (rows : List QueueRow) :
    (board.setItems queue rows).items queue = rows := Function.update_self ..

theorem setItems_ne {board : Board} {queue q : Text} {rows : List QueueRow} (h : q ≠ queue) :
    (board.setItems queue rows).items q = board.items q := Function.update_of_ne h ..

def setStatus (id status : Text) (row : QueueRow) : QueueRow :=
  if row.id = id then row.withStatus status else row

/-- What an accepted verb does: a queue or an item more, a status set, a row moved, or nothing where
the status the caller expects is not the one the item has. -/
inductive Does (board : Board) : Verb → Reply → Board → Prop where
  | queueAdded (args : AddQueueArgs) (hnew : ¬board.Known args.name) :
      Does board (.addQueue args) (.queue args.name args.repo)
        { board with queues := board.queues ++ [⟨args.name, trim args.repo⟩] }
  | itemAdded (args : AddBacklogItemArgs) (date : Text) (links : LinkEdit) (id path : Text)
      (hqueue : board.Known (args.queue.getD defaultQueue))
      (hnew : ¬board.Holds (args.queue.getD defaultQueue) id)
      (hid : args.itemType = "milestone".toList → id = args.slug) :
      Does board (.addBacklogItem args date links) (.item id path)
        (board.setItems (args.queue.getD defaultQueue)
          (board.items (args.queue.getD defaultQueue) ++
            [⟨id, args.itemType, trim args.title, queued⟩]))
  | statusSet (args : SetItemStatusArgs) (queue : Text)
      (hqueue : board.Addressed args.id args.queue queue)
      (hexpected : ∀ want, args.ifStatus = some want →
        ∃ row ∈ board.items queue, row.id = args.id ∧ row.status = want) :
      Does board (.setItemStatus args) (.status args.id args.status)
        (board.setItems queue ((board.items queue).map (setStatus args.id args.status)))
  | statusKept (args : SetItemStatusArgs) (queue want : Text) (row : QueueRow)
      (hqueue : board.Addressed args.id args.queue queue) (hwant : args.ifStatus = some want)
      (hrow : row ∈ board.items queue) (hid : row.id = args.id) (hother : row.status ≠ want) :
      Does board (.setItemStatus args) (.status args.id row.status) board
  | reordered (args : ReorderBacklogItemArgs) (queue : Text) (row : QueueRow) (position : Position)
      (moved : List QueueRow) (index : Nat) (hqueue : board.Addressed args.id args.queue queue)
      (hposition : parsePosition args.position args.refId = .ok position)
      (hrow : row ∈ board.items queue) (hid : row.id = args.id)
      (hmoved : Moved (board.items queue) row position moved) :
      Does board (.reorderBacklogItem args) (.index args.id index) (board.setItems queue moved)

/-- The board that a sequence of accepted verbs describes, oldest first. -/
inductive Recorded : List (Verb × Reply) → Board → Prop where
  | empty : Recorded [] Board.empty
  | snoc {log : List (Verb × Reply)} {board board' : Board} {verb : Verb} {reply : Reply} :
      Recorded log board → Does board verb reply board' → Recorded (log ++ [(verb, reply)]) board'

/-- Every queue and every item of a queue is there once, every cell is as a table keeps it, and at
most one item of a queue is active. -/
structure Tidy (board : Board) : Prop where
  names : (board.queues.map QueueDef.name).Nodup
  queues : ∀ d ∈ board.queues, validateSlug (String.ofList d.name) = true ∧ d.name ≠ defaultQueue ∧
    d.Registrable ∧ d.trimmed = d
  known : ∀ q, ¬board.Known q → board.items q = []
  ids : ∀ q, ((board.items q).map QueueRow.id).Nodup
  rows : ∀ q, ∀ row ∈ board.items q, row.OneLine ∧ row.trimmed = row
  oneActive : ∀ q, ∀ row ∈ board.items q, ∀ row' ∈ board.items q, row.status = active →
    row'.status = active → row = row'

theorem tidy_empty : empty.Tidy where
  names := List.nodup_nil
  queues := fun _ hd => absurd hd List.not_mem_nil
  known := fun _ _ => rfl
  ids := fun _ => List.nodup_nil
  rows := fun _ _ hrow => absurd hrow List.not_mem_nil
  oneActive := fun _ _ hrow => absurd hrow List.not_mem_nil

end Board

/-! ### Tags -/

/-- A tag the verbs write. -/
def Written (tag : Text) : Prop := tag = queuesTag ∨ tag = backlinksTag ∨ ∃ q, tag = itemRegionTag q

theorem itemRegionTag_injective {q q' : Text} (h : itemRegionTag q = itemRegionTag q') : q = q' := by
  have hcolon (q : Text) : queueTag ≠ "queue:".toList ++ q := by
    intro heq
    have hlength := congrArg (fun t : Text => t[5]?) heq
    cases hlength
  unfold itemRegionTag at h
  split at h
  · split at h
    · simp [*]
    · exact absurd h (hcolon _)
  · split at h
    · exact absurd h.symm (hcolon _)
    · exact List.append_cancel_left h

theorem itemRegionTag_ne (q : Text) :
    itemRegionTag q ≠ queuesTag ∧ itemRegionTag q ≠ backlinksTag := by
  unfold itemRegionTag
  split
  · decide
  · constructor
    · intro heq
      have hcolon := congrArg (fun t : Text => t[5]?) heq
      cases hcolon
    · intro heq
      have hfirst := congrArg (fun t : Text => t[0]?) heq
      cases hfirst

/-- A word that is not empty is a tag. -/
theorem IsWord.isTag {tag : Text} (h : IsWord tag) (hne : tag ≠ []) : IsTag tag where
  nonempty := hne
  trimmed := trim_word h
  line := fun hmem => (word_ne_break (h _ hmem)).1 rfl

/-- The name of a queue: the implicit one's, or a slug. -/
def IsQueue (q : Text) : Prop := q = defaultQueue ∨ validateSlug (String.ofList q) = true

theorem IsQueue.isTag {q : Text} (h : IsQueue q) : IsTag (itemRegionTag q) := by
  apply IsWord.isTag
  · unfold itemRegionTag
    split
    · exact List.all_eq_true.mp rfl
    · rename_i hne
      have hslug := isWord_slug (h.resolve_left hne)
      have hlead : IsWord "queue:".toList := List.all_eq_true.mp rfl
      intro c hc
      rcases List.mem_append.mp hc with hc | hc
      · exact hlead c hc
      · exact hslug.1 c hc
  · unfold itemRegionTag
    split
    · decide
    · exact fun hnil => absurd (List.append_eq_nil_iff.mp hnil).1 (by decide)

theorem isTag_queues : IsTag queuesTag := IsWord.isTag (List.all_eq_true.mp rfl) (by decide)

theorem isTag_backlinks : IsTag backlinksTag := IsWord.isTag (List.all_eq_true.mp rfl) (by decide)

/-! ### Regions written -/

/-- The document can be written: its fences are closed and no region the verbs write is left open. -/
structure Ready (content : Text) : Prop where
  fence : fenceAfter false (lines content) = false
  closed : ∀ tag ∈ dangling (lines content), ¬Written tag

/-- A region has a new body, and the others are as they were. -/
structure Rewrites (content tag body content' : Text) : Prop where
  ready : Ready content'
  body : regionBody content' tag = some body
  others : ∀ tag', tag' ≠ tag → regionBody content' tag' = regionBody content tag'

section rewrites

variable {content tag body : Text}

theorem Ready.of_scans {content' : Text} {regions : List (Text × List Text)} (h : Ready content)
    (hscan : ScansAs (lines content') regions (dangling (lines content))
      (fenceAfter false (lines content))) : Ready content' where
  fence := hscan.fence.trans h.fence
  closed := hscan.dangling ▸ h.closed

theorem Ready.fits (h : Ready content) (hwritten : Written tag) : Fits content tag :=
  .inr ⟨h.fence, fun hmem => h.closed _ hmem hwritten⟩

/-- **An upsert writes one region.** -/
theorem Ready.upsert (h : Ready content) (hwritten : Written tag) (htag : IsTag tag)
    (hbody : ∀ l ∈ lines body, Plain l) (hsolid : Solid body) :
    Rewrites content tag body (Doc.upsert content tag body) where
  ready := h.of_scans (Doc.scans_upsert htag hbody (h.fits hwritten))
  body := Doc.regionBody_upsert htag hbody hsolid (h.fits hwritten)
  others := fun _ hne => Doc.regionBody_upsert_ne hne htag hbody (h.fits hwritten)

theorem Ready.remove (h : Ready content) (tag : Text) : Ready (Doc.remove content tag) :=
  h.of_scans (Doc.scans_remove content tag)

/-- The lines of a text with a heading appended. -/
theorem lines_section (content : Text) {heading : Text} (hheading : '\n' ∉ heading) :
    lines ((if Doc.trimNewlines content = [] then [] else
        Doc.trimNewlines content ++ "\n\n".toList) ++ "## ".toList ++ heading ++ ['\n']) =
      Doc.appendLead content ++ ["## ".toList ++ heading, []] := by
  have hbreak : "\n\n".toList = ['\n', '\n'] := by decide
  have hline : '\n' ∉ "## ".toList ++ heading := by
    intro hmem
    rcases List.mem_append.mp hmem with hmem | hmem
    · exact absurd hmem (by decide)
    · exact hheading hmem
  have hlast : lines ("## ".toList ++ heading ++ ['\n']) = ["## ".toList ++ heading, []] := by
    rw [Doc.lines_append, Doc.lines_line hline, Doc.lines_nil]
    rfl
  rw [Doc.appendLead]
  split
  · rw [List.nil_append, List.nil_append, hlast]
  · have hlead (core rest : Text) :
        lines (core ++ ['\n', '\n'] ++ rest) = lines core ++ [[]] ++ lines rest := by
      have hrest : core ++ ['\n', '\n'] ++ rest = core ++ '\n' :: '\n' :: rest := by simp
      rw [hrest, Doc.lines_append, Doc.lines_newline, List.append_assoc]
      rfl
    rw [hbreak, ← hlast, List.append_assoc, List.append_assoc, hlead, List.append_assoc "## ".toList]

/-- A region under a heading of its own is written as one alone. -/
theorem Ready.section {heading : Text} (h : Ready content) (hwritten : Written tag)
    (htag : IsTag tag) (hheading : '\n' ∉ heading) (hbody : ∀ l ∈ lines body, Plain l)
    (hsolid : Solid body) :
    Rewrites content tag body (upsertSectionRegion content heading tag body) := by
  unfold upsertSectionRegion
  split
  · exact h.upsert hwritten htag hbody hsolid
  · have hlead := Doc.scansAs_appendLead h.fence
    have hplain : ∀ l ∈ ["## ".toList ++ heading, []], Plain l := by
      intro l hl
      rcases List.mem_cons.mp hl with rfl | hl
      · exact .of_start rfl
      · rw [List.mem_singleton.mp hl]
        exact .nil
    have hscan := Doc.scansAs_plain_right hlead.fence hplain
    rw [← lines_section content hheading, hlead.regions, hlead.dangling, ← h.fence] at hscan
    have hwrite := (h.of_scans hscan).upsert hwritten htag hbody hsolid
    refine ⟨hwrite.ready, hwrite.body, fun tag' hne => ?_⟩
    rw [hwrite.others tag' hne, Doc.regionBody_eq, Doc.regionBody_eq, hscan.regions]

end rewrites

/-! ### What the document shows -/

/-- The tables of the document are those of the board. -/
structure Shows (content : Text) (board : Board) : Prop where
  queues : registryOf content = board.queues
  items : ∀ q, rowsOf content (itemRegionTag q) = board.items q

section shows

variable {content : Text} {board : Board}

theorem registryOf_congr {content' : Text}
    (h : regionBody content' queuesTag = regionBody content queuesTag) :
    registryOf content' = registryOf content := by
  rw [registryOf, registryOf, h]

theorem rowsOf_congr {content' tag : Text} (h : regionBody content' tag = regionBody content tag) :
    rowsOf content' tag = rowsOf content tag := by
  rw [rowsOf, rowsOf, h]

theorem rowsOf_render {tag : Text} {rows : List QueueRow} (hrows : ∀ row ∈ rows, row.OneLine)
    (h : regionBody content tag = some (QueueTable.render rows)) :
    rowsOf content tag = rows.map QueueRow.trimmed := by
  rw [rowsOf, h, Option.map_some, Option.getD_some, QueueTable.parse_render hrows]

/-- **A table written is the table shown**, its cells trimmed, and no other changes. -/
theorem Shows.writeRows {q : Text} {rows : List QueueRow} (h : Shows content board)
    (hready : Ready content) (hq : IsQueue q) (hrows : ∀ row ∈ rows, row.OneLine) :
    Ready (upsert content (itemRegionTag q) (QueueTable.render rows)) ∧
      Shows (upsert content (itemRegionTag q) (QueueTable.render rows))
        (board.setItems q (rows.map QueueRow.trimmed)) := by
  have hwrite := hready.upsert (.inr (.inr ⟨q, rfl⟩)) hq.isTag (QueueTable.plain_render hrows)
    (QueueTable.solid_render hrows)
  refine ⟨hwrite.ready, ?_, fun q' => ?_⟩
  · rw [registryOf_congr (hwrite.others _ (itemRegionTag_ne q).1.symm)]
    exact h.queues
  · by_cases heq : q' = q
    · subst heq
      rw [rowsOf_render hrows hwrite.body, Board.setItems_self]
    · have hne : itemRegionTag q' ≠ itemRegionTag q := fun htag => heq (itemRegionTag_injective htag)
      rw [rowsOf_congr (hwrite.others _ hne), h.items, Board.setItems_ne heq]

/-- **A queue registered is shown** behind the others, and its table is empty. -/
theorem Shows.registerQueue {args : AddQueueArgs} (h : Shows content board)
    (hready : Ready content) (hname : validateSlug (String.ofList args.name) = true)
    (hitems : board.items args.name = [])
    (hdefs : ∀ d ∈ board.queues, d.Registrable ∧ d.trimmed = d)
    (hnew : QueueDef.Registrable ⟨args.name, args.repo⟩) :
    Ready (registerQueue content args) ∧ Shows (registerQueue content args)
      { board with queues := board.queues ++ [⟨args.name, trim args.repo⟩] } := by
  have hword := isWord_slug hname
  have hall : ∀ d ∈ registryOf content ++ [⟨args.name, args.repo⟩], d.Registrable := by
    rw [h.queues]
    intro d hd
    rcases List.mem_append.mp hd with hd | hd
    · exact (hdefs d hd).1
    · exact List.mem_singleton.mp hd ▸ hnew
  have hregistry := @Ready.section _ _ _ "Queues".toList hready (.inl rfl) isTag_queues (by decide)
    (Registry.plain_render hall) (Registry.solid_render hall)
  have hheading : '\n' ∉ "Queue: ".toList ++ args.name := by
    intro hmem
    rcases List.mem_append.mp hmem with hmem | hmem
    · exact absurd hmem (by decide)
    · exact hnew.name hmem
  have hnone : ∀ row ∈ ([] : List QueueRow), row.OneLine := fun _ hrow => absurd hrow List.not_mem_nil
  have htable := @Ready.section _ _ _ ("Queue: ".toList ++ args.name) hregistry.ready
    (.inr (.inr ⟨args.name, rfl⟩)) (IsQueue.isTag (.inr hname)) hheading
    (QueueTable.plain_render hnone) (QueueTable.solid_render hnone)
  refine ⟨htable.ready, ?_, fun q => ?_⟩
  · have hbody := (htable.others _ (itemRegionTag_ne args.name).1.symm).trans hregistry.body
    have hkept : board.queues.map QueueDef.trimmed = board.queues :=
      (List.map_congr_left fun d hd => (hdefs d hd).2).trans (List.map_id _)
    rw [registryOf, Growlight.registerQueue, hbody, Option.map_some, Option.getD_some,
      Registry.parse_render hall, h.queues, List.map_append, hkept]
    exact congrArg (fun name => board.queues ++ [⟨name, trim args.repo⟩]) (trim_word hword.1)
  · by_cases heq : q = args.name
    · subst heq
      exact (rowsOf_render hnone htable.body).trans hitems.symm
    · have hne : itemRegionTag q ≠ itemRegionTag args.name :=
        fun htag => heq (itemRegionTag_injective htag)
      rw [Growlight.registerQueue, rowsOf_congr (htable.others _ hne),
        rowsOf_congr (hregistry.others _ (itemRegionTag_ne q).1), h.items]

/-- The paths that a refresh lists are lines. -/
def LinkEdit.OneLine : LinkEdit → Prop
  | .write sources => ∀ source ∈ sources, '\n' ∉ source
  | _ => True

theorem plain_renderBacklinks {sources : List Text} (h : ∀ source ∈ sources, '\n' ∉ source) :
    ∀ l ∈ lines (renderBacklinks sources), Plain l := by
  have hhead : "_Backlinks:_\n".toList = "_Backlinks:_".toList ++ '\n' :: [] := by decide
  have hitem : "\n- ".toList = '\n' :: "- ".toList := by decide
  have hline : ∀ source ∈ sources, '\n' ∉ "- ".toList ++ ticked source := by
    intro source hsource hmem
    rcases List.mem_append.mp hmem with hmem | hmem
    · exact absurd hmem (by decide)
    · rw [ticked, List.cons_append, List.mem_cons, List.mem_append, List.mem_singleton] at hmem
      rcases hmem with hmem | hmem | hmem
      · exact absurd hmem (by decide)
      · exact h source hsource hmem
      · exact absurd hmem (by decide)
  have hlines : lines (renderBacklinks sources) =
      "_Backlinks:_".toList :: [] :: sources.map fun source => "- ".toList ++ ticked source := by
    have htext : renderBacklinks sources = "_Backlinks:_".toList ++ '\n' :: ([] ++
        sources.flatMap fun source => '\n' :: ("- ".toList ++ ticked source)) :=
      (congrArg₂ (· ++ ·) hhead (congrArg (fun lead : Text =>
        sources.flatMap fun source => lead ++ ticked source) hitem)).trans (List.append_assoc ..)
    rw [htext, Doc.lines_append, lines_flatMap hline List.not_mem_nil]
    exact congrArg (· ++ _) (Doc.lines_line (by decide))
  rw [hlines]
  intro l hl
  rcases List.mem_cons.mp hl with rfl | hl
  · exact .of_start rfl
  · rcases List.mem_cons.mp hl with rfl | hl
    · exact .nil
    · obtain ⟨source, -, rfl⟩ := List.mem_map.mp hl
      exact .of_start rfl

/-- The refresh of the backlinks changes no table. -/
theorem Shows.links {links : LinkEdit} (h : Shows content board) (hready : Ready content)
    (hlinks : links.OneLine) : Ready (links.apply content) ∧ Shows (links.apply content) board := by
  have hkept {content' : Text}
      (hothers : ∀ tag, tag ≠ backlinksTag → regionBody content' tag = regionBody content tag) :
      Shows content' board :=
    ⟨(registryOf_congr (hothers _ (by decide))).trans h.queues,
      fun q => (rowsOf_congr (hothers _ (itemRegionTag_ne q).2)).trans (h.items q)⟩
  cases links with
  | keep => exact ⟨hready, h⟩
  | write sources =>
    have hfits := hready.fits (.inr (.inl rfl))
    have hbody := plain_renderBacklinks hlinks
    exact ⟨hready.of_scans (Doc.scans_upsert isTag_backlinks hbody hfits),
      hkept fun _ hne => Doc.regionBody_upsert_ne hne isTag_backlinks hbody hfits⟩
  | drop => exact ⟨hready.remove _, hkept fun _ hne => Doc.regionBody_remove_ne hne content⟩

end shows

end Softfig.Growlight
