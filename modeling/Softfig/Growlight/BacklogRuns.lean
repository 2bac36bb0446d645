import Softfig.Growlight.Board

/-!
Runs of the legacy queue verbs.

The document is the board that the accepted verbs describe, so long as every call commits, what is
committed reads back as written, and no cell breaks its line or is taken for a header. Holders are
kept apart from the document, and agree with it: a recorded holder's item is active.

- `addQueue_ok`, `enqueue_ok`, `setItemStatus_ok`, `reorder_ok`: what an accepted verb found and
  wrote;
- `Upheld.call`: what a call keeps;
- `backlog_faithful`: in such a run the tables are what the verbs describe, one item of a queue is
  active, and an item has one holder at a time;
- `not_faithful_brokenTitle`: a title with a line feed is lost.
-/

namespace Softfig.Growlight

open Doc (Text lines upsert regionBody Plain trim_trim mem_of_mem_trim)
open Queue (trim validateSlug pad3)
open Lib

/-! ### What the verbs found -/

section found

variable {grounds : Grounds} {b : Backlog} {board : Board} {member : Option Text} {id tag : Text}
  {content doc : Text} {queue : Option Text}

theorem readOrStub_ok (h : readOrStub grounds b = .ok content) : content = b.content := by
  unfold readOrStub at h
  unfold Backlog.content
  split at h
  · rename_i hnone
    rw [hnone]
    exact (Except.ok.inj h).symm
  · rename_i text hsome
    split at h
    · rw [hsome]
      exact (Except.ok.inj h).symm
    · cases h

theorem readDoc_ok (h : readDoc grounds b = .ok content) : content = b.content := by
  unfold readDoc at h
  unfold Backlog.content
  split at h
  · cases h
  · rename_i text hsome
    split at h
    · rw [hsome]
      exact (Except.ok.inj h).symm
    · cases h

theorem writeDerived_ok {text : Text} (h : writeDerived grounds text = .ok doc) : doc = text := by
  unfold writeDerived at h
  split at h
  · exact (Except.ok.inj h).symm
  · cases h

theorem isKnown_iff (h : Shows content board) {q : Text} :
    isKnown (registryOf content) q = true ↔ board.Known q := by
  rw [isKnown, h.queues, Bool.or_eq_true, decide_eq_true_eq, List.any_eq_true]
  simp only [decide_eq_true_eq, Board.Known]

theorem any_id_iff (h : Shows content board) {q : Text} :
    ((rowsOf content (itemRegionTag q)).any fun r => r.id = id) = true ↔ board.Holds q id := by
  rw [h.items, List.any_eq_true]
  simp only [decide_eq_true_eq, Board.Holds]

theorem mem_itemRegions (h : Shows content board) {region : Text × Text} :
    region ∈ itemRegions (registryOf content) ↔
      board.Known region.1 ∧ region.2 = itemRegionTag region.1 := by
  rw [itemRegions, h.queues, List.mem_cons, List.mem_map, Board.Known]
  constructor
  · rintro (rfl | ⟨d, hd, rfl⟩)
    · exact ⟨.inl rfl, rfl⟩
    · exact ⟨.inr ⟨d, hd, rfl⟩, rfl⟩
  · rintro ⟨hname | ⟨d, hd, hname⟩, htag⟩
    · exact .inl (Prod.ext hname (htag.trans (congrArg _ hname)))
    · exact .inr ⟨d, hd, Prod.ext hname ((congrArg _ hname).trans htag.symm)⟩

/-- The region resolved is that of the queue given, or of the only one with the id. -/
theorem resolve_ok (hshows : Shows content board)
    (h : resolveItemRegion content id queue = .ok tag) :
    ∃ q, tag = itemRegionTag q ∧ board.Known q ∧
      (board.Holds q id → board.Addressed id queue q) := by
  unfold resolveItemRegion at h
  split at h
  · rename_i q
    split at h
    · rename_i hknown
      have hknown := (isKnown_iff hshows).mp hknown
      exact ⟨q, (Except.ok.inj h).symm, hknown, fun hholds => ⟨hknown, hholds, rfl⟩⟩
    · cases h
  · simp only at h
    split at h
    · cases h
    · rename_i name hhits
      have hmem : ∀ q, q = name ↔ board.Known q ∧ board.Holds q id := by
        intro q
        rw [← List.mem_singleton, ← hhits, List.mem_map]
        constructor
        · rintro ⟨region, hregion, rfl⟩
          obtain ⟨hregion, hany⟩ := List.mem_filter.mp hregion
          obtain ⟨hknown, htag⟩ := (mem_itemRegions hshows).mp hregion
          rw [htag] at hany
          exact ⟨hknown, (any_id_iff hshows).mp hany⟩
        · rintro ⟨hknown, hholds⟩
          exact ⟨(q, itemRegionTag q), List.mem_filter.mpr
            ⟨(mem_itemRegions hshows).mpr ⟨hknown, rfl⟩, (any_id_iff hshows).mpr hholds⟩, rfl⟩
      obtain ⟨hknown, hholds⟩ := (hmem name).mp rfl
      exact ⟨name, (Except.ok.inj h).symm, hknown, fun _ =>
        ⟨hknown, hholds, fun q hq hq' => (hmem q).mpr ⟨hq, hq'⟩⟩⟩
    · cases h

theorem Board.Addressed.unique {q q' : Text} (h : board.Addressed id queue q)
    (h' : board.Addressed id queue q') : q = q' := by
  obtain ⟨hknown, hholds, h⟩ := h
  obtain ⟨hknown', hholds', h'⟩ := h'
  cases queue with
  | some given => exact h.trans h'.symm
  | none => exact h' q hknown hholds

theorem findRow_ok {rows : List QueueRow} {i : Fin rows.length} (h : findRow rows id = .ok i) :
    (rows.get i).id = id := by
  unfold findRow at h
  split at h
  · cases h
  · rename_i j hfound
    obtain rfl := Except.ok.inj h
    exact of_decide_eq_true (List.findFinIdx?_eq_some_iff.mp hfound).1

/-- In a table whose ids differ, setting the status of a place is setting that of its id. -/
theorem set_status {rows : List QueueRow} (hids : (rows.map QueueRow.id).Nodup)
    (i : Fin rows.length) (status : Text) :
    rows.set i ((rows.get i).withStatus status) = rows.map (Board.setStatus (rows.get i).id status) := by
  apply List.ext_getElem (by simp)
  intro j hset hmap
  have hj : j < rows.length := by simpa using hset
  rw [List.getElem_set, List.getElem_map, Board.setStatus]
  by_cases heq : (i : Nat) = j
  · subst heq
    simp
  · rw [if_neg heq, if_neg]
    intro hid
    have hj' : j < (rows.map QueueRow.id).length := by simpa using hj
    have hi' : (i : Nat) < (rows.map QueueRow.id).length := by simp
    have hsame : (rows.map QueueRow.id)[j] = (rows.map QueueRow.id)[(i : Nat)] := by simpa using hid
    exact heq (hids.getElem_inj_iff.mp hsame).symm

theorem writeStatus_ok {rows : List QueueRow} {i : Fin rows.length} {status : Text}
    (h : writeStatus grounds content tag rows i status = .ok doc) :
    (status = active → ∀ row ∈ rows, row.status = active → row = (rows.get i)) ∧
      doc = upsert content tag (QueueTable.render (rows.set i ((rows.get i).withStatus status))) := by
  unfold writeStatus at h
  simp only at h
  split at h
  · cases h
  · rename_i hother
    refine ⟨fun hactive row hrow hrowActive => ?_, writeDerived_ok h⟩
    rw [if_pos hactive, List.find?_eq_none] at hother
    obtain ⟨j, hj, rfl⟩ := List.mem_iff_getElem.mp hrow
    have hfound := hother (rows[j], j) (List.mem_zipIdx_iff_getElem?.mpr
      (List.getElem?_eq_getElem hj))
    simp only [decide_eq_true_eq, not_and] at hfound
    have heq : j = i := by
      by_contra hne
      exact hfound hne hrowActive
    subst heq
    rfl

theorem checkSlug_ok {slug : Text} {u : Unit} (h : checkSlug slug = .ok u) :
    validateSlug (String.ofList slug) = true := by
  rw [checkSlug, refuseIf_eq_ok] at h
  simpa using h

theorem addQueue_ok {args : AddQueueArgs} (hshows : Shows b.content board)
    (h : addQueue grounds b member args = .ok doc) :
    validateSlug (String.ofList args.name) = true ∧ ¬board.Known args.name ∧
      doc = registerQueue b.content args := by
  unfold addQueue at h
  obtain ⟨-, h⟩ := refuseIf_bind_ok_iff.mp h
  obtain ⟨_, hname, h⟩ := bind_ok_iff.mp h
  obtain ⟨_, -, h⟩ := bind_ok_iff.mp h
  obtain ⟨content, hcontent, h⟩ := bind_ok_iff.mp h
  obtain ⟨hnew, h⟩ := refuseIf_bind_ok_iff.mp h
  obtain rfl := readOrStub_ok hcontent
  unfold validateQueueName at hname
  obtain ⟨hreserved, hslug⟩ := refuseIf_bind_ok_iff.mp hname
  rw [hshows.queues, List.any_eq_true] at hnew
  refine ⟨checkSlug_ok hslug, ?_, writeDerived_ok h⟩
  rintro (hdefault | ⟨d, hd, heq⟩)
  · exact hreserved hdefault
  · exact hnew ⟨d, hd, decide_eq_true heq⟩

theorem checkItem_ok {args : AddBacklogItemArgs} {u : Unit} (h : checkItem member args = .ok u) :
    args.itemType ∈ itemTypes ∧ validateSlug (String.ofList args.slug) = true := by
  unfold checkItem at h
  obtain ⟨htype, h⟩ := refuseIf_bind_ok_iff.mp h
  obtain ⟨_, hslug, -⟩ := bind_ok_iff.mp h
  exact ⟨not_not.mp htype, checkSlug_ok hslug⟩

theorem checkQueue_ok {q : Text} {u : Unit} (hshows : Shows b.content board)
    (h : checkQueue grounds b q = .ok u) : board.Known q := by
  unfold checkQueue at h
  split at h
  · exact .inl ‹_›
  · obtain ⟨content, hcontent, h⟩ := bind_ok_iff.mp h
    obtain rfl := readOrStub_ok hcontent
    rw [refuseIf_eq_ok, Bool.not_eq_false] at h
    exact (isKnown_iff hshows).mp h

/-- Writing an item's documents leaves the backlog document and the holders, and the id is a word. -/
theorem writeItem_cases {args : AddBacklogItemArgs} (date : Text)
    (hslug : validateSlug (String.ofList args.slug) = true) :
    (writeItem grounds b args date).1.doc = b.doc ∧
      (writeItem grounds b args date).1.holders = b.holders ∧
      ∀ id path, (writeItem grounds b args date).2 = .ok (id, path) →
        IsWord id ∧ (args.itemType = "milestone".toList → id = args.slug) := by
  unfold writeItem
  split
  · simp only
    split
    · exact ⟨rfl, rfl, fun _ _ h => by cases h⟩
    · split
      · exact ⟨rfl, rfl, fun _ _ h => by cases h⟩
      · split
        · exact ⟨rfl, rfl, fun _ _ h => by cases h⟩
        · refine ⟨rfl, rfl, fun id path h => ?_⟩
          obtain ⟨rfl, -⟩ := Prod.mk.inj (Except.ok.inj h)
          exact ⟨(isWord_slug hslug).1, fun _ => rfl⟩
  · rename_i htask
    simp only
    split
    · exact ⟨rfl, rfl, fun _ _ h => by cases h⟩
    · split
      · exact ⟨rfl, rfl, fun _ _ h => by cases h⟩
      · split
        · exact ⟨rfl, rfl, fun _ _ h => by cases h⟩
        · refine ⟨rfl, rfl, fun id path h => ?_⟩
          obtain ⟨rfl, -⟩ := Prod.mk.inj (Except.ok.inj h)
          exact ⟨isWord_pad3 _, fun hmilestone => absurd hmilestone htask⟩

theorem enqueue_ok {q : Text} {row : QueueRow} (hshows : Shows b.content board)
    (h : enqueue grounds b (itemRegionTag q) row = .ok doc) :
    ¬board.Holds q row.id ∧ doc = upsert b.content (itemRegionTag q)
      (QueueTable.render (board.items q ++ [row])) := by
  unfold enqueue at h
  obtain ⟨content, hcontent, h⟩ := bind_ok_iff.mp h
  obtain rfl := readOrStub_ok hcontent
  obtain ⟨hnew, h⟩ := refuseIf_bind_ok_iff.mp h
  rw [any_id_iff hshows] at hnew
  rw [hshows.items] at h
  exact ⟨hnew, writeDerived_ok h⟩

/-- What an accepted change of a status found and is to do: nothing where the status is not the one
expected; or else the holder is set, and the table written unless the row has the status. -/
theorem setItemStatus_ok {args : SetItemStatusArgs} {change : StatusChange}
    (hshows : Shows b.content board) (htidy : board.Tidy)
    (h : setItemStatus grounds b member args = .ok change) :
    args.status ∈ statuses ∧ ∃ q row, board.Addressed args.id args.queue q ∧
      row ∈ board.items q ∧ row.id = args.id ∧ change.key = (itemRegionTag q, args.id) ∧
      ((∃ want, args.ifStatus = some want ∧ row.status ≠ want ∧
          change = ⟨none, change.key, .leave, row.status⟩) ∨
        (∀ want, args.ifStatus = some want → row.status = want) ∧
          holderOp b change.key args = .ok change.op ∧ change.status = args.status ∧
          (row.status = args.status ∧ change.doc = none ∨
            (args.status = active → ∀ other ∈ board.items q, other.status = active → other = row) ∧
              change.doc = some (upsert b.content (itemRegionTag q) (QueueTable.render
                ((board.items q).map (Board.setStatus args.id args.status)))))) := by
  unfold setItemStatus at h
  obtain ⟨_, hcheck, h⟩ := bind_ok_iff.mp h
  unfold checkStatus at hcheck
  obtain ⟨_, -, hcheck⟩ := bind_ok_iff.mp hcheck
  obtain ⟨hstatus, -⟩ := refuseIf_bind_ok_iff.mp hcheck
  obtain ⟨content, hcontent, h⟩ := bind_ok_iff.mp h
  obtain ⟨tag, htag, h⟩ := bind_ok_iff.mp h
  obtain rfl := readDoc_ok hcontent
  obtain ⟨q, rfl, hknown, haddressed⟩ := resolve_ok hshows htag
  rw [hshows.items] at h
  unfold changeStatus at h
  obtain ⟨i, hi, h⟩ := bind_ok_iff.mp h
  obtain ⟨_, -, h⟩ := bind_ok_iff.mp h
  have hid := findRow_ok hi
  have hmem : (board.items q).get i ∈ board.items q := List.getElem_mem _
  refine ⟨not_not.mp hstatus, q, _, haddressed ⟨_, hmem, hid⟩, hmem, hid, ?_⟩
  split at h
  · rename_i hexpected
    obtain rfl := Except.ok.inj h
    cases hwant : args.ifStatus with
    | none =>
      rw [hwant] at hexpected
      cases hexpected
    | some want =>
      rw [hwant] at hexpected
      exact ⟨rfl, .inl ⟨want, rfl, of_decide_eq_true hexpected, rfl⟩⟩
  · rename_i hexpected
    have hexpected : ∀ want, args.ifStatus = some want → ((board.items q).get i).status = want := by
      intro want hwant
      rw [hwant] at hexpected
      simpa using hexpected
    obtain ⟨op, hop, h⟩ := bind_ok_iff.mp h
    split at h
    · rename_i hsame
      obtain rfl := Except.ok.inj h
      exact ⟨rfl, .inr ⟨hexpected, hop, rfl, .inl ⟨hsame, rfl⟩⟩⟩
    · obtain ⟨doc, hdoc, h⟩ := bind_ok_iff.mp h
      obtain rfl := Except.ok.inj h
      obtain ⟨hactive, rfl⟩ := writeStatus_ok hdoc
      rw [set_status (htidy.ids q), hid]
      exact ⟨rfl, .inr ⟨hexpected, hop, rfl, .inr ⟨hactive, rfl⟩⟩⟩

theorem reorder_ok {args : ReorderBacklogItemArgs} {text : Option Text} {index : Nat}
    (hshows : Shows b.content board) (htidy : board.Tidy)
    (h : reorderBacklogItem grounds b member args = .ok (text, index)) :
    ∃ q row position moved, board.Addressed args.id args.queue q ∧ row ∈ board.items q ∧
      row.id = args.id ∧ parsePosition args.position args.refId = .ok position ∧
      Moved (board.items q) row position moved ∧
      (moved = board.items q ∧ text = none ∨
        text = some (upsert b.content (itemRegionTag q) (QueueTable.render moved))) := by
  unfold reorderBacklogItem at h
  obtain ⟨_, -, h⟩ := bind_ok_iff.mp h
  obtain ⟨position, hposition, h⟩ := bind_ok_iff.mp h
  obtain ⟨-, h⟩ := refuseIf_bind_ok_iff.mp h
  obtain ⟨content, hcontent, h⟩ := bind_ok_iff.mp h
  obtain ⟨tag, htag, h⟩ := bind_ok_iff.mp h
  obtain rfl := readDoc_ok hcontent
  obtain ⟨q, rfl, hknown, haddressed⟩ := resolve_ok hshows htag
  simp only at h
  rw [hshows.items] at h
  obtain ⟨i, hi, h⟩ := bind_ok_iff.mp h
  obtain ⟨moved, hmoved, h⟩ := bind_ok_iff.mp h
  have hid := findRow_ok hi
  have hmem : (board.items q).get i ∈ board.items q := List.getElem_mem _
  have hreordered : reordered (board.items q) i position = .ok moved := by
    cases hresult : reordered (board.items q) i position with
    | error e =>
      rw [hresult] at hmoved
      cases hmoved
    | ok rows =>
      rw [hresult] at hmoved
      exact congrArg _ (Except.ok.inj hmoved)
  refine ⟨q, _, position, moved, haddressed ⟨_, hmem, hid⟩, hmem, hid, hposition,
    reordered_moved (htidy.ids q) hreordered, ?_⟩
  split at h
  · rename_i hsame
    obtain ⟨rfl, -⟩ := Prod.mk.inj (Except.ok.inj h)
    exact .inl ⟨hsame, rfl⟩
  · obtain ⟨doc, hdoc, h⟩ := bind_ok_iff.mp h
    obtain ⟨rfl, -⟩ := Prod.mk.inj (Except.ok.inj h)
    exact .inr (congrArg some (writeDerived_ok hdoc))

end found

/-! ### The board a verb leaves -/

section tidy

variable {board : Board} {q : Text} {rows : List QueueRow}

theorem Board.Tidy.isQueue (h : board.Tidy) (hq : board.Known q) : IsQueue q := by
  rcases hq with rfl | ⟨d, hd, rfl⟩
  · exact .inl rfl
  · exact .inr (h.queues d hd).1

/-- A tidy table for a known queue keeps the board tidy. -/
theorem Board.Tidy.setItems (h : board.Tidy) (hq : board.Known q)
    (hids : (rows.map QueueRow.id).Nodup) (hrows : ∀ row ∈ rows, row.OneLine ∧ row.trimmed = row)
    (hactive : ∀ row ∈ rows, ∀ row' ∈ rows, row.status = active → row'.status = active → row = row') :
    (board.setItems q rows).Tidy where
  names := h.names
  queues := h.queues
  known := by
    intro q' hunknown
    have hne : q' ≠ q := fun heq => hunknown (heq ▸ hq)
    rw [setItems_ne hne]
    exact h.known q' hunknown
  ids := by
    intro q'
    by_cases heq : q' = q
    · rwa [heq, setItems_self]
    · rw [setItems_ne heq]
      exact h.ids q'
  rows := by
    intro q'
    by_cases heq : q' = q
    · rwa [heq, setItems_self]
    · rw [setItems_ne heq]
      exact h.rows q'
  oneActive := by
    intro q'
    by_cases heq : q' = q
    · rwa [heq, setItems_self]
    · rw [setItems_ne heq]
      exact h.oneActive q'

theorem Board.Tidy.trimmed (h : board.Tidy) (q : Text) :
    (board.items q).map QueueRow.trimmed = board.items q :=
  (List.map_congr_left fun row hrow => (h.rows q row hrow).2).trans (List.map_id _)

theorem Board.Tidy.addQueue {d : QueueDef} (h : board.Tidy)
    (hname : validateSlug (String.ofList d.name) = true) (hnew : ¬board.Known d.name)
    (hd : d.Registrable ∧ d.trimmed = d) :
    Board.Tidy { board with queues := board.queues ++ [d] } where
  names := by
    rw [List.map_append, List.map_singleton, List.nodup_append]
    refine ⟨h.names, List.nodup_singleton _, fun name hname name' hname' => ?_⟩
    obtain ⟨d', hd', rfl⟩ := List.mem_map.mp hname
    rw [List.mem_singleton.mp hname']
    exact fun heq => hnew (.inr ⟨d', hd', heq⟩)
  queues := by
    intro d' hd'
    rcases List.mem_append.mp hd' with hd' | hd'
    · exact h.queues d' hd'
    · rw [List.mem_singleton.mp hd']
      exact ⟨hname, fun heq => hnew (.inl heq), hd⟩
  known := by
    intro q hunknown
    apply h.known q
    rintro (hq | ⟨d', hd', hq⟩)
    · exact hunknown (.inl hq)
    · exact hunknown (.inr ⟨d', List.mem_append_left _ hd', hq⟩)
  ids := h.ids
  rows := h.rows
  oneActive := h.oneActive

theorem Board.Tidy.addItem {row : QueueRow} (h : board.Tidy) (hq : board.Known q)
    (hnew : ¬board.Holds q row.id) (hrow : row.OneLine ∧ row.trimmed = row)
    (hstatus : row.status ≠ active) : (board.setItems q (board.items q ++ [row])).Tidy := by
  apply h.setItems hq
  · rw [List.map_append, List.map_singleton, List.nodup_append]
    refine ⟨h.ids q, List.nodup_singleton _, fun id hid id' hid' => ?_⟩
    obtain ⟨r, hr, rfl⟩ := List.mem_map.mp hid
    rw [List.mem_singleton.mp hid']
    exact fun heq => hnew ⟨r, hr, heq⟩
  · intro r hr
    rcases List.mem_append.mp hr with hr | hr
    · exact h.rows q r hr
    · exact List.mem_singleton.mp hr ▸ hrow
  · have hold : ∀ r ∈ board.items q ++ [row], r.status = active → r ∈ board.items q := by
      intro r hr hactive
      rcases List.mem_append.mp hr with hr | hr
      · exact hr
      · exact absurd (List.mem_singleton.mp hr ▸ hactive) hstatus
    exact fun r hr r' hr' hactive hactive' =>
      h.oneActive q r (hold r hr hactive) r' (hold r' hr' hactive') hactive hactive'

theorem setStatus_id (id status : Text) (row : QueueRow) : (Board.setStatus id status row).id = row.id := by
  unfold Board.setStatus
  split
  · rfl
  · rfl

theorem map_setStatus_ids (id status : Text) (rows : List QueueRow) :
    (rows.map (Board.setStatus id status)).map QueueRow.id = rows.map QueueRow.id := by
  rw [List.map_map]
  exact List.map_congr_left fun row _ => setStatus_id id status row

theorem status_kept {status : Text} (h : status ∈ statuses) :
    '\n' ∉ status ∧ trim status = status := by
  have hall : statuses.all (fun s => !s.contains '\n' && trim s = s) = true := by decide
  have hstatus := List.all_eq_true.mp hall status h
  simpa using hstatus

theorem Board.Tidy.setStatus {row : QueueRow} {status : Text} (h : board.Tidy)
    (hq : board.Known q) (hrow : row ∈ board.items q) (hstatus : status ∈ statuses)
    (hother : status = active → ∀ other ∈ board.items q,
      other.status = active → other = row) :
    (board.setItems q ((board.items q).map (Board.setStatus row.id status))).Tidy := by
  apply h.setItems hq
  · rw [map_setStatus_ids]
    exact h.ids q
  · intro r hr
    obtain ⟨old, hold, rfl⟩ := List.mem_map.mp hr
    obtain ⟨hline, htrimmed⟩ := h.rows q old hold
    obtain ⟨hbreak, htrim⟩ := status_kept hstatus
    unfold Board.setStatus
    split
    · refine ⟨⟨hline.id, hline.itemType, hline.title, hbreak⟩, ?_⟩
      have hfields := htrimmed
      rw [QueueRow.trimmed, QueueRow.mk.injEq] at hfields
      rw [QueueRow.withStatus, QueueRow.trimmed, htrim, hfields.1, hfields.2.1, hfields.2.2.1]
    · exact ⟨hline, htrimmed⟩
  · -- An active row is the one set, or was active and then nothing else is set active.
    have hids : ∀ r ∈ board.items q, r.id = row.id → r = row := fun r hr heq =>
      List.inj_on_of_nodup_map (h.ids q) hr hrow heq
    have hcases : ∀ r ∈ board.items q,
        (Board.setStatus row.id status r).status = active →
        (r = row ∧ status = active) ∨
          (r.id ≠ row.id ∧ r.status = active) := by
      intro r hr hactive
      unfold Board.setStatus at hactive
      split at hactive
      · exact .inl ⟨hids r hr ‹_›, hactive⟩
      · exact .inr ⟨‹_›, hactive⟩
    intro r hr r' hr' hactive hactive'
    obtain ⟨old, hold, rfl⟩ := List.mem_map.mp hr
    obtain ⟨old', hold', rfl⟩ := List.mem_map.mp hr'
    rcases hcases old hold hactive with ⟨heq, hset⟩ | ⟨hne, hwas⟩
    · rcases hcases old' hold' hactive' with ⟨heq', -⟩ | ⟨hne', hwas'⟩
      · rw [heq, heq']
      · exact absurd (congrArg QueueRow.id (hother hset old' hold' hwas')) hne'
    · rcases hcases old' hold' hactive' with ⟨heq', hset⟩ | ⟨hne', hwas'⟩
      · exact absurd (congrArg QueueRow.id (hother hset old hold hwas)) hne
      · rw [h.oneActive q old hold old' hold' hwas hwas']

/-- A row set to the status it has changes nothing. -/
theorem map_setStatus_self {row : QueueRow} (h : board.Tidy) (hrow : row ∈ board.items q) :
    (board.items q).map (Board.setStatus row.id row.status) = board.items q := by
  refine (List.map_congr_left fun r hr => ?_).trans (List.map_id _)
  unfold Board.setStatus
  split
  · rename_i hid
    rw [List.inj_on_of_nodup_map (h.ids q) hr hrow hid]
    rfl
  · rfl

theorem Board.setItems_items (board : Board) (q : Text) : board.setItems q (board.items q) = board := by
  rw [Board.setItems, Function.update_eq_self]

/-- A reorder keeps the rows. -/
theorem Moved.perm {row : QueueRow} {position : Position} {moved : List QueueRow}
    (h : Moved rows row position moved) (hrow : row ∈ rows)
    (hids : (rows.map QueueRow.id).Nodup) : moved.Perm rows := by
  obtain ⟨front, back, rfl, hothers, -⟩ := h
  obtain ⟨before, after, rfl⟩ := List.append_of_mem hrow
  rw [filter_around hids] at hothers
  have hsame : (row :: (front ++ back)).Perm (row :: (before ++ after)) := hothers ▸ .refl _
  exact List.perm_middle.trans (hsame.trans List.perm_middle.symm)

theorem Board.Tidy.move {row : QueueRow} {position : Position} {moved : List QueueRow}
    (h : board.Tidy) (hq : board.Known q) (hrow : row ∈ board.items q)
    (hmoved : Moved (board.items q) row position moved) : (board.setItems q moved).Tidy := by
  have hperm := hmoved.perm hrow (h.ids q)
  apply h.setItems hq
  · exact (hperm.map _).nodup_iff.mpr (h.ids q)
  · exact fun r hr => h.rows q r (hperm.mem_iff.mp hr)
  · exact fun r hr r' hr' => h.oneActive q r (hperm.mem_iff.mp hr) r' (hperm.mem_iff.mp hr')

end tidy

/-! ### Runs -/

/-- The backlog, the verbs accepted with their replies, and what they did to holders, oldest first. -/
structure BacklogWorld where
  backlog : Backlog
  accepted : List (Verb × Reply)
  moves : List (PartKey × HolderOp)

/-- What a call that is accepted does to a holder. -/
def BacklogCall.moves (grounds : Grounds) (b : Backlog) (call : BacklogCall) :
    List (PartKey × HolderOp) :=
  match call.verb with
  | .setItemStatus args =>
    match setItemStatus grounds b call.member args with
    | .ok change => [(change.key, change.op)]
    | .error _ => []
  | _ => []

/-- The world after a call. -/
def BacklogWorld.call (grounds : Grounds) (w : BacklogWorld) (call : BacklogCall) : BacklogWorld :=
  let (backlog, result) := w.backlog.call grounds call
  match result with
  | .error _ => { w with backlog }
  | .ok reply => ⟨backlog, w.accepted ++ [(call.verb, reply)], w.moves ++ call.moves grounds w.backlog⟩

theorem BacklogWorld.call_backlog (grounds : Grounds) (w : BacklogWorld) (call : BacklogCall) :
    (w.call grounds call).backlog = (w.backlog.call grounds call).1 := by
  unfold BacklogWorld.call
  generalize w.backlog.call grounds call = result
  obtain ⟨backlog, e | reply⟩ := result
  · rfl
  · rfl

theorem BacklogWorld.call_accepted {grounds : Grounds} {w : BacklogWorld} {call : BacklogCall}
    {reply : Reply} (h : (w.backlog.call grounds call).2 = .ok reply) :
    (w.call grounds call).accepted = w.accepted ++ [(call.verb, reply)] := by
  unfold BacklogWorld.call
  generalize w.backlog.call grounds call = result at h
  obtain ⟨backlog, result⟩ := result
  obtain rfl := h
  rfl

/-- The holders after what was done to them. -/
def heldAfter (moves : List (PartKey × HolderOp)) : PartKey → Option Text :=
  moves.foldl (fun holders move => move.2.apply holders move.1) fun _ => none

/-- The document can be written and its tables are empty, no item is held, and nothing was done. An
absent document is read as the stub, which is such a one. -/
structure BacklogWorld.Fresh (w : BacklogWorld) : Prop where
  ready : Ready w.backlog.content
  shows : Shows w.backlog.content .empty
  holders : ∀ key, w.backlog.holders key = none
  accepted : w.accepted = []
  moves : w.moves = []

def backlogSystem (grounds : Grounds) : System BacklogWorld BacklogCall where
  init := BacklogWorld.Fresh
  step w call w' := w' = w.call grounds call

/-- The arguments for which the table holds what the verb is given: a title and a repo are one line,
as are the paths of a refresh, and a queue's row is taken neither for the header nor for the line
under it. -/
def Verb.Sound : Verb → Prop
  | .addQueue args => '\n' ∉ args.repo ∧
      ¬(args.name = "queue".toList ∧ trim args.repo = "repo".toList) ∧
      ¬(isRule args.name = true ∧ isRule (trim args.repo) = true)
  | .addBacklogItem args _ links => '\n' ∉ args.title ∧ links.OneLine
  | _ => True

/-- The calls that the backlog is faithful under: the commit succeeds, what it commits reads back as
written, and the arguments are sound. -/
structure BacklogCall.Sound (grounds : Grounds) (w : BacklogWorld) (call : BacklogCall) : Prop where
  committed : call.committed = true
  settles : ∀ text, (w.backlog.stage grounds call.member call.verb).1.doc = some text →
    grounds.settle text = text
  verb : call.verb.Sound

/-- What the backlog is to be after a sequence of accepted verbs: its tables are the board that they
describe, and an item whose holder is recorded is active and claimed by no other. -/
structure Faithful (grounds : Grounds) (w : BacklogWorld) (board : Board) : Prop where
  recorded : Board.Recorded w.accepted board
  shows : Shows w.backlog.content board
  tidy : board.Tidy
  held : ∀ q id h, w.backlog.holders (itemRegionTag q, id) = some h →
    ∃ row ∈ board.items q, row.id = id ∧ row.status = active
  refused : ∀ q h args member committed backlog reply,
    w.backlog.holders (itemRegionTag q, args.id) = some h → board.Addressed args.id args.queue q →
    args.status = active → (∃ claimant, args.holder = some claimant ∧ claimant ≠ h) →
    w.backlog.call grounds ⟨.setItemStatus args, member, committed⟩ = (backlog, .ok reply) →
    backlog = w.backlog ∧ ∃ want, args.ifStatus = some want ∧ want ≠ active
  exclusive : ∀ before between after key h h',
    w.moves = before ++ (key, .record h) :: (between ++ (key, .record h') :: after) →
    (key, .clear) ∉ between → h' = h

/-! ### What the holders were told -/

section holders

variable {moves before after : List (PartKey × HolderOp)} {key : PartKey} {op : HolderOp}

theorem heldAfter_concat (moves : List (PartKey × HolderOp)) (key : PartKey) (op : HolderOp) :
    heldAfter (moves ++ [(key, op)]) = op.apply (heldAfter moves) key :=
  List.foldl_concat ..

/-- A claim is by the holder, where one is recorded. -/
def Exclusive (moves : List (PartKey × HolderOp)) : Prop :=
  ∀ before after key h, moves = before ++ (key, .record h) :: after →
    ∀ h', heldAfter before key = some h' → h' = h

theorem Exclusive.snoc (h : Exclusive moves)
    (hop : ∀ claimant, op = .record claimant → ∀ h', heldAfter moves key = some h' → h' = claimant) :
    Exclusive (moves ++ [(key, op)]) := by
  intro before after key' claimant heq
  rcases List.eq_nil_or_concat after with rfl | ⟨rest, last, rfl⟩
  · obtain ⟨rfl, hlast⟩ := List.append_inj' heq rfl
    obtain ⟨rfl, rfl⟩ := Prod.mk.inj (List.cons.inj hlast).1
    exact hop claimant rfl
  · rw [List.concat_eq_append, ← List.cons_append, ← List.append_assoc] at heq
    obtain ⟨rfl, -⟩ := List.append_inj' heq rfl
    exact h before rest key' claimant rfl

/-- Until an item is released its claims are of one holder. -/
theorem Exclusive.between {between : List (PartKey × HolderOp)} {h h' : Text} (hmoves : Exclusive moves)
    (heq : moves = before ++ (key, .record h) :: (between ++ (key, .record h') :: after))
    (hclear : (key, .clear) ∉ between) : h' = h := by
  have hheld : ∀ rest, moves = before ++ (key, .record h) :: (between ++ rest) →
      heldAfter (before ++ (key, .record h) :: between) key = some h := by
    clear heq
    induction between using List.reverseRecOn with
    | nil =>
      intro rest heq
      rw [heldAfter_concat]
      exact Function.update_self ..
    | append_singleton between move ih =>
      intro rest heq
      obtain ⟨key', op⟩ := move
      have hprev := ih (fun hmem => hclear (List.mem_append_left _ hmem)) ((key', op) :: rest)
        (by rw [heq, List.append_assoc, List.singleton_append])
      have hlast := heldAfter_concat (before ++ (key, .record h) :: between) key' op
      rw [List.append_assoc, List.cons_append] at hlast
      rw [hlast]
      by_cases hkey : key = key'
      · subst hkey
        cases op with
        | record claimant =>
          have hsame := hmoves (before ++ (key, .record h) :: between) rest key claimant (by
            rw [heq]
            simp) h hprev
          rw [← hsame]
          exact Function.update_self ..
        | clear => exact absurd (List.mem_append_right _ (List.mem_singleton_self _)) hclear
        | leave => exact hprev
      · cases op with
        | record claimant => exact (Function.update_of_ne hkey ..).trans hprev
        | clear => exact (Function.update_of_ne hkey ..).trans hprev
        | leave => exact hprev
  exact (hmoves (before ++ (key, .record h) :: between) after key h' (by
    rw [heq]
    simp) h (hheld _ heq)).symm

end holders

/-! ### What a call keeps -/

/-- What the verbs keep: the document can be written and shows the board they describe, and the
holders are those of the moves, of active items, and one at a time. -/
structure Upheld (w : BacklogWorld) (board : Board) : Prop where
  ready : Ready w.backlog.content
  recorded : Board.Recorded w.accepted board
  shows : Shows w.backlog.content board
  tidy : board.Tidy
  held : ∀ key h, w.backlog.holders key = some h → ∃ q row, key = (itemRegionTag q, row.id) ∧
    row ∈ board.items q ∧ row.status = active
  moves : heldAfter w.moves = w.backlog.holders
  exclusive : Exclusive w.moves

section kept

variable {grounds : Grounds} {w : BacklogWorld} {board : Board}

theorem Upheld.of_fresh (h : w.Fresh) : Upheld w .empty where
  ready := h.ready
  recorded := h.accepted ▸ .empty
  shows := h.shows
  tidy := Board.tidy_empty
  held := by
    intro key holder hheld
    rw [h.holders] at hheld
    cases hheld
  moves := by
    rw [h.moves]
    exact (funext h.holders).symm
  exclusive := by
    intro before after key claimant heq
    rw [h.moves] at heq
    exact absurd heq.symm (by simp)

/-- A commit that succeeds leaves what was staged, where that reads back as written. -/
theorem call_eq {call : BacklogCall} (hsound : call.Sound grounds w) :
    w.backlog.call grounds call = ((w.backlog.stage grounds call.member call.verb).1,
      (w.backlog.stage grounds call.member call.verb).2.map Prod.fst) := by
  have hsettles := hsound.settles
  unfold Backlog.call
  generalize w.backlog.stage grounds call.member call.verb = result at hsettles ⊢
  obtain ⟨staged, e | ⟨reply, wrote⟩⟩ := result
  · rfl
  · cases wrote with
    | false => rfl
    | true =>
      have hdoc : staged.doc.map grounds.settle = staged.doc := by
        cases hdoc : staged.doc with
        | none => rfl
        | some text => exact congrArg some (hsettles text hdoc)
      simp only
      rw [if_pos hsound.committed, hdoc]
      rfl

/-- The holders of active items are so on a board that keeps the active items. -/
theorem Upheld.held_of (h : Upheld w board) {board' : Board}
    (hkept : ∀ q, ∀ row ∈ board.items q, row.status = active → ∃ row' ∈ board'.items q,
      row'.id = row.id ∧ row'.status = active) {key : PartKey} {holder : Text}
    (hheld : w.backlog.holders key = some holder) :
    ∃ q row, key = (itemRegionTag q, row.id) ∧ row ∈ board'.items q ∧ row.status = active := by
  obtain ⟨q, row, rfl, hrow, hactive⟩ := h.held key holder hheld
  obtain ⟨row', hrow', hid, hactive'⟩ := hkept q row hrow hactive
  exact ⟨q, row', by rw [hid], hrow', hactive'⟩

theorem content_some {b : Backlog} {doc : Text} (h : b.doc = some doc) : b.content = doc := by
  rw [Backlog.content, h, Option.getD_some]

/-- An accepted verb upholds what the verbs keep where it does to the board what it describes. -/
theorem Upheld.accept (h : Upheld w board) {backlog : Backlog} {doc : Text} {verb : Verb}
    {reply : Reply} {board' : Board} {moves : List (PartKey × HolderOp)}
    (hcontent : backlog.content = doc) (hready : Ready doc) (hshows : Shows doc board')
    (hdoes : board.Does verb reply board') (htidy : board'.Tidy)
    (hheld : ∀ key h, backlog.holders key = some h → ∃ q row, key = (itemRegionTag q, row.id) ∧
      row ∈ board'.items q ∧ row.status = active)
    (hmoves : heldAfter (w.moves ++ moves) = backlog.holders) (hexclusive : Exclusive (w.moves ++ moves)) :
    Upheld ⟨backlog, w.accepted ++ [(verb, reply)], w.moves ++ moves⟩ board' where
  ready := hcontent ▸ hready
  recorded := .snoc h.recorded hdoes
  shows := hcontent ▸ hshows
  tidy := htidy
  held := hheld
  moves := hmoves
  exclusive := hexclusive

/-- A verb that leaves the holders and every active item. -/
theorem Upheld.write (h : Upheld w board) {backlog : Backlog} {doc : Text} {verb : Verb}
    {reply : Reply} {board' : Board} (hcontent : backlog.content = doc)
    (hholders : backlog.holders = w.backlog.holders) (hready : Ready doc) (hshows : Shows doc board')
    (hdoes : board.Does verb reply board') (htidy : board'.Tidy)
    (hkept : ∀ q, ∀ row ∈ board.items q, row.status = active → row ∈ board'.items q) :
    Upheld ⟨backlog, w.accepted ++ [(verb, reply)], w.moves ++ []⟩ board' := by
  refine h.accept hcontent hready hshows hdoes htidy (fun key holder hheld => ?_) ?_ ?_
  · rw [hholders] at hheld
    exact h.held_of (fun q row hrow hactive => ⟨row, hkept q row hrow hactive, rfl, hactive⟩) hheld
  · rw [List.append_nil, hholders, h.moves]
  · rw [List.append_nil]
    exact h.exclusive

theorem Upheld.addQueue (h : Upheld w board) {member : Option Text} {args : AddQueueArgs}
    {doc : Text} (hsound : Verb.Sound (.addQueue args))
    (hadd : Growlight.addQueue grounds w.backlog member args = .ok doc) :
    ∃ board', Upheld ⟨{ w.backlog with doc },
      w.accepted ++ [(.addQueue args, .queue args.name args.repo)], w.moves ++ []⟩ board' := by
  obtain ⟨hrepo, hheader, hrule⟩ := hsound
  obtain ⟨hname, hnew, hdoc⟩ := addQueue_ok h.shows hadd
  have hword := isWord_slug hname
  have htrim := trim_word hword.1
  have hnamed : args.name ≠ [] := by
    intro hnil
    rw [hnil] at hname
    exact absurd hname (by decide)
  have hregistrable : QueueDef.Registrable ⟨args.name, args.repo⟩ := by
    refine ⟨fun hmem => (word_ne_break (hword.1 _ hmem)).1 rfl, hrepo, ?_, ?_, ?_⟩
    · rwa [htrim]
    · rwa [htrim]
    · rwa [htrim]
  have htrimmed : QueueDef.Registrable ⟨args.name, trim args.repo⟩ := by
    refine ⟨hregistrable.name, fun hmem => hrepo (mem_of_mem_trim hmem), hregistrable.named, ?_, ?_⟩
    · rw [trim_trim]
      exact hregistrable.header
    · rw [trim_trim]
      exact hregistrable.rule
  have hdefs : ∀ d ∈ board.queues, d.Registrable ∧ d.trimmed = d :=
    fun d hd => (h.tidy.queues d hd).2.2
  obtain ⟨hready, hshows⟩ := h.shows.registerQueue h.ready hname (h.tidy.known _ hnew) hdefs
    hregistrable
  rw [← hdoc] at hready hshows
  refine ⟨_, h.write (content_some rfl) rfl hready hshows (.queueAdded args hnew)
    (h.tidy.addQueue hname hnew ⟨htrimmed, ?_⟩) fun _ _ hrow _ => hrow⟩
  rw [QueueDef.trimmed, trim_trim, htrim]

theorem Upheld.addBacklogItem (h : Upheld w board) {member : Option Text}
    {args : AddBacklogItemArgs} {date id path doc : Text} {links : LinkEdit} {written : Backlog}
    (hsound : Verb.Sound (.addBacklogItem args date links))
    (hcheck : checkItem member args = .ok ())
    (hqueue : checkQueue grounds w.backlog (args.queue.getD defaultQueue) = .ok ())
    (hwritten : writeItem grounds w.backlog args date = (written, .ok (id, path)))
    (hdoc : enqueue grounds written (itemRegionTag (args.queue.getD defaultQueue))
      ⟨id, args.itemType, args.title, queued⟩ = .ok doc) :
    ∃ board', Upheld ⟨{ written with doc := links.apply doc },
      w.accepted ++ [(.addBacklogItem args date links, .item id path)], w.moves ++ []⟩ board' := by
  obtain ⟨htitle, hlinks⟩ := hsound
  obtain ⟨htype, hslug⟩ := checkItem_ok hcheck
  have hknown := checkQueue_ok h.shows hqueue
  obtain ⟨hsame, hholders, hid⟩ := @writeItem_cases grounds w.backlog args date hslug
  rw [hwritten] at hsame hholders hid
  obtain ⟨hword, hmilestone⟩ := hid id path rfl
  have hcontent : written.content = w.backlog.content := by
    rw [Backlog.content, Backlog.content, hsame]
  obtain ⟨hnew, hdoc⟩ := enqueue_ok (hcontent ▸ h.shows) hdoc
  have hitemType : '\n' ∉ args.itemType ∧ trim args.itemType = args.itemType := by
    have hall : itemTypes.all (fun t => !t.contains '\n' && trim t = t) = true := by decide
    simpa using List.all_eq_true.mp hall _ htype
  obtain ⟨hqueued, hqueuedTrim⟩ := status_kept (show queued ∈ statuses from List.mem_cons_self)
  have hbreak : '\n' ∉ id := fun hmem => (word_ne_break (hword _ hmem)).1 rfl
  have hrow : QueueRow.OneLine ⟨id, args.itemType, args.title, queued⟩ :=
    ⟨hbreak, hitemType.1, htitle, hqueued⟩
  have hrowTrim : QueueRow.trimmed ⟨id, args.itemType, args.title, queued⟩ =
      ⟨id, args.itemType, trim args.title, queued⟩ := by
    rw [QueueRow.trimmed, trim_word hword, hitemType.2, hqueuedTrim]
  have hlines : ∀ row ∈ board.items (args.queue.getD defaultQueue) ++
      [⟨id, args.itemType, args.title, queued⟩], row.OneLine := by
    intro row hmem
    rcases List.mem_append.mp hmem with hmem | hmem
    · exact (h.tidy.rows _ row hmem).1
    · exact List.mem_singleton.mp hmem ▸ hrow
  obtain ⟨hready, hshows⟩ := h.shows.writeRows h.ready (h.tidy.isQueue hknown) hlines
  rw [List.map_append, h.tidy.trimmed, List.map_singleton, hrowTrim] at hshows
  rw [hcontent] at hdoc
  rw [← hdoc] at hready hshows
  obtain ⟨hready, hshows⟩ := hshows.links hready hlinks
  refine ⟨_, h.write (content_some rfl) hholders hready hshows
    (.itemAdded args date links id path hknown hnew hmilestone)
    (h.tidy.addItem hknown hnew ⟨⟨hbreak, hitemType.1, fun hmem => htitle (mem_of_mem_trim hmem),
      hqueued⟩, ?_⟩ (show queued ≠ active by decide)) fun q row hmem _ => ?_⟩
  · rw [QueueRow.trimmed, trim_word hword, hitemType.2, trim_trim, hqueuedTrim]
  · by_cases heq : q = args.queue.getD defaultQueue
    · subst heq
      rw [Board.setItems_self]
      exact List.mem_append_left _ hmem
    · rwa [Board.setItems_ne heq]

theorem holderOp_ok {b : Backlog} {key : PartKey} {args : SetItemStatusArgs} {op : HolderOp}
    (h : holderOp b key args = .ok op) :
    (args.status = active ∧ args.holder = none ∧ op = .leave) ∨
      (args.status = active ∧ ∃ claimant, args.holder = some claimant ∧ op = .record claimant ∧
        ∀ holder, b.holders key = some holder → holder = claimant) ∨
      (args.status ≠ active ∧ op = .clear) := by
  unfold holderOp at h
  split at h
  · rename_i hactive
    cases hclaimant : args.holder with
    | none =>
      rw [hclaimant] at h
      exact .inl ⟨hactive, rfl, (Except.ok.inj h).symm⟩
    | some claimant =>
      refine .inr (.inl ⟨hactive, claimant, rfl, ?_⟩)
      rw [hclaimant] at h
      cases hheld : b.holders key with
      | none =>
        rw [hheld] at h
        exact ⟨(Except.ok.inj h).symm, fun _ hnone => by cases hnone⟩
      | some holder =>
        rw [hheld] at h
        by_cases heq : holder = claimant
        · simp only [claimGate, heq, ne_eq, not_true_eq_false, if_false] at h
          exact ⟨(Except.ok.inj h).symm, fun _ hsome => (Option.some.inj hsome).symm.trans heq⟩
        · simp only [claimGate, ne_eq, heq, not_false_eq_true, if_true] at h
          cases h
  · exact .inr (.inr ⟨‹_›, (Except.ok.inj h).symm⟩)

/-- An active row other than the one set, or of an item set active, is active afterwards. -/
theorem active_after {q q' id status : Text} {row : QueueRow} (hrow : row ∈ board.items q')
    (hactive : row.status = active) (hset : status = active ∨ ¬(q' = q ∧ row.id = id)) :
    ∃ row' ∈ (board.setItems q ((board.items q).map (Board.setStatus id status))).items q',
      row'.id = row.id ∧ row'.status = active := by
  by_cases heq : q' = q
  · subst heq
    refine ⟨Board.setStatus id status row, ?_, setStatus_id id status row, ?_⟩
    · rw [Board.setItems_self]
      exact List.mem_map_of_mem hrow
    · unfold Board.setStatus
      split
      · rename_i hid
        exact hset.resolve_right fun hnot => hnot ⟨rfl, hid⟩
      · exact hactive
  · rw [Board.setItems_ne heq]
    exact ⟨row, hrow, rfl, hactive⟩

theorem Upheld.setItemStatus (h : Upheld w board) {member : Option Text} {args : SetItemStatusArgs}
    {change : StatusChange}
    (hchange : Growlight.setItemStatus grounds w.backlog member args = .ok change) :
    ∃ board', Upheld ⟨{ w.backlog with
        doc := change.doc <|> w.backlog.doc
        holders := change.op.apply w.backlog.holders change.key },
      w.accepted ++ [(.setItemStatus args, .status args.id change.status)],
      w.moves ++ [(change.key, change.op)]⟩ board' := by
  obtain ⟨hstatus, q, row, haddressed, hrow, hid, hkey, hcases⟩ :=
    setItemStatus_ok h.shows h.tidy hchange
  have hmoves : heldAfter (w.moves ++ [(change.key, change.op)]) =
      change.op.apply w.backlog.holders change.key := by
    rw [heldAfter_concat, h.moves]
  rcases hcases with ⟨want, hwant, hne, hkept⟩ | ⟨hexpected, hop, hreply, hdoc⟩
  · -- The item is not in the status the caller expects: nothing is done.
    obtain ⟨doc, key, op, status⟩ := change
    obtain ⟨rfl, -, rfl, rfl⟩ := StatusChange.mk.inj hkept
    refine ⟨board, h.accept rfl h.ready h.shows (.statusKept args q want row haddressed hwant hrow hid
      hne) h.tidy h.held hmoves (h.exclusive.snoc fun _ hrecord => ?_)⟩
    cases hrecord
  · have hknown := haddressed.1
    have hother : args.status = active → ∀ other ∈ board.items q, other.status = active →
        other = row := by
      rcases hdoc with ⟨hsame, -⟩ | ⟨hother, -⟩
      · exact fun hactive other hmem hotherActive =>
          h.tidy.oneActive q other hmem row hrow hotherActive (hsame.trans hactive)
      · exact hother
    have htidy := h.tidy.setStatus hknown hrow hstatus hother
    rw [hid] at htidy
    have hrows := htidy.rows q
    have htrimmed := htidy.trimmed q
    rw [Board.setItems_self] at hrows htrimmed
    have hheld : ∀ key holder, change.op.apply w.backlog.holders change.key key = some holder →
        ∃ q' row', key = (itemRegionTag q', row'.id) ∧
          row' ∈ (board.setItems q ((board.items q).map
            (Board.setStatus args.id args.status))).items q' ∧ row'.status = active := by
      have hold : ∀ key holder, w.backlog.holders key = some holder →
          (args.status = active ∨ key ≠ change.key) → ∃ q' row', key = (itemRegionTag q', row'.id) ∧
          row' ∈ (board.setItems q ((board.items q).map
            (Board.setStatus args.id args.status))).items q' ∧ row'.status = active := by
        intro key holder hholder hset
        obtain ⟨q', old, rfl, hmem, hactive⟩ := h.held key holder hholder
        obtain ⟨row', hrow', hid', hactive'⟩ := @active_after board q q' args.id
          args.status old hmem hactive (hset.imp_right fun hne ⟨hq, hid⟩ =>
            hne (by rw [hkey, hq, hid]))
        exact ⟨q', row', by rw [hid'], hrow', hactive'⟩
      intro key holder hholder
      rcases holderOp_ok hop with ⟨hactive, -, heq⟩ | ⟨hactive, claimant, -, heq, -⟩ | ⟨-, heq⟩
      · rw [heq] at hholder
        exact hold key holder hholder (.inl hactive)
      · by_cases hsame : key = change.key
        · refine ⟨q, Board.setStatus args.id args.status row, ?_, ?_, ?_⟩
          · rw [setStatus_id, hid, hsame, hkey]
          · rw [Board.setItems_self]
            exact List.mem_map_of_mem hrow
          · rw [Board.setStatus, if_pos hid]
            exact hactive
        · rw [heq, HolderOp.apply, Function.update_of_ne hsame] at hholder
          exact hold key holder hholder (.inl hactive)
      · by_cases hsame : key = change.key
        · rw [heq, hsame, HolderOp.apply, Function.update_self] at hholder
          cases hholder
        · rw [heq, HolderOp.apply, Function.update_of_ne hsame] at hholder
          exact hold key holder hholder (.inr hsame)
    have hexclusive : Exclusive (w.moves ++ [(change.key, change.op)]) := by
      refine h.exclusive.snoc fun claimant hrecord holder hholder => ?_
      rw [h.moves] at hholder
      rcases holderOp_ok hop with ⟨-, -, heq⟩ | ⟨-, claimant', -, heq, hsame⟩ | ⟨-, heq⟩
      · rw [hrecord] at heq
        cases heq
      · rw [hrecord] at heq
        rw [HolderOp.record.inj heq]
        exact hsame holder hholder
      · rw [hrecord] at heq
        cases heq
    have hdoes := Board.Does.statusSet args q haddressed fun want hwant =>
      ⟨row, hrow, hid, hexpected want hwant⟩
    rw [hreply]
    rcases hdoc with ⟨hsame, hnone⟩ | ⟨-, hsome⟩
    · have hboard : board.setItems q ((board.items q).map (Board.setStatus args.id args.status)) =
          board := by
        rw [← hid, ← hsame, map_setStatus_self h.tidy hrow, Board.setItems_items]
      rw [hboard] at hheld hdoes
      rw [hnone]
      exact ⟨board, h.accept rfl h.ready h.shows hdoes h.tidy hheld hmoves hexclusive⟩
    · obtain ⟨hready, hshows⟩ := h.shows.writeRows h.ready (h.tidy.isQueue hknown)
        fun r hr => (hrows r hr).1
      rw [htrimmed] at hshows
      rw [hsome]
      exact ⟨_, h.accept (content_some rfl) hready hshows hdoes htidy hheld hmoves hexclusive⟩

theorem Upheld.reorderBacklogItem (h : Upheld w board) {member : Option Text}
    {args : ReorderBacklogItemArgs} {doc : Option Text} {index : Nat}
    (hreorder : Growlight.reorderBacklogItem grounds w.backlog member args = .ok (doc, index)) :
    ∃ board', Upheld ⟨{ w.backlog with doc := doc <|> w.backlog.doc },
      w.accepted ++ [(.reorderBacklogItem args, .index args.id index)], w.moves ++ []⟩ board' := by
  obtain ⟨q, row, position, moved, haddressed, hrow, hid, hposition, hmoved, hdoc⟩ :=
    reorder_ok h.shows h.tidy hreorder
  have hknown := haddressed.1
  have hperm := hmoved.perm hrow (h.tidy.ids q)
  have hdoes := Board.Does.reordered args q row position moved index haddressed hposition hrow hid
    hmoved
  have htidy := h.tidy.move hknown hrow hmoved
  rcases hdoc with ⟨hsame, rfl⟩ | rfl
  · rw [hsame, Board.setItems_items] at hdoes
    exact ⟨board, h.write rfl rfl h.ready h.shows hdoes h.tidy fun _ _ hmem _ => hmem⟩
  · obtain ⟨hready, hshows⟩ := h.shows.writeRows h.ready (h.tidy.isQueue hknown)
      fun r hr => (h.tidy.rows q r (hperm.mem_iff.mp hr)).1
    have htrimmed := htidy.trimmed q
    rw [Board.setItems_self] at htrimmed
    rw [htrimmed] at hshows
    refine ⟨_, h.write (content_some rfl) rfl hready hshows hdoes htidy fun q' r hr _ => ?_⟩
    by_cases heq : q' = q
    · subst heq
      rw [Board.setItems_self]
      exact hperm.mem_iff.mpr hr
    · rwa [Board.setItems_ne heq]

/-- A call that is refused may have written an item's own documents, and nothing else. -/
theorem Upheld.refused (h : Upheld w board) {backlog : Backlog} (hdoc : backlog.doc = w.backlog.doc)
    (hholders : backlog.holders = w.backlog.holders) : Upheld { w with backlog } board := by
  have hcontent : backlog.content = w.backlog.content := by
    rw [Backlog.content, Backlog.content, hdoc]
  exact ⟨hcontent ▸ h.ready, h.recorded, hcontent ▸ h.shows, h.tidy, hholders ▸ h.held,
    hholders ▸ h.moves, h.exclusive⟩

/-- **A call upholds what the verbs keep.** -/
theorem Upheld.call (h : Upheld w board) {call : BacklogCall} (hsound : call.Sound grounds w) :
    ∃ board', Upheld (w.call grounds call) board' := by
  have hcall := call_eq hsound
  have hverb := hsound.verb
  unfold BacklogWorld.call
  rw [hcall]
  clear hcall hsound
  obtain ⟨verb, member, committed⟩ := call
  cases verb with
  | addQueue args =>
    simp only [Backlog.stage]
    cases hadd : Growlight.addQueue grounds w.backlog member args with
    | error e => exact ⟨board, h.refused rfl rfl⟩
    | ok doc => exact h.addQueue hverb hadd
  | addBacklogItem args date links =>
    simp only [Backlog.stage]
    cases hcheck : checkItem member args with
    | error e => exact ⟨board, h.refused rfl rfl⟩
    | ok u =>
      cases hqueue : checkQueue grounds w.backlog (args.queue.getD defaultQueue) with
      | error e => exact ⟨board, h.refused rfl rfl⟩
      | ok u =>
        obtain ⟨hdoc, hholders, -⟩ := @writeItem_cases grounds w.backlog args date (checkItem_ok hcheck).2
        simp only [bind, Except.bind]
        cases hwritten : writeItem grounds w.backlog args date with
        | mk written result =>
          rw [hwritten] at hdoc hholders
          cases result with
          | error e => exact ⟨board, h.refused hdoc hholders⟩
          | ok item =>
            simp only
            cases henqueue : enqueue grounds written (itemRegionTag (args.queue.getD defaultQueue))
                ⟨item.1, args.itemType, args.title, queued⟩ with
            | error e => exact ⟨board, h.refused hdoc hholders⟩
            | ok doc => exact h.addBacklogItem hverb hcheck hqueue hwritten henqueue
  | setItemStatus args =>
    simp only [Backlog.stage]
    cases hchange : Growlight.setItemStatus grounds w.backlog member args with
    | error e => exact ⟨board, h.refused rfl rfl⟩
    | ok change =>
      have hmoves : BacklogCall.moves grounds w.backlog ⟨.setItemStatus args, member, committed⟩ =
          [(change.key, change.op)] := by
        simp only [BacklogCall.moves, hchange]
      rw [hmoves]
      exact h.setItemStatus hchange
  | reorderBacklogItem args =>
    simp only [Backlog.stage]
    cases hreorder : Growlight.reorderBacklogItem grounds w.backlog member args with
    | error e => exact ⟨board, h.refused rfl rfl⟩
    | ok moved => exact h.reorderBacklogItem hreorder

theorem Upheld.guarded {w₀ : BacklogWorld} {calls : List BacklogCall} (hinit : w₀.Fresh)
    (hrun : (backlogSystem grounds).Guarded (fun w call => call.Sound grounds w) w₀ calls w) :
    ∃ board, Upheld w board := by
  induction hrun with
  | refl => exact ⟨_, .of_fresh hinit⟩
  | snoc _ hsound hstep ih =>
    obtain ⟨board, h⟩ := ih
    obtain rfl := hstep
    exact h.call hsound

/-- A claim of an item that another holds is refused, or is passed over. -/
theorem Upheld.claim_refused (h : Upheld w board) {q holder claimant : Text}
    {args : SetItemStatusArgs} {member : Option Text} {change : StatusChange}
    (hheld : w.backlog.holders (itemRegionTag q, args.id) = some holder)
    (haddressed : board.Addressed args.id args.queue q) (hactive : args.status = active)
    (hclaimant : args.holder = some claimant) (hne : claimant ≠ holder)
    (hchange : Growlight.setItemStatus grounds w.backlog member args = .ok change) :
    change.doc = none ∧ change.op = .leave ∧ ∃ want, args.ifStatus = some want ∧ want ≠ active := by
  obtain ⟨-, q', row, haddressed', hrow, hid, hkey, hcases⟩ :=
    setItemStatus_ok h.shows h.tidy hchange
  obtain rfl := haddressed.unique haddressed'
  rcases hcases with ⟨want, hwant, hother, hkept⟩ | ⟨-, hop, -, -⟩
  · obtain ⟨q', held, htag, hmem, hheldActive⟩ := h.held _ _ hheld
    obtain ⟨htag, hheldId⟩ := Prod.mk.inj htag
    obtain rfl := itemRegionTag_injective htag
    have hsame := List.inj_on_of_nodup_map (h.tidy.ids q) hmem hrow (hheldId.symm.trans hid.symm)
    rw [hkept]
    refine ⟨rfl, rfl, want, hwant, ?_⟩
    rintro rfl
    exact hother (hsame ▸ hheldActive)
  · rcases holderOp_ok hop with ⟨-, hnone, -⟩ | ⟨-, claimant', hsome, -, hsame⟩ | ⟨hinactive, -⟩
    · rw [hclaimant] at hnone
      cases hnone
    · rw [hclaimant] at hsome
      rw [hkey] at hsame
      exact absurd ((Option.some.inj hsome).trans (hsame holder hheld).symm) hne
    · exact absurd hactive hinactive

theorem Upheld.faithful (h : Upheld w board) : Faithful grounds w board where
  recorded := h.recorded
  shows := h.shows
  tidy := h.tidy
  held := by
    intro q id holder hheld
    obtain ⟨q', row, hkey, hrow, hactive⟩ := h.held _ _ hheld
    obtain ⟨htag, hid⟩ := Prod.mk.inj hkey
    obtain rfl := itemRegionTag_injective htag
    exact ⟨row, hrow, hid.symm, hactive⟩
  refused := by
    intro q holder args member committed backlog reply hheld haddressed hactive hclaim hcall
    obtain ⟨claimant, hclaimant, hne⟩ := hclaim
    unfold Backlog.call Backlog.stage at hcall
    simp only at hcall
    cases hchange : Growlight.setItemStatus grounds w.backlog member args with
    | error e =>
      rw [hchange] at hcall
      cases hcall
    | ok change =>
      obtain ⟨hdoc, hop, hwant⟩ := h.claim_refused hheld haddressed hactive hclaimant hne hchange
      rw [hchange] at hcall
      simp only [hdoc, hop, Option.isSome_none] at hcall
      exact ⟨(Prod.mk.inj hcall).1.symm, hwant⟩
  exclusive := fun _ _ _ _ _ _ heq hclear => h.exclusive.between heq hclear

end kept

/-- **The backlog is what its verbs describe.** In a run from an empty backlog in which every call
commits what reads back as written, and is sound, the tables hold the queues and the items added,
once each and in the order of the reorders, with the last status set; one item of a queue is active;
and an item whose holder is recorded is active and is claimed by no other. -/
theorem backlog_faithful {grounds : Grounds} {w₀ w : BacklogWorld} {calls : List BacklogCall}
    (hinit : w₀.Fresh)
    (hrun : (backlogSystem grounds).Guarded (fun w call => call.Sound grounds w) w₀ calls w) :
    ∃ board, Faithful grounds w board := by
  obtain ⟨board, h⟩ := Upheld.guarded hinit hrun
  exact ⟨board, h.faithful⟩

/-! ### The first document -/

theorem plain_prose : ∀ l ∈ lines backlogProse, Plain l := by
  have hplain : (lines backlogProse).all Doc.plainStart = true := by
    unfold backlogProse
    iterate 8 rw [String.toList_ofList]
    decide +kernel
  exact fun l hl => .of_start (List.all_eq_true.mp hplain l hl)

/-- The first document is its prose with an empty table written to it. -/
theorem stub_eq : backlogStub = upsert backlogProse queueTag (QueueTable.render []) := by
  have hlocate : Doc.locate (lines backlogProse) queueTag = none := by
    rw [Doc.locate_eq_none, (Doc.regionsOf_plain plain_prose).1]
    exact fun _ hr => absurd hr List.not_mem_nil
  have hlast : "## Queue".toList = "## Queu".toList ++ ['e'] := by decide
  obtain ⟨front, hfront⟩ : ∃ front, backlogProse = front ++ ['e'] :=
    ⟨_, (congrArg (List.append _) hlast).trans (List.append_assoc ..).symm⟩
  have htrim : Doc.trimNewlines backlogProse = backlogProse := by
    rw [hfront]
    exact List.rdropWhile_concat_neg _ _ _ (by decide)
  have hne : backlogProse ≠ [] := by
    rw [hfront]
    exact List.append_ne_nil_of_right_ne_nil _ (List.cons_ne_nil _ _)
  rw [upsert, hlocate]
  simp only [htrim]
  rw [if_neg hne]
  rfl

theorem prose_ready : Ready backlogProse where
  fence := Doc.fenceAfter_plain plain_prose false
  closed := by
    rw [(Doc.regionsOf_plain plain_prose).2]
    exact fun _ htag => absurd htag List.not_mem_nil

theorem prose_shows : Shows backlogProse .empty := by
  have hnone (tag : Text) : regionBody backlogProse tag = none := by
    rw [Doc.regionBody_eq, (Doc.regionsOf_plain plain_prose).1]
    rfl
  exact ⟨by rw [registryOf, hnone]; rfl, fun q => by rw [rowsOf, hnone]; rfl⟩

/-- The tables of the first document are empty, and it can be written. -/
theorem stub_shows : Ready backlogStub ∧ Shows backlogStub .empty := by
  have hwrite := @Shows.writeRows _ _ defaultQueue [] prose_shows prose_ready (.inl rfl)
    fun _ hrow => absurd hrow List.not_mem_nil
  rw [List.map_nil] at hwrite
  have hempty : Board.empty.setItems defaultQueue [] = .empty := Board.setItems_items .empty _
  rw [hempty] at hwrite
  rw [stub_eq]
  exact hwrite

/-- The world without a backlog document. -/
def emptyGarden : BacklogWorld := ⟨⟨none, [], ⟨0, []⟩, fun _ => none⟩, [], []⟩

theorem emptyGarden_fresh : emptyGarden.Fresh where
  ready := stub_shows.1
  shows := stub_shows.2
  holders := fun _ => rfl
  accepted := rfl
  moves := rfl

/-! ### Runs on a plain garden -/

/-- A garden that refuses no write and keeps texts as they are. -/
def plainGrounds : Grounds := ⟨fun _ => true, fun _ _ => true, fun _ => true, id⟩

def demoItem (title : Text) : BacklogCall :=
  ⟨.addBacklogItem ⟨"milestone".toList, "m".toList, title, "x".toList, "y".toList, none⟩
    "2026-01-01".toList .keep, none, true⟩

def demoQueue : BacklogCall := ⟨.addQueue ⟨"side".toList, "~/side".toList⟩, none, true⟩

def demoClaim (holder : Text) : BacklogCall :=
  ⟨.setItemStatus ⟨"m".toList, active, none, some holder, none⟩, none, true⟩

def demoWorld : BacklogWorld :=
  ((emptyGarden.call plainGrounds demoQueue).call plainGrounds (demoItem "a | b".toList)).call
    plainGrounds (demoClaim "one".toList)

theorem backlog_faithful_demo :
    demoWorld.accepted.length = 3 ∧ ∃ board, Faithful plainGrounds demoWorld board := by
  have hrun : (backlogSystem plainGrounds).Guarded (fun w call => call.Sound plainGrounds w)
      emptyGarden [demoQueue, demoItem "a | b".toList, demoClaim "one".toList] demoWorld := by
    refine .snoc (.snoc (.snoc (.refl _) ?_ rfl) ?_ rfl) ?_ rfl
    · exact ⟨rfl, fun _ _ => rfl, by decide, by decide, by decide⟩
    · exact ⟨rfl, fun _ _ => rfl, by decide, trivial⟩
    · exact ⟨rfl, fun _ _ => rfl, trivial⟩
  exact ⟨by decide +kernel, backlog_faithful emptyGarden_fresh hrun⟩

theorem Board.Recorded.of_nil {board : Board} (h : Board.Recorded [] board) : board = .empty := by
  generalize hlog : ([] : List (Verb × Reply)) = log at h
  cases h with
  | empty => rfl
  | snoc => exact absurd hlog (List.append_ne_nil_of_right_ne_nil _ (List.cons_ne_nil _ _)).symm

/-- One verb was accepted on the empty board. -/
theorem Board.Recorded.of_single {verb : Verb} {reply : Reply} {board : Board}
    (h : Board.Recorded [(verb, reply)] board) : Board.empty.Does verb reply board := by
  generalize hlog : [(verb, reply)] = log at h
  cases h with
  | empty => cases hlog
  | snoc hbefore hdoes =>
    rw [← List.nil_append [(verb, reply)]] at hlog
    obtain ⟨rfl, hlast⟩ := List.append_inj' hlog rfl
    obtain ⟨rfl, rfl⟩ := Prod.mk.inj (List.cons.inj hlast).1
    exact hbefore.of_nil ▸ hdoes

/-- The world after an item whose title breaks its row. -/
def brokenTitle : BacklogWorld := emptyGarden.call plainGrounds (demoItem "a\nb".toList)

/-- **A title with a line feed is lost.** The verb is accepted, and the table it leaves is empty. -/
theorem not_faithful_brokenTitle : emptyGarden.Fresh ∧
    (backlogSystem plainGrounds).Run emptyGarden [demoItem "a\nb".toList] brokenTitle ∧
    brokenTitle.accepted.length = 1 ∧ ¬∃ board, Faithful plainGrounds brokenTitle board := by
  have hcall : let result := emptyGarden.backlog.call plainGrounds (demoItem "a\nb".toList)
      (result.2, rowsOf result.1.content (itemRegionTag defaultQueue)) =
        (.ok (.item "m".toList (milestoneClaude "m".toList)), []) := by decide +kernel
  obtain ⟨hreply, hrows⟩ := Prod.mk.inj hcall
  have haccepted : brokenTitle.accepted = [(_, _)] := BacklogWorld.call_accepted hreply
  have hbacklog : brokenTitle.backlog = _ := BacklogWorld.call_backlog ..
  rw [← hbacklog] at hrows
  refine ⟨emptyGarden_fresh, .single rfl, by rw [haccepted]; rfl, ?_⟩
  rintro ⟨board, h⟩
  have hrecorded := h.recorded
  rw [haccepted] at hrecorded
  have hitem : board.items defaultQueue ≠ [] := by
    cases hrecorded.of_single
    exact (Board.setItems_self ..).trans_ne (List.append_ne_nil_of_right_ne_nil _ (List.cons_ne_nil _ _))
  exact hitem ((h.shows.items _).symm.trans hrows)

end Softfig.Growlight
