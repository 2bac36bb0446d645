import Softfig.Queue.Items

/-!
Where an update leaves its row.

An update takes a row out of its list and puts it in at an index that is counted
in the list without it. `Stands` says where a position puts a row, with the rows
around it in place of an index.

- `placeEntry_spec`, `placeItem_spec`: the index found is the one the position
  names, and a lane keeps its rows together there;
- `queueUpdateEntry_exact`, `sliceUpdate_exact`: what an accepted update leaves;
- `lane_then_move`: a lane and a position in one request are the lane change and
  then the move;
- `updates_exact`: the three together.
-/

namespace Softfig.Queue

open Lib

/-! ### Places -/

/-- A row stands where a position says, among the rows it counts. -/
def Stands {α : Type} (key : α → String) (counts : α → Prop) (a : α) (rows : List α) :
    Position → Prop
  | .front => ∃ before after, rows = before ++ a :: after ∧ ∀ b ∈ before, ¬ counts b
  | .back => ∃ before after, rows = before ++ a :: after ∧ ∀ b ∈ after, ¬ counts b
  | .before ref => ∃ before r after, rows = before ++ a :: r :: after ∧ key r = ref ∧ counts r
  | .after ref => ∃ before r after, rows = before ++ r :: a :: after ∧ key r = ref ∧ counts r

section stands

variable {α : Type} {key : α → String} {counts : α → Prop} {k : String} {f : α → α} {a : α}
  {rows : List α} {position : Position}

theorem modify_middle {before after : List α} (hkeys : ((before ++ a :: after).map key).Nodup)
    (ha : key a = k) : Rows.modify key k f (before ++ a :: after) = before ++ f a :: after := by
  refine Rows.modify_append_cons ?_ ha
  rintro b hb rfl
  rw [List.map_append, List.map_cons] at hkeys
  have hdisjoint := (List.nodup_append.mp hkeys).2.2 (key b) (List.mem_map_of_mem hb) (key a)
    List.mem_cons_self
  exact hdisjoint ha.symm

/-- A row edited in place stands where it stood. -/
theorem Stands.modify (h : Stands key counts a rows position) (hkeys : (rows.map key).Nodup)
    (ha : key a = k) : Stands key counts (f a) (Rows.modify key k f rows) position := by
  cases position with
  | front =>
    obtain ⟨before, after, rfl, hbefore⟩ := h
    exact ⟨before, after, modify_middle hkeys ha, hbefore⟩
  | back =>
    obtain ⟨before, after, rfl, hafter⟩ := h
    exact ⟨before, after, modify_middle hkeys ha, hafter⟩
  | before ref =>
    obtain ⟨before, r, after, rfl, hr⟩ := h
    exact ⟨before, r, after, modify_middle hkeys ha, hr⟩
  | after ref =>
    obtain ⟨before, r, after, rfl, hr⟩ := h
    have hsplit : before ++ r :: a :: after = (before ++ [r]) ++ a :: after := by simp
    rw [hsplit] at hkeys ⊢
    refine ⟨before, r, after, ?_, hr⟩
    rw [modify_middle hkeys ha, List.append_assoc, List.singleton_append]

end stands

/-! ### Lanes -/

/-- Urgent rows first. -/
def UrgentFirst (rows : List Entry) : Prop :=
  rows.Pairwise fun a b => a.lane = .normal → b.lane ≠ .urgent

/-- Between the two lists a row of the lane can stand: next to one of the lane, or at the end of
the list that is the lane's. -/
def Edge (lane : Lane) (before after : List Entry) : Prop :=
  (∃ p, after.head? = some p ∧ p.lane = lane) ∨ (∃ p, before.getLast? = some p ∧ p.lane = lane) ∨
    (lane = .urgent ∧ before = []) ∨ (lane = .normal ∧ after = [])

theorem UrgentFirst.insert {before after : List Entry} {e : Entry}
    (h : UrgentFirst (before ++ after)) (hedge : Edge e.lane before after) :
    UrgentFirst (before ++ e :: after) := by
  obtain ⟨hbefore, hafter, hacross⟩ := List.pairwise_append.mp h
  have hlater : ∀ c ∈ after, e.lane = .normal → c.lane ≠ .urgent := by
    intro c hc he
    rcases hedge with ⟨p, hp, hlane⟩ | ⟨p, hp, hlane⟩ | ⟨hurgent, -⟩ | ⟨-, rfl⟩
    · obtain ⟨rest, rfl⟩ := List.head?_eq_some_iff.mp hp
      rcases List.mem_cons.mp hc with rfl | hc
      · rw [hlane, he]
        decide
      · exact (List.pairwise_cons.mp hafter).1 c hc (hlane.trans he)
    · exact hacross p (List.mem_of_getLast? hp) c hc (hlane.trans he)
    · rw [hurgent] at he
      cases he
    · cases hc
  have hearlier : ∀ b ∈ before, b.lane = .normal → e.lane ≠ .urgent := by
    intro b hb hnormal he
    rcases hedge with ⟨p, hp, hlane⟩ | ⟨p, hp, hlane⟩ | ⟨-, rfl⟩ | ⟨hlane, -⟩
    · exact hacross b hb p (List.mem_of_head? hp) hnormal (hlane.trans he)
    · obtain ⟨init, rfl⟩ := List.getLast?_eq_some_iff.mp hp
      rcases List.mem_append.mp hb with hb | hb
      · exact (List.pairwise_append.mp hbefore).2.2 b hb p (List.mem_singleton_self _) hnormal
          (hlane.trans he)
      · rw [List.mem_singleton.mp hb, hlane, he] at hnormal
        cases hnormal
    · cases hb
    · rw [hlane] at he
      cases he
  refine List.pairwise_append.mpr ⟨hbefore, List.pairwise_cons.mpr ⟨hlater, hafter⟩, ?_⟩
  intro b hb c hc
  rcases List.mem_cons.mp hc with rfl | hc
  · exact hearlier b hb
  · exact hacross b hb c hc

theorem laneFront_spec (entries : List Entry) (lane : Lane) :
    ∃ before after, entries = before ++ after ∧ before.length = laneFront entries lane ∧
      (∀ b ∈ before, b.lane ≠ lane) ∧ Edge lane before after := by
  unfold laneFront
  split
  · rename_i i hi
    obtain ⟨hlt, hlane, hfirst⟩ := List.findIdx?_eq_some_iff_getElem.mp hi
    refine ⟨entries.take i, entries.drop i, (List.take_append_drop i entries).symm,
      List.length_take_of_le hlt.le, ?_, Or.inl ⟨entries[i], ?_, by simpa using hlane⟩⟩
    · intro b hb
      obtain ⟨j, hj, rfl⟩ := List.mem_iff_getElem.mp hb
      rw [List.length_take, Nat.lt_min] at hj
      rw [List.getElem_take]
      simpa using hfirst j hj.1
    · rw [List.head?_drop, List.getElem?_eq_getElem hlt]
  · rename_i hnone
    rw [List.findIdx?_eq_none_iff] at hnone
    have habsent : ∀ b ∈ entries, b.lane ≠ lane := by
      intro b hb
      simpa using hnone b hb
    cases lane with
    | urgent => exact ⟨[], entries, rfl, rfl, by simp, Or.inr (Or.inr (Or.inl ⟨rfl, rfl⟩))⟩
    | normal =>
      exact ⟨entries, [], (List.append_nil _).symm, rfl, habsent,
        Or.inr (Or.inr (Or.inr ⟨rfl, rfl⟩))⟩

theorem laneBack_spec (entries : List Entry) (lane : Lane) :
    ∃ before after, entries = before ++ after ∧ before.length = laneBack entries lane ∧
      (∀ b ∈ after, b.lane ≠ lane) ∧ Edge lane before after := by
  unfold laneBack
  split
  · rename_i i hi
    obtain ⟨hlt, hlane, hfirst⟩ := List.findIdx?_eq_some_iff_getElem.mp hi
    have hlt' : i < entries.length := by simpa using hlt
    refine ⟨entries.take (entries.length - i), entries.drop (entries.length - i),
      (List.take_append_drop _ entries).symm, List.length_take_of_le (Nat.sub_le _ _), ?_,
      Or.inr (Or.inl ⟨entries.reverse[i], ?_, by simpa using hlane⟩)⟩
    · intro b hb
      have hmem : b ∈ entries.reverse.take i := by
        rw [List.take_reverse, List.mem_reverse]
        exact hb
      obtain ⟨j, hj, rfl⟩ := List.mem_iff_getElem.mp hmem
      rw [List.length_take, Nat.lt_min] at hj
      rw [List.getElem_take]
      simpa using hfirst j hj.1
    · rw [List.getElem_reverse, List.getLast?_eq_getElem?, List.length_take_of_le (Nat.sub_le _ _),
        List.getElem?_take_of_lt (by omega), List.getElem?_eq_getElem (by omega)]
      congr 1
      congr 1
      omega
  · rename_i hnone
    rw [List.findIdx?_eq_none_iff] at hnone
    have habsent : ∀ b ∈ entries, b.lane ≠ lane := by
      intro b hb
      simpa using hnone b (List.mem_reverse.mpr hb)
    obtain ⟨before, after, rfl, hlength, -, hedge⟩ := laneFront_spec entries lane
    exact ⟨before, after, rfl, hlength, fun b hb => habsent b (List.mem_append_right _ hb), hedge⟩

theorem position?_spec {α κ : Type} [DecidableEq κ] {key : α → κ} {k : κ} {rows : List α} {i : Nat}
    (h : Rows.position? key k rows = some i) :
    ∃ before r after, rows = before ++ r :: after ∧ before.length = i ∧ key r = k ∧
      Rows.row? key k rows = some r := by
  obtain ⟨hlt, hkey, hfirst⟩ := List.findIdx?_eq_some_iff_getElem.mp h
  have hkey : key rows[i] = k := by simpa using hkey
  have hsplit : rows = rows.take i ++ rows[i] :: rows.drop (i + 1) := by
    rw [← List.drop_eq_getElem_cons hlt, List.take_append_drop]
  have hbefore : ∀ b ∈ rows.take i, key b ≠ k := by
    intro b hb
    obtain ⟨j, hj, rfl⟩ := List.mem_iff_getElem.mp hb
    rw [List.length_take, Nat.lt_min] at hj
    rw [List.getElem_take]
    simpa using hfirst j hj.1
  have hrow : Rows.row? key k (rows.take i ++ rows[i] :: rows.drop (i + 1)) = some rows[i] :=
    Rows.row?_append_cons hbefore hkey
  rw [← hsplit] at hrow
  exact ⟨rows.take i, rows[i], rows.drop (i + 1), hsplit, List.length_take_of_le hlt.le, hkey, hrow⟩

theorem refIndex_spec {entries : List Entry} {lane : Lane} {ref : String} {i : Nat}
    (h : refIndex entries lane ref = .ok i) :
    ∃ before r after, entries = before ++ r :: after ∧ before.length = i ∧ r.id = ref ∧
      r.lane = lane := by
  rw [refIndex] at h
  split at h
  · rename_i e j he hj
    obtain ⟨before, r, after, hsplit, hlength, hid, hrow⟩ := position?_spec hj
    obtain rfl : e = r := Option.some.inj (he.symm.trans hrow)
    split at h
    · cases h
    · rename_i hlane
      obtain rfl := Except.ok.inj h
      exact ⟨before, e, after, hsplit, hlength, hid, not_not.mp hlane⟩
  · cases h

/-- **Where a row of a lane is put in**: its position among the rows of the lane, which stay
together. -/
theorem placeEntry_spec {entries : List Entry} {lane : Lane} {position : Position} {i : Nat}
    (h : placeEntry entries lane position = .ok i) :
    ∃ before after, entries = before ++ after ∧ before.length = i ∧ Edge lane before after ∧
      ∀ e : Entry, Stands (·.id) (·.lane = lane) e (before ++ e :: after) position := by
  cases position with
  | front =>
    obtain rfl := Except.ok.inj h
    obtain ⟨before, after, hsplit, hlength, hnone, hedge⟩ := laneFront_spec entries lane
    exact ⟨before, after, hsplit, hlength, hedge, fun e => ⟨before, after, rfl, hnone⟩⟩
  | back =>
    obtain rfl := Except.ok.inj h
    obtain ⟨before, after, hsplit, hlength, hnone, hedge⟩ := laneBack_spec entries lane
    exact ⟨before, after, hsplit, hlength, hedge, fun e => ⟨before, after, rfl, hnone⟩⟩
  | before ref =>
    obtain ⟨before, r, after, hsplit, hlength, hid, hlane⟩ := refIndex_spec h
    exact ⟨before, r :: after, hsplit, hlength, Or.inl ⟨r, rfl, hlane⟩,
      fun e => ⟨before, r, after, rfl, hid, hlane⟩⟩
  | after ref =>
    rw [placeEntry] at h
    cases href : refIndex entries lane ref with
    | error refusal => simp [href, Except.map] at h
    | ok j =>
      obtain ⟨before, r, after, hsplit, hlength, hid, hlane⟩ := refIndex_spec href
      simp only [href, Except.map, Except.ok.injEq] at h
      refine ⟨before ++ [r], after, ?_, ?_, Or.inr (Or.inl ⟨r, ?_, hlane⟩), fun e =>
        ⟨before, r, after, ?_, hid, hlane⟩⟩
      · rw [hsplit, List.append_assoc, List.singleton_append]
      · rw [List.length_append, hlength, ← h]
        rfl
      · exact List.getLast?_concat
      · rw [List.append_assoc, List.singleton_append]

theorem placeItem_spec {items : List SliceItem} {position : Position} {i : Nat}
    (h : placeItem items position = .ok i) :
    ∃ before after, items = before ++ after ∧ before.length = i ∧
      ∀ item : SliceItem, Stands (·.id) (fun _ => True) item (before ++ item :: after) position := by
  cases position with
  | front =>
    obtain rfl := Except.ok.inj h
    exact ⟨[], items, rfl, rfl, fun item => ⟨[], items, rfl, by simp⟩⟩
  | back =>
    obtain rfl := Except.ok.inj h
    exact ⟨items, [], (List.append_nil _).symm, rfl, fun item => ⟨items, [], rfl, by simp⟩⟩
  | before ref =>
    rw [placeItem, itemIndex] at h
    split at h
    · rename_i j hj
      obtain ⟨before, r, after, hsplit, hlength, hid, -⟩ := position?_spec hj
      obtain rfl := Except.ok.inj h
      exact ⟨before, r :: after, hsplit, hlength,
        fun item => ⟨before, r, after, rfl, hid, trivial⟩⟩
    · cases h
  | after ref =>
    rw [placeItem, itemIndex] at h
    split at h
    · rename_i j hj
      obtain ⟨before, r, after, hsplit, hlength, hid, -⟩ := position?_spec hj
      simp only [Except.map, Except.ok.injEq] at h
      refine ⟨before ++ [r], after, ?_, ?_, fun item => ⟨before, r, after, ?_, hid, trivial⟩⟩
      · rw [hsplit, List.append_assoc, List.singleton_append]
      · rw [List.length_append, hlength, ← h]
        rfl
      · rw [List.append_assoc, List.singleton_append]
    · cases h

/-! ### One list through an update -/

/-- A row that was given a place stands there; one that was given none kept its own. -/
def Placed {α : Type} (key : α → String) (counts : α → Prop) (a : α) (before after : List α) :
    Option Position → Prop
  | some place => Stands key counts a after place
  | none => after.map key = before.map key

theorem Placed.modify {α : Type} {key : α → String} {counts : α → Prop} {k : String} {f : α → α}
    {a : α} {before after : List α} {place : Option Position}
    (h : Placed key counts a before after place) (hkeys : (after.map key).Nodup) (ha : key a = k)
    (hf : ∀ b, key (f b) = key b) :
    Placed key counts (f a) before (Rows.modify key k f after) place := by
  cases place with
  | some place => exact Stands.modify h hkeys ha
  | none => exact (Rows.map_modify hf).trans h

/-- The end of a lane a row goes to that changes into it. -/
def lanePlace : Lane → Position
  | .urgent => .back
  | .normal => .front

namespace QueueUpdateEntryArgs

variable (args : QueueUpdateEntryArgs)

/-- The row in its lane. -/
def enlane (e : Entry) : Entry := { e with lane := args.lane.getD e.lane }

/-- The row in its lane, with its links. -/
def relink (e : Entry) : Entry := { args.enlane e with after := args.after.getD e.after }

/-- The place an update asks for: its position, or else the end of a new lane. -/
def place (position : Option Position) (e : Entry) : Option Position :=
  position.or (if args.lane.getD e.lane = e.lane then none
    else some (lanePlace (args.lane.getD e.lane)))

end QueueUpdateEntryArgs

section entries

variable {id : String} {entries entries' : List Entry} {e : Entry}

theorem reinsert_spec (hkeys : (entries.map (·.id)).Nodup) {lane : Lane} {position : Position}
    {i : Nat} (h : placeEntry (Rows.erase (·.id) id entries) lane position = .ok i)
    (hid : e.id = id) (hlane : e.lane = lane) :
    Rows.Replaces (·.id) id e entries ((Rows.erase (·.id) id entries).insertIdx i e) ∧
      (UrgentFirst entries →
        UrgentFirst ((Rows.erase (·.id) id entries).insertIdx i e)) ∧
      Stands (·.id) (·.lane = lane) e ((Rows.erase (·.id) id entries).insertIdx i e) position := by
  obtain ⟨before, after, hsplit, hlength, hedge, hstands⟩ := placeEntry_spec h
  have hothers : ∀ b ∈ before ++ after, b.id ≠ id := by
    intro b hb
    rw [← hsplit] at hb
    exact ((Rows.mem_erase hkeys).mp hb).2
  have hinsert : (Rows.erase (·.id) id entries).insertIdx i e = before ++ e :: after := by
    rw [hsplit, ← hlength, Rows.insertIdx_middle]
  rw [hinsert]
  refine ⟨.insert hsplit hothers hid, ?_, hstands e⟩
  intro hfirst
  have hrest : UrgentFirst (before ++ after) := by
    rw [← hsplit]
    exact hfirst.sublist Rows.erase_sublist
  exact hrest.insert (hlane ▸ hedge)

theorem updateLane_spec {lane : Option Lane} (hkeys : (entries.map (·.id)).Nodup)
    (hrow : Rows.row? (·.id) id entries = some e)
    (h : updateLane id lane entries = .ok entries') :
    Rows.Replaces (·.id) id { e with lane := lane.getD e.lane } entries entries' ∧
      (UrgentFirst entries → UrgentFirst entries') ∧
      Placed (·.id) (·.lane = lane.getD e.lane) { e with lane := lane.getD e.lane } entries entries'
        (if lane.getD e.lane = e.lane then none else some (lanePlace (lane.getD e.lane))) := by
  obtain ⟨-, hid⟩ := Rows.row?_some hrow
  cases lane with
  | none =>
    obtain rfl := Except.ok.inj h
    rw [Option.getD_none, if_pos rfl]
    exact ⟨.refl hrow, fun hfirst => hfirst, rfl⟩
  | some lane =>
    simp only [updateLane, hrow] at h
    rw [Option.getD_some]
    split at h
    · rename_i hlane
      obtain rfl := Except.ok.inj h
      subst hlane
      rw [if_pos rfl]
      exact ⟨.refl hrow, fun hfirst => hfirst, rfl⟩
    · rename_i hlane
      simp only [bind_ok_iff, refuse_ok_iff] at h
      obtain ⟨i, hi, h⟩ := h
      obtain rfl := Except.ok.inj h
      rw [if_neg (Ne.symm hlane)]
      cases lane with
      | urgent => exact reinsert_spec hkeys hi hid rfl
      | normal => exact reinsert_spec hkeys hi hid rfl

theorem updateMove_spec {position : Option Position} (hkeys : (entries.map (·.id)).Nodup)
    (hrow : Rows.row? (·.id) id entries = some e)
    (h : updateMove id position entries = .ok entries') :
    Rows.Replaces (·.id) id e entries entries' ∧ (UrgentFirst entries → UrgentFirst entries') ∧
      match position with
      | some place => Stands (·.id) (·.lane = e.lane) e entries' place
      | none => entries' = entries := by
  obtain ⟨-, hid⟩ := Rows.row?_some hrow
  cases position with
  | none =>
    obtain rfl := Except.ok.inj h
    exact ⟨.refl hrow, fun hfirst => hfirst, rfl⟩
  | some place =>
    simp only [updateMove, hrow, bind_ok_iff, ensure_ok_iff, refuse_ok_iff] at h
    obtain ⟨⟨⟩, -, ⟨⟩, -, i, hi, h⟩ := h
    obtain rfl := Except.ok.inj h
    exact reinsert_spec hkeys hi hid rfl

end entries

/-! ### queue_update_entry -/

section update

variable {args : QueueUpdateEntryArgs} {position : Option Position} {now : String} {e : Entry}
  {before after : List Entry} {archive archived : List ArchivedEntry}

/-- What an update makes of a list and its archive, `e` being the row it names. -/
structure EntryUpdate (args : QueueUpdateEntryArgs) (position : Option Position) (now : String)
    (e : Entry) (before after : List Entry) (archive archived : List ArchivedEntry) : Prop where
  rest : Rows.erase (·.id) args.id after = Rows.erase (·.id) args.id before
  row : Rows.row? (·.id) args.id after = args.edit e
  placed : ∀ e', args.edit e = some e' →
    Placed (·.id) (·.lane = e'.lane) e' before after (args.place position e)
  archived : archived =
    archive ++ if args.edit e = none then [⟨args.relink e, now, .done, none⟩] else []

/-- The lane and the move: the row in its lane, where the request puts it. -/
theorem moved_spec {lanes moved : List Entry} (hkeys : (before.map (·.id)).Nodup)
    (hrow : Rows.row? (·.id) args.id before = some e)
    (hlane : updateLane args.id args.lane before = .ok lanes)
    (hmove : updateMove args.id position lanes = .ok moved) :
    Rows.Replaces (·.id) args.id (args.enlane e) before moved ∧
      Placed (·.id) (·.lane = (args.enlane e).lane) (args.enlane e) before moved
        (args.place position e) := by
  obtain ⟨hlanes, -, hplaced⟩ := updateLane_spec hkeys hrow hlane
  have hkeys' := (updateLane_ok hkeys hlane).keys.nodup_iff.mpr hkeys
  obtain ⟨hmoved, -, hstands⟩ := updateMove_spec hkeys' hlanes.row hmove
  refine ⟨hlanes.trans hmoved, ?_⟩
  cases position with
  | some place => exact hstands
  | none =>
    have hsame : moved = lanes := hstands
    rw [hsame]
    exact hplaced

theorem request_lane (new : EntryStatus) (e : Entry) : (e.request new).lane = e.lane := by
  unfold Entry.request
  split <;> rfl

/-- An update that keeps the row, after its status. -/
theorem EntryUpdate.of_kept {linked : List Entry} (hkeys : (linked.map (·.id)).Nodup)
    (hlinked : Rows.Replaces (·.id) args.id (args.relink e) before linked)
    (hplaced : Placed (·.id) (·.lane = (args.relink e).lane) (args.relink e) before linked
      (args.place position e)) {f : Entry → Entry} (hid : ∀ e, (f e).id = e.id)
    (hlane : ∀ e, (f e).lane = e.lane) (hedit : args.edit e = some (f (args.relink e))) :
    EntryUpdate args position now e before (Rows.modify (·.id) args.id f linked) archive archive := by
  obtain ⟨-, hrelink⟩ := Rows.row?_some hlinked.row
  have hmodified := Rows.Replaces.modify (f := f) hlinked.row ((hid _).trans hrelink)
  refine ⟨(hlinked.trans hmodified).rest, ?_, ?_, ?_⟩
  · rw [hedit]
    exact hmodified.row
  · intro e' he'
    obtain rfl := Option.some.inj (hedit.symm.trans he')
    rw [hlane]
    exact hplaced.modify hkeys hrelink hid
  · rw [hedit, if_neg (by simp), List.append_nil]

theorem modify_id {rows : List Entry} {id : String} :
    Rows.modify (·.id) id (fun e => e) rows = rows := by
  induction rows with
  | nil => rfl
  | cons e rows ih =>
    rw [Rows.modify, ih]
    split <;> rfl

/-- **The status**: it edits the row where it stands, or archives it. -/
theorem status_spec {linked after : List Entry} {archived : List ArchivedEntry}
    (hkeys : (linked.map (·.id)).Nodup)
    (hlinked : Rows.Replaces (·.id) args.id (args.relink e) before linked)
    (hplaced : Placed (·.id) (·.lane = (args.relink e).lane) (args.relink e) before linked
      (args.place position e))
    (h : updateStatus args.id args.status linked archive now = .ok (after, archived)) :
    EntryUpdate args position now e before after archive archived := by
  have hrequest (new : EntryStatus) (hnew : args.edit e = some ((args.relink e).request new)) :
      EntryUpdate args position now e before
        (Rows.modify (·.id) args.id (Entry.request new) linked) archive archive :=
    .of_kept hkeys hlinked hplaced (request_id new) (request_lane new) hnew
  cases hstatus : args.status with
  | none =>
    have hedit : args.edit e = some (args.relink e) := by
      simp only [QueueUpdateEntryArgs.edit, hstatus]
      rfl
    rw [hstatus] at h
    obtain ⟨rfl, rfl⟩ := Prod.mk.inj (Except.ok.inj h)
    have hkept : EntryUpdate args position now e before
        (Rows.modify (·.id) args.id (fun e => e) linked) archive archive :=
      .of_kept hkeys hlinked hplaced (fun _ => rfl) (fun _ => rfl) hedit
    rwa [modify_id] at hkept
  | some status =>
    rw [hstatus] at h
    cases status with
    | active => cases h
    | paused => cases h
    | split => cases h
    | queued =>
      obtain ⟨rfl, rfl⟩ := Prod.mk.inj (Except.ok.inj h)
      exact hrequest _ (by simp only [QueueUpdateEntryArgs.edit, hstatus]; rfl)
    | blocked =>
      obtain ⟨rfl, rfl⟩ := Prod.mk.inj (Except.ok.inj h)
      exact hrequest _ (by simp only [QueueUpdateEntryArgs.edit, hstatus]; rfl)
    | deferred =>
      obtain ⟨rfl, rfl⟩ := Prod.mk.inj (Except.ok.inj h)
      exact hrequest _ (by simp only [QueueUpdateEntryArgs.edit, hstatus]; rfl)
    | done =>
      have hedit : args.edit e = none := by
        simp only [QueueUpdateEntryArgs.edit, hstatus]
      simp only [updateStatus, bind_ok_iff, ensure_ok_iff, expect_ok_iff] at h
      obtain ⟨row, hrow, ⟨⟩, -, h⟩ := h
      obtain rfl := Option.some.inj (hlinked.row.symm.trans hrow)
      obtain ⟨rfl, rfl⟩ := Prod.mk.inj (Except.ok.inj h)
      have hgone : ∀ b ∈ Rows.erase (·.id) args.id linked, b.id ≠ args.id :=
        fun b hb => ((Rows.mem_erase hkeys).mp hb).2
      refine ⟨?_, ?_, ?_, ?_⟩
      · rw [Rows.erase_of_notMem hgone]
        exact hlinked.rest
      · rw [hedit]
        exact Rows.row?_none.mpr hgone
      · intro e' he'
        rw [hedit] at he'
        cases he'
      · rw [if_pos hedit]

/-- What an accepted update stores: the list it makes and its archive. -/
structure EntryStored (args : QueueUpdateEntryArgs) (now : String) (g g' : Garden) : Prop where
  made : ∃ queue position e entries archived, g.queue = some queue ∧
    parseMove args.moveSpec = .ok position ∧
    Rows.row? (·.id) args.id queue.entries = some e ∧
    EntryUpdate args position now e queue.entries entries g.archiveToml.entries archived ∧
    UrgentFirst entries ∧
    (args.dryRun = false → g'.queue = some { queue with entries } ∧ g'.archiveToml = ⟨archived⟩)
  milestones : g'.milestones = g.milestones
  tasks : g'.tasks = g.tasks
  dry : args.dryRun = true → g' = g

theorem after_spec {links : Option (List String)} {moved linked : List Entry} {queue : QueueToml}
    {resolved : QueueArchiveToml} {row : Entry} {place : Option Position}
    (hmoved : (moved.map (·.id)).Nodup) (hqueue : queue.entries = moved)
    (hrow : Rows.Replaces (·.id) args.id row before moved)
    (hplaced : Placed (·.id) (·.lane = row.lane) row before moved place)
    (h : updateAfter args.id links queue resolved = .ok linked) :
    Rows.Replaces (·.id) args.id { row with after := links.getD row.after } before linked ∧
      Placed (·.id) (·.lane = row.lane) { row with after := links.getD row.after } before linked
        place := by
  obtain ⟨-, hid⟩ := Rows.row?_some hrow.row
  subst hqueue
  cases links with
  | none =>
    obtain rfl := Except.ok.inj h
    exact ⟨hrow, hplaced⟩
  | some links =>
    simp only [updateAfter, bind_ok_iff] at h
    obtain ⟨⟨⟩, -, h⟩ := h
    obtain rfl := Except.ok.inj h
    refine ⟨hrow.trans (.modify (f := fun e => { e with after := links }) hrow.row hid), ?_⟩
    exact hplaced.modify hmoved hid fun _ => rfl

theorem edit_eq_none : args.edit e = none ↔ args.status = some .done := by
  unfold QueueUpdateEntryArgs.edit
  dsimp only
  split <;> simp_all

/-- The archive is written exactly where it changes. -/
theorem archiveToml_writeQueue {g : Garden} {queue : QueueToml}
    (h : EntryUpdate args position now e before after g.archiveToml.entries archived) :
    (g.writeQueue queue (if args.status = some .done then some ⟨archived⟩ else none)).archiveToml =
      ⟨archived⟩ := by
  split
  · rfl
  · rename_i hstatus
    have harchived := h.archived
    rw [if_neg fun hnone => hstatus (edit_eq_none.mp hnone), List.append_nil] at harchived
    rw [harchived]
    rfl

/-- **An accepted update** leaves the other rows as they are, in their order; its row is edited and
stands where the request puts it, or is archived; urgent rows stay first. -/
theorem queueUpdateEntry_exact {g g' : Garden} (h : queueUpdateEntry g args now = .ok g') :
    EntryStored args now g g' := by
  simp only [queueUpdateEntry, bind_ok_iff, ensure_ok_iff, expect_ok_iff] at h
  obtain ⟨⟨⟩, -, position, hposition, state, hload, ⟨queue, archive⟩, rfl, ⟨⟩, hmem, lanes, hlane,
    moved, hmove, linked, hafter, ⟨entries, archived⟩, hstatus, h⟩ := h
  obtain ⟨hqueue, rfl, hvalid⟩ := Garden.loadQueueState_some hload
  have hkeys := liveIds_nodup_of_valid hvalid
  obtain ⟨e, hrow⟩ : ∃ e, Rows.row? (·.id) args.id queue.entries = some e := by
    rw [← Option.isSome_iff_exists, Rows.row?_isSome]
    simpa using hmem
  have hlanes := (updateLane_ok hkeys hlane).keys.nodup_iff.mpr hkeys
  have hmoved := (updateMove_ok hlanes hmove).keys.nodup_iff.mpr hlanes
  obtain ⟨hreplaced, hplaced⟩ := moved_spec hkeys hrow hlane hmove
  obtain ⟨hlinked, hplaced⟩ := after_spec hmoved rfl hreplaced hplaced hafter
  have hkeys' : (linked.map (·.id)).Nodup := by
    rw [updateAfter_keys hafter]
    exact hmoved
  have hupdate := status_spec hkeys' hlinked hplaced hstatus
  have hfirst : UrgentFirst queue.entries := (validate_ok_iff.mp hvalid).urgentFirst
  split at h
  · rename_i hsame
    obtain rfl := Except.ok.inj h
    obtain ⟨rfl, rfl⟩ := hsame
    exact ⟨⟨queue, position, e, _, _, hqueue, hposition, hrow, hupdate, hfirst,
      fun _ => ⟨hqueue, rfl⟩⟩, rfl, rfl, fun _ => rfl⟩
  · simp only [bind_ok_iff, refuse_ok_iff] at h
    obtain ⟨⟨⟩, hvalid', h⟩ := h
    have hfirst' : UrgentFirst entries := (validate_ok_iff.mp hvalid').urgentFirst
    rcases commit_cases (Except.ok.inj h) with ⟨hdry, rfl⟩ | ⟨hdry, rfl⟩
    · refine ⟨⟨queue, position, e, entries, archived, hqueue, hposition, hrow, hupdate, hfirst',
        ?_⟩, rfl, rfl, fun _ => rfl⟩
      intro hwet
      rw [hdry] at hwet
      cases hwet
    · refine ⟨⟨queue, position, e, entries, archived, hqueue, hposition, hrow, hupdate, hfirst',
        fun _ => ⟨rfl, ?_⟩⟩, rfl, rfl, ?_⟩
      · exact archiveToml_writeQueue hupdate
      · intro hdry'
        rw [hdry] at hdry'
        cases hdry'

end update

/-! ### slice_update -/

section slices

variable {args : SliceUpdateArgs} {position : Option Position} {item : SliceItem}
  {before after : List SliceItem}

/-- What an update leaves of its item. -/
def SliceUpdateArgs.edit (args : SliceUpdateArgs) (item : SliceItem) : SliceItem :=
  match args.status with
  | none | some .active | some .split => item
  | some .done => item.finish
  | some .queued => { item with status := .queued }
  | some .blocked => { item with status := .blocked }
  | some .deferred => { item with status := .deferred }

/-- What an update makes of a slice order, `item` being the one it names. -/
structure SliceUpdate (args : SliceUpdateArgs) (position : Option Position) (item : SliceItem)
    (before after : List SliceItem) : Prop where
  rest : Rows.erase (·.id) args.id after = Rows.erase (·.id) args.id before
  row : Rows.row? (·.id) args.id after = some (args.edit item)
  placed : Placed (·.id) (fun _ => True) (args.edit item) before after position

theorem moveItem_spec {moved : List SliceItem} (hkeys : (before.map (·.id)).Nodup)
    (hrow : Rows.row? (·.id) args.id before = some item)
    (h : moveItem args.id position before = .ok moved) :
    Rows.Replaces (·.id) args.id item before moved ∧
      Placed (·.id) (fun _ => True) item before moved position := by
  obtain ⟨-, hid⟩ := Rows.row?_some hrow
  cases position with
  | none =>
    obtain rfl := Except.ok.inj h
    exact ⟨.refl hrow, rfl⟩
  | some place =>
    simp only [moveItem, hrow, bind_ok_iff, ensure_ok_iff, refuse_ok_iff] at h
    obtain ⟨⟨⟩, -, ⟨⟩, -, i, hi, h⟩ := h
    obtain rfl := Except.ok.inj h
    obtain ⟨front, behind, hsplit, hlength, hstands⟩ := placeItem_spec hi
    have hothers : ∀ b ∈ front ++ behind, b.id ≠ args.id := by
      intro b hb
      rw [← hsplit] at hb
      exact ((Rows.mem_erase hkeys).mp hb).2
    have hinsert : (Rows.erase (·.id) args.id before).insertIdx i item =
        front ++ item :: behind := by
      rw [hsplit, ← hlength, Rows.insertIdx_middle]
    rw [hinsert]
    exact ⟨.insert hsplit hothers hid, hstands item⟩

theorem setItemStatus_spec {moved : List SliceItem} (hkeys : (moved.map (·.id)).Nodup)
    (hmoved : Rows.Replaces (·.id) args.id item before moved)
    (hplaced : Placed (·.id) (fun _ => True) item before moved position)
    (h : setItemStatus args.id args.status moved = .ok after) :
    SliceUpdate args position item before after := by
  obtain ⟨-, hid⟩ := Rows.row?_some hmoved.row
  have hmodify (f : SliceItem → SliceItem) (hf : ∀ b, (f b).id = b.id)
      (hedit : args.edit item = f item) :
      SliceUpdate args position item before (Rows.modify (·.id) args.id f moved) := by
    have hmodified := hmoved.trans (.modify (f := f) hmoved.row ((hf item).trans hid))
    refine ⟨hmodified.rest, ?_, ?_⟩
    · rw [hedit]
      exact hmodified.row
    · rw [hedit]
      exact hplaced.modify hkeys hid hf
  cases hstatus : args.status with
  | none =>
    rw [hstatus] at h
    obtain rfl := Except.ok.inj h
    have hedit : args.edit item = item := by rw [SliceUpdateArgs.edit, hstatus]
    constructor
    · exact hmoved.rest
    · rw [hedit]
      exact hmoved.row
    · rw [hedit]
      exact hplaced
  | some status =>
    rw [hstatus] at h
    cases status with
    | active => cases h
    | split => cases h
    | done =>
      obtain rfl := Except.ok.inj h
      exact hmodify SliceItem.finish (fun _ => rfl) (by rw [SliceUpdateArgs.edit, hstatus])
    | queued =>
      obtain rfl := Except.ok.inj h
      exact hmodify _ (fun _ => rfl) (by rw [SliceUpdateArgs.edit, hstatus])
    | blocked =>
      obtain rfl := Except.ok.inj h
      exact hmodify _ (fun _ => rfl) (by rw [SliceUpdateArgs.edit, hstatus])
    | deferred =>
      obtain rfl := Except.ok.inj h
      exact hmodify _ (fun _ => rfl) (by rw [SliceUpdateArgs.edit, hstatus])

/-- What an accepted update of a slice order stores. -/
structure SliceStored (args : SliceUpdateArgs) (g g' : Garden) : Prop where
  made : ∃ dir position item items, g.milestones.lookup args.milestone = some dir ∧
    parseMove args.moveSpec = .ok position ∧
    Rows.row? (·.id) args.id dir.slices.items = some item ∧
    SliceUpdate args position item dir.slices.items items ∧
    (args.dryRun = false → g'.milestones.lookup args.milestone =
      some { dir with slices := { dir.slices with items } })
  others : ∀ m, m ≠ args.milestone → g'.milestones.lookup m = g.milestones.lookup m
  queue : g'.queue = g.queue ∧ g'.archive = g.archive
  tasks : g'.tasks = g.tasks
  dry : args.dryRun = true → g' = g

/-- **An accepted update of a slice order** leaves the other items as they are, in their order; its
item is edited and stands where the request puts it. -/
theorem sliceUpdate_exact {g g' : Garden} (h : sliceUpdate g args = .ok g') :
    SliceStored args g g' := by
  simp only [sliceUpdate, bind_ok_iff, ensure_ok_iff, expect_ok_iff] at h
  obtain ⟨⟨⟩, -, ⟨⟩, -, position, hposition, loaded, hload, slices, rfl, ⟨⟩, hmem, moved, hmove, items,
    hstatus, h⟩ := h
  obtain ⟨dir, hdir, rfl, hvalid⟩ := Garden.loadSlices_some hload
  have hkeys := (SlicesToml.validate_ok_iff.mp hvalid).2.1
  obtain ⟨item, hrow⟩ : ∃ item, Rows.row? (·.id) args.id dir.slices.items = some item := by
    rw [← Option.isSome_iff_exists, Rows.row?_isSome]
    simpa using hmem
  obtain ⟨hreplaced, hplaced⟩ := moveItem_spec hkeys hrow hmove
  have hmoved : (moved.map (·.id)).Nodup := (moveItem_ok hkeys hmove).keys.nodup_iff.mpr hkeys
  have hupdate := setItemStatus_spec hmoved hreplaced hplaced hstatus
  split at h
  · rename_i hsame
    obtain rfl := Except.ok.inj h
    subst hsame
    exact ⟨⟨dir, position, item, _, hdir, hposition, hrow, hupdate, fun _ => hdir⟩,
      fun _ _ => rfl, ⟨rfl, rfl⟩, rfl, fun _ => rfl⟩
  · simp only [bind_ok_iff, refuse_ok_iff] at h
    obtain ⟨⟨⟩, -, h⟩ := h
    rcases commit_cases (Except.ok.inj h) with ⟨hdry, rfl⟩ | ⟨hdry, rfl⟩
    · refine ⟨⟨dir, position, item, items, hdir, hposition, hrow, hupdate, ?_⟩, fun _ _ => rfl,
        ⟨rfl, rfl⟩, rfl, fun _ => rfl⟩
      intro hwet
      rw [hdry] at hwet
      cases hwet
    · have hlookup (m : String) : (g.writeSlices args.milestone
          { dir.slices with items }).milestones.lookup m =
            if m = args.milestone then some { dir with slices := { dir.slices with items } }
            else g.milestones.lookup m := lookup_writeSlices hdir
      refine ⟨⟨dir, position, item, items, hdir, hposition, hrow, hupdate, fun _ => ?_⟩, ?_,
        ?_, ?_, ?_⟩
      · rw [hlookup, if_pos rfl]
      · intro m hm
        rw [hlookup, if_neg hm]
      · simp only [Garden.writeSlices, hdir, and_self]
      · simp only [Garden.writeSlices, hdir]
      · intro hdry'
        rw [hdry] at hdry'
        cases hdry'

end slices

/-! ### A lane and a position -/

namespace QueueUpdateEntryArgs

/-- The lane change of a request by itself. -/
def laneOnly (args : QueueUpdateEntryArgs) : QueueUpdateEntryArgs :=
  { args with moveSpec := none, after := none, status := none }

/-- What a request asks for besides the lane. -/
def withoutLane (args : QueueUpdateEntryArgs) : QueueUpdateEntryArgs := { args with lane := none }

end QueueUpdateEntryArgs

section lane

variable {args : QueueUpdateEntryArgs} {now : String} {g g' g₁ : Garden}

/-- The edits of a request on a loaded list, without the lane change. -/
def editRest (args : QueueUpdateEntryArgs) (position : Option Position) (now : String)
    (queue : QueueToml) (archive : QueueArchiveToml) (lanes : List Entry) :
    Except WireError (List Entry × List ArchivedEntry) := do
  let entries ← updateMove args.id position lanes
  let entries ← updateAfter args.id args.after { queue with entries } archive
  updateStatus args.id args.status entries archive.entries now

/-- What a request stores of the list it makes. -/
def storeEntries (args : QueueUpdateEntryArgs) (g : Garden) (queue : QueueToml)
    (archive : QueueArchiveToml) (made : List Entry × List ArchivedEntry) :
    Except WireError Garden :=
  if made.1 = queue.entries ∧ made.2 = archive.entries then .ok g
  else do
    refuse (QueueToml.validate { queue with entries := made.1 } ⟨made.2⟩)
    let archiveWrite := if args.status = some .done then some ⟨made.2⟩ else none
    .ok (commit args.dryRun g (g.writeQueue { queue with entries := made.1 } archiveWrite))

theorem queueUpdateEntry_ok_iff :
    queueUpdateEntry g args now = .ok g' ↔ ∃ position queue lanes made,
      isBlank args.id = false ∧ parseMove args.moveSpec = .ok position ∧ g.queue = some queue ∧
      queue.validate g.archiveToml = .ok () ∧ args.id ∈ queue.entries.map (·.id) ∧
      updateLane args.id args.lane queue.entries = .ok lanes ∧
      editRest args position now queue g.archiveToml lanes = .ok made ∧
      storeEntries args g queue g.archiveToml made = .ok g' := by
  simp only [queueUpdateEntry, editRest, storeEntries, bind_ok_iff, ensure_ok_iff, expect_ok_iff]
  constructor
  · rintro ⟨⟨⟩, hid, position, hposition, state, hload, ⟨queue, archive⟩, rfl, ⟨⟩, hmem, lanes, hlane,
      moved, hmove, linked, hafter, made, hstatus, h⟩
    obtain ⟨hqueue, rfl, hvalid⟩ := Garden.loadQueueState_some hload
    exact ⟨position, queue, lanes, made, hid, hposition, hqueue, hvalid, hmem, hlane,
      ⟨moved, hmove, linked, hafter, hstatus⟩, h⟩
  · rintro ⟨position, queue, lanes, made, hid, hposition, hqueue, hvalid, hmem, hlane,
      ⟨moved, hmove, linked, hafter, hstatus⟩, h⟩
    have hload : g.loadQueueState = .ok (some (queue, g.archiveToml)) := by
      simp only [Garden.loadQueueState, hqueue, hvalid]
    exact ⟨(), hid, position, hposition, _, hload, (queue, g.archiveToml), rfl, (), hmem, lanes,
      hlane, moved, hmove, linked, hafter, made, hstatus, h⟩

/-- Only `done` changes the archive, and it always does. -/
theorem editRest_archive {position : Option Position} {queue : QueueToml}
    {archive : QueueArchiveToml} {lanes : List Entry} {made : List Entry × List ArchivedEntry}
    (h : editRest args position now queue archive lanes = .ok made)
    (hsame : made.2 = archive.entries) : args.status ≠ some .done := by
  intro hdone
  simp only [editRest, hdone, updateStatus, bind_ok_iff, ensure_ok_iff, expect_ok_iff] at h
  obtain ⟨moved, -, linked, -, row, -, ⟨⟩, -, h⟩ := h
  obtain rfl := Except.ok.inj h
  have hlength := congrArg List.length hsame
  rw [List.length_append] at hlength
  exact absurd hlength (by simp)

/-- An update that is no dry run stores the list it makes where it validates. -/
theorem storeEntries_ok_iff (hdry : args.dryRun = false) {queue : QueueToml}
    {made : List Entry × List ArchivedEntry} (hqueue : g.queue = some queue)
    (hvalid : queue.validate g.archiveToml = .ok ())
    (harchive : made.2 = g.archiveToml.entries → args.status ≠ some .done) :
    storeEntries args g queue g.archiveToml made = .ok g' ↔
      QueueToml.validate { queue with entries := made.1 } ⟨made.2⟩ = .ok () ∧
        g' = g.writeQueue { queue with entries := made.1 }
          (if args.status = some .done then some ⟨made.2⟩ else none) := by
  rw [storeEntries]
  split
  · rename_i hsame
    have hwrite : g.writeQueue queue none = g := by
      rw [Garden.writeQueue, ← hqueue]
      rfl
    rw [hsame.1, hsame.2, if_neg (harchive hsame.2), hwrite]
    constructor
    · rintro ⟨⟩
      exact ⟨hvalid, rfl⟩
    · rintro ⟨-, rfl⟩
      rfl
  · simp only [bind_ok_iff, refuse_ok_iff, hdry, commit, Except.ok.injEq, Bool.false_eq_true,
      if_false]
    constructor
    · rintro ⟨⟨⟩, hvalid', rfl⟩
      exact ⟨hvalid', rfl⟩
    · rintro ⟨hvalid', rfl⟩
      exact ⟨(), hvalid', rfl⟩

/-- The lane change by itself stores the list it makes. -/
theorem laneOnly_ok_iff (hdry : args.dryRun = false) :
    queueUpdateEntry g args.laneOnly now = .ok g₁ ↔ ∃ queue lanes,
      isBlank args.id = false ∧ g.queue = some queue ∧ queue.validate g.archiveToml = .ok () ∧
      args.id ∈ queue.entries.map (·.id) ∧ updateLane args.id args.lane queue.entries = .ok lanes ∧
      QueueToml.validate { queue with entries := lanes } g.archiveToml = .ok () ∧
      g₁ = g.writeQueue { queue with entries := lanes } none := by
  have hdry' : args.laneOnly.dryRun = false := hdry
  have hopen : args.laneOnly.status ≠ some .done := nofun
  rw [queueUpdateEntry_ok_iff]
  constructor
  · rintro ⟨position, queue, lanes, made, hid, hposition, hqueue, hvalid, hmem, hlane, hedit, hstore⟩
    obtain rfl := Except.ok.inj hposition
    obtain rfl := Except.ok.inj hedit
    obtain ⟨hvalid', rfl⟩ := (storeEntries_ok_iff hdry' hqueue hvalid fun _ => hopen).mp hstore
    exact ⟨queue, lanes, hid, hqueue, hvalid, hmem, hlane, hvalid', rfl⟩
  · rintro ⟨queue, lanes, hid, hqueue, hvalid, hmem, hlane, hvalid', rfl⟩
    refine ⟨none, queue, lanes, (lanes, g.archiveToml.entries), hid, rfl, hqueue, hvalid, hmem,
      hlane, rfl, ?_⟩
    exact (storeEntries_ok_iff hdry' hqueue hvalid fun _ => hopen).mpr ⟨hvalid', rfl⟩

/-- A request is its lane change and then the rest of it, where the lane change is accepted. -/
theorem lane_then_rest (hdry : args.dryRun = false)
    (hlaned : queueUpdateEntry g args.laneOnly now = .ok g₁) :
    queueUpdateEntry g args now = .ok g' ↔ queueUpdateEntry g₁ args.withoutLane now = .ok g' := by
  have hdry' : args.withoutLane.dryRun = false := hdry
  obtain ⟨queue, lanes, hid, hqueue, hvalid, hmem, hlane, hvalid', rfl⟩ :=
    (laneOnly_ok_iff hdry).mp hlaned
  have hkeys := liveIds_nodup_of_valid hvalid
  have hmem' : args.id ∈ lanes.map (·.id) := by
    rwa [(updateLane_ok hkeys hlane).keys.mem_iff]
  have hqueue₁ : (g.writeQueue { queue with entries := lanes } none).queue =
      some { queue with entries := lanes } := rfl
  have hvalid₁ : QueueToml.validate { queue with entries := lanes }
      (g.writeQueue { queue with entries := lanes } none).archiveToml = .ok () := hvalid'
  rw [queueUpdateEntry_ok_iff, queueUpdateEntry_ok_iff]
  constructor
  · rintro ⟨position, queue', lanes', made, -, hposition, hqueue', -, -, hlane', hedit, hstore⟩
    obtain rfl := Option.some.inj (hqueue.symm.trans hqueue')
    obtain rfl := Except.ok.inj (hlane.symm.trans hlane')
    have harchive := editRest_archive hedit
    refine ⟨position, { queue with entries := lanes }, lanes, made, hid, hposition, rfl, hvalid',
      hmem', rfl, hedit, ?_⟩
    obtain ⟨hmade, rfl⟩ := (storeEntries_ok_iff hdry hqueue hvalid harchive).mp hstore
    refine (storeEntries_ok_iff hdry' hqueue₁ hvalid₁ harchive).mpr ⟨hmade, ?_⟩
    rfl
  · rintro ⟨position, queue', lanes', made, -, hposition, hqueue', -, -, hlane', hedit, hstore⟩
    obtain rfl := Option.some.inj hqueue'
    obtain rfl := Except.ok.inj hlane'
    have harchive := editRest_archive hedit
    refine ⟨position, queue, lanes, made, hid, hposition, hqueue, hvalid, hmem, hlane, hedit, ?_⟩
    obtain ⟨hmade, rfl⟩ := (storeEntries_ok_iff hdry' hqueue₁ hvalid₁ harchive).mp hstore
    refine (storeEntries_ok_iff hdry hqueue hvalid harchive).mpr ⟨hmade, ?_⟩
    rfl

/-- The invariants of a list do not look at its order but for the lanes. -/
theorem validate_of_perm {queue : QueueToml} {archive : QueueArchiveToml} {a b : List Entry}
    (h : QueueToml.validate { queue with entries := a } archive = .ok ()) (hperm : b.Perm a)
    (hfirst : UrgentFirst b) :
    QueueToml.validate { queue with entries := b } archive = .ok () := by
  have hinv := validate_ok_iff.mp h
  have hmem (e : Entry) : e ∈ b ↔ e ∈ a := hperm.mem_iff
  refine validate_ok_iff.mpr
    { urgentFirst := hfirst
      restackUrgent := fun e he => hinv.restackUrgent e ((hmem e).mp he)
      idsDistinct := ?_
      linksResolve := ?_
      linksAcyclic := ?_
      projectsExist := fun e he => hinv.projectsExist e ((hmem e).mp he)
      oneStarted := ?_ }
  · have hids : (QueueToml.allIds { queue with entries := b } archive).Perm
        (QueueToml.allIds { queue with entries := a } archive) := (hperm.map _).append_right _
    exact hids.nodup_iff.mpr hinv.idsDistinct
  · intro e he id hid
    refine (hinv.linksResolve e ((hmem e).mp he) id hid).imp_left ?_
    rintro ⟨l, hl, rfl⟩
    exact ⟨l, (hmem l).mpr hl, rfl⟩
  · intro e hcycle
    refine hinv.linksAcyclic e (Relation.TransGen.mono ?_ e e hcycle)
    rintro x y ⟨hx, hy, hlink⟩
    exact ⟨(hmem x).mp hx, (hmem y).mp hy, hlink⟩
  · intro repo
    have hlength := (hperm.filter fun e =>
      decide (QueueToml.Starts { queue with entries := a } repo e)).length_eq
    exact hlength.le.trans (hinv.oneStarted repo)

/-- Where a lane and a position are accepted together, the lane change is accepted by itself. -/
theorem laneOnly_accepted (hdry : args.dryRun = false) (hlinks : args.after = none)
    (hstatus : args.status = none) (h : queueUpdateEntry g args now = .ok g') :
    ∃ g₁, queueUpdateEntry g args.laneOnly now = .ok g₁ := by
  obtain ⟨position, queue, lanes, made, hid, -, hqueue, hvalid, hmem, hlane, hedit, hstore⟩ :=
    queueUpdateEntry_ok_iff.mp h
  have hkeys := liveIds_nodup_of_valid hvalid
  have hkeys' : (lanes.map (·.id)).Nodup := (updateLane_ok hkeys hlane).keys.nodup_iff.mpr hkeys
  obtain ⟨hmade, -⟩ := (storeEntries_ok_iff hdry hqueue hvalid (editRest_archive hedit)).mp hstore
  simp only [editRest, hlinks, hstatus, updateAfter, updateStatus, bind_ok_iff] at hedit
  obtain ⟨moved, hmove, linked, hlinked, hmade'⟩ := hedit
  obtain rfl := Except.ok.inj hlinked
  obtain rfl := Except.ok.inj hmade'
  have hrewrites := updateMove_ok hkeys' hmove
  have hperm : lanes.Perm moved := by
    refine (List.perm_ext_iff_of_nodup hkeys'.of_map ?_).mpr ?_
    · exact (hrewrites.keys.nodup_iff.mpr hkeys').of_map
    · intro e
      rw [hrewrites.mem]
      constructor
      · intro he
        by_cases hid : e.id = args.id
        · exact Or.inr ⟨e, he, hid, rfl⟩
        · exact Or.inl ⟨he, hid⟩
      · rintro (⟨he, -⟩ | ⟨e, he, -, rfl⟩)
        · exact he
        · exact he
  obtain ⟨e, hrow⟩ : ∃ e, Rows.row? (·.id) args.id queue.entries = some e := by
    rw [← Option.isSome_iff_exists, Rows.row?_isSome]
    simpa using hmem
  have hfirst : UrgentFirst lanes :=
    (updateLane_spec hkeys hrow hlane).2.1 (validate_ok_iff.mp hvalid).urgentFirst
  exact ⟨_, (laneOnly_ok_iff hdry).mpr ⟨queue, lanes, hid, hqueue, hvalid, hmem, hlane,
    validate_of_perm hmade hperm hfirst, rfl⟩⟩

end lane

/-- **What the two updates do**: only the named row changes, it stands where the request says or is
archived, and a lane with a position is the lane change and then the move. -/
theorem updates_exact :
    (∀ g args now g', queueUpdateEntry g args now = .ok g' → EntryStored args now g g') ∧
      (∀ g args g', sliceUpdate g args = .ok g' → SliceStored args g g') ∧
      ∀ g args now, args.dryRun = false →
        (∀ g₁, queueUpdateEntry g args.laneOnly now = .ok g₁ → ∀ g',
          queueUpdateEntry g args now = .ok g' ↔
            queueUpdateEntry g₁ args.withoutLane now = .ok g') ∧
        (args.after = none → args.status = none → ∀ g', queueUpdateEntry g args now = .ok g' →
          ∃ g₁, queueUpdateEntry g args.laneOnly now = .ok g₁) := by
  refine ⟨?_, ?_, ?_⟩
  · intro g args now g' h
    exact queueUpdateEntry_exact h
  · intro g args g' h
    exact sliceUpdate_exact h
  · intro g args now hdry
    refine ⟨?_, ?_⟩
    · intro g₁ hlaned g'
      exact lane_then_rest hdry hlaned
    · intro hlinks hstatus g' h
      exact laneOnly_accepted hdry hlinks hstatus h

/-- Two tasks of two repos, and a milestone folder with two slices. -/
def twoTasks : Garden :=
  ⟨some ⟨[⟨"app", "r1", "main"⟩, ⟨"web", "r2", "main"⟩],
    [newEntry "001" .task "One" "app" .normal [] "fix/001" "t0",
      newEntry "002" .task "Two" "web" .normal [] "fix/002" "t1"]⟩,
    none, AList.singleton "m" ⟨⟨"m", [sliceItem 1, sliceItem 2]⟩, ⟨2, []⟩⟩, ⟨2, []⟩⟩

theorem exists_ok {ε α : Type} {x : Except ε α} (h : x.toOption.isSome = true) :
    ∃ a, x = .ok a := by
  cases x with
  | ok a => exact ⟨a, rfl⟩
  | error e => cases h

/-- A task made urgent and put in front, and a slice moved to the front. -/
theorem updates_exact_sample : ∃ g₁ g₂ g₃,
    EntryStored ⟨"002", some .urgent, some ⟨"front", none⟩, none, none, false⟩ "t2" twoTasks g₁ ∧
      SliceStored ⟨"m", "002", some ⟨"front", none⟩, none, false⟩ twoTasks g₂ ∧
      queueUpdateEntry g₃ ⟨"002", none, some ⟨"front", none⟩, none, none, false⟩ "t2" = .ok g₁ := by
  let args : QueueUpdateEntryArgs :=
    ⟨"002", some .urgent, some ⟨"front", none⟩, none, none, false⟩
  obtain ⟨g₁, h₁⟩ : ∃ g₁, queueUpdateEntry twoTasks args "t2" = .ok g₁ :=
    exists_ok (by decide +kernel)
  obtain ⟨g₂, h₂⟩ : ∃ g₂,
      sliceUpdate twoTasks ⟨"m", "002", some ⟨"front", none⟩, none, false⟩ = .ok g₂ :=
    exists_ok (by decide +kernel)
  obtain ⟨hrest, hlane⟩ := updates_exact.2.2 twoTasks args "t2" rfl
  obtain ⟨g₃, h₃⟩ := hlane rfl rfl g₁ h₁
  exact ⟨g₁, g₂, g₃, updates_exact.1 _ _ _ _ h₁, updates_exact.2.1 _ _ _ h₂,
    (hrest g₃ h₃ g₁).mp h₁⟩

/-- A row that is archived stands nowhere. -/
theorem done_leaves_no_place : ¬ ∀ g args now g' queue' place, args.dryRun = false →
    queueUpdateEntry g args now = .ok g' → parseMove args.moveSpec = .ok (some place) →
    g'.queue = some queue' → ∃ e, e.id = args.id ∧
      Stands (·.id) (·.lane = e.lane) e queue'.entries place := by
  intro h
  let args : QueueUpdateEntryArgs :=
    ⟨"001", none, some ⟨"back", none⟩, none, some .done, false⟩
  have hmade : (queueUpdateEntry twoTasks args "t2").toOption.any (fun g' =>
      g'.queue.any fun q => q.entries.map (·.id) = ["002"]) = true := by
    decide +kernel
  simp only [Option.any_eq_true, decide_eq_true_eq] at hmade
  obtain ⟨g', haccepted, queue', hqueue, hids⟩ := hmade
  obtain ⟨g'', hok⟩ : ∃ g'', queueUpdateEntry twoTasks args "t2" = .ok g'' :=
    exists_ok (by rw [haccepted]; rfl)
  obtain rfl : g'' = g' := by
    rw [hok] at haccepted
    exact Option.some.inj haccepted
  obtain ⟨e, hid, before, after, hrows, -⟩ :=
    h twoTasks args "t2" g'' queue' .back rfl hok (by decide +kernel) hqueue
  have hmem : e.id ∈ queue'.entries.map (·.id) := by
    rw [hrows]
    simp
  rw [hids, hid] at hmem
  revert hmem
  decide

end Softfig.Queue
