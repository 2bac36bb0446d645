import Softfig.Tui.Editor

/-!
What an edit leaves is what a rebuild of both line caches over the new buffer gives.

- `rebuildRawFrom_eq`: a rebuild of the tail is a full one where the entries before it are right;
- `afterLineEdit_eq`, `structuralChange_eq`: the two ways to follow an edit;
- `insertChar_eq`, `newline_eq`, `backspace_eq`, `backspace_join`, `delete_eq`, `delete_join`:
  the edits, each as new lines, a cursor and a full rebuild (`edit`).
-/

namespace Softfig.Tui

open Softfig.Doc (Text lines join)

section vectors

variable {α : Type} {xs pre post : List α} {x y : α} {size n : Nat}

theorem setAt_append : setAt (pre ++ x :: post) pre.length y = some (pre ++ y :: post) := by
  rw [setAt, if_pos (by simp), List.set_append_right _ _ (Nat.le_refl _), Nat.sub_self,
    List.set_cons_zero]

theorem getElem?_middle : (pre ++ x :: post)[pre.length]? = some x := by
  rw [List.getElem?_append_right (Nat.le_refl _), Nat.sub_self, List.getElem?_cons_zero]

theorem set_middle : (pre ++ x :: post).set pre.length y = pre ++ y :: post := by
  rw [List.set_append_right _ _ (Nat.le_refl _), Nat.sub_self, List.set_cons_zero]

theorem insertIdx_middle : (pre ++ post).insertIdx pre.length x = pre ++ x :: post := by
  induction pre with
  | nil => rfl
  | cons a pre ih => exact congrArg (a :: ·) ih

theorem eraseIdx_middle : (pre ++ x :: post).eraseIdx pre.length = pre ++ post := by
  rw [List.eraseIdx_append_of_length_le (Nat.le_refl _), Nat.sub_self, List.eraseIdx_cons_zero]

theorem eraseIdx_concat : ((pre ++ [x]) ++ post).eraseIdx pre.length = pre ++ post := by
  rw [List.append_assoc]
  exact eraseIdx_middle

theorem take_middle (h : pre.length = n) : (pre ++ x :: post).take (n + 1) = pre ++ [x] := by
  rw [← List.singleton_append, ← List.append_assoc, List.take_left' (by simp [h])]

@[simp]
theorem length_resize : (resize xs size x).length = size := by
  rw [resize, List.length_append, List.length_take, List.length_replicate]
  omega

theorem take_resize (hxs : n ≤ xs.length) (hsize : n ≤ size) :
    (resize xs size x).take n = xs.take n := by
  rw [resize, List.take_append_of_le_length (by rw [List.length_take]; omega), List.take_take,
    Nat.min_eq_left hsize]

end vectors

namespace Editor

variable {ed : Editor} {old pre post : List Text} {line : Text}

/-- The caches of these lines, which the buffer may have left behind. -/
structure CachesOf (ed : Editor) (old : List Text) : Prop where
  raw : ed.rawCache = (Mealy.scan markdownLine false old).map Prod.fst
  fence : ed.fenceAfter = (Mealy.scan markdownLine false old).map Prod.snd

theorem cachesOf_rebuildRaw : ed.rebuildRaw.CachesOf ed.lines := ⟨rfl, rfl⟩

theorem rebuildRaw_eq_self : ed.rebuildRaw = ed ↔ ed.CachesOf ed.lines := by
  constructor
  · intro h
    rw [← h]
    exact cachesOf_rebuildRaw
  · intro h
    rw [rebuildRaw, ← h.raw, ← h.fence]

theorem restyle_eq {rest : List Text} {state : Bool} {rawPre rawOld : List Line}
    {fencePre fenceOld : List Bool} (hpre : rawPre.length = fencePre.length)
    (hraw : rawOld.length = rest.length) (hfence : fenceOld.length = rest.length) :
    restyle rest fencePre.length state (rawPre ++ rawOld) (fencePre ++ fenceOld) =
      some (rawPre ++ (Mealy.scan markdownLine state rest).map Prod.fst,
        fencePre ++ (Mealy.scan markdownLine state rest).map Prod.snd) := by
  induction rest generalizing state rawPre rawOld fencePre fenceOld with
  | nil =>
    rw [List.length_eq_zero_iff.mp hraw, List.length_eq_zero_iff.mp hfence]
    rfl
  | cons line rest ih =>
    cases rawOld with
    | nil => cases hraw
    | cons oldLine rawOld =>
      cases fenceOld with
      | nil => cases hfence
      | cons oldAfter fenceOld =>
        have hnext : (rawPre ++ [(markdownLine line state).1]).length =
            (fencePre ++ [(markdownLine line state).2]).length := by
          rw [List.length_append, List.length_append, hpre]
          rfl
        have hrest := @ih (markdownLine line state).2 _ _ _ _ hnext (Nat.succ.inj hraw)
          (Nat.succ.inj hfence)
        rw [List.length_append, List.length_singleton] at hrest
        rw [restyle, setAt_append, ← hpre, setAt_append, hpre, Option.bind_eq_bind,
          Option.bind_some, Option.bind_eq_bind, Option.bind_some, Mealy.scan_cons]
        simpa using hrest

/-- The fence state a row starts in is that of the lines before it. -/
theorem stateBefore_eq {fenceOld : List Bool}
    (hfence : ed.fenceAfter = (Mealy.scan markdownLine false pre).map Prod.snd ++ fenceOld) :
    ed.stateBefore pre.length = some (Mealy.stateAfter markdownLine false pre) := by
  rcases List.eq_nil_or_concat' pre with rfl | ⟨start, last, rfl⟩
  · rfl
  · have hlength : start.length = ((Mealy.scan markdownLine false start).map Prod.snd).length := by
      rw [List.length_map, Mealy.length_scan]
    rw [List.length_append, List.length_singleton, stateBefore, hfence, Mealy.scan_append,
      List.map_append, List.append_assoc, Mealy.stateAfter_concat, hlength]
    exact getElem?_middle

/-- **A rebuild of the tail.** It is a full one where the caches of the lines before are right. -/
theorem rebuildRawFrom_eq (hlines : ed.lines = pre ++ post)
    (hrawLength : ed.rawCache.length = ed.lines.length)
    (hfenceLength : ed.fenceAfter.length = ed.lines.length)
    (hraw : ed.rawCache.take pre.length = (Mealy.scan markdownLine false pre).map Prod.fst)
    (hfence : ed.fenceAfter.take pre.length = (Mealy.scan markdownLine false pre).map Prod.snd) :
    ed.rebuildRawFrom pre.length = some ed.rebuildRaw := by
  have hlength : ed.lines.length = pre.length + post.length := by
    rw [hlines, List.length_append]
  have hraw' := (List.take_append_drop pre.length ed.rawCache).symm
  have hfence' := (List.take_append_drop pre.length ed.fenceAfter).symm
  rw [hraw] at hraw'
  rw [hfence] at hfence'
  by_cases hpost : post = []
  · have hcaches : ed.CachesOf ed.lines := by
      rw [hpost, List.append_nil] at hlines
      rw [← hlines, ← hrawLength, List.take_length] at hraw
      rw [← hlines, ← hfenceLength, List.take_length] at hfence
      exact ⟨hraw, hfence⟩
    rw [rebuildRawFrom, if_pos (by simp [hlines, hpost]), rebuildRaw_eq_self.mpr hcaches]
  · have hpos := List.length_pos_iff.mpr hpost
    have hpreLength : ((Mealy.scan markdownLine false pre).map Prod.fst).length =
        ((Mealy.scan markdownLine false pre).map Prod.snd).length := by
      rw [List.length_map, List.length_map]
    have hrestyle := @restyle_eq post (Mealy.stateAfter markdownLine false pre) _
      (ed.rawCache.drop pre.length) _ (ed.fenceAfter.drop pre.length) hpreLength
      (by rw [List.length_drop]; omega) (by rw [List.length_drop]; omega)
    rw [← hraw', ← hfence', List.length_map, Mealy.length_scan] at hrestyle
    rw [rebuildRawFrom, if_neg (by omega), stateBefore_eq hfence', hlines, List.drop_left,
      Option.bind_eq_bind, Option.bind_some, hrestyle, rebuildRaw, hlines, Mealy.scan_append,
      List.map_append, List.map_append]
    rfl

/-- A structural edit behind the lines `pre` is followed by a full rebuild. -/
theorem structuralChange_eq (hcaches : ed.CachesOf (pre ++ old)) (hlines : ed.lines = pre ++ post)
    (hpost : post ≠ []) {row : Nat} (hrow : row = pre.length) : ed.structuralChange row =
      some { ed with dirty := true, bionicCache := none }.rebuildRaw := by
  subst hrow
  have hpos := List.length_pos_iff.mpr hpost
  have hlength : ed.lines.length = pre.length + post.length := by
    rw [hlines, List.length_append]
  have hstart : min pre.length (ed.lines.length - 1) = pre.length := by omega
  have hraw : (resize ed.rawCache ed.lines.length []).take pre.length =
      (Mealy.scan markdownLine false pre).map Prod.fst := by
    rw [take_resize (by rw [hcaches.raw]; simp) (by omega), hcaches.raw, Mealy.scan_append,
      List.map_append, List.take_left' (by simp)]
  have hfence : (resize ed.fenceAfter ed.lines.length false).take pre.length =
      (Mealy.scan markdownLine false pre).map Prod.snd := by
    rw [take_resize (by rw [hcaches.fence]; simp) (by omega), hcaches.fence, Mealy.scan_append,
      List.map_append, List.take_left' (by simp)]
  rw [structuralChange, hstart]
  exact rebuildRawFrom_eq hlines length_resize length_resize hraw hfence

/-- An edit within one line is followed by a full rebuild: where the fence state behind the line
stays, so does everything after it. -/
theorem afterLineEdit_eq {oldLine : Text} (hcaches : ed.CachesOf (pre ++ oldLine :: post))
    (hlines : ed.lines = pre ++ line :: post) {row : Nat} (hrow : row = pre.length) :
    ed.afterLineEdit row = some { ed with dirty := true, bionicCache := none }.rebuildRaw := by
  subst hrow
  have hlength : ((Mealy.scan markdownLine false pre).map Prod.fst).length = pre.length := by
    rw [List.length_map, Mealy.length_scan]
  have hlength' : ((Mealy.scan markdownLine false pre).map Prod.snd).length = pre.length := by
    rw [List.length_map, Mealy.length_scan]
  have hraw := hcaches.raw
  have hfence := hcaches.fence
  rw [Mealy.scan_append, List.map_append, Mealy.scan_cons, List.map_cons] at hraw hfence
  have hbefore := stateBefore_eq hfence
  generalize hstate : Mealy.stateAfter markdownLine false pre = state at *
  have hset : setAt ed.rawCache pre.length (markdownLine line state).1 = some
      ((Mealy.scan markdownLine false pre).map Prod.fst ++ (markdownLine line state).1 ::
        (Mealy.scan markdownLine (markdownLine oldLine state).2 post).map Prod.fst) := by
    rw [hraw, ← hlength]
    exact setAt_append
  have hold : ed.fenceAfter[pre.length]? = some (markdownLine oldLine state).2 := by
    rw [hfence, ← hlength']
    exact getElem?_middle
  have hafter : ed.fenceAfter.set pre.length (markdownLine line state).2 =
      (Mealy.scan markdownLine false pre).map Prod.snd ++ (markdownLine line state).2 ::
        (Mealy.scan markdownLine (markdownLine oldLine state).2 post).map Prod.snd := by
    rw [hfence, ← hlength']
    exact set_middle
  have hline : ed.lines[pre.length]? = some line := by
    rw [hlines]
    exact getElem?_middle
  rw [afterLineEdit, hbefore, hline, hold]
  simp only [Option.bind_eq_bind, Option.bind_some, hset, hafter]
  by_cases hturn : (markdownLine line state).2 = (markdownLine oldLine state).2
  · rw [if_neg (not_not_intro hturn), rebuildRaw]
    simp only [hlines, Mealy.scan_append, hstate, Mealy.scan_cons, List.map_append, List.map_cons,
      hturn]
  · rw [if_pos hturn]
    have hwalk : pre.length + 1 = (pre ++ [line]).length := by simp
    have hsplit : ed.lines = (pre ++ [line]) ++ post := by
      rw [hlines, List.append_assoc]
      rfl
    have hscan : Mealy.scan markdownLine false (pre ++ [line]) =
        Mealy.scan markdownLine false pre ++ [markdownLine line state] := by
      rw [Mealy.scan_append, hstate]
      rfl
    rw [hwalk]
    refine rebuildRawFrom_eq hsplit ?_ ?_ ?_ ?_
    · simp [hlines]
    · simp [hlines]
    · rw [hscan, List.map_append, ← hwalk]
      exact take_middle hlength
    · rw [hscan, List.map_append, ← hwalk]
      exact take_middle hlength'

/-! ### Edits -/

/-- New lines and a cursor, the caches rebuilt in full. -/
def edit (ed : Editor) (ls : List Text) (row col : Nat) : Editor :=
  rebuildRaw
    { ed with dirty := true, selection := none, bionicCache := none, lines := ls, row, col }

/-- An edit that gives the buffer other lines behind `pre`. -/
theorem structural_edit (hcaches : ed.CachesOf (pre ++ old)) (hpost : post ≠ [])
    {row newRow col : Nat} (hrow : row = pre.length) :
    structuralChange { ed with selection := none, lines := pre ++ post, row := newRow, col } row =
      some (ed.edit (pre ++ post) newRow col) :=
  @structuralChange_eq { ed with selection := none, lines := pre ++ post, row := newRow, col }
    _ _ _ ⟨hcaches.raw, hcaches.fence⟩ rfl hpost _ hrow

/-- The cursor stands in a line. -/
structure At (ed : Editor) (pre : List Text) (line : Text) (post : List Text) : Prop where
  lines : ed.lines = pre ++ line :: post
  row : ed.row = pre.length
  col : ed.col ≤ line.length

theorem at_line (h : ed.At pre line post) : ed.lines[ed.row]? = some line := by
  rw [h.lines, h.row]
  exact getElem?_middle

section edits

variable (hat : ed.At pre line post) (hcaches : ed.CachesOf ed.lines) (hedit : ed.editable = true)
include hat hcaches

theorem afterLineEdit_set (new : Text) (col : Nat) :
    afterLineEdit { ed with selection := none, lines := ed.lines.set ed.row new, col } ed.row =
      some (ed.edit (pre ++ new :: post) ed.row col) := by
  have hlines : ed.lines.set ed.row new = pre ++ new :: post := by
    rw [hat.lines, hat.row]
    exact set_middle
  rw [hlines]
  have hold : ed.CachesOf (pre ++ line :: post) := by
    rw [← hat.lines]
    exact hcaches
  exact @afterLineEdit_eq { ed with selection := none, lines := pre ++ new :: post, col } _ _ _ _
    ⟨hold.raw, hold.fence⟩ rfl _ hat.row

include hedit

theorem insertChar_eq {c : Char} (hc : c ≠ '\n') : ed.insertChar c =
    some (ed.edit (pre ++ (line.take ed.col ++ c :: line.drop ed.col) :: post) ed.row
      (ed.col + 1)) := by
  rw [insertChar, if_neg (by simp [hedit, hc]), at_line hat, Option.bind_eq_bind, Option.bind_some]
  exact afterLineEdit_set hat hcaches _ _

theorem newline_eq : ed.newline =
    some (ed.edit (pre ++ line.take ed.col :: line.drop ed.col :: post) (ed.row + 1) 0) := by
  have hlines : (ed.lines.set ed.row (line.take ed.col)).insertIdx (ed.row + 1)
      (line.drop ed.col) = pre ++ line.take ed.col :: line.drop ed.col :: post := by
    have hsplit : pre ++ line.take ed.col :: post = (pre ++ [line.take ed.col]) ++ post := by simp
    have hlength : pre.length + 1 = (pre ++ [line.take ed.col]).length := by simp
    rw [hat.lines, hat.row, set_middle, hsplit, hlength, insertIdx_middle, List.append_assoc]
    rfl
  have hold : ed.CachesOf (pre ++ line :: post) := by
    rw [← hat.lines]
    exact hcaches
  rw [newline, if_neg (by simp [hedit]), at_line hat, Option.bind_eq_bind, Option.bind_some, hlines]
  exact structural_edit hold (List.cons_ne_nil _ _) hat.row

/-- A backspace within a line takes the character before the cursor. -/
theorem backspace_eq (hcol : 0 < ed.col) : ed.backspace =
    some (ed.edit (pre ++ (line.take (ed.col - 1) ++ line.drop ed.col) :: post) ed.row
      (ed.col - 1)) := by
  rw [backspace, if_neg (by simp [hedit]), if_pos hcol, at_line hat, Option.bind_eq_bind,
    Option.bind_some]
  exact afterLineEdit_set hat hcaches _ _

theorem delete_eq (hcol : ed.col < line.length) : ed.delete =
    some (ed.edit (pre ++ (line.take ed.col ++ line.drop (ed.col + 1)) :: post) ed.row
      ed.col) := by
  rw [delete, if_neg (by simp [hedit]), at_line hat, Option.bind_eq_bind, Option.bind_some,
    if_pos hcol]
  exact afterLineEdit_set hat hcaches _ _

end edits

/-- A backspace at the start of a line joins it to the one before. -/
theorem backspace_join {prev : Text} (hat : ed.At (pre ++ [prev]) line post)
    (hcaches : ed.CachesOf ed.lines) (hedit : ed.editable = true) (hcol : ed.col = 0) :
    ed.backspace = some (ed.edit (pre ++ (prev ++ line) :: post) (ed.row - 1) prev.length) := by
  have hrow : ed.row = pre.length + 1 := by
    rw [hat.row, List.length_append]
    rfl
  have hlines : ed.lines = pre ++ prev :: line :: post := by
    rw [hat.lines, List.append_assoc]
    rfl
  have hprev : ed.lines[ed.row - 1]? = some prev := by
    rw [hlines, hrow]
    exact getElem?_middle
  have hjoined : (ed.lines.eraseIdx ed.row).set (ed.row - 1) (prev ++ line) =
      pre ++ (prev ++ line) :: post := by
    have hsplit : pre ++ prev :: line :: post = (pre ++ [prev]) ++ line :: post := by simp
    have hlength : pre.length + 1 = (pre ++ [prev]).length := by simp
    rw [hlines, hrow, Nat.add_sub_cancel, hsplit, hlength, eraseIdx_middle, List.append_assoc]
    exact set_middle
  have hold : ed.CachesOf (pre ++ prev :: line :: post) := by
    rw [← hlines]
    exact hcaches
  rw [backspace, if_neg (by simp [hedit]), if_neg (by omega), if_pos (by omega), at_line hat,
    Option.bind_eq_bind, Option.bind_some, hprev, Option.bind_some, hjoined]
  exact structural_edit hold (List.cons_ne_nil _ _) (by omega)

/-- A delete at the end of a line joins the next one to it. -/
theorem delete_join {next : Text} (hat : ed.At pre line (next :: post))
    (hcaches : ed.CachesOf ed.lines) (hedit : ed.editable = true) (hcol : ed.col = line.length) :
    ed.delete = some (ed.edit (pre ++ (line ++ next) :: post) ed.row ed.col) := by
  have hnext : ed.lines[ed.row + 1]? = some next := by
    rw [hat.lines, hat.row, List.getElem?_append_right (by omega)]
    simp
  have hjoined : (ed.lines.eraseIdx (ed.row + 1)).set ed.row (line ++ next) =
      pre ++ (line ++ next) :: post := by
    have hsplit : pre ++ line :: next :: post = (pre ++ [line]) ++ next :: post := by simp
    have hlength : pre.length + 1 = (pre ++ [line]).length := by simp
    rw [hat.lines, hat.row, hsplit, hlength, eraseIdx_middle, List.append_assoc]
    exact set_middle
  have hold : ed.CachesOf (pre ++ line :: next :: post) := by
    rw [← hat.lines]
    exact hcaches
  have hlt : ed.row + 1 < ed.lines.length := by
    rw [hat.lines, hat.row]
    simp
  rw [delete, if_neg (by simp [hedit]), at_line hat, Option.bind_eq_bind, Option.bind_some,
    if_neg (by omega), if_pos hlt, hnext, Option.bind_some, hjoined]
  exact structural_edit hold (List.cons_ne_nil _ _) hat.row

end Editor

end Softfig.Tui
