import Softfig.Tui.EditorCaches

/-!
An editing session: whatever is typed, moved, selected, saved or discarded, the editor does
not index out of bounds, its caches are those of a rebuild, its cursor stands in the buffer, and the
text is edited where the cursor stands in it.

- `Sound`: what holds of every editor of a session;
- `edited`: what an operation does to the text, at the cursor's offset;
- `session_sound`: every session, and every operation after it;
- `views_show_text`: after every session either view shows the text.
-/

namespace Softfig.Tui

open Softfig.Doc (Text lines join)

/-! ### Text around a line -/

/-- Lines, each with its break behind it. -/
def front (pre : List Text) : Text := pre.flatMap (· ++ ['\n'])

/-- Lines, each with its break before it. -/
def back (post : List Text) : Text := post.flatMap ('\n' :: ·)

@[simp]
theorem front_concat (pre : List Text) (line : Text) :
    front (pre ++ [line]) = front pre ++ line ++ ['\n'] := by
  simp [front]

@[simp]
theorem back_cons (line : Text) (post : List Text) :
    back (line :: post) = '\n' :: line ++ back post := List.flatMap_cons

theorem join_back (line : Text) (post : List Text) : join (line :: post) = line ++ back post := by
  induction post generalizing line with
  | nil => rw [Doc.join_singleton, back, List.flatMap_nil, List.append_nil]
  | cons next post ih =>
    rw [Doc.join_cons _ (List.cons_ne_nil _ _), ih, back_cons]
    rfl

theorem join_around (pre : List Text) (line : Text) (post : List Text) :
    join (pre ++ line :: post) = front pre ++ (line ++ back post) := by
  induction pre with
  | nil => exact join_back line post
  | cons first pre ih =>
    rw [List.cons_append, Doc.join_cons _ (by simp), ih]
    simp [front]

namespace Editor

variable {ed : Editor} {pre post : List Text} {line : Text}

/-- The characters of the text before the cursor. -/
def offset (ed : Editor) : Nat := (front (ed.lines.take ed.row)).length + ed.col

theorem text_at (hat : ed.At pre line post) :
    ed.text = (front pre ++ line.take ed.col) ++ (line.drop ed.col ++ back post) := by
  rw [text, hat.lines, join_around]
  conv_lhs => rw [← List.take_append_drop ed.col line]
  simp only [List.append_assoc]

theorem offset_at (hat : ed.At pre line post) :
    ed.offset = (front pre ++ line.take ed.col).length := by
  rw [offset, hat.lines, hat.row, List.take_left, List.length_append, List.length_take,
    Nat.min_eq_left hat.col]

theorem text_edit (ls : List Text) (row col : Nat) : (ed.edit ls row col).text = join ls := rfl

/-- What an operation does to the text. -/
def edited (ed : Editor) : Op → Text
  | .insertChar c => if ed.editable ∧ c ≠ '\n' then ed.text.insertIdx ed.offset c else ed.text
  | .newline => if ed.editable then ed.text.insertIdx ed.offset '\n' else ed.text
  | .backspace =>
    if ed.editable ∧ 0 < ed.offset then ed.text.eraseIdx (ed.offset - 1) else ed.text
  | .delete => if ed.editable then ed.text.eraseIdx ed.offset else ed.text
  | .discard => ed.pristineText
  | _ => ed.text

/-- **What holds of every editor of a session.** -/
structure Sound (alphanumeric : Char → Bool) (ed : Editor) : Prop where
  /-- A rebuild from the whole buffer changes neither line cache. -/
  cached : ed.rebuildRaw = ed
  entries : ed.rawCache.length = ed.lines.length ∧ ed.fenceAfter.length = ed.lines.length
  bionic : ∀ cache ∈ ed.bionicCache, cache = renderBionicLines alphanumeric ed.ratio ed.lines
  /-- The cursor stands in a line of the buffer. -/
  cursor : ∃ line, ed.lines[ed.row]? = some line ∧ ed.col ≤ line.length
  clean : ed.dirty = false → ed.lines = ed.pristine
  /-- The buffer and the base are the lines of their texts. -/
  split : Doc.lines ed.text = ed.lines ∧ Doc.lines ed.pristineText = ed.pristine

/-- An operation goes through, and leaves a sound editor with this text. -/
def Leaves (alphanumeric : Char → Bool) (result : Option Editor) (text : Text) : Prop :=
  ∃ ed, result = some ed ∧ ed.Sound alphanumeric ∧ ed.text = text

section sound

variable {alphanumeric : Char → Bool} (h : ed.Sound alphanumeric)

theorem sound_of (hcaches : ed.CachesOf ed.lines)
    (hbionic : ∀ cache ∈ ed.bionicCache, cache = renderBionicLines alphanumeric ed.ratio ed.lines)
    (hcursor : ∃ line, ed.lines[ed.row]? = some line ∧ ed.col ≤ line.length)
    (hclean : ed.dirty = false → ed.lines = ed.pristine)
    (hsplit : Doc.lines ed.text = ed.lines ∧ Doc.lines ed.pristineText = ed.pristine) :
    ed.Sound alphanumeric where
  cached := rebuildRaw_eq_self.mpr hcaches
  entries := by
    rw [hcaches.raw, hcaches.fence, List.length_map, List.length_map, Mealy.length_scan]
    exact ⟨rfl, rfl⟩
  bionic := hbionic
  cursor := hcursor
  clean := hclean
  split := hsplit

include h

theorem Sound.caches : ed.CachesOf ed.lines := rebuildRaw_eq_self.mp h.cached

theorem Sound.free : ∀ l ∈ ed.lines, '\n' ∉ l := by
  rw [← h.split.1]
  exact Doc.newline_notMem_lines _

theorem Sound.at : ∃ pre line post, ed.At pre line post := by
  obtain ⟨line, hline, hcol⟩ := h.cursor
  obtain ⟨hlt, rfl⟩ := List.getElem?_eq_some_iff.mp hline
  refine ⟨ed.lines.take ed.row, ed.lines[ed.row], ed.lines.drop (ed.row + 1), ?_, ?_, hcol⟩
  · rw [List.getElem_cons_drop, List.take_append_drop]
  · rw [List.length_take, Nat.min_eq_left hlt.le]

/-- The fence state kept for a line is the parity of the fence markers up to it. -/
theorem Sound.fence {i : Nat} (hi : i < ed.lines.length) :
    ed.fenceAfter[i]? = some (Doc.fenceAfter false (ed.lines.take (i + 1))) := by
  rw [h.caches.fence, List.getElem?_map, Mealy.getElem?_scan hi, stateAfter_markdownLine]

/-- Either view shows the buffer, character for character. -/
theorem Sound.doc : (ed.doc alphanumeric).2.map shown = ed.lines := by
  unfold Editor.doc
  split
  · rw [h.caches.raw]
    exact Mealy.map_scan text_markdownLine
  · next hmode =>
    have hrender : (renderBionicLines alphanumeric ed.ratio ed.lines).map shown = ed.lines :=
      Mealy.map_scan (text_bionicStep alphanumeric ed.ratio)
    cases hcache : ed.bionicCache with
    | none => simpa [fillBionic, hmode, hcache] using hrender
    | some cache => simpa [fillBionic, hmode, hcache, h.bionic cache hcache] using hrender

/-! ### What leaves the buffer alone -/

theorem Sound.withCursor {row col : Nat}
    (hcursor : ∃ line, ed.lines[row]? = some line ∧ col ≤ line.length)
    (selection : Option (Nat × Nat)) :
    Sound alphanumeric { ed with row, col, selection } :=
  sound_of ⟨h.caches.raw, h.caches.fence⟩ h.bionic hcursor h.clean h.split

theorem leaves_cursor {row col : Nat}
    (hcursor : ∃ line, ed.lines[row]? = some line ∧ col ≤ line.length)
    (selection : Option (Nat × Nat)) :
    Leaves alphanumeric (some { ed with row, col, selection }) ed.text :=
  ⟨_, rfl, h.withCursor hcursor selection, rfl⟩

theorem leaves_self : Leaves alphanumeric (some ed) ed.text := ⟨ed, rfl, h, rfl⟩

theorem leaves_toRow {row : Nat} (hrow : row < ed.lines.length) (col : Nat) :
    Leaves alphanumeric (ed.toRow row col) ed.text := by
  have hline : ed.lines[row]? = some ed.lines[row] := List.getElem?_eq_getElem hrow
  rw [toRow, hline, Option.bind_eq_bind, Option.bind_some]
  exact leaves_cursor h ⟨_, hline, Nat.min_le_right _ _⟩ ed.selection

theorem Sound.row_lt : ed.row < ed.lines.length := by
  obtain ⟨line, hline, -⟩ := h.cursor
  exact (List.getElem?_eq_some_iff.mp hline).1

theorem leaves_moveLeft : Leaves alphanumeric ed.moveLeft ed.text := by
  obtain ⟨line, hline, hcol⟩ := h.cursor
  have hrow := h.row_lt
  unfold moveLeft
  split
  · exact leaves_cursor h ⟨line, hline, by omega⟩ ed.selection
  split
  · have hlt : ed.row - 1 < ed.lines.length := by omega
    have hprev : ed.lines[ed.row - 1]? = some ed.lines[ed.row - 1] := List.getElem?_eq_getElem hlt
    rw [hprev, Option.bind_eq_bind, Option.bind_some]
    exact leaves_cursor h ⟨_, hprev, Nat.le_refl _⟩ ed.selection
  · exact leaves_self h

theorem leaves_moveRight : Leaves alphanumeric ed.moveRight ed.text := by
  obtain ⟨line, hline, hcol⟩ := h.cursor
  rw [moveRight, hline, Option.bind_eq_bind, Option.bind_some]
  split
  · exact leaves_cursor h ⟨line, hline, by omega⟩ ed.selection
  split
  · next hlt =>
    exact leaves_cursor h ⟨_, List.getElem?_eq_getElem hlt, Nat.zero_le _⟩ ed.selection
  · exact leaves_self h

theorem leaves_moveUp : Leaves alphanumeric ed.moveUp ed.text := by
  have hrow := h.row_lt
  unfold moveUp
  split
  · exact leaves_toRow h (by omega) _
  · exact leaves_self h

theorem leaves_moveDown : Leaves alphanumeric ed.moveDown ed.text := by
  unfold moveDown
  split
  · next hlt => exact leaves_toRow h hlt _
  · exact leaves_self h

theorem leaves_moveHome : Leaves alphanumeric (some ed.moveHome) ed.text := by
  obtain ⟨line, hline, -⟩ := h.cursor
  exact leaves_cursor h ⟨line, hline, Nat.zero_le _⟩ ed.selection

theorem leaves_moveEnd : Leaves alphanumeric ed.moveEnd ed.text := by
  obtain ⟨line, hline, -⟩ := h.cursor
  rw [moveEnd, hline, Option.bind_eq_bind, Option.bind_some]
  exact leaves_cursor h ⟨line, hline, Nat.le_refl _⟩ ed.selection

theorem leaves_pageUp : Leaves alphanumeric ed.pageUp ed.text := by
  have hrow := h.row_lt
  exact leaves_toRow h (by omega) _

theorem leaves_pageDown : Leaves alphanumeric ed.pageDown ed.text := by
  have hrow := h.row_lt
  exact leaves_toRow h (by omega) _

theorem leaves_setCursor (row col : Nat) : Leaves alphanumeric (ed.setCursor row col) ed.text := by
  have hrow := h.row_lt
  unfold setCursor
  split
  · exact leaves_self h
  · exact leaves_toRow h (by omega) _

theorem leaves_beginSelection (row col : Nat) :
    Leaves alphanumeric (some (ed.beginSelection row col)) ed.text := by
  unfold beginSelection
  split
  · exact leaves_self h
  · exact leaves_cursor h h.cursor _

theorem leaves_clearSelection : Leaves alphanumeric (some ed.clearSelection) ed.text :=
  leaves_cursor h h.cursor none

omit h in
theorem wordEnd_le (rest : Text) (stop : Nat) :
    wordEnd alphanumeric rest stop ≤ stop + rest.length := by
  induction rest generalizing stop with
  | nil => exact Nat.le_refl _
  | cons c rest ih =>
    rw [wordEnd]
    split
    · have hrest := ih (stop + 1)
      rw [List.length_cons]
      omega
    · exact Nat.le_add_right _ _

theorem leaves_selectWordAt (row col : Nat) :
    Leaves alphanumeric (ed.selectWordAt alphanumeric row col) ed.text := by
  have hrow := h.row_lt
  unfold selectWordAt
  split
  · exact leaves_self h
  have hlt : min row (ed.lines.length - 1) < ed.lines.length := by omega
  have hline := List.getElem?_eq_getElem hlt
  generalize ed.lines[min row (ed.lines.length - 1)] = chars at hline
  dsimp only
  rw [hline, Option.bind_eq_bind, Option.bind_some]
  split
  · exact leaves_cursor h ⟨chars, hline, Nat.zero_le _⟩ none
  next hne =>
  have hpos : 0 < chars.length := List.length_pos_iff.mpr (by simpa using hne)
  have hplace : min col (chars.length - 1) < chars.length := by omega
  rw [List.getElem?_eq_getElem hplace, Option.bind_eq_bind, Option.bind_some]
  split
  · refine leaves_cursor h ⟨chars, hline, ?_⟩ _
    have hend := @wordEnd_le alphanumeric
      (chars.drop (min col (chars.length - 1) + 1)) (min col (chars.length - 1))
    rw [List.length_drop] at hend
    omega
  · exact leaves_cursor h ⟨chars, hline, hplace.le⟩ _

/-! ### Views and outcomes -/

theorem Sound.fillBionic : (ed.fillBionic alphanumeric).Sound alphanumeric := by
  unfold Editor.fillBionic
  split
  · refine sound_of ⟨h.caches.raw, h.caches.fence⟩ ?_ h.cursor h.clean h.split
    intro cache hcache
    exact (Option.some.inj hcache).symm
  · exact h

omit h in
theorem text_fillBionic : (ed.fillBionic alphanumeric).text = ed.text := by
  unfold Editor.fillBionic
  split
  · rfl
  · rfl

theorem leaves_toggleMode : Leaves alphanumeric (some (ed.toggleMode alphanumeric)) ed.text := by
  refine ⟨_, rfl, Sound.fillBionic ?_, text_fillBionic⟩
  exact sound_of ⟨h.caches.raw, h.caches.fence⟩ h.bionic h.cursor h.clean h.split

theorem leaves_setMode (mode : EditorMode) :
    Leaves alphanumeric (some (ed.setMode alphanumeric mode)) ed.text := by
  unfold setMode
  split
  · exact leaves_toggleMode h
  · exact leaves_self h

theorem leaves_doc : Leaves alphanumeric (some (ed.doc alphanumeric).1) ed.text := by
  unfold doc
  split
  · exact leaves_self h
  · exact ⟨_, rfl, h.fillBionic, text_fillBionic⟩

theorem leaves_setRatio (ratio : Ratio) :
    Leaves alphanumeric (some (ed.setRatio ratio)) ed.text := by
  refine ⟨_, rfl, ?_, rfl⟩
  refine sound_of ⟨h.caches.raw, h.caches.fence⟩ ?_ h.cursor h.clean h.split
  intro cache hcache
  cases hcache

theorem leaves_setViewport (rows : Nat) :
    Leaves alphanumeric (some (ed.setViewport rows)) ed.text :=
  ⟨_, rfl, sound_of ⟨h.caches.raw, h.caches.fence⟩ h.bionic h.cursor h.clean h.split, rfl⟩

/-- A save that came back leaves the buffer clean where it is what was sent. -/
theorem leaves_markSaved (version : Option Text) (savedText : Text) :
    Leaves alphanumeric (some (ed.markSaved version savedText)) ed.text := by
  refine ⟨_, rfl, ?_, rfl⟩
  refine sound_of ⟨h.caches.raw, h.caches.fence⟩ h.bionic h.cursor ?_ ⟨h.split.1, ?_⟩
  · intro hclean
    exact of_not_not (of_decide_eq_false hclean)
  · exact congrArg Doc.lines (Doc.join_lines savedText)

theorem leaves_discard : Leaves alphanumeric ed.discard ed.pristineText := by
  have hne : ed.pristine ≠ [] := by
    rw [← h.split.2]
    exact Doc.lines_ne_nil _
  have hpos := List.length_pos_iff.mpr hne
  have hlt : min ed.row (ed.pristine.length - 1) < ed.pristine.length := by omega
  have hline := List.getElem?_eq_getElem hlt
  unfold discard toRow
  show Leaves alphanumeric ((ed.pristine[min ed.row (ed.pristine.length - 1)]?).bind _) _
  rw [hline, Option.bind_some]
  refine ⟨_, rfl, ?_, rfl⟩
  refine sound_of ⟨rfl, rfl⟩ ?_ ⟨_, hline, Nat.min_le_right _ _⟩ (fun _ => rfl) ?_
  · intro cache hcache
    cases hcache
  · exact ⟨h.split.2, h.split.2⟩

/-! ### Edits -/

theorem Sound.edit {ls : List Text} {row col : Nat} (hfree : ∀ l ∈ ls, '\n' ∉ l)
    (hcursor : ∃ line, ls[row]? = some line ∧ col ≤ line.length) :
    (ed.edit ls row col).Sound alphanumeric := by
  have hne : ls ≠ [] := by
    rintro rfl
    obtain ⟨line, hline, -⟩ := hcursor
    cases hline
  refine sound_of ⟨rfl, rfl⟩ ?_ hcursor ?_ ⟨Doc.lines_join hfree hne, h.split.2⟩
  · intro cache hcache
    cases hcache
  · intro hclean
    cases hclean

theorem leaves_edit {ls : List Text} {new : Text} {row col : Nat} {result : Option Editor}
    {text : Text} (hresult : result = some (ed.edit ls row col)) (hls : ls = pre ++ new :: post)
    (hrow : row = pre.length) (hcol : col ≤ new.length) (hfree : ∀ l ∈ ls, '\n' ∉ l)
    (htext : front pre ++ (new ++ back post) = text) : Leaves alphanumeric result text := by
  refine ⟨_, hresult, h.edit hfree ⟨new, ?_, hcol⟩, ?_⟩
  · rw [hls, hrow]
    exact getElem?_middle
  · rw [text_edit, hls, join_around, htext]

theorem Sound.free_at (hat : ed.At pre line post) :
    (∀ l ∈ pre, '\n' ∉ l) ∧ '\n' ∉ line ∧ ∀ l ∈ post, '\n' ∉ l := by
  have hfree := h.free
  rw [hat.lines, List.forall_mem_append, List.forall_mem_cons] at hfree
  exact hfree

theorem leaves_insertChar (c : Char) :
    Leaves alphanumeric (ed.insertChar c) (ed.edited (.insertChar c)) := by
  by_cases hgo : ed.editable = true ∧ c ≠ '\n'
  · obtain ⟨pre, line, post, hat⟩ := h.at
    obtain ⟨hpre, hline, hpost⟩ := h.free_at hat
    have hcol := hat.col
    refine leaves_edit h (insertChar_eq hat h.caches hgo.1 hgo.2) rfl hat.row ?_ ?_ ?_
    · rw [List.length_append, List.length_cons, List.length_take, List.length_drop]
      omega
    · rw [List.forall_mem_append, List.forall_mem_cons]
      refine ⟨hpre, ?_, hpost⟩
      rw [List.mem_append, List.mem_cons, not_or, not_or]
      exact ⟨fun hmem => hline (List.mem_of_mem_take hmem), hgo.2.symm,
        fun hmem => hline (List.mem_of_mem_drop hmem)⟩
    · rw [edited, if_pos hgo, text_at hat, offset_at hat, insertIdx_middle]
      simp only [List.append_assoc, List.cons_append]
  · have hskip : ed.editable = false ∨ c = '\n' := by
      cases hed : ed.editable with
      | false => exact .inl rfl
      | true => exact .inr (by_contra fun hc => hgo ⟨hed, hc⟩)
    rw [edited, if_neg hgo, insertChar, if_pos (by simpa using hskip)]
    exact leaves_self h

theorem leaves_newline : Leaves alphanumeric ed.newline (ed.edited .newline) := by
  by_cases hedit : ed.editable = true
  · obtain ⟨pre, line, post, hat⟩ := h.at
    obtain ⟨hpre, hline, hpost⟩ := h.free_at hat
    have hls : pre ++ line.take ed.col :: line.drop ed.col :: post =
        (pre ++ [line.take ed.col]) ++ line.drop ed.col :: post := by
      rw [List.append_assoc]
      rfl
    refine leaves_edit h (newline_eq hat h.caches hedit) hls ?_ (Nat.zero_le _) ?_ ?_
    · rw [hat.row, List.length_append]
      rfl
    · rw [List.forall_mem_append, List.forall_mem_cons, List.forall_mem_cons]
      exact ⟨hpre, fun hmem => hline (List.mem_of_mem_take hmem),
        fun hmem => hline (List.mem_of_mem_drop hmem), hpost⟩
    · rw [edited, if_pos hedit, text_at hat, offset_at hat, insertIdx_middle, front_concat]
      simp only [List.append_assoc, List.cons_append, List.nil_append]
  · rw [edited, if_neg hedit, newline, if_pos (by simpa using hedit)]
    exact leaves_self h

theorem leaves_backspace : Leaves alphanumeric ed.backspace (ed.edited .backspace) := by
  by_cases hedit : ed.editable = true
  swap
  · rw [edited, if_neg (fun hgo => hedit hgo.1), backspace, if_pos (by simpa using hedit)]
    exact leaves_self h
  obtain ⟨pre, line, post, hat⟩ := h.at
  obtain ⟨hpre, hline, hpost⟩ := h.free_at hat
  have hcol := hat.col
  by_cases hpos : 0 < ed.col
  · -- the character before the cursor stands in the line
    have hlt : ed.col - 1 < line.length := by omega
    obtain ⟨c, hlast⟩ : ∃ c, line.take ed.col = line.take (ed.col - 1) ++ [c] := by
      refine ⟨line.get ⟨ed.col - 1, hlt⟩, ?_⟩
      rw [List.get_eq_getElem, List.take_concat_get', Nat.sub_add_cancel hpos]
    refine leaves_edit h (backspace_eq hat h.caches hedit hpos) rfl hat.row ?_ ?_ ?_
    · rw [List.length_append, List.length_take, List.length_drop]
      omega
    · rw [List.forall_mem_append, List.forall_mem_cons]
      refine ⟨hpre, ?_, hpost⟩
      rw [List.mem_append, not_or]
      exact ⟨fun hmem => hline (List.mem_of_mem_take hmem),
        fun hmem => hline (List.mem_of_mem_drop hmem)⟩
    · have hoffset := offset_at hat
      have htext := text_at hat
      rw [hlast, ← List.append_assoc (front pre)] at hoffset htext
      rw [List.length_append, List.length_singleton] at hoffset
      rw [edited, if_pos ⟨hedit, by omega⟩, htext, hoffset, Nat.add_sub_cancel, eraseIdx_concat]
      simp only [List.append_assoc]
  have hzero : ed.col = 0 := by omega
  rcases List.eq_nil_or_concat' pre with rfl | ⟨start, prev, rfl⟩
  · -- the cursor stands at the start of the text
    have hoffset : ed.offset = 0 := by
      rw [offset_at hat, hzero]
      rfl
    have hrow : ed.row = 0 := hat.row
    rw [edited, if_neg (by omega), backspace, if_neg (by simp [hedit]), if_neg hpos,
      if_neg (by omega)]
    exact leaves_cursor h h.cursor none
  · -- the line break before the cursor goes
    rw [List.forall_mem_append, List.forall_mem_singleton] at hpre
    refine leaves_edit h (backspace_join hat h.caches hedit hzero) rfl ?_ ?_ ?_ ?_
    · rw [hat.row, List.length_append]
      rfl
    · rw [List.length_append]
      omega
    · rw [List.forall_mem_append, List.forall_mem_cons, List.mem_append, not_or]
      exact ⟨hpre.1, ⟨hpre.2, hline⟩, hpost⟩
    · have hoffset := offset_at hat
      have htext := text_at hat
      rw [hzero, List.take_zero, List.append_nil, front_concat] at hoffset htext
      rw [List.length_append, List.length_singleton] at hoffset
      rw [edited, if_pos ⟨hedit, by omega⟩, htext, hoffset, Nat.add_sub_cancel, eraseIdx_concat]
      simp only [List.append_assoc, List.drop_zero]

theorem leaves_delete : Leaves alphanumeric ed.delete (ed.edited .delete) := by
  by_cases hedit : ed.editable = true
  swap
  · rw [edited, if_neg hedit, delete, if_pos (by simpa using hedit)]
    exact leaves_self h
  obtain ⟨pre, line, post, hat⟩ := h.at
  obtain ⟨hpre, hline, hpost⟩ := h.free_at hat
  have hcol := hat.col
  by_cases hlt : ed.col < line.length
  · -- the character at the cursor stands in the line
    refine leaves_edit h (delete_eq hat h.caches hedit hlt) rfl hat.row ?_ ?_ ?_
    · rw [List.length_append, List.length_take]
      omega
    · rw [List.forall_mem_append, List.forall_mem_cons]
      refine ⟨hpre, ?_, hpost⟩
      rw [List.mem_append, not_or]
      exact ⟨fun hmem => hline (List.mem_of_mem_take hmem),
        fun hmem => hline (List.mem_of_mem_drop hmem)⟩
    · rw [edited, if_pos hedit, text_at hat, offset_at hat,
        ← List.cons_getElem_drop_succ (h := hlt), List.cons_append, eraseIdx_middle]
      simp only [List.append_assoc]
  have hend : ed.col = line.length := by omega
  have htext := text_at hat
  rw [hend, List.drop_length, List.nil_append] at htext
  cases post with
  | nil =>
    -- the cursor stands at the end of the text
    have hlast : ¬ ed.row + 1 < ed.lines.length := by
      rw [hat.lines, hat.row]
      simp
    have hoffset : ed.offset = ed.text.length := by
      rw [htext, offset_at hat, hend]
      simp [back]
    rw [edited, if_pos hedit, hoffset, List.eraseIdx_of_length_le (Nat.le_refl _), delete,
      if_neg (by simp [hedit]), at_line hat, Option.bind_eq_bind, Option.bind_some, if_neg hlt,
      if_neg hlast]
    exact leaves_cursor h h.cursor none
  | cons next post =>
    -- the line break at the cursor goes
    rw [List.forall_mem_cons] at hpost
    refine leaves_edit h (delete_join hat h.caches hedit hend) rfl hat.row ?_ ?_ ?_
    · rw [List.length_append]
      omega
    · rw [List.forall_mem_append, List.forall_mem_cons, List.mem_append, not_or]
      exact ⟨hpre, ⟨hline, hpost.1⟩, hpost.2⟩
    · rw [edited, if_pos hedit, htext, offset_at hat, hend, back_cons, List.cons_append,
        eraseIdx_middle, List.take_length]
      simp only [List.append_assoc]

/-- Every operation goes through, and does to the text what it is for. -/
theorem leaves_step (op : Op) : Leaves alphanumeric (ed.step alphanumeric op) (ed.edited op) := by
  cases op with
  | insertChar c => exact leaves_insertChar h c
  | newline => exact leaves_newline h
  | backspace => exact leaves_backspace h
  | delete => exact leaves_delete h
  | moveLeft => exact leaves_moveLeft h
  | moveRight => exact leaves_moveRight h
  | moveUp => exact leaves_moveUp h
  | moveDown => exact leaves_moveDown h
  | moveHome => exact leaves_moveHome h
  | moveEnd => exact leaves_moveEnd h
  | pageUp => exact leaves_pageUp h
  | pageDown => exact leaves_pageDown h
  | setCursor row col => exact leaves_setCursor h row col
  | beginSelection row col => exact leaves_beginSelection h row col
  | clearSelection => exact leaves_clearSelection h
  | selectWordAt row col => exact leaves_selectWordAt h row col
  | toggleMode => exact leaves_toggleMode h
  | setMode mode => exact leaves_setMode h mode
  | doc => exact leaves_doc h
  | setRatio ratio => exact leaves_setRatio h ratio
  | setViewport rows => exact leaves_setViewport h rows
  | markSaved version savedText => exact leaves_markSaved h version savedText
  | discard => exact leaves_discard h

end sound

/-! ### Sessions -/

theorem sound_fromRead (alphanumeric : Char → Bool) (ratio : Ratio) (path content : Text)
    (version : Option Text) (sealed : Bool) (regionIds : List Text) :
    (fromRead ratio path content version sealed regionIds).Sound alphanumeric := by
  have hsplit : Doc.lines (join (Doc.lines content)) = Doc.lines content :=
    congrArg Doc.lines (Doc.join_lines content)
  have hpos := List.length_pos_iff.mpr (Doc.lines_ne_nil content)
  refine sound_of ⟨rfl, rfl⟩ ?_ ⟨_, List.getElem?_eq_getElem hpos, Nat.zero_le _⟩ (fun _ => rfl)
    ⟨hsplit, hsplit⟩
  intro cache hcache
  cases hcache

/-- **Sessions.** Every session over every file goes through, its editor is sound, and one more
operation changes the text as that operation at the cursor's offset. -/
theorem session_sound (alphanumeric : Char → Bool) (ratio : Ratio) (path content : Text)
    (version : Option Text) (sealed : Bool) (regionIds : List Text) (ops : List Op) :
    ∃ ed, run alphanumeric (fromRead ratio path content version sealed regionIds) ops = some ed ∧
      ed.Sound alphanumeric ∧
      ∀ op, ∃ next, ed.step alphanumeric op = some next ∧ next.Sound alphanumeric ∧
        next.text = ed.edited op := by
  have hstep (ed : Editor) (op : Op) (h : ed.Sound alphanumeric) :
      ∃ next, ed.step alphanumeric op = some next ∧ next.Sound alphanumeric := by
    obtain ⟨next, hnext, hsound, -⟩ := leaves_step h op
    exact ⟨next, hnext, hsound⟩
  obtain ⟨ed, hrun, hsound⟩ := Lib.System.replay_total hstep
    (sound_fromRead alphanumeric ratio path content version sealed regionIds) ops
  exact ⟨ed, hrun, hsound, fun op => leaves_step hsound op⟩

/-- **Views.** After every session either view shows the whole text, whichever caches it is drawn
from, and behind each line the editor knows the fence state the document parsers find there. -/
theorem views_show_text (alphanumeric : Char → Bool) (ratio : Ratio) (path content : Text)
    (version : Option Text) (sealed : Bool) (regionIds : List Text) (ops : List Op) :
    ∃ ed, run alphanumeric (fromRead ratio path content version sealed regionIds) ops = some ed ∧
      (∀ mode, join (({ ed with mode }.doc alphanumeric).2.map shown) = ed.text) ∧
      ∀ i < ed.lines.length,
        ed.fenceAfter[i]? = some (Doc.fenceAfter false (ed.lines.take (i + 1))) := by
  have hstep (ed : Editor) (op : Op) (h : ed.Sound alphanumeric) :
      ∃ next, ed.step alphanumeric op = some next ∧ next.Sound alphanumeric := by
    obtain ⟨next, hnext, hsound, -⟩ := leaves_step h op
    exact ⟨next, hnext, hsound⟩
  obtain ⟨ed, hrun, hsound⟩ := Lib.System.replay_total hstep
    (sound_fromRead alphanumeric ratio path content version sealed regionIds) ops
  refine ⟨ed, hrun, fun mode => ?_, fun i hi => hsound.fence hi⟩
  have hview : Sound alphanumeric { ed with mode } :=
    sound_of ⟨hsound.caches.raw, hsound.caches.fence⟩ hsound.bionic hsound.cursor hsound.clean
      hsound.split
  rw [hview.doc]
  rfl

end Editor

end Softfig.Tui
