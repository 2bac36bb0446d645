import Mathlib.Data.List.Infix
import Softfig.Lib.Transition
import Softfig.Tui.Bionic

/-!
The in-TUI file editor: a buffer of lines, a cursor in rows and character columns, and
line caches that an edit brings up to date in part.

An operation is `none` where the code would index out of bounds. The scroll offset, which
no operation here reads, is left out.
-/

namespace Softfig.Tui

open Softfig.Doc (Text lines join)
open Softfig.Lib (System)

inductive EditorMode where
  | raw
  | bionic
deriving DecidableEq, Repr

/-- The operands of one `patch_file` call. -/
structure EditorWrite where
  path : Text
  old : Text
  new : Text
  expectedVersion : Option Text
deriving DecidableEq

structure Editor where
  path : Text
  mode : EditorMode := .raw
  dirty : Bool := false
  /-- The reason, where editing and saving are refused. -/
  readOnly : Option Text
  expectedVersion : Option Text
  viewport : Nat := 0
  ratio : Ratio
  lines : List Text
  pristine : List Text
  row : Nat := 0
  col : Nat := 0
  /-- The anchor; the head is the cursor. -/
  selection : Option (Nat × Nat) := none
  rawCache : List Line := []
  fenceAfter : List Bool := []
  bionicCache : Option (List Line) := none

/-- The client-side refusal gate. -/
def refusalReason (sealed : Bool) (content : Text) (regionIds : List Text) : Option Text :=
  if sealed then some "file is sealed ([sealed])".toList
  else if regionIds ≠ [] then some "file contains sealed <vault> region(s)".toList
  else if "[sealed:".toList <:+: content then some "projected sealed-file placeholder".toList
  else if "[encrypted]".toList <:+: content then
    some "projected [encrypted] vault region".toList
  else if "[binary file:".toList.isPrefixOf content then
    some "binary content (no editor)".toList
  else if "[… truncated]".toList <:+: content then
    some "projection was truncated; saving could drop the tail".toList
  else none

/-- Writes to a place of a vector, which has to be there. -/
def setAt {α : Type} (xs : List α) (i : Nat) (x : α) : Option (List α) :=
  if i < xs.length then some (xs.set i x) else none

def resize {α : Type} (xs : List α) (size : Nat) (x : α) : List α :=
  xs.take size ++ List.replicate (size - xs.length) x

namespace Editor

/-! ### Caches -/

def rebuildRaw (ed : Editor) : Editor :=
  { ed with
    rawCache := (Mealy.scan markdownLine false ed.lines).map Prod.fst
    fenceAfter := (Mealy.scan markdownLine false ed.lines).map Prod.snd }

/-- The fence state a row starts in. -/
def stateBefore (ed : Editor) : Nat → Option Bool
  | 0 => some false
  | row + 1 => ed.fenceAfter[row]?

/-- Styles the lines left, from a row on, into the two caches. -/
def restyle : List Text → Nat → Bool → List Line → List Bool → Option (List Line × List Bool)
  | [], _, _, rawCache, fenceAfter => some (rawCache, fenceAfter)
  | line :: rest, i, state, rawCache, fenceAfter => do
    let rawCache ← setAt rawCache i (markdownLine line state).1
    let fenceAfter ← setAt fenceAfter i (markdownLine line state).2
    restyle rest (i + 1) (markdownLine line state).2 rawCache fenceAfter

def rebuildRawFrom (ed : Editor) (start : Nat) : Option Editor :=
  if ed.lines.length ≤ start then some ed
  else do
    let state ← ed.stateBefore start
    let (rawCache, fenceAfter) ←
      restyle (ed.lines.drop start) start state ed.rawCache ed.fenceAfter
    some { ed with rawCache, fenceAfter }

/-- In-line edit: the tail is walked only when the fence state behind the line turned. -/
def afterLineEdit (ed : Editor) (row : Nat) : Option Editor := do
  let before ← ed.stateBefore row
  let line ← ed.lines[row]?
  let rawCache ← setAt ed.rawCache row (markdownLine line before).1
  let oldAfter ← ed.fenceAfter[row]?
  let after := (markdownLine line before).2
  let fenceAfter := ed.fenceAfter.set row after
  let ed : Editor := { ed with dirty := true, bionicCache := none, rawCache, fenceAfter }
  if after ≠ oldAfter then ed.rebuildRawFrom (row + 1) else some ed

/-- A line inserted or removed: the caches get their size at the end, then the rest is rebuilt. -/
def structuralChange (ed : Editor) (row : Nat) : Option Editor :=
  rebuildRawFrom
    { ed with
      dirty := true
      bionicCache := none
      rawCache := resize ed.rawCache ed.lines.length []
      fenceAfter := resize ed.fenceAfter ed.lines.length false }
    (min row (ed.lines.length - 1))

/-! ### Opening, text and operands -/

def fromRead (ratio : Ratio) (path content : Text) (version : Option Text) (sealed : Bool)
    (regionIds : List Text) : Editor :=
  rebuildRaw
    { path
      readOnly := refusalReason sealed content regionIds
      expectedVersion := version.filter (· ≠ [])
      ratio
      lines := Doc.lines content
      pristine := Doc.lines content }

/-- The whole buffer. -/
def text (ed : Editor) : Text := join ed.lines

def pristineText (ed : Editor) : Text := join ed.pristine

def pendingWrite (ed : Editor) : EditorWrite :=
  ⟨ed.path, ed.pristineText, ed.text, ed.expectedVersion⟩

def editable (ed : Editor) : Bool := ed.readOnly.isNone && ed.mode = .raw

/-! ### Edits -/

def insertChar (ed : Editor) (c : Char) : Option Editor :=
  if !ed.editable || c = '\n' then some ed
  else do
    let line ← ed.lines[ed.row]?
    afterLineEdit
      { ed with
        selection := none
        lines := ed.lines.set ed.row (line.take ed.col ++ c :: line.drop ed.col)
        col := ed.col + 1 }
      ed.row

def newline (ed : Editor) : Option Editor :=
  if !ed.editable then some ed
  else do
    let line ← ed.lines[ed.row]?
    structuralChange
      { ed with
        selection := none
        lines := (ed.lines.set ed.row (line.take ed.col)).insertIdx (ed.row + 1) (line.drop ed.col)
        row := ed.row + 1
        col := 0 }
      ed.row

def backspace (ed : Editor) : Option Editor :=
  if !ed.editable then some ed
  else if 0 < ed.col then do
    let line ← ed.lines[ed.row]?
    afterLineEdit
      { ed with
        selection := none
        lines := ed.lines.set ed.row (line.take (ed.col - 1) ++ line.drop ed.col)
        col := ed.col - 1 }
      ed.row
  else if 0 < ed.row then do
    let cur ← ed.lines[ed.row]?
    let line ← ed.lines[ed.row - 1]?
    structuralChange
      { ed with
        selection := none
        lines := (ed.lines.eraseIdx ed.row).set (ed.row - 1) (line ++ cur)
        row := ed.row - 1
        col := line.length }
      (ed.row - 1)
  else some { ed with selection := none }

def delete (ed : Editor) : Option Editor :=
  if !ed.editable then some ed
  else do
    let line ← ed.lines[ed.row]?
    if ed.col < line.length then
      afterLineEdit
        { ed with
          selection := none
          lines := ed.lines.set ed.row (line.take ed.col ++ line.drop (ed.col + 1)) }
        ed.row
    else if ed.row + 1 < ed.lines.length then do
      let next ← ed.lines[ed.row + 1]?
      structuralChange
        { ed with
          selection := none
          lines := (ed.lines.eraseIdx (ed.row + 1)).set ed.row (line ++ next) }
        ed.row
    else some { ed with selection := none }

/-! ### Cursor -/

/-- Moves to a row, the column held within its line. -/
def toRow (ed : Editor) (row col : Nat) : Option Editor := do
  let line ← ed.lines[row]?
  some { ed with row, col := min col line.length }

def moveLeft (ed : Editor) : Option Editor :=
  if 0 < ed.col then some { ed with col := ed.col - 1 }
  else if 0 < ed.row then do
    let line ← ed.lines[ed.row - 1]?
    some { ed with row := ed.row - 1, col := line.length }
  else some ed

def moveRight (ed : Editor) : Option Editor := do
  let line ← ed.lines[ed.row]?
  if ed.col < line.length then some { ed with col := ed.col + 1 }
  else if ed.row + 1 < ed.lines.length then some { ed with row := ed.row + 1, col := 0 }
  else some ed

def moveUp (ed : Editor) : Option Editor :=
  if 0 < ed.row then ed.toRow (ed.row - 1) ed.col else some ed

def moveDown (ed : Editor) : Option Editor :=
  if ed.row + 1 < ed.lines.length then ed.toRow (ed.row + 1) ed.col else some ed

def moveHome (ed : Editor) : Editor := { ed with col := 0 }

def moveEnd (ed : Editor) : Option Editor := do
  let line ← ed.lines[ed.row]?
  some { ed with col := line.length }

def pageUp (ed : Editor) : Option Editor := ed.toRow (ed.row - max ed.viewport 1) ed.col

def pageDown (ed : Editor) : Option Editor :=
  ed.toRow (min (ed.row + max ed.viewport 1) (ed.lines.length - 1)) ed.col

def setCursor (ed : Editor) (row col : Nat) : Option Editor :=
  if ed.lines.isEmpty then some ed else ed.toRow (min row (ed.lines.length - 1)) col

/-! ### Selection -/

def beginSelection (ed : Editor) (row col : Nat) : Editor :=
  match ed.selection with
  | some _ => ed
  | none =>
    let row := min row (ed.lines.length - 1)
    { ed with selection := some (row, min col ((ed.lines[row]?).elim 0 List.length)) }

def clearSelection (ed : Editor) : Editor := { ed with selection := none }

section views

variable (alphanumeric : Char → Bool)

def isWordChar (c : Char) : Bool := alphanumeric c || c == '_' || c == '\'' || c == '-'

/-- Goes left while a word character stands there. -/
def wordStart (chars : Text) : Nat → Nat
  | 0 => 0
  | start + 1 =>
    if (chars[start]?).any (isWordChar alphanumeric) then wordStart chars start else start + 1

/-- Goes right over the word characters that follow. -/
def wordEnd : Text → Nat → Nat
  | [], stop => stop
  | c :: rest, stop => if isWordChar alphanumeric c then wordEnd rest (stop + 1) else stop

def selectWordAt (ed : Editor) (row col : Nat) : Option Editor :=
  if ed.lines.isEmpty then some ed
  else do
    let row := min row (ed.lines.length - 1)
    let chars ← ed.lines[row]?
    if chars.isEmpty then some { ed with row, col := 0, selection := none }
    else do
      let place := min col (chars.length - 1)
      let c ← chars[place]?
      if isWordChar alphanumeric c then
        some { ed with
          row
          selection := some (row, wordStart alphanumeric chars place)
          col := wordEnd alphanumeric (chars.drop (place + 1)) place }
      else some { ed with row, selection := some (row, place), col := place }

/-! ### Views and outcomes -/

/-- Fills the bionic cache where the bionic view is on and has none. -/
def fillBionic (ed : Editor) : Editor :=
  if ed.mode = .bionic && ed.bionicCache.isNone then
    { ed with bionicCache := some (renderBionicLines alphanumeric ed.ratio ed.lines) }
  else ed

def toggleMode (ed : Editor) : Editor :=
  fillBionic alphanumeric
    { ed with
      mode := match ed.mode with
        | .raw => .bionic
        | .bionic => .raw }

def setMode (ed : Editor) (mode : EditorMode) : Editor :=
  if ed.mode ≠ mode then ed.toggleMode alphanumeric else ed

/-- The lines of the active view, with the bionic cache filled on first use. -/
def doc (ed : Editor) : Editor × List Line :=
  match ed.mode with
  | .raw => (ed, ed.rawCache)
  | .bionic =>
    let ed := ed.fillBionic alphanumeric
    (ed, ed.bionicCache.getD [])

end views

def setRatio (ed : Editor) (ratio : Ratio) : Editor := { ed with ratio, bionicCache := none }

def setViewport (ed : Editor) (rows : Nat) : Editor := { ed with viewport := rows }

/-- A save came back: what was sent is the base now, and newer edits keep the buffer dirty. -/
def markSaved (ed : Editor) (version : Option Text) (savedText : Text) : Editor :=
  { ed with
    pristine := Doc.lines savedText
    dirty := ed.lines ≠ Doc.lines savedText
    expectedVersion := version.or ed.expectedVersion }

def discard (ed : Editor) : Option Editor :=
  let ed := rebuildRaw
    { ed with lines := ed.pristine, dirty := false, selection := none, bionicCache := none }
  ed.toRow (min ed.row (ed.lines.length - 1)) ed.col

/-! ### Runs -/

/-- What a session does to an editor. -/
inductive Op where
  | insertChar (c : Char)
  | newline
  | backspace
  | delete
  | moveLeft
  | moveRight
  | moveUp
  | moveDown
  | moveHome
  | moveEnd
  | pageUp
  | pageDown
  | setCursor (row col : Nat)
  | beginSelection (row col : Nat)
  | clearSelection
  | selectWordAt (row col : Nat)
  | toggleMode
  | setMode (mode : EditorMode)
  | doc
  | setRatio (ratio : Ratio)
  | setViewport (rows : Nat)
  | markSaved (version : Option Text) (savedText : Text)
  | discard

variable (alphanumeric : Char → Bool)

def step (ed : Editor) : Op → Option Editor
  | .insertChar c => ed.insertChar c
  | .newline => ed.newline
  | .backspace => ed.backspace
  | .delete => ed.delete
  | .moveLeft => ed.moveLeft
  | .moveRight => ed.moveRight
  | .moveUp => ed.moveUp
  | .moveDown => ed.moveDown
  | .moveHome => some ed.moveHome
  | .moveEnd => ed.moveEnd
  | .pageUp => ed.pageUp
  | .pageDown => ed.pageDown
  | .setCursor row col => ed.setCursor row col
  | .beginSelection row col => some (ed.beginSelection row col)
  | .clearSelection => some ed.clearSelection
  | .selectWordAt row col => ed.selectWordAt alphanumeric row col
  | .toggleMode => some (ed.toggleMode alphanumeric)
  | .setMode mode => some (ed.setMode alphanumeric mode)
  | .doc => some (ed.doc alphanumeric).1
  | .setRatio ratio => some (ed.setRatio ratio)
  | .setViewport rows => some (ed.setViewport rows)
  | .markSaved version savedText => some (ed.markSaved version savedText)
  | .discard => ed.discard

def run (ed : Editor) (ops : List Op) : Option Editor := System.replay (step alphanumeric) ed ops

end Editor

end Softfig.Tui
