import Softfig.Doc.RegionEdits
import Softfig.Growlight.Chat
import Softfig.Lib.Cells
import Softfig.Lib.Except

/-!
The tables of the backlog document: the rows of a queue and the registry of queues.

A table is written from its rows and read back by every verb. A row starts with its number, so no
row of a queue is taken for the header or the separator; a row of the registry can be.

- `QueueTable.parse_render`: the rows of a queue are read back, with blank space trimmed, where no
  cell breaks its line;
- `Registry.parse_render`: the queues are read back, where none is taken for a header or a rule;
- `reordered_moved`: the row moved is where its position says, and the others keep their order.
-/

namespace Softfig.Growlight

open Doc (Text lines join Plain Solid plainStart lines_append lines_line trim_trim)
open Queue (isWhitespace trimStart trim)
open Lib (escapeCell splitCells innerRow splitCells_inner)

/-! ### Rows of cells -/

/-- Escape a `|`. -/
def escape (cell : Text) : Text := escapeCell '|' '\\' cell

/-- The trimmed cells of a `| a | b |` line. -/
def splitRow (line : Text) : List Text :=
  (splitCells '|' '\\' [] (((trim line).dropWhile (· = '|')).rdropWhile (· = '|'))).map trim

/-- A cell of the line under a header. -/
def isRule (cell : Text) : Bool := cell ≠ [] && cell.all fun c => c = '-' || c = ':'

/-- The cells of a line that starts with a bar. -/
def rowCells (line : Text) : Option (List Text) :=
  if (trim line).head? = some '|' then some (splitRow (trim line)) else none

/-- The row of padded cells, as both tables write it. -/
def barred (cells : List Text) : Text := '|' :: innerRow '|' '\\' ' ' cells ++ ['|']

/-! ### The rows of a queue -/

/-- One backlog item's authoritative queue state. -/
structure QueueRow where
  id : Text
  itemType : Text
  title : Text
  status : Text
  deriving DecidableEq, Repr

namespace QueueTable

def header : Text := "| # | id | type | title | status |".toList

def separator : Text := "|---|----|------|-------|--------|".toList

/-- The line of the row at index `i`. -/
def renderRow (i : Nat) (row : QueueRow) : Text :=
  "| ".toList ++ Nat.toDigits 10 (i + 1) ++ " | ".toList ++ escape row.id ++ " | ".toList ++
    escape row.itemType ++ " | ".toList ++ escape row.title ++ " | ".toList ++ escape row.status ++
    " |".toList

def render (rows : List QueueRow) : Text :=
  header ++ '\n' :: separator ++ rows.zipIdx.flatMap fun (row, i) => '\n' :: renderRow i row

/-- A line with five cells that is neither the header nor the line under it. -/
def parseRow (line : Text) : Option QueueRow :=
  match rowCells line with
  | some [number, id, itemType, title, status] =>
    if number = "#".toList ∧ id = "id".toList then none
    else if [number, id, itemType, title, status].all isRule then none
    else some ⟨id, itemType, title, status⟩
  | _ => none

def parse (body : Text) : List QueueRow := (strLines body).filterMap parseRow

end QueueTable

/-! ### The registry -/

/-- One registered queue: a name and the repo path its parts build against. -/
structure QueueDef where
  name : Text
  repo : Text
  deriving DecidableEq, Repr

/-- The implicit queue. -/
def defaultQueue : Text := "default".toList

def queueTag : Text := "queue".toList

def queuesTag : Text := "queues".toList

/-- The tag of the region that holds a queue's rows. -/
def itemRegionTag (queue : Text) : Text :=
  if queue = defaultQueue then queueTag else "queue:".toList ++ queue

namespace Registry

def header : Text := "| queue | repo |".toList

def separator : Text := "|-------|------|".toList

def renderRow (d : QueueDef) : Text :=
  "| ".toList ++ escape d.name ++ " | ".toList ++ escape d.repo ++ " |".toList

def render (defs : List QueueDef) : Text :=
  header ++ '\n' :: separator ++ defs.flatMap fun d => '\n' :: renderRow d

def parseRow (line : Text) : Option QueueDef :=
  match rowCells line with
  | some [name, repo] =>
    if name = "queue".toList ∧ repo = "repo".toList then none
    else if [name, repo].all isRule then none
    else if name = [] then none
    else some ⟨name, repo⟩
  | _ => none

def parse (body : Text) : List QueueDef := (strLines body).filterMap parseRow

end Registry

def isKnown (defs : List QueueDef) (name : Text) : Bool :=
  name = defaultQueue || defs.any fun d => d.name = name

/-! ### Reordering -/

inductive Position where
  | top
  | bottom
  | before (ref : Text)
  | after (ref : Text)
  deriving DecidableEq, Repr

inductive ReorderError where
  | refNotFound (ref : Text)
  | refIsSelf (ref : Text)
  deriving DecidableEq, Repr

/-- The index of a row among the others. -/
def refIndex (rest : List QueueRow) (ref moved : Text) : Except ReorderError Nat :=
  if ref = moved then .error (.refIsSelf ref)
  else
    match rest.findIdx? fun row => row.id = ref with
    | none => .error (.refNotFound ref)
    | some i => .ok i

/-- Where a row goes among the others. -/
def Position.target (rest : List QueueRow) (moved : Text) : Position → Except ReorderError Nat
  | .top => .ok 0
  | .bottom => .ok rest.length
  | .before ref => refIndex rest ref moved
  | .after ref => (· + 1) <$> refIndex rest ref moved

/-- The rows with the one at `start` moved to its position. -/
def reordered (rows : List QueueRow) (start : Fin rows.length) (position : Position) :
    Except ReorderError (List QueueRow) := do
  let rest := rows.eraseIdx start
  let moved := rows.get start
  let target ← position.target rest moved.id
  return rest.insertIdx target moved

/-! ### What a row is read as -/

theorem trim_pad (cell : Text) : trim (' ' :: cell ++ [' ']) = trim cell :=
  (Doc.trim_concat (by decide)).trans (trim_space cell)

/-- Padding stands at both ends of a row between its outer bars. -/
theorem innerRow_ends {cells : List Text} (hne : cells ≠ []) :
    (innerRow '|' '\\' ' ' cells).head? = some ' ' ∧
      (innerRow '|' '\\' ' ' cells).getLast? = some ' ' := by
  induction cells with
  | nil => exact absurd rfl hne
  | cons cell cells ih =>
    cases cells with
    | nil => exact ⟨rfl, List.getLast?_concat ..⟩
    | cons next cells =>
      obtain ⟨-, hlast⟩ := ih (List.cons_ne_nil _ _)
      refine ⟨rfl, ?_⟩
      obtain ⟨front, hfront⟩ := List.getLast?_eq_some_iff.mp hlast
      rw [innerRow, hfront]
      · rw [← List.cons_append, ← List.cons_append, ← List.append_assoc]
        exact List.getLast?_concat ..
      · exact List.cons_ne_nil _ _

theorem trim_barred (cells : List Text) : trim (barred cells) = barred cells :=
  Doc.trim_of_ends rfl (by decide) (List.getLast?_concat ..) (by decide)

/-- **A row is read as the cells it was written from**, trimmed. -/
theorem splitRow_barred {cells : List Text} (hne : cells ≠ []) :
    splitRow (barred cells) = cells.map trim := by
  obtain ⟨hhead, hlast⟩ := innerRow_ends hne
  obtain ⟨inner, hinner⟩ := List.head?_eq_some_iff.mp hhead
  have hstart : (barred cells).dropWhile (· = '|') = innerRow '|' '\\' ' ' cells ++ ['|'] := by
    rw [barred, List.cons_append, List.dropWhile_cons_of_pos (by simp), hinner, List.cons_append,
      List.dropWhile_cons_of_neg (by decide)]
  have hend : (innerRow '|' '\\' ' ' cells ++ ['|']).rdropWhile (· = '|') =
      innerRow '|' '\\' ' ' cells := by
    obtain ⟨front, hfront⟩ := List.getLast?_eq_some_iff.mp hlast
    rw [List.rdropWhile_concat_pos _ _ _ (by simp), hfront,
      List.rdropWhile_concat_neg _ _ _ (by decide)]
  rw [splitRow, trim_barred, hstart, hend,
    splitCells_inner (by decide) (by decide) (by decide) hne, List.map_map]
  exact List.map_congr_left fun cell _ => trim_pad cell

theorem rowCells_barred {cells : List Text} (hne : cells ≠ []) :
    rowCells (barred cells) = some (cells.map trim) := by
  rw [rowCells, trim_barred, splitRow_barred hne]
  exact if_pos rfl

theorem newline_notMem_escape {cell : Text} (h : '\n' ∉ cell) : '\n' ∉ escape cell := by
  intro hmem
  obtain ⟨c, hc, hin⟩ := List.mem_flatMap.mp hmem
  split at hin
  · exact absurd hin (by decide)
  · obtain rfl := List.mem_singleton.mp hin
    exact h hc

theorem newline_notMem_innerRow {cells : List Text} (h : ∀ cell ∈ cells, '\n' ∉ cell) :
    '\n' ∉ innerRow '|' '\\' ' ' cells := by
  have hpad : '\n' ≠ ' ' := by decide
  have hbar : '\n' ≠ '|' := by decide
  induction cells with
  | nil => exact List.not_mem_nil
  | cons cell cells ih =>
    have hcell := newline_notMem_escape (h cell List.mem_cons_self)
    have hcells := ih fun cell hcell => h cell (List.mem_cons_of_mem _ hcell)
    rw [escape] at hcell
    cases cells with
    | nil => simp [innerRow, hcell, hpad]
    | cons next cells => simp [innerRow, hcell, hpad, hbar, hcells]

theorem newline_notMem_barred {cells : List Text} (h : ∀ cell ∈ cells, '\n' ∉ cell) :
    '\n' ∉ barred cells := by
  have hbar : '\n' ≠ '|' := by decide
  simp [barred, newline_notMem_innerRow h, hbar]

/-! ### What a table is read as -/

/-- Rows under a header and its line, as both tables write them. -/
def tableText (header separator : Text) (rows : List (List Text)) : Text :=
  header ++ '\n' :: separator ++ rows.flatMap fun cells => '\n' :: barred cells

section tables

variable {header separator : Text} {rows : List (List Text)}

/-- The header and the line under it are lines between bars. -/
structure IsHeader (header separator : Text) : Prop where
  header : '\n' ∉ header ∧ header.head? = some '|' ∧ header.getLast? = some '|'
  separator : '\n' ∉ separator ∧ separator.head? = some '|' ∧ separator.getLast? = some '|'

/-- Lines that each start a new one. -/
theorem lines_flatMap {α : Type} {line : α → Text} {items : List α}
    (h : ∀ a ∈ items, '\n' ∉ line a) {first : Text} (hfirst : '\n' ∉ first) :
    lines (first ++ items.flatMap fun a => '\n' :: line a) = first :: items.map line := by
  induction items generalizing first with
  | nil =>
    rw [List.flatMap_nil, List.append_nil, lines_line hfirst]
    rfl
  | cons a items ih =>
    rw [List.flatMap_cons, List.cons_append, lines_append, lines_line hfirst,
      ih (fun a ha => h a (List.mem_cons_of_mem _ ha)) (h a List.mem_cons_self)]
    rfl

theorem lines_tableText (h : IsHeader header separator)
    (hrows : ∀ cells ∈ rows, ∀ cell ∈ cells, '\n' ∉ cell) :
    lines (tableText header separator rows) = header :: separator :: rows.map barred := by
  rw [tableText, List.append_assoc, List.cons_append, lines_append, lines_line h.header.1,
    lines_flatMap (fun cells hcells => newline_notMem_barred (hrows cells hcells)) h.separator.1]
  rfl

/-- Every line of a table stands between bars. -/
theorem ends_tableText (h : IsHeader header separator) :
    ∀ l ∈ header :: separator :: rows.map barred, l.head? = some '|' ∧ l.getLast? = some '|' := by
  intro l hl
  rcases List.mem_cons.mp hl with rfl | hl
  · exact h.header.2
  · rcases List.mem_cons.mp hl with rfl | hl
    · exact h.separator.2
    · obtain ⟨cells, -, rfl⟩ := List.mem_map.mp hl
      exact ⟨rfl, List.getLast?_concat ..⟩

theorem plainStart_barred {l : Text} (h : l.head? = some '|') : plainStart l = true := by
  obtain ⟨k, rfl⟩ := List.head?_eq_some_iff.mp h
  rfl

theorem plain_tableText (h : IsHeader header separator)
    (hrows : ∀ cells ∈ rows, ∀ cell ∈ cells, '\n' ∉ cell) :
    ∀ l ∈ lines (tableText header separator rows), Plain l := by
  rw [lines_tableText h hrows]
  exact fun l hl => .of_start (plainStart_barred (ends_tableText h l hl).1)

theorem solid_tableText (h : IsHeader header separator)
    (hrows : ∀ cells ∈ rows, ∀ cell ∈ cells, '\n' ∉ cell) :
    Solid (tableText header separator rows) := by
  have hblank {l : Text} (hl : l ∈ lines (tableText header separator rows)) :
      l.all isWhitespace = false := by
    rw [lines_tableText h hrows] at hl
    obtain ⟨k, rfl⟩ := List.head?_eq_some_iff.mp (ends_tableText h l hl).1
    rfl
  exact ⟨fun l hl => hblank (List.mem_of_mem_head? hl), fun l hl => hblank (List.mem_of_getLast? hl)⟩

theorem strLines_tableText (h : IsHeader header separator)
    (hrows : ∀ cells ∈ rows, ∀ cell ∈ cells, '\n' ∉ cell) :
    strLines (tableText header separator rows) = header :: separator :: rows.map barred := by
  have hends := @ends_tableText header separator rows h
  rw [strLines, lines_tableText h hrows]
  generalize hlines : header :: separator :: rows.map barred = ls at hends ⊢
  have hne : ls ≠ [] := by
    rintro rfl
    cases hlines
  have hstrip : ls.dropLast.map stripCr = ls.dropLast := by
    refine (List.map_congr_left fun l hl => ?_).trans (List.map_id _)
    rw [stripCr, (hends l (List.mem_of_mem_dropLast hl)).2]
    rfl
  have hlast : ls.getLast hne ≠ [] := by
    intro hnil
    have hbar := (hends _ (List.getLast_mem hne)).1
    rw [hnil] at hbar
    cases hbar
  rw [hstrip, List.getLast?_eq_some_getLast hne, Option.toList_some, List.filter_cons_of_pos (by simpa using hlast)]
  exact List.dropLast_append_getLast hne

end tables

/-! ### Rows of a queue -/

/-- A row as the table keeps it. -/
def QueueRow.trimmed (row : QueueRow) : QueueRow :=
  ⟨trim row.id, trim row.itemType, trim row.title, trim row.status⟩

/-- No cell breaks the line. -/
structure QueueRow.OneLine (row : QueueRow) : Prop where
  id : '\n' ∉ row.id
  itemType : '\n' ∉ row.itemType
  title : '\n' ∉ row.title
  status : '\n' ∉ row.status

namespace QueueTable

def cells (i : Nat) (row : QueueRow) : List Text :=
  [Nat.toDigits 10 (i + 1), row.id, row.itemType, row.title, row.status]

theorem isHeader : IsHeader header separator where
  header := ⟨by decide, rfl, by decide⟩
  separator := ⟨by decide, rfl, by decide⟩

theorem escape_digits (n : Nat) : escapeCell '|' '\\' (Nat.toDigits 10 n) = Nat.toDigits 10 n := by
  have hdigit : ∀ c ∈ Nat.toDigits 10 n, c.isDigit = true := fun c hc =>
    Nat.isDigit_of_mem_toDigits (by decide) (by decide) hc
  generalize Nat.toDigits 10 n = digits at hdigit
  induction digits with
  | nil => rfl
  | cons c digits ih =>
    have hc : c ≠ '|' := by
      rintro rfl
      exact absurd (hdigit '|' List.mem_cons_self) (by decide)
    rw [escapeCell, List.flatMap_cons, if_neg hc]
    exact congrArg (c :: ·) (ih fun c hc => hdigit c (List.mem_cons_of_mem _ hc))

theorem renderRow_eq (i : Nat) (row : QueueRow) : renderRow i row = barred (cells i row) := by
  have hstart : "| ".toList = ['|', ' '] := by decide
  have hbetween : " | ".toList = [' ', '|', ' '] := by decide
  have hend : " |".toList = [' ', '|'] := by decide
  have hdigits := escape_digits (i + 1)
  unfold renderRow cells
  generalize Nat.toDigits 10 (i + 1) = digits at hdigits ⊢
  simp only [hstart, hbetween, hend, barred, innerRow, escape, hdigits, List.append_assoc,
    List.cons_append, List.nil_append]

theorem render_eq (rows : List QueueRow) : render rows =
    tableText header separator (rows.zipIdx.map fun (row, i) => cells i row) := by
  rw [render, tableText, List.flatMap_map]
  simp only [renderRow_eq]

theorem oneLine_cells {rows : List QueueRow} (h : ∀ row ∈ rows, row.OneLine) :
    ∀ line ∈ rows.zipIdx.map fun (row, i) => cells i row, ∀ cell ∈ line, '\n' ∉ cell := by
  intro line hline cell hcell
  obtain ⟨⟨row, i⟩, hmem, rfl⟩ := List.mem_map.mp hline
  have hrow := h row (List.mem_of_getElem? (List.mem_zipIdx_iff_getElem?.mp hmem))
  simp only [cells, List.mem_cons, List.not_mem_nil, or_false] at hcell
  rcases hcell with rfl | rfl | rfl | rfl | rfl
  · intro hbreak
    exact absurd (Nat.isDigit_of_mem_toDigits (by decide) (by decide) hbreak) (by decide)
  · exact hrow.id
  · exact hrow.itemType
  · exact hrow.title
  · exact hrow.status

/-- The number of a row tells it from the header and from the line under it. -/
theorem parseRow_barred (i : Nat) (row : QueueRow) :
    parseRow (barred (cells i row)) = some row.trimmed := by
  have hdigit : ∀ c ∈ Nat.toDigits 10 (i + 1), c.isDigit = true := fun c hc =>
    Nat.isDigit_of_mem_toDigits (by decide) (by decide) hc
  have hword : IsWord (Nat.toDigits 10 (i + 1)) := by
    intro c hc
    simp only [isWordChar, isStampChar, hdigit c hc, Bool.true_or, Bool.or_true]
  have hheader : Nat.toDigits 10 (i + 1) ≠ "#".toList := by
    intro heq
    exact absurd (hdigit '#' (heq ▸ List.mem_cons_self)) (by decide)
  have hrule : isRule (Nat.toDigits 10 (i + 1)) = false := by
    obtain ⟨c, rest, hcons⟩ := List.exists_cons_of_ne_nil (Nat.toDigits_ne_nil (b := 10) (n := i + 1))
    have hc := hdigit c (hcons ▸ List.mem_cons_self)
    have hdash : c ≠ '-' := by
      rintro rfl
      exact absurd hc (by decide)
    have hcolon : c ≠ ':' := by
      rintro rfl
      exact absurd hc (by decide)
    rw [hcons, isRule, List.all_cons]
    simp [hdash, hcolon]
  rw [cells, parseRow, rowCells_barred (List.cons_ne_nil _ _)]
  simp only [List.map_cons, List.map_nil, trim_word hword]
  rw [if_neg fun h => hheader h.1, if_neg]
  · rfl
  · rw [List.all_cons, hrule]
    exact Bool.false_ne_true

/-- **The rows written are the rows read**, their cells trimmed, where no cell breaks its line. -/
theorem parse_render {rows : List QueueRow} (h : ∀ row ∈ rows, row.OneLine) :
    parse (render rows) = rows.map QueueRow.trimmed := by
  have hheader : parseRow header = none := by decide
  have hseparator : parseRow separator = none := by decide
  rw [parse, render_eq, strLines_tableText isHeader (oneLine_cells h),
    List.filterMap_cons_none hheader, List.filterMap_cons_none hseparator, List.map_map,
    List.filterMap_map]
  have hrow : (parseRow ∘ barred ∘ fun (row, i) => cells i row) =
      some ∘ QueueRow.trimmed ∘ Prod.fst := funext fun (row, i) => parseRow_barred i row
  rw [hrow, List.filterMap_eq_map, ← List.map_map, List.zipIdx_map_fst]

theorem plain_render {rows : List QueueRow} (h : ∀ row ∈ rows, row.OneLine) :
    ∀ l ∈ lines (render rows), Plain l := by
  rw [render_eq]
  exact plain_tableText isHeader (oneLine_cells h)

theorem solid_render {rows : List QueueRow} (h : ∀ row ∈ rows, row.OneLine) :
    Solid (render rows) := by
  rw [render_eq]
  exact solid_tableText isHeader (oneLine_cells h)

end QueueTable

/-! ### The rows of the registry -/

def QueueDef.trimmed (d : QueueDef) : QueueDef := ⟨trim d.name, trim d.repo⟩

/-- The row is read as itself: no cell breaks its line, the name is not blank, and the cells are
neither those of the header nor those of the line under it. -/
structure QueueDef.Registrable (d : QueueDef) : Prop where
  name : '\n' ∉ d.name
  repo : '\n' ∉ d.repo
  named : trim d.name ≠ []
  header : ¬(trim d.name = "queue".toList ∧ trim d.repo = "repo".toList)
  rule : ¬(isRule (trim d.name) = true ∧ isRule (trim d.repo) = true)

namespace Registry

theorem isHeader : IsHeader header separator where
  header := ⟨by decide, rfl, by decide⟩
  separator := ⟨by decide, rfl, by decide⟩

theorem renderRow_eq (d : QueueDef) : renderRow d = barred [d.name, d.repo] := by
  have hstart : "| ".toList = ['|', ' '] := by decide
  have hbetween : " | ".toList = [' ', '|', ' '] := by decide
  have hend : " |".toList = [' ', '|'] := by decide
  simp only [renderRow, hstart, hbetween, hend, barred, innerRow, escape, List.append_assoc,
    List.cons_append, List.nil_append]

theorem render_eq (defs : List QueueDef) :
    render defs = tableText header separator (defs.map fun d => [d.name, d.repo]) := by
  rw [render, tableText, List.flatMap_map]
  simp only [renderRow_eq]

theorem oneLine_cells {defs : List QueueDef} (h : ∀ d ∈ defs, d.Registrable) :
    ∀ line ∈ defs.map fun d => [d.name, d.repo], ∀ cell ∈ line, '\n' ∉ cell := by
  intro line hline cell hcell
  obtain ⟨d, hd, rfl⟩ := List.mem_map.mp hline
  simp only [List.mem_cons, List.not_mem_nil, or_false] at hcell
  rcases hcell with rfl | rfl
  · exact (h d hd).name
  · exact (h d hd).repo

theorem parseRow_barred {d : QueueDef} (h : d.Registrable) :
    parseRow (barred [d.name, d.repo]) = some d.trimmed := by
  rw [parseRow, rowCells_barred (List.cons_ne_nil _ _)]
  simp only [List.map_cons, List.map_nil]
  rw [if_neg h.header, if_neg (by simpa using h.rule), if_neg h.named]
  rfl

/-- **The queues written are the queues read.** -/
theorem parse_render {defs : List QueueDef} (h : ∀ d ∈ defs, d.Registrable) :
    parse (render defs) = defs.map QueueDef.trimmed := by
  have hheader : parseRow header = none := by decide
  have hseparator : parseRow separator = none := by decide
  rw [parse, render_eq, strLines_tableText isHeader (oneLine_cells h),
    List.filterMap_cons_none hheader, List.filterMap_cons_none hseparator, List.map_map,
    List.filterMap_map, ← List.filterMap_eq_map]
  exact List.filterMap_congr fun d hd => parseRow_barred (h d hd)

theorem plain_render {defs : List QueueDef} (h : ∀ d ∈ defs, d.Registrable) :
    ∀ l ∈ lines (render defs), Plain l := by
  rw [render_eq]
  exact plain_tableText isHeader (oneLine_cells h)

theorem solid_render {defs : List QueueDef} (h : ∀ d ∈ defs, d.Registrable) :
    Solid (render defs) := by
  rw [render_eq]
  exact solid_tableText isHeader (oneLine_cells h)

end Registry

/-! ### Rows in a new order -/

/-- The position is the one between two parts of a table. -/
def Position.Between (front back : List QueueRow) : Position → Prop
  | .top => front = []
  | .bottom => back = []
  | .before ref => back.head?.map QueueRow.id = some ref
  | .after ref => front.getLast?.map QueueRow.id = some ref

/-- The rows in the order in which a row stands at its position, and the others as they stood. -/
def Moved (rows : List QueueRow) (row : QueueRow) (position : Position) (moved : List QueueRow) :
    Prop :=
  ∃ front back, moved = front ++ row :: back ∧
    front ++ back = rows.filter (fun r => r.id ≠ row.id) ∧ position.Between front back

section order

variable {rows moved : List QueueRow} {start : Fin rows.length} {position : Position}

theorem insertIdx_eq {i : Nat} {rest : List QueueRow} (h : i ≤ rest.length) (row : QueueRow) :
    rest.insertIdx i row = rest.take i ++ row :: rest.drop i := by
  induction rest generalizing i with
  | nil =>
    obtain rfl := Nat.le_zero.mp h
    rfl
  | cons r rest ih =>
    cases i with
    | zero => rfl
    | succ i =>
      rw [List.insertIdx_succ_cons, ih (Nat.le_of_succ_le_succ h)]
      rfl

/-- In a table whose ids differ, the rows with other ids are those around a row. -/
theorem filter_around {front back : List QueueRow} {row : QueueRow}
    (h : ((front ++ row :: back).map QueueRow.id).Nodup) :
    (front ++ row :: back).filter (fun r => r.id ≠ row.id) = front ++ back := by
  rw [List.map_append, List.map_cons, List.nodup_append] at h
  obtain ⟨-, hback, hfront⟩ := h
  have hkept (part : List QueueRow) (hpart : ∀ r ∈ part, r.id ≠ row.id) :
      part.filter (fun r => r.id ≠ row.id) = part :=
    List.filter_eq_self.mpr fun r hr => decide_eq_true (hpart r hr)
  have hbefore := hkept front fun r hr => hfront _ (List.mem_map_of_mem hr) _ List.mem_cons_self
  have hafter := hkept back fun r hr heq =>
    (List.nodup_cons.mp hback).1 (heq ▸ List.mem_map_of_mem hr)
  rw [List.filter_append, List.filter_cons_of_neg (by simp), hbefore, hafter]

theorem eraseIdx_eq_filter (h : (rows.map QueueRow.id).Nodup) :
    rows.eraseIdx start = rows.filter fun r => r.id ≠ (rows.get start).id := by
  have hsplit : rows.take start ++ rows.get start :: rows.drop (start + 1) = rows := by
    rw [List.get_eq_getElem, List.cons_getElem_drop_succ, List.take_append_drop]
  have hothers := @filter_around (rows.take start) (rows.drop (start + 1)) (rows.get start)
    (by rwa [hsplit])
  rw [hsplit] at hothers
  rw [List.eraseIdx_eq_take_drop_succ, hothers]

theorem refIndex_ok {rest : List QueueRow} {ref moved : Text} {i : Nat}
    (h : refIndex rest ref moved = .ok i) : ∃ row, rest[i]? = some row ∧ row.id = ref := by
  unfold refIndex at h
  split at h
  · cases h
  · split at h
    · cases h
    · rename_i j hfound
      obtain rfl := Except.ok.inj h
      obtain ⟨hlt, hid, -⟩ := List.findIdx?_eq_some_iff_getElem.mp hfound
      exact ⟨_, List.getElem?_eq_getElem hlt, of_decide_eq_true hid⟩

/-- **A reorder moves one row** to its position. -/
theorem reordered_moved (hids : (rows.map QueueRow.id).Nodup)
    (h : reordered rows start position = .ok moved) :
    Moved rows (rows.get start) position moved := by
  unfold reordered at h
  obtain ⟨target, htarget, h⟩ := Lib.bind_ok_iff.mp h
  obtain rfl := Except.ok.inj h
  have hplace (hle : target ≤ (rows.eraseIdx start).length)
      (hbetween : position.Between ((rows.eraseIdx start).take target)
        ((rows.eraseIdx start).drop target)) :
      Moved rows (rows.get start) position
        ((rows.eraseIdx start).insertIdx target (rows.get start)) :=
    ⟨_, _, insertIdx_eq hle _, by rw [List.take_append_drop, eraseIdx_eq_filter hids], hbetween⟩
  cases position with
  | top =>
    obtain rfl := Except.ok.inj htarget
    exact hplace (Nat.zero_le _) rfl
  | bottom =>
    obtain rfl := Except.ok.inj htarget
    exact hplace le_rfl (List.drop_length ..)
  | before ref =>
    obtain ⟨row, hrow, hid⟩ := refIndex_ok htarget
    apply hplace (List.getElem?_eq_some_iff.mp hrow).1.le
    rw [Position.Between, List.head?_drop, hrow, Option.map_some, hid]
  | after ref =>
    rw [Position.target] at htarget
    cases hfound : refIndex (rows.eraseIdx start) ref (rows.get start).id with
    | error e =>
      rw [hfound] at htarget
      cases htarget
    | ok i =>
      rw [hfound] at htarget
      obtain rfl := Except.ok.inj htarget
      obtain ⟨row, hrow, hid⟩ := refIndex_ok hfound
      apply hplace (List.getElem?_eq_some_iff.mp hrow).1
      rw [Position.Between, List.take_add_one, hrow, Option.toList_some, List.getLast?_concat,
        Option.map_some, hid]

end order

end Softfig.Growlight
