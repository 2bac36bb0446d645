import Mathlib.Data.List.Basic

/-!
Rows of cells between separators, with the separators inside a cell escaped.

- `splitCells_cell`: an escaped cell and the padding after it are read as that cell;
- `splitCells_inner`: a row is split into the cells it was written from.
-/

namespace Softfig.Lib

variable {α : Type} [DecidableEq α] {bar slash pad : α}

/-- A cell with `slash` before each of its separators. -/
def escapeCell (bar slash : α) (cell : List α) : List α :=
  cell.flatMap fun c => if c = bar then [slash, bar] else [c]

/-- The cells of a row, after what is read of the first; an escaped separator is one of a cell. -/
def splitCells (bar slash : α) : List α → List α → List (List α)
  | cell, [] => [cell]
  | cell, [c] => if c = bar then [cell, []] else [cell ++ [c]]
  | cell, c :: d :: rest =>
    if c = slash ∧ d = bar then splitCells bar slash (cell ++ [bar]) rest
    else if c = bar then cell :: splitCells bar slash [] (d :: rest)
    else splitCells bar slash (cell ++ [c]) (d :: rest)

/-- Padded cells with a separator between any two. -/
def innerRow (bar slash pad : α) : List (List α) → List α
  | [] => []
  | [cell] => pad :: escapeCell bar slash cell ++ [pad]
  | cell :: cells => pad :: escapeCell bar slash cell ++ pad :: bar :: innerRow bar slash pad cells

theorem splitCells_bar (hbar : bar ≠ slash) (cell rest : List α) :
    splitCells bar slash cell (bar :: rest) = cell :: splitCells bar slash [] rest := by
  cases rest with
  | nil => simp [splitCells]
  | cons d rest => simp [splitCells, hbar]

/-- A character that is no separator, and escapes none, is one of the cell. -/
theorem splitCells_char {c : α} (hc : c ≠ bar) {rest : List α}
    (hrest : c = slash → rest.head? ≠ some bar) (cell : List α) :
    splitCells bar slash cell (c :: rest) = splitCells bar slash (cell ++ [c]) rest := by
  cases rest with
  | nil => simp [splitCells, hc]
  | cons d rest =>
    have hnone : ¬(c = slash ∧ d = bar) := by
      rintro ⟨hslash, rfl⟩
      exact hrest hslash rfl
    rw [splitCells, if_neg hnone, if_neg hc]

section escaped

variable (hbar : bar ≠ slash) (hpad : pad ≠ bar)
include hbar hpad

/-- No separator stands at the front of an escaped cell. -/
theorem head?_escapeCell (cell rest : List α) :
    (escapeCell bar slash cell ++ pad :: rest).head? ≠ some bar := by
  cases cell with
  | nil => simpa [escapeCell] using hpad
  | cons c cell =>
    by_cases hc : c = bar
    · simp [escapeCell, hc, hbar.symm]
    · simpa [escapeCell, hc] using hc

theorem splitCells_cell (hslash : pad ≠ slash) (cell read rest : List α) :
    splitCells bar slash read (escapeCell bar slash cell ++ pad :: rest) =
      splitCells bar slash (read ++ cell ++ [pad]) rest := by
  induction cell generalizing read with
  | nil =>
    rw [escapeCell, List.flatMap_nil, List.nil_append, List.append_nil]
    exact splitCells_char hpad (fun h => absurd h hslash) read
  | cons c cell ih =>
    by_cases hc : c = bar
    · have hcons : escapeCell bar slash (c :: cell) = slash :: bar :: escapeCell bar slash cell := by
        simp [escapeCell, hc]
      rw [hcons, List.cons_append, List.cons_append, splitCells, if_pos ⟨rfl, rfl⟩, ih, hc]
      simp
    · have hcons : escapeCell bar slash (c :: cell) = c :: escapeCell bar slash cell := by
        simp [escapeCell, hc]
      rw [hcons, List.cons_append,
        splitCells_char hc fun _ => head?_escapeCell hbar hpad cell rest, ih]
      simp

/-- **A row is split into its cells**, each with its padding. -/
theorem splitCells_inner (hslash : pad ≠ slash) {cells : List (List α)} (hne : cells ≠ []) :
    splitCells bar slash [] (innerRow bar slash pad cells) =
      cells.map fun cell => pad :: cell ++ [pad] := by
  have hfirst (cell rest : List α) :
      splitCells bar slash [] (pad :: escapeCell bar slash cell ++ pad :: rest) =
        splitCells bar slash (pad :: cell ++ [pad]) rest := by
    rw [List.cons_append, splitCells_char hpad fun h => absurd h hslash,
      splitCells_cell hbar hpad hslash]
    rfl
  induction cells with
  | nil => exact absurd rfl hne
  | cons cell cells ih =>
    cases cells with
    | nil =>
      rw [innerRow, hfirst]
      rfl
    | cons next cells =>
      rw [innerRow, hfirst, splitCells_bar hbar, ih (List.cons_ne_nil _ _)]
      · rfl
      · exact List.cons_ne_nil _ _

end escaped

end Softfig.Lib
