import Mathlib.Data.List.Basic
import Mathlib.Tactic.Common

/-!
Edits of a row of cells by position, as a file is edited by offset.

A row that is written or resized past its end is filled with a pad. An edit of one row for another
does no harm where the two agree on the cells that the edit leaves.

- `Edit.apply_eq_iff`: an edit makes the same of two rows exactly where they agree on what it leaves.
-/

namespace Softfig.Lib

universe u

variable {α : Type u}

/-- An edit by position. -/
inductive Edit (α : Type u) where
  | write (start : Nat) (data : List α)
  | truncate (size : Nat)
  | keep
  deriving DecidableEq

/-- The first cells of a row, filled up with the pad. -/
def resize (pad : α) (size : Nat) (row : List α) : List α :=
  row.take size ++ List.replicate (size - row.length) pad

/-- The data in the place of the cells from a start on; a row that ends before is filled up. -/
def overwrite (pad : α) (start : Nat) (data row : List α) : List α :=
  let stop := start + data.length
  let buf := if stop > row.length then resize pad stop row else row
  buf.take start ++ data ++ buf.drop stop

def Edit.apply (pad : α) : Edit α → List α → List α
  | .write start data => overwrite pad start data
  | .truncate size => resize pad size
  | .keep => id

/-- Two rows have the same cells before a position, each filled up with the pad. -/
def SameBefore (pad : α) (stop : Nat) (row other : List α) : Prop :=
  ∀ i < stop, row.getD i pad = other.getD i pad

/-- Two rows have the same cells from a position on. -/
def SameFrom (start : Nat) (row other : List α) : Prop :=
  ∀ i, start ≤ i → row[i]? = other[i]?

/-- Two rows agree on the cells that an edit leaves. -/
def Edit.Covers (pad : α) (row other : List α) : Edit α → Prop
  | .write start data =>
      SameBefore pad start row other ∧ SameFrom (start + data.length) row other
  | .truncate size => SameBefore pad size row other
  | .keep => row = other

section

variable {pad : α} {row other : List α}

theorem length_resize (size : Nat) : (resize pad size row).length = size := by
  simp only [resize, List.length_append, List.length_take, List.length_replicate]
  omega

theorem getElem?_resize {size i : Nat} (h : i < size) :
    (resize pad size row)[i]? = some (row.getD i pad) := by
  rw [resize, List.getElem?_append, List.length_take]
  by_cases hi : i < row.length
  · rw [if_pos (by omega), List.getElem?_take_of_lt h, List.getD_eq_getElem?_getD,
      List.getElem?_eq_getElem hi, Option.getD_some]
  · rw [if_neg (by omega), List.getElem?_replicate, if_pos (by omega),
      List.getD_eq_getElem?_getD, List.getElem?_eq_none (by omega), Option.getD_none]

/-- A row is filled up to the same cells exactly where the cells before are the same. -/
theorem resize_eq_iff {size : Nat} :
    resize pad size row = resize pad size other ↔ SameBefore pad size row other := by
  constructor
  · intro h i hi
    have hcell := congrArg (·[i]?) h
    simp only [getElem?_resize hi] at hcell
    exact Option.some.inj hcell
  · intro h
    refine List.ext_getElem? fun i => ?_
    by_cases hi : i < size
    · rw [getElem?_resize hi, getElem?_resize hi, h i hi]
    · rw [List.getElem?_eq_none (by rw [length_resize]; omega),
        List.getElem?_eq_none (by rw [length_resize]; omega)]

theorem drop_eq_iff {start : Nat} : row.drop start = other.drop start ↔ SameFrom start row other := by
  constructor
  · intro h i hi
    have hcell := congrArg (·[i - start]?) h
    simpa only [List.getElem?_drop, Nat.add_sub_cancel' hi] using hcell
  · intro h
    refine List.ext_getElem? fun i => ?_
    rw [List.getElem?_drop, List.getElem?_drop]
    exact h _ (Nat.le_add_right _ _)

theorem take_resize {start stop : Nat} (h : start ≤ stop) :
    (resize pad stop row).take start = resize pad start row := by
  rw [resize, resize, List.take_append, List.take_take, List.take_replicate, List.length_take,
    Nat.min_eq_left h]
  congr 2
  omega

theorem resize_of_le {size : Nat} (h : size ≤ row.length) : resize pad size row = row.take size := by
  rw [resize, Nat.sub_eq_zero_of_le h, List.replicate_zero, List.append_nil]

/-- What is written, between the cells before it and the cells after it. -/
theorem overwrite_eq (start : Nat) (data : List α) :
    overwrite pad start data row = resize pad start row ++ (data ++ row.drop (start + data.length)) := by
  unfold overwrite
  dsimp only
  split
  · rename_i hlong
    rw [take_resize (Nat.le_add_right _ _), List.append_assoc,
      List.drop_eq_nil_of_le (Nat.le_of_eq (length_resize _)), List.drop_eq_nil_of_le (by omega)]
  · rename_i hshort
    rw [resize_of_le (by omega), List.append_assoc]

theorem overwrite_eq_iff {start : Nat} {data : List α} :
    overwrite pad start data row = overwrite pad start data other ↔
      SameBefore pad start row other ∧ SameFrom (start + data.length) row other := by
  rw [overwrite_eq, overwrite_eq, ← resize_eq_iff, ← drop_eq_iff]
  constructor
  · intro h
    obtain ⟨hbefore, hrest⟩ := List.append_inj h (by rw [length_resize, length_resize])
    exact ⟨hbefore, List.append_cancel_left hrest⟩
  · rintro ⟨hbefore, hrest⟩
    rw [hbefore, hrest]

/-- **An edit makes the same of two rows** exactly where they agree on what it leaves. -/
theorem Edit.apply_eq_iff {edit : Edit α} :
    edit.apply pad row = edit.apply pad other ↔ edit.Covers pad row other := by
  cases edit with
  | write start data => exact overwrite_eq_iff
  | truncate size => exact resize_eq_iff
  | keep => exact Iff.rfl

/-- Data written from the start on is all there is where it is no shorter than the row. -/
theorem overwrite_zero_eq_iff {data : List α} :
    overwrite pad 0 data row = data ↔ row.length ≤ data.length := by
  rw [overwrite_eq, resize_of_le (Nat.zero_le _), List.take_zero, List.nil_append, Nat.zero_add,
    List.append_right_eq_self, List.drop_eq_nil_iff]

end

end Softfig.Lib
