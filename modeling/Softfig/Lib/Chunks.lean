import Mathlib.Data.List.Basic

/-!
A list cut into pieces of a size, the last one as long as what is left.

- `flatten_chunks`: the pieces put together;
- `ne_nil_of_mem_chunks`, `length_le_of_mem_chunks`: the length of a piece.
-/

namespace Softfig.Lib

variable {α : Type*} {size : Nat} {l piece : List α}

/-- At most `fuel` pieces. -/
def chunksAux (size : Nat) : Nat → List α → List (List α)
  | 0, _ => []
  | fuel + 1, l => if l.isEmpty then [] else l.take size :: chunksAux size fuel (l.drop size)

def chunks (size : Nat) (l : List α) : List (List α) := chunksAux size l.length l

theorem flatten_chunksAux (hsize : 0 < size) {fuel : Nat} (hfuel : l.length ≤ fuel) :
    (chunksAux size fuel l).flatten = l := by
  induction fuel generalizing l with
  | zero => rw [List.length_eq_zero_iff.mp (Nat.le_zero.mp hfuel), chunksAux, List.flatten_nil]
  | succ fuel ih =>
    rw [chunksAux]
    cases l with
    | nil => rfl
    | cons a l =>
      have hrest : ((a :: l).drop size).length ≤ fuel := by
        rw [List.length_drop]
        omega
      rw [if_neg (by simp), List.flatten_cons, ih hrest, List.take_append_drop]

theorem flatten_chunks (hsize : 0 < size) : (chunks size l).flatten = l :=
  flatten_chunksAux hsize (Nat.le_refl _)

theorem mem_chunksAux (hsize : 0 < size) {fuel : Nat} (h : piece ∈ chunksAux size fuel l) :
    piece ≠ [] ∧ piece.length ≤ size := by
  induction fuel generalizing l with
  | zero => cases h
  | succ fuel ih =>
    rw [chunksAux] at h
    cases l with
    | nil => cases h
    | cons a l =>
      rw [if_neg (by simp)] at h
      rcases List.mem_cons.mp h with rfl | h
      · refine ⟨?_, List.length_take_le _ _⟩
        cases size with
        | zero => cases hsize
        | succ size => exact List.cons_ne_nil _ _
      · exact ih h

theorem ne_nil_of_mem_chunks (hsize : 0 < size) (h : piece ∈ chunks size l) : piece ≠ [] :=
  (mem_chunksAux hsize h).1

theorem length_le_of_mem_chunks (hsize : 0 < size) (h : piece ∈ chunks size l) :
    piece.length ≤ size :=
  (mem_chunksAux hsize h).2

end Softfig.Lib
