import Mathlib.Data.List.Basic

/-!
Scans with a state and one output for each letter.

- `scan_append`: a scan goes on from the state the first part left;
- `getElem?_scan`: the state behind a letter is that of the word up to it;
- `map_scan`: a scan whose outputs give their letters back keeps the word.
-/

namespace Softfig.Mealy

variable {α β σ : Type*} {f : α → σ → β × σ} {s : σ} {l : List α}

/-- The output at each letter, with the state behind it. -/
def scan (f : α → σ → β × σ) : σ → List α → List (β × σ)
  | _, [] => []
  | s, a :: l => f a s :: scan f (f a s).2 l

/-- The state behind all letters. -/
def stateAfter (f : α → σ → β × σ) (s : σ) (l : List α) : σ := l.foldl (fun s a => (f a s).2) s

theorem scan_nil : scan f s [] = [] := rfl

theorem scan_cons (a : α) : scan f s (a :: l) = f a s :: scan f (f a s).2 l := rfl

theorem stateAfter_cons (a : α) : stateAfter f s (a :: l) = stateAfter f (f a s).2 l := rfl

theorem stateAfter_concat (a : α) : stateAfter f s (l ++ [a]) = (f a (stateAfter f s l)).2 := by
  rw [stateAfter, List.foldl_append]
  rfl

@[simp]
theorem length_scan : (scan f s l).length = l.length := by
  induction l generalizing s with
  | nil => rfl
  | cons a l ih => rw [scan_cons, List.length_cons, List.length_cons, ih]

theorem scan_append (l l' : List α) :
    scan f s (l ++ l') = scan f s l ++ scan f (stateAfter f s l) l' := by
  induction l generalizing s with
  | nil => rfl
  | cons a l ih =>
    rw [List.cons_append, scan_cons, ih, scan_cons, List.cons_append, stateAfter_cons]

/-- The state behind a letter is the one the letters up to it leave. -/
theorem getElem?_scan {i : Nat} (h : i < l.length) :
    ((scan f s l)[i]?).map Prod.snd = some (stateAfter f s (l.take (i + 1))) := by
  induction i generalizing s l with
  | zero =>
    cases l with
    | nil => cases h
    | cons a l => rfl
  | succ i ih =>
    cases l with
    | nil => cases h
    | cons a l =>
      rw [scan_cons, List.getElem?_cons_succ, List.take_succ_cons, stateAfter_cons]
      exact ih (Nat.lt_of_succ_lt_succ h)

/-- Where every output gives its letter back, the outputs give the word back. -/
theorem map_scan {g : β → α} (hg : ∀ a s, g (f a s).1 = a) :
    ((scan f s l).map Prod.fst).map g = l := by
  induction l generalizing s with
  | nil => rfl
  | cons a l ih => rw [scan_cons, List.map_cons, List.map_cons, hg, ih]

end Softfig.Mealy
