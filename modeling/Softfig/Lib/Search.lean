import Mathlib.Data.List.Infix

/-!
Searching a list for another: the first place, and the places that do not overlap.

- `firstMatch_eq_some`, `firstMatch_eq_none`: what a search finds;
- `matchIndices_eq_singleton`: one match is the first, with none behind its end;
- `matchIndices_of_unique`: a list that occurs at one place only is matched there.
-/

namespace Softfig.Lib

variable {α : Type} {needle text : List α} {i : Nat}

/-- The list stands in the text at a place. -/
def OccursAt (needle text : List α) (i : Nat) : Prop :=
  ∃ before after, text = before ++ needle ++ after ∧ before.length = i

theorem occursAt_zero : OccursAt needle text 0 ↔ needle <+: text := by
  constructor
  · rintro ⟨before, after, rfl, hlength⟩
    obtain rfl := List.length_eq_zero_iff.mp hlength
    exact ⟨after, rfl⟩
  · rintro ⟨after, rfl⟩
    exact ⟨[], after, rfl, rfl⟩

theorem occursAt_succ {a : α} : OccursAt needle (a :: text) (i + 1) ↔ OccursAt needle text i := by
  constructor
  · rintro ⟨before, after, htext, hlength⟩
    cases before with
    | nil => cases hlength
    | cons b before =>
      rw [List.cons_append, List.cons_append, List.cons.injEq] at htext
      exact ⟨before, after, htext.2, Nat.succ.inj hlength⟩
  · rintro ⟨before, after, rfl, rfl⟩
    exact ⟨a :: before, after, rfl, rfl⟩

theorem OccursAt.le (h : OccursAt needle text i) : i + needle.length ≤ text.length := by
  obtain ⟨before, after, rfl, rfl⟩ := h
  rw [List.length_append, List.length_append]
  omega

theorem occursAt_drop {k : Nat} (hk : k ≤ text.length) :
    OccursAt needle (text.drop k) i ↔ OccursAt needle text (k + i) := by
  constructor
  · rintro ⟨before, after, htext, hlength⟩
    refine ⟨text.take k ++ before, after, ?_, ?_⟩
    · rw [List.append_assoc, List.append_assoc, ← List.append_assoc before, ← htext,
        List.take_append_drop]
    · rw [List.length_append, List.length_take, Nat.min_eq_left hk, hlength]
  · rintro ⟨before, after, rfl, hlength⟩
    have hle : k ≤ before.length := by omega
    refine ⟨before.drop k, after, ?_, ?_⟩
    · rw [List.append_assoc, List.append_assoc, List.drop_append_of_le_length hle]
    · rw [List.length_drop]
      omega

theorem OccursAt.of_take {k : Nat} (h : OccursAt needle (text.take k) i) :
    OccursAt needle text i := by
  obtain ⟨before, after, htext, hlength⟩ := h
  refine ⟨before, after ++ text.drop k, ?_, hlength⟩
  rw [← List.append_assoc, ← htext, List.take_append_drop]

theorem OccursAt.take {k : Nat} (h : OccursAt needle text i) (hk : i + needle.length ≤ k) :
    OccursAt needle (text.take k) i := by
  obtain ⟨before, after, rfl, rfl⟩ := h
  refine ⟨before, after.take (k - (before ++ needle).length), ?_, rfl⟩
  rw [List.take_append, List.take_of_length_le (by rwa [List.length_append])]

/-- What stands around an occurrence. -/
theorem OccursAt.split (h : OccursAt needle text i) :
    text.take i ++ needle ++ text.drop (i + needle.length) = text := by
  obtain ⟨before, after, rfl, rfl⟩ := h
  rw [List.append_assoc before, List.take_left' rfl, ← List.append_assoc,
    List.drop_left' (by rw [List.length_append])]

variable [DecidableEq α]

/-- `str::find` -/
def firstMatch (needle : List α) : List α → Option Nat
  | [] => if needle = [] then some 0 else none
  | a :: text =>
    if needle.isPrefixOf (a :: text) then some 0 else (firstMatch needle text).map (· + 1)

/-- The matches from place `i` on, after `skip` entries. -/
def matchesFrom (needle : List α) : Nat → Nat → List α → List Nat
  | i, skip, [] => if skip = 0 ∧ needle = [] then [i] else []
  | i, skip + 1, _ :: text => matchesFrom needle (i + 1) skip text
  | i, 0, a :: text =>
    if needle.isPrefixOf (a :: text) then i :: matchesFrom needle (i + 1) (needle.length - 1) text
    else matchesFrom needle (i + 1) 0 text

/-- `str::match_indices` -/
def matchIndices (needle text : List α) : List Nat := matchesFrom needle 0 0 text

theorem firstMatch_eq_none : firstMatch needle text = none ↔ ∀ i, ¬OccursAt needle text i := by
  induction text with
  | nil =>
    rw [firstMatch]
    split
    · rename_i hempty
      simp only [reduceCtorEq, false_iff, not_forall, not_not]
      exact ⟨0, occursAt_zero.mpr (hempty ▸ List.nil_prefix)⟩
    · rename_i hne
      simp only [true_iff]
      intro i h
      have hle := h.le
      rw [List.length_nil, Nat.le_zero, Nat.add_eq_zero_iff] at hle
      exact hne (List.length_eq_zero_iff.mp hle.2)
  | cons a text ih =>
    rw [firstMatch]
    split
    · rename_i hprefix
      simp only [reduceCtorEq, false_iff, not_forall, not_not]
      exact ⟨0, occursAt_zero.mpr (List.isPrefixOf_iff_prefix.mp hprefix)⟩
    · rename_i hprefix
      rw [Option.map_eq_none_iff, ih]
      constructor
      · intro h i
        cases i with
        | zero => exact fun hzero => hprefix (List.isPrefixOf_iff_prefix.mpr (occursAt_zero.mp hzero))
        | succ i => exact fun hsucc => h i (occursAt_succ.mp hsucc)
      · exact fun h i hi => h (i + 1) (occursAt_succ.mpr hi)

/-- A search finds the first place. -/
theorem firstMatch_eq_some : firstMatch needle text = some i ↔
    OccursAt needle text i ∧ ∀ j, OccursAt needle text j → i ≤ j := by
  induction text generalizing i with
  | nil =>
    rw [firstMatch]
    split
    · rename_i hempty
      rw [Option.some.injEq]
      constructor
      · rintro rfl
        exact ⟨occursAt_zero.mpr (hempty ▸ List.nil_prefix), fun j _ => Nat.zero_le j⟩
      · rintro ⟨-, hfirst⟩
        exact (Nat.le_zero.mp (hfirst 0 (occursAt_zero.mpr (hempty ▸ List.nil_prefix)))).symm
    · rename_i hne
      simp only [reduceCtorEq, false_iff, not_and]
      intro h
      have hle := h.le
      rw [List.length_nil, Nat.le_zero, Nat.add_eq_zero_iff] at hle
      exact absurd (List.length_eq_zero_iff.mp hle.2) hne
  | cons a text ih =>
    rw [firstMatch]
    split
    · rename_i hprefix
      have hzero : OccursAt needle (a :: text) 0 :=
        occursAt_zero.mpr (List.isPrefixOf_iff_prefix.mp hprefix)
      rw [Option.some.injEq]
      constructor
      · rintro rfl
        exact ⟨hzero, fun j _ => Nat.zero_le j⟩
      · rintro ⟨-, hfirst⟩
        exact (Nat.le_zero.mp (hfirst 0 hzero)).symm
    · rename_i hprefix
      have hzero : ¬OccursAt needle (a :: text) 0 := fun hzero =>
        hprefix (List.isPrefixOf_iff_prefix.mpr (occursAt_zero.mp hzero))
      rw [Option.map_eq_some_iff]
      constructor
      · rintro ⟨k, hk, rfl⟩
        obtain ⟨hat, hfirst⟩ := ih.mp hk
        refine ⟨occursAt_succ.mpr hat, fun j hj => ?_⟩
        cases j with
        | zero => exact absurd hj hzero
        | succ j => exact Nat.succ_le_succ (hfirst j (occursAt_succ.mp hj))
      · rintro ⟨hat, hfirst⟩
        cases i with
        | zero => exact absurd hat hzero
        | succ i =>
          refine ⟨i, ih.mpr ⟨occursAt_succ.mp hat, fun j hj => ?_⟩, rfl⟩
          exact Nat.le_of_succ_le_succ (hfirst (j + 1) (occursAt_succ.mpr hj))

/-! ### Matches that do not overlap -/

theorem matchesFrom_skip (hne : needle ≠ []) (i skip : Nat) :
    matchesFrom needle i skip text = matchesFrom needle (i + skip) 0 (text.drop skip) := by
  induction text generalizing i skip with
  | nil => simp [matchesFrom, hne]
  | cons a text ih =>
    cases skip with
    | zero => rfl
    | succ skip =>
      rw [matchesFrom, ih, List.drop_succ_cons]
      congr 1
      omega

/-- The matches are the first one and those behind its end. -/
theorem matchesFrom_eq (hne : needle ≠ []) (i : Nat) : matchesFrom needle i 0 text =
    match firstMatch needle text with
    | none => []
    | some k => (i + k) :: matchesFrom needle (i + k + needle.length) 0
        (text.drop (k + needle.length)) := by
  induction text generalizing i with
  | nil => simp [matchesFrom, firstMatch, hne]
  | cons a text ih =>
    rw [matchesFrom, firstMatch]
    split
    · obtain ⟨n, hn⟩ := Nat.exists_eq_succ_of_ne_zero (mt List.length_eq_zero_iff.mp hne)
      rw [matchesFrom_skip hne, hn]
      simp only [Nat.succ_eq_add_one, Nat.add_sub_cancel, Nat.add_zero, Nat.zero_add,
        List.drop_succ_cons]
      congr 2
      omega
    · rw [ih]
      cases firstMatch needle text with
      | none => rfl
      | some k =>
        simp only [Option.map_some]
        have hplace : i + 1 + k = i + (k + 1) := by omega
        have hdrop : (a :: text).drop (k + 1 + needle.length) = text.drop (k + needle.length) := by
          rw [Nat.add_right_comm, List.drop_succ_cons]
        rw [hplace, hdrop]

theorem matchIndices_eq_singleton (hne : needle ≠ []) : matchIndices needle text = [i] ↔
    firstMatch needle text = some i ∧ firstMatch needle (text.drop (i + needle.length)) = none := by
  rw [matchIndices, matchesFrom_eq hne]
  cases hfirst : firstMatch needle text with
  | none => simp
  | some k =>
    simp only [Nat.zero_add, List.cons.injEq, Option.some.injEq]
    constructor
    · rintro ⟨rfl, hrest⟩
      refine ⟨rfl, ?_⟩
      rw [matchesFrom_eq hne] at hrest
      cases hsecond : firstMatch needle (text.drop (k + needle.length)) with
      | none => rfl
      | some j =>
        rw [hsecond] at hrest
        cases hrest
    · rintro ⟨rfl, hrest⟩
      refine ⟨rfl, ?_⟩
      rw [matchesFrom_eq hne, hrest]

/-- A list that occurs at one place only is matched there. -/
theorem matchIndices_of_unique (hne : needle ≠ []) (h : OccursAt needle text i)
    (honly : ∀ j, OccursAt needle text j → j = i) : matchIndices needle text = [i] := by
  refine (matchIndices_eq_singleton hne).mpr ⟨firstMatch_eq_some.mpr ⟨h, fun j hj => ?_⟩, ?_⟩
  · exact (honly j hj).ge
  · refine firstMatch_eq_none.mpr fun j hj => ?_
    have hagain := honly _ ((occursAt_drop h.le).mp hj)
    have hpos := List.length_pos_iff.mpr hne
    omega

end Softfig.Lib
