import Mathlib.Data.List.InsertIdx
import Mathlib.Data.List.Nodup
import Mathlib.Data.List.Perm.Basic
import Mathlib.Data.List.TakeWhile

/-!
Tables of rows in file order, addressed by a key.

A row is found, taken out or changed by its key, and put in at a position.
`Rewrites` says what an edit of one row leaves of a table, whatever positions it
uses, so that facts about rows follow without looking at positions.

- `Rewrites.modify`, `Rewrites.move`: changing a row in place, and taking it out
  to put it in elsewhere, rewrite that row;
- `Rewrites.trans`: edits of one row compose.
-/

namespace Softfig.Lib.Rows

universe u v w

variable {α : Type u} {κ : Type v} [DecidableEq κ]

/-- The row of a key. -/
def row? (key : α → κ) (k : κ) (rows : List α) : Option α :=
  rows.find? fun a => key a = k

/-- The position of a key. -/
def position? (key : α → κ) (k : κ) (rows : List α) : Option Nat :=
  rows.findIdx? fun a => key a = k

/-- Take the row of a key out. -/
def erase (key : α → κ) (k : κ) : List α → List α
  | [] => []
  | a :: rows => if key a = k then rows else a :: erase key k rows

/-- Change the row of a key in place. -/
def modify (key : α → κ) (k : κ) (f : α → α) : List α → List α
  | [] => []
  | a :: rows => if key a = k then f a :: rows else a :: modify key k f rows

variable {key : α → κ} {k : κ} {f g : α → α} {rows : List α}

theorem row?_some {a : α} (h : row? key k rows = some a) : a ∈ rows ∧ key a = k := by
  refine ⟨List.mem_of_find?_eq_some h, ?_⟩
  simpa using List.find?_some h

theorem row?_isSome : (row? key k rows).isSome = true ↔ ∃ a ∈ rows, key a = k := by
  simp [row?, List.find?_isSome]

theorem row?_none : row? key k rows = none ↔ ∀ a ∈ rows, key a ≠ k := by
  simp [row?]

/-- Where keys differ, a row is the one of its key. -/
theorem row?_of_mem (hkeys : (rows.map key).Nodup) {a : α} (ha : a ∈ rows) :
    row? key (key a) rows = some a := by
  have hsome : (row? key (key a) rows).isSome = true := row?_isSome.mpr ⟨a, ha, rfl⟩
  obtain ⟨b, hb⟩ := Option.isSome_iff_exists.mp hsome
  obtain ⟨hmem, hkey⟩ := row?_some hb
  rw [hb, List.inj_on_of_nodup_map hkeys hmem ha hkey]

theorem position?_lt {i : Nat} (h : position? key k rows = some i) : i < rows.length := by
  obtain ⟨hlt, -⟩ := List.findIdx?_eq_some_iff_getElem.mp h
  exact hlt

theorem erase_perm {a : α} (h : row? key k rows = some a) : rows.Perm (a :: erase key k rows) := by
  induction rows with
  | nil => cases h
  | cons b rows ih =>
    rw [row?, List.find?_cons] at h
    rw [erase]
    by_cases hb : key b = k
    · simp only [hb, decide_true, Option.some.injEq] at h
      rw [if_pos hb, h]
    · simp only [hb, decide_false] at h
      rw [if_neg hb]
      exact ((ih h).cons b).trans (.swap a b _)

theorem mem_erase (hkeys : (rows.map key).Nodup) {b : α} :
    b ∈ erase key k rows ↔ b ∈ rows ∧ key b ≠ k := by
  induction rows with
  | nil => simp [erase]
  | cons a rows ih =>
    rw [List.map_cons, List.nodup_cons] at hkeys
    obtain ⟨hnotin, hkeys⟩ := hkeys
    rw [erase]
    by_cases ha : key a = k
    · rw [if_pos ha]
      constructor
      · intro hb
        refine ⟨List.mem_cons_of_mem _ hb, ?_⟩
        rintro rfl
        exact hnotin (List.mem_map.mpr ⟨b, hb, ha.symm⟩)
      · rintro ⟨hb, hne⟩
        refine (List.mem_cons.mp hb).resolve_left ?_
        rintro rfl
        exact hne ha
    · rw [if_neg ha, List.mem_cons, List.mem_cons, ih hkeys]
      constructor
      · rintro (rfl | ⟨hb, hne⟩)
        · exact ⟨Or.inl rfl, ha⟩
        · exact ⟨Or.inr hb, hne⟩
      · rintro ⟨rfl | hb, hne⟩
        · exact Or.inl rfl
        · exact Or.inr ⟨hb, hne⟩

/-- A column that the edit keeps is kept. -/
theorem map_modify {β : Type w} {h : α → β} (hf : ∀ a, h (f a) = h a) :
    (modify key k f rows).map h = rows.map h := by
  induction rows with
  | nil => rfl
  | cons a rows ih =>
    rw [modify]
    split
    · rw [List.map_cons, List.map_cons, hf]
    · rw [List.map_cons, List.map_cons, ih]

theorem mem_modify (hkeys : (rows.map key).Nodup) {b : α} :
    b ∈ modify key k f rows ↔ (b ∈ rows ∧ key b ≠ k) ∨ ∃ a ∈ rows, key a = k ∧ b = f a := by
  induction rows with
  | nil => simp [modify]
  | cons a rows ih =>
    rw [List.map_cons, List.nodup_cons] at hkeys
    obtain ⟨hnotin, hkeys⟩ := hkeys
    rw [modify, List.exists_mem_cons_iff]
    by_cases ha : key a = k
    · have hother : ∀ c ∈ rows, key c ≠ k := by
        rintro c hc rfl
        exact hnotin (List.mem_map.mpr ⟨c, hc, ha.symm⟩)
      rw [if_pos ha, List.mem_cons, List.mem_cons]
      constructor
      · rintro (rfl | hb)
        · exact Or.inr (Or.inl ⟨ha, rfl⟩)
        · exact Or.inl ⟨Or.inr hb, hother b hb⟩
      · rintro (⟨rfl | hb, hne⟩ | ⟨-, hb⟩ | ⟨c, hc, hkey, -⟩)
        · exact absurd ha hne
        · exact Or.inr hb
        · exact Or.inl hb
        · exact absurd hkey (hother c hc)
    · rw [if_neg ha, List.mem_cons, List.mem_cons, ih hkeys]
      constructor
      · rintro (rfl | ⟨hb, hne⟩ | hb)
        · exact Or.inl ⟨Or.inl rfl, ha⟩
        · exact Or.inl ⟨Or.inr hb, hne⟩
        · exact Or.inr (Or.inr hb)
      · rintro (⟨rfl | hb, hne⟩ | ⟨hkey, -⟩ | hb)
        · exact Or.inl rfl
        · exact Or.inr (Or.inl ⟨hb, hne⟩)
        · exact absurd hkey ha
        · exact Or.inr (Or.inr hb)

/-! ### A table around a row -/

/-- The rows in front of a key, and those behind it. -/
def front (key : α → κ) (k : κ) (rows : List α) : List α := rows.takeWhile fun a => key a ≠ k

def behind (key : α → κ) (k : κ) (rows : List α) : List α := (rows.dropWhile fun a => key a ≠ k).tail

theorem mem_front {a : α} (h : a ∈ front key k rows) : key a ≠ k := by
  simpa using List.mem_takeWhile_imp h

/-- A table is the rows in front of a row, the row, and those behind it; taking the
row out and changing it act there. -/
theorem eq_front_behind {a : α} (h : row? key k rows = some a) :
    rows = front key k rows ++ a :: behind key k rows ∧
      erase key k rows = front key k rows ++ behind key k rows ∧
      modify key k f rows = front key k rows ++ f a :: behind key k rows := by
  induction rows with
  | nil => cases h
  | cons b rows ih =>
    rw [row?, List.find?_cons] at h
    by_cases hb : key b = k
    · simp only [hb, decide_true, Option.some.injEq] at h
      obtain rfl := h
      simp [front, behind, erase, modify, hb]
    · simp only [hb, decide_false] at h
      obtain ⟨hrows, herase, hmodify⟩ := ih h
      have hfront : front key k (b :: rows) = b :: front key k rows := by
        simp [front, hb]
      have hbehind : behind key k (b :: rows) = behind key k rows := by
        simp [behind, hb]
      refine ⟨?_, ?_, ?_⟩
      · rw [hfront, hbehind, List.cons_append, ← hrows]
      · rw [hfront, hbehind, erase, if_neg hb, herase, List.cons_append]
      · rw [hfront, hbehind, modify, if_neg hb, hmodify, List.cons_append]

theorem modify_append_cons {before after : List α} {a : α} (hbefore : ∀ b ∈ before, key b ≠ k)
    (ha : key a = k) : modify key k f (before ++ a :: after) = before ++ f a :: after := by
  induction before with
  | nil => rw [List.nil_append, List.nil_append, modify, if_pos ha]
  | cons b before ih =>
    rw [List.forall_mem_cons] at hbefore
    rw [List.cons_append, List.cons_append, modify, if_neg hbefore.1, ih hbefore.2]

omit [DecidableEq κ] in
/-- Where keys differ, at most one row has a property exactly where such rows have
one key. -/
theorem filter_length_le_one_iff (hkeys : (rows.map key).Nodup) {p : α → Bool} :
    (rows.filter p).length ≤ 1 ↔
      ∀ a ∈ rows, ∀ b ∈ rows, p a = true → p b = true → key a = key b := by
  have hmem (a : α) : a ∈ rows.filter p ↔ a ∈ rows ∧ p a = true := List.mem_filter
  have hnodup : ((rows.filter p).map key).Nodup := hkeys.sublist (List.filter_sublist.map _)
  generalize rows.filter p = kept at hmem hnodup ⊢
  constructor
  · intro hle a ha b hb hpa hpb
    have ha' := (hmem a).mpr ⟨ha, hpa⟩
    have hb' := (hmem b).mpr ⟨hb, hpb⟩
    rcases kept with _ | ⟨c, _ | ⟨d, rest⟩⟩
    · cases ha'
    · rw [List.mem_singleton.mp ha', List.mem_singleton.mp hb']
    · rw [List.length_cons, List.length_cons] at hle
      omega
  · intro hsame
    rcases kept with _ | ⟨a, _ | ⟨b, rest⟩⟩
    · exact Nat.zero_le _
    · exact Nat.le_refl _
    · obtain ⟨ha, hpa⟩ := (hmem a).mp List.mem_cons_self
      obtain ⟨hb, hpb⟩ := (hmem b).mp (List.mem_cons_of_mem _ List.mem_cons_self)
      rw [List.map_cons, List.map_cons, List.nodup_cons] at hnodup
      exact absurd (hsame a ha b hb hpa hpb ▸ List.mem_cons_self) hnodup.1

omit [DecidableEq κ] in
theorem insertIdx_eq {a : α} {i : Nat} (h : i ≤ rows.length) :
    rows.insertIdx i a = rows.take i ++ a :: rows.drop i := by
  induction rows generalizing i with
  | nil =>
    obtain rfl : i = 0 := Nat.le_zero.mp h
    rfl
  | cons b rows ih =>
    cases i with
    | zero => rfl
    | succ i =>
      rw [List.length_cons] at h
      rw [List.insertIdx_succ_cons, ih (by omega)]
      rfl

/-! ### Rewriting one row -/

/-- The second table has the rows of the first, the one of a key changed. -/
structure Rewrites (key : α → κ) (k : κ) (f : α → α) (rows rows' : List α) : Prop where
  mem : ∀ b, b ∈ rows' ↔ (b ∈ rows ∧ key b ≠ k) ∨ ∃ a ∈ rows, key a = k ∧ b = f a
  keys : (rows'.map key).Perm (rows.map key)

omit [DecidableEq κ] in
theorem Rewrites.refl (hf : ∀ a ∈ rows, key a = k → f a = a) : Rewrites key k f rows rows where
  mem b := by
    constructor
    · intro hb
      by_cases hkey : key b = k
      · exact Or.inr ⟨b, hb, hkey, (hf b hb hkey).symm⟩
      · exact Or.inl ⟨hb, hkey⟩
    · rintro (⟨hb, -⟩ | ⟨a, ha, hkey, rfl⟩)
      · exact hb
      · rwa [hf a ha hkey]
  keys := .refl _

omit [DecidableEq κ] in
/-- Two edits of one row are one edit. -/
theorem Rewrites.trans {rows' rows'' : List α} (h : Rewrites key k f rows rows')
    (h' : Rewrites key k g rows' rows'') (hf : ∀ a, key (f a) = key a) :
    Rewrites key k (fun a => g (f a)) rows rows'' where
  mem b := by
    rw [h'.mem]
    constructor
    · rintro (⟨hb, hne⟩ | ⟨a, ha, hkey, rfl⟩)
      · rcases (h.mem b).mp hb with ⟨hb, -⟩ | ⟨a, ha, hkey, rfl⟩
        · exact Or.inl ⟨hb, hne⟩
        · exact absurd ((hf a).trans hkey) hne
      · rcases (h.mem a).mp ha with ⟨-, hne⟩ | ⟨c, hc, hkey', rfl⟩
        · exact absurd hkey hne
        · exact Or.inr ⟨c, hc, hkey', rfl⟩
    · rintro (⟨hb, hne⟩ | ⟨a, ha, hkey, rfl⟩)
      · exact Or.inl ⟨(h.mem b).mpr (Or.inl ⟨hb, hne⟩), hne⟩
      · exact Or.inr ⟨f a, (h.mem _).mpr (Or.inr ⟨a, ha, hkey, rfl⟩), (hf a).trans hkey, rfl⟩
  keys := h'.keys.trans h.keys

theorem Rewrites.modify (hkeys : (rows.map key).Nodup) (hf : ∀ a, key (f a) = key a) :
    Rewrites key k f rows (modify key k f rows) where
  mem _ := mem_modify hkeys
  keys := by rw [map_modify hf]

/-- Take a row out, change it and put it in at a position. -/
theorem Rewrites.move (hkeys : (rows.map key).Nodup) (hf : ∀ a, key (f a) = key a) {a : α}
    (ha : row? key k rows = some a) {i : Nat} (hi : i ≤ (erase key k rows).length) :
    Rewrites key k f rows ((erase key k rows).insertIdx i (f a)) where
  mem b := by
    obtain ⟨hmem, hkey⟩ := row?_some ha
    rw [List.mem_insertIdx hi, mem_erase hkeys, or_comm]
    refine or_congr Iff.rfl ⟨?_, ?_⟩
    · rintro rfl
      exact ⟨a, hmem, hkey, rfl⟩
    · rintro ⟨c, hc, hkey', rfl⟩
      rw [List.inj_on_of_nodup_map hkeys hc hmem (hkey'.trans hkey.symm)]
  keys := by
    have hinsert : ((erase key k rows).insertIdx i (f a)).Perm (f a :: erase key k rows) :=
      List.perm_insertIdx _ _ hi
    have herase : rows.Perm (a :: erase key k rows) := erase_perm ha
    have hsame : (f a :: erase key k rows).map key = (a :: erase key k rows).map key := by
      rw [List.map_cons, List.map_cons, hf]
    exact (hinsert.map key).trans (hsame ▸ (herase.map key).symm)

omit [DecidableEq κ] in
/-- A property that the edit of its row keeps holds of every row afterwards. -/
theorem Rewrites.forall_mem {P : α → Prop} {rows' : List α} (h : Rewrites key k f rows rows')
    (hrows : ∀ a ∈ rows, P a) (hedit : ∀ a ∈ rows, key a = k → P (f a)) : ∀ b ∈ rows', P b := by
  intro b hb
  rcases (h.mem b).mp hb with ⟨hb, -⟩ | ⟨a, ha, hkey, rfl⟩
  · exact hrows b hb
  · exact hedit a ha hkey

/-! ### Replacing one row -/

/-- The second table is the first but for the row of a key, which is `a` there, wherever it
stands. -/
structure Replaces (key : α → κ) (k : κ) (a : α) (rows rows' : List α) : Prop where
  rest : erase key k rows' = erase key k rows
  row : row? key k rows' = some a

theorem erase_sublist : (erase key k rows).Sublist rows := by
  induction rows with
  | nil => exact .slnil
  | cons a rows ih =>
    rw [erase]
    split
    · exact List.sublist_cons_self _ _
    · exact ih.cons_cons a

omit [DecidableEq κ] in
theorem insertIdx_middle (before after : List α) (a : α) :
    (before ++ after).insertIdx before.length a = before ++ a :: after := by
  rw [insertIdx_eq (by rw [List.length_append]; omega), List.take_left, List.drop_left]

theorem erase_of_notMem (h : ∀ a ∈ rows, key a ≠ k) : erase key k rows = rows := by
  induction rows with
  | nil => rfl
  | cons a rows ih =>
    rw [List.forall_mem_cons] at h
    rw [erase, if_neg h.1, ih h.2]

/-- A row found in the middle of a table. -/
theorem row?_append_cons {before after : List α} {a : α} (hbefore : ∀ b ∈ before, key b ≠ k)
    (ha : key a = k) : row? key k (before ++ a :: after) = some a := by
  have hnone : row? key k before = none := row?_none.mpr hbefore
  rw [row?] at hnone ⊢
  rw [List.find?_append, hnone, Option.none_or, List.find?_cons, decide_eq_true ha]

theorem erase_append_cons {before after : List α} {a : α} (hbefore : ∀ b ∈ before, key b ≠ k)
    (ha : key a = k) : erase key k (before ++ a :: after) = before ++ after := by
  induction before with
  | nil => rw [List.nil_append, List.nil_append, erase, if_pos ha]
  | cons b before ih =>
    rw [List.forall_mem_cons] at hbefore
    rw [List.cons_append, List.cons_append, erase, if_neg hbefore.1, ih hbefore.2]

theorem Replaces.refl {a : α} (h : row? key k rows = some a) : Replaces key k a rows rows :=
  ⟨rfl, h⟩

theorem Replaces.trans {a b : α} {rows' rows'' : List α} (h : Replaces key k a rows rows')
    (h' : Replaces key k b rows' rows'') : Replaces key k b rows rows'' :=
  ⟨h'.rest.trans h.rest, h'.row⟩

/-- A row put in among the others. -/
theorem Replaces.insert {before after : List α} {a : α}
    (hrest : erase key k rows = before ++ after) (hkeys : ∀ b ∈ before ++ after, key b ≠ k)
    (ha : key a = k) : Replaces key k a rows (before ++ a :: after) := by
  have hbefore : ∀ b ∈ before, key b ≠ k := fun b hb => hkeys b (List.mem_append_left _ hb)
  refine ⟨?_, row?_append_cons hbefore ha⟩
  rw [hrest, erase_append_cons hbefore ha]

theorem Replaces.modify {a : α} (h : row? key k rows = some a) (hf : key (f a) = k) :
    Replaces key k (f a) rows (Rows.modify key k f rows) := by
  have hfront : ∀ b ∈ front key k rows, key b ≠ k := fun b hb => mem_front hb
  obtain ⟨-, herase, hmodify⟩ := eq_front_behind (f := f) h
  rw [hmodify]
  refine ⟨?_, row?_append_cons hfront hf⟩
  rw [herase, erase_append_cons hfront hf]

/-! ### The order of rows -/

/-- Two rows that are not moved stay in the order they are in. -/
def Keeps (key : α → κ) (moved : κ → Prop) (rows rows' : List α) : Prop :=
  ∀ k l, ¬ moved k → ¬ moved l → [k, l].Sublist (rows.map key) → [k, l].Sublist (rows'.map key)

section keeps

omit [DecidableEq κ]

variable {moved moved' : κ → Prop} {rows' rows'' : List α}

theorem Keeps.of_sublist (h : (rows.map key).Sublist (rows'.map key)) :
    Keeps key moved rows rows' :=
  fun _ _ _ _ hkl => hkl.trans h

theorem Keeps.of_keys_eq (h : rows'.map key = rows.map key) : Keeps key moved rows rows' :=
  .of_sublist (by rw [h])

theorem Keeps.mono (h : Keeps key moved rows rows') (hmoved : ∀ k, moved k → moved' k) :
    Keeps key moved' rows rows' :=
  fun k l hk hl => h k l (fun hm => hk (hmoved k hm)) fun hm => hl (hmoved l hm)

theorem Keeps.trans (h : Keeps key moved rows rows') (h' : Keeps key moved rows' rows'') :
    Keeps key moved rows rows'' :=
  fun k l hk hl hkl => h' k l hk hl (h k l hk hl hkl)

/-- A row put in leaves the others in order. -/
theorem Keeps.insertIdx {i : Nat} {a : α} : Keeps key moved rows (rows.insertIdx i a) :=
  .of_sublist ((List.sublist_insertIdx rows i a).map key)

end keeps

theorem filter_sublist_erase : (rows.filter fun a => key a ≠ k).Sublist (erase key k rows) := by
  induction rows with
  | nil => exact .slnil
  | cons a rows ih =>
    rw [erase]
    split
    · rename_i ha
      rw [List.filter_cons_of_neg (by simp [ha])]
      exact List.filter_sublist
    · rename_i ha
      rw [List.filter_cons_of_pos (by simp [ha])]
      exact ih.cons_cons a

/-- A row taken out leaves the others in order. -/
theorem Keeps.erase : Keeps key (· = k) rows (erase key k rows) := by
  intro l m hl hm hlm
  have hkept : [l, m].Sublist ((rows.map key).filter fun j => j ≠ k) := by
    have hfilter := hlm.filter fun j => decide (j ≠ k)
    rwa [List.filter_eq_self.mpr] at hfilter
    intro j hj
    rcases List.mem_cons.mp hj with rfl | hj
    · simpa using hl
    · rw [List.mem_singleton.mp hj]
      simpa using hm
  rw [List.filter_map] at hkept
  exact hkept.trans (filter_sublist_erase.map key)

end Softfig.Lib.Rows
