import Softfig.Lib.PathTree
import Softfig.Lib.Except
/-!
Insertion into a forest wherever the path lies, and traversals of its leaves.

- `fileAt_insertLeaf_cases`: what stands at every path after an insertion, a
  leaf in its way or not;
- `fileAt_traverse`: what stands at every path after a traversal.
-/

namespace Softfig.Lib.PathTree

universe u v

namespace Forest

variable {κ : Type u} {α : Type v} [LinearOrder κ]

/-- A leaf stands strictly above `p`. -/
def Blocked (f : Forest κ α) (p : List κ) : Prop :=
  ∃ q b, f.fileAt q = some b ∧ q <+: p ∧ q ≠ p

theorem not_blocked_nil (p : List κ) : ¬(nil : Forest κ α).Blocked p := by
  rintro ⟨q, b, hq, -⟩
  rw [fileAt_nil] at hq
  cases hq

theorem blocked_cons_of_dir {f sub : Forest κ α} {n : κ} {p : List κ}
    (hget : f.get? n = some (.dir sub)) : f.Blocked (n :: p) ↔ sub.Blocked p := by
  constructor
  · rintro ⟨q, b, hq, hqp, hne⟩
    cases q with
    | nil => cases hq
    | cons m q =>
      obtain ⟨rfl, hbelow⟩ := List.cons_prefix_cons.mp hqp
      exact ⟨q, b, by simpa [fileAt, hget] using hq, hbelow, by simpa using hne⟩
  · rintro ⟨q, b, hq, hqp, hne⟩
    exact ⟨n :: q, b, by simpa [fileAt, hget] using hq, List.cons_prefix_cons.mpr ⟨rfl, hqp⟩,
      by simpa using hne⟩

/-- **Insertion in general.** It stops at a leaf on its way; else the new leaf
stands at its path and nothing is left below it. -/
theorem fileAt_insertLeaf_cases {f : Forest κ α} {p : List κ} (hp : p ≠ []) (a : α)
    (q : List κ) :
    (f.Blocked p → (f.insertLeaf p a).fileAt q = f.fileAt q) ∧
      (¬f.Blocked p → (f.insertLeaf p a).fileAt q =
        if q = p then some a else if p <+: q then none else f.fileAt q) := by
  induction p generalizing f q with
  | nil => exact absurd rfl hp
  | cons n p ih =>
    cases q with
    | nil => simp [fileAt]
    | cons m q =>
      rw [insertLeaf]
      by_cases hnil : p = []
      · subst hnil
        have hopen : ¬f.Blocked [n] := by
          rintro ⟨r, b, hr, hrn, hne⟩
          cases r with
          | nil => cases hr
          | cons k r => simp_all
        refine ⟨fun h => absurd h hopen, fun _ => ?_⟩
        rw [if_pos rfl]
        by_cases hm : m = n
        · subst hm
          cases q with
          | nil => simp [fileAt, get?_set]
          | cons k q => simp [fileAt, get?_set]
        · simp [fileAt, get?_set, hm, Ne.symm hm]
      · rw [if_neg hnil]
        cases hget : f.get? n with
        | none =>
          have hopen : ¬f.Blocked (n :: p) := by
            rintro ⟨r, b, hr, hrn, -⟩
            cases r with
            | nil => cases hr
            | cons k r =>
              obtain ⟨rfl, -⟩ := List.cons_prefix_cons.mp hrn
              simp [fileAt, hget] at hr
          refine ⟨fun h => absurd h hopen, fun _ => ?_⟩
          by_cases hm : m = n
          · subst hm
            have hbelow := (ih (f := nil) hnil q).2 (not_blocked_nil p)
            simp only [fileAt, get?_set, if_true, hget, hbelow, fileAt_nil]
            simp
          · simp [fileAt, get?_set, hm, Ne.symm hm]
        | some x =>
          cases x with
          | file b =>
            -- a leaf under this name is on the way
            refine ⟨fun _ => rfl, fun h => absurd ⟨[n], b, by simp [fileAt, hget], ?_, ?_⟩ h⟩
            · simp
            · simpa using Ne.symm hnil
          | dir sub =>
            rw [blocked_cons_of_dir hget]
            obtain ⟨hblocked, hopen⟩ := ih (f := sub) hnil q
            by_cases hm : m = n
            · subst hm
              simp only [fileAt, get?_set, if_true, hget]
              refine ⟨hblocked, fun h => ?_⟩
              rw [hopen h]
              simp
            · simp [fileAt, get?_set, hm, Ne.symm hm]

end Forest

section

variable {κ α β ε : Type}

namespace Forest

/-- Run `step` on every leaf, with its path, and stop at the first refusal. -/
def traverse (step : List κ → α → Except ε β) : List κ → Forest κ α → Except ε (Forest κ β)
  | _, nil => .ok nil
  | pre, leaf n a rest =>
    step (pre ++ [n]) a >>= fun b =>
      rest.traverse step pre >>= fun rest' => .ok (leaf n b rest')
  | pre, node n sub rest =>
    sub.traverse step (pre ++ [n]) >>= fun sub' =>
      rest.traverse step pre >>= fun rest' => .ok (node n sub' rest')

variable {step : List κ → α → Except ε β}

theorem traverse_leaf_ok_iff {pre : List κ} {n : κ} {a : α} {rest : Forest κ α}
    {g : Forest κ β} : (leaf n a rest).traverse step pre = .ok g ↔
      ∃ b rest', step (pre ++ [n]) a = .ok b ∧ rest.traverse step pre = .ok rest' ∧
        g = leaf n b rest' := by
  simp only [traverse, bind_ok_iff, Except.ok.injEq]
  constructor
  · rintro ⟨b, hb, rest', hrest, rfl⟩
    exact ⟨b, rest', hb, hrest, rfl⟩
  · rintro ⟨b, rest', hb, hrest, rfl⟩
    exact ⟨b, hb, rest', hrest, rfl⟩

theorem traverse_node_ok_iff {pre : List κ} {n : κ} {sub rest : Forest κ α}
    {g : Forest κ β} : (node n sub rest).traverse step pre = .ok g ↔
      ∃ sub' rest', sub.traverse step (pre ++ [n]) = .ok sub' ∧
        rest.traverse step pre = .ok rest' ∧ g = node n sub' rest' := by
  simp only [traverse, bind_ok_iff, Except.ok.injEq]
  constructor
  · rintro ⟨sub', hsub, rest', hrest, rfl⟩
    exact ⟨sub', rest', hsub, hrest, rfl⟩
  · rintro ⟨sub', rest', hsub, hrest, rfl⟩
    exact ⟨sub', hsub, rest', hrest, rfl⟩

/-- **A traversal keeps the leaves**, each with what the step made of it. -/
theorem traverse_leaves {pre : List κ} {f : Forest κ α} {g : Forest κ β}
    (h : f.traverse step pre = .ok g) :
    List.Forall₂ (fun l l' => l'.1 = l.1 ∧ step (pre ++ l.1) l.2 = .ok l'.2) f.leaves
      g.leaves := by
  induction f generalizing pre g with
  | nil =>
    cases h
    exact .nil
  | leaf n a rest ih =>
    obtain ⟨b, rest', hb, hrest, rfl⟩ := traverse_leaf_ok_iff.mp h
    exact .cons ⟨rfl, hb⟩ (ih hrest)
  | node n sub rest ihsub ih =>
    obtain ⟨sub', rest', hsub, hrest, rfl⟩ := traverse_node_ok_iff.mp h
    refine List.rel_append ?_ (ih hrest)
    refine List.forall₂_map_left_iff.mpr (List.forall₂_map_right_iff.mpr ?_)
    refine (ihsub hsub).imp fun l l' hl => ?_
    exact ⟨by rw [hl.1], by simpa using hl.2⟩

theorem traverse_names {pre : List κ} {f : Forest κ α} {g : Forest κ β}
    (h : f.traverse step pre = .ok g) : g.names = f.names := by
  induction f generalizing pre g with
  | nil =>
    cases h
    rfl
  | leaf n a rest ih =>
    obtain ⟨b, rest', -, hrest, rfl⟩ := traverse_leaf_ok_iff.mp h
    simp only [names, ih hrest]
  | node n sub rest _ ih =>
    obtain ⟨sub', rest', -, hrest, rfl⟩ := traverse_node_ok_iff.mp h
    simp only [names, ih hrest]

/-- Two traversals that make the same of every leaf end with the same forest. -/
theorem traverse_unique {step' : List κ → α → Except ε β} {pre : List κ} {f : Forest κ α}
    {g g' : Forest κ β} (h : f.traverse step pre = .ok g) (h' : f.traverse step' pre = .ok g')
    (hsame : ∀ l ∈ f.leaves, ∀ b b', step (pre ++ l.1) l.2 = .ok b →
      step' (pre ++ l.1) l.2 = .ok b' → b = b') : g = g' := by
  induction f generalizing pre g g' with
  | nil =>
    cases h
    cases h'
    rfl
  | leaf n a rest ih =>
    obtain ⟨b, r, hb, hr, rfl⟩ := traverse_leaf_ok_iff.mp h
    obtain ⟨b', r', hb', hr', rfl⟩ := traverse_leaf_ok_iff.mp h'
    rw [hsame _ List.mem_cons_self b b' hb hb',
      ih hr hr' fun l hl => hsame l (List.mem_cons_of_mem _ hl)]
  | node n sub rest ihsub ih =>
    obtain ⟨s, r, hs, hr, rfl⟩ := traverse_node_ok_iff.mp h
    obtain ⟨s', r', hs', hr', rfl⟩ := traverse_node_ok_iff.mp h'
    have hsub : s = s' := ihsub hs hs' fun l hl b b' hb hb' =>
      hsame (n :: l.1, l.2) (List.mem_append_left _ (List.mem_map.mpr ⟨l, hl, rfl⟩)) b b'
        (by simpa using hb) (by simpa using hb')
    rw [hsub, ih hr hr' fun l hl => hsame l (List.mem_append_right _ hl)]

variable [LinearOrder κ]

theorem sorted_traverse {pre : List κ} {f : Forest κ α} {g : Forest κ β}
    (h : f.traverse step pre = .ok g) (hf : f.Sorted) : g.Sorted := by
  induction f generalizing pre g with
  | nil =>
    cases h
    trivial
  | leaf n a rest ih =>
    obtain ⟨b, rest', -, hrest, rfl⟩ := traverse_leaf_ok_iff.mp h
    exact ⟨traverse_names hrest ▸ hf.1, ih hrest hf.2⟩
  | node n sub rest ihsub ih =>
    obtain ⟨sub', rest', hsub, hrest, rfl⟩ := traverse_node_ok_iff.mp h
    exact ⟨traverse_names hrest ▸ hf.1, ihsub hsub hf.2.1, ih hrest hf.2.2⟩

/-- A traversal that ended made something of every leaf. -/
theorem exists_fileAt_traverse {f : Forest κ α} {g : Forest κ β}
    (h : f.traverse step [] = .ok g) (hf : f.Sorted) {p : List κ} {a : α}
    (hat : f.fileAt p = some a) : ∃ b, step p a = .ok b ∧ g.fileAt p = some b := by
  obtain ⟨l', hl', hname, hstep⟩ := forall₂_mem_right (traverse_leaves h).flip
    ((mem_leaves hf).mpr hat)
  have hfile := (mem_leaves (sorted_traverse h hf)).mp hl'
  rw [show l'.1 = p from hname] at hfile
  exact ⟨l'.2, hstep, hfile⟩

/-- What stands at a path after a traversal is what the step made of the leaf
there, and nothing else. -/
theorem fileAt_traverse {f : Forest κ α} {g : Forest κ β} (h : f.traverse step [] = .ok g)
    (hf : f.Sorted) {p : List κ} {b : β} :
    g.fileAt p = some b ↔ ∃ a, f.fileAt p = some a ∧ step p a = .ok b := by
  constructor
  · intro hat
    obtain ⟨l, hl, hname, hstep⟩ := forall₂_mem_right (traverse_leaves h)
      ((mem_leaves (sorted_traverse h hf)).mpr hat)
    have hfile := (mem_leaves hf).mp hl
    rw [← show p = l.1 from hname] at hfile hstep
    exact ⟨l.2, hfile, hstep⟩
  · rintro ⟨a, hat, hstep⟩
    obtain ⟨b', hstep', hat'⟩ := exists_fileAt_traverse h hf hat
    obtain rfl : b' = b := Except.ok.inj (hstep'.symm.trans hstep)
    exact hat'

end Forest

end

end Softfig.Lib.PathTree
