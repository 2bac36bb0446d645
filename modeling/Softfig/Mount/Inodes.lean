import Softfig.Vcs.Path
import Mathlib.Data.List.AList

/-!
The inode numbers of the mount.

The kernel names every file and directory by a number. `InodeMap` keeps two
hash maps, path to number and number to path, and a counter for the next fresh
number; the root is number 1 from the start. Paths are compared by their
components, and the counter wraps at 64 bits.

- `apply_bijective_iff`: from a good state, exactly the proper calls lead to
  maps that are inverse to each other;
- `GoodMap.retired`: a number that was handed out and names nothing is not
  named again by proper calls;
- `upheld_iff`: a run from the empty map is right in every state exactly when
  every call of it is proper.
-/

namespace Softfig.Mount.Inodes

open Vcs

/-- The root's number. -/
def rootInode : UInt64 := 1

/-- The root of the garden, the empty path. -/
def rootPath : Path := .empty

/-- Paths and numbers, each looked up by the other. -/
structure InodeMap where
  byPath : AList fun _ : Path => UInt64
  byInode : AList fun _ : UInt64 => Path
  next : UInt64

namespace InodeMap

/-- Only the root has a number. -/
def new : InodeMap where
  byPath := (∅ : AList _).insert rootPath rootInode
  byInode := (∅ : AList _).insert rootInode rootPath
  next := rootInode + 1

variable (m : InodeMap)

def lookup (path : Path) : Option UInt64 := m.byPath.lookup path

def pathOf (inode : UInt64) : Option Path := m.byInode.lookup inode

/-- The number of a path, allocated where it has none. -/
def intern (path : Path) : UInt64 × InodeMap :=
  match m.lookup path with
  | some i => (i, m)
  | none =>
    (m.next,
      { byPath := m.byPath.insert path m.next
        byInode := m.byInode.insert m.next path
        next := m.next + 1 })

/-- Drop a path. -/
def forget (path : Path) : InodeMap :=
  match m.lookup path with
  | some i => { m with byPath := m.byPath.erase path, byInode := m.byInode.erase i }
  | none => m

/-- Move a path's number to another path. -/
def rename (src dst : Path) : InodeMap :=
  match m.lookup src with
  | some i =>
    { m with
      byPath := (m.byPath.erase src).insert dst i
      byInode := m.byInode.insert i dst }
  | none => m

end InodeMap

/-- A call on the map. -/
inductive Call where
  | intern (path : Path)
  | forget (path : Path)
  | rename (src dst : Path)

namespace InodeMap

def apply (m : InodeMap) : Call → InodeMap
  | .intern path => (m.intern path).2
  | .forget path => m.forget path
  | .rename src dst => m.rename src dst

/-- The map after a list of calls. -/
def run (m : InodeMap) (calls : List Call) : InodeMap := calls.foldl apply m

/-! ### What the map is for -/

/-- The two maps are inverse to each other and the root has its number. -/
structure Bijective (m : InodeMap) : Prop where
  inverse : ∀ path i, m.lookup path = some i ↔ m.pathOf i = some path
  root : m.lookup rootPath = some rootInode

/-- A number that names a path. -/
def Names (m : InodeMap) (i : UInt64) : Prop := ∃ path, m.pathOf i = some path

/-- Along the calls the maps stay inverse, and a number that stopped naming a
path names none later. -/
structure Upheld (calls : List Call) : Prop where
  bijective : ∀ before, before <+: calls → Bijective (new.run before)
  retired : ∀ first second third, first ++ second ++ third <+: calls → ∀ i,
    (new.run first).Names i → ¬ (new.run (first ++ second)).Names i →
      ¬ (new.run (first ++ second ++ third)).Names i

/-- A call that finds a fresh number, keeps the root and overwrites no path. -/
def Proper (m : InodeMap) : Call → Prop
  | .intern path => m.lookup path ≠ none ∨ m.next ≠ rootInode
  | .forget path => path ≠ rootPath
  | .rename src dst =>
    m.lookup src = none ∨ src = dst ∨ (m.lookup dst = none ∧ src ≠ rootPath)

/-- Every call is proper where it is made. -/
def AllProper : InodeMap → List Call → Prop
  | _, [] => True
  | m, call :: calls => m.Proper call ∧ AllProper (m.apply call) calls

instance (m : InodeMap) : DecidablePred m.Proper := fun call =>
  match call with
  | .intern _ => inferInstanceAs (Decidable (_ ∨ _))
  | .forget _ => inferInstanceAs (Decidable (¬ _))
  | .rename _ _ => inferInstanceAs (Decidable (_ ∨ _))

@[simp] theorem run_nil (m : InodeMap) : m.run [] = m := rfl

@[simp] theorem run_cons (m : InodeMap) (call : Call) (calls : List Call) :
    m.run (call :: calls) = (m.apply call).run calls := rfl

theorem run_append (m : InodeMap) (first second : List Call) :
    m.run (first ++ second) = (m.run first).run second := List.foldl_append

theorem allProper_append (m : InodeMap) (first second : List Call) :
    m.AllProper (first ++ second) ↔ m.AllProper first ∧ (m.run first).AllProper second := by
  induction first generalizing m with
  | nil => simp [AllProper]
  | cons call calls ih => simp [AllProper, ih, and_assoc]

/-! ### One call -/

section lookups

variable {α β : Type} [DecidableEq α] (s : AList fun _ : α => β)

theorem lookup_insert_eq (a b : α) (v : β) :
    (s.insert b v).lookup a = if a = b then some v else s.lookup a := by
  split
  · rename_i h
    rw [h, AList.lookup_insert]
  · rename_i h
    exact AList.lookup_insert_ne h

theorem lookup_erase_eq (a b : α) :
    (s.erase b).lookup a = if a = b then none else s.lookup a := by
  split
  · rename_i h
    rw [h, AList.lookup_erase]
  · rename_i h
    exact AList.lookup_erase_ne h

end lookups

section calls

variable {m : InodeMap} {path src dst : Path} {i : UInt64}

theorem lookup_new (q : Path) :
    new.lookup q = if q = rootPath then some rootInode else none := by
  rw [lookup, new, lookup_insert_eq, AList.lookup_empty]

theorem pathOf_new (j : UInt64) :
    new.pathOf j = if j = rootInode then some rootPath else none := by
  rw [pathOf, new, lookup_insert_eq, AList.lookup_empty]

theorem intern_known (h : m.lookup path = some i) : m.intern path = (i, m) := by
  simp only [intern, h]

theorem lookup_intern_fresh (h : m.lookup path = none) (q : Path) :
    (m.intern path).2.lookup q = if q = path then some m.next else m.lookup q := by
  simp only [intern, h]
  exact lookup_insert_eq _ _ _ _

theorem pathOf_intern_fresh (h : m.lookup path = none) (j : UInt64) :
    (m.intern path).2.pathOf j = if j = m.next then some path else m.pathOf j := by
  simp only [intern, h]
  exact lookup_insert_eq _ _ _ _

theorem intern_next_fresh (h : m.lookup path = none) :
    (m.intern path).2.next = m.next + 1 := by
  simp only [intern, h]

theorem forget_unknown (h : m.lookup path = none) : m.forget path = m := by
  simp only [forget, h]

theorem lookup_forget_known (h : m.lookup path = some i) (q : Path) :
    (m.forget path).lookup q = if q = path then none else m.lookup q := by
  simp only [forget, h]
  exact lookup_erase_eq _ _ _

theorem pathOf_forget_known (h : m.lookup path = some i) (j : UInt64) :
    (m.forget path).pathOf j = if j = i then none else m.pathOf j := by
  simp only [forget, h]
  exact lookup_erase_eq _ _ _

theorem rename_unknown (h : m.lookup src = none) : m.rename src dst = m := by
  simp only [rename, h]

theorem lookup_rename_known (h : m.lookup src = some i) (q : Path) :
    (m.rename src dst).lookup q =
      if q = dst then some i else if q = src then none else m.lookup q := by
  simp only [rename, h]
  exact (lookup_insert_eq _ _ _ _).trans (by rw [lookup_erase_eq]; rfl)

theorem pathOf_rename_known (h : m.lookup src = some i) (j : UInt64) :
    (m.rename src dst).pathOf j = if j = i then some dst else m.pathOf j := by
  simp only [rename, h]
  exact lookup_insert_eq _ _ _ _

@[simp] theorem forget_next : (m.forget path).next = m.next := by
  unfold forget
  split <;> rfl

@[simp] theorem rename_next : (m.rename src dst).next = m.next := by
  unfold rename
  split <;> rfl

end calls

/-! ### The numbers handed out so far -/

/-- A number the counter has passed. Numbers are handed out in the order
`1, 2, …, 2 ^ 64 - 1, 0`. -/
def Spent (m : InodeMap) (i : UInt64) : Prop := i - rootInode ≤ m.next - (rootInode + 1)

/-- Inverse maps in which only spent numbers name paths. -/
structure GoodMap (m : InodeMap) : Prop extends Bijective m where
  spent : ∀ i, m.Names i → m.Spent i

theorem spent_iff {m : InodeMap} {i : UInt64} :
    m.Spent i ↔ (i.toNat + (2 ^ 64 - 1)) % 2 ^ 64 ≤ (m.next.toNat + (2 ^ 64 - 2)) % 2 ^ 64 := by
  rw [Spent, UInt64.le_iff_toNat_le, UInt64.toNat_sub, UInt64.toNat_sub]
  simp only [rootInode, UInt64.reduceAdd, UInt64.reduceToNat]
  omega

theorem not_spent_next {m : InodeMap} (h : m.next ≠ rootInode) : ¬ m.Spent m.next := by
  rw [ne_eq, ← UInt64.toNat_inj] at h
  simp only [rootInode, UInt64.reduceToNat] at h
  have hlt := m.next.toNat_lt
  rw [spent_iff]
  omega

theorem spent_next_succ {m t : InodeMap} (ht : t.next = m.next + 1) : t.Spent m.next := by
  have hlt := m.next.toNat_lt
  rw [spent_iff, ht, UInt64.toNat_add, UInt64.toNat_one]
  omega

theorem Spent.succ {m t : InodeMap} {i : UInt64} (hi : m.Spent i) (h : m.next ≠ rootInode)
    (ht : t.next = m.next + 1) : t.Spent i := by
  rw [ne_eq, ← UInt64.toNat_inj] at h
  simp only [rootInode, UInt64.reduceToNat] at h
  have hlt := m.next.toNat_lt
  rw [spent_iff] at hi ⊢
  rw [ht, UInt64.toNat_add, UInt64.toNat_one]
  omega

theorem Spent.of_next {m t : InodeMap} {i : UInt64} (hi : m.Spent i) (ht : t.next = m.next) :
    t.Spent i := by
  rwa [Spent, ht]

theorem goodMap_new : GoodMap new where
  inverse path i := by
    rw [lookup_new, pathOf_new]
    grind
  root := by rw [lookup_new, if_pos rfl]
  spent i := by
    rintro ⟨path, h⟩
    rw [pathOf_new] at h
    split at h
    · rename_i hi
      rw [hi]
      exact spent_next_succ (m := ⟨∅, ∅, rootInode⟩) rfl
    · cases h

section good

variable {m : InodeMap}

theorem Bijective.inj (h : m.Bijective) {p q : Path} {i : UInt64} (hp : m.lookup p = some i)
    (hq : m.lookup q = some i) : p = q := by
  rw [h.inverse] at hp hq
  exact Option.some.inj (hp.symm.trans hq)

theorem GoodMap.unnamed_next (h : m.GoodMap) (hnext : m.next ≠ rootInode) :
    m.pathOf m.next = none := by
  rw [Option.eq_none_iff_forall_ne_some]
  intro path hpath
  exact not_spent_next hnext (h.spent _ ⟨path, hpath⟩)

theorem GoodMap.intern (h : m.GoodMap) {path : Path} (hproper : m.Proper (.intern path)) :
    (m.intern path).2.GoodMap := by
  cases hpath : m.lookup path with
  | some i => rwa [intern_known hpath]
  | none =>
    have hnext : m.next ≠ rootInode := hproper.resolve_left fun hne => hne hpath
    have hfree := h.unnamed_next hnext
    refine ⟨⟨fun q j => ?_, ?_⟩, ?_⟩
    · rw [lookup_intern_fresh hpath, pathOf_intern_fresh hpath]
      have := h.inverse q j
      grind
    · rw [lookup_intern_fresh hpath]
      have := h.root
      grind
    · rintro j ⟨q, hq⟩
      rw [pathOf_intern_fresh hpath] at hq
      split at hq
      · rename_i hj
        rw [hj]
        exact spent_next_succ (intern_next_fresh hpath)
      · exact (h.spent j ⟨q, hq⟩).succ hnext (intern_next_fresh hpath)

theorem GoodMap.forget (h : m.GoodMap) {path : Path} (hproper : path ≠ rootPath) :
    (m.forget path).GoodMap := by
  cases hpath : m.lookup path with
  | none => rwa [forget_unknown hpath]
  | some i =>
    have hback := (h.inverse path i).mp hpath
    refine ⟨⟨fun q j => ?_, ?_⟩, ?_⟩
    · rw [lookup_forget_known hpath, pathOf_forget_known hpath]
      have := h.inverse q j
      have := h.inverse q i
      grind
    · rw [lookup_forget_known hpath, if_neg hproper.symm]
      exact h.root
    · rintro j ⟨q, hq⟩
      rw [pathOf_forget_known hpath] at hq
      split at hq
      · cases hq
      · exact (h.spent j ⟨q, hq⟩).of_next forget_next

theorem rename_self (h : m.GoodMap) {path : Path} (q : Path) (j : UInt64) :
    (m.rename path path).lookup q = m.lookup q ∧ (m.rename path path).pathOf j = m.pathOf j := by
  cases hpath : m.lookup path with
  | none =>
    rw [rename_unknown hpath]
    exact ⟨rfl, rfl⟩
  | some i =>
    have hback := (h.inverse path i).mp hpath
    rw [lookup_rename_known hpath, pathOf_rename_known hpath]
    grind

theorem GoodMap.rename (h : m.GoodMap) {src dst : Path} (hproper : m.Proper (.rename src dst)) :
    (m.rename src dst).GoodMap := by
  rcases hproper with hsrc | rfl | ⟨hdst, hroot⟩
  · rwa [rename_unknown hsrc]
  · refine ⟨⟨fun q j => ?_, ?_⟩, ?_⟩
    · rw [(rename_self h q j).1, (rename_self h q j).2]
      exact h.inverse q j
    · rw [(rename_self h rootPath rootInode).1]
      exact h.root
    · rintro j ⟨q, hq⟩
      rw [(rename_self h q j).2] at hq
      exact (h.spent j ⟨q, hq⟩).of_next rename_next
  · cases hsrc : m.lookup src with
    | none => rwa [rename_unknown hsrc]
    | some i =>
      have hback := (h.inverse src i).mp hsrc
      refine ⟨⟨fun q j => ?_, ?_⟩, ?_⟩
      · rw [lookup_rename_known hsrc, pathOf_rename_known hsrc]
        have := h.inverse q j
        have := h.inverse q i
        grind
      · rw [lookup_rename_known hsrc]
        have := h.root
        grind
      · rintro j ⟨q, hq⟩
        rw [pathOf_rename_known hsrc] at hq
        split at hq
        · rename_i hj
          rw [hj]
          exact (h.spent i ⟨src, hback⟩).of_next rename_next
        · exact (h.spent j ⟨q, hq⟩).of_next rename_next

/-- **Step lemma.** A proper call keeps the map good. -/
theorem GoodMap.apply (h : m.GoodMap) {call : Call} (hproper : m.Proper call) :
    (m.apply call).GoodMap := by
  cases call with
  | intern path => exact h.intern hproper
  | forget path => exact h.forget hproper
  | rename src dst => exact h.rename hproper

/-- A call that leaves the maps inverse was proper. -/
theorem GoodMap.proper (h : m.GoodMap) {call : Call} (hafter : (m.apply call).Bijective) :
    m.Proper call := by
  cases call with
  | intern path =>
    cases hpath : m.lookup path with
    | some i => exact Or.inl (by rw [hpath]; exact Option.some_ne_none i)
    | none =>
      -- a wrapped counter hands the root's number to another path
      refine Or.inr fun hnext => ?_
      have hroot := (hafter.inverse _ _).mp hafter.root
      rw [InodeMap.apply, pathOf_intern_fresh hpath, if_pos hnext.symm] at hroot
      rw [Option.some.inj hroot, h.root] at hpath
      cases hpath
  | forget path =>
    rintro rfl
    have hroot := hafter.root
    rw [InodeMap.apply, lookup_forget_known h.root, if_pos rfl] at hroot
    cases hroot
  | rename src dst =>
    cases hsrc : m.lookup src with
    | none => exact Or.inl hsrc
    | some i =>
      refine Or.inr (or_iff_not_imp_left.mpr fun hne => ⟨?_, ?_⟩)
      · -- the number of an overwritten path still names it
        rw [Option.eq_none_iff_forall_ne_some]
        intro j hj
        have hij : j ≠ i := fun hij => hne (h.inj (hij ▸ hsrc) (hij ▸ hj))
        have hold := hafter.inverse dst j
        rw [InodeMap.apply, lookup_rename_known hsrc, pathOf_rename_known hsrc, if_pos rfl,
          if_neg hij, ← h.inverse] at hold
        exact hij (Option.some.inj (hold.mpr hj)).symm
      · rintro rfl
        have hroot := hafter.root
        rw [InodeMap.apply, lookup_rename_known hsrc, if_neg hne, if_pos rfl] at hroot
        cases hroot

/-- **From a good map the proper calls are those that keep the maps inverse.** -/
theorem apply_bijective_iff (h : m.GoodMap) (call : Call) :
    (m.apply call).Bijective ↔ m.Proper call :=
  ⟨h.proper, fun hproper => (h.apply hproper).toBijective⟩

/-- A proper call keeps the spent numbers spent. -/
theorem Spent.apply {i : UInt64} (hspent : m.Spent i) {call : Call} (hproper : m.Proper call) :
    (m.apply call).Spent i := by
  cases call with
  | intern path =>
    show (m.intern path).2.Spent i
    cases hpath : m.lookup path with
    | some j => rwa [intern_known hpath]
    | none =>
      have hnext : m.next ≠ rootInode := hproper.resolve_left fun hne => hne hpath
      exact hspent.succ hnext (intern_next_fresh hpath)
  | forget path => exact hspent.of_next forget_next
  | rename src dst => exact hspent.of_next rename_next

/-- A proper call gives no path to a spent number that names nothing. -/
theorem GoodMap.unnamed_apply (h : m.GoodMap) {call : Call} (hproper : m.Proper call) {i : UInt64}
    (hspent : m.Spent i) (hunnamed : ¬ m.Names i) : ¬ (m.apply call).Names i := by
  rintro ⟨q, hq⟩
  cases call with
  | intern path =>
    cases hpath : m.lookup path with
    | some j =>
      rw [InodeMap.apply, intern_known hpath] at hq
      exact hunnamed ⟨q, hq⟩
    | none =>
      have hnext : m.next ≠ rootInode := hproper.resolve_left fun hne => hne hpath
      rw [InodeMap.apply, pathOf_intern_fresh hpath] at hq
      split at hq
      · rename_i hi
        exact not_spent_next hnext (hi ▸ hspent)
      · exact hunnamed ⟨q, hq⟩
  | forget path =>
    cases hpath : m.lookup path with
    | none =>
      rw [InodeMap.apply, forget_unknown hpath] at hq
      exact hunnamed ⟨q, hq⟩
    | some j =>
      rw [InodeMap.apply, pathOf_forget_known hpath] at hq
      split at hq
      · cases hq
      · exact hunnamed ⟨q, hq⟩
  | rename src dst =>
    cases hsrc : m.lookup src with
    | none =>
      rw [InodeMap.apply, rename_unknown hsrc] at hq
      exact hunnamed ⟨q, hq⟩
    | some j =>
      rw [InodeMap.apply, pathOf_rename_known hsrc] at hq
      split at hq
      · rename_i hi
        exact hunnamed ⟨src, hi ▸ (h.inverse src j).mp hsrc⟩
      · exact hunnamed ⟨q, hq⟩

/-! ### Runs -/

theorem GoodMap.run (h : m.GoodMap) {calls : List Call} (hproper : m.AllProper calls) :
    (m.run calls).GoodMap := by
  induction calls generalizing m with
  | nil => exact h
  | cons call calls ih => exact ih (h.apply hproper.1) hproper.2

theorem GoodMap.allProper (h : m.GoodMap) {calls : List Call}
    (hafter : ∀ before, before <+: calls → (m.run before).Bijective) : m.AllProper calls := by
  induction calls generalizing m with
  | nil => trivial
  | cons call calls ih =>
    have hcall : m.Proper call := h.proper (hafter [call] ⟨calls, rfl⟩)
    refine ⟨hcall, ih (h.apply hcall) fun before hbefore => ?_⟩
    exact hafter (call :: before) (List.cons_prefix_cons.mpr ⟨rfl, hbefore⟩)

theorem Spent.run {i : UInt64} (hspent : m.Spent i) {calls : List Call}
    (hproper : m.AllProper calls) : (m.run calls).Spent i := by
  induction calls generalizing m with
  | nil => exact hspent
  | cons call calls ih => exact ih (hspent.apply hproper.1) hproper.2

/-- **A number that was handed out and names nothing is not named again.** -/
theorem GoodMap.retired (h : m.GoodMap) {calls : List Call} (hproper : m.AllProper calls)
    {i : UInt64} (hspent : m.Spent i) (hunnamed : ¬ m.Names i) : ¬ (m.run calls).Names i := by
  induction calls generalizing m with
  | nil => exact hunnamed
  | cons call calls ih =>
    have hunnamed' := h.unnamed_apply hproper.1 hspent hunnamed
    exact ih (h.apply hproper.1) hproper.2 (hspent.apply hproper.1) hunnamed'

end good

/-- **The maps are right along a run exactly when each call is proper where it is made.** -/
theorem upheld_iff (calls : List Call) : Upheld calls ↔ AllProper new calls := by
  constructor
  · intro h
    exact goodMap_new.allProper h.bijective
  · intro h
    refine ⟨?_, ?_⟩
    · rintro before ⟨after, rfl⟩
      rw [allProper_append] at h
      exact (goodMap_new.run h.1).toBijective
    · rintro first second third ⟨after, rfl⟩ i hfirst hsecond
      rw [allProper_append, allProper_append, allProper_append] at h
      obtain ⟨⟨⟨h₁, h₂⟩, h₃⟩, -⟩ := h
      have hgood := goodMap_new.run h₁
      rw [run_append] at h₃ hsecond
      rw [run_append, run_append]
      have hspent := (hgood.spent i hfirst).run h₂
      exact (hgood.run h₂).retired h₃ hspent hsecond

/-- A rename onto a path with a number: the old number, 3, goes on naming the path, whose number
is 2. -/
theorem rename_occupied :
    ¬ Upheld [.intern (Path.parse "a.md"), .intern (Path.parse "b.md"),
      .rename (Path.parse "a.md") (Path.parse "b.md")] := by
  intro h
  have hinverse := (h.bijective _ List.prefix_rfl).inverse (Path.parse "b.md") 3
  have hold := hinverse.mpr (by decide +kernel)
  revert hold
  decide +kernel

end InodeMap

end Softfig.Mount.Inodes
