import Mathlib.Data.List.Nodup
import Mathlib.Order.Lattice

/-!
Ordered forests of named leaves and named subtrees, addressed by paths.

A forest is what a sorted map from names to nodes is, written as one list of
children: a child is a leaf with a value or a node with its own forest.

- `fileAt_insertLeaf`: inserting at a path no leaf is in the way of adds exactly
  that leaf;
- `mem_leaves`: the leaves listed are the leaves found by path, each once;
- `ext_fileAt`: two sorted forests without empty nodes that have the same leaves
  are the same forest;
- `prune_eq_self`: pruning leaves such a forest alone.
-/

namespace Softfig.Lib.PathTree

universe u v

inductive Forest (κ : Type u) (α : Type v) where
  | nil
  | leaf (name : κ) (value : α) (rest : Forest κ α)
  | node (name : κ) (sub rest : Forest κ α)

/-- What stands under one name. -/
inductive Node (κ : Type u) (α : Type v) where
  | file (value : α)
  | dir (sub : Forest κ α)

namespace Forest

variable {κ : Type u} {α : Type v}

def cons (name : κ) : Node κ α → Forest κ α → Forest κ α
  | .file value, rest => .leaf name value rest
  | .dir sub, rest => .node name sub rest

def names : Forest κ α → List κ
  | nil => []
  | leaf n _ rest => n :: rest.names
  | node n _ rest => n :: rest.names

/-- Every leaf with its path, in order, depth first. -/
def leaves : Forest κ α → List (List κ × α)
  | nil => []
  | leaf n a rest => ([n], a) :: rest.leaves
  | node n sub rest => sub.leaves.map (fun l => (n :: l.1, l.2)) ++ rest.leaves

/-- No node without a leaf below it. -/
def NoEmptyNodes : Forest κ α → Prop
  | nil => True
  | leaf _ _ rest => rest.NoEmptyNodes
  | node _ sub rest => sub ≠ nil ∧ sub.NoEmptyNodes ∧ rest.NoEmptyNodes

/-- Remove, from the bottom up, every node left without children. -/
def prune : Forest κ α → Forest κ α
  | nil => nil
  | leaf n a rest => leaf n a rest.prune
  | node n sub rest =>
    match sub.prune with
    | nil => rest.prune
    | sub' => node n sub' rest.prune

@[simp] theorem names_cons (n : κ) (x : Node κ α) (rest : Forest κ α) :
    (cons n x rest).names = n :: rest.names := by
  cases x <;> rfl

theorem cons_ne_nil (n : κ) (x : Node κ α) (rest : Forest κ α) : cons n x rest ≠ nil := by
  cases x <;> exact nofun

theorem noEmptyNodes_cons {n : κ} {x : Node κ α} {rest : Forest κ α}
    (hx : ∀ sub, x = .dir sub → sub ≠ nil ∧ sub.NoEmptyNodes) (hrest : rest.NoEmptyNodes) :
    (cons n x rest).NoEmptyNodes := by
  cases x with
  | file a => exact hrest
  | dir sub => exact ⟨(hx sub rfl).1, (hx sub rfl).2, hrest⟩

/-- **Pruning is idle** where no node is empty. -/
theorem prune_eq_self {f : Forest κ α} (h : f.NoEmptyNodes) : f.prune = f := by
  induction f with
  | nil => rfl
  | leaf n a rest ih => rw [prune, ih h]
  | node n sub rest ihsub ih =>
    obtain ⟨hne, hsub, hrest⟩ := h
    rw [prune, ihsub hsub, ih hrest]
    cases sub with
    | nil => exact absurd rfl hne
    | _ => rfl

/-- What pruning leaves has no empty node. -/
theorem noEmptyNodes_prune (f : Forest κ α) : f.prune.NoEmptyNodes := by
  induction f with
  | nil => trivial
  | leaf n a rest ih => exact ih
  | node n sub rest ihsub ih =>
    rw [prune]
    split
    · exact ih
    · rename_i sub' hne
      exact ⟨hne, ihsub, ih⟩

theorem mem_leaves_head {f : Forest κ α} {p : List κ} {a : α} (h : (p, a) ∈ f.leaves) :
    ∃ n q, p = n :: q ∧ n ∈ f.names := by
  induction f with
  | nil => cases h
  | leaf n b rest ih =>
    rcases List.mem_cons.mp h with heq | h
    · cases heq
      exact ⟨n, [], rfl, List.mem_cons_self⟩
    · obtain ⟨m, q, rfl, hm⟩ := ih h
      exact ⟨m, q, rfl, List.mem_cons_of_mem _ hm⟩
  | node n sub rest _ ih =>
    rcases List.mem_append.mp h with h | h
    · obtain ⟨l, -, heq⟩ := List.mem_map.mp h
      cases heq
      exact ⟨n, l.1, rfl, List.mem_cons_self⟩
    · obtain ⟨m, q, rfl, hm⟩ := ih h
      exact ⟨m, q, rfl, List.mem_cons_of_mem _ hm⟩

theorem mem_names_prune {m : κ} {f : Forest κ α} (h : m ∈ f.prune.names) : m ∈ f.names := by
  induction f with
  | nil => exact h
  | leaf n a rest ih =>
    rcases List.mem_cons.mp h with rfl | h
    · exact List.mem_cons_self
    · exact List.mem_cons_of_mem _ (ih h)
  | node n sub rest _ ih =>
    rw [prune] at h
    split at h
    · exact List.mem_cons_of_mem _ (ih h)
    · rcases List.mem_cons.mp h with rfl | h
      · exact List.mem_cons_self
      · exact List.mem_cons_of_mem _ (ih h)

theorem leaves_ne_nil {f : Forest κ α} : ∀ l ∈ f.leaves, l.1 ≠ [] := by
  intro l hl
  obtain ⟨n, q, hq, -⟩ := mem_leaves_head (a := l.2) hl
  exact hq ▸ List.cons_ne_nil _ _

variable [LinearOrder κ]

/-- Names strictly increase, at every level. -/
def Sorted : Forest κ α → Prop
  | nil => True
  | leaf n _ rest => (∀ m ∈ rest.names, n < m) ∧ rest.Sorted
  | node n sub rest => (∀ m ∈ rest.names, n < m) ∧ sub.Sorted ∧ rest.Sorted

/-- The child under a name. -/
def get? (name : κ) : Forest κ α → Option (Node κ α)
  | nil => none
  | leaf n a rest => if name = n then some (.file a) else rest.get? name
  | node n sub rest => if name = n then some (.dir sub) else rest.get? name

/-- Insert a child at its place in the order, or replace the one of its name. -/
def set (name : κ) (x : Node κ α) : Forest κ α → Forest κ α
  | nil => cons name x nil
  | leaf n a rest =>
    if name < n then cons name x (leaf n a rest)
    else if name = n then cons name x rest
    else leaf n a (rest.set name x)
  | node n sub rest =>
    if name < n then cons name x (node n sub rest)
    else if name = n then cons name x rest
    else node n sub (rest.set name x)

/-- Insert a leaf at a path, making the nodes on the way. A leaf in the way of
the path stops the insertion. -/
def insertLeaf (f : Forest κ α) : List κ → α → Forest κ α
  | [], _ => f
  | n :: p, a =>
    if p = [] then f.set n (.file a)
    else
      match f.get? n with
      | none => f.set n (.dir (insertLeaf nil p a))
      | some (.dir sub) => f.set n (.dir (insertLeaf sub p a))
      | some (.file _) => f

/-- Make the nodes of a path, up to a leaf in its way. -/
def ensureNode (f : Forest κ α) : List κ → Forest κ α
  | [] => f
  | n :: p =>
    match f.get? n with
    | none => f.set n (.dir (ensureNode nil p))
    | some (.dir sub) => f.set n (.dir (ensureNode sub p))
    | some (.file _) => f

/-- The value of the leaf at a path. -/
def fileAt (f : Forest κ α) : List κ → Option α
  | [] => none
  | n :: p =>
    match f.get? n with
    | none => none
    | some (.file a) => if p = [] then some a else none
    | some (.dir sub) => fileAt sub p

/-! ### One child -/

@[simp] theorem get?_cons (name n : κ) (x : Node κ α) (rest : Forest κ α) :
    (cons n x rest).get? name = if name = n then some x else rest.get? name := by
  cases x <;> rfl

theorem get?_set (name m : κ) (x : Node κ α) (f : Forest κ α) :
    (f.set name x).get? m = if m = name then some x else f.get? m := by
  induction f with
  | nil => simp [set, get?]
  | leaf n a rest ih =>
    simp only [set]
    split_ifs with hlt heq hm hm
    all_goals simp_all [get?]
  | node n sub rest _ ih =>
    simp only [set]
    split_ifs with hlt heq hm hm
    all_goals simp_all [get?]

theorem mem_names_of_get? {name : κ} {x : Node κ α} {f : Forest κ α}
    (h : f.get? name = some x) : name ∈ f.names := by
  induction f with
  | nil => cases h
  | leaf n a rest ih =>
    simp only [get?] at h
    split_ifs at h with heq
    · exact heq ▸ List.mem_cons_self
    · exact List.mem_cons_of_mem _ (ih h)
  | node n sub rest _ ih =>
    simp only [get?] at h
    split_ifs at h with heq
    · exact heq ▸ List.mem_cons_self
    · exact List.mem_cons_of_mem _ (ih h)

theorem get?_eq_none {name : κ} {f : Forest κ α} (h : ∀ m ∈ f.names, name < m) :
    f.get? name = none := by
  cases hget : f.get? name with
  | none => rfl
  | some x => exact absurd (h name (mem_names_of_get? hget)) (lt_irrefl _)

theorem mem_names_set {name m : κ} {x : Node κ α} {f : Forest κ α}
    (h : m ∈ (f.set name x).names) : m = name ∨ m ∈ f.names := by
  induction f with
  | nil => simpa [set, names] using h
  | leaf n a rest ih =>
    simp only [set] at h
    split_ifs at h with hlt heq
    · simpa [names] using h
    · subst heq
      exact .inr (by simpa [names] using h)
    · rcases List.mem_cons.mp h with rfl | h
      · exact .inr List.mem_cons_self
      · exact (ih h).imp_right (List.mem_cons_of_mem _)
  | node n sub rest _ ih =>
    simp only [set] at h
    split_ifs at h with hlt heq
    · simpa [names] using h
    · subst heq
      exact .inr (by simpa [names] using h)
    · rcases List.mem_cons.mp h with rfl | h
      · exact .inr List.mem_cons_self
      · exact (ih h).imp_right (List.mem_cons_of_mem _)

theorem sorted_cons {n : κ} {x : Node κ α} {rest : Forest κ α}
    (hlt : ∀ m ∈ rest.names, n < m) (hx : ∀ sub, x = .dir sub → sub.Sorted)
    (hrest : rest.Sorted) : (cons n x rest).Sorted := by
  cases x with
  | file a => exact ⟨hlt, hrest⟩
  | dir sub => exact ⟨hlt, hx sub rfl, hrest⟩

theorem sorted_set {name : κ} {x : Node κ α} {f : Forest κ α} (hf : f.Sorted)
    (hx : ∀ sub, x = .dir sub → sub.Sorted) : (f.set name x).Sorted := by
  induction f with
  | nil => exact sorted_cons (by simp [names]) hx trivial
  | leaf n a rest ih =>
    obtain ⟨hn, hrest⟩ := hf
    simp only [set]
    split_ifs with hlt heq
    · refine sorted_cons (fun m hm => ?_) hx ⟨hn, hrest⟩
      rcases List.mem_cons.mp hm with rfl | hm
      · exact hlt
      · exact hlt.trans (hn m hm)
    · exact sorted_cons (heq ▸ hn) hx hrest
    · refine ⟨fun m hm => ?_, ih hrest⟩
      rcases mem_names_set hm with rfl | hm
      · exact lt_of_le_of_ne (not_lt.mp hlt) (Ne.symm heq)
      · exact hn m hm
  | node n sub rest _ ih =>
    obtain ⟨hn, hsub, hrest⟩ := hf
    simp only [set]
    split_ifs with hlt heq
    · refine sorted_cons (fun m hm => ?_) hx ⟨hn, hsub, hrest⟩
      rcases List.mem_cons.mp hm with rfl | hm
      · exact hlt
      · exact hlt.trans (hn m hm)
    · exact sorted_cons (heq ▸ hn) hx hrest
    · refine ⟨fun m hm => ?_, hsub, ih hrest⟩
      rcases mem_names_set hm with rfl | hm
      · exact lt_of_le_of_ne (not_lt.mp hlt) (Ne.symm heq)
      · exact hn m hm

theorem sorted_prune {f : Forest κ α} (hf : f.Sorted) : f.prune.Sorted := by
  induction f with
  | nil => trivial
  | leaf n a rest ih => exact ⟨fun m hm => hf.1 m (mem_names_prune hm), ih hf.2⟩
  | node n sub rest ihsub ih =>
    rw [prune]
    split
    · exact ih hf.2.2
    · exact ⟨fun m hm => hf.1 m (mem_names_prune hm), ihsub hf.2.1, ih hf.2.2⟩

theorem sorted_of_get? {name : κ} {sub f : Forest κ α} (hf : f.Sorted)
    (h : f.get? name = some (.dir sub)) : sub.Sorted := by
  induction f with
  | nil => cases h
  | leaf n a rest ih =>
    simp only [get?] at h
    split_ifs at h
    · cases h
    · exact ih hf.2 h
  | node n s rest _ ih =>
    simp only [get?] at h
    split_ifs at h
    · cases h
      exact hf.2.1
    · exact ih hf.2.2 h

theorem noEmptyNodes_of_get? {name : κ} {sub f : Forest κ α} (hf : f.NoEmptyNodes)
    (h : f.get? name = some (.dir sub)) : sub ≠ nil ∧ sub.NoEmptyNodes := by
  induction f with
  | nil => cases h
  | leaf n a rest ih =>
    simp only [get?] at h
    split_ifs at h
    · cases h
    · exact ih hf h
  | node n s rest _ ih =>
    simp only [get?] at h
    split_ifs at h
    · cases h
      exact ⟨hf.1, hf.2.1⟩
    · exact ih hf.2.2 h

theorem set_ne_nil (name : κ) (x : Node κ α) (f : Forest κ α) : f.set name x ≠ nil := by
  cases f with
  | nil => exact cons_ne_nil _ _ _
  | _ =>
    simp only [set]
    split_ifs
    · exact cons_ne_nil _ _ _
    · exact cons_ne_nil _ _ _
    · exact nofun

theorem noEmptyNodes_set {name : κ} {x : Node κ α} {f : Forest κ α} (hf : f.NoEmptyNodes)
    (hx : ∀ sub, x = .dir sub → sub ≠ nil ∧ sub.NoEmptyNodes) :
    (f.set name x).NoEmptyNodes := by
  induction f with
  | nil => exact noEmptyNodes_cons hx trivial
  | leaf n a rest ih =>
    simp only [set]
    split_ifs
    · exact noEmptyNodes_cons hx hf
    · exact noEmptyNodes_cons hx hf
    · exact ih hf
  | node n sub rest _ ih =>
    simp only [set]
    split_ifs
    · exact noEmptyNodes_cons hx hf
    · exact noEmptyNodes_cons hx hf.2.2
    · exact ⟨hf.1, hf.2.1, ih hf.2.2⟩

/-! ### One path -/

theorem sorted_insertLeaf {f : Forest κ α} (hf : f.Sorted) (p : List κ) (a : α) :
    (f.insertLeaf p a).Sorted := by
  induction p generalizing f with
  | nil => exact hf
  | cons n p ih =>
    rw [insertLeaf]
    split_ifs
    · exact sorted_set hf nofun
    · split
      · exact sorted_set hf fun sub hsub => by
          cases hsub
          exact ih trivial
      · rename_i sub hget
        exact sorted_set hf fun sub' hsub => by
          cases hsub
          exact ih (sorted_of_get? hf hget)
      · exact hf

theorem sorted_ensureNode {f : Forest κ α} (hf : f.Sorted) (p : List κ) :
    (f.ensureNode p).Sorted := by
  induction p generalizing f with
  | nil => exact hf
  | cons n p ih =>
    rw [ensureNode]
    split
    · exact sorted_set hf fun sub hsub => by
        cases hsub
        exact ih trivial
    · rename_i sub hget
      exact sorted_set hf fun sub' hsub => by
        cases hsub
        exact ih (sorted_of_get? hf hget)
    · exact hf

theorem noEmptyNodes_insertLeaf {f : Forest κ α} (hf : f.NoEmptyNodes) {p : List κ} (a : α)
    (hp : p ≠ []) : f.insertLeaf p a ≠ nil ∧ (f.insertLeaf p a).NoEmptyNodes := by
  induction p generalizing f with
  | nil => exact absurd rfl hp
  | cons n p ih =>
    rw [insertLeaf]
    split_ifs with hnil
    · exact ⟨set_ne_nil _ _ _, noEmptyNodes_set hf nofun⟩
    · split
      · refine ⟨set_ne_nil _ _ _, noEmptyNodes_set hf fun sub hsub => ?_⟩
        cases hsub
        exact ih trivial hnil
      · rename_i sub hget
        refine ⟨set_ne_nil _ _ _, noEmptyNodes_set hf fun sub' hsub => ?_⟩
        cases hsub
        exact ih (noEmptyNodes_of_get? hf hget).2 hnil
      · rename_i b hget
        refine ⟨?_, hf⟩
        rintro rfl
        cases hget

/-- A forest without empty nodes that is not empty has a leaf. -/
theorem exists_fileAt {f : Forest κ α} (hf : f.NoEmptyNodes) (hne : f ≠ nil) :
    ∃ p a, f.fileAt p = some a := by
  induction f with
  | nil => exact absurd rfl hne
  | leaf n a rest _ => exact ⟨[n], a, by simp [fileAt, get?]⟩
  | node n sub rest ih _ =>
    obtain ⟨p, a, hp⟩ := ih hf.2.1 hf.1
    exact ⟨n :: p, a, by simpa [fileAt, get?] using hp⟩

/-- No leaf stands in the way of a leaf at `p`, nor `p` in the way of one. -/
def Free (f : Forest κ α) (p : List κ) : Prop :=
  ∀ q b, f.fileAt q = some b → ¬ q <+: p ∧ ¬ p <+: q

@[simp] theorem fileAt_nil (p : List κ) : (nil : Forest κ α).fileAt p = none := by
  cases p <;> rfl

theorem free_nil (p : List κ) : (nil : Forest κ α).Free p := by
  intro q b hq
  rw [fileAt_nil] at hq
  cases hq

theorem Free.sub {f sub : Forest κ α} {n : κ} {p : List κ} (h : f.Free (n :: p))
    (hget : f.get? n = some (.dir sub)) : sub.Free p := by
  intro q b hq
  have := h (n :: q) b (by simpa [fileAt, hget] using hq)
  simpa [List.cons_prefix_cons] using this

/-- **Insertion adds one leaf** where nothing stands in its way. -/
theorem fileAt_insertLeaf {f : Forest κ α} (hf : f.NoEmptyNodes) {p : List κ} (hp : p ≠ [])
    (hfree : f.Free p) (a : α) (q : List κ) :
    (f.insertLeaf p a).fileAt q = if q = p then some a else f.fileAt q := by
  induction p generalizing f q with
  | nil => exact absurd rfl hp
  | cons n p ih =>
    cases q with
    | nil => simp [fileAt]
    | cons m q =>
      rw [insertLeaf]
      by_cases hnil : p = []
      · subst hnil
        rw [if_pos rfl]
        by_cases hm : m = n
        · subst hm
          cases q with
          | nil => simp [fileAt, get?_set]
          | cons k q =>
            -- a leaf below the new one would have the new path in its way
            have hnone : f.fileAt (m :: k :: q) = none := by
              cases hfile : f.fileAt (m :: k :: q) with
              | none => rfl
              | some b => exact absurd (by simp) (hfree _ b hfile).2
            rw [hnone]
            simp [fileAt, get?_set]
        · simp [fileAt, get?_set, hm]
      · rw [if_neg hnil]
        by_cases hm : m = n
        · subst hm
          cases hget : f.get? m with
          | none =>
            have hbelow := ih (f := nil) trivial hnil (by intro q b h; cases q <;> cases h) q
            simp only [fileAt, get?_set, if_true, hget]
            rw [hbelow]
            simp only [List.cons.injEq, true_and]
            split_ifs
            · rfl
            · cases q <;> rfl
          | some x =>
            cases x with
            | file b =>
              -- the leaf under this name would stand in the way
              have hfile : f.fileAt [m] = some b := by simp [fileAt, hget]
              exact absurd (by simp) (hfree [m] b hfile).1
            | dir sub =>
              have hbelow := ih (noEmptyNodes_of_get? hf hget).2 hnil (hfree.sub hget) q
              simp only [fileAt, get?_set, if_true, hget]
              rw [hbelow]
              simp
        · have hne : ¬ m :: q = n :: p := by simp [hm]
          rw [if_neg hne]
          cases hget : f.get? n with
          | none => simp [fileAt, get?_set, hm]
          | some x => cases x <;> simp [fileAt, get?_set, hm]

/-- Two leaves never lie on one path. -/
theorem fileAt_prefix_eq {f : Forest κ α} {p q : List κ} {a b : α} (hp : f.fileAt p = some a)
    (hq : f.fileAt q = some b) (h : p <+: q) : p = q := by
  induction p generalizing f q with
  | nil => cases hp
  | cons n p ih =>
    cases q with
    | nil => cases hq
    | cons m q =>
      obtain ⟨rfl, hpq⟩ := List.cons_prefix_cons.mp h
      simp only [fileAt] at hp hq
      cases hget : f.get? n with
      | none => simp [hget] at hp
      | some x =>
        cases x with
        | file c =>
          simp only [hget] at hp hq
          split_ifs at hp hq with h₁ h₂
          rw [h₁, h₂]
        | dir sub =>
          simp only [hget] at hp hq
          rw [ih hp hq hpq]

/-- Insert leaves one after the other. -/
def insertAll (f : Forest κ α) (ls : List (List κ × α)) : Forest κ α :=
  ls.foldl (fun f l => f.insertLeaf l.1 l.2) f

/-- Neither path is on the way to the other. -/
def Apart (p q : List κ) : Prop := ¬ p <+: q ∧ ¬ q <+: p

theorem noEmptyNodes_insertAll {f : Forest κ α} (hf : f.NoEmptyNodes)
    {ls : List (List κ × α)} (hne : ∀ l ∈ ls, l.1 ≠ []) : (f.insertAll ls).NoEmptyNodes := by
  induction ls generalizing f with
  | nil => exact hf
  | cons l ls ih =>
    exact ih (noEmptyNodes_insertLeaf hf l.2 (hne l List.mem_cons_self)).2
      fun k hk => hne k (List.mem_cons_of_mem _ hk)

theorem sorted_insertAll {f : Forest κ α} (hf : f.Sorted) (ls : List (List κ × α)) :
    (f.insertAll ls).Sorted := by
  induction ls generalizing f with
  | nil => exact hf
  | cons l ls ih => exact ih (sorted_insertLeaf hf l.1 l.2)

/-- **Inserting leaves that are apart** adds exactly those leaves, in any order. -/
theorem fileAt_insertAll {f : Forest κ α} (hf : f.NoEmptyNodes) {ls : List (List κ × α)}
    (hne : ∀ l ∈ ls, l.1 ≠ []) (hapart : ls.Pairwise fun k l => Apart k.1 l.1)
    (hfree : ∀ l ∈ ls, f.Free l.1) {q : List κ} {a : α} :
    (f.insertAll ls).fileAt q = some a ↔ (q, a) ∈ ls ∨ f.fileAt q = some a := by
  induction ls generalizing f with
  | nil => simp [insertAll]
  | cons l ls ih =>
    obtain ⟨hhead, htail⟩ := List.pairwise_cons.mp hapart
    have hl := hne l List.mem_cons_self
    have hafter := fileAt_insertLeaf hf hl (hfree l List.mem_cons_self) l.2
    have hnext : ∀ k ∈ ls, (f.insertLeaf l.1 l.2).Free k.1 := by
      intro k hk r b hr
      rw [hafter] at hr
      split_ifs at hr with heq
      · exact heq ▸ hhead k hk
      · exact hfree k (List.mem_cons_of_mem _ hk) r b hr
    rw [insertAll, List.foldl_cons]
    refine (ih (noEmptyNodes_insertLeaf hf l.2 hl).2
      (fun k hk => hne k (List.mem_cons_of_mem _ hk)) htail hnext).trans ?_
    rw [hafter, List.mem_cons]
    by_cases heq : q = l.1
    · subst heq
      have hnone : f.fileAt l.1 = none := by
        cases h : f.fileAt l.1 with
        | none => rfl
        | some b => exact absurd List.prefix_rfl (hfree l List.mem_cons_self l.1 b h).1
      have hnot : (l.1, a) ∉ ls := fun hmem => (hhead _ hmem).1 List.prefix_rfl
      simp [hnone, hnot, Prod.ext_iff, eq_comm]
    · have hpair : (q, a) ≠ l := fun h => heq (by rw [← h])
      simp [heq, hpair]

/-! ### Listing -/

/-- The leaves listed are the leaves found by path. -/
theorem mem_leaves {f : Forest κ α} (hf : f.Sorted) {p : List κ} {a : α} :
    (p, a) ∈ f.leaves ↔ f.fileAt p = some a := by
  induction f generalizing p with
  | nil => cases p <;> simp [leaves, fileAt, get?]
  | leaf n b rest ih =>
    simp only [leaves, List.mem_cons, Prod.mk.injEq, ih hf.2]
    cases p with
    | nil => simp [fileAt]
    | cons m q =>
      by_cases hm : m = n
      · subst hm
        have hnone : rest.get? m = none := get?_eq_none hf.1
        simp [fileAt, get?, hnone, eq_comm]
      · simp [fileAt, get?, hm]
  | node n sub rest ihsub ih =>
    simp only [leaves, List.mem_append, List.mem_map, ih hf.2.2]
    cases p with
    | nil => simp [fileAt]
    | cons m q =>
      by_cases hm : m = n
      · subst hm
        have hnone : rest.get? m = none := get?_eq_none hf.1
        simp only [fileAt, get?, hnone, if_true, reduceCtorEq, or_false, ← ihsub hf.2.1]
        constructor
        · rintro ⟨l, hl, heq⟩
          cases heq
          exact hl
        · exact fun h => ⟨(q, a), h, rfl⟩
      · simp only [fileAt, get?, hm, if_false, or_iff_right_iff_imp]
        rintro ⟨l, -, heq⟩
        cases heq
        exact absurd rfl hm

/-- Each path is listed once. -/
theorem nodup_leaves {f : Forest κ α} (hf : f.Sorted) : (f.leaves.map Prod.fst).Nodup := by
  induction f with
  | nil => exact List.nodup_nil
  | leaf n b rest ih =>
    rw [leaves, List.map_cons, List.nodup_cons]
    refine ⟨fun h => ?_, ih hf.2⟩
    obtain ⟨⟨p, a⟩, hmem, heq⟩ := List.mem_map.mp h
    obtain ⟨m, q, rfl, hm⟩ := mem_leaves_head hmem
    cases heq
    exact absurd (hf.1 _ hm) (lt_irrefl _)
  | node n sub rest ihsub ih =>
    rw [leaves, List.map_append, List.nodup_append]
    refine ⟨?_, ih hf.2.2, ?_⟩
    · rw [List.map_map]
      have hnodup := List.Nodup.map (List.cons_injective (a := n)) (ihsub hf.2.1)
      rwa [List.map_map] at hnodup
    · rintro p hp q hq rfl
      obtain ⟨⟨p', a⟩, hmem, rfl⟩ := List.mem_map.mp hp
      obtain ⟨l, -, heq⟩ := List.mem_map.mp hmem
      obtain ⟨⟨q', b⟩, hmem', heq'⟩ := List.mem_map.mp hq
      obtain ⟨m, r, rfl, hm⟩ := mem_leaves_head hmem'
      cases heq
      cases heq'
      exact absurd (hf.1 _ hm) (lt_irrefl _)

/-- The leaves of a forest are apart. -/
theorem apart_leaves {f : Forest κ α} (hf : f.Sorted) :
    f.leaves.Pairwise fun k l => Apart k.1 l.1 := by
  have hnodup := nodup_leaves hf
  rw [List.Nodup, List.pairwise_map] at hnodup
  refine hnodup.imp_of_mem fun {k l} hk hl hne => ?_
  have hkf := (mem_leaves hf).mp hk
  have hlf := (mem_leaves hf).mp hl
  exact ⟨fun h => hne (fileAt_prefix_eq hkf hlf h), fun h => hne (fileAt_prefix_eq hlf hkf h).symm⟩

/-! ### Extensionality -/

theorem fileAt_head {f : Forest κ α} {n : κ} {p : List κ} {a : α}
    (h : f.fileAt (n :: p) = some a) : n ∈ f.names := by
  cases hget : f.get? n with
  | none => simp [fileAt, hget] at h
  | some x => exact mem_names_of_get? hget

/-- Every name of a forest without empty nodes leads to a leaf. -/
theorem exists_fileAt_name {f : Forest κ α} (hf : f.NoEmptyNodes) {n : κ} (hn : n ∈ f.names) :
    ∃ p a, f.fileAt (n :: p) = some a := by
  have hget : ∃ x, f.get? n = some x := by
    induction f with
    | nil => cases hn
    | leaf m a rest ih =>
      by_cases hm : n = m
      · exact ⟨.file a, by simp [get?, hm]⟩
      · simpa [get?, hm] using ih hf ((List.mem_cons.mp hn).resolve_left hm)
    | node m sub rest _ ih =>
      by_cases hm : n = m
      · exact ⟨.dir sub, by simp [get?, hm]⟩
      · simpa [get?, hm] using ih hf.2.2 ((List.mem_cons.mp hn).resolve_left hm)
  obtain ⟨x, hget⟩ := hget
  cases x with
  | file a => exact ⟨[], a, by simp [fileAt, hget]⟩
  | dir sub =>
    obtain ⟨hne, hsub⟩ := noEmptyNodes_of_get? hf hget
    obtain ⟨p, a, hp⟩ := exists_fileAt hsub hne
    exact ⟨p, a, by simpa [fileAt, hget] using hp⟩

theorem names_subset {f g : Forest κ α} (hf : f.NoEmptyNodes)
    (h : ∀ p, f.fileAt p = g.fileAt p) : ∀ n ∈ f.names, n ∈ g.names := fun n hn => by
  obtain ⟨p, a, hp⟩ := exists_fileAt_name hf hn
  exact fileAt_head ((h _).symm.trans hp)

theorem le_of_mem_names {n : κ} {x : Node κ α} {rest : Forest κ α}
    (hf : (cons n x rest).Sorted) {m : κ} (hm : m ∈ (cons n x rest).names) : n ≤ m := by
  rw [names_cons] at hm
  rcases List.mem_cons.mp hm with rfl | hm
  · exact le_rfl
  · cases x with
    | file a => exact (hf.1 m hm).le
    | dir sub => exact (hf.1 m hm).le

/-- Two sorted forests with the same leaves start with the same name. -/
theorem head_eq {n m : κ} {x y : Node κ α} {r t : Forest κ α}
    (hf : (cons n x r).Sorted) (hg : (cons m y t).Sorted)
    (hfe : (cons n x r).NoEmptyNodes) (hge : (cons m y t).NoEmptyNodes)
    (h : ∀ p, (cons n x r).fileAt p = (cons m y t).fileAt p) : n = m :=
  le_antisymm
    (le_of_mem_names hf (names_subset hge (fun p => (h p).symm) m (by simp)))
    (le_of_mem_names hg (names_subset hfe h n (by simp)))

/-- Below a common first name the other children have the same leaves. -/
theorem rest_fileAt {n : κ} {x y : Node κ α} {r t : Forest κ α}
    (hr : ∀ m ∈ r.names, n < m) (ht : ∀ m ∈ t.names, n < m)
    (h : ∀ p, (cons n x r).fileAt p = (cons n y t).fileAt p) (p : List κ) :
    r.fileAt p = t.fileAt p := by
  cases p with
  | nil => rfl
  | cons k q =>
    by_cases hk : k = n
    · subst hk
      simp [fileAt, get?_eq_none hr, get?_eq_none ht]
    · simpa [fileAt, hk] using h (k :: q)

/-- **Extensionality.** Sorted forests without empty nodes are told apart by
their leaves. -/
theorem ext_fileAt {f g : Forest κ α} (hf : f.Sorted) (hg : g.Sorted)
    (hfe : f.NoEmptyNodes) (hge : g.NoEmptyNodes)
    (h : ∀ p, f.fileAt p = g.fileAt p) : f = g := by
  induction f generalizing g with
  | nil =>
    by_contra hne
    obtain ⟨p, a, hp⟩ := exists_fileAt hge (Ne.symm hne)
    rw [← h p] at hp
    cases p <;> cases hp
  | leaf n a r ih =>
    cases g with
    | nil => simpa [fileAt, get?] using h [n]
    | leaf m b t =>
      obtain rfl := head_eq (x := .file a) (y := .file b) hf hg hfe hge h
      have hab : a = b := by simpa [fileAt, get?] using h [n]
      rw [hab, ih hf.2 hg.2 hfe hge (rest_fileAt (x := .file a) (y := .file b) hf.1 hg.1 h)]
    | node m sub t =>
      obtain rfl := head_eq (x := .file a) (y := .dir sub) hf hg hfe hge h
      simpa [fileAt, get?] using h [n]
  | node n sub r ihsub ih =>
    cases g with
    | nil =>
      obtain ⟨p, a, hp⟩ := exists_fileAt hfe nofun
      rw [h p] at hp
      cases p <;> cases hp
    | leaf m b t =>
      obtain rfl := head_eq (x := .dir sub) (y := .file b) hf hg hfe hge h
      simpa [fileAt, get?] using h [n]
    | node m sub' t =>
      obtain rfl := head_eq (x := .dir sub) (y := .dir sub') hf hg hfe hge h
      have hsub : ∀ p, sub.fileAt p = sub'.fileAt p := fun p => by
        simpa [fileAt, get?] using h (n :: p)
      rw [ihsub hf.2.1 hg.2.1 hfe.2.1 hge.2.1 hsub,
        ih hf.2.2 hg.2.2 hfe.2.2 hge.2.2
          (rest_fileAt (x := .dir sub) (y := .dir sub') hf.1 hg.1 h)]

/-- **A forest is its leaves**: inserting the leaves of a forest without empty
nodes into an empty one, in their order, rebuilds it. -/
theorem insertAll_leaves {f : Forest κ α} (hf : f.Sorted) (hfe : f.NoEmptyNodes) :
    nil.insertAll f.leaves = f := by
  have hnil : (nil : Forest κ α).Sorted := trivial
  have hnil' : (nil : Forest κ α).NoEmptyNodes := trivial
  refine ext_fileAt (sorted_insertAll hnil _) hf
    (noEmptyNodes_insertAll hnil' leaves_ne_nil) hfe fun p => Option.ext fun a => ?_
  rw [fileAt_insertAll hnil' leaves_ne_nil (apart_leaves hf) fun l _ => free_nil l.1,
    mem_leaves hf]
  simp

end Forest

end Softfig.Lib.PathTree
