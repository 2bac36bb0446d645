import Mathlib.Data.List.AList

/-!
A working tree: staged files over a log of published trees.

Staging writes to the working tree alone; publishing makes everything staged one
version of the log, whoever staged it.

- `read_publish`: publishing changes nothing that is read;
- `committed_publish`: what is read is committed by it;
- `read_stage`: staging writes one file.
-/

namespace Softfig.Lib

universe u v w

/-- A published tree and what it was published for. -/
structure Version (κ : Type u) (α : Type v) (ι : Type w) where
  label : ι
  tree : κ → Option α

/-- A log of published trees, newest first, and the files staged over the newest. -/
structure Overlay (κ : Type u) (α : Type v) (ι : Type w) where
  log : List (Version κ α ι)
  staged : AList fun _ : κ => α

namespace Overlay

variable {κ : Type u} {α : Type v} {ι : Type w} [DecidableEq κ]

/-- The newest tree of a log. -/
def tipTree : List (Version κ α ι) → κ → Option α
  | [] => fun _ => none
  | version :: _ => version.tree

/-- The newest published tree. -/
def committed (o : Overlay κ α ι) : κ → Option α := tipTree o.log

/-- A file of the working tree. -/
def read (o : Overlay κ α ι) (k : κ) : Option α :=
  match o.staged.lookup k with
  | some a => some a
  | none => o.committed k

def «exists» (o : Overlay κ α ι) (k : κ) : Bool := (o.read k).isSome

/-- Write one file of the working tree. -/
def stage (o : Overlay κ α ι) (k : κ) (a : α) : Overlay κ α ι :=
  { o with staged := o.staged.insert k a }

/-- Some staged file differs from the published one. -/
def changed [DecidableEq α] (o : Overlay κ α ι) : Bool :=
  o.staged.entries.any fun e => decide (o.committed e.1 ≠ some e.2)

/-- Publish the working tree, unless it is the published tree already. -/
def publish [DecidableEq α] (o : Overlay κ α ι) (label : ι) : Overlay κ α ι where
  log := if o.changed then ⟨label, o.read⟩ :: o.log else o.log
  staged := ∅

variable {o : Overlay κ α ι}

@[simp]
theorem committed_stage (k : κ) (a : α) : (o.stage k a).committed = o.committed := rfl

@[simp]
theorem log_stage (k : κ) (a : α) : (o.stage k a).log = o.log := rfl

theorem read_stage (k : κ) (a : α) (k' : κ) :
    (o.stage k a).read k' = if k' = k then some a else o.read k' := by
  unfold read stage
  by_cases h : k' = k
  · subst h
    simp [AList.lookup_insert]
  · rw [AList.lookup_insert_ne h, if_neg h]
    rfl

@[simp]
theorem read_stage_self (k : κ) (a : α) : (o.stage k a).read k = some a := by
  rw [read_stage, if_pos rfl]

theorem read_stage_ne {k k' : κ} (a : α) (h : k' ≠ k) : (o.stage k a).read k' = o.read k' := by
  rw [read_stage, if_neg h]

/-- What is committed is read, as it is or as staged over. -/
theorem isSome_read_of_committed {k : κ} (h : (o.committed k).isSome) : (o.read k).isSome := by
  unfold read
  split
  · rfl
  · exact h

/-- The second working tree differs from the first by staged files alone. -/
structure StagedOver (o o' : Overlay κ α ι) : Prop where
  log : o'.log = o.log
  files : ∀ k, o.exists k = true → o'.exists k = true

theorem StagedOver.refl (o : Overlay κ α ι) : StagedOver o o := ⟨rfl, fun _ h => h⟩

theorem StagedOver.stage {o o' : Overlay κ α ι} (h : StagedOver o o') (k : κ) (a : α) :
    StagedOver o (o'.stage k a) := by
  refine ⟨h.log, fun k' hk' => ?_⟩
  rw [«exists», read_stage]
  split_ifs
  · rfl
  · exact h.files k' hk'

theorem StagedOver.committed {o o' : Overlay κ α ι} (h : StagedOver o o') :
    o'.committed = o.committed := by
  rw [Overlay.committed, Overlay.committed, h.log]

variable [DecidableEq α]

theorem committed_of_not_changed (h : o.changed = false) {k : κ} {a : α}
    (hk : o.staged.lookup k = some a) : o.committed k = some a := by
  have hmem : (⟨k, a⟩ : Sigma fun _ => α) ∈ o.staged.entries := AList.mem_lookup_iff.mp hk
  have := List.any_eq_false.mp h _ hmem
  simpa using this

/-- **What is read is committed by publishing.** -/
theorem committed_publish (label : ι) : (o.publish label).committed = o.read := by
  unfold publish
  by_cases h : o.changed = true
  · rw [if_pos h]
    rfl
  · rw [if_neg h]
    funext k
    show o.committed k = o.read k
    cases hk : o.staged.lookup k with
    | none => simp [read, hk]
    | some a => simp [read, hk, committed_of_not_changed (by simpa using h) hk]

/-- **Publishing changes nothing that is read.** -/
theorem read_publish (label : ι) : (o.publish label).read = o.read := by
  have hempty : (o.publish label).read = (o.publish label).committed := by
    funext k
    unfold read
    split
    · rename_i a h
      exact absurd h (by simp [publish])
    · rfl
  rw [hempty, committed_publish]

end Overlay

end Softfig.Lib
