import Mathlib.Data.List.AList
import Softfig.Lib.Fallible

/-!
A directory of files under a process that may be killed while it writes.

A file is published whole (staged beside it, then renamed over it), overwritten
in place, or unlinked. A kill leaves every write before it done and the one it
interrupts undone; a file that was being overwritten in place may be left with
any prefix of its new content.

- `Disk.write`: one write of a computation, and the log it leaves;
- `cutAt`: the directory a kill leaves;
- `cutAt_cases`: it is the directory after some of the writes, or that
  directory with the next file torn.
-/

namespace Softfig.Lib

variable {File α ε β : Type}

inductive Write (File α : Type) where
  /-- Staged to a temporary sibling and renamed over the file. -/
  | publish (file : File) (content : List α)
  /-- Truncated and written in place. -/
  | overwrite (file : File) (content : List α)
  | unlink (file : File)

namespace Write

/-- The write leaves this content in this file. -/
def Puts (file : File) (content : List α) (w : Write File α) : Prop :=
  w = .publish file content ∨ w = .overwrite file content

@[simp]
theorem puts_publish {file file' : File} {content content' : List α} :
    Puts file content (.publish file' content') ↔ file' = file ∧ content' = content := by
  simp [Puts]

@[simp]
theorem puts_overwrite {file file' : File} {content content' : List α} :
    Puts file content (.overwrite file' content') ↔ file' = file ∧ content' = content := by
  simp [Puts]

@[simp]
theorem not_puts_unlink {file file' : File} {content : List α} :
    ¬Puts file content (.unlink file') := by
  simp [Puts]

end Write

variable [DecidableEq File]

/-- What each file that exists holds. -/
abbrev Dir (File α : Type) [DecidableEq File] := AList fun _ : File => List α

namespace Write

def apply : Write File α → Dir File α → Dir File α
  | .publish file content, dir => dir.insert file content
  | .overwrite file content, dir => dir.insert file content
  | .unlink file, dir => dir.erase file

/-- The write as a kill leaves it, with `kept` elements of a file that was being overwritten. -/
def tear (kept : Nat) : Write File α → Dir File α → Dir File α
  | .overwrite file content, dir => dir.insert file (content.take kept)
  | .publish _ _, dir => dir
  | .unlink _, dir => dir

end Write

def replay (writes : List (Write File α)) (dir : Dir File α) : Dir File α :=
  writes.foldl (fun dir w => w.apply dir) dir

@[simp]
theorem replay_nil (dir : Dir File α) : replay [] dir = dir := rfl

@[simp]
theorem replay_cons (w : Write File α) (ws : List (Write File α)) (dir : Dir File α) :
    replay (w :: ws) dir = replay ws (w.apply dir) := rfl

/-- Where a computation is killed: how many writes it has done, and how much of the next one, when
that one had begun. -/
structure Cut where
  done : Nat
  torn : Option Nat

/-- The directory a computation that makes these writes leaves when it is killed. -/
def cutAt (writes : List (Write File α)) (cut : Cut) (dir : Dir File α) : Dir File α :=
  match cut.torn, writes[cut.done]? with
  | some kept, some w => w.tear kept (replay (writes.take cut.done) dir)
  | _, _ => replay (writes.take cut.done) dir

/-- A kill leaves the directory after some of the writes, or tears the next one. -/
theorem cutAt_cases (writes : List (Write File α)) (cut : Cut) (dir : Dir File α) :
    (∃ k, cutAt writes cut dir = replay (writes.take k) dir) ∨
      ∃ kept file content, cut.torn = some kept ∧
        writes[cut.done]? = some (.overwrite file content) ∧
        cutAt writes cut dir =
          (replay (writes.take cut.done) dir).insert file (content.take kept) := by
  unfold cutAt
  split
  · rename_i kept w htorn hnext
    cases w with
    | publish => exact .inl ⟨cut.done, rfl⟩
    | unlink => exact .inl ⟨cut.done, rfl⟩
    | overwrite file content => exact .inr ⟨kept, file, content, htorn, hnext, rfl⟩
  · exact .inl ⟨cut.done, rfl⟩

/-- A computation that makes no write leaves the directory it was started in. -/
@[simp]
theorem cutAt_nil (cut : Cut) (dir : Dir File α) : cutAt [] cut dir = dir := by
  simp [cutAt]

/-! ### Computations that write -/

/-- A directory, and every write made to it so far. -/
structure Disk (File α : Type) [DecidableEq File] where
  dir : Dir File α
  log : List (Write File α)

namespace Disk

/-- A disk no computation has written to yet. -/
def fresh (dir : Dir File α) : Disk File α := ⟨dir, []⟩

@[simp]
theorem fresh_dir (dir : Dir File α) : (fresh dir).dir = dir := rfl

@[simp]
theorem fresh_log (dir : Dir File α) : (fresh dir).log = [] := rfl

/-- The disk after one more write. -/
def after (disk : Disk File α) (w : Write File α) : Disk File α :=
  ⟨w.apply disk.dir, disk.log ++ [w]⟩

@[simp]
theorem after_dir (disk : Disk File α) (w : Write File α) :
    (disk.after w).dir = w.apply disk.dir := rfl

@[simp]
theorem after_log (disk : Disk File α) (w : Write File α) :
    (disk.after w).log = disk.log ++ [w] := rfl

def write (w : Write File α) : Fallible (Disk File α) ε Unit :=
  Fallible.modify fun disk => disk.after w

@[simp]
theorem write_apply (w : Write File α) (disk : Disk File α) :
    (write w : Fallible (Disk File α) ε Unit) disk = (.ok (), disk.after w) := rfl

/-- What a reader of the directory finds. -/
def read (f : Dir File α → Except ε β) : Fallible (Disk File α) ε β :=
  fun disk => (f disk.dir, disk)

@[simp]
theorem read_apply (f : Dir File α → Except ε β) (disk : Disk File α) :
    read f disk = (f disk.dir, disk) := rfl

/-- A computation that starts with a reader is refused by it, or goes on from the same disk. -/
theorem read_bind_cases {γ : Type} {g : Dir File α → Except ε β}
    {f : β → Fallible (Disk File α) ε γ} {disk disk' : Disk File α} {res : Except ε γ}
    (h : (read g >>= f) disk = (res, disk')) :
    (∃ e, g disk.dir = .error e ∧ res = .error e ∧ disk' = disk) ∨
      ∃ a, g disk.dir = .ok a ∧ f a disk = (res, disk') := by
  rw [Fallible.bind_apply, read_apply] at h
  cases hread : g disk.dir with
  | error e =>
    left
    rw [hread] at h
    cases h
    exact ⟨e, rfl, rfl, rfl⟩
  | ok a =>
    rw [hread] at h
    exact .inr ⟨a, rfl, h⟩

theorem write_bind {f : Unit → Fallible (Disk File α) ε β} (w : Write File α)
    (disk : Disk File α) : (write w >>= f) disk = f () (disk.after w) := rfl

end Disk

end Softfig.Lib
