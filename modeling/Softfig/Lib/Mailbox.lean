import Mathlib.Data.List.Basic

/-!
Readers of one log. Every entry has a key, every reader a lane of entries that are its own and
a mark: the key up to which it has taken its lane.

* `Consistent.append` — an entry behind every mark is pending for its readers.
* `Consistent.take` — a reader that takes all that is pending has its whole lane.
-/

namespace Softfig.Lib.Mailbox

variable {α : Type} {key : α → Nat} {lane : α → Bool} {mark mark' : Nat} {log taken : List α}

/-- The entries of a lane past a mark. -/
def pending (key : α → Nat) (lane : α → Bool) (mark : Nat) (log : List α) : List α :=
  log.filter fun a => mark < key a && lane a

/-- What a reader took and what is pending for it are its lane, in the order of the log. -/
def Consistent (key : α → Nat) (lane : α → Bool) (mark : Nat) (log taken : List α) : Prop :=
  taken ++ pending key lane mark log = log.filter lane

theorem mem_pending {a : α} : a ∈ pending key lane mark log ↔ a ∈ log ∧ mark < key a ∧ lane a := by
  simp [pending]

/-- Nothing is pending past a mark that has passed all that was. -/
theorem pending_passed (hle : mark ≤ mark') (hpast : ∀ a ∈ pending key lane mark log, key a ≤ mark') :
    pending key lane mark' log = [] := by
  rw [pending, List.filter_eq_nil_iff]
  intro a ha hnext
  obtain ⟨hkey, hlane⟩ : mark' < key a ∧ lane a = true := by simpa using hnext
  have hmark := hpast a (mem_pending.mpr ⟨ha, by omega, hlane⟩)
  omega

theorem Consistent.nil : Consistent key lane mark [] [] := rfl

/-- **A new entry is pending** for the readers whose mark it is past. -/
theorem Consistent.append (h : Consistent key lane mark log taken) {a : α} (ha : mark < key a) :
    Consistent key lane mark (log ++ [a]) taken := by
  have hnew : pending key lane mark [a] = [a].filter lane := by
    refine List.filter_congr fun b hb => ?_
    rw [List.mem_singleton.mp hb, decide_eq_true ha, Bool.true_and]
  have hsplit : pending key lane mark (log ++ [a]) =
      pending key lane mark log ++ pending key lane mark [a] := List.filter_append _ _
  rw [Consistent, hsplit, hnew, List.filter_append, ← List.append_assoc, h]

/-- **A reader that takes all that is pending** has its whole lane. -/
theorem Consistent.take (h : Consistent key lane mark log taken) (hle : mark ≤ mark')
    (hpast : ∀ a ∈ pending key lane mark log, key a ≤ mark') :
    Consistent key lane mark' log (taken ++ pending key lane mark log) := by
  rw [Consistent, pending_passed hle hpast, List.append_nil, h]

end Softfig.Lib.Mailbox
