import Mathlib.Data.List.Nodup
import Mathlib.Data.List.Basic

/-!
Vectors of slots kept parallel to a list of keys.

- `slotOf_set`: a slot that is written is the only one that changes;
- `all_isSome_iff`: every slot is filled exactly when every key has its value.
-/

namespace Softfig.Lib

universe u v

variable {κ : Type u} [DecidableEq κ] {α : Type v} {keys : List κ} {slots : List (Option α)}

/-- What is in a slot; nothing past the end. -/
def slotAt (slots : List (Option α)) (idx : Nat) : Option α := slots[idx]?.join

/-- The slot at the place of a key. -/
def slotOf (keys : List κ) (slots : List (Option α)) (key : κ) : Option α :=
  (keys.idxOf? key).bind (slotAt slots)

theorem idxOf?_eq_some {key : κ} (hkey : key ∈ keys) : keys.idxOf? key = some (keys.idxOf key) :=
  List.findIdx?_eq_some_iff_findIdx_eq.mpr ⟨List.idxOf_lt_length_of_mem hkey, rfl⟩

theorem slotOf_eq {key : κ} {idx : Nat} (hidx : keys.idxOf? key = some idx) :
    slotOf keys slots key = slotAt slots idx := by
  rw [slotOf, hidx, Option.bind_some]

/-- A slot that is written is the only one that changes. -/
theorem slotOf_set (hlen : slots.length = keys.length) {key : κ} {idx : Nat}
    (hidx : keys.idxOf? key = some idx) (a : α) (other : κ) :
    slotOf keys (slots.set idx (some a)) other =
      if other = key then some a else slotOf keys slots other := by
  obtain ⟨hlt, hget, -⟩ := List.idxOf?_eq_some_iff.mp hidx
  split
  · rename_i heq
    subst heq
    rw [slotOf_eq hidx, slotAt, List.getElem?_set_self (by omega), Option.join_some]
  · rename_i hne
    cases hother : keys.idxOf? other with
    | none => rw [slotOf, slotOf, hother, Option.bind_none, Option.bind_none]
    | some j =>
      obtain ⟨hlt', hget', -⟩ := List.idxOf?_eq_some_iff.mp hother
      have hplace : idx ≠ j := by
        rintro rfl
        exact hne (hget'.symm.trans hget)
      rw [slotOf_eq hother, slotOf_eq hother, slotAt, slotAt, List.getElem?_set_ne hplace]

theorem slotOf_replicate (n : Nat) (key : κ) :
    slotOf keys (List.replicate n (none : Option α)) key = none := by
  cases hkey : keys.idxOf? key with
  | none => rw [slotOf, hkey, Option.bind_none]
  | some idx =>
    rw [slotOf_eq hkey, slotAt, List.getElem?_replicate]
    split <;> rfl

/-- Every slot is filled exactly when every key has its value. -/
theorem all_isSome_iff (hnodup : keys.Nodup) (hlen : slots.length = keys.length) :
    slots.all Option.isSome = true ↔ ∀ key ∈ keys, (slotOf keys slots key).isSome = true := by
  rw [List.all_eq_true]
  constructor
  · intro h key hkey
    have hlt : keys.idxOf key < slots.length := by
      rw [hlen]
      exact List.idxOf_lt_length_of_mem hkey
    rw [slotOf_eq (idxOf?_eq_some hkey), slotAt, List.getElem?_eq_getElem hlt, Option.join_some]
    exact h _ (List.getElem_mem hlt)
  · intro h slot hslot
    obtain ⟨idx, hlt, rfl⟩ := List.getElem_of_mem hslot
    have hlt' : idx < keys.length := by omega
    have hfilled := h _ (List.getElem_mem hlt')
    rwa [slotOf_eq (idxOf?_eq_some (List.getElem_mem hlt')), hnodup.idxOf_getElem, slotAt,
      List.getElem?_eq_getElem hlt, Option.join_some] at hfilled

end Softfig.Lib
