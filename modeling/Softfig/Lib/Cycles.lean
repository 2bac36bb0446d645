import Mathlib.Data.Finset.Card
import Mathlib.Data.Finset.Filter
import Mathlib.Logic.Relation

/-!
Relations with finitely many sources: either following one ends, or it comes back to a place.

- `Returns.step`: from a place that leads into a cycle, some step stays on the way;
- `acc_of_not_returns`: where no cycle can be reached, every way ends.
-/

namespace Softfig.Lib

open Relation (ReflTransGen TransGen)

variable {α : Type*} {r : α → α → Prop} {a b : α}

/-- A place from which the relation leads back to itself can be reached. -/
def Returns (r : α → α → Prop) (a : α) : Prop := ∃ x, ReflTransGen r a x ∧ TransGen r x x

theorem Returns.step (h : Returns r a) : ∃ b, r a b ∧ Returns r b := by
  obtain ⟨x, hreach, hcycle⟩ := h
  rcases ReflTransGen.cases_head hreach with rfl | ⟨b, hab, hbx⟩
  · obtain ⟨b, hab, hba⟩ := TransGen.head'_iff.mp hcycle
    exact ⟨b, hab, a, hba, hcycle⟩
  · exact ⟨b, hab, x, hbx, hcycle⟩

theorem Returns.head (hab : r a b) (h : Returns r b) : Returns r a := by
  obtain ⟨x, hreach, hcycle⟩ := h
  exact ⟨x, .head hab hreach, hcycle⟩

/-- **No cycle, no endless way.** The sources still ahead get fewer with each step. -/
theorem acc_of_not_returns (sources : Finset α) (hsources : ∀ a b, r a b → a ∈ sources)
    (h : ¬Returns r a) : Acc (fun b a => r a b) a := by
  classical
  generalize hn : (sources.filter (ReflTransGen r a)).card = n
  induction n using Nat.strong_induction_on generalizing a with
  | _ n ih =>
    refine Acc.intro a fun b hab => ?_
    refine ih _ ?_ (fun hreturns => h (hreturns.head hab)) rfl
    rw [← hn]
    refine Finset.card_lt_card ((Finset.ssubset_iff_of_subset ?_).mpr ⟨a, ?_, ?_⟩)
    · intro x hx
      obtain ⟨hmem, hbx⟩ := Finset.mem_filter.mp hx
      exact Finset.mem_filter.mpr ⟨hmem, .head hab hbx⟩
    · exact Finset.mem_filter.mpr ⟨hsources a b hab, .refl⟩
    · intro hmem
      have hba := (Finset.mem_filter.mp hmem).2
      exact h ⟨a, .refl, TransGen.head' hab hba⟩

end Softfig.Lib
