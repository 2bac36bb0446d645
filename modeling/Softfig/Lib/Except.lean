import Mathlib.Data.List.Forall2
import Mathlib.Logic.Basic

/-!
Checks that run one after another and stop at the first refusal.
-/

namespace Softfig.Lib

variable {ε α β : Type}

/-- A sequence succeeds where its first part does and the rest does on its result. -/
theorem bind_ok_iff {first : Except ε α} {rest : α → Except ε β} {b : β} :
    first >>= rest = .ok b ↔ ∃ a, first = .ok a ∧ rest a = .ok b := by
  cases h : first with
  | error refusal => simp [bind, Except.bind]
  | ok a => simp [bind, Except.bind]

/-- A sequence is refused by its first part, or by the rest on its result. -/
theorem bind_error_iff {first : Except ε α} {rest : α → Except ε β} {refusal : ε} :
    first >>= rest = .error refusal ↔
      first = .error refusal ∨ ∃ a, first = .ok a ∧ rest a = .error refusal := by
  cases h : first with
  | error r => simp [bind, Except.bind]
  | ok a => simp [bind, Except.bind]

/-- A check that refuses where `p` holds. -/
def refuseIf (p : Prop) [Decidable p] (refusal : ε) : Except ε Unit :=
  if p then .error refusal else .ok ()

@[simp]
theorem refuseIf_eq_ok {p : Prop} [Decidable p] {refusal : ε} {u : Unit} :
    refuseIf p refusal = .ok u ↔ ¬p := by
  unfold refuseIf
  split <;> simp [*]

theorem refuseIf_bind_ok_iff {p : Prop} [Decidable p] {refusal : ε} {rest : Unit → Except ε β}
    {b : β} : refuseIf p refusal >>= rest = .ok b ↔ ¬p ∧ rest () = .ok b := by
  rw [bind_ok_iff]
  constructor
  · rintro ⟨u, hp, hrest⟩
    exact ⟨refuseIf_eq_ok.mp hp, hrest⟩
  · rintro ⟨hp, hrest⟩
    exact ⟨(), refuseIf_eq_ok.mpr hp, hrest⟩

theorem forall₂_mem_right {R : α → β → Prop} {as : List α} {bs : List β} (h : List.Forall₂ R as bs)
    {b : β} (hb : b ∈ bs) : ∃ a ∈ as, R a b := by
  induction h with
  | nil => cases hb
  | cons hhead _ ih =>
    rcases List.mem_cons.mp hb with rfl | hlater
    · exact ⟨_, List.mem_cons_self, hhead⟩
    · obtain ⟨a, ha, hrel⟩ := ih hlater
      exact ⟨a, List.mem_cons_of_mem _ ha, hrel⟩

theorem forall₂_mem_left {R : α → β → Prop} {as : List α} {bs : List β} (h : List.Forall₂ R as bs)
    {a : α} (ha : a ∈ as) : ∃ b ∈ bs, R a b :=
  forall₂_mem_right h.flip ha

theorem forall₂_right_unique {R S : α → β → Prop} {as : List α} {bs bs' : List β}
    (h : List.Forall₂ R as bs) (h' : List.Forall₂ S as bs')
    (hunique : ∀ a ∈ as, ∀ b b', R a b → S a b' → b = b') : bs = bs' := by
  induction h generalizing bs' with
  | nil =>
    cases h'
    rfl
  | cons hhead _ ih =>
    cases h' with
    | cons hhead' hrest' =>
      rw [hunique _ List.mem_cons_self _ _ hhead hhead', ih hrest' fun a ha =>
        hunique a (List.mem_cons_of_mem _ ha)]

/-- A traversal succeeds where it does on every element. -/
theorem mapM_eq_ok_iff {f : α → Except ε β} {as : List α} {bs : List β} :
    as.mapM f = .ok bs ↔ List.Forall₂ (fun a b => f a = .ok b) as bs := by
  induction as generalizing bs with
  | nil => simp [pure, Except.pure, eq_comm]
  | cons a as ih =>
    simp only [List.mapM_cons, bind_ok_iff, ih, pure, Except.pure, Except.ok.injEq,
      List.forall₂_cons_left_iff]
    constructor
    · rintro ⟨b, hb, rest, hrest, rfl⟩
      exact ⟨b, rest, hb, hrest, rfl⟩
    · rintro ⟨b, rest, hb, hrest, rfl⟩
      exact ⟨b, hb, rest, hrest, rfl⟩

end Softfig.Lib
