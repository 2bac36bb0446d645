import Mathlib.Data.Finset.Card
import Mathlib.Data.List.TakeWhile
import Mathlib.Logic.Relation

/-!
Worklist loops: pop a node, skip it if it was seen, else visit it and push what
the visit returns.

A visit may fail and may change a state of its own. What visits push comes from
a finite set, so the loop ends on every graph, cycles included.

- `walk_eq`: the loop never runs out of fuel;
- `loop_rule`: what a skip and a visit keep holds at the end;
- `walk_invariant`: a property of the seen set and the state;
- `walk_closed`: at the end the seen set is closed under successors;
- `mem_of_reflTransGen`: a closed set holds all it reaches.
-/

namespace Softfig.Lib

universe u v w

/-- A visit of a node: the nodes to push, in push order, and the new state. -/
structure Visitor (κ : Type u) (σ : Type v) (ε : Type w) where
  visit : κ → σ → Except ε (List κ × σ)
  targets : Finset κ
  mem_targets : ∀ {k s next s'}, visit k s = .ok (next, s') → ∀ n ∈ next, n ∈ targets

namespace Visitor

variable {κ : Type u} {σ : Type v} {ε : Type w} [DecidableEq κ] (visitor : Visitor κ σ ε)

/-- The loop; each round pops the nodes already seen and visits the next one. -/
def loop : Nat → List κ → Finset κ → σ → Option (Except ε (Finset κ × σ))
  | fuel, stack, seen, s =>
    match stack.dropWhile (· ∈ seen), fuel with
    | [], _ => some (.ok (seen, s))
    | _ :: _, 0 => none
    | k :: rest, fuel + 1 =>
      match visitor.visit k s with
      | .error e => some (.error e)
      | .ok (next, s') => loop fuel (next.reverse ++ rest) (insert k seen) s'

/-- The loop from a stack and the nodes seen before. -/
def walk (stack : List κ) (seen : Finset κ) (s : σ) : Except ε (Finset κ × σ) :=
  (visitor.loop ((stack.toFinset ∪ visitor.targets).card + 1) stack seen s).getD (.ok (seen, s))

variable {visitor}

theorem dropWhile_head_notMem {seen : Finset κ} {stack rest : List κ} {k : κ}
    (h : stack.dropWhile (· ∈ seen) = k :: rest) : k ∉ seen := by
  have := List.head_dropWhile_not (fun k => decide (k ∈ seen)) (l := stack)
    (by rw [h]; exact List.cons_ne_nil _ _)
  simpa [h] using this

/-- Each visit takes a node that was not seen, so the nodes bound the rounds. -/
theorem loop_isSome {nodes : Finset κ} (htargets : visitor.targets ⊆ nodes) {fuel : Nat}
    {stack : List κ} {seen : Finset κ} {s : σ} (hstack : ∀ k ∈ stack, k ∈ nodes)
    (h : (nodes \ seen).card < fuel) : (visitor.loop fuel stack seen s).isSome := by
  induction fuel generalizing stack seen s with
  | zero => exact absurd h (Nat.not_lt_zero _)
  | succ fuel ih =>
    unfold loop
    cases hpop : stack.dropWhile (· ∈ seen) with
    | nil => rfl
    | cons k rest =>
      dsimp only
      cases hvisit : visitor.visit k s with
      | error e => rfl
      | ok r =>
        have hsub : ∀ n ∈ k :: rest, n ∈ nodes := fun n hn =>
          hstack n ((List.dropWhile_sublist _).subset (hpop ▸ hn))
        have hk : k ∈ nodes \ seen :=
          Finset.mem_sdiff.mpr ⟨hsub k List.mem_cons_self, dropWhile_head_notMem hpop⟩
        refine ih (fun n hn => ?_) ?_
        · rcases List.mem_append.mp hn with hn | hn
          · exact htargets (visitor.mem_targets hvisit n (List.mem_reverse.mp hn))
          · exact hsub n (List.mem_cons_of_mem _ hn)
        · have := Finset.card_pos.mpr ⟨k, hk⟩
          rw [Finset.sdiff_insert, Finset.card_erase_of_mem hk]
          omega

theorem walk_eq (visitor : Visitor κ σ ε) (stack : List κ) (seen : Finset κ) (s : σ) :
    visitor.loop ((stack.toFinset ∪ visitor.targets).card + 1) stack seen s =
      some (visitor.walk stack seen s) := by
  have hcard : ((stack.toFinset ∪ visitor.targets) \ seen).card <
      (stack.toFinset ∪ visitor.targets).card + 1 :=
    Nat.lt_succ_of_le (Finset.card_le_card Finset.sdiff_subset)
  obtain ⟨r, hr⟩ := Option.isSome_iff_exists.mp
    (loop_isSome (s := s) Finset.subset_union_right
      (fun k hk => Finset.mem_union_left _ (List.mem_toFinset.mpr hk)) hcard)
  rw [walk, hr]
  rfl

/-- **Loop rule.** What popping seen nodes and visiting a new one keep holds at
the end, over an empty stack. -/
theorem loop_rule {M : List κ → Finset κ → σ → Prop}
    (hskip : ∀ stack seen s, M stack seen s → M (stack.dropWhile (· ∈ seen)) seen s)
    (hvisit : ∀ k rest seen s next s', k ∉ seen → M (k :: rest) seen s →
      visitor.visit k s = .ok (next, s') → M (next.reverse ++ rest) (insert k seen) s')
    {fuel : Nat} {stack : List κ} {seen seen' : Finset κ} {s s' : σ}
    (h : visitor.loop fuel stack seen s = some (.ok (seen', s'))) (hM : M stack seen s) :
    M [] seen' s' := by
  induction fuel generalizing stack seen s with
  | zero =>
    have hskipped := hskip _ _ _ hM
    unfold loop at h
    cases hstack : stack.dropWhile (· ∈ seen) with
    | nil =>
      rw [hstack] at h hskipped
      cases h
      exact hskipped
    | cons k rest =>
      rw [hstack] at h
      cases h
  | succ fuel ih =>
    have hskipped := hskip _ _ _ hM
    unfold loop at h
    cases hstack : stack.dropWhile (· ∈ seen) with
    | nil =>
      rw [hstack] at h hskipped
      cases h
      exact hskipped
    | cons k rest =>
      rw [hstack] at h hskipped
      dsimp only at h
      cases hv : visitor.visit k s with
      | error e =>
        rw [hv] at h
        cases h
      | ok r =>
        rw [hv] at h
        exact ih h (hvisit k rest seen s r.1 r.2 (dropWhile_head_notMem hstack) hskipped hv)

/-- A property `P` of the nodes pushed and an invariant of what was seen. -/
theorem walk_invariant {P : κ → Prop} {I : Finset κ → σ → Prop}
    (hvisit : ∀ k seen s next s', P k → k ∉ seen → I seen s →
      visitor.visit k s = .ok (next, s') → I (insert k seen) s' ∧ ∀ n ∈ next, P n)
    {stack : List κ} {seen seen' : Finset κ} {s s' : σ} (hstack : ∀ k ∈ stack, P k)
    (hI : I seen s) (h : visitor.walk stack seen s = .ok (seen', s')) : I seen' s' := by
  have hloop := visitor.walk_eq stack seen s
  rw [h] at hloop
  refine (loop_rule (M := fun stack seen s => (∀ k ∈ stack, P k) ∧ I seen s) ?_ ?_ hloop
    ⟨hstack, hI⟩).2
  · rintro stack seen s ⟨hP, hI⟩
    exact ⟨fun k hk => hP k ((List.dropWhile_sublist _).subset hk), hI⟩
  · rintro k rest seen s next s' hk ⟨hP, hI⟩ hv
    obtain ⟨hI', hnext⟩ := hvisit k seen s next s' (hP k List.mem_cons_self) hk hI hv
    refine ⟨fun n hn => ?_, hI'⟩
    rcases List.mem_append.mp hn with hn | hn
    · exact hnext n (List.mem_reverse.mp hn)
    · exact hP n (List.mem_cons_of_mem _ hn)

/-- **At the end the seen set is closed**: it holds what was seen before, the
stack, and every successor a visit pushes. -/
theorem walk_closed (succ : κ → κ → Prop)
    (hsucc : ∀ k s next s', visitor.visit k s = .ok (next, s') → ∀ n, succ k n → n ∈ next)
    {stack : List κ} {seen seen' : Finset κ} {s s' : σ}
    (hseen : ∀ k ∈ seen, ∀ n, succ k n → n ∈ seen)
    (h : visitor.walk stack seen s = .ok (seen', s')) :
    seen ⊆ seen' ∧ (∀ k ∈ stack, k ∈ seen') ∧ ∀ k ∈ seen', ∀ n, succ k n → n ∈ seen' := by
  have hloop := visitor.walk_eq stack seen s
  rw [h] at hloop
  have hend := loop_rule
    (M := fun rest now _ => seen ⊆ now ∧ (∀ k ∈ stack, k ∈ now ∨ k ∈ rest) ∧
      ∀ k ∈ now, ∀ n, succ k n → n ∈ now ∨ n ∈ rest) ?_ ?_ hloop
    ⟨Finset.Subset.refl _, fun k hk => .inr hk, fun k hk n hn => .inl (hseen k hk n hn)⟩
  · obtain ⟨hold, hstack, hclosed⟩ := hend
    exact ⟨hold, fun k hk => (hstack k hk).resolve_right List.not_mem_nil,
      fun k hk n hn => (hclosed k hk n hn).resolve_right List.not_mem_nil⟩
  · rintro rest now s ⟨hold, hstack, hclosed⟩
    have hpop : ∀ n, n ∈ now ∨ n ∈ rest → n ∈ now ∨ n ∈ rest.dropWhile (· ∈ now) := by
      intro n hn
      by_cases hnow : n ∈ now
      · exact .inl hnow
      · have hmem := hn.resolve_left hnow
        rw [← List.takeWhile_append_dropWhile (p := fun k => decide (k ∈ now)) (l := rest)] at hmem
        rcases List.mem_append.mp hmem with htake | hdrop
        · exact .inl (by simpa using List.mem_takeWhile_imp htake)
        · exact .inr hdrop
    exact ⟨hold, fun k hk => hpop k (hstack k hk), fun k hk n hn => hpop n (hclosed k hk n hn)⟩
  · rintro k rest now s next s' hk ⟨hold, hstack, hclosed⟩ hv
    have hpush : ∀ n, n ∈ now ∨ n ∈ k :: rest → n ∈ insert k now ∨ n ∈ next.reverse ++ rest := by
      intro n hn
      rcases hn with hn | hn
      · exact .inl (Finset.mem_insert_of_mem hn)
      · rcases List.mem_cons.mp hn with rfl | hn
        · exact .inl (Finset.mem_insert_self _ _)
        · exact .inr (List.mem_append_right _ hn)
    refine ⟨hold.trans (Finset.subset_insert _ _), fun n hn => hpush n (hstack n hn),
      fun j hj n hn => ?_⟩
    rcases Finset.mem_insert.mp hj with rfl | hj
    · exact .inr (List.mem_append_left _ (List.mem_reverse.mpr (hsucc j s next s' hv n hn)))
    · exact hpush n (hclosed j hj n hn)

/-- The walk of a visitor that never fails. -/
def explore (visitor : Visitor κ σ Empty) (stack : List κ) (seen : Finset κ) (s : σ) :
    Finset κ × σ :=
  match visitor.walk stack seen s with
  | .ok r => r
  | .error e => e.elim

theorem walk_eq_explore (visitor : Visitor κ σ Empty) (stack : List κ) (seen : Finset κ) (s : σ) :
    visitor.walk stack seen s =
      .ok ((visitor.explore stack seen s).1, (visitor.explore stack seen s).2) := by
  unfold explore
  cases visitor.walk stack seen s with
  | ok r => rfl
  | error e => exact e.elim

end Visitor

/-- A closed set holds all it reaches. -/
theorem mem_of_reflTransGen {κ : Type u} {succ : κ → κ → Prop} {seen : Finset κ}
    (hclosed : ∀ k ∈ seen, ∀ n, succ k n → n ∈ seen) {k n : κ} (hk : k ∈ seen)
    (h : Relation.ReflTransGen succ k n) : n ∈ seen := by
  induction h with
  | refl => exact hk
  | tail _ hstep ih => exact hclosed _ ih _ hstep

end Softfig.Lib
