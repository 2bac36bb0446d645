import Mathlib.Data.Finset.Card
import Mathlib.Logic.Relation

/-!
Depth-first search for a cycle, with the three colours of a node: not visited,
on the current path, done.

- `findCycle_error`: a node reported lies on a cycle;
- `findCycle_ok`: where none is reported, every node is accessible, so no path
  goes on for ever and no node lies on a cycle;
- `exists_sink`: accessible nodes lead to one without successors.
-/

namespace Softfig.Lib

universe u

inductive Colour where
  | white
  | grey
  | black
  deriving DecidableEq

namespace ColouredDfs

variable {κ : Type u} [DecidableEq κ]

/-- Visit the nodes of a list, up to one whose visit finds a cycle. -/
def visitAll (visit : κ → (κ → Colour) → Except κ (κ → Colour)) :
    List κ → (κ → Colour) → Except κ (κ → Colour)
  | [], colour => .ok colour
  | n :: ns, colour =>
    match visit n colour with
    | .error c => .error c
    | .ok colour => visitAll visit ns colour

/-- Visit one node; the error is a node of the current path met again. -/
def visit (succ : κ → List κ) : Nat → κ → (κ → Colour) → Except κ (κ → Colour)
  | fuel, k, colour =>
    match colour k, fuel with
    | .grey, _ => .error k
    | .black, _ => .ok colour
    | .white, 0 => .ok colour
    | .white, fuel + 1 =>
      match visitAll (visit succ fuel) (succ k) (Function.update colour k .grey) with
      | .error c => .error c
      | .ok colour => .ok (Function.update colour k .black)

/-- Visit every node, each path at most as long as there are nodes. -/
def findCycle (succ : κ → List κ) (nodes : List κ) : Except κ (κ → Colour) :=
  visitAll (visit succ nodes.toFinset.card) nodes fun _ => .white

/-- One node has the other as a successor. -/
def Edge (succ : κ → List κ) (a b : κ) : Prop := b ∈ succ a

/-- No infinite path starts at the node. -/
def Ends (succ : κ → List κ) (k : κ) : Prop := Acc (fun a b => Edge succ b a) k

variable {succ : κ → List κ}

theorem visit_white_zero {k : κ} {colour : κ → Colour} (h : colour k = .white) :
    visit succ 0 k colour = .ok colour := by
  unfold visit
  rw [h]

theorem visit_grey {fuel : Nat} {k : κ} {colour : κ → Colour} (h : colour k = .grey) :
    visit succ fuel k colour = .error k := by
  unfold visit
  rw [h]

theorem visit_black {fuel : Nat} {k : κ} {colour : κ → Colour} (h : colour k = .black) :
    visit succ fuel k colour = .ok colour := by
  unfold visit
  rw [h]

theorem visit_white {fuel : Nat} {k : κ} {colour : κ → Colour} (h : colour k = .white) :
    visit succ (fuel + 1) k colour =
      match visitAll (visit succ fuel) (succ k) (Function.update colour k .grey) with
      | .error c => .error c
      | .ok colour => .ok (Function.update colour k .black) := by
  conv_lhs => unfold visit
  rw [h]

omit [DecidableEq κ] in
/-- What every successful visit keeps, a list of them keeps. -/
theorem visitAll_invariant {v : κ → (κ → Colour) → Except κ (κ → Colour)}
    {I : (κ → Colour) → Prop} {ns : List κ}
    (hv : ∀ n ∈ ns, ∀ colour colour', I colour → v n colour = .ok colour' → I colour')
    {colour colour' : κ → Colour} (hI : I colour) (h : visitAll v ns colour = .ok colour') :
    I colour' := by
  induction ns generalizing colour with
  | nil =>
    cases h
    exact hI
  | cons n ns ih =>
    rw [visitAll] at h
    cases hn : v n colour with
    | error c => simp [hn] at h
    | ok next =>
      simp only [hn] at h
      exact ih (fun m hm => hv m (List.mem_cons_of_mem _ hm)) (hv n List.mem_cons_self _ _ hI hn) h

omit [DecidableEq κ] in
/-- An error of a list is an error of one visit, in a state the ones before left. -/
theorem visitAll_error {v : κ → (κ → Colour) → Except κ (κ → Colour)}
    {I : (κ → Colour) → Prop} {ns : List κ}
    (hv : ∀ n ∈ ns, ∀ colour colour', I colour → v n colour = .ok colour' → I colour')
    {colour : κ → Colour} {c : κ} (hI : I colour) (h : visitAll v ns colour = .error c) :
    ∃ n ∈ ns, ∃ before, I before ∧ v n before = .error c := by
  induction ns generalizing colour with
  | nil => cases h
  | cons n ns ih =>
    rw [visitAll] at h
    cases hn : v n colour with
    | error c' =>
      simp only [hn] at h
      cases h
      exact ⟨n, List.mem_cons_self, colour, hI, hn⟩
    | ok next =>
      simp only [hn] at h
      obtain ⟨m, hm, before, hbefore, herror⟩ := ih
        (fun m hm => hv m (List.mem_cons_of_mem _ hm)) (hv n List.mem_cons_self _ _ hI hn) h
      exact ⟨m, List.mem_cons_of_mem _ hm, before, hbefore, herror⟩

/-! ### Colours -/

/-- A visit leaves the colours of the nodes already visited. -/
theorem visit_keeps {fuel : Nat} {k : κ} {colour colour' : κ → Colour}
    (h : visit succ fuel k colour = .ok colour') {x : κ} (hx : colour x ≠ .white) :
    colour' x = colour x := by
  induction fuel generalizing k colour colour' with
  | zero =>
    cases hk : colour k with
    | grey => simp [visit_grey hk] at h
    | black =>
      rw [visit_black hk] at h
      cases h
      rfl
    | white =>
      rw [visit_white_zero hk] at h
      cases h
      rfl
  | succ fuel ih =>
    cases hk : colour k with
    | grey => simp [visit_grey hk] at h
    | black =>
      rw [visit_black hk] at h
      cases h
      rfl
    | white =>
      rw [visit_white hk] at h
      cases hall : visitAll (visit succ fuel) (succ k) (Function.update colour k .grey) with
      | error c => simp [hall] at h
      | ok after =>
        simp only [hall] at h
        cases h
        have hne : x ≠ k := by
          rintro rfl
          exact hx hk
        have hstart : Function.update colour k .grey x = colour x := Function.update_of_ne hne _ _
        have hkept : after x = colour x := by
          refine visitAll_invariant (I := fun now => now x = colour x) ?_ hstart hall
          intro n _ now next hnow hvisit
          rw [ih hvisit (hnow ▸ hx), hnow]
        rw [Function.update_of_ne hne, hkept]

/-- A visit leaves no node on the path that was not there before. -/
theorem visit_grey_back {fuel : Nat} {k : κ} {colour colour' : κ → Colour}
    (h : visit succ fuel k colour = .ok colour') {x : κ} (hx : colour' x = .grey) :
    colour x = .grey := by
  induction fuel generalizing k colour colour' with
  | zero =>
    cases hk : colour k with
    | grey => simp [visit_grey hk] at h
    | black =>
      rw [visit_black hk] at h
      cases h
      exact hx
    | white =>
      rw [visit_white_zero hk] at h
      cases h
      exact hx
  | succ fuel ih =>
    cases hk : colour k with
    | grey => simp [visit_grey hk] at h
    | black =>
      rw [visit_black hk] at h
      cases h
      exact hx
    | white =>
      rw [visit_white hk] at h
      cases hall : visitAll (visit succ fuel) (succ k) (Function.update colour k .grey) with
      | error c => simp [hall] at h
      | ok after =>
        simp only [hall] at h
        cases h
        have hne : x ≠ k := by
          rintro rfl
          rw [Function.update_self] at hx
          cases hx
        rw [Function.update_of_ne hne] at hx
        have hback : after x = .grey → Function.update colour k .grey x = .grey :=
          visitAll_invariant
            (I := fun now => now x = .grey → Function.update colour k .grey x = .grey)
            (fun n _ now next hnow hvisit hgrey => hnow (ih hvisit hgrey)) id hall
        have := hback hx
        rwa [Function.update_of_ne hne] at this

/-! ### A reported node lies on a cycle -/

theorem visit_error {fuel : Nat} {k c : κ} {colour : κ → Colour}
    (hpath : ∀ g, colour g = .grey → Relation.TransGen (Edge succ) g k)
    (h : visit succ fuel k colour = .error c) : Relation.TransGen (Edge succ) c c := by
  induction fuel generalizing k colour with
  | zero =>
    cases hk : colour k with
    | grey =>
      rw [visit_grey hk] at h
      obtain rfl := Except.error.inj h
      exact hpath k hk
    | black => simp [visit_black hk] at h
    | white => simp [visit_white_zero hk] at h
  | succ fuel ih =>
    cases hk : colour k with
    | grey =>
      rw [visit_grey hk] at h
      obtain rfl := Except.error.inj h
      exact hpath k hk
    | black => simp [visit_black hk] at h
    | white =>
      rw [visit_white hk] at h
      cases hall : visitAll (visit succ fuel) (succ k) (Function.update colour k .grey) with
      | ok after => simp [hall] at h
      | error c' =>
        simp only [hall] at h
        obtain rfl := Except.error.inj h
        obtain ⟨n, hn, before, hbefore, herror⟩ := visitAll_error
          (I := fun now => ∀ g, now g = .grey → Function.update colour k .grey g = .grey)
          (fun n _ now next hnow hvisit g hg => hnow g (visit_grey_back hvisit hg))
          (fun g hg => hg) hall
        -- the path to a successor goes through the node it is a successor of
        refine ih (fun g hg => ?_) herror
        by_cases hgk : g = k
        · subst hgk
          exact .single hn
        · have hgrey := hbefore g hg
          rw [Function.update_of_ne hgk] at hgrey
          exact (hpath g hgrey).tail hn

/-! ### Without a report every node ends -/

omit [DecidableEq κ] in
/-- What one visit makes true of its node, and later visits keep, is true of
every node of the list afterwards. -/
theorem visitAll_each {v : κ → (κ → Colour) → Except κ (κ → Colour)}
    {I : (κ → Colour) → Prop} {P : κ → (κ → Colour) → Prop} {ns : List κ}
    (hv : ∀ n ∈ ns, ∀ colour colour', I colour → v n colour = .ok colour' →
      I colour' ∧ P n colour' ∧ ∀ m, P m colour → P m colour')
    {colour colour' : κ → Colour} (hI : I colour) (h : visitAll v ns colour = .ok colour') :
    ∀ n ∈ ns, P n colour' := by
  induction ns generalizing colour with
  | nil =>
    intro n hn
    cases hn
  | cons n ns ih =>
    rw [visitAll] at h
    cases hn : v n colour with
    | error c => simp [hn] at h
    | ok next =>
      simp only [hn] at h
      obtain ⟨hnext, hP, -⟩ := hv n List.mem_cons_self _ _ hI hn
      have hrest := ih (fun m hm => hv m (List.mem_cons_of_mem _ hm)) hnext h
      intro m hm
      rcases List.mem_cons.mp hm with rfl | hm
      · refine visitAll_invariant (I := fun now => I now ∧ P m now) ?_ ⟨hnext, hP⟩ h |>.2
        intro m' hm' now after hnow hvisit
        obtain ⟨hafter, -, hkeep⟩ := hv m' (List.mem_cons_of_mem _ hm') _ _ hnow.1 hvisit
        exact ⟨hafter, hkeep m hnow.2⟩
      · exact hrest m hm

/-- A visit with fuel for the nodes not visited makes its node black, and every
black node ends. -/
theorem visit_ok {nodes : Finset κ} (hnodes : ∀ k ∈ nodes, ∀ n ∈ succ k, n ∈ nodes) {fuel : Nat}
    {k : κ} {colour colour' : κ → Colour} (hk : k ∈ nodes)
    (hfuel : (nodes.filter fun x => colour x = .white).card ≤ fuel)
    (hends : ∀ b, colour b = .black → Ends succ b)
    (h : visit succ fuel k colour = .ok colour') :
    colour' k = .black ∧ ∀ b, colour' b = .black → Ends succ b := by
  induction fuel generalizing k colour colour' with
  | zero =>
    cases hcolour : colour k with
    | grey => simp [visit_grey hcolour] at h
    | black =>
      rw [visit_black hcolour] at h
      cases h
      exact ⟨hcolour, hends⟩
    | white =>
      have hpos : 0 < (nodes.filter fun x => colour x = .white).card :=
        Finset.card_pos.mpr ⟨k, Finset.mem_filter.mpr ⟨hk, hcolour⟩⟩
      omega
  | succ fuel ih =>
    cases hcolour : colour k with
    | grey => simp [visit_grey hcolour] at h
    | black =>
      rw [visit_black hcolour] at h
      cases h
      exact ⟨hcolour, hends⟩
    | white =>
      rw [visit_white hcolour] at h
      cases hall : visitAll (visit succ fuel) (succ k) (Function.update colour k .grey) with
      | error c => simp [hall] at h
      | ok after =>
        simp only [hall] at h
        cases h
        -- on the way, nodes lose their white only, and every black node ends
        let I : (κ → Colour) → Prop := fun now =>
          (∀ b, now b = .black → Ends succ b) ∧
            ∀ x, Function.update colour k .grey x ≠ .white → now x ≠ .white
        have hstart : I (Function.update colour k .grey) := by
          constructor
          · intro b hb
            by_cases hbk : b = k
            · subst hbk
              rw [Function.update_self] at hb
              cases hb
            · rw [Function.update_of_ne hbk] at hb
              exact hends b hb
          · intro x hx
            exact hx
        have hfewer : ∀ now, I now → (nodes.filter fun x => now x = .white).card ≤ fuel := by
          intro now hnow
          have hlt : (nodes.filter fun x => now x = .white).card <
              (nodes.filter fun x => colour x = .white).card := by
            refine Finset.card_lt_card ⟨?_, ?_⟩
            · intro x hx
              obtain ⟨hx, hwhite⟩ := Finset.mem_filter.mp hx
              have hstill : Function.update colour k .grey x = .white := by
                by_contra hne
                exact hnow.2 x hne hwhite
              have hxk : x ≠ k := by
                rintro rfl
                rw [Function.update_self] at hstill
                cases hstill
              rw [Function.update_of_ne hxk] at hstill
              exact Finset.mem_filter.mpr ⟨hx, hstill⟩
            · intro hsub
              have hmem := hsub (Finset.mem_filter.mpr ⟨hk, hcolour⟩)
              refine hnow.2 k ?_ (Finset.mem_filter.mp hmem).2
              rw [Function.update_self]
              intro hgrey
              cases hgrey
          omega
        have hstep : ∀ n ∈ succ k, ∀ now next, I now → visit succ fuel n now = .ok next →
            I next ∧ next n = .black ∧ ∀ m, now m = .black → next m = .black := by
          intro n hn now next hnow hvisit
          obtain ⟨hblack, hblacks⟩ :=
            ih (hnodes k hk n hn) (hfewer now hnow) hnow.1 hvisit
          refine ⟨⟨hblacks, ?_⟩, hblack, ?_⟩
          · intro x hx
            have hx := hnow.2 x hx
            rwa [visit_keeps hvisit hx]
          · intro m hm
            rw [visit_keeps hvisit (by rw [hm]; decide), hm]
        have hafter : I after :=
          visitAll_invariant (fun n hn now next hnow hvisit => (hstep n hn now next hnow hvisit).1)
            hstart hall
        have hsucc : ∀ n ∈ succ k, after n = .black :=
          visitAll_each (P := fun n now => now n = .black) hstep hstart hall
        have hkends : Ends succ k := Acc.intro k fun n hn => hafter.1 n (hsucc n hn)
        constructor
        · exact Function.update_self _ _ _
        · intro b hb
          by_cases hbk : b = k
          · subst hbk
            exact hkends
          · rw [Function.update_of_ne hbk] at hb
            exact hafter.1 b hb

/-! ### The search -/

variable {nodes : List κ}

/-- **A node the search reports lies on a cycle.** -/
theorem findCycle_error {c : κ} (h : findCycle succ nodes = .error c) :
    Relation.TransGen (Edge succ) c c := by
  obtain ⟨n, hn, before, hbefore, herror⟩ :=
    visitAll_error (I := fun now => ∀ g, now g ≠ .grey)
      (fun n _ now next hnow hvisit g hg => hnow g (visit_grey_back hvisit hg))
      (fun g hg => by cases hg) h
  exact visit_error (fun g hg => absurd hg (hbefore g)) herror

/-- **Where the search reports nothing, every node ends.** -/
theorem findCycle_ok (hnodes : ∀ k ∈ nodes, ∀ n ∈ succ k, n ∈ nodes) {colour : κ → Colour}
    (h : findCycle succ nodes = .ok colour) : ∀ k ∈ nodes, Ends succ k := by
  let I : (κ → Colour) → Prop := fun now => ∀ b, now b = .black → Ends succ b
  have hstep : ∀ n ∈ nodes, ∀ now next, I now →
      visit succ nodes.toFinset.card n now = .ok next →
      I next ∧ next n = .black ∧ ∀ m, now m = .black → next m = .black := by
    intro n hn now next hnow hvisit
    have hnodes' : ∀ k ∈ nodes.toFinset, ∀ n ∈ succ k, n ∈ nodes.toFinset := by
      simpa using hnodes
    have hcard : (nodes.toFinset.filter fun x => now x = .white).card ≤ nodes.toFinset.card :=
      Finset.card_filter_le _ _
    obtain ⟨hblack, hblacks⟩ :=
      visit_ok hnodes' (by simpa using hn) hcard hnow hvisit
    refine ⟨hblacks, hblack, ?_⟩
    intro m hm
    rw [visit_keeps hvisit (by rw [hm]; decide), hm]
  have hstart : I fun _ => .white := fun b hb => by cases hb
  have hall : I colour :=
    visitAll_invariant (fun n hn now next hnow hvisit => (hstep n hn now next hnow hvisit).1)
      hstart h
  intro k hk
  exact hall k (visitAll_each (P := fun n now => now n = .black) hstep hstart h k hk)

/-- An accessible element does not come before itself. -/
theorem not_transGen_of_acc {α : Type u} {r : α → α → Prop} {a : α} (h : Acc r a) :
    ¬ Relation.TransGen r a a := by
  induction Acc.transGen h with
  | intro a _ ih =>
    intro hcycle
    exact ih a hcycle (h.inv_of_transGen hcycle) hcycle

omit [DecidableEq κ] in
/-- From a node that ends, steps lead to one without successors. -/
theorem Ends.exists_sink {k : κ} (h : Ends succ k) :
    ∃ n, Relation.ReflTransGen (Edge succ) k n ∧ succ n = [] := by
  induction h with
  | intro k _ ih =>
    cases hsucc : succ k with
    | nil => exact ⟨k, .refl, hsucc⟩
    | cons n ns =>
      have hn : Edge succ k n := by
        rw [Edge, hsucc]
        exact List.mem_cons_self
      obtain ⟨m, hm, hsink⟩ := ih n hn
      exact ⟨m, .head hn hm, hsink⟩

end ColouredDfs

end Softfig.Lib
