import Mathlib.Logic.Relation

/-!
Labelled transition systems: runs, reachable states and the invariant rule.

A system has initial states and a step relation labelled by what the
environment asked for. Nothing here knows what the states are.

- `Run.invariant`: a property kept by every step of a run holds at its end;
- `Reachable.invariant`: an invariant of the initial states holds everywhere;
- `Simulation.reachable`: a step-by-step simulation carries reachable states to
  reachable states;
- `replay_reachable`: a step function replayed on a list of labels only visits
  reachable states.
-/

namespace Softfig.Lib

universe u v w x

/-- Initial states and labelled steps. -/
structure System (State : Type u) (Label : Type v) where
  init : State → Prop
  step : State → Label → State → Prop

namespace System

variable {State : Type u} {Label : Type v} (sys : System State Label)

/-- A finite run, extended at its end: the labels are listed oldest first. -/
inductive Run : State → List Label → State → Prop where
  | refl (s : State) : Run s [] s
  | snoc {s t r : State} {labels : List Label} {label : Label} :
      Run s labels t → sys.step t label r → Run s (labels ++ [label]) r

/-- A state some run from an initial state ends in. -/
def Reachable (t : State) : Prop :=
  ∃ s labels, sys.init s ∧ sys.Run s labels t

variable {sys}

theorem Run.single {s t : State} {label : Label} (h : sys.step s label t) :
    sys.Run s [label] t :=
  .snoc (.refl s) h

theorem Run.trans {s t r : State} {first rest : List Label}
    (h₁ : sys.Run s first t) (h₂ : sys.Run t rest r) : sys.Run s (first ++ rest) r := by
  induction h₂ with
  | refl => simpa using h₁
  | snoc _ hstep ih =>
    rw [← List.append_assoc]
    exact .snoc ih hstep

/-- **Run rule.** What holds at the start and is kept by every step holds at the end. -/
theorem Run.invariant {P : State → Prop}
    (hstep : ∀ s label t, P s → sys.step s label t → P t)
    {s t : State} {labels : List Label} (hrun : sys.Run s labels t) (hs : P s) : P t := by
  induction hrun with
  | refl => exact hs
  | snoc _ h ih => exact hstep _ _ _ ih h

theorem Reachable.of_init {s : State} (h : sys.init s) : sys.Reachable s :=
  ⟨s, [], h, .refl s⟩

theorem Reachable.step {s t : State} {label : Label} (h : sys.Reachable s)
    (hstep : sys.step s label t) : sys.Reachable t := by
  obtain ⟨s₀, labels, hinit, hrun⟩ := h
  exact ⟨s₀, labels ++ [label], hinit, .snoc hrun hstep⟩

theorem Reachable.run {s t : State} {labels : List Label} (h : sys.Reachable s)
    (hrun : sys.Run s labels t) : sys.Reachable t := by
  obtain ⟨s₀, before, hinit, h₀⟩ := h
  exact ⟨s₀, before ++ labels, hinit, h₀.trans hrun⟩

/-- **Invariant rule.** The step may assume that the state it leaves is
reachable, so invariants already proved help to prove the next one. -/
theorem Reachable.invariant {P : State → Prop} (hinit : ∀ s, sys.init s → P s)
    (hstep : ∀ s label t, sys.Reachable s → P s → sys.step s label t → P t)
    {t : State} (h : sys.Reachable t) : P t := by
  obtain ⟨s, labels, hs, hrun⟩ := h
  induction hrun with
  | refl => exact hinit _ hs
  | snoc hbefore hlast ih => exact hstep _ _ _ ⟨_, _, hs, hbefore⟩ ih hlast

/-! ### Guarded systems -/

/-- Every step of the run was taken where the guard held. -/
inductive Guarded (sys : System State Label) (guard : State → Label → Prop) :
    State → List Label → State → Prop where
  | refl (s : State) : Guarded sys guard s [] s
  | snoc {s t r : State} {labels : List Label} {label : Label} :
      Guarded sys guard s labels t → guard t label → sys.step t label r →
        Guarded sys guard s (labels ++ [label]) r

theorem Guarded.run {guard : State → Label → Prop} {s t : State} {labels : List Label}
    (h : sys.Guarded guard s labels t) : sys.Run s labels t := by
  induction h with
  | refl => exact .refl _
  | snoc _ _ hstep ih => exact .snoc ih hstep

theorem Guarded.trans {guard : State → Label → Prop} {s t r : State} {first rest : List Label}
    (h : sys.Guarded guard s first t) (h' : sys.Guarded guard t rest r) :
    sys.Guarded guard s (first ++ rest) r := by
  induction h' with
  | refl => rwa [List.append_nil]
  | snoc _ hguard hstep ih =>
    rw [← List.append_assoc]
    exact .snoc ih hguard hstep

/-- A run whose labels meet a guard of the label alone is guarded by it. -/
theorem Run.guarded {guard : Label → Prop} {s t : State} {labels : List Label}
    (h : sys.Run s labels t) (hguard : ∀ label ∈ labels, guard label) :
    sys.Guarded (fun _ label => guard label) s labels t := by
  induction h with
  | refl => exact .refl _
  | snoc _ hstep ih =>
    refine .snoc (ih fun label hmem => hguard label (List.mem_append_left _ hmem)) ?_ hstep
    exact hguard _ (List.mem_append_right _ (List.mem_singleton_self _))

/-! ### Simulation -/

variable {Abs : Type w} {AbsLabel : Type x}

/-- Every concrete step is matched by a run of the abstract system. -/
structure Simulation (sys : System State Label) (abs : System Abs AbsLabel)
    (rel : State → Abs → Prop) : Prop where
  start : ∀ s, sys.init s → ∃ a, abs.init a ∧ rel s a
  forward : ∀ s label t a, rel s a → sys.step s label t →
    ∃ labels b, abs.Run a labels b ∧ rel t b

/-- **A simulation carries reachable states to reachable states.** -/
theorem Simulation.reachable {abs : System Abs AbsLabel} {rel : State → Abs → Prop}
    (sim : Simulation sys abs rel) {t : State} (h : sys.Reachable t) :
    ∃ b, abs.Reachable b ∧ rel t b := by
  refine Reachable.invariant (P := fun t => ∃ b, abs.Reachable b ∧ rel t b) ?_ ?_ h
  · intro s hs
    obtain ⟨a, ha, hrel⟩ := sim.start s hs
    exact ⟨a, .of_init ha, hrel⟩
  · rintro s label t - ⟨a, ha, hrel⟩ hstep
    obtain ⟨labels, b, hrun, hb⟩ := sim.forward s label t a hrel hstep
    exact ⟨b, ha.run hrun, hb⟩

/-! ### Executable systems -/

/-- The system of a step function, which refuses a label with `none`. -/
def ofFun (start : State) (f : State → Label → Option State) : System State Label where
  init s := s = start
  step s label t := f s label = some t

/-- Take the labels one after the other. -/
def replay (f : State → Label → Option State) : State → List Label → Option State
  | s, [] => some s
  | s, label :: labels =>
    match f s label with
    | none => none
    | some t => replay f t labels

/-- A replay of what a system does is a run of it. -/
theorem Run.of_replay {sys : System State Label} {f : State → Label → Option State}
    (hstep : ∀ s label t, f s label = some t → sys.step s label t) {s t : State}
    {labels : List Label} (h : replay f s labels = some t) : sys.Run s labels t := by
  induction labels generalizing s with
  | nil =>
    cases h
    exact .refl _
  | cons label labels ih =>
    rw [replay] at h
    split at h
    · cases h
    · rename_i r hr
      have hfirst : sys.Run s [label] r := .single (hstep _ _ _ hr)
      exact hfirst.trans (ih h)

theorem replay_run {start s t : State} {f : State → Label → Option State} {labels : List Label}
    (h : replay f s labels = some t) : (ofFun start f).Run s labels t :=
  .of_replay (fun _ _ _ hstep => hstep) h

/-- A replay that checks a guard before each label shows a guarded run. -/
theorem replay_guarded {start s t : State} {f : State → Label → Option State}
    {guard : State → Label → Prop} [∀ s label, Decidable (guard s label)] {labels : List Label}
    (h : replay (fun s label => if guard s label then f s label else none) s labels = some t) :
    (ofFun start f).Guarded guard s labels t := by
  have hsnoc : ∀ {s r : State} {label : Label} {labels : List Label} {t : State},
      guard s label → f s label = some r → (ofFun start f).Guarded guard r labels t →
      (ofFun start f).Guarded guard s (label :: labels) t := by
    intro s r label labels t hguard hstep hrest
    induction hrest with
    | refl => exact .snoc (.refl s) hguard hstep
    | snoc _ hguard' hstep' ih => exact .snoc ih hguard' hstep'
  induction labels generalizing s with
  | nil =>
    cases h
    exact .refl _
  | cons label labels ih =>
    rw [replay] at h
    split at h
    · cases h
    · rename_i r hr
      split at hr
      · rename_i hguard
        exact hsnoc hguard hr (ih h)
      · cases hr

/-- Where no label is refused in a good state and every step keeps the state good, no replay from
a good state is refused. -/
theorem replay_total {P : State → Prop} {f : State → Label → Option State}
    (hstep : ∀ s label, P s → ∃ t, f s label = some t ∧ P t) {s : State} (hs : P s)
    (labels : List Label) : ∃ t, replay f s labels = some t ∧ P t := by
  induction labels generalizing s with
  | nil => exact ⟨s, rfl, hs⟩
  | cons label labels ih =>
    obtain ⟨r, hr, hgood⟩ := hstep s label hs
    obtain ⟨t, ht, ht'⟩ := ih hgood
    refine ⟨t, ?_, ht'⟩
    rw [replay, hr]
    exact ht

theorem replay_reachable {start : State} {f : State → Label → Option State} {labels : List Label}
    (h : (replay f start labels).isSome) :
    (ofFun start f).Reachable ((replay f start labels).getD start) := by
  obtain ⟨t, ht⟩ := Option.isSome_iff_exists.mp h
  rw [ht]
  exact ⟨start, labels, rfl, replay_run ht⟩

end System

end Softfig.Lib
