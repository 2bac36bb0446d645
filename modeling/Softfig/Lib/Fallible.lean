import Mathlib.Logic.Basic

/-!
Computations over a state that may fail, and keep what they did to the state when they do.

- `Triple`: what holds of the state and the result, after success and after failure;
- `Triple.bind`: how triples compose;
- `Triple.start`: a postcondition that mentions the state a computation starts in.
-/

namespace Softfig.Lib

variable {s ε α β : Type}

/-- A computation over a state: its result or its failure, and the state it leaves. -/
def Fallible (s ε α : Type) : Type := s → Except ε α × s

namespace Fallible

def fail (e : ε) : Fallible s ε α := fun st => (.error e, st)

def ofExcept (r : Except ε α) : Fallible s ε α := fun st => (r, st)

def bind (x : Fallible s ε α) (f : α → Fallible s ε β) : Fallible s ε β := fun st =>
  match x st with
  | (.ok a, st') => f a st'
  | (.error e, st') => (.error e, st')

instance : Monad (Fallible s ε) where
  pure a := fun st => (.ok a, st)
  bind := bind

/-- What a part of the state is. -/
def gets (f : s → α) : Fallible s ε α := fun st => (.ok (f st), st)

def modify (f : s → s) : Fallible s ε Unit := fun st => (.ok (), f st)

theorem bind_apply (x : Fallible s ε α) (f : α → Fallible s ε β) (st : s) :
    (x >>= f) st =
      match x st with
      | (.ok a, st') => f a st'
      | (.error e, st') => (.error e, st') := rfl

theorem bind_ok {x : Fallible s ε α} {f : α → Fallible s ε β} {st st' : s} {a : α}
    (h : x st = (.ok a, st')) : (x >>= f) st = f a st' := by
  rw [bind_apply, h]

theorem bind_error {x : Fallible s ε α} {f : α → Fallible s ε β} {st st' : s} {e : ε}
    (h : x st = (.error e, st')) : (x >>= f) st = (.error e, st') := by
  rw [bind_apply, h]

theorem bind_assoc {γ : Type} (x : Fallible s ε α) (f : α → Fallible s ε β)
    (g : β → Fallible s ε γ) : (x >>= f) >>= g = x >>= fun a => f a >>= g := by
  funext st
  rw [bind_apply, bind_apply, bind_apply]
  rcases x st with ⟨e | a, st'⟩ <;> rfl

theorem bind_eq_ok {x : Fallible s ε α} {f : α → Fallible s ε β} {st st'' : s} {b : β} :
    (x >>= f) st = (.ok b, st'') ↔ ∃ a st', x st = (.ok a, st') ∧ f a st' = (.ok b, st'') := by
  rw [bind_apply]
  rcases hx : x st with ⟨e | a, st'⟩
  · simp
  · constructor
    · exact fun h => ⟨a, st', rfl, h⟩
    · rintro ⟨a', st''', heq, h⟩
      cases heq
      exact h

/-- A sequence stops at the first part's failure, or goes on from the state it leaves. -/
theorem bind_cases {x : Fallible s ε α} {f : α → Fallible s ε β} {st st' : s} {res : Except ε β}
    (h : (x >>= f) st = (res, st')) :
    (∃ e, x st = (.error e, st') ∧ res = .error e) ∨
      ∃ a mid, x st = (.ok a, mid) ∧ f a mid = (res, st') := by
  rw [bind_apply] at h
  rcases hx : x st with ⟨e | a, mid⟩
  · rw [hx] at h
    cases h
    exact .inl ⟨e, rfl, rfl⟩
  · rw [hx] at h
    exact .inr ⟨a, mid, rfl, h⟩

/-- A computation that starts with a check is refused by it, or goes on from the same state. -/
theorem ofExcept_bind_cases {r : Except ε α} {f : α → Fallible s ε β} {st st' : s} {res : Except ε β}
    (h : (ofExcept r >>= f) st = (res, st')) :
    (∃ e, r = .error e ∧ res = .error e ∧ st' = st) ∨ ∃ a, r = .ok a ∧ f a st = (res, st') := by
  cases r with
  | error e =>
    left
    cases h
    exact ⟨e, rfl, rfl, rfl⟩
  | ok a => exact .inr ⟨a, rfl, h⟩

/-- A computation whose result is dropped. -/
def void (x : Fallible s ε α) : Fallible s ε Unit := fun st => ((x st).1.map fun _ => (), (x st).2)

theorem void_eq {x : Fallible s ε α} {st st' : s} {res : Except ε Unit}
    (h : x.void st = (res, st')) : ∃ r, x st = (r, st') ∧ res = r.map fun _ => () := by
  cases h
  exact ⟨(x st).1, rfl, rfl⟩

@[simp]
theorem pure_apply (a : α) (st : s) : (pure a : Fallible s ε α) st = (.ok a, st) := rfl

@[simp]
theorem fail_apply (e : ε) (st : s) : (fail e : Fallible s ε α) st = (.error e, st) := rfl

@[simp]
theorem ofExcept_apply (r : Except ε α) (st : s) : ofExcept r st = (r, st) := rfl

@[simp]
theorem gets_apply (f : s → α) (st : s) : (gets f : Fallible s ε α) st = (.ok (f st), st) := rfl

@[simp]
theorem modify_apply (f : s → s) (st : s) : (modify f : Fallible s ε Unit) st = (.ok (), f st) := rfl

/-! ### Triples -/

/-- From a state where `P` holds, success ends where `Q` holds and failure where `E` does. -/
def Triple (P : s → Prop) (x : Fallible s ε α) (Q : α → s → Prop) (E : s → Prop) : Prop :=
  ∀ st, P st →
    match x st with
    | (.ok a, st') => Q a st'
    | (.error _, st') => E st'

variable {P : s → Prop} {E : s → Prop}

theorem Triple.ok {x : Fallible s ε α} {Q : α → s → Prop} (h : Triple P x Q E) {st st' : s} {a : α}
    (hst : P st) (heq : x st = (.ok a, st')) : Q a st' := by
  have := h st hst
  rwa [heq] at this

theorem Triple.error {x : Fallible s ε α} {Q : α → s → Prop} (h : Triple P x Q E) {st st' : s}
    {e : ε} (hst : P st) (heq : x st = (.error e, st')) : E st' := by
  have := h st hst
  rwa [heq] at this

theorem Triple.bind {x : Fallible s ε α} {f : α → Fallible s ε β} {R : α → s → Prop}
    {Q : β → s → Prop} (hx : Triple P x R E) (hf : ∀ a, Triple (R a) (f a) Q E) :
    Triple P (x >>= f) Q E := by
  intro st hst
  have hfirst := hx st hst
  rw [bind_apply]
  rcases hres : x st with ⟨e | a, st'⟩
  · rw [hres] at hfirst
    exact hfirst
  · rw [hres] at hfirst
    exact hf a st' hfirst

theorem Triple.pure {Q : α → s → Prop} {a : α} (h : ∀ st, P st → Q a st) :
    Triple P (Pure.pure a : Fallible s ε α) Q E := h

theorem Triple.fail {Q : α → s → Prop} {e : ε} (h : ∀ st, P st → E st) :
    Triple P (Fallible.fail e : Fallible s ε α) Q E := h

theorem Triple.ofExcept {Q : α → s → Prop} {r : Except ε α} (herror : ∀ st, P st → E st)
    (hok : ∀ a, r = .ok a → ∀ st, P st → Q a st) :
    Triple P (Fallible.ofExcept r : Fallible s ε α) Q E := by
  intro st hst
  cases r with
  | error e => exact herror st hst
  | ok a => exact hok a rfl st hst

theorem Triple.gets {Q : α → s → Prop} {f : s → α} (h : ∀ st, P st → Q (f st) st) :
    Triple P (Fallible.gets f : Fallible s ε α) Q E := h

theorem Triple.modify {Q : Unit → s → Prop} {f : s → s} (h : ∀ st, P st → Q () (f st)) :
    Triple P (Fallible.modify f : Fallible s ε Unit) Q E := h

theorem Triple.mono {x : Fallible s ε α} {P' : s → Prop} {Q Q' : α → s → Prop} {E' : s → Prop}
    (h : Triple P x Q E) (hpre : ∀ st, P' st → P st) (hpost : ∀ a st, Q a st → Q' a st)
    (herror : ∀ st, E st → E' st) : Triple P' x Q' E' := by
  intro st hst
  have hres := h st (hpre st hst)
  rcases heq : x st with ⟨e | a, st'⟩
  · rw [heq] at hres
    exact herror st' hres
  · rw [heq] at hres
    exact hpost a st' hres

/-- What holds of each start on its own may be assumed of the whole precondition. -/
theorem Triple.start {x : Fallible s ε α} {Q : α → s → Prop}
    (h : ∀ st, P st → Triple (fun st' => st' = st) x Q E) : Triple P x Q E :=
  fun st hst => h st hst st rfl

/-- A case split on what does not depend on the state. -/
theorem Triple.ite {c : Prop} [Decidable c] {x y : Fallible s ε α} {Q : α → s → Prop}
    (hx : c → Triple P x Q E) (hy : ¬ c → Triple P y Q E) :
    Triple P (if c then x else y) Q E := by
  split
  · rename_i h
    exact hx h
  · rename_i h
    exact hy h

end Fallible

end Softfig.Lib
