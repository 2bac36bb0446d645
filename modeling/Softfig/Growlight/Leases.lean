import Mathlib.Logic.Function.Basic
import Softfig.Doc.Managed

/-!
Leases, and the restarts that take one while they are under way.

A key has a holder and those who wait behind it: one line. A restart takes the lease of its target,
kills outside the lock, and drains the lease in a second critical section.

- `request_eq`, `release_eq`, `drain_eq`: the table is a table of lines;
- `leases_in_turn`: over every run agents leave a line in the order they joined it;
- `restarts_apart`: a restart key is held for the one restart that is under way.
-/

namespace Softfig.Growlight.Leases

open Function (update)
open Softfig.Doc (Text)

/-! ### The table -/

structure Lease where
  holder : Text
  waiters : List Text

inductive LeaseDecision where
  | granted
  | queued (position : Nat)

inductive ReleaseOutcome where
  | released (nextHolder : Option Text)
  | notHolder

inductive DrainOutcome where
  | drained (discarded : List Text)
  | notHolder

/-- `held`, by key. -/
abbrev LeaseTable := Text → Option Lease

namespace LeaseTable

variable (table : LeaseTable) (key agent : Text)

def request : LeaseDecision × LeaseTable :=
  match table key with
  | none => (.granted, update table key (some ⟨agent, []⟩))
  | some lease =>
    if lease.holder = agent then (.granted, table)
    else match lease.waiters.idxOf? agent with
      | some pos => (.queued (pos + 1), table)
      | none =>
        let waiters := lease.waiters ++ [agent]
        (.queued waiters.length, update table key (some { lease with waiters }))

def release : ReleaseOutcome × LeaseTable :=
  match table key with
  | none => (.notHolder, table)
  | some lease =>
    if lease.holder = agent then
      match lease.waiters with
      | next :: waiters => (.released (some next), update table key (some ⟨next, waiters⟩))
      | [] => (.released none, update table key none)
    else (.notHolder, table)

def drain : DrainOutcome × LeaseTable :=
  match table key with
  | none => (.notHolder, table)
  | some lease =>
    if lease.holder = agent then (.drained lease.waiters, update table key none)
    else (.notHolder, table)

def holder : Option Text := (table key).map Lease.holder

/-- The holder and those behind it. -/
def line : List Text :=
  match table key with
  | none => []
  | some lease => lease.holder :: lease.waiters

end LeaseTable

/-- The end of a line, unless in it. -/
def join (line : List Text) (agent : Text) : List Text :=
  if agent ∈ line then line else line ++ [agent]

/-- The answer to one at this place of a line. -/
def LeaseDecision.ofPlace : Nat → LeaseDecision
  | 0 => .granted
  | place + 1 => .queued (place + 1)

section

variable (table : LeaseTable) (key agent : Text)

@[simp]
theorem line_update (lease : Option Lease) :
    LeaseTable.line (update table key lease) = update table.line key
      (match lease with
        | none => []
        | some lease => lease.holder :: lease.waiters) := by
  funext k
  by_cases hk : k = key
  · subst hk
    simp [LeaseTable.line]
  · simp [LeaseTable.line, hk]

theorem head?_line : (table.line key).head? = table.holder key := by
  unfold LeaseTable.line LeaseTable.holder
  cases table key <;> rfl

theorem line_of_none (h : table key = none) : table.line key = [] := by
  rw [LeaseTable.line, h]

theorem line_of_some {lease : Lease} (h : table key = some lease) :
    table.line key = lease.holder :: lease.waiters ∧
      update table.line key (lease.holder :: lease.waiters) = table.line := by
  have hline : table.line key = lease.holder :: lease.waiters := by rw [LeaseTable.line, h]
  exact ⟨hline, hline ▸ Function.update_eq_self _ _⟩

/-- A request joins the line, and is told how many are ahead. -/
theorem request_eq :
    (table.request key agent).2.line = update table.line key (join (table.line key) agent) ∧
    (table.request key agent).1 = .ofPlace ((join (table.line key) agent).idxOf agent) := by
  unfold LeaseTable.request
  cases h : table key with
  | none => simp [line_of_none table key h, join, LeaseDecision.ofPlace]
  | some lease =>
    obtain ⟨hline, hsame⟩ := line_of_some table key h
    by_cases hholder : lease.holder = agent
    · subst hholder
      simp [hline, hsame, join, LeaseDecision.ofPlace]
    · have hne : agent ≠ lease.holder := Ne.symm hholder
      by_cases hmem : agent ∈ lease.waiters
      · have hplace : lease.waiters.idxOf? agent = some (lease.waiters.idxOf agent) :=
          List.findIdx?_eq_some_iff_findIdx_eq.mpr ⟨List.idxOf_lt_length_of_mem hmem, rfl⟩
        simp [hline, hsame, join, hholder, hmem, hplace, LeaseDecision.ofPlace]
      · have hplace : lease.waiters.idxOf? agent = none := by simpa using hmem
        simp [hline, join, hholder, hne, hmem, hplace, List.idxOf_append, LeaseDecision.ofPlace]

/-- A release by the holder takes it out of the line. -/
theorem release_eq : (table.release key agent).2.line = update table.line key
    (if (table.line key).head? = some agent then (table.line key).tail else table.line key) := by
  unfold LeaseTable.release
  cases h : table key with
  | none => simp [line_of_none table key h]
  | some lease =>
    obtain ⟨hline, hsame⟩ := line_of_some table key h
    by_cases hholder : lease.holder = agent
    · cases hwaiters : lease.waiters <;> simp [hline, hholder, hwaiters]
    · simp [hline, hsame, hholder]

/-- A drain by the holder takes all out. -/
theorem drain_eq : (table.drain key agent).2.line = update table.line key
    (if (table.line key).head? = some agent then [] else table.line key) := by
  unfold LeaseTable.drain
  cases h : table key with
  | none => simp [line_of_none table key h]
  | some lease =>
    obtain ⟨hline, hsame⟩ := line_of_some table key h
    by_cases hholder : lease.holder = agent
    · simp [hline, hholder]
    · simp [hline, hsame, hholder]

end

/-! ### Lines over a run -/

inductive Call where
  | request (key agent : Text)
  | release (key agent : Text)
  | drain (key agent : Text)

namespace LeaseTable

variable (table : LeaseTable) (key : Text)

def apply : Call → LeaseTable
  | .request key agent => (table.request key agent).2
  | .release key agent => (table.release key agent).2
  | .drain key agent => (table.drain key agent).2

/-- Who joins the line of a key. -/
def joins : Call → List Text
  | .request k agent => if k = key ∧ agent ∉ table.line key then [agent] else []
  | _ => []

/-- Who leaves it: the holder, and with a drain all. -/
def leaves : Call → List Text
  | .request _ _ => []
  | .release k agent => if k = key ∧ (table.line key).head? = some agent then [agent] else []
  | .drain k agent => if k = key ∧ (table.line key).head? = some agent then table.line key else []

def joined : LeaseTable → List Call → List Text
  | _, [] => []
  | table, c :: calls => table.joins key c ++ joined (table.apply c) calls

def left : LeaseTable → List Call → List Text
  | _, [] => []
  | table, c :: calls => table.leaves key c ++ left (table.apply c) calls

end LeaseTable

section

variable (table : LeaseTable) (key : Text)

/-- **One call**: what joins a line comes last, and what leaves it was first. -/
theorem line_apply (c : Call) : table.line key ++ table.joins key c =
    table.leaves key c ++ (table.apply c).line key := by
  cases c with
  | request k agent =>
    simp only [LeaseTable.joins, LeaseTable.leaves, LeaseTable.apply, (request_eq table k agent).1]
    by_cases hk : k = key
    · subst hk
      by_cases hmem : agent ∈ table.line k <;> simp [join, hmem]
    · simp [hk, Ne.symm hk]
  | release k agent =>
    simp only [LeaseTable.joins, LeaseTable.leaves, LeaseTable.apply, release_eq]
    by_cases hk : k = key
    · subst hk
      cases hline : table.line k with
      | nil => simp
      | cons first rest => by_cases hfirst : first = agent <;> simp [hfirst]
    · simp [hk, Ne.symm hk]
  | drain k agent =>
    simp only [LeaseTable.joins, LeaseTable.leaves, LeaseTable.apply, drain_eq]
    by_cases hk : k = key
    · subst hk
      by_cases hfirst : (table.line k).head? = some agent <;> simp [hfirst]
    · simp [hk, Ne.symm hk]

theorem nodup_apply (h : (table.line key).Nodup) (c : Call) :
    ((table.apply c).line key).Nodup := by
  have hall : (table.line key ++ table.joins key c).Nodup := by
    cases c with
    | request k agent =>
      simp only [LeaseTable.joins]
      split_ifs with hnew
      · simpa using h.concat hnew.2
      · simpa using h
    | release k agent => simpa [LeaseTable.joins] using h
    | drain k agent => simpa [LeaseTable.joins] using h
  rw [line_apply] at hall
  exact (List.nodup_append.mp hall).2.1

/-- **Leases go in turn.** In every run, between any two moments of it: those in the line of a key
and those that then join it are, in this order, those that leave it and those still in it. No agent
is twice in a line, and a request is answered with how many are ahead. -/
theorem leases_in_turn (before after : List Call) (key agent : Text) :
    let table := before.foldl LeaseTable.apply fun _ => none
    table.line key ++ table.joined key after =
        table.left key after ++ (after.foldl LeaseTable.apply table).line key ∧
      (table.line key).Nodup ∧
      (table.request key agent).1 =
        .ofPlace (((table.request key agent).2.line key).idxOf agent) := by
  refine ⟨?_, ?_, ?_⟩
  · generalize before.foldl LeaseTable.apply _ = table
    induction after generalizing table with
    | nil => simp [LeaseTable.joined, LeaseTable.left]
    | cons c after ih =>
      rw [LeaseTable.joined, LeaseTable.left, ← List.append_assoc, line_apply, List.append_assoc,
        List.append_assoc, ih]
      rfl
  · induction before using List.reverseRecOn with
    | nil => exact List.nodup_nil
    | append_singleton before c ih =>
      rw [List.foldl_append]
      exact nodup_apply _ key ih c
  · rw [(request_eq _ key agent).1, (request_eq _ key agent).2, Function.update_self]

end

/-! ### Restarts -/

/-- The table, and the restarts between their grant and their drain. -/
structure Daemon where
  leases : LeaseTable := fun _ => none
  restarting : List (Text × Text) := []

/-- What one connection does under the lock; a restart that is granted comes back to finish. -/
inductive Section where
  | requestLease (agent key : Text)
  | releaseLease (agent key : Text)
  | requestRestart (requester target : Text)
  | finishRestart (requester target : Text)

def restartKey (target : Text) : Text := "restart:".toList ++ target

def Daemon.step (d : Daemon) : Section → Daemon
  | .requestLease agent key => { d with leases := (d.leases.request key agent).2 }
  | .releaseLease agent key => { d with leases := (d.leases.release key agent).2 }
  | .requestRestart requester target =>
    if requester = target then d
    else match d.leases.request (restartKey target) requester with
      | (.granted, leases) => ⟨leases, (requester, target) :: d.restarting⟩
      | (.queued _, leases) => { d with leases }
  | .finishRestart requester target =>
    if (requester, target) ∈ d.restarting then
      { leases := (d.leases.drain (restartKey target) requester).2
        restarting := d.restarting.erase (requester, target) }
    else d

/-- No lease of a restart is asked for or given back on its own, and an agent that restarts another
waits for the answer before it asks again. -/
def Orderly (d : Daemon) : Section → Prop
  | .requestLease _ key | .releaseLease _ key => ∀ target, key ≠ restartKey target
  | .requestRestart requester target => (requester, target) ∉ d.restarting
  | .finishRestart _ _ => True

def AllOrderly : Daemon → List Section → Prop
  | _, [] => True
  | d, s :: sections => Orderly d s ∧ AllOrderly (d.step s) sections

/-- The holders of the restart keys are the restarts under way. -/
structure Apart (d : Daemon) : Prop where
  once : d.restarting.Nodup
  held : ∀ requester target, d.leases.holder (restartKey target) = some requester ↔
    (requester, target) ∈ d.restarting

section

variable {d : Daemon}

@[simp]
theorem restartKey_inj {target target' : Text} :
    restartKey target = restartKey target' ↔ target = target' := List.append_right_inj _

theorem holder_request (table : LeaseTable) (key agent k : Text) :
    (table.request key agent).2.holder k =
      if k = key then some ((table.holder key).getD agent) else table.holder k := by
  rw [← head?_line, ← head?_line, ← head?_line, (request_eq table key agent).1]
  split_ifs with hk
  · subst hk
    unfold join
    split_ifs <;> cases hline : table.line k <;> simp_all
  · rw [Function.update_of_ne hk]

theorem holder_drain (table : LeaseTable) (key agent k : Text) :
    (table.drain key agent).2.holder k =
      if k = key ∧ table.holder key = some agent then none else table.holder k := by
  rw [← head?_line, ← head?_line, ← head?_line, drain_eq]
  by_cases hk : k = key
  · subst hk
    by_cases hfirst : (table.line k).head? = some agent <;> simp [hfirst]
  · simp [hk]

theorem Apart.step (h : Apart d) {s : Section} (hs : Orderly d s) : Apart (d.step s) := by
  cases s with
  | requestLease agent key =>
    refine ⟨h.once, fun r t => (Iff.of_eq ?_).trans (h.held r t)⟩
    simp only [Daemon.step, holder_request, if_neg (hs t).symm]
  | releaseLease agent key =>
    refine ⟨h.once, fun r t => (Iff.of_eq ?_).trans (h.held r t)⟩
    simp only [Daemon.step, ← head?_line, release_eq, Function.update_of_ne (hs t).symm]
  | requestRestart requester target =>
    have hnew : (requester, target) ∉ d.restarting := hs
    by_cases hself : requester = target
    · rwa [Daemon.step, if_pos hself]
    cases hlease : d.leases (restartKey target) with
    | none =>
      have hfree : d.leases.holder (restartKey target) = none := by
        rw [LeaseTable.holder, hlease, Option.map_none]
      have hstep : d.step (.requestRestart requester target) =
          ⟨(d.leases.request (restartKey target) requester).2,
            (requester, target) :: d.restarting⟩ := by
        simp [Daemon.step, LeaseTable.request, hself, hlease]
      rw [hstep]
      refine ⟨List.nodup_cons.mpr ⟨hnew, h.once⟩, fun r t => ?_⟩
      rw [holder_request, hfree, List.mem_cons, ← h.held r t]
      by_cases ht : t = target
      · subst ht
        simp [hfree, eq_comm]
      · simp [ht]
    | some lease =>
      -- another restart of the target is under way, and this one is turned away
      have hheld : d.leases.holder (restartKey target) = some lease.holder := by
        rw [LeaseTable.holder, hlease, Option.map_some]
      have hne : lease.holder ≠ requester := by
        rintro rfl
        exact hnew ((h.held _ _).mp hheld)
      have hstep : d.step (.requestRestart requester target) =
          { d with leases := (d.leases.request (restartKey target) requester).2 } := by
        simp only [Daemon.step, LeaseTable.request, if_neg hself, hlease, if_neg hne]
        cases lease.waiters.idxOf? requester <;> rfl
      rw [hstep]
      refine ⟨h.once, fun r t => (Iff.of_eq ?_).trans (h.held r t)⟩
      rw [holder_request, hheld]
      split_ifs with hkey
      · rw [hkey, hheld]
        rfl
      · rfl
  | finishRestart requester target =>
    by_cases hunder : (requester, target) ∈ d.restarting
    · have hheld := (h.held _ _).mpr hunder
      simp only [Daemon.step, hunder, if_true]
      refine ⟨h.once.erase _, fun r t => ?_⟩
      rw [h.once.mem_erase_iff, ← h.held r t, holder_drain]
      by_cases ht : t = target
      · subst ht
        simp [hheld, eq_comm]
      · simp [ht]
    · rwa [Daemon.step, if_neg hunder]

/-- **Restarts keep apart.** In every orderly run the restart key of a target is held by an agent if
and only if that agent's restart of the target is under way: never two of one target at once, a
drain that never fails, and a key that is free again behind the last. -/
theorem restarts_apart (sections : List Section) (h : AllOrderly {} sections) :
    Apart (sections.foldl Daemon.step {}) := by
  have hstart : Apart {} := ⟨List.nodup_nil, fun r t => by simp [LeaseTable.holder]⟩
  generalize ({} : Daemon) = d at h hstart ⊢
  induction sections generalizing d with
  | nil => exact hstart
  | cons s sections ih => exact ih (d.step s) h.2 (hstart.step h.1)

end

/-- Two agents restart one: the second is turned away, and may ask again behind the first. -/
theorem restarts_apart_twice : Apart ([.requestRestart ['a'] ['b'], .requestRestart ['c'] ['b'],
    .finishRestart ['a'] ['b'], .requestRestart ['c'] ['b']].foldl Daemon.step {}) := by
  refine restarts_apart _ ⟨?_, ?_, trivial, ?_, trivial⟩ <;>
  · simp only [Orderly]
    decide

/-- Given back on its own, the key goes to an agent that no longer waits. -/
example : ([.requestRestart ['a'] ['b'], .requestRestart ['c'] ['b'],
    .releaseLease ['a'] (restartKey ['b']), .finishRestart ['a'] ['b']].foldl Daemon.step
    {}).leases.holder (restartKey ['b']) = some ['c'] := by
  decide

end Softfig.Growlight.Leases
