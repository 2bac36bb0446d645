import Mathlib.Logic.Function.Basic
import Softfig.Doc.Managed
import Softfig.Lib.History

/-!
The ping-pong detector: one nudge when two editors take turns on one target.

A target keeps the edits of its last window, at most sixteen of them. An edit trips when the
longest run of turns behind it has at least four edits and just two editors, so a third editor who
takes the turn before two begin to fight keeps the fight from being seen.

- `history_after`: what a target keeps after any run;
- `lastTrip_after`: the cooldown counts from the target's last alert;
- `record_only`: the other targets change nothing;
- `alert_iff`: an alert is as it should be but behind a third editor's turn.
-/

namespace Softfig.Growlight

open Doc (Text)
open Lib

/-! ### The detector -/

/-- A path and an optional heading. -/
abbrev Target := Text × Option Text

def minAlternations : Nat := 4

def maxHistory : Nat := 16

/-- An edit as a target keeps it, its time in Unix seconds. -/
structure Edit where
  editor : Text
  time : Int
  deriving DecidableEq

/-- A ping-pong, with its two editors in first-seen order. -/
structure Trip where
  path : Text
  heading : Option Text
  editors : List Text
  deriving DecidableEq

structure ThrashDetector where
  windowSecs : Int
  cooldownSecs : Int
  history : Target → List Edit
  lastTrip : Target → Option Int
  leaseFlagged : Target → Bool

/-- The editors of the run of turns at the end of a history, if it is long enough and there are
two. -/
def alternatingPair (hist : List Edit) : Option (List Text) :=
  if hist.length < minAlternations then none
  else
    let suffix := lastRun (fun a b => decide (a.editor ≠ b.editor)) hist
    if suffix.length < minAlternations then none
    else
      let order := firstSeen Edit.editor suffix
      if order.length = 2 then some order else none

namespace ThrashDetector

def withParams (windowSecs cooldownSecs : Int) : ThrashDetector :=
  ⟨windowSecs, cooldownSecs, fun _ => [], fun _ => none, fun _ => false⟩

/-- The defaults of the source. -/
def new : ThrashDetector := withParams 120 120

/-- Record one committed edit. -/
def record (d : ThrashDetector) (path : Text) (heading : Option Text) (editor : Text) (now : Int) :
    Option Trip × ThrashDetector :=
  let target : Target := (path, heading)
  let hist := capped maxHistory
    (windowed Edit.time (now - d.windowSecs) (d.history target ++ [⟨editor, now⟩]))
  let d := { d with history := Function.update d.history target hist }
  match alternatingPair hist with
  | none => (none, d)
  | some editors =>
    if (d.lastTrip target).any fun last => now - last < d.cooldownSecs then (none, d)
    else
      (some ⟨path, heading, editors⟩,
        { d with
          lastTrip := Function.update d.lastTrip target (some now)
          leaseFlagged := Function.update d.leaseFlagged target true })

def isLeaseFlagged (d : ThrashDetector) (path : Text) (heading : Option Text) : Bool :=
  d.leaseFlagged (path, heading)

/-- Clear a flag, and whether there was one. -/
def clearFlag (d : ThrashDetector) (path : Text) (heading : Option Text) : Bool × ThrashDetector :=
  (d.leaseFlagged (path, heading),
    { d with leaseFlagged := Function.update d.leaseFlagged (path, heading) false })

end ThrashDetector

/-! ### Runs -/

/-- An edit event. -/
structure EditEvent where
  path : Text
  heading : Option Text
  editor : Text
  now : Int
  deriving DecidableEq

namespace EditEvent

def target (e : EditEvent) : Target := (e.path, e.heading)

def edit (e : EditEvent) : Edit := ⟨e.editor, e.now⟩

end EditEvent

namespace ThrashDetector

def step (d : ThrashDetector) (e : EditEvent) : Option Trip × ThrashDetector :=
  d.record e.path e.heading e.editor e.now

def after (d : ThrashDetector) (events : List EditEvent) : ThrashDetector :=
  events.foldl (fun d e => (d.step e).2) d

/-- Whether an event raises an alert. -/
def alerts (d : ThrashDetector) (e : EditEvent) : Bool := (d.step e).1.isSome

/-- The times of the alerts a run raises for a target. -/
def alertTimes (d : ThrashDetector) (target : Target) : List EditEvent → List Int
  | [] => []
  | e :: events =>
    if e.target = target ∧ d.alerts e then e.now :: (d.step e).2.alertTimes target events
    else (d.step e).2.alertTimes target events

end ThrashDetector

/-- The edits of a target. -/
def editsOf (target : Target) (events : List EditEvent) : List Edit :=
  (events.filter fun e => e.target = target).map EditEvent.edit

/-! ### What an alert is for -/

/-- The times of the events do not decrease. -/
def Chronological (events : List EditEvent) : Prop := events.Pairwise fun a b => a.now ≤ b.now

/-- The edits of a target within the window that ends at the last of them. -/
def recent (windowSecs : Int) (target : Target) (now : Int) (events : List EditEvent) : List Edit :=
  windowed Edit.time (now - windowSecs) (editsOf target events)

/-- The recent edits end in turns between two distinct editors, enough of them. -/
def Thrashing (edits : List Edit) : Prop :=
  ∃ run, run <:+ edits ∧ minAlternations ≤ run.length ∧ PingPong Edit.editor run

/-- The target's alerts so far are past the cooldown. -/
def Cooled (d : ThrashDetector) (events : List EditEvent) (target : Target) (now : Int) : Prop :=
  ∀ last ∈ d.alertTimes target events, d.cooldownSecs ≤ now - last

/-- Among the edits kept, a third editor has the turn before the two that now take turns. -/
def BehindThird (edits : List Edit) : Prop :=
  ∃ third run, third :: run <:+ capped maxHistory edits ∧ minAlternations ≤ run.length ∧
    PingPong Edit.editor run ∧ ∀ a ∈ run, third.editor ≠ a.editor

/-! ### One step -/

namespace ThrashDetector

variable {d d' : ThrashDetector} {e : EditEvent} {target : Target} {events : List EditEvent}

/-- What the target of an event keeps after it. -/
def kept (d : ThrashDetector) (e : EditEvent) : List Edit :=
  capped maxHistory (windowed Edit.time (e.now - d.windowSecs) (d.history e.target ++ [e.edit]))

/-- The target's last alert is inside the cooldown. -/
def cooling (d : ThrashDetector) (e : EditEvent) : Bool :=
  (d.lastTrip e.target).any fun last => e.now - last < d.cooldownSecs

/-- What one event does. -/
theorem step_cases (d : ThrashDetector) (e : EditEvent) :
    (∃ editors, alternatingPair (d.kept e) = some editors ∧ d.cooling e = false ∧
      d.step e = (some ⟨e.path, e.heading, editors⟩,
        { d with
          history := Function.update d.history e.target (d.kept e)
          lastTrip := Function.update d.lastTrip e.target (some e.now)
          leaseFlagged := Function.update d.leaseFlagged e.target true })) ∨
    ((alternatingPair (d.kept e) = none ∨ d.cooling e = true) ∧
      d.step e = (none, { d with history := Function.update d.history e.target (d.kept e) })) := by
  have hstep : d.step e = match alternatingPair (d.kept e) with
      | none => (none, { d with history := Function.update d.history e.target (d.kept e) })
      | some editors =>
        if d.cooling e then
          (none, { d with history := Function.update d.history e.target (d.kept e) })
        else
          (some ⟨e.path, e.heading, editors⟩,
            { d with
              history := Function.update d.history e.target (d.kept e)
              lastTrip := Function.update d.lastTrip e.target (some e.now)
              leaseFlagged := Function.update d.leaseFlagged e.target true }) := rfl
  rw [hstep]
  cases hpair : alternatingPair (d.kept e) with
  | none => exact .inr ⟨.inl rfl, rfl⟩
  | some editors =>
    cases hcooling : d.cooling e with
    | true => exact .inr ⟨.inr rfl, rfl⟩
    | false => exact .inl ⟨editors, rfl, rfl, rfl⟩

theorem alerts_iff : d.alerts e = true ↔
    (alternatingPair (d.kept e)).isSome = true ∧ d.cooling e = false := by
  rw [alerts]
  rcases step_cases d e with ⟨editors, hpair, hcooling, hstep⟩ | ⟨hnone, hstep⟩
  · simp [hpair, hcooling, hstep]
  · rcases hnone with hnone | hcooling
    · simp [hnone, hstep]
    · simp [hcooling, hstep]

theorem step_params : (d.step e).2.windowSecs = d.windowSecs ∧
    (d.step e).2.cooldownSecs = d.cooldownSecs := by
  rcases step_cases d e with ⟨editors, -, -, hstep⟩ | ⟨-, hstep⟩
  · rw [hstep]
    exact ⟨rfl, rfl⟩
  · rw [hstep]
    exact ⟨rfl, rfl⟩

theorem step_history : (d.step e).2.history = Function.update d.history e.target (d.kept e) := by
  rcases step_cases d e with ⟨editors, -, -, hstep⟩ | ⟨-, hstep⟩
  · rw [hstep]
  · rw [hstep]

/-- An alert stamps its target and flags it, and nothing else does. -/
theorem step_stamps : (d.step e).2.lastTrip =
      (if d.alerts e then Function.update d.lastTrip e.target (some e.now) else d.lastTrip) ∧
    (d.step e).2.leaseFlagged =
      (if d.alerts e then Function.update d.leaseFlagged e.target true else d.leaseFlagged) := by
  rw [alerts]
  rcases step_cases d e with ⟨editors, -, -, hstep⟩ | ⟨-, hstep⟩
  · rw [hstep]
    exact ⟨rfl, rfl⟩
  · rw [hstep]
    exact ⟨rfl, rfl⟩

/-! ### One target -/

/-- Two detectors that hold the same of a target. -/
structure AgreesAt (target : Target) (d d' : ThrashDetector) : Prop where
  window : d.windowSecs = d'.windowSecs
  cooldown : d.cooldownSecs = d'.cooldownSecs
  history : d.history target = d'.history target
  lastTrip : d.lastTrip target = d'.lastTrip target

theorem AgreesAt.alerts (h : AgreesAt e.target d d') : d.alerts e = d'.alerts e := by
  have hkept : d.kept e = d'.kept e := by rw [kept, kept, h.window, h.history]
  have hcooling : d.cooling e = d'.cooling e := by rw [cooling, cooling, h.cooldown, h.lastTrip]
  rw [Bool.eq_iff_iff, alerts_iff, alerts_iff, hkept, hcooling]

theorem AgreesAt.step (h : AgreesAt e.target d d') :
    AgreesAt e.target (d.step e).2 (d'.step e).2 := by
  have hkept : d.kept e = d'.kept e := by rw [kept, kept, h.window, h.history]
  constructor
  · rw [step_params.1, step_params.1, h.window]
  · rw [step_params.2, step_params.2, h.cooldown]
  · rw [step_history, step_history, Function.update_self, Function.update_self, hkept]
  · rw [step_stamps.1, step_stamps.1, h.alerts]
    split
    · rw [Function.update_self, Function.update_self]
    · exact h.lastTrip

/-- An event of another target changes nothing. -/
theorem agreesAt_step (hne : e.target ≠ target) (h : AgreesAt target d d') :
    AgreesAt target (d.step e).2 d' := by
  constructor
  · rw [step_params.1, h.window]
  · rw [step_params.2, h.cooldown]
  · rw [step_history, Function.update_of_ne hne.symm, h.history]
  · rw [step_stamps.1]
    split
    · rw [Function.update_of_ne hne.symm, h.lastTrip]
    · exact h.lastTrip

/-- **The other targets change nothing.** -/
theorem agreesAt_after (events : List EditEvent) (h : AgreesAt target d d') :
    AgreesAt target (d.after events) (d'.after (events.filter fun e => e.target = target)) := by
  induction events generalizing d d' with
  | nil => exact h
  | cons e events ih =>
    by_cases heq : e.target = target
    · subst heq
      rw [List.filter_cons_of_pos (by simp)]
      exact ih h.step
    · rw [List.filter_cons_of_neg (by simpa using heq)]
      exact ih (agreesAt_step heq h)

theorem alerts_only (d : ThrashDetector) (past : List EditEvent) (e : EditEvent) :
    (d.after past).alerts e =
      (d.after (past.filter fun other => other.target = e.target)).alerts e :=
  (agreesAt_after past ⟨rfl, rfl, rfl, rfl⟩).alerts

/-! ### A run -/

theorem after_concat : d.after (events ++ [e]) = ((d.after events).step e).2 := List.foldl_append

theorem after_params : (d.after events).windowSecs = d.windowSecs ∧
    (d.after events).cooldownSecs = d.cooldownSecs := by
  induction events generalizing d with
  | nil => exact ⟨rfl, rfl⟩
  | cons e events ih =>
    obtain ⟨hwindow, hcooldown⟩ := @ih (d.step e).2
    exact ⟨hwindow.trans step_params.1, hcooldown.trans step_params.2⟩

theorem alertTimes_concat : d.alertTimes target (events ++ [e]) = d.alertTimes target events ++
    if e.target = target ∧ (d.after events).alerts e then [e.now] else [] := by
  induction events generalizing d with
  | nil => rfl
  | cons first events ih =>
    rw [List.cons_append, alertTimes, alertTimes, ih]
    split
    · rfl
    · rfl

theorem alertTimes_sublist :
    (d.alertTimes target events).Sublist (events.map EditEvent.now) := by
  induction events generalizing d with
  | nil => exact List.Sublist.slnil
  | cons e events ih =>
    rw [alertTimes]
    split
    · exact ih.cons_cons _
    · exact ih.cons _

/-- The cooldown counts from the last alert, and the flag is set by the first. -/
theorem stamps_after (windowSecs cooldownSecs : Int) (target : Target) (events : List EditEvent) :
    ((withParams windowSecs cooldownSecs).after events).lastTrip target =
        ((withParams windowSecs cooldownSecs).alertTimes target events).getLast? ∧
      ((withParams windowSecs cooldownSecs).after events).leaseFlagged target =
        !((withParams windowSecs cooldownSecs).alertTimes target events).isEmpty := by
  induction events using List.reverseRecOn with
  | nil => exact ⟨rfl, rfl⟩
  | append_singleton events e ih =>
    rw [after_concat, alertTimes_concat, step_stamps.1, step_stamps.2]
    by_cases halert : ((withParams windowSecs cooldownSecs).after events).alerts e = true
    · by_cases heq : e.target = target
      · subst heq
        simp [halert]
      · have hne : target ≠ e.target := fun h => heq h.symm
        simpa [halert, heq, hne] using ih
    · simpa [halert] using ih

end ThrashDetector

/-! ### What a target keeps -/

section histories

variable {windowSecs cooldownSecs : Int} {target : Target} {events past : List EditEvent}
  {e : EditEvent}

theorem editsOf_concat : editsOf target (events ++ [e]) =
    editsOf target events ++ if e.target = target then [e.edit] else [] := by
  rw [editsOf, List.filter_append, List.map_append]
  by_cases heq : e.target = target
  · rw [List.filter_cons_of_pos (by simpa using heq), if_pos heq]
    rfl
  · rw [List.filter_cons_of_neg (by simpa using heq), if_neg heq]
    rfl

theorem inOrder_editsOf (h : Chronological events) : InOrder Edit.time (editsOf target events) :=
  List.pairwise_map.mpr (h.sublist List.filter_sublist)

/-- **What a target keeps**: the last sixteen of the edits in the window of its last edit. -/
theorem history_after (windowSecs cooldownSecs : Int) (target : Target)
    (h : Chronological events) :
    ((ThrashDetector.withParams windowSecs cooldownSecs).after events).history target =
      match (editsOf target events).getLast? with
      | none => []
      | some last => capped maxHistory
          (windowed Edit.time (last.time - windowSecs) (editsOf target events)) := by
  induction events using List.reverseRecOn with
  | nil => rfl
  | append_singleton events e ih =>
    have hbefore := ih (h.sublist (List.sublist_append_left _ _))
    rw [ThrashDetector.after_concat, ThrashDetector.step_history, editsOf_concat]
    by_cases heq : e.target = target
    · subst heq
      have horder := @inOrder_editsOf e.target _ h
      rw [editsOf_concat, if_pos rfl] at horder
      rw [if_pos rfl, Function.update_self, List.getLast?_concat, ThrashDetector.kept, hbefore,
        ThrashDetector.after_params.1]
      cases hlast : (editsOf e.target events).getLast? with
      | none =>
        rw [List.getLast?_eq_none_iff.mp hlast]
        rfl
      | some last =>
        have hmem := List.mem_of_getLast? hlast
        have hle : last.time ≤ e.now := (List.pairwise_append.mp horder).2.2 last hmem e.edit
          List.mem_cons_self
        have hwindow : (windowed Edit.time (last.time - windowSecs)
            (editsOf e.target events)).Sublist (editsOf e.target events) :=
          windowed_sublist _ _
        have hsub := hwindow.append (List.Sublist.refl [e.edit])
        refine (capped_windowed_snoc (horder.sublist hsub)).trans ?_
        rw [windowed_append, windowed_windowed (by
          show last.time - windowSecs ≤ e.now - windowSecs
          omega), ← windowed_append]
        rfl
    · rw [if_neg heq, List.append_nil, Function.update_of_ne (fun h => heq h.symm), hbefore]

theorem kept_after (h : Chronological (past ++ [e])) :
    ((ThrashDetector.withParams windowSecs cooldownSecs).after past).kept e =
      capped maxHistory (recent windowSecs e.target e.now (past ++ [e])) := by
  have hhistory := history_after windowSecs cooldownSecs e.target h
  rw [ThrashDetector.after_concat, ThrashDetector.step_history, Function.update_self] at hhistory
  rw [hhistory, recent, editsOf_concat, if_pos rfl, List.getLast?_concat]
  rfl

/-- The cooldown since the last alert is the cooldown since all of them. -/
theorem cooling_after (h : Chronological (past ++ [e])) :
    ((ThrashDetector.withParams windowSecs cooldownSecs).after past).cooling e = false ↔
      Cooled (ThrashDetector.withParams windowSecs cooldownSecs) past e.target e.now := by
  have hsorted : ((ThrashDetector.withParams windowSecs cooldownSecs).alertTimes e.target past).Pairwise
      (· ≤ ·) := by
    have hpast : Chronological past := h.sublist (List.sublist_append_left _ _)
    exact (List.pairwise_map.mpr hpast).sublist ThrashDetector.alertTimes_sublist
  rw [ThrashDetector.cooling, (ThrashDetector.stamps_after ..).1, ThrashDetector.after_params.2,
    Option.any_eq_false, Cooled]
  rcases List.eq_nil_or_concat ((ThrashDetector.withParams windowSecs cooldownSecs).alertTimes
    e.target past) with hnil | ⟨front, last, hconcat⟩
  · simp [hnil]
  · rw [hconcat, List.concat_eq_append] at hsorted ⊢
    rw [List.getLast?_concat]
    have hfront := (List.pairwise_append.mp hsorted).2.2
    constructor
    · intro hlast time hmem
      have hcool := hlast last rfl
      rw [decide_eq_false_iff_not, Int.not_lt] at hcool
      rcases List.mem_append.mp hmem with hmem | hmem
      · have hle := hfront time hmem last List.mem_cons_self
        omega
      · rwa [List.mem_singleton.mp hmem]
    · rintro hall _ ⟨⟩
      rw [decide_eq_false_iff_not, Int.not_lt]
      exact hall last (List.mem_append_right _ List.mem_cons_self)

end histories

/-! ### When an alert is raised -/

section verdicts

variable {edits : List Edit}

theorem alternatingPair_isSome_iff (hist : List Edit) : (alternatingPair hist).isSome = true ↔
    minAlternations ≤ (lastRun (fun a b => decide (a.editor ≠ b.editor)) hist).length ∧
      PingPong Edit.editor (lastRun (fun a b => decide (a.editor ≠ b.editor)) hist) := by
  have hle := (lastRun_suffix (fun a b => decide (a.editor ≠ b.editor)) hist).length_le
  have hturns : (lastRun (fun a b => decide (a.editor ≠ b.editor)) hist).IsChain
      fun a b => a.editor ≠ b.editor :=
    (isChain_lastRun _ hist).imp fun _ _ h => of_decide_eq_true h
  unfold alternatingPair
  dsimp only
  split
  · rename_i hshort
    constructor
    · intro h
      cases h
    · rintro ⟨hlong, -⟩
      omega
  · split
    · rename_i hshort
      constructor
      · intro h
        cases h
      · rintro ⟨hlong, -⟩
        omega
    · rename_i hlong
      have htwo := length_firstSeen_iff hturns (by unfold minAlternations at hlong; omega)
      rw [← htwo]
      split
      · rename_i hlength
        exact ⟨fun _ => ⟨Nat.le_of_not_lt hlong, hlength⟩, fun _ => rfl⟩
      · rename_i hlength
        constructor
        · intro h
          cases h
        · rintro ⟨-, h⟩
          exact absurd h hlength

/-- A third value before two in turn is a run of three. -/
theorem not_pingPong_third {third : Edit} {run : List Edit}
    (hlong : minAlternations ≤ run.length) (hthird : ∀ a ∈ run, third.editor ≠ a.editor) :
    ¬PingPong Edit.editor (third :: run) := by
  intro h
  match run, hlong with
  | a :: b :: rest, _ =>
    have hne : a.editor ≠ b.editor := h.turns.tail.rel
    obtain ⟨-, htwo⟩ := h.mem_iff
    rcases htwo b (List.mem_cons_of_mem _ (List.mem_cons_of_mem _ List.mem_cons_self)) with hb | hb
    · exact hthird b (List.mem_cons_of_mem _ List.mem_cons_self) hb.symm
    · exact hne hb.symm

/-- **The run that is looked at** is between two editors exactly if the recent edits end in one and
no third editor has the turn before it. -/
theorem alternatingPair_capped_iff :
    (alternatingPair (capped maxHistory edits)).isSome = true ↔
      Thrashing edits ∧ ¬BehindThird edits := by
  rw [alternatingPair_isSome_iff]
  have hlastRun := lastRun_suffix (fun a b => decide (a.editor ≠ b.editor)) (capped maxHistory edits)
  constructor
  · rintro ⟨hlong, hpair⟩
    refine ⟨⟨_, hlastRun.trans (List.drop_suffix _ _), hlong, hpair⟩, ?_⟩
    rintro ⟨third, run, hrun, hlong', hpair', hthird⟩
    refine not_pingPong_third hlong' hthird (hpair.suffix (suffix_lastRun hrun ?_))
    refine (hpair'.turns.imp fun _ _ h => decide_eq_true h).cons fun a ha => decide_eq_true ?_
    exact hthird a (List.mem_of_mem_head? ha)
  · rintro ⟨⟨run, hrun, hlong, hpair⟩, hthird⟩
    have hfour : (capped minAlternations run).length = minAlternations := by
      rw [capped, List.length_drop]
      omega
    have hsuffix : capped minAlternations run <:+ run := List.drop_suffix _ _
    have hshort := hpair.suffix hsuffix
    have hkept : capped minAlternations run <:+ capped maxHistory edits :=
      suffix_capped (hsuffix.trans hrun) (by rw [hfour]; decide)
    have hlast := suffix_lastRun hkept (hshort.turns.imp fun _ _ h => decide_eq_true h)
    have hturns := (isChain_lastRun (fun a b => decide (a.editor ≠ b.editor))
      (capped maxHistory edits)).imp fun _ _ h => of_decide_eq_true h
    rcases pingPong_or_third hturns hlast hshort (by rw [hfour]; decide) with hall |
      ⟨third, rest, hrest, hinside, hpair', hthird'⟩
    · refine ⟨?_, hall⟩
      rw [← hfour]
      exact hlast.length_le
    · refine absurd ⟨third, rest, hrest.trans hlastRun, ?_, hpair', hthird'⟩ hthird
      rw [← hfour]
      exact hinside.length_le

/-- An event after others raises an alert exactly if the recent edits of its target end in turns
between two editors and the target's alerts are past the cooldown; and the events of other targets
do not matter. -/
def AlertsExactly (windowSecs cooldownSecs : Int) (past : List EditEvent) (e : EditEvent) : Prop :=
  let start := ThrashDetector.withParams windowSecs cooldownSecs
  ((start.after past).alerts e = true ↔
    Thrashing (recent windowSecs e.target e.now (past ++ [e])) ∧
      Cooled start past e.target e.now) ∧
  (start.after past).alerts e =
    (start.after (past.filter fun other => other.target = e.target)).alerts e

/-- **An alert is as it should be** exactly if no third editor had the turn before a fight that is
due for one. -/
theorem alert_iff (windowSecs cooldownSecs : Int) (past : List EditEvent) (e : EditEvent)
    (h : Chronological (past ++ [e])) :
    AlertsExactly windowSecs cooldownSecs past e ↔
      ¬(Thrashing (recent windowSecs e.target e.now (past ++ [e])) ∧
        Cooled (ThrashDetector.withParams windowSecs cooldownSecs) past e.target e.now ∧
        BehindThird (recent windowSecs e.target e.now (past ++ [e]))) := by
  have honly := (ThrashDetector.withParams windowSecs cooldownSecs).alerts_only past e
  have halerts := @ThrashDetector.alerts_iff
    ((ThrashDetector.withParams windowSecs cooldownSecs).after past) e
  rw [kept_after h, alternatingPair_capped_iff, cooling_after h] at halerts
  unfold AlertsExactly
  simp only [honly, and_true]
  rw [← honly, halerts]
  tauto

/-- A third editor, and then two in turn: the fourth turn raises no alert. -/
theorem not_alertsExactly_third : ¬∀ (windowSecs cooldownSecs : Int) (past : List EditEvent)
    (e : EditEvent), Chronological (past ++ [e]) → AlertsExactly windowSecs cooldownSecs past e := by
  intro h
  have hexact := h 120 120 [⟨['p'], none, ['c'], 0⟩, ⟨['p'], none, ['a'], 1⟩,
    ⟨['p'], none, ['b'], 2⟩, ⟨['p'], none, ['a'], 3⟩] ⟨['p'], none, ['b'], 4⟩
    (by unfold Chronological; decide)
  have hquiet : ¬((ThrashDetector.withParams 120 120).after [⟨['p'], none, ['c'], 0⟩,
      ⟨['p'], none, ['a'], 1⟩, ⟨['p'], none, ['b'], 2⟩, ⟨['p'], none, ['a'], 3⟩]).alerts
        ⟨['p'], none, ['b'], 4⟩ = true := by decide
  refine hquiet (hexact.1.mpr ⟨⟨[⟨['a'], 1⟩, ⟨['b'], 2⟩, ⟨['a'], 3⟩, ⟨['b'], 4⟩], ?_, ?_, ?_, ?_⟩, ?_⟩)
  · exact ⟨[⟨['c'], 0⟩], by decide⟩
  · decide
  · decide
  · exact ⟨['a'], ['b'], by decide⟩
  · unfold Cooled
    decide

theorem alertsExactly_fourth : AlertsExactly 120 120 [⟨['p'], none, ['a'], 1⟩,
    ⟨['p'], none, ['b'], 2⟩, ⟨['p'], none, ['a'], 3⟩] ⟨['p'], none, ['b'], 4⟩ := by
  refine (alert_iff _ _ _ _ (by unfold Chronological; decide)).mpr ?_
  rintro ⟨-, -, third, run, hrun, hlong, -⟩
  have hle := hrun.length_le
  have hfour : (capped maxHistory (recent 120 (['p'], none) 4 ([⟨['p'], none, ['a'], 1⟩,
    ⟨['p'], none, ['b'], 2⟩, ⟨['p'], none, ['a'], 3⟩] ++ [⟨['p'], none, ['b'], 4⟩]))).length =
      minAlternations := by decide
  rw [List.length_cons] at hle
  exact absurd (hle.trans_eq hfour) (by omega)

end verdicts

end Softfig.Growlight
