import Mathlib.Data.Fintype.Basic
import Softfig.Lib.Transition
import Softfig.Vcs.Chain
import Softfig.Watcher.Accumulator

/-!
Pushes, polls and flushes of the accumulator, with every section that holds a lock as one step.

A thread is a source, a driver, or both. A source files a change and then owes its nudge, or the
flush at the end of its batch. A driver consumes a nudge or a retry deadline, takes the buffer, and
commits what it took while it holds the daemon's lock: it captures the snapshots, advances the refs
of the chains that own a touched path, and either puts back what failed and arms the deadline, or
clears the deadline.
-/

namespace Softfig.Watcher

open Softfig.Lib
open Softfig.Vcs (ChainRegistry tipRef)

inductive State where
  | locked
  | unlocked
  | stopping
  deriving DecidableEq

/-- What a flush reads of the daemon; the registry is that of the mount. -/
structure DaemonInner where
  state : State
  session : Bool
  repo : Bool
  fuse : Option ChainRegistry

/-! ### Chains -/

/-- The ref of the chain that owns a path; without a mount there is the device chain only. -/
def refOf (router : Option ChainRegistry) (path : String) : String :=
  match router with
  | some registry => (registry.owningChain (.parse path)).refName
  | none => tipRef

/-- The refs a flush commits: those of the chains that own a touched path. -/
def affectedRefs (router : Option ChainRegistry) (d : DirtySet) : List String :=
  match router with
  | some registry =>
    (registry.enabledChains.map (·.refName)).filter (· ∈ d.allPaths.map (refOf router))
  | none => [tipRef]

/-- How the parts of a commit turn out. -/
structure Outcomes where
  gate : String → Bool
  priorTip : Bool
  promoted : Bool
  intentBuilt : Bool
  commits : String → Bool

/-- What a flush does after its commits. -/
inductive Verdict where
  | refileAll
  | finished (landed failed : List String)

/-- Whether the device chain lands; `none` where the flush gives up before. -/
def Outcomes.deviceLands (o : Outcomes) (classified : Classified) : Option Bool :=
  if !o.priorTip then none
  else if !(classified.isManualEdit && o.promoted) && !o.intentBuilt then none
  else some (o.commits tipRef)

def Outcomes.sharedLands (o : Outcomes) (refName : String) : Bool :=
  o.gate refName && o.intentBuilt && o.commits refName

def Outcomes.commitAll (o : Outcomes) (classified : Classified) (refs : List String) : Verdict :=
  let shared := refs.filter (· ≠ tipRef)
  let landed := shared.filter o.sharedLands
  let failed := shared.filter fun r => !o.sharedLands r
  if tipRef ∈ refs then
    match o.deviceLands classified with
    | none => .refileAll
    | some true => .finished (tipRef :: landed) failed
    | some false => .finished landed (tipRef :: failed)
  else .finished landed failed

/-- Every ref of a commit lands or fails. -/
theorem Outcomes.mem_of_commitAll {o : Outcomes} {classified : Classified} {refs : List String}
    {landed failed : List String} (h : o.commitAll classified refs = .finished landed failed)
    {r : String} (hr : r ∈ refs) : r ∈ landed ∨ r ∈ failed := by
  have hshared : r ≠ tipRef → r ∈ (refs.filter (· ≠ tipRef)).filter o.sharedLands ∨
      r ∈ (refs.filter (· ≠ tipRef)).filter fun r => !o.sharedLands r := by
    intro hne
    have hmem : r ∈ refs.filter (· ≠ tipRef) := List.mem_filter.mpr ⟨hr, by simpa using hne⟩
    cases hlands : o.sharedLands r with
    | true => exact .inl (List.mem_filter.mpr ⟨hmem, hlands⟩)
    | false => exact .inr (List.mem_filter.mpr ⟨hmem, by rw [hlands]; rfl⟩)
  unfold commitAll at h
  dsimp only at h
  split_ifs at h with htip
  · split at h
    · cases h
    · cases h
      by_cases hne : r = tipRef
      · exact .inl (hne ▸ List.mem_cons_self)
      · exact (hshared hne).imp_left (List.mem_cons_of_mem _)
    · cases h
      by_cases hne : r = tipRef
      · exact .inr (hne ▸ List.mem_cons_self)
      · exact (hshared hne).imp_right (List.mem_cons_of_mem _)
  · cases h
    exact hshared fun hne => htip (hne ▸ hr)

/-- The owner of a touched path is committed. -/
theorem refOf_mem_affectedRefs {router : Option ChainRegistry} {d : DirtySet} {path : String}
    (h : path ∈ d.allPaths) : refOf router path ∈ affectedRefs router d := by
  cases router with
  | none => exact List.mem_singleton_self _
  | some registry =>
    refine List.mem_filter.mpr ⟨?_, decide_eq_true (List.mem_map_of_mem h)⟩
    exact List.mem_map_of_mem (registry.owningChain_mem _)

/-! ### Threads -/

variable {ι : Type} [DecidableEq ι]

/-- How far a source or a driver is. -/
inductive Thread (ι : Type) where
  | idle
  /-- has filed a change and owes the nudge -/
  | nudging (sink : ι)
  /-- has filed changes of a batch and owes the flush -/
  | filing
  /-- between the two polls of a driver -/
  | polling (nudgeDue : Bool)
  | flushing
  | drained (dirty : DirtySet)
  | entered (dirty : DirtySet)
  | captured (dirty : DirtySet) (router : Option ChainRegistry) (stamp : Nat)
  | refiling (events : List DirtyEvent)
  | arming
  | clearing
  | ended

namespace Thread

/-- A trigger: a flush follows without another change. -/
def willFlush : Thread ι → Bool
  | nudging _ => true
  | filing => true
  | polling nudgeDue => nudgeDue
  | flushing => true
  | _ => false

def isArming : Thread ι → Bool
  | arming => true
  | _ => false

def isEnded : Thread ι → Bool
  | ended => true
  | _ => false

def nudges (sink : ι) : Thread ι → Bool
  | nudging s => s = sink
  | _ => false

/-- The flush of the thread has taken the buffer and put nothing back. -/
def inFlight : Thread ι → Bool
  | drained _ => true
  | entered _ => true
  | captured .. => true
  | refiling _ => true
  | clearing => true
  | _ => false

end Thread

/-- A change that was accepted, and when. -/
structure Accepted where
  change : Change
  stamp : Nat

/-- The flush of the thread holds the change, and its snapshot is not older. -/
def Thread.Holds (a : Accepted) : Thread ι → Prop
  | drained dirty => dirty.Keeps a.change
  | entered dirty => dirty.Keeps a.change
  | captured dirty _ stamp => dirty.Keeps a.change ∧ a.stamp < stamp
  | refiling events => (Buffer.empty.requeue events).Keeps a.change
  | _ => False

instance (a : Accepted) : (t : Thread ι) → Decidable (t.Holds a)
  | .drained dirty => inferInstanceAs (Decidable (dirty.Keeps a.change))
  | .entered dirty => inferInstanceAs (Decidable (dirty.Keeps a.change))
  | .captured dirty _ stamp => inferInstanceAs (Decidable (dirty.Keeps a.change ∧ a.stamp < stamp))
  | .refiling events => inferInstanceAs (Decidable ((Buffer.empty.requeue events).Keeps a.change))
  | .idle | .nudging _ | .filing | .polling _ | .flushing | .arming | .clearing | .ended =>
    inferInstanceAs (Decidable False)

/-! ### The accumulator and what uses it -/

/-- A commit that succeeded on a snapshot, routed by the registry of its flush. -/
structure Landing where
  router : Option ChainRegistry
  refName : String
  stamp : Nat

/-- The accumulator, the daemon, the sinks and the threads. The last four fields are kept for the
statements: a count of the accepted events, which changes were accepted, which commits landed, and
what failed flushes put into the buffer. -/
structure World (ι : Type) where
  buffer : Buffer
  retry : RetrySchedule
  now : Nat
  daemon : DaemonInner
  holder : Option ι
  lastNudge : ι → Option Nat
  threads : ι → Thread ι
  stamp : Nat
  accepted : List Accepted
  landed : List Landing
  refiled : List (ι × DirtyEvent)

inductive Event (ι : Type) where
  | tick (elapsed : Nat)
  | daemon (inner : DaemonInner)
  /-- a change from the mount of a sink, or from a batch of the watcher -/
  | push (id : ι) (sink : Option ι) (accepts : String → Bool) (event : DirtyEvent)
  | nudge (id : ι)
  | pollNudge (id : ι)
  | pollRetry (id : ι)
  | endBatch (id : ι)
  | take (id : ι)
  | enter (id : ι)
  | capture (id : ι) (built : Bool)
  | commit (id : ι) (outcomes : Outcomes)
  | refile (id : ι)
  | arm (id : ι)
  | clear (id : ι)
  /-- the loop of a sink ends, with no mount left that uses the sink -/
  | retire (id : ι)

def debounceMs : Nat := 200

namespace World

def start (now : Nat) (inner : DaemonInner) : World ι where
  buffer := .empty
  retry := .clear
  now := now
  daemon := inner
  holder := none
  lastNudge _ := none
  threads _ := .idle
  stamp := 0
  accepted := []
  landed := []
  refiled := []

def set (w : World ι) (id : ι) (thread : Thread ι) : World ι :=
  { w with threads := Function.update w.threads id thread }

/-- The flush of a thread returns; the lock is free if it was held. -/
def leave (w : World ι) (id : ι) : World ι :=
  { w.set id .idle with holder := if w.holder = some id then none else w.holder }

/-- Filter and record one event. -/
def push (w : World ι) (accepts : String → Bool) (event : DirtyEvent) : World ι :=
  match survivor accepts event with
  | none => w
  | some event =>
    { w with
      buffer := w.buffer.record event
      stamp := w.stamp + 1
      accepted := event.changes.map (Accepted.mk · w.stamp) ++ w.accepted }

def nudgeDue (w : World ι) (id : ι) : Bool :=
  match w.lastNudge id with
  | some nudged => nudged + debounceMs ≤ w.now
  | none => false

/-- After the commits. -/
def settle (w : World ι) (id : ι) (d : DirtySet) (router : Option ChainRegistry) (stamp : Nat) :
    Verdict → World ι
  | .refileAll => w.set id (.refiling (requeueEvents d fun _ => true))
  | .finished landed failed =>
    { w with landed := landed.map (Landing.mk router · stamp) ++ w.landed }.set id
      (if failed = [] then .clearing
       else .refiling (requeueEvents d fun path => failed.contains (refOf router path)))

end World

variable [Fintype ι]

/-- One section. -/
def act (w : World ι) : Event ι → Option (World ι)
  | .tick elapsed => some { w with now := w.now + elapsed }
  | .daemon inner => if w.holder = none then some { w with daemon := inner } else none
  | .push id sink accepts event =>
    match sink, w.threads id with
    | some k, .idle =>
      if (w.threads k).isEnded then none else some ((w.push accepts event).set id (.nudging k))
    | none, .idle => some ((w.push accepts event).set id .filing)
    | none, .filing => some ((w.push accepts event).set id .filing)
    | _, _ => none
  | .nudge id =>
    match w.threads id with
    | .nudging k =>
      some ({ w with lastNudge := Function.update w.lastNudge k (some w.now) }.set id .idle)
    | _ => none
  | .pollNudge id =>
    match w.threads id with
    | .idle =>
      let due := w.nudgeDue id
      let lastNudge := if due then Function.update w.lastNudge id none else w.lastNudge
      some ({ w with lastNudge := lastNudge }.set id (.polling due))
    | _ => none
  | .pollRetry id =>
    match w.threads id with
    | .polling nudgeDue =>
      let (due, retry) := w.retry.due w.now
      some ({ w with retry := retry }.set id (if nudgeDue || due then .flushing else .idle))
    | _ => none
  | .endBatch id =>
    match w.threads id with
    | .idle => some (w.set id .flushing)
    | .filing => some (w.set id .flushing)
    | _ => none
  | .take id =>
    match w.threads id with
    | .flushing =>
      let d := w.buffer.intoDirtySet
      some ({ w with buffer := .empty, refiled := [] }.set id
        (if d.isEmpty || (classify d).isDropped then .clearing else .drained d))
    | _ => none
  | .enter id =>
    match w.threads id, w.holder with
    | .drained d, none =>
      if w.daemon.state = .unlocked ∧ w.daemon.session = true then
        some { w.set id (.entered d) with holder := some id }
      else some (w.set id .idle)
    | _, _ => none
  | .capture id built =>
    match w.threads id with
    | .entered d =>
      if built then some (w.set id (.captured d w.daemon.fuse w.stamp))
      else some (w.set id (.refiling (requeueEvents d fun _ => true)))
    | _ => none
  | .commit id o =>
    match w.threads id with
    | .captured d router stamp =>
      if w.daemon.repo then
        some (w.settle id d router stamp (o.commitAll (classify d) (affectedRefs router d)))
      else some (w.leave id)
    | _ => none
  | .refile id =>
    match w.threads id with
    | .refiling events =>
      let w' : World ι :=
        { w with
          buffer := w.buffer.requeue events
          refiled := events.map (id, ·) ++ w.refiled }
      some (if events.isEmpty then w'.leave id else w'.set id .arming)
    | _ => none
  | .arm id =>
    match w.threads id with
    | .arming => some ({ w with retry := w.retry.arm w.now }.leave id)
    | _ => none
  | .clear id =>
    match w.threads id with
    | .clearing => some ({ w with retry := .clear }.leave id)
    | _ => none
  | .retire id =>
    match w.threads id with
    | .idle =>
      if ∃ i, (w.threads i).nudges id = true then none
      else some ({ w with lastNudge := Function.update w.lastNudge id none }.set id .ended)
    | _ => none

/-- The accumulator of a daemon, from its start. -/
def watcher (now : Nat) (inner : DaemonInner) : System (World ι) (Event ι) :=
  .ofFun (.start now inner) act

end Softfig.Watcher
