import Mathlib.Algebra.Group.Nat.Defs
import Mathlib.Data.List.MinMax
import Mathlib.Data.Prod.Lex
import Softfig.Lib.Rows
import Softfig.Lib.Transition

/-!
The write-turn lease of a shared chain, as one member keeps it.

A lease has a holder with a deadline, a queue of requests and the number of the
next lease. Every operation takes the clock as an argument. Devices are of any
linearly ordered type, seconds are 64-bit and saturate, lease numbers wrap.

- `apply_change`: what any operation does to holder, queue and number;
- `write_turn_run`: in every run the waiters are distinct and none is the holder,
  lease numbers do not repeat, a request keeps its place until it is granted, and
  a step is lawful exactly where it does not renew a lease past its deadline;
- `write_turn_run_fails`: a renewal past the deadline is accepted.
-/

namespace Softfig.Net

open Softfig.Lib

universe u

/-! ### Seconds -/

/-- Addition of seconds that stops at the ends of the range. -/
def saturatingAdd (a b : Int64) : Int64 := .ofIntClamp (a.toInt + b.toInt)

theorem toInt_ofIntClamp (n : Int) : (Int64.ofIntClamp n).toInt =
    max Int64.minValue.toInt (min n Int64.maxValue.toInt) := by
  rw [Int64.ofIntClamp]
  split
  · rename_i hlow
    split
    · rename_i hhigh
      rw [Int64.ofIntLE_eq_ofIntClamp, Int64.toInt_ofIntClamp hlow hhigh]
      omega
    · rename_i hhigh
      have : Int64.minValue.toInt ≤ Int64.maxValue.toInt := by decide
      omega
  · rename_i hlow
    have : Int64.minValue.toInt ≤ Int64.maxValue.toInt := by decide
    omega

theorem toInt_saturatingAdd (a b : Int64) : (saturatingAdd a b).toInt =
    max Int64.minValue.toInt (min (a.toInt + b.toInt) Int64.maxValue.toInt) :=
  toInt_ofIntClamp _

/-- Adding what is not negative does not saturate upwards. -/
theorem saturatingAdd_le {a b : Int64} (hb : 0 ≤ b.toInt) :
    (saturatingAdd a b).toInt ≤ a.toInt + b.toInt := by
  have hlow := a.minValue_le_toInt
  rw [toInt_saturatingAdd]
  omega

/-! ### Data -/

/-- Timing knobs of a lease, in whole seconds. -/
structure LeaseConfig where
  leaseTtl : Int64
  maxLease : Int64
  deriving DecidableEq, Repr

def LeaseConfig.default : LeaseConfig := ⟨30, 300⟩

/-- The knobs compose: both positive, and the ceiling not below the renew window. -/
def LeaseConfig.sane (cfg : LeaseConfig) : Bool :=
  0 < cfg.leaseTtl && cfg.leaseTtl ≤ cfg.maxLease

theorem LeaseConfig.sane_iff {cfg : LeaseConfig} : cfg.sane = true ↔
    0 < cfg.leaseTtl.toInt ∧ cfg.leaseTtl.toInt ≤ cfg.maxLease.toInt := by
  simp [LeaseConfig.sane, Int64.lt_iff_toInt_lt, Int64.le_iff_toInt_le]

/-- The knobs a turn runs on. -/
def LeaseConfig.sanitised (cfg : LeaseConfig) : LeaseConfig := if cfg.sane then cfg else .default

theorem LeaseConfig.sanitised_sane (cfg : LeaseConfig) : cfg.sanitised.sane = true := by
  rw [sanitised]
  split
  · assumption
  · decide

inductive LeaseScope where
  | wholeSubtree
  deriving DecidableEq, Repr

structure Holder (δ : Type u) where
  deviceId : δ
  grantedAt : Int64
  revokeDeadline : Int64
  epoch : UInt64
  deriving DecidableEq, Repr

structure Waiter (δ : Type u) where
  deviceId : δ
  seq : UInt64
  deriving DecidableEq, Repr

/-- One member's view of a chain's write turn. -/
structure WriteTurn (δ : Type u) where
  holder : Option (Holder δ)
  waiters : List (Waiter δ)
  scope : LeaseScope
  cfg : LeaseConfig
  epoch : UInt64
  deriving DecidableEq, Repr

/-- What `poll` reports. -/
inductive LeaseEvent (δ : Type u) where
  | granted (deviceId : δ) (epoch : UInt64)
  | revoked (deviceId : δ) (epoch : UInt64)
  deriving DecidableEq, Repr

variable {δ : Type u} [LinearOrder δ]

/-- Queue order: logical request time, then device. -/
def Waiter.rank (w : Waiter δ) : ℕ ×ₗ δ := toLex (w.seq.toNat, w.deviceId)

/-! ### Operations -/

namespace WriteTurn

/-- A free turn; knobs that do not compose become the default ones. -/
def new (scope : LeaseScope) (cfg : LeaseConfig) : WriteTurn δ :=
  ⟨none, [], scope, cfg.sanitised, 1⟩

def wholeSubtree : WriteTurn δ := new .wholeSubtree .default

def isHeldBy (t : WriteTurn δ) (deviceId : δ) : Bool :=
  t.holder.any fun h => h.deviceId = deviceId

/-- The first of the queue, with its sequence number. -/
def nextGrant (t : WriteTurn δ) : Option (δ × UInt64) :=
  (t.waiters.argmin Waiter.rank).map fun w => (w.deviceId, w.seq)

def nextInLine (t : WriteTurn δ) : Option δ := t.nextGrant.map Prod.fst

/-- Put a request into the queue; a device that waits keeps its earliest number. -/
def enqueue (deviceId : δ) (seq : UInt64) (waiters : List (Waiter δ)) : List (Waiter δ) :=
  if (Rows.row? Waiter.deviceId deviceId waiters).isSome then
    Rows.modify Waiter.deviceId deviceId (fun w => { w with seq := min w.seq seq }) waiters
  else
    waiters ++ [⟨deviceId, seq⟩]

/-- Record a request. The holder's own is dropped. -/
def request (t : WriteTurn δ) (deviceId : δ) (seq : UInt64) : WriteTurn δ :=
  if t.isHeldBy deviceId then t else { t with waiters := enqueue deviceId seq t.waiters }

/-- The heartbeat of a holder. -/
def renew (t : WriteTurn δ) (deviceId : δ) (now : Int64) : WriteTurn δ × Bool :=
  match t.holder with
  | none => (t, false)
  | some h =>
    if h.deviceId = deviceId then
      let hard := saturatingAdd h.grantedAt t.cfg.maxLease
      if hard ≤ now then (t, false)
      else
        let want := saturatingAdd now t.cfg.leaseTtl
        ({ t with holder := some { h with revokeDeadline := min want hard } }, true)
    else (t, false)

def release (t : WriteTurn δ) (deviceId : δ) : WriteTurn δ :=
  if t.isHeldBy deviceId then { t with holder := none } else t

/-- An inbound revoke ends the lease it names, by device and number. -/
def applyRevoke (t : WriteTurn δ) (deviceId : δ) (epoch : UInt64) : WriteTurn δ × Bool :=
  if t.holder.any fun h => h.deviceId = deviceId && h.epoch = epoch then
    ({ t with holder := none }, true)
  else (t, false)

/-- A fresh lease for a device, which leaves the queue. -/
def grantTo (t : WriteTurn δ) (deviceId : δ) (now : Int64) : WriteTurn δ :=
  { t with
    holder := some ⟨deviceId, now, saturatingAdd now t.cfg.leaseTtl, t.epoch⟩
    waiters := t.waiters.filter fun w => w.deviceId ≠ deviceId
    epoch := t.epoch + 1 }

/-- An inbound yield hands the turn to the grantee it names. -/
def applyYield (t : WriteTurn δ) (grantee : δ) (now : Int64) : WriteTurn δ × Option UInt64 :=
  if t.isHeldBy grantee then (t, none) else (t.grantTo grantee now, some t.epoch)

/-- End a lease whose deadline has passed. -/
def expire (t : WriteTurn δ) (now : Int64) : WriteTurn δ × List (LeaseEvent δ) :=
  match t.holder with
  | none => (t, [])
  | some h =>
    if h.revokeDeadline ≤ now then ({ t with holder := none }, [.revoked h.deviceId h.epoch])
    else (t, [])

/-- Hand a free turn to the first of the queue. -/
def grantNext (t : WriteTurn δ) (now : Int64) : WriteTurn δ × List (LeaseEvent δ) :=
  if t.holder.isSome then (t, [])
  else
    match t.nextInLine with
    | none => (t, [])
    | some winner => (t.grantTo winner now, [.granted winner t.epoch])

/-- Drive the lease to `now`: at most one revoke, then at most one grant. -/
def poll (t : WriteTurn δ) (now : Int64) : WriteTurn δ × List (LeaseEvent δ) :=
  let (freed, revoked) := t.expire now
  let (next, granted) := freed.grantNext now
  (next, revoked ++ granted)

end WriteTurn

/-! ### The system -/

inductive TurnOp (δ : Type u) where
  | request (deviceId : δ) (seq : UInt64)
  | renew (deviceId : δ) (now : Int64)
  | release (deviceId : δ)
  | applyRevoke (deviceId : δ) (epoch : UInt64)
  | applyYield (grantee : δ) (now : Int64)
  | poll (now : Int64)
  deriving DecidableEq, Repr

inductive TurnReply (δ : Type u) where
  | done
  | accepted (took : Bool)
  | epoch (granted : Option UInt64)
  | events (events : List (LeaseEvent δ))
  deriving DecidableEq, Repr

def WriteTurn.apply (t : WriteTurn δ) : TurnOp δ → WriteTurn δ × TurnReply δ
  | .request deviceId seq => (t.request deviceId seq, .done)
  | .renew deviceId now => ((t.renew deviceId now).1, .accepted (t.renew deviceId now).2)
  | .release deviceId => (t.release deviceId, .done)
  | .applyRevoke deviceId epoch =>
    ((t.applyRevoke deviceId epoch).1, .accepted (t.applyRevoke deviceId epoch).2)
  | .applyYield grantee now => ((t.applyYield grantee now).1, .epoch (t.applyYield grantee now).2)
  | .poll now => ((t.poll now).1, .events (t.poll now).2)

/-- The write turn of a chain; a step is labelled by the call and what it returned. -/
def turnSystem (scope : LeaseScope) (cfg : LeaseConfig) :
    System (WriteTurn δ) (TurnOp δ × TurnReply δ) where
  init t := t = .new scope cfg
  step t label t' := t.apply label.1 = (t', label.2)

def LeaseEvent.grant? : LeaseEvent δ → Option (δ × UInt64)
  | .granted deviceId epoch => some (deviceId, epoch)
  | .revoked _ _ => none

/-- The grants a call reports, with the numbers of the leases. -/
def grantsOf : TurnOp δ × TurnReply δ → List (δ × UInt64)
  | (.applyYield grantee _, .epoch (some epoch)) => [(grantee, epoch)]
  | (_, .events events) => events.filterMap LeaseEvent.grant?
  | _ => []

def grants (labels : List (TurnOp δ × TurnReply δ)) : List (δ × UInt64) := labels.flatMap grantsOf

/-! ### What an operation changes -/

/-- The deadline of a hold is not past its ceiling. -/
def Holder.Capped (cfg : LeaseConfig) (h : Holder δ) : Prop :=
  h.revokeDeadline.toInt ≤ h.grantedAt.toInt + cfg.maxLease.toInt

/-- What an operation may do to a turn, with the grants it makes. -/
inductive Change (t : WriteTurn δ) : WriteTurn δ → List (δ × UInt64) → Prop where
  | hold (holder : Option (Holder δ))
      (hsame : ∀ h' ∈ holder, ∃ h ∈ t.holder, h'.deviceId = h.deviceId ∧
        (h.Capped t.cfg → h'.Capped t.cfg)) :
      Change t { t with holder } []
  | queue (deviceId : δ) (seq : UInt64) (hother : t.isHeldBy deviceId = false) :
      Change t { t with waiters := WriteTurn.enqueue deviceId seq t.waiters } []
  | grant (deviceId : δ) (now : Int64) :
      Change t (t.grantTo deviceId now) [(deviceId, t.epoch)]

variable {t t' : WriteTurn δ}

theorem Change.same : Change t t [] :=
  .hold t.holder fun h hh => ⟨h, hh, rfl, id⟩

theorem Change.free : Change t { t with holder := none } [] :=
  .hold none fun _ h => by cases h

theorem isHeldBy_iff {deviceId : δ} :
    t.isHeldBy deviceId = true ↔ ∃ h ∈ t.holder, h.deviceId = deviceId := by
  simp [WriteTurn.isHeldBy, Option.any_eq_true]

/-- The turn is free, or its deadline has passed. -/
def WriteTurn.Lapsed (t : WriteTurn δ) (now : Int64) : Prop :=
  ∀ h ∈ t.holder, h.revokeDeadline ≤ now

theorem poll_held {now : Int64} (h : ¬ t.Lapsed now) : t.poll now = (t, []) := by
  simp only [WriteTurn.Lapsed, not_forall] at h
  obtain ⟨h, hholder, hlive⟩ := h
  rw [Option.mem_def] at hholder
  simp [WriteTurn.poll, WriteTurn.expire, WriteTurn.grantNext, hholder, hlive]

/-- Past the deadline the turn is freed and goes to the first of the queue. -/
theorem poll_lapsed {now : Int64} (h : t.Lapsed now) :
    (t.waiters = [] ∧ (t.poll now).1 = { t with holder := none } ∧
      (t.poll now).2.filterMap LeaseEvent.grant? = []) ∨
    ∃ w ∈ t.waiters, (∀ v ∈ t.waiters, w.rank ≤ v.rank) ∧ t.nextInLine = some w.deviceId ∧
      (t.poll now).1 = t.grantTo w.deviceId now ∧
      (t.poll now).2.filterMap LeaseEvent.grant? = [(w.deviceId, t.epoch)] := by
  have hexpire : ∃ events, t.expire now = ({ t with holder := none }, events) ∧
      events.filterMap LeaseEvent.grant? = [] := by
    obtain ⟨holder, waiters, scope, cfg, epoch⟩ := t
    cases holder with
    | none => exact ⟨[], rfl, rfl⟩
    | some hold =>
      have hdeadline : hold.revokeDeadline ≤ now := h hold rfl
      exact ⟨_, if_pos hdeadline, rfl⟩
  obtain ⟨events, hexpire, hevents⟩ := hexpire
  cases hfirst : t.waiters.argmin Waiter.rank with
  | none =>
    have hempty : t.waiters = [] := List.argmin_eq_none.mp hfirst
    refine Or.inl ⟨hempty, ?_⟩
    simp [WriteTurn.poll, hexpire, WriteTurn.grantNext, WriteTurn.nextInLine, WriteTurn.nextGrant,
      hfirst, hevents]
  | some w =>
    refine Or.inr ⟨w, List.argmin_mem hfirst, ?_, ?_, ?_⟩
    · intro v hv
      exact List.le_of_mem_argmin hv hfirst
    · simp [WriteTurn.nextInLine, WriteTurn.nextGrant, hfirst]
    · simp [WriteTurn.poll, hexpire, WriteTurn.grantNext, WriteTurn.nextInLine,
        WriteTurn.nextGrant, hfirst, hevents, LeaseEvent.grant?, WriteTurn.grantTo]

/-- A renewal is accepted exactly for the holder and below the ceiling. -/
theorem renew_accepted {deviceId : δ} {now : Int64} : (t.renew deviceId now).2 = true ↔
    ∃ h ∈ t.holder, h.deviceId = deviceId ∧ ¬ saturatingAdd h.grantedAt t.cfg.maxLease ≤ now := by
  cases hholder : t.holder with
  | none => simp [WriteTurn.renew, hholder]
  | some h =>
    simp only [WriteTurn.renew, hholder, Option.mem_def, Option.some.injEq, exists_eq_left']
    by_cases hdevice : h.deviceId = deviceId
    · by_cases hhard : saturatingAdd h.grantedAt t.cfg.maxLease ≤ now
      · simp [hdevice, hhard]
      · simp [hdevice, hhard]
    · simp [hdevice]

theorem Change.renew (hmax : 0 ≤ t.cfg.maxLease.toInt) {deviceId : δ} {now : Int64} :
    Change t (t.renew deviceId now).1 [] := by
  cases hholder : t.holder with
  | none =>
    rw [WriteTurn.renew, hholder]
    exact .same
  | some h =>
    simp only [WriteTurn.renew, hholder]
    split
    · split
      · exact .same
      · refine .hold _ ?_
        rintro h' ⟨⟩
        refine ⟨h, hholder, rfl, fun _ => ?_⟩
        have hmin : min (saturatingAdd now t.cfg.leaseTtl) (saturatingAdd h.grantedAt t.cfg.maxLease)
            ≤ saturatingAdd h.grantedAt t.cfg.maxLease := Std.min_le_right
        exact (Int64.le_iff_toInt_le.mp hmin).trans (saturatingAdd_le hmax)
    · exact .same

/-- **What an operation does.** It ends or renews the hold, records a request of a
device that does not hold the turn, or grants the turn under the next number. -/
theorem apply_change (hsane : t.cfg.sane = true) {op : TurnOp δ} {reply : TurnReply δ}
    (h : t.apply op = (t', reply)) : Change t t' (grantsOf (op, reply)) := by
  cases op with
  | request deviceId seq =>
    cases h
    show Change t (t.request deviceId seq) []
    rw [WriteTurn.request]
    split
    · exact .same
    · rename_i hother
      exact .queue deviceId seq (Bool.eq_false_iff.mpr hother)
  | renew deviceId now =>
    cases h
    obtain ⟨hpositive, hle⟩ := LeaseConfig.sane_iff.mp hsane
    exact .renew (hpositive.le.trans hle)
  | release deviceId =>
    cases h
    show Change t (t.release deviceId) []
    rw [WriteTurn.release]
    split
    · exact .free
    · exact .same
  | applyRevoke deviceId epoch =>
    cases h
    show Change t (t.applyRevoke deviceId epoch).1 []
    rw [WriteTurn.applyRevoke]
    split
    · exact .free
    · exact .same
  | applyYield grantee now =>
    cases h
    by_cases hheld : t.isHeldBy grantee = true
    · simp only [WriteTurn.applyYield, if_pos hheld]
      exact .same
    · simp only [WriteTurn.applyYield, if_neg hheld]
      exact .grant grantee now
  | poll now =>
    cases h
    show Change t (t.poll now).1 ((t.poll now).2.filterMap LeaseEvent.grant?)
    by_cases hlapsed : t.Lapsed now
    · obtain ⟨-, hnext, hgrants⟩ | ⟨w, -, -, -, hnext, hgrants⟩ := poll_lapsed hlapsed
      · rw [hnext, hgrants]
        exact .free
      · rw [hnext, hgrants]
        exact .grant w.deviceId now
    · rw [poll_held hlapsed]
      exact .same

/-! ### Invariants -/

/-- The waiters are distinct devices, none of them the holder. -/
structure WriteTurn.Queued (t : WriteTurn δ) : Prop where
  distinct : (t.waiters.map Waiter.deviceId).Nodup
  apart : ∀ h ∈ t.holder, ∀ w ∈ t.waiters, w.deviceId ≠ h.deviceId

variable {granted : List (δ × UInt64)}

theorem enqueue_present {deviceId : δ} {seq : UInt64} {waiters : List (Waiter δ)}
    (h : (Rows.row? Waiter.deviceId deviceId waiters).isSome = true) :
    (WriteTurn.enqueue deviceId seq waiters).map Waiter.deviceId =
      waiters.map Waiter.deviceId := by
  rw [WriteTurn.enqueue, if_pos h]
  exact Rows.map_modify fun _ => rfl

theorem enqueue_fresh {deviceId : δ} {seq : UInt64} {waiters : List (Waiter δ)}
    (h : ¬ (Rows.row? Waiter.deviceId deviceId waiters).isSome = true) :
    WriteTurn.enqueue deviceId seq waiters = waiters ++ [⟨deviceId, seq⟩] := if_neg h

/-- Whoever is in the queue after a request was there before it, or made it. -/
theorem mem_enqueue {deviceId : δ} {seq : UInt64} {waiters : List (Waiter δ)} {w : Waiter δ}
    (h : w ∈ WriteTurn.enqueue deviceId seq waiters) :
    w.deviceId ∈ waiters.map Waiter.deviceId ∨ w.deviceId = deviceId := by
  by_cases hpresent : (Rows.row? Waiter.deviceId deviceId waiters).isSome = true
  · left
    rw [← enqueue_present hpresent]
    exact List.mem_map_of_mem h
  · rw [enqueue_fresh hpresent, List.mem_append, List.mem_singleton] at h
    rcases h with h | rfl
    · exact Or.inl (List.mem_map_of_mem h)
    · exact Or.inr rfl

/-- A request moves nobody backwards. -/
theorem enqueue_keeps {deviceId : δ} {seq : UInt64} {waiters : List (Waiter δ)}
    (hdistinct : (waiters.map Waiter.deviceId).Nodup) {w : Waiter δ} (hw : w ∈ waiters) :
    ∃ w' ∈ WriteTurn.enqueue deviceId seq waiters, w'.deviceId = w.deviceId ∧ w'.seq ≤ w.seq := by
  by_cases hpresent : (Rows.row? Waiter.deviceId deviceId waiters).isSome = true
  · rw [WriteTurn.enqueue, if_pos hpresent]
    by_cases hdevice : w.deviceId = deviceId
    · refine ⟨_, (Rows.mem_modify hdistinct).mpr (Or.inr ⟨w, hw, hdevice, rfl⟩), rfl, ?_⟩
      exact Std.min_le_left
    · exact ⟨w, (Rows.mem_modify hdistinct).mpr (Or.inl ⟨hw, hdevice⟩), rfl, UInt64.le_refl _⟩
  · rw [enqueue_fresh hpresent]
    exact ⟨w, List.mem_append_left _ hw, rfl, UInt64.le_refl _⟩

theorem Change.queued (h : Change t t' granted) (hqueued : t.Queued) : t'.Queued := by
  cases h with
  | hold holder hsame =>
    refine ⟨hqueued.distinct, ?_⟩
    intro h' hh' w hw
    obtain ⟨h, hh, hdevice, -⟩ := hsame h' hh'
    rw [hdevice]
    exact hqueued.apart h hh w hw
  | queue deviceId seq hother =>
    constructor
    · show ((WriteTurn.enqueue deviceId seq t.waiters).map Waiter.deviceId).Nodup
      by_cases hpresent : (Rows.row? Waiter.deviceId deviceId t.waiters).isSome = true
      · rw [enqueue_present hpresent]
        exact hqueued.distinct
      · have hfresh := Rows.row?_none.mp (Option.not_isSome_iff_eq_none.mp hpresent)
        rw [enqueue_fresh hpresent, List.map_append]
        refine hqueued.distinct.append (List.nodup_singleton _) ?_
        simpa [List.disjoint_singleton] using hfresh
    · intro h hh w hw
      rcases mem_enqueue hw with hold | rfl
      · obtain ⟨v, hv, hdevice⟩ := List.mem_map.mp hold
        rw [← hdevice]
        exact hqueued.apart h hh v hv
      · intro hdevice
        have hheld : t.isHeldBy w.deviceId = true := isHeldBy_iff.mpr ⟨h, hh, hdevice.symm⟩
        rw [hother] at hheld
        cases hheld
  | grant deviceId now =>
    constructor
    · exact hqueued.distinct.sublist (List.filter_sublist.map _)
    · rintro h ⟨⟩ w hw
      simpa using (List.mem_filter.mp hw).2

/-- A waiter keeps its place, or the change grants it the turn. -/
theorem Change.place (h : Change t t' granted) (hqueued : t.Queued) {w : Waiter δ}
    (hw : w ∈ t.waiters) :
    (∃ w' ∈ t'.waiters, w'.deviceId = w.deviceId ∧ w'.seq ≤ w.seq) ∨
      w.deviceId ∈ granted.map Prod.fst := by
  cases h with
  | hold holder hsame => exact Or.inl ⟨w, hw, rfl, UInt64.le_refl _⟩
  | queue deviceId seq hother => exact Or.inl (enqueue_keeps hqueued.distinct hw)
  | grant deviceId now =>
    by_cases hdevice : w.deviceId = deviceId
    · exact Or.inr (by simp [hdevice])
    · refine Or.inl ⟨w, List.mem_filter.mpr ⟨hw, ?_⟩, rfl, UInt64.le_refl _⟩
      simpa using hdevice

theorem Change.cfg (h : Change t t' granted) : t'.cfg = t.cfg := by
  cases h with
  | hold | queue | grant => rfl

/-- The hold, if any, ends at its ceiling at the latest. -/
def WriteTurn.Capped (t : WriteTurn δ) : Prop := ∀ h ∈ t.holder, h.Capped t.cfg

theorem Change.capped (h : Change t t' granted) (hsane : t.cfg.sane = true) (hcapped : t.Capped) :
    t'.Capped := by
  cases h with
  | hold holder hsame =>
    intro h' hh'
    obtain ⟨h, hh, -, hkeep⟩ := hsame h' hh'
    exact hkeep (hcapped h hh)
  | queue => exact hcapped
  | grant deviceId now =>
    rintro h ⟨⟩
    obtain ⟨hpositive, hle⟩ := LeaseConfig.sane_iff.mp hsane
    have hadd : (saturatingAdd now t.cfg.leaseTtl).toInt ≤ now.toInt + t.cfg.leaseTtl.toInt :=
      saturatingAdd_le hpositive.le
    show (saturatingAdd now t.cfg.leaseTtl).toInt ≤ now.toInt + t.cfg.maxLease.toInt
    omega

/-- The numbers of the first leases. -/
def epochs (n : Nat) : List UInt64 := (List.range n).map fun i => UInt64.ofNat (i + 1)

/-- The leases granted so far are numbered from one on. -/
def WriteTurn.Numbered (t : WriteTurn δ) (granted : List (δ × UInt64)) : Prop :=
  granted.map Prod.snd = epochs granted.length ∧ t.epoch = UInt64.ofNat (granted.length + 1)

theorem Change.numbered (h : Change t t' granted) {before : List (δ × UInt64)}
    (hnumbered : t.Numbered before) : t'.Numbered (before ++ granted) := by
  obtain ⟨hbefore, hepoch⟩ := hnumbered
  cases h with
  | hold | queue =>
    rw [List.append_nil]
    exact ⟨hbefore, hepoch⟩
  | grant deviceId now =>
    refine ⟨?_, ?_⟩
    · rw [List.map_append, hbefore, List.length_append, List.length_singleton, epochs, epochs,
        List.range_succ, List.map_append, hepoch]
      rfl
    · show t.epoch + 1 = _
      rw [hepoch, List.length_append, List.length_singleton]
      exact (UInt64.ofNat_add _ 1).symm

/-- Below the range of the counter no number repeats. -/
theorem epochs_nodup {n : Nat} (h : n < 2 ^ 64) : (epochs n).Nodup := by
  refine List.Nodup.map_on ?_ List.nodup_range
  intro i hi j hj heq
  have hi := List.mem_range.mp hi
  have hj := List.mem_range.mp hj
  have hnat := congrArg UInt64.toNat heq
  have hsize : UInt64.size = 2 ^ 64 := rfl
  rw [UInt64.toNat_ofNat_of_lt' (by omega), UInt64.toNat_ofNat_of_lt' (by omega)] at hnat
  omega

/-! ### Runs -/

variable {scope : LeaseScope} {cfg : LeaseConfig}

/-- What every run keeps. -/
structure TurnInvariant (cfg : LeaseConfig) (t : WriteTurn δ) : Prop where
  cfg_eq : t.cfg = cfg.sanitised
  queued : t.Queued
  capped : t.Capped

omit [LinearOrder δ] in
theorem TurnInvariant.sane (h : TurnInvariant cfg t) : t.cfg.sane = true := by
  rw [h.cfg_eq]
  exact cfg.sanitised_sane

omit [LinearOrder δ] in
theorem TurnInvariant.new : TurnInvariant cfg (.new scope cfg : WriteTurn δ) where
  cfg_eq := rfl
  queued := ⟨List.nodup_nil, fun h hh => by cases hh⟩
  capped := fun h hh => by cases hh

theorem TurnInvariant.step (h : TurnInvariant cfg t) {label : TurnOp δ × TurnReply δ}
    (hstep : (turnSystem scope cfg).step t label t') : TurnInvariant cfg t' := by
  have hchange : Change t t' (grantsOf label) := apply_change h.sane hstep
  exact ⟨hchange.cfg.trans h.cfg_eq, hchange.queued h.queued, hchange.capped h.sane h.capped⟩

theorem turnInvariant_run {labels : List (TurnOp δ × TurnReply δ)} (h : TurnInvariant cfg t)
    (hrun : (turnSystem scope cfg).Run t labels t') : TurnInvariant cfg t' :=
  hrun.invariant (fun _ _ _ h hstep => h.step hstep) h

theorem numbered_run {labels : List (TurnOp δ × TurnReply δ)} (h : TurnInvariant cfg t)
    (hstart : t.Numbered []) (hrun : (turnSystem scope cfg).Run t labels t') :
    t'.Numbered (grants labels) := by
  induction hrun with
  | refl => exact hstart
  | snoc hbefore hstep ih =>
    have hchange := apply_change (turnInvariant_run h hbefore).sane hstep
    rw [grants, List.flatMap_append, List.flatMap_singleton]
    exact hchange.numbered ih

/-- A waiter is still in the queue with a number that only fell, or was granted the
turn on the way. -/
theorem place_run {labels : List (TurnOp δ × TurnReply δ)} (h : TurnInvariant cfg t)
    (hrun : (turnSystem scope cfg).Run t labels t') {w : Waiter δ} (hw : w ∈ t.waiters) :
    (∃ w' ∈ t'.waiters, w'.deviceId = w.deviceId ∧ w'.seq ≤ w.seq) ∨
      w.deviceId ∈ (grants labels).map Prod.fst := by
  induction hrun with
  | refl => exact Or.inl ⟨w, hw, rfl, UInt64.le_refl _⟩
  | snoc hbefore hstep ih =>
    have hinv := turnInvariant_run h hbefore
    have hchange := apply_change hinv.sane hstep
    rw [grants, List.flatMap_append, List.flatMap_singleton, List.map_append, List.mem_append]
    rcases ih with ⟨w', hw', hdevice, hseq⟩ | hgranted
    · rcases hchange.place hinv.queued hw' with ⟨w'', hw'', hdevice', hseq'⟩ | hgranted
      · exact Or.inl ⟨w'', hw'', hdevice'.trans hdevice, UInt64.le_trans hseq' hseq⟩
      · exact Or.inr (Or.inr (hdevice ▸ hgranted))
    · exact Or.inr (Or.inl hgranted)

/-! ### The laws of a step -/

/-- What polling and renewing may do. -/
structure StepLaw (t : WriteTurn δ) (op : TurnOp δ) (reply : TurnReply δ) (t' : WriteTurn δ) :
    Prop where
  /-- A live hold stays; a free or lapsed turn goes to the first of the queue. -/
  poll : ∀ now, op = .poll now → (¬ t.Lapsed now → t'.holder = t.holder) ∧
    (t.Lapsed now → (t.waiters = [] ∧ t'.holder = none) ∨
      ∃ w ∈ t.waiters, (∀ v ∈ t.waiters, w.rank ≤ v.rank) ∧ t'.isHeldBy w.deviceId = true ∧
        grantsOf (op, reply) = [(w.deviceId, t.epoch)])
  /-- No hold outlives its ceiling. -/
  ceiling : ∀ now, op = .poll now →
    ∀ h ∈ t'.holder, now.toInt < h.grantedAt.toInt + t'.cfg.maxLease.toInt
  /-- Only a live hold is renewed, and only for its holder. -/
  renew : ∀ deviceId now, op = .renew deviceId now → reply = .accepted true →
    ∃ h ∈ t.holder, h.deviceId = deviceId ∧ now < h.revokeDeadline

/-- The holder renews before its deadline, or not below its ceiling. -/
def WriteTurn.RenewsLive (t : WriteTurn δ) (op : TurnOp δ) : Prop :=
  ∀ deviceId now, op = .renew deviceId now → ∀ h ∈ t.holder, h.deviceId = deviceId →
    now < h.revokeDeadline ∨ saturatingAdd h.grantedAt t.cfg.maxLease ≤ now

theorem poll_law {now : Int64} : (¬ t.Lapsed now → (t.poll now).1.holder = t.holder) ∧
    (t.Lapsed now → (t.waiters = [] ∧ (t.poll now).1.holder = none) ∨
      ∃ w ∈ t.waiters, (∀ v ∈ t.waiters, w.rank ≤ v.rank) ∧
        (t.poll now).1.isHeldBy w.deviceId = true ∧
        grantsOf (.poll now, .events (t.poll now).2) = [(w.deviceId, t.epoch)]) := by
  constructor
  · intro hlive
    rw [poll_held hlive]
  · intro hlapsed
    rcases poll_lapsed hlapsed with ⟨hempty, hnext, -⟩ | ⟨w, hw, hfirst, -, hnext, hgrants⟩
    · exact Or.inl ⟨hempty, by rw [hnext]⟩
    · refine Or.inr ⟨w, hw, hfirst, ?_, hgrants⟩
      rw [hnext]
      exact isHeldBy_iff.mpr ⟨_, rfl, rfl⟩

/-- After a poll the clock is below the ceiling of the hold. -/
theorem ceiling_law (hsane : t.cfg.sane = true) (hcapped : t.Capped) {now : Int64} :
    ∀ h ∈ (t.poll now).1.holder,
      now.toInt < h.grantedAt.toInt + (t.poll now).1.cfg.maxLease.toInt := by
  obtain ⟨hpositive, hle⟩ := LeaseConfig.sane_iff.mp hsane
  by_cases hlapsed : t.Lapsed now
  · rcases poll_lapsed hlapsed with ⟨-, hnext, -⟩ | ⟨w, -, -, -, hnext, -⟩
    · rw [hnext]
      rintro h ⟨⟩
    · rw [hnext]
      rintro h ⟨⟩
      show now.toInt < now.toInt + t.cfg.maxLease.toInt
      omega
  · rw [poll_held hlapsed]
    intro h hh
    have hdeadline : ¬ h.revokeDeadline ≤ now := by
      intro hle
      refine hlapsed fun h' hh' => ?_
      obtain rfl := Option.mem_unique hh hh'
      exact hle
    have hlt := Int64.lt_iff_toInt_lt.mp (Int64.not_le.mp hdeadline)
    exact hlt.trans_le (hcapped h hh)

theorem stepLaw_iff (hsane : t.cfg.sane = true) (hcapped : t.Capped) {op : TurnOp δ}
    {reply : TurnReply δ} (h : t.apply op = (t', reply)) :
    StepLaw t op reply t' ↔ t.RenewsLive op := by
  constructor
  · rintro hlaw deviceId now rfl h' hh' rfl
    cases h
    by_cases hhard : saturatingAdd h'.grantedAt t.cfg.maxLease ≤ now
    · exact Or.inr hhard
    · have haccepted : (t.renew h'.deviceId now).2 = true :=
        renew_accepted.mpr ⟨h', hh', rfl, hhard⟩
      obtain ⟨h, hh, -, hlive⟩ := hlaw.renew _ _ rfl (by rw [haccepted])
      obtain rfl := Option.mem_unique hh hh'
      exact Or.inl hlive
  · intro hlive
    refine ⟨?_, ?_, ?_⟩
    · rintro now rfl
      cases h
      exact poll_law
    · rintro now rfl
      cases h
      exact ceiling_law hsane hcapped
    · rintro deviceId now rfl hreply
      cases h
      obtain ⟨h, hh, hdevice, hhard⟩ := renew_accepted.mp (TurnReply.accepted.inj hreply)
      exact ⟨h, hh, hdevice, (hlive _ _ rfl h hh hdevice).resolve_right hhard⟩

/-- **The write turn over every run.** The waiters are distinct devices and none is
the holder; fewer than 2^64 grants carry distinct numbers; a waiter's number only
falls until the turn is granted to it; and a step obeys the laws of polling and
renewing exactly where it does not renew a lease past its deadline and below its
ceiling. -/
theorem write_turn_run (scope : LeaseScope) (cfg : LeaseConfig)
    {labels : List (TurnOp δ × TurnReply δ)} {t : WriteTurn δ}
    (hrun : (turnSystem scope cfg).Run (.new scope cfg) labels t) :
    t.Queued ∧
    ((grants labels).length < 2 ^ 64 → ((grants labels).map Prod.snd).Nodup) ∧
    (∀ labels' t', (turnSystem scope cfg).Run t labels' t' → ∀ w ∈ t.waiters,
      (∃ w' ∈ t'.waiters, w'.deviceId = w.deviceId ∧ w'.seq ≤ w.seq) ∨
        w.deviceId ∈ (grants labels').map Prod.fst) ∧
    ∀ op reply t', (turnSystem scope cfg).step t (op, reply) t' →
      (StepLaw t op reply t' ↔ t.RenewsLive op) := by
  have hinv : TurnInvariant cfg t := turnInvariant_run .new hrun
  refine ⟨hinv.queued, ?_, ?_, ?_⟩
  · intro hfew
    obtain ⟨hnumbers, -⟩ := numbered_run .new ⟨rfl, rfl⟩ hrun
    rw [hnumbers]
    exact epochs_nodup hfew
  · intro labels' t' hlater w hw
    exact place_run hinv hlater hw
  · intro op reply t' hstep
    exact stepLaw_iff hinv.sane hinv.capped hstep

/-- Two requests, and the turn of the first. -/
def grantedLabels : List (TurnOp ℕ × TurnReply ℕ) :=
  [(.request 1 5, .done), (.request 2 5, .done), (.poll 10, .events [.granted 1 1])]

def grantedTurn : WriteTurn ℕ :=
  ⟨some ⟨1, 10, 40, 1⟩, [⟨2, 5⟩], .wholeSubtree, .default, 2⟩

theorem grantedTurn_run :
    (turnSystem .wholeSubtree .default).Run (.new .wholeSubtree .default) grantedLabels
      grantedTurn := by
  have hfirst : (turnSystem .wholeSubtree .default).Run (.new .wholeSubtree .default)
      [(.request 1 5, .done)] ⟨none, [⟨1, 5⟩], .wholeSubtree, .default, 1⟩ :=
    .single (by exact rfl)
  have hsecond : (turnSystem .wholeSubtree .default).Run
      ⟨none, [⟨1, 5⟩], .wholeSubtree, .default, 1⟩ [(.request 2 5, .done)]
      (⟨none, [⟨1, 5⟩, ⟨2, 5⟩], .wholeSubtree, .default, 1⟩ : WriteTurn ℕ) :=
    .single (by exact rfl)
  exact .snoc (hfirst.trans hsecond) (by exact rfl)

/-- The holder renews before its deadline. -/
theorem write_turn_run_renewed : grantedTurn.Queued ∧ ((grants grantedLabels).map Prod.snd).Nodup ∧
    StepLaw grantedTurn (.renew 1 20) (.accepted true) (grantedTurn.renew 1 20).1 := by
  obtain ⟨hqueued, hnodup, -, hlaw⟩ := write_turn_run _ _ grantedTurn_run
  have hrenew : (turnSystem .wholeSubtree .default).step grantedTurn
      (.renew 1 20, .accepted true) (grantedTurn.renew 1 20).1 := rfl
  refine ⟨hqueued, hnodup (by decide), (hlaw _ _ _ hrenew).mpr ?_⟩
  rintro deviceId now ⟨⟩ h ⟨⟩ -
  exact Or.inl (by decide)

/-- Past its deadline of 40 the lease is renewed, where nobody polled. -/
theorem write_turn_run_fails : ¬ ∀ (scope : LeaseScope) (cfg : LeaseConfig)
    (labels : List (TurnOp ℕ × TurnReply ℕ)) (t : WriteTurn ℕ),
    (turnSystem scope cfg).Run (.new scope cfg) labels t → ∀ op reply t',
      (turnSystem scope cfg).step t (op, reply) t' → StepLaw t op reply t' := by
  intro h
  have hlaw := h _ _ _ _ grantedTurn_run (.renew 1 50) (.accepted true)
    (grantedTurn.renew 1 50).1 rfl
  obtain ⟨hold, ⟨⟩, -, hlive⟩ := hlaw.renew 1 50 rfl rfl
  exact absurd hlive (by decide)

end Softfig.Net
