import Mathlib.Logic.Function.Basic
import Softfig.Net.Turn

/-!
The members of a shared chain, each with its own write turn.

A member's commit attempt goes through the turn gate, which may broadcast a
request or a yield; a poll broadcasts the leases it ends. Broadcasts are delivered
one by one in any order, all of them before the next commit attempt, under one
clock.

- `gate_run`: what the gate does to a view is a run of turn operations;
- `oneOwner_of_guarded`: where nobody's queue hands it the turn of another, at most
  one member holds a live lease or has a yield coming;
- `turn_ring_safe`: the guarded runs, and where the gate lets a lapsed lease pass;
- `turn_ring_safe_fails`: two commits in one second.
-/

namespace Softfig.Net

open Softfig.Lib

universe u

variable {δ : Type u} [LinearOrder δ]

/-! ### The turn gate -/

/-- What the commit boundary must do for a chain. -/
inductive TurnGateAction (δ : Type u) where
  | proceed
  | proceedRequest (seq : UInt64)
  | proceedYield (grantee : δ) (seq : UInt64)
  | defer (seq : UInt64)
  deriving DecidableEq, Repr

/-- Decide and apply the gate on the local view. The holder commits, and yields
where somebody waits; anybody else requests the turn and polls. -/
def decideTurnGate (turn : WriteTurn δ) (localId : δ) (seq : UInt64) (now : Int64) :
    TurnGateAction δ × WriteTurn δ :=
  if turn.isHeldBy localId then
    match turn.nextGrant with
    | some (grantee, granteeSeq) => (.proceedYield grantee granteeSeq, turn.release localId)
    | none => (.proceed, turn)
  else
    let polled := ((turn.request localId seq).poll now).1
    if polled.isHeldBy localId then (.proceedRequest seq, polled) else (.defer seq, polled)

/-- A frame the gate queues for the other members. -/
inductive PendingTurnBroadcast (δ : Type u) where
  | request (seq : UInt64)
  | yield (grantee : δ) (seq : UInt64)
  deriving DecidableEq, Repr

/-- The logical request time is the wall clock. -/
def requestSeq (now : Int64) : UInt64 := .ofNat now.toNatClampNeg

/-- Whether the ref may advance, what to broadcast, and the view afterwards. -/
def gateSharedChainCommit (turn : WriteTurn δ) (localId : δ) (now : Int64) :
    Bool × Option (PendingTurnBroadcast δ) × WriteTurn δ :=
  let (action, turn) := decideTurnGate turn localId (requestSeq now) now
  match action with
  | .proceed => (true, none, turn)
  | .proceedRequest seq => (true, some (.request seq), turn)
  | .proceedYield grantee seq => (true, some (.yield grantee seq), turn)
  | .defer seq => (false, some (.request seq), turn)

/-! ### Messages and handlers -/

/-- A signed frame, named by its sender. -/
inductive TurnMessage (δ : Type u) where
  | request (deviceId : δ) (seq : UInt64)
  | yield (deviceId grantee : δ) (seq : UInt64)
  | revoke (deviceId revoked : δ) (epoch : UInt64)
  deriving DecidableEq, Repr

def PendingTurnBroadcast.frame (localId : δ) : PendingTurnBroadcast δ → TurnMessage δ
  | .request seq => .request localId seq
  | .yield grantee seq => .yield localId grantee seq

/-- The handlers of the inbound frames, past their checks. -/
def handleTurn (turn : WriteTurn δ) (now : Int64) : TurnMessage δ → WriteTurn δ
  | .request sender seq => turn.request sender seq
  | .yield _ grantee _ => (turn.applyYield grantee now).1
  | .revoke _ revoked epoch => (turn.applyRevoke revoked epoch).1

/-- Poll a view; every lease that ended is announced. -/
def pollExpiries (turn : WriteTurn δ) (localId : δ) (now : Int64) :
    WriteTurn δ × List (TurnMessage δ) :=
  let (next, events) := turn.poll now
  (next, events.filterMap fun
    | .revoked deviceId epoch => some (.revoke localId deviceId epoch)
    | .granted _ _ => none)

/-! ### The ring -/

/-- The views of all members, the frames under way and the common clock. -/
structure TurnRing (δ : Type u) where
  now : Int64
  view : δ → WriteTurn δ
  /-- Each frame with its receiver. -/
  flight : List (δ × TurnMessage δ)

inductive RingOp (δ : Type u) where
  | tick (later : Int64)
  | commit (member : δ)
  | poll (member : δ)
  | deliver (i : Nat)
  deriving DecidableEq, Repr

def TurnRing.new (start : Int64) : TurnRing δ := ⟨start, fun _ => .wholeSubtree, []⟩

/-- Send a frame to all members but the sender. -/
def fan (members : List δ) (sender : δ) (frame : TurnMessage δ) : List (δ × TurnMessage δ) :=
  (members.filter fun m => m ≠ sender).map fun m => (m, frame)

/-- A new view of one member, and what is under way then. -/
def TurnRing.put (s : TurnRing δ) (member : δ) (turn : WriteTurn δ)
    (flight : List (δ × TurnMessage δ)) : TurnRing δ :=
  { s with view := Function.update s.view member turn, flight }

/-- One step. A commit attempt waits until every frame is delivered. -/
def TurnRing.next (members : List δ) (s : TurnRing δ) : RingOp δ → Option (TurnRing δ)
  | .tick later => if s.now ≤ later then some { s with now := later } else none
  | .commit member =>
    if member ∈ members ∧ s.flight = [] then
      let (_, broadcast, turn) := gateSharedChainCommit (s.view member) member s.now
      some (s.put member turn
        (broadcast.toList.flatMap fun b => fan members member (b.frame member)))
    else none
  | .poll member =>
    if member ∈ members then
      let (turn, frames) := pollExpiries (s.view member) member s.now
      some (s.put member turn (s.flight ++ frames.flatMap (fan members member)))
    else none
  | .deliver i =>
    match s.flight[i]? with
    | none => none
    | some (receiver, message) =>
      some (s.put receiver (handleTurn (s.view receiver) s.now message) (s.flight.eraseIdx i))

def turnRing (members : List δ) (start : Int64) : System (TurnRing δ) (RingOp δ) :=
  System.ofFun (.new start) (TurnRing.next members)

/-! ### Live leases -/

/-- The view names `member` as the holder of a lease that has not run out. -/
def WriteTurn.HeldLive (t : WriteTurn δ) (member : δ) (now : Int64) : Prop :=
  ∃ h ∈ t.holder, h.deviceId = member ∧ now < h.revokeDeadline

/-- A member is inside a lease of its own. -/
def TurnRing.HoldsLive (s : TurnRing δ) (member : δ) : Prop :=
  (s.view member).HeldLive member s.now

/-- A member is inside a lease of its own, or a yield to it is under way. -/
def TurnRing.Owner (s : TurnRing δ) (member : δ) : Prop :=
  s.HoldsLive member ∨ ∃ sender seq, (member, TurnMessage.yield sender member seq) ∈ s.flight

theorem holdsLive_put_self {s : TurnRing δ} {member : δ} {turn : WriteTurn δ}
    {flight : List (δ × TurnMessage δ)} :
    (s.put member turn flight).HoldsLive member ↔ turn.HeldLive member s.now := by
  simp [TurnRing.HoldsLive, TurnRing.put]

theorem holdsLive_put_of_ne {s : TurnRing δ} {member x : δ} {turn : WriteTurn δ}
    {flight : List (δ × TurnMessage δ)} (h : x ≠ member) :
    (s.put member turn flight).HoldsLive x ↔ s.HoldsLive x := by
  simp [TurnRing.HoldsLive, TurnRing.put, Function.update_of_ne h]

/-- The own queue of a view hands the turn to `member`. -/
def WriteTurn.HandsTo (t : WriteTurn δ) (member : δ) (now : Int64) : Prop :=
  t.Lapsed now ∧ t.nextInLine = some member

/-- The lease of a member, where its view names it as the holder, has not run out. -/
def TurnRing.OwnLive (s : TurnRing δ) (member : δ) : Prop :=
  ∀ h ∈ (s.view member).holder, h.deviceId = member → s.now < h.revokeDeadline

/-- A commit attempt is not made on a lapsed lease of one's own; and where the own
queue hands a member the turn, nobody else is an owner. -/
def TurnRing.Agrees (s : TurnRing δ) : RingOp δ → Prop
  | .commit member => s.OwnLive member ∧
    ((s.view member).isHeldBy member = false →
      ((s.view member).request member (requestSeq s.now)).HandsTo member s.now →
      ∀ x, x ≠ member → ¬ s.Owner x)
  | .poll member => (s.view member).HandsTo member s.now → ∀ x, x ≠ member → ¬ s.Owner x
  | .tick _ => True
  | .deliver _ => True

/-! ### What a step leaves of a live lease -/

variable {t : WriteTurn δ} {s s' : TurnRing δ} {members : List δ} {member : δ} {now : Int64}

theorem request_holder {deviceId : δ} {seq : UInt64} :
    (t.request deviceId seq).holder = t.holder := by
  rw [WriteTurn.request]
  split
  · rfl
  · rfl

theorem heldLive_poll (h : (t.poll now).1.HeldLive member now) :
    t.HeldLive member now ∨ t.HandsTo member now := by
  by_cases hlapsed : t.Lapsed now
  · right
    obtain ⟨hold, hholder, hdevice, -⟩ := h
    rcases poll_lapsed hlapsed with ⟨-, hnext, -⟩ | ⟨w, -, -, hfirst, hnext, -⟩
    · rw [hnext] at hholder
      cases hholder
    · rw [hnext] at hholder
      cases hholder
      exact ⟨hlapsed, hdevice ▸ hfirst⟩
  · left
    rwa [poll_held hlapsed] at h

/-- A poll that hands the turn to `member` starts a live lease, while seconds are left. -/
theorem heldLive_of_handsTo (hseconds : now < Int64.maxValue)
    (httl : 0 < t.cfg.leaseTtl.toInt) (h : t.HandsTo member now) :
    (t.poll now).1.HeldLive member now := by
  obtain ⟨hlapsed, hfirst⟩ := h
  rcases poll_lapsed hlapsed with ⟨hempty, -⟩ | ⟨w, -, -, hfirst', hnext, -⟩
  · rw [WriteTurn.nextInLine, WriteTurn.nextGrant, hempty] at hfirst
    cases hfirst
  · obtain rfl : member = w.deviceId := Option.some.inj (hfirst.symm.trans hfirst')
    rw [hnext]
    refine ⟨_, rfl, rfl, Int64.lt_iff_toInt_lt.mpr ?_⟩
    have hseconds := Int64.lt_iff_toInt_lt.mp hseconds
    have hlow := now.minValue_le_toInt
    show now.toInt < (saturatingAdd now t.cfg.leaseTtl).toInt
    rw [toInt_saturatingAdd]
    omega

/-- Only a yield to the member itself makes it a holder. -/
theorem heldLive_handle {message : TurnMessage δ}
    (h : (handleTurn t now message).HeldLive member now) :
    t.HeldLive member now ∨ ∃ sender seq, message = .yield sender member seq := by
  cases message with
  | request sender seq =>
    left
    obtain ⟨hold, hholder, hrest⟩ := h
    rw [handleTurn, request_holder] at hholder
    exact ⟨hold, hholder, hrest⟩
  | yield sender grantee seq =>
    rw [handleTurn, WriteTurn.applyYield] at h
    split at h
    · exact Or.inl h
    · obtain ⟨hold, ⟨⟩, rfl, -⟩ := h
      exact Or.inr ⟨sender, seq, rfl⟩
  | revoke sender revoked epoch =>
    rw [handleTurn, WriteTurn.applyRevoke] at h
    split at h
    · obtain ⟨hold, ⟨⟩, -⟩ := h
    · exact Or.inl h

/-- **What the gate does.** The holder goes on, and gives the turn up where somebody
waits; anybody else goes on exactly where the poll makes it the holder. -/
theorem gate_cases (t : WriteTurn δ) (member : δ) (now : Int64) :
    (t.isHeldBy member = true ∧
      (gateSharedChainCommit t member now = (true, none, t) ∨ ∃ grantee seq,
        gateSharedChainCommit t member now =
          (true, some (.yield grantee seq), { t with holder := none }))) ∨
    (t.isHeldBy member = false ∧ ∃ proceed, gateSharedChainCommit t member now =
      (proceed, some (.request (requestSeq now)),
        ((t.request member (requestSeq now)).poll now).1)) := by
  by_cases hheld : t.isHeldBy member = true
  · refine Or.inl ⟨hheld, ?_⟩
    cases hnext : t.nextGrant with
    | none =>
      left
      simp [gateSharedChainCommit, decideTurnGate, hheld, hnext]
    | some first =>
      right
      refine ⟨first.1, first.2, ?_⟩
      simp [gateSharedChainCommit, decideTurnGate, hheld, hnext, WriteTurn.release]
  · refine Or.inr ⟨Bool.eq_false_iff.mpr hheld, ?_⟩
    by_cases hpolled : (((t.request member (requestSeq now)).poll now).1).isHeldBy member = true
    · exact ⟨true, by simp [gateSharedChainCommit, decideTurnGate, hheld, hpolled]⟩
    · exact ⟨false, by simp [gateSharedChainCommit, decideTurnGate, hheld, hpolled]⟩

/-! ### One owner -/

def TurnRing.OneOwner (s : TurnRing δ) : Prop := ∀ a b, s.Owner a → s.Owner b → a = b

omit [LinearOrder δ] in
theorem TurnRing.OneOwner.shrink (h : s.OneOwner) (hshrink : ∀ x, s'.Owner x → s.Owner x) :
    s'.OneOwner :=
  fun a b ha hb => h a b (hshrink a ha) (hshrink b hb)

theorem TurnRing.OneOwner.only (member : δ) (h : ∀ x, x ≠ member → ¬ s.Owner x) : s.OneOwner := by
  intro a b ha hb
  have hsole : ∀ x, s.Owner x → x = member := fun x hx => by
    by_contra hne
    exact h x hne hx
  rw [hsole a ha, hsole b hb]

theorem mem_fan {sender receiver : δ} {frame message : TurnMessage δ}
    (h : (receiver, message) ∈ fan members sender frame) : message = frame := by
  obtain ⟨m, -, heq⟩ := List.mem_map.mp h
  exact (Prod.mk.inj heq).2.symm

omit [LinearOrder δ] in
theorem oneOwner_tick {later : Int64} (hlater : s.now ≤ later) (h : s.OneOwner) :
    TurnRing.OneOwner { s with now := later } := by
  refine h.shrink ?_
  rintro x (⟨hold, hholder, hdevice, hlive⟩ | hyield)
  · exact Or.inl ⟨hold, hholder, hdevice, Int64.lt_of_le_of_lt hlater hlive⟩
  · exact Or.inr hyield

theorem oneOwner_deliver {i : Nat} {receiver : δ} {message : TurnMessage δ}
    (hi : s.flight[i]? = some (receiver, message)) (h : s.OneOwner) :
    (s.put receiver (handleTurn (s.view receiver) s.now message) (s.flight.eraseIdx i)).OneOwner := by
  refine h.shrink ?_
  rintro x (hlive | ⟨sender, seq, hmem⟩)
  · by_cases hx : x = receiver
    · subst hx
      rcases heldLive_handle (holdsLive_put_self.mp hlive) with hlive | ⟨sender, seq, rfl⟩
      · exact Or.inl hlive
      · exact Or.inr ⟨sender, seq, List.mem_of_getElem? hi⟩
    · exact Or.inl ((holdsLive_put_of_ne hx).mp hlive)
  · exact Or.inr ⟨sender, seq, List.mem_of_mem_eraseIdx hmem⟩

/-- Nobody but the member whose view is replaced becomes an owner by frames that are
not yields. -/
theorem owner_put_of_ne {turn : WriteTurn δ} {frames : List (δ × TurnMessage δ)} {x : δ}
    (hframes : ∀ receiver sender grantee seq,
      (receiver, TurnMessage.yield sender grantee seq) ∉ frames)
    (hx : x ≠ member) (h : (s.put member turn (s.flight ++ frames)).Owner x) : s.Owner x := by
  rcases h with hlive | ⟨sender, seq, hmem⟩
  · exact Or.inl ((holdsLive_put_of_ne hx).mp hlive)
  · rcases List.mem_append.mp hmem with hmem | hmem
    · exact Or.inr ⟨sender, seq, hmem⟩
    · exact absurd hmem (hframes _ _ _ _)

/-- A view replaced by one that its queue may have handed the turn. -/
theorem oneOwner_put (member : δ) (turn : WriteTurn δ) {frames : List (δ × TurnMessage δ)}
    (hframes : ∀ receiver sender grantee seq,
      (receiver, TurnMessage.yield sender grantee seq) ∉ frames)
    (hturn : turn.HeldLive member s.now →
      s.Owner member ∨ ∀ x, x ≠ member → ¬ s.Owner x) (h : s.OneOwner) :
    (s.put member turn (s.flight ++ frames)).OneOwner := by
  by_cases hlive : turn.HeldLive member s.now ∧ ∀ x, x ≠ member → ¬ s.Owner x
  · refine .only member ?_
    intro x hx howner
    exact hlive.2 x hx (owner_put_of_ne hframes hx howner)
  · refine h.shrink fun x howner => ?_
    by_cases hx : x = member
    · subst hx
      rcases howner with hheld | ⟨sender, seq, hmem⟩
      · have hheld := holdsLive_put_self.mp hheld
        exact (hturn hheld).resolve_right fun hsole => hlive ⟨hheld, hsole⟩
      · rcases List.mem_append.mp hmem with hmem | hmem
        · exact Or.inr ⟨sender, seq, hmem⟩
        · exact absurd hmem (hframes _ _ _ _)
    · exact owner_put_of_ne hframes hx howner

theorem pollExpiries_frames {receiver sender grantee : δ} {seq : UInt64} :
    (receiver, TurnMessage.yield sender grantee seq) ∉
      (pollExpiries t member now).2.flatMap (fan members member) := by
  intro hmem
  obtain ⟨frame, hframe, hmem⟩ := List.mem_flatMap.mp hmem
  obtain ⟨event, -, hevent⟩ := List.mem_filterMap.mp hframe
  rw [← mem_fan hmem] at hevent
  cases event with
  | granted deviceId epoch => cases hevent
  | revoked deviceId epoch => cases hevent

theorem oneOwner_poll (hagrees : s.Agrees (.poll member)) (h : s.OneOwner) :
    (s.put member (pollExpiries (s.view member) member s.now).1
      (s.flight ++ (pollExpiries (s.view member) member s.now).2.flatMap
        (fan members member))).OneOwner := by
  refine oneOwner_put member _ (fun _ _ _ _ => pollExpiries_frames) ?_ h
  intro hlive
  rcases heldLive_poll hlive with hlive | hhands
  · exact Or.inl (Or.inl hlive)
  · exact Or.inr (hagrees hhands)

theorem heldLive_of_ownLive (hown : s.OwnLive member)
    (hheld : (s.view member).isHeldBy member = true) : s.HoldsLive member := by
  obtain ⟨hold, hholder, hdevice⟩ := isHeldBy_iff.mp hheld
  exact ⟨hold, hholder, hdevice, hown hold hholder hdevice⟩

theorem oneOwner_commit (hflight : s.flight = []) (hagrees : s.Agrees (.commit member))
    (h : s.OneOwner) {proceed : Bool} {broadcast : Option (PendingTurnBroadcast δ)}
    {turn : WriteTurn δ}
    (hgate : gateSharedChainCommit (s.view member) member s.now = (proceed, broadcast, turn)) :
    (s.put member turn (broadcast.toList.flatMap fun b =>
      fan members member (b.frame member))).OneOwner := by
  obtain ⟨hown, hhands⟩ := hagrees
  rcases gate_cases (s.view member) member s.now with
    ⟨hheld, hcase⟩ | ⟨hheld, proceed', hcase⟩
  · have howner : s.Owner member := Or.inl (heldLive_of_ownLive hown hheld)
    rcases hcase with hcase | ⟨grantee, seq, hcase⟩
    · cases hgate.symm.trans hcase
      have hnone : ∀ receiver sender grantee seq,
          (receiver, TurnMessage.yield sender grantee seq) ∉ ([] : List (δ × TurnMessage δ)) :=
        fun _ _ _ _ => List.not_mem_nil
      have hput := oneOwner_put member (s.view member) hnone (fun _ => Or.inl howner) h
      rwa [hflight] at hput
    · cases hgate.symm.trans hcase
      refine .only grantee ?_
      rintro x hx (hlive | ⟨sender, seq', hmem⟩)
      · by_cases hm : x = member
        · subst hm
          obtain ⟨hold, ⟨⟩, -⟩ := holdsLive_put_self.mp hlive
        · exact hm (h _ _ (Or.inl ((holdsLive_put_of_ne hm).mp hlive)) howner)
      · obtain ⟨b, hb, hmem⟩ := List.mem_flatMap.mp hmem
        obtain rfl := List.mem_singleton.mp hb
        cases mem_fan hmem
        exact hx rfl
  · cases hgate.symm.trans hcase
    have hframes : ∀ receiver sender grantee seq,
        (receiver, TurnMessage.yield sender grantee seq) ∉
          fan members member (TurnMessage.request member (requestSeq s.now)) := by
      intro receiver sender grantee seq hmem
      cases mem_fan hmem
    have hput := oneOwner_put member
      (((s.view member).request member (requestSeq s.now)).poll s.now).1 hframes ?_ h
    · rw [hflight] at hput
      simpa [PendingTurnBroadcast.frame] using hput
    · intro hlive
      rcases heldLive_poll hlive with ⟨hold, hholder, hdevice, -⟩ | hhand
      · rw [request_holder] at hholder
        rw [isHeldBy_iff.mpr ⟨hold, hholder, hdevice⟩] at hheld
        cases hheld
      · exact Or.inr (hhands hheld hhand)

theorem TurnRing.OneOwner.step (h : s.OneOwner) {op : RingOp δ} (hagrees : s.Agrees op)
    (hstep : s.next members op = some s') : s'.OneOwner := by
  cases op with
  | tick later =>
    rw [TurnRing.next] at hstep
    split at hstep
    · rename_i hlater
      cases hstep
      exact oneOwner_tick hlater h
    · cases hstep
  | commit member =>
    rw [TurnRing.next] at hstep
    split at hstep
    · rename_i hready
      cases hstep
      exact oneOwner_commit hready.2 hagrees h rfl
    · cases hstep
  | poll member =>
    rw [TurnRing.next] at hstep
    split at hstep
    · cases hstep
      exact oneOwner_poll hagrees h
    · cases hstep
  | deliver i =>
    rw [TurnRing.next] at hstep
    split at hstep
    · cases hstep
    · rename_i hi
      cases hstep
      exact oneOwner_deliver hi h

variable {start : Int64}

omit [LinearOrder δ] in
theorem oneOwner_new : (TurnRing.new start : TurnRing δ).OneOwner := by
  have hnone : ∀ a, ¬ (TurnRing.new start : TurnRing δ).Owner a := by
    rintro a (⟨hold, ⟨⟩, -⟩ | ⟨sender, seq, ⟨⟩⟩)
  intro a b ha
  exact absurd ha (hnone a)

/-- Guarded runs keep one owner. -/
theorem oneOwner_of_guarded {ops : List (RingOp δ)}
    (h : (turnRing members start).Guarded (fun s op => s.Agrees op) (.new start) ops s) :
    s.OneOwner := by
  induction h with
  | refl => exact oneOwner_new
  | snoc hbefore hagrees hstep ih => exact ih.step hagrees hstep

/-! ### The views of a run -/

theorem TurnInvariant.apply (h : TurnInvariant .default t) (op : TurnOp δ) :
    TurnInvariant .default (t.apply op).1 := by
  have hstep : (turnSystem .wholeSubtree .default).step t (op, (t.apply op).2) (t.apply op).1 := rfl
  exact h.step hstep

theorem TurnInvariant.handle (h : TurnInvariant .default t) (message : TurnMessage δ) :
    TurnInvariant .default (handleTurn t now message) := by
  cases message with
  | request sender seq => exact h.apply (.request sender seq)
  | yield sender grantee seq => exact h.apply (.applyYield grantee now)
  | revoke sender revoked epoch => exact h.apply (.applyRevoke revoked epoch)

theorem TurnInvariant.gate (h : TurnInvariant .default t) :
    TurnInvariant .default (gateSharedChainCommit t member now).2.2 := by
  rcases gate_cases t member now with ⟨hheld, hcase | ⟨grantee, seq, hcase⟩⟩ | ⟨-, proceed, hcase⟩
  · rw [hcase]
    exact h
  · rw [hcase]
    have hrelease := h.apply (.release member)
    rwa [WriteTurn.apply, WriteTurn.release, if_pos hheld] at hrelease
  · rw [hcase]
    exact (h.apply (.request member (requestSeq now))).apply (.poll now)

theorem views_put {turn : WriteTurn δ} {flight : List (δ × TurnMessage δ)}
    (h : ∀ d, TurnInvariant .default (s.view d)) (hturn : TurnInvariant .default turn) :
    ∀ d, TurnInvariant .default ((s.put member turn flight).view d) := by
  intro d
  by_cases hd : d = member
  · subst hd
    simpa [TurnRing.put] using hturn
  · simpa [TurnRing.put, Function.update_of_ne hd] using h d

theorem views_step {op : RingOp δ} (h : ∀ d, TurnInvariant .default (s.view d))
    (hstep : s.next members op = some s') : ∀ d, TurnInvariant .default (s'.view d) := by
  cases op with
  | tick later =>
    rw [TurnRing.next] at hstep
    split at hstep
    · cases hstep
      exact h
    · cases hstep
  | commit member =>
    rw [TurnRing.next] at hstep
    split at hstep
    · cases hstep
      exact views_put h (h member).gate
    · cases hstep
  | poll member =>
    rw [TurnRing.next] at hstep
    split at hstep
    · cases hstep
      exact views_put h ((h member).apply (.poll s.now))
    · cases hstep
  | deliver i =>
    rw [TurnRing.next] at hstep
    split at hstep
    · cases hstep
    · cases hstep
      exact views_put h ((h _).handle _)

theorem views_of_run {ops : List (RingOp δ)}
    (h : (turnRing members start).Run (.new start) ops s) :
    ∀ d, TurnInvariant .default (s.view d) := by
  have hnew : ∀ d, TurnInvariant .default ((TurnRing.new start : TurnRing δ).view d) :=
    fun _ => .new
  exact h.invariant (P := fun s => ∀ d, TurnInvariant .default (s.view d))
    (fun _ _ _ hviews hstep => views_step hviews hstep) hnew

/-! ### The turn ring -/

/-- The gate lets a lapsed lease pass. -/
theorem gate_proceeds (h : ¬ s.OwnLive member) :
    (gateSharedChainCommit (s.view member) member s.now).1 = true := by
  have hheld : (s.view member).isHeldBy member = true := by
    simp only [TurnRing.OwnLive, not_forall] at h
    obtain ⟨hold, hholder, hdevice, -⟩ := h
    exact isHeldBy_iff.mpr ⟨hold, hholder, hdevice⟩
  rcases gate_cases (s.view member) member s.now with
    ⟨-, hcase | ⟨grantee, seq, hcase⟩⟩ | ⟨hother, -⟩
  · rw [hcase]
  · rw [hcase]
  · rw [hheld] at hother
    cases hother

/-- A turn taken beside another owner makes two owners. -/
theorem not_owner_of_handsTo {turn : WriteTurn δ} {frames : List (δ × TurnMessage δ)}
    (hseconds : s.now < Int64.maxValue) (hturn : TurnInvariant .default turn)
    (hhands : turn.HandsTo member s.now)
    (h : (s.put member (turn.poll s.now).1 (s.flight ++ frames)).OneOwner) {x : δ}
    (hx : x ≠ member) : ¬ s.Owner x := by
  intro howner
  obtain ⟨httl, -⟩ := LeaseConfig.sane_iff.mp hturn.sane
  refine hx (h _ _ ?_ (Or.inl (holdsLive_put_self.mpr
    (heldLive_of_handsTo hseconds httl hhands))))
  rcases howner with hlive | ⟨sender, seq, hmem⟩
  · exact Or.inl ((holdsLive_put_of_ne hx).mpr hlive)
  · exact Or.inr ⟨sender, seq, List.mem_append_left _ hmem⟩

theorem agrees_of_oneOwner (hviews : ∀ d, TurnInvariant .default (s.view d)) {op : RingOp δ}
    (hseconds : s.now < Int64.maxValue) (hown : ∀ m, op = .commit m → s.OwnLive m)
    (hstep : s.next members op = some s') (h : s'.OneOwner) : s.Agrees op := by
  cases op with
  | tick later => trivial
  | deliver i => trivial
  | poll member =>
    rw [TurnRing.next] at hstep
    split at hstep
    · cases hstep
      intro hhands x hx
      exact not_owner_of_handsTo hseconds (hviews member) hhands h hx
    · cases hstep
  | commit member =>
    refine ⟨hown member rfl, fun hother hhands x hx => ?_⟩
    rw [TurnRing.next] at hstep
    split at hstep
    · rename_i hready
      rcases gate_cases (s.view member) member s.now with ⟨hheld, -⟩ | ⟨-, proceed, hcase⟩
      · rw [hother] at hheld
        cases hheld
      · rw [hcase] at hstep
        cases hstep
        have hrequest : TurnInvariant .default
            ((s.view member).request member (requestSeq s.now)) :=
          (hviews member).apply (.request member (requestSeq s.now))
        have hput : (s.put member (((s.view member).request member (requestSeq s.now)).poll s.now).1
            (s.flight ++ fan members member (.request member (requestSeq s.now)))).OneOwner := by
          rw [hready.2]
          simpa [PendingTurnBroadcast.frame] using h
        exact not_owner_of_handsTo hseconds hrequest hhands hput hx
    · cases hstep

/-- **One holder.** In every run where no member's own queue hands it the turn beside
another owner and no commit is tried on a lapsed lease of one's own, at most one
member is inside a live lease, and the gate lets no lapsed lease pass. The condition
is exact: the gate lets every lapsed lease pass, and a step that breaks the rest of
it makes a second owner. -/
theorem turn_ring_safe (members : List δ) (start : Int64) {ops : List (RingOp δ)}
    {s : TurnRing δ}
    (h : (turnRing members start).Guarded (fun s op => s.Agrees op) (.new start) ops s) :
    (∀ a b, s.HoldsLive a → s.HoldsLive b → a = b) ∧
    (∀ m, ((gateSharedChainCommit (s.view m) m s.now).1 = true → s.OwnLive m) ↔ s.OwnLive m) ∧
    ∀ op s', (turnRing members start).step s op s' → s.now < Int64.maxValue →
      (∀ m, op = .commit m → s.OwnLive m) → (s'.OneOwner ↔ s.Agrees op) := by
  have hone := oneOwner_of_guarded h
  refine ⟨?_, ?_, ?_⟩
  · intro a b ha hb
    exact hone a b (Or.inl ha) (Or.inl hb)
  · intro m
    refine ⟨fun hgate => ?_, fun hown _ => hown⟩
    by_contra hlapsed
    exact hlapsed (hgate (gate_proceeds hlapsed))
  · intro op s' hstep hseconds hown
    exact ⟨agrees_of_oneOwner (views_of_run h.run) hseconds hown hstep,
      fun hagrees => hone.step hagrees hstep⟩

/-! ### Two members -/

/-- The view of a member that took the turn at second 0. -/
def takenTurn (member : ℕ) : WriteTurn ℕ :=
  ⟨some ⟨member, 0, 30, 1⟩, [], .wholeSubtree, .default, 2⟩

/-- The view of a member that heard of a request made at second 0. -/
def toldTurn (member : ℕ) : WriteTurn ℕ := ⟨none, [⟨member, 0⟩], .wholeSubtree, .default, 1⟩

/-- One member took the turn, and the other was told. -/
def takenRing (taker other : ℕ) : TurnRing ℕ :=
  ((TurnRing.new 0).put taker (takenTurn taker) [(other, .request taker 0)]).put other
    (toldTurn taker) []

theorem takenRing_guarded : (turnRing [1, 2] 0).Guarded (fun s op => s.Agrees op) (.new 0)
    [.commit 1, .deliver 0] (takenRing 1 2) := by
  have hcommit : (turnRing [1, 2] 0).step (.new 0) (.commit 1)
      ((TurnRing.new 0).put 1 (takenTurn 1) [(2, .request 1 0)]) := by rfl
  have hdeliver : (turnRing [1, 2] 0).step
      ((TurnRing.new 0).put 1 (takenTurn 1) [(2, .request 1 0)]) (.deliver 0) (takenRing 1 2) := by
    rfl
  refine .snoc (.snoc (.refl _) ⟨?_, ?_⟩ hcommit) trivial hdeliver
  · rintro hold ⟨⟩
  · rintro - - x - (⟨hold, ⟨⟩, -⟩ | ⟨sender, seq, ⟨⟩⟩)

/-- After the first member took the turn it is the only one inside a lease. -/
theorem turn_ring_safe_taken : (takenRing 1 2).HoldsLive 1 ∧ ¬ (takenRing 1 2).HoldsLive 2 := by
  have hlive : (takenRing 1 2).HoldsLive 1 := ⟨_, rfl, rfl, by decide⟩
  refine ⟨hlive, fun hother => ?_⟩
  have hsame := (turn_ring_safe [1, 2] 0 takenRing_guarded).1 1 2 hlive hother
  exact absurd hsame (by decide)

/-- In the same second the second member takes the turn, and is told; the request of
the first comes before it. -/
theorem turn_ring_safe_fails : ¬ ∀ (members : List ℕ) (start : Int64) (ops : List (RingOp ℕ))
    (s : TurnRing ℕ), (turnRing members start).Run (.new start) ops s →
    (∀ a b, s.HoldsLive a → s.HoldsLive b → a = b) ∧
    ∀ m, (gateSharedChainCommit (s.view m) m s.now).1 = true → s.OwnLive m := by
  intro h
  have hcommit : (turnRing [1, 2] 0).step (.new 0) (.commit 2)
      ((TurnRing.new 0).put 2 (takenTurn 2) [(1, .request 2 0)]) := by rfl
  have hdeliver : (turnRing [1, 2] 0).step
      ((TurnRing.new 0).put 2 (takenTurn 2) [(1, .request 2 0)]) (.deliver 0) (takenRing 2 1) := by
    rfl
  have hsecond : (turnRing [1, 2] 0).step (takenRing 2 1) (.commit 1)
      ((takenRing 2 1).put 1 ⟨some ⟨1, 0, 30, 1⟩, [⟨2, 0⟩], .wholeSubtree, .default, 2⟩
        [(2, .request 1 0)]) := by rfl
  have hrun := ((System.Run.single hcommit).snoc hdeliver).snoc hsecond
  have hsame := (h _ _ _ _ hrun).1 1 2 ⟨_, rfl, rfl, by decide⟩ ⟨_, rfl, rfl, by decide⟩
  exact absurd hsame (by decide)

end Softfig.Net
