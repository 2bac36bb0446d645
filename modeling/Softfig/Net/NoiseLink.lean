import Mathlib.Logic.Function.Basic
import Softfig.Lib.Transition
import Softfig.Net.Transport

/-!
The two ends of a Noise session, each whole or split into halves, and the bytes under way: sends,
receives and splits in any order.

Each direction has a cipher of its own and a nonce at either end, so a step of one end touches
one direction only (`flow_step`). A receive waits where the bytes of its message are not all there.

- `Orderly`: what is under way in a direction is the messages sent and not received, in order;
- `orderly`: every reachable link is orderly in a direction with no message over the cap;
- `noise_stream_iff`: a sequence of messages arrives exactly where none is over the cap.
-/

namespace Softfig.Net

open Softfig.Vault (Bytes)
open Softfig.Lib

inductive Side where
  | initiator
  | responder
deriving DecidableEq, Repr

def Side.other : Side → Side
  | .initiator => .responder
  | .responder => .initiator

@[simp]
theorem Side.other_other (side : Side) : side.other.other = side := by
  cases side with
  | initiator => rfl
  | responder => rfl

theorem Side.other_ne (side : Side) : side.other ≠ side := by
  cases side with
  | initiator => exact nofun
  | responder => exact nofun

theorem Side.eq_other {side s : Side} (h : s ≠ side) : s = side.other := by
  cases side with
  | initiator =>
    cases s with
    | initiator => exact absurd rfl h
    | responder => rfl
  | responder =>
    cases s with
    | initiator => rfl
    | responder => exact absurd rfl h

structure NoiseSession where
  sendNonce : UInt64
  recvNonce : UInt64

structure NoiseReader where
  recvNonce : UInt64

structure NoiseWriter where
  sendNonce : UInt64

/-- The nonces carry over to the halves. -/
def NoiseSession.split (s : NoiseSession) : NoiseReader × NoiseWriter :=
  (⟨s.recvNonce⟩, ⟨s.sendNonce⟩)

/-- One end: a session, or the halves it was split into. -/
inductive Endpoint where
  | session (s : NoiseSession)
  | halves (reader : NoiseReader) (writer : NoiseWriter)

namespace Endpoint

def sendNonce : Endpoint → UInt64
  | session s => s.sendNonce
  | halves _ writer => writer.sendNonce

def recvNonce : Endpoint → UInt64
  | session s => s.recvNonce
  | halves reader _ => reader.recvNonce

def sentAt (nonce : UInt64) : Endpoint → Endpoint
  | session s => .session { s with sendNonce := nonce }
  | halves reader _ => .halves reader ⟨nonce⟩

def receivedAt (nonce : UInt64) : Endpoint → Endpoint
  | session s => .session { s with recvNonce := nonce }
  | halves _ writer => .halves ⟨nonce⟩ writer

/-- Halves have no session to split. -/
def split : Endpoint → Endpoint
  | session s => .halves s.split.1 s.split.2
  | halves reader writer => .halves reader writer

variable (e : Endpoint) (nonce : UInt64)

@[simp]
theorem sendNonce_sentAt : (e.sentAt nonce).sendNonce = nonce := by cases e <;> rfl

@[simp]
theorem recvNonce_sentAt : (e.sentAt nonce).recvNonce = e.recvNonce := by cases e <;> rfl

@[simp]
theorem sendNonce_receivedAt : (e.receivedAt nonce).sendNonce = e.sendNonce := by cases e <;> rfl

@[simp]
theorem recvNonce_receivedAt : (e.receivedAt nonce).recvNonce = nonce := by cases e <;> rfl

@[simp]
theorem sendNonce_split : e.split.sendNonce = e.sendNonce := by cases e <;> rfl

@[simp]
theorem recvNonce_split : e.split.recvNonce = e.recvNonce := by cases e <;> rfl

end Endpoint

/-- Both ends; for each side the bytes it wrote that are not read yet, the messages it sent, and
what the other side's calls of `recv_bytes` returned. -/
structure Link where
  ends : Side → Endpoint
  wire : Side → Bytes
  sent : Side → List Bytes
  received : Side → List (Except NetError Bytes)

inductive LinkOp where
  | send (side : Side) (msg : Bytes)
  | recv (side : Side)
  | split (side : Side)

namespace Link

/-- Behind the handshake both nonces are 0 at either end. -/
def start : Link := ⟨fun _ => .session ⟨0, 0⟩, fun _ => [], fun _ => [], fun _ => []⟩

variable (c : Side → Cipher)

/-- A refused send is no step, and a receive waits while its message is not all there. -/
def step (link : Link) : LinkOp → Option Link
  | .send side msg =>
    match sendBytesInner (c side) (link.ends side).sendNonce (link.wire side) msg with
    | (.ok (), nonce, io) => some
        { link with
          ends := Function.update link.ends side ((link.ends side).sentAt nonce)
          wire := Function.update link.wire side io
          sent := Function.update link.sent side (link.sent side ++ [msg]) }
    | (.error _, _, _) => none
  | .recv side =>
    match recvBytesInner (c side.other) (link.ends side).recvNonce (link.wire side.other) with
    | (.error .io, _, _) => none
    | (result, nonce, io) => some
        { link with
          ends := Function.update link.ends side ((link.ends side).receivedAt nonce)
          wire := Function.update link.wire side.other io
          received := Function.update link.received side.other
            (link.received side.other ++ [result]) }
  | .split side => some { link with ends := Function.update link.ends side (link.ends side).split }

def system : System Link LinkOp := System.ofFun start (step c)

/-- What concerns one direction. -/
structure Flow where
  sendNonce : UInt64
  recvNonce : UInt64
  wire : Bytes
  sent : List Bytes
  received : List (Except NetError Bytes)

/-- The direction a side writes. -/
def flow (link : Link) (side : Side) : Flow :=
  ⟨(link.ends side).sendNonce, (link.ends side.other).recvNonce, link.wire side, link.sent side,
    link.received side⟩

/-- A step of the link, as one direction sees it. -/
inductive FlowStep (c : Cipher) (f : Flow) : Flow → Prop
  | idle : FlowStep c f f
  | send {msg io : Bytes} {nonce : UInt64} :
    sendBytesInner c f.sendNonce f.wire msg = (.ok (), nonce, io) →
      FlowStep c f { f with sendNonce := nonce, wire := io, sent := f.sent ++ [msg] }
  | recv {result : Except NetError Bytes} {io : Bytes} {nonce : UInt64} :
    recvBytesInner c f.recvNonce f.wire = (result, nonce, io) → result ≠ .error .io →
      FlowStep c f { f with recvNonce := nonce, wire := io, received := f.received ++ [result] }

/-! ### One direction -/

variable {c} {link next : Link} {op : LinkOp}

/-- **One direction.** A step of the link is a step of each direction, or none. -/
theorem flow_step (h : link.step c op = some next) (s : Side) :
    FlowStep (c s) (link.flow s) (next.flow s) := by
  cases op with
  | send side msg =>
    rw [step] at h
    split at h
    · next nonce io hsend =>
      cases h
      by_cases hs : s = side
      · subst hs
        simpa [flow, Function.update_of_ne (Side.other_ne s)] using
          FlowStep.send (f := link.flow s) hsend
      · have hother := Side.eq_other hs
        subst hother
        simpa [flow, Function.update_of_ne (Side.other_ne side)] using
          FlowStep.idle (c := c side.other) (f := link.flow side.other)
    · cases h
  | recv side =>
    rw [step] at h
    split at h
    · cases h
    · next result nonce io hwait hrecv =>
      cases h
      by_cases hs : s = side
      · subst hs
        simpa [flow, Function.update_of_ne (Side.other_ne s),
          Function.update_of_ne (Side.other_ne s).symm] using
          FlowStep.idle (c := c s) (f := link.flow s)
      · have hother := Side.eq_other hs
        subst hother
        have hrecv' : recvBytesInner (c side.other) (link.flow side.other).recvNonce
            (link.flow side.other).wire = (result, nonce, io) := by
          simpa [flow] using hrecv
        simpa [flow, Function.update_of_ne (Side.other_ne side)] using
          FlowStep.recv hrecv' hwait
  | split side =>
    rw [step] at h
    cases h
    by_cases hs : s = side
    · subst hs
      simpa [flow, Function.update_of_ne (Side.other_ne s)] using
        FlowStep.idle (c := c s) (f := link.flow s)
    · have hother := Side.eq_other hs
      subst hother
      simpa [flow, Function.update_of_ne (Side.other_ne side)] using
        FlowStep.idle (c := c side.other) (f := link.flow side.other)

theorem FlowStep.sent {c : Cipher} {f f' : Flow} (h : FlowStep c f f') : f.sent <+: f'.sent := by
  cases h with
  | idle => exact List.prefix_refl _
  | send => exact List.prefix_append _ _
  | recv => exact List.prefix_refl _

/-! ### What is under way -/

/-- Messages written one after the other, from a nonce on, and the nonce behind them. -/
inductive Messages (c : Cipher) : UInt64 → List Bytes → Bytes → UInt64 → Prop
  | nil (nonce : UInt64) : Messages c nonce [] [] nonce
  | cons {nonce mid nonce' : UInt64} {msg blobs wire : Bytes} {msgs : List Bytes} :
    Sealed c nonce (chunks maxPlaintextChunk (framed msg)) blobs mid →
      Messages c mid msgs wire nonce' → Messages c nonce (msg :: msgs) (blobs ++ wire) nonce'

theorem Messages.concat {c : Cipher} {nonce mid nonce' : UInt64} {msg blobs wire : Bytes}
    {msgs : List Bytes} (h : Messages c nonce msgs wire mid)
    (hsealed : Sealed c mid (chunks maxPlaintextChunk (framed msg)) blobs nonce') :
    Messages c nonce (msgs ++ [msg]) (wire ++ blobs) nonce' := by
  induction h with
  | nil =>
    rw [List.nil_append, List.nil_append, ← List.append_nil blobs]
    exact .cons hsealed (.nil _)
  | cons hfirst _ ih =>
    rw [List.append_assoc]
    exact .cons hfirst (ih hsealed)

theorem sendBytesInner_ok {c : Cipher} {nonce nonce' : UInt64} {msg io io' : Bytes}
    (h : sendBytesInner c nonce io msg = (.ok (), nonce', io')) :
    ∃ blobs, io' = io ++ blobs ∧
      Sealed c nonce (chunks maxPlaintextChunk (framed msg)) blobs nonce' := by
  rw [sendBytesInner] at h
  split at h
  · exact sendChunks_ok.mp h
  · cases h

/-- A message within the cap is received as it was sent, and the rest stays under way. -/
theorem recvBytesInner_sealed {c : Cipher} (hc : c.Lawful) {nonce mid : UInt64}
    {msg blobs wire : Bytes}
    (hsealed : Sealed c nonce (chunks maxPlaintextChunk (framed msg)) blobs mid)
    (hcap : msg.length ≤ maxMessageLen) :
    recvBytesInner c nonce (blobs ++ wire) = (.ok msg, mid, wire) := by
  have hsize : 0 < maxPlaintextChunk := by decide
  have hflat : (chunks maxPlaintextChunk (framed msg)).flatten = framed msg := flatten_chunks hsize
  have hne : chunks maxPlaintextChunk (framed msg) ≠ [] := by
    intro hnil
    have hlength := congrArg List.length hflat
    rw [hnil, length_framed, List.flatten_nil, List.length_nil] at hlength
    omega
  exact recvLoop_sealed hc hsealed (fun _ => ne_nil_of_mem_chunks hsize) hne hflat hcap

/-- What was received is what was sent first, and the rest is under way. -/
structure Orderly (c : Cipher) (f : Flow) (pending : List Bytes) : Prop where
  received : ∃ delivered, f.sent = delivered ++ pending ∧ f.received = delivered.map .ok
  wire : Messages c f.recvNonce pending f.wire f.sendNonce

theorem Orderly.nil {f : Flow} {c : Cipher} (h : Orderly c f []) :
    f.sendNonce = f.recvNonce ∧ f.wire = [] := by
  have hwire := h.wire
  cases hwire' : f.wire with
  | nil =>
    rw [hwire'] at hwire
    generalize f.sendNonce = n at hwire ⊢
    cases hwire
    exact ⟨rfl, rfl⟩
  | cons b rest =>
    rw [hwire'] at hwire
    cases hwire

theorem Orderly.recv {f : Flow} {c : Cipher} (hc : c.Lawful) {msg : Bytes} {pending : List Bytes}
    (h : Orderly c f (msg :: pending)) (hcap : msg.length ≤ maxMessageLen) :
    ∃ nonce io, recvBytesInner c f.recvNonce f.wire = (.ok msg, nonce, io) ∧
      Orderly c { f with recvNonce := nonce, wire := io, received := f.received ++ [.ok msg] }
        pending := by
  obtain ⟨⟨delivered, hsent, hreceived⟩, hwire⟩ := h
  generalize hio : f.wire = wire at hwire
  cases hwire with
  | @cons _ mid _ _ blobs wire _ hsealed hrest =>
    refine ⟨mid, wire, recvBytesInner_sealed hc hsealed hcap, ⟨delivered ++ [msg], ?_, ?_⟩, hrest⟩
    · rw [hsent, List.append_assoc]
      rfl
    · rw [hreceived, List.map_append]
      rfl

/-- With nothing under way a receive waits. -/
theorem recvBytesInner_nil (c : Cipher) (nonce : UInt64) :
    (recvBytesInner c nonce []).1 = .error .io := by
  rw [recvBytesInner, recvLoop]
  rfl

theorem Orderly.step {f f' : Flow} {c : Cipher} (hc : c.Lawful) {pending : List Bytes}
    (h : Orderly c f pending) (hstep : FlowStep c f f')
    (hcap : ∀ msg ∈ f'.sent, msg.length ≤ maxMessageLen) : ∃ pending, Orderly c f' pending := by
  cases hstep with
  | idle => exact ⟨pending, h⟩
  | @send msg io nonce hsend =>
    obtain ⟨blobs, rfl, hsealed⟩ := sendBytesInner_ok hsend
    obtain ⟨delivered, hsent, hreceived⟩ := h.received
    refine ⟨pending ++ [msg], ⟨delivered, ?_, hreceived⟩, h.wire.concat hsealed⟩
    rw [← List.append_assoc, ← hsent]
  | recv hrecv hwait =>
    cases pending with
    | nil =>
      rw [h.nil.2] at hrecv
      have hnil := recvBytesInner_nil c f.recvNonce
      rw [hrecv] at hnil
      exact absurd hnil hwait
    | cons msg pending =>
      obtain ⟨delivered, hsent, -⟩ := h.received
      have hmem : msg ∈ f.sent := by
        rw [hsent]
        simp
      obtain ⟨nonce, io, hgot, hnext⟩ := h.recv hc (hcap msg hmem)
      rw [hgot] at hrecv
      cases hrecv
      exact ⟨pending, hnext⟩

/-- **Order.** In a direction with no message over the cap, every reachable link is orderly. -/
theorem orderly (hc : ∀ s, (c s).Lawful) {s : Side} (h : (system c).Reachable link)
    (hcap : ∀ msg ∈ link.sent s, msg.length ≤ maxMessageLen) :
    ∃ pending, Orderly (c s) (link.flow s) pending := by
  revert hcap
  refine System.Reachable.invariant (P := fun link => (∀ msg ∈ link.sent s,
    msg.length ≤ maxMessageLen) → ∃ pending, Orderly (c s) (link.flow s) pending) ?_ ?_ h
  · rintro link rfl -
    exact ⟨[], ⟨[], rfl, rfl⟩, .nil _⟩
  · intro link op next _ ih hstep hcap
    have hflow := flow_step hstep s
    have hold : ∀ msg ∈ link.sent s, msg.length ≤ maxMessageLen := by
      intro msg hmsg
      refine hcap msg ?_
      have hsent : link.sent s <+: next.sent s := hflow.sent
      exact hsent.subset hmsg
    obtain ⟨pending, horderly⟩ := ih hold
    exact horderly.step (hc s) hflow hcap

/-! ### A sequence of messages -/

/-- The direction a side writes, at its other end: what was received is what was sent, in order;
the next call returns the next message; and where as many were received as sent, both nonces are
equal and no byte is left. -/
structure Delivers (c : Side → Cipher) (link : Link) (side : Side) : Prop where
  received : link.received side <+: (link.sent side).map .ok
  next : ∀ msg, (link.sent side)[(link.received side).length]? = some msg →
    ∃ next, link.step c (.recv side.other) = some next ∧
      next.received side = link.received side ++ [.ok msg]
  settled : (link.received side).length = (link.sent side).length →
    (link.ends side).sendNonce = (link.ends side.other).recvNonce ∧ link.wire side = []

/-- The messages are delivered whatever else the two ends do, and wherever they split. -/
def Delivered (c : Side → Cipher) (side : Side) (msgs : List Bytes) : Prop :=
  ∀ link, (system c).Reachable link → link.sent side = msgs → link.Delivers c side

/-- `send_bytes` accepts the messages, one after the other. -/
def Accepted (c : Side → Cipher) (side : Side) (msgs : List Bytes) : Prop :=
  (System.replay (step c) start (msgs.map (.send side))).isSome

instance (side : Side) (msgs : List Bytes) : Decidable (Accepted c side msgs) :=
  inferInstanceAs (Decidable (Option.isSome _ = true))

theorem step_recv {result : Except NetError Bytes} {nonce : UInt64} {io : Bytes} {side : Side}
    (hrecv : recvBytesInner (c side) (link.flow side).recvNonce (link.flow side).wire =
      (result, nonce, io)) (hwait : result ≠ .error .io) :
    ∃ next, link.step c (.recv side.other) = some next ∧
      next.received side = link.received side ++ [result] := by
  rw [flow] at hrecv
  simp only [step, Side.other_other, hrecv]
  cases result with
  | ok msg => exact ⟨_, rfl, Function.update_self ..⟩
  | error e =>
    cases e with
    | io => exact absurd rfl hwait
    | protocol reason => exact ⟨_, rfl, Function.update_self ..⟩
    | noise => exact ⟨_, rfl, Function.update_self ..⟩

theorem sent_of_recv {side : Side} (h : link.step c (.recv side) = some next) :
    next.sent = link.sent := by
  rw [step] at h
  split at h
  · cases h
  · cases h
    rfl

theorem delivers_of_orderly (hc : ∀ s, (c s).Lawful) {side : Side} {pending : List Bytes}
    (h : Orderly (c side) (link.flow side) pending)
    (hcap : ∀ msg ∈ link.sent side, msg.length ≤ maxMessageLen) : link.Delivers c side := by
  obtain ⟨delivered, hsent, hreceived⟩ := h.received
  have hlength : (link.received side).length = delivered.length := by
    rw [show link.received side = delivered.map .ok from hreceived, List.length_map]
  have hsent' : link.sent side = delivered ++ pending := hsent
  refine ⟨⟨pending.map .ok, ?_⟩, ?_, ?_⟩
  · rw [hsent', List.map_append]
    exact congrArg (· ++ _) hreceived
  · intro msg hmsg
    rw [hsent', hlength, List.getElem?_append_right (Nat.le_refl _), Nat.sub_self] at hmsg
    cases pending with
    | nil => cases hmsg
    | cons first pending =>
      cases hmsg
      obtain ⟨nonce, io, hrecv, -⟩ := h.recv (hc side) (hcap msg (by rw [hsent']; simp))
      exact step_recv hrecv nofun
  · intro hall
    rw [hsent', hlength, List.length_append] at hall
    have hnil : pending = [] := List.length_eq_zero_iff.mp (by omega)
    subst hnil
    exact h.nil

/-- No message over the cap is ever returned. -/
theorem length_of_received {s : Side} (h : (system c).Reachable link) {msg : Bytes}
    (hmsg : .ok msg ∈ link.received s) : msg.length ≤ maxMessageLen := by
  revert hmsg
  refine System.Reachable.invariant (P := fun link => .ok msg ∈ link.received s →
    msg.length ≤ maxMessageLen) ?_ ?_ h
  · rintro link rfl hmsg
    cases hmsg
  · intro link op next _ ih hstep hmsg
    have hflow := flow_step hstep s
    change .ok msg ∈ (next.flow s).received at hmsg
    generalize next.flow s = f' at hflow hmsg
    cases hflow with
    | idle => exact ih hmsg
    | send => exact ih hmsg
    | recv hrecv =>
      rcases List.mem_append.mp hmsg with hmsg | hmsg
      · exact ih hmsg
      · rw [← List.mem_singleton.mp hmsg] at hrecv
        refine length_of_recvLoop ?_ (congrArg Prod.fst hrecv)
        intro len hlen
        cases hlen

theorem step_send {side : Side} {msg : Bytes} (h : link.step c (.send side msg) = some next) :
    next.sent side = link.sent side ++ [msg] ∧ next.received = link.received := by
  rw [step] at h
  split at h
  · cases h
    exact ⟨Function.update_self .., rfl⟩
  · cases h

theorem replay_sends {side : Side} {msgs : List Bytes}
    (h : System.replay (step c) link (msgs.map (.send side)) = some next) :
    next.sent side = link.sent side ++ msgs ∧ next.received = link.received := by
  induction msgs generalizing link with
  | nil =>
    cases h
    exact ⟨(List.append_nil _).symm, rfl⟩
  | cons msg msgs ih =>
    rw [List.map_cons, System.replay] at h
    split at h
    · cases h
    · next mid hmid =>
      obtain ⟨hsent, hreceived⟩ := step_send hmid
      obtain ⟨hsent', hreceived'⟩ := ih h
      refine ⟨?_, hreceived'.trans hreceived⟩
      rw [hsent', hsent, List.append_assoc]
      rfl

/-- Messages that are delivered can all be received. -/
theorem Delivered.receives {side : Side} {msgs : List Bytes} (haccepted : Accepted c side msgs)
    (h : Delivered c side msgs) {k : Nat} (hk : k ≤ msgs.length) :
    ∃ link, (system c).Reachable link ∧ link.sent side = msgs ∧
      link.received side = (msgs.take k).map .ok := by
  induction k with
  | zero =>
    obtain ⟨link, hlink⟩ := Option.isSome_iff_exists.mp haccepted
    obtain ⟨hsent, hreceived⟩ := replay_sends hlink
    exact ⟨link, ⟨start, _, rfl, System.replay_run hlink⟩, hsent, congrFun hreceived side⟩
  | succ k ih =>
    obtain ⟨link, hreach, hsent, hreceived⟩ := ih (Nat.le_of_succ_le hk)
    have hmsg : (link.sent side)[(link.received side).length]? = some msgs[k] := by
      rw [hsent, hreceived, List.length_map, List.length_take,
        Nat.min_eq_left (Nat.le_of_succ_le hk)]
      exact List.getElem?_eq_getElem hk
    obtain ⟨next, hnext, hgot⟩ := (h link hreach hsent).next _ hmsg
    refine ⟨next, hreach.step hnext, ?_, ?_⟩
    · rw [sent_of_recv hnext, hsent]
    · rw [hgot, hreceived, List.take_succ_eq_append_getElem hk, List.map_append]
      rfl

/-- **Messages over a stream.** -/
theorem delivered_iff (hc : ∀ s, (c s).Lawful) {side : Side} {msgs : List Bytes}
    (haccepted : Accepted c side msgs) :
    Delivered c side msgs ↔ ∀ msg ∈ msgs, msg.length ≤ maxMessageLen := by
  constructor
  · intro h msg hmsg
    obtain ⟨link, hreach, -, hreceived⟩ := h.receives haccepted (Nat.le_refl _)
    refine length_of_received (s := side) hreach ?_
    rw [hreceived, List.take_length]
    exact List.mem_map_of_mem hmsg
  · intro hcap link hreach hsent
    subst hsent
    obtain ⟨pending, h⟩ := orderly hc hreach hcap
    exact delivers_of_orderly hc h hcap

/-- **The stream of a Noise session.** A sequence of messages that `send_bytes` accepts arrives, in
every run of both ends, exactly where none is over the cap; and whatever bytes a peer writes, a
`recv_bytes` never holds more than the cap and one chunk. -/
theorem noise_stream_iff (hc : ∀ s, (c s).Lawful) (side : Side) (msgs : List Bytes)
    (haccepted : Accepted c side msgs) :
    (Delivered c side msgs ↔ ∀ msg ∈ msgs, msg.length ≤ maxMessageLen) ∧
      ∀ (io : Bytes) (nonce : UInt64) {left ct rest acc plain : Bytes} {n : UInt64}
        {expected : Option Nat}, Receiving (c side) io nonce left n acc expected →
        readLp left = .ok (ct, rest) → (c side).read n ct = some plain →
        (acc ++ plain).length ≤ maxMessageLen + noiseMaxMsg := by
  refine ⟨delivered_iff hc haccepted, ?_⟩
  intro io nonce left ct rest acc plain n expected hreceiving hread hplain
  have hle := buffer_le (hc side) hreceiving hread hplain
  have htag : 4 + maxPlaintextChunk ≤ noiseMaxMsg := by decide
  omega

/-! ### A cipher whose tag spells the nonce -/

def demoTag (nonce : UInt64) : Bytes :=
  List.replicate 8 0 ++ (List.range 8).map fun i => .ofNat (nonce.toNat / 256 ^ i)

theorem length_demoTag (nonce : UInt64) : (demoTag nonce).length = noiseTagLen := rfl

def demoCipher : Cipher where
  write nonce plain :=
    if plain.length ≤ maxPlaintextChunk then some (plain ++ demoTag nonce) else none
  read nonce ct :=
    if noiseTagLen ≤ ct.length ∧ ct.drop (ct.length - noiseTagLen) = demoTag nonce then
      some (ct.take (ct.length - noiseTagLen))
    else none

theorem lawful_demoCipher : demoCipher.Lawful where
  inverts := by
    intro nonce plain ct h
    simp only [demoCipher] at h ⊢
    split at h
    · cases h
      have hlength : (plain ++ demoTag nonce).length - noiseTagLen = plain.length := by
        rw [List.length_append, length_demoTag, Nat.add_sub_cancel]
      have hle : noiseTagLen ≤ (plain ++ demoTag nonce).length := by
        rw [List.length_append, length_demoTag]
        exact Nat.le_add_left _ _
      rw [hlength, if_pos ⟨hle, List.drop_left⟩, List.take_left]
    · cases h
  tagged := by
    intro nonce plain ct h
    simp only [demoCipher] at h
    split at h
    · next hct =>
      cases h
      have hle := hct.1
      rw [List.length_take]
      omega
    · cases h

theorem sendChunks_demo {pieces : List Bytes}
    (hpieces : ∀ piece ∈ pieces, piece.length ≤ maxPlaintextChunk) (nonce : UInt64) (io : Bytes) :
    (sendChunks demoCipher nonce pieces io).1 = .ok () := by
  induction pieces generalizing nonce io with
  | nil => rfl
  | cons piece pieces ih =>
    rw [List.forall_mem_cons] at hpieces
    have hlt : (piece ++ demoTag nonce).length < 65536 := by
      have hle := hpieces.1
      rw [maxPlaintextChunk, noiseMaxMsg, noiseTagLen] at hle
      rw [List.length_append, length_demoTag, noiseTagLen]
      omega
    have hwrite : demoCipher.write nonce piece = some (piece ++ demoTag nonce) :=
      if_pos hpieces.1
    rw [sendChunks, hwrite]
    simp only [writeLp, if_pos hlt]
    exact ih hpieces.2 _ _

/-- The cipher takes every message a length of 32 bits counts. -/
theorem accepted_demo {msg : Bytes} (hlt : msg.length < 2 ^ 32) (side : Side) :
    Accepted (fun _ => demoCipher) side [msg] := by
  have hsize : 0 < maxPlaintextChunk := by decide
  have hsend := @sendChunks_demo (chunks maxPlaintextChunk (framed msg))
    (fun _ => length_le_of_mem_chunks hsize) 0 []
  rw [Accepted, List.map_singleton, System.replay, step, sendBytesInner, if_pos hlt]
  generalize hout : sendChunks demoCipher _ _ _ = out
  have hok : out.1 = .ok () := hout ▸ hsend
  obtain ⟨result, nonce, io⟩ := out
  cases hok
  rfl

theorem noise_stream_demo : Delivered (fun _ => demoCipher) .initiator [[], [1, 2, 3], []] := by
  have haccepted : Accepted (fun _ => demoCipher) .initiator [[], [1, 2, 3], []] := by
    decide +kernel
  refine (noise_stream_iff (fun _ => lawful_demoCipher) .initiator _ haccepted).1.mpr ?_
  decide

/-- A message one byte over the cap is accepted for sending and never delivered. -/
theorem not_delivered_overlong :
    Accepted (fun _ => demoCipher) .initiator [List.replicate (maxMessageLen + 1) 0] ∧
      ¬Delivered (fun _ => demoCipher) .initiator [List.replicate (maxMessageLen + 1) 0] := by
  have hlength : (List.replicate (maxMessageLen + 1) (0 : UInt8)).length = maxMessageLen + 1 :=
    List.length_replicate
  have hlt : (List.replicate (maxMessageLen + 1) (0 : UInt8)).length < 2 ^ 32 := by
    rw [hlength, maxMessageLen]
    omega
  have haccepted := accepted_demo hlt .initiator
  refine ⟨haccepted, fun h => ?_⟩
  have hcap := (delivered_iff (fun _ => lawful_demoCipher) haccepted).mp h
  have hle := hcap _ (List.mem_singleton_self _)
  omega

end Link

end Softfig.Net
