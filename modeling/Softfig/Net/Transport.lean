import Softfig.Lib.Chunks
import Softfig.Vault.Kek

/-!
The frame codec of a Noise session: a message goes out as a 4-byte length and its body, cut into
Noise transport messages, each behind a 2-byte length of its own.

The transport cipher of one direction is a parameter, with an explicit nonce for each message. A
byte stream is what was written and is not read yet; where it ends too early a read fails, or
waits for more.

- `recvLoop_sealed`: the receiver reads back what the sender cut up, to the last byte;
- `recvLoop_overlong`: it refuses a length over the cap;
- `buffer_le`: what it buffers on any stream.
-/

namespace Softfig.Net

open Softfig.Vault (Bytes toBeBytes fromBeBytes)
open Softfig.Lib (chunks)

def noiseMaxMsg : Nat := 65535

def noiseTagLen : Nat := 16

def maxPlaintextChunk : Nat := noiseMaxMsg - noiseTagLen

def maxMessageLen : Nat := 16 * 1024 * 1024

inductive NetError where
  | protocol (reason : String)
  | io
  | noise
deriving DecidableEq, Repr

/-- The cipher state of one direction. -/
structure Cipher where
  write : UInt64 → Bytes → Option Bytes
  read : UInt64 → Bytes → Option Bytes

structure Cipher.Lawful (c : Cipher) : Prop where
  inverts : ∀ {nonce plain sealedText}, c.write nonce plain = some sealedText →
    c.read nonce sealedText = some plain
  /-- A ciphertext holds its plaintext and an authentication tag. -/
  tagged : ∀ {nonce plain sealedText}, c.read nonce sealedText = some plain →
    plain.length + noiseTagLen ≤ sealedText.length

/-! ### Length-prefixed blobs -/

def toBeBytes16 (n : Nat) : Bytes := [UInt8.ofNat (n / 256), UInt8.ofNat n]

def writeLp (bytes : Bytes) : Except NetError Bytes :=
  if bytes.length < 65536 then .ok (toBeBytes16 bytes.length ++ bytes)
  else .error (.protocol "noise message too large")

def readLp : Bytes → Except NetError (Bytes × Bytes)
  | hi :: lo :: rest =>
    let len := hi.toNat * 256 + lo.toNat
    if rest.length < len then .error .io else .ok (rest.take len, rest.drop len)
  | _ => .error .io

/-! ### Sending -/

def sendChunks (c : Cipher) : UInt64 → List Bytes → Bytes → Except NetError Unit × UInt64 × Bytes
  | nonce, [], io => (.ok (), nonce, io)
  | nonce, chunk :: rest, io =>
    match c.write nonce chunk with
    | none => (.error .noise, nonce, io)
    | some out =>
      match writeLp out with
      | .error e => (.error e, nonce + 1, io)
      | .ok blob => sendChunks c (nonce + 1) rest (io ++ blob)

/-- The header and the body, as one stream. -/
def framed (msg : Bytes) : Bytes := toBeBytes (.ofNat msg.length) ++ msg

def sendBytesInner (c : Cipher) (nonce : UInt64) (io msg : Bytes) :
    Except NetError Unit × UInt64 × Bytes :=
  if msg.length < 2 ^ 32 then sendChunks c nonce (chunks maxPlaintextChunk (framed msg)) io
  else (.error (.protocol "message too large"), nonce, io)

/-! ### Receiving -/

/-- The body's length, once four bytes are there. -/
def readHeader (acc : Bytes) (expected : Option Nat) : Except NetError (Option Nat) :=
  if expected = none ∧ 4 ≤ acc.length then
    let len := (fromBeBytes (acc.take 4)).toNat
    if maxMessageLen < len then .error (.protocol "message exceeds maximum length")
    else .ok (some len)
  else .ok expected

def finished (acc : Bytes) : Option Nat → Option Bytes
  | some len => if 4 + len ≤ acc.length then some ((acc.drop 4).take len) else none
  | none => none

theorem readLp_length {io bytes rest : Bytes} (h : readLp io = .ok (bytes, rest)) :
    rest.length < io.length := by
  match io with
  | [] => cases h
  | [_] => cases h
  | hi :: lo :: tail =>
    simp only [readLp] at h
    split at h
    · cases h
    · cases h
      rw [List.length_drop, List.length_cons, List.length_cons]
      omega

def recvLoop (c : Cipher) (io : Bytes) (nonce : UInt64) (acc : Bytes) (expected : Option Nat) :
    Except NetError Bytes × UInt64 × Bytes :=
  match _hread : readLp io with
  | .error e => (.error e, nonce, io)
  | .ok (ct, rest) =>
    match c.read nonce ct with
    | none => (.error .noise, nonce, rest)
    | some plain =>
      match readHeader (acc ++ plain) expected with
      | .error e => (.error e, nonce + 1, rest)
      | .ok expected =>
        match finished (acc ++ plain) expected with
        | some msg => (.ok msg, nonce + 1, rest)
        | none => recvLoop c rest (nonce + 1) (acc ++ plain) expected
termination_by io.length
decreasing_by exact readLp_length _hread

def recvBytesInner (c : Cipher) (nonce : UInt64) (io : Bytes) :
    Except NetError Bytes × UInt64 × Bytes :=
  recvLoop c io nonce [] none

/-! ### What a blob reads back as -/

variable {c : Cipher} {nonce nonce' : UInt64} {io rest wire msg acc plain : Bytes}
  {pieces : List Bytes} {expected : Option Nat}

theorem length_lt_of_writeLp {bytes blob : Bytes} (h : writeLp bytes = .ok blob) :
    bytes.length < 65536 ∧ blob = toBeBytes16 bytes.length ++ bytes := by
  rw [writeLp] at h
  split at h
  · next hlt =>
    cases h
    exact ⟨hlt, rfl⟩
  · cases h

theorem readLp_writeLp {bytes blob : Bytes} (h : writeLp bytes = .ok blob) (rest : Bytes) :
    readLp (blob ++ rest) = .ok (bytes, rest) := by
  obtain ⟨hlt, rfl⟩ := length_lt_of_writeLp h
  have hlen : (UInt8.ofNat (bytes.length / 256)).toNat * 256 + (UInt8.ofNat bytes.length).toNat =
      bytes.length := by
    rw [UInt8.toNat_ofNat', UInt8.toNat_ofNat']
    omega
  show readLp (UInt8.ofNat (bytes.length / 256) :: UInt8.ofNat bytes.length :: (bytes ++ rest)) = _
  rw [readLp, hlen, if_neg (by simp), List.take_left, List.drop_left]

theorem length_of_readLp {bytes : Bytes} (h : readLp io = .ok (bytes, rest)) :
    bytes.length ≤ noiseMaxMsg := by
  match io with
  | [] => cases h
  | [_] => cases h
  | hi :: lo :: tail =>
    simp only [readLp] at h
    split at h
    · cases h
    · cases h
      have hhi := hi.toNat_lt
      have hlo := lo.toNat_lt
      rw [List.length_take, noiseMaxMsg]
      omega

/-! ### What is sent -/

/-- Pieces written one after the other, from a nonce on, and the nonce behind them. -/
inductive Sealed (c : Cipher) : UInt64 → List Bytes → Bytes → UInt64 → Prop
  | nil (nonce : UInt64) : Sealed c nonce [] [] nonce
  | cons {nonce nonce' : UInt64} {piece ct blob wire : Bytes} {pieces : List Bytes} :
    c.write nonce piece = some ct → writeLp ct = .ok blob →
      Sealed c (nonce + 1) pieces wire nonce' →
      Sealed c nonce (piece :: pieces) (blob ++ wire) nonce'

theorem sendChunks_ok {io' : Bytes} : sendChunks c nonce pieces io = (.ok (), nonce', io') ↔
    ∃ wire, io' = io ++ wire ∧ Sealed c nonce pieces wire nonce' := by
  induction pieces generalizing nonce io with
  | nil =>
    rw [sendChunks]
    constructor
    · intro h
      cases h
      exact ⟨[], (List.append_nil _).symm, .nil _⟩
    · rintro ⟨wire, hio, hsealed⟩
      cases hsealed
      rw [hio, List.append_nil]
  | cons piece pieces ih =>
    rw [sendChunks]
    constructor
    · intro h
      split at h
      · cases h
      · next ct hct =>
        split at h
        · cases h
        · next blob hblob =>
          obtain ⟨wire, rfl, hsealed⟩ := ih.mp h
          exact ⟨blob ++ wire, List.append_assoc _ _ _, .cons hct hblob hsealed⟩
    · rintro ⟨wire, hio, hsealed⟩
      cases hsealed with
      | cons hct hblob hsealed =>
        subst hio
        simp only [hct, hblob]
        exact ih.mpr ⟨_, (List.append_assoc _ _ _).symm, hsealed⟩

/-! ### What is received -/

theorem recvLoop_read {ct : Bytes} (hread : readLp io = .ok (ct, rest))
    (hplain : c.read nonce ct = some plain) :
    recvLoop c io nonce acc expected =
      match readHeader (acc ++ plain) expected with
      | .error e => (.error e, nonce + 1, rest)
      | .ok expected =>
        match finished (acc ++ plain) expected with
        | some msg => (.ok msg, nonce + 1, rest)
        | none => recvLoop c rest (nonce + 1) (acc ++ plain) expected := by
  rw [recvLoop]
  split
  · next e he => rw [hread] at he; cases he
  · next ct' rest' he =>
    rw [hread] at he
    cases he
    simp only [hplain]

/-- What the receiver knows of the length behind some bytes of a message. -/
def headerOf (acc : Bytes) (len : Nat) : Option Nat := if 4 ≤ acc.length then some len else none

theorem take_framed (hlt : msg.length < 2 ^ 32) {more : Bytes} (hacc : acc ++ more = framed msg)
    (hlong : 4 ≤ acc.length) : (fromBeBytes (acc.take 4)).toNat = msg.length := by
  have htake : acc.take 4 = toBeBytes (.ofNat msg.length) := by
    have h := congrArg (List.take 4) hacc
    rw [List.take_append_of_le_length hlong, framed,
      List.take_left' (Vault.length_toBeBytes _)] at h
    exact h
  rw [htake, Vault.fromBeBytes_toBeBytes]
  exact UInt32.toNat_ofNat_of_lt' hlt

theorem readHeader_framed (hcap : msg.length ≤ maxMessageLen) {more : Bytes}
    (hacc : acc ++ plain ++ more = framed msg) :
    readHeader (acc ++ plain) (headerOf acc msg.length) =
      .ok (headerOf (acc ++ plain) msg.length) := by
  have hlt : msg.length < 2 ^ 32 := by
    rw [maxMessageLen] at hcap
    omega
  rw [readHeader, headerOf, headerOf]
  by_cases hold : 4 ≤ acc.length
  · have hnew : 4 ≤ (acc ++ plain).length := by
      rw [List.length_append]
      omega
    rw [if_pos hold, if_neg (fun h => Option.some_ne_none _ h.1), if_pos hnew]
  · by_cases hnew : 4 ≤ (acc ++ plain).length
    · rw [if_neg hold, if_pos ⟨rfl, hnew⟩]
      dsimp only
      rw [take_framed hlt hacc hnew, if_neg (by omega), if_pos hnew]
    · rw [if_neg hold, if_neg (fun h => hnew h.2), if_neg hnew]

theorem length_framed : (framed msg).length = 4 + msg.length := by
  rw [framed, List.length_append, Vault.length_toBeBytes]

theorem finished_framed : finished (framed msg) (headerOf (framed msg) msg.length) = some msg := by
  have hlength : (framed msg).length = 4 + msg.length := length_framed
  rw [headerOf, if_pos (by omega), finished, if_pos (by omega), framed,
    List.drop_left' (Vault.length_toBeBytes _), List.take_length]

theorem finished_early (hacc : acc.length < 4 + msg.length) :
    finished acc (headerOf acc msg.length) = none := by
  rw [headerOf]
  split
  · rw [finished, if_neg (by omega)]
  · rfl

/-- **A message reads back.** However it was cut into pieces, the receiver stops with the last of
them, at the sender's nonce and with nothing read of what follows. -/
theorem recvLoop_sealed (hc : c.Lawful) (hsealed : Sealed c nonce pieces wire nonce')
    (hpieces : ∀ piece ∈ pieces, piece ≠ []) (hne : pieces ≠ [])
    (hacc : acc ++ pieces.flatten = framed msg) (hcap : msg.length ≤ maxMessageLen) :
    recvLoop c (wire ++ rest) nonce acc (headerOf acc msg.length) = (.ok msg, nonce', rest) := by
  induction hsealed generalizing acc with
  | nil => exact absurd rfl hne
  | @cons nonce nonce' piece ct blob wire pieces hct hblob hsealed ih =>
    rw [List.flatten_cons, ← List.append_assoc] at hacc
    rw [List.append_assoc, recvLoop_read (readLp_writeLp hblob _) (hc.inverts hct),
      readHeader_framed hcap hacc]
    dsimp only
    cases pieces with
    | nil =>
      cases hsealed
      rw [List.flatten_nil, List.append_nil] at hacc
      rw [hacc, finished_framed]
      rfl
    | cons next pieces =>
      have hnext := List.length_pos_iff.mpr (hpieces next (by simp))
      have hearly : (acc ++ piece).length < 4 + msg.length := by
        have hlength := congrArg List.length hacc
        rw [length_framed, List.flatten_cons, @List.length_append _ (acc ++ piece),
          @List.length_append _ next] at hlength
        omega
      rw [finished_early hearly]
      exact ih (fun piece hmem => hpieces piece (List.mem_cons_of_mem _ hmem))
        (List.cons_ne_nil _ _) hacc

/-- A length the receiver knows is one it took. -/
def Taken (expected : Option Nat) : Prop := ∀ len ∈ expected, len ≤ maxMessageLen

theorem taken_readHeader {expected' : Option Nat} (h : Taken expected)
    (hread : readHeader acc expected = .ok expected') : Taken expected' := by
  rw [readHeader] at hread
  split at hread
  · dsimp only at hread
    split at hread
    · cases hread
    · next hcap =>
      cases hread
      intro len hlen
      cases hlen
      exact Nat.not_lt.mp hcap
  · cases hread
    exact h

theorem finished_cases (h : finished acc expected = some msg) :
    ∃ len, expected = some len ∧ msg.length ≤ len := by
  cases expected with
  | none => cases h
  | some len =>
    rw [finished] at h
    split at h
    · cases h
      exact ⟨len, rfl, List.length_take_le _ _⟩
    · cases h

/-- Whatever stream is read, a message that is returned is within the cap. -/
theorem length_of_recvLoop (hexpected : Taken expected)
    (h : (recvLoop c io nonce acc expected).1 = .ok msg) : msg.length ≤ maxMessageLen := by
  induction io, nonce, acc, expected using recvLoop.induct c with
  | case1 io nonce acc expected e he =>
    rw [recvLoop] at h
    split at h
    · cases h
    · next hread => rw [he] at hread; cases hread
  | case2 io nonce acc expected ct rest hread hplain =>
    rw [recvLoop] at h
    split at h
    · cases h
    · next hread' =>
      rw [hread] at hread'
      cases hread'
      simp only [hplain] at h
      cases h
  | case3 io nonce acc expected ct rest hread plain hplain e he =>
    rw [recvLoop_read hread hplain, he] at h
    cases h
  | case4 io nonce acc expected ct rest hread plain hplain expected' he msg' hdone =>
    rw [recvLoop_read hread hplain, he] at h
    simp only [hdone] at h
    cases h
    obtain ⟨len, hlen, hle⟩ := finished_cases hdone
    exact hle.trans (taken_readHeader hexpected he len hlen)
  | case5 io nonce acc expected ct rest hread plain hplain expected' he hdone ih =>
    rw [recvLoop_read hread hplain, he] at h
    simp only [hdone] at h
    exact ih (taken_readHeader hexpected he) h

/-! ### What is buffered -/

/-- The states of the receiver's loop on a stream: what is left to read, the nonce, the bytes
gathered and the length read off them. -/
inductive Receiving (c : Cipher) (io : Bytes) (nonce : UInt64) :
    Bytes → UInt64 → Bytes → Option Nat → Prop
  | start : Receiving c io nonce io nonce [] none
  | more {left ct rest acc plain : Bytes} {n : UInt64} {expected expected' : Option Nat} :
    Receiving c io nonce left n acc expected → readLp left = .ok (ct, rest) →
      c.read n ct = some plain → readHeader (acc ++ plain) expected = .ok expected' →
      finished (acc ++ plain) expected' = none →
      Receiving c io nonce rest (n + 1) (acc ++ plain) expected'

theorem Receiving.acc_lt {left acc : Bytes} {n : UInt64}
    (h : Receiving c io nonce left n acc expected) :
    Taken expected ∧ acc.length < 4 + maxMessageLen := by
  induction h with
  | start =>
    refine ⟨fun len hlen => ?_, by decide⟩
    cases hlen
  | @more left ct rest acc plain n expected expected' _ _ _ hheader hdone ih =>
    have htaken := taken_readHeader ih.1 hheader
    refine ⟨htaken, ?_⟩
    cases hexpected' : expected' with
    | some len =>
      have hcap := htaken len hexpected'
      rw [hexpected', finished] at hdone
      split at hdone
      · cases hdone
      · omega
    | none =>
      -- with no length read off, not four bytes are there
      rw [hexpected', readHeader] at hheader
      split at hheader
      · dsimp only at hheader
        split at hheader
        · cases hheader
        · cases hheader
      · next hshort =>
        cases hheader
        have hlt : ¬ 4 ≤ (acc ++ plain).length := fun hle => hshort ⟨rfl, hle⟩
        omega

/-- **The buffer.** Whatever a peer writes, the receiver never holds more than a message of the
greatest length with its header and one chunk. -/
theorem buffer_le (hc : c.Lawful) {left ct acc : Bytes} {n : UInt64}
    (h : Receiving c io nonce left n acc expected) (hread : readLp left = .ok (ct, rest))
    (hplain : c.read n ct = some plain) :
    (acc ++ plain).length < 4 + maxMessageLen + maxPlaintextChunk := by
  have hacc := h.acc_lt.2
  have hct := length_of_readLp hread
  have htag := hc.tagged hplain
  rw [List.length_append, maxPlaintextChunk]
  omega

end Softfig.Net
