import Mathlib.Data.Nat.Bitwise
import Mathlib.Tactic.Ring
import Softfig.Vault.Params

/-!
The LEB128 varint a master-key id is embedded as.

The reader takes bytes while the high bit is set, at shifts 0, 7, …, 28, and
drops what a shift pushes out of 32 bits. A run of such bytes is a `Framed`
one; its `payload` is the number before anything is dropped.

- `readVarint_writeVarint`: every id is read back, whatever follows it;
- `readVarint_iff`: what the reader accepts, and the id it makes of it;
- `readVarint_canonical_iff`: which of these the writer would have written.
-/

namespace Softfig.Vault

/-- `write_varint`, with room for `fuel` bytes that have the high bit set. -/
def writeVarintFrom : Nat → UInt32 → Bytes
  | 0, v => [v.toUInt8]
  | fuel + 1, v =>
    if 0x80 ≤ v then ((v.toUInt8 &&& 0x7F) ||| 0x80) :: writeVarintFrom fuel (v >>> 7)
    else [v.toUInt8]

/-- A 32-bit number has at most five groups of seven bits. -/
def writeVarint (v : UInt32) : Bytes := writeVarintFrom 4 v

def readVarintFrom : Bytes → UInt32 → UInt32 → Option (UInt32 × Bytes)
  | [], _, _ => none
  | b :: rest, v, shift =>
    if 32 ≤ shift then none
    else
      let v := v ||| ((b &&& 0x7F).toUInt32 <<< shift)
      if b &&& 0x80 = 0 then some (v, rest) else readVarintFrom rest v (shift + 7)

def readVarint (buf : Bytes) : Option (UInt32 × Bytes) := readVarintFrom buf 0 0

/-! ### Bits as numbers -/

theorem low7_toNat (b : UInt8) : (b &&& 0x7F).toNat = b.toNat % 128 := by
  rw [UInt8.toNat_and]
  exact Nat.and_two_pow_sub_one_eq_mod b.toNat 7

/-- What holds of 256 bytes holds of every byte. -/
theorem forall_byte {P : UInt8 → Prop} (h : ∀ n : Fin 256, P (.ofNat n)) (b : UInt8) : P b := by
  have hb := h ⟨b.toNat, b.toNat_lt⟩
  rwa [UInt8.ofNat_toNat] at hb

theorem high_eq_zero_iff : ∀ b : UInt8, b &&& 0x80 = 0 ↔ b.toNat < 128 :=
  forall_byte (by decide +kernel)

theorem marked_toNat : ∀ b : UInt8, ((b &&& 0x7F) ||| 0x80).toNat = b.toNat % 128 + 128 :=
  forall_byte (by decide +kernel)

theorem toUInt8_toNat (v : UInt32) : v.toUInt8.toNat = v.toNat % 256 := by
  simp

theorem shiftRight7_toNat (v : UInt32) : (v >>> 7).toNat = v.toNat / 128 := by
  simp [Nat.shiftRight_eq_div_pow]

/-- A group that is placed above what was read is added to it, up to what falls out of 32 bits. -/
theorem or_group_toNat (v : UInt32) (b : UInt8) {s : Nat} (hs : s < 32) (hv : v.toNat < 2 ^ s) :
    (v ||| ((b &&& 0x7F).toUInt32 <<< UInt32.ofNat s)).toNat =
      (v.toNat + 2 ^ s * (b.toNat % 128)) % 2 ^ 32 := by
  have hshift : ((b &&& 0x7F).toUInt32 <<< UInt32.ofNat s).toNat =
      2 ^ s * ((b.toNat % 128) % 2 ^ (32 - s)) := by
    rw [UInt32.toNat_shiftLeft, UInt32.toNat_ofNat_of_lt' (Nat.lt_trans hs (by decide)), Nat.mod_eq_of_lt hs,
      UInt8.toNat_toUInt32, low7_toNat, Nat.shiftLeft_eq, Nat.mul_comm,
      show 2 ^ 32 = 2 ^ s * 2 ^ (32 - s) by rw [← pow_add]; congr 1; omega, Nat.mul_mod_mul_left]
  have hsplit : 2 ^ s * (b.toNat % 128) % 2 ^ 32 =
      2 ^ s * ((b.toNat % 128) % 2 ^ (32 - s)) := by
    rw [show 2 ^ 32 = 2 ^ s * 2 ^ (32 - s) by rw [← pow_add]; congr 1; omega, Nat.mul_mod_mul_left]
  have hbound : v.toNat + 2 ^ s * ((b.toNat % 128) % 2 ^ (32 - s)) < 2 ^ 32 := by
    have hgroup : (b.toNat % 128) % 2 ^ (32 - s) + 1 ≤ 2 ^ (32 - s) :=
      Nat.mod_lt _ (Nat.two_pow_pos _)
    calc v.toNat + 2 ^ s * ((b.toNat % 128) % 2 ^ (32 - s))
        < 2 ^ s + 2 ^ s * ((b.toNat % 128) % 2 ^ (32 - s)) := Nat.add_lt_add_right hv _
      _ = 2 ^ s * ((b.toNat % 128) % 2 ^ (32 - s) + 1) := by ring
      _ ≤ 2 ^ s * 2 ^ (32 - s) := Nat.mul_le_mul_left _ hgroup
      _ = 2 ^ 32 := by rw [← pow_add]; congr 1; omega
  rw [UInt32.toNat_or, hshift, Nat.or_comm, ← Nat.two_pow_add_eq_or_of_lt hv, Nat.add_comm,
    ← Nat.mod_eq_of_lt hbound, ← hsplit, Nat.add_mod_mod]

/-! ### Framed bytes -/

/-- The high bit is set on every byte but the last. -/
def Framed : Bytes → Prop
  | [] => False
  | [b] => b.toNat < 128
  | b :: rest => 128 ≤ b.toNat ∧ Framed rest

/-- The number the groups of seven bits make, the first one lowest. -/
def payload : Bytes → Nat
  | [] => 0
  | b :: rest => b.toNat % 128 + 128 * payload rest

theorem Framed.cons_iff {b : UInt8} {rest : Bytes} (hrest : rest ≠ []) :
    Framed (b :: rest) ↔ 128 ≤ b.toNat ∧ Framed rest := by
  cases rest with
  | nil => exact absurd rfl hrest
  | cons => rfl

theorem Framed.ne_nil {enc : Bytes} (h : Framed enc) : enc ≠ [] := by
  rintro rfl
  exact h

/-- **The reader.** It takes a framed run of at most five bytes, and drops what is above 32 bits. -/
theorem readVarintFrom_iff {buf : Bytes} {v : UInt32} {s : Nat} (hs : s < 64)
    (hv : v.toNat < 2 ^ s) {id : UInt32} {rest : Bytes} :
    readVarintFrom buf v (UInt32.ofNat s) = some (id, rest) ↔
      ∃ enc, Framed enc ∧ s + 7 * (enc.length - 1) < 32 ∧ buf = enc ++ rest ∧
        id.toNat = (v.toNat + 2 ^ s * payload enc) % 2 ^ 32 := by
  induction buf generalizing v s with
  | nil =>
    simp only [readVarintFrom, reduceCtorEq, false_iff, not_exists, not_and]
    intro enc hframed _ hnil
    exact absurd (List.append_eq_nil_iff.mp hnil.symm).1 hframed.ne_nil
  | cons b buf ih =>
    have hshift : (32 : UInt32) ≤ UInt32.ofNat s ↔ 32 ≤ s := by
      rw [UInt32.le_iff_toNat_le, UInt32.toNat_ofNat_of_lt' (Nat.lt_trans hs (by decide))]
      exact Iff.rfl
    unfold readVarintFrom
    by_cases hover : 32 ≤ s
    · rw [if_pos (hshift.mpr hover)]
      simp only [reduceCtorEq, false_iff, not_exists, not_and]
      intro enc _ hlen
      omega
    · rw [if_neg (fun h => hover (hshift.mp h))]
      have hgroup := or_group_toNat v b (Nat.lt_of_not_le hover) hv
      by_cases hhigh : b &&& 0x80 = 0
      · have hlow : b.toNat < 128 := (high_eq_zero_iff b).mp hhigh
        simp only [hhigh, ↓reduceIte, Option.some.injEq, Prod.mk.injEq]
        constructor
        · rintro ⟨rfl, rfl⟩
          refine ⟨[b], hlow, by simp; omega, rfl, ?_⟩
          rw [hgroup, payload, payload, Nat.mul_zero, Nat.add_zero]
        · rintro ⟨enc, hframed, _, happ, hid⟩
          cases enc with
          | nil => exact absurd rfl hframed.ne_nil
          | cons b' enc =>
            obtain ⟨rfl, hrest⟩ := List.cons.inj happ
            cases enc with
            | nil =>
              refine ⟨UInt32.toNat_inj.mp ?_, hrest⟩
              rw [hgroup, hid, payload, payload, Nat.mul_zero, Nat.add_zero]
            | cons => exact absurd hframed.1 (by omega)
      · have hhighNat : 128 ≤ b.toNat := by
          by_contra hlow
          exact hhigh ((high_eq_zero_iff b).mpr (by omega))
        have hnext : UInt32.ofNat s + 7 = UInt32.ofNat (s + 7) := by
          rw [UInt32.ofNat_add]
          rfl
        have hbound : (v ||| ((b &&& 0x7F).toUInt32 <<< UInt32.ofNat s)).toNat < 2 ^ (s + 7) := by
          rw [hgroup, pow_add]
          have hgroup128 : 2 ^ s * (b.toNat % 128) ≤ 2 ^ s * 127 :=
            Nat.mul_le_mul_left _ (by omega)
          exact Nat.lt_of_le_of_lt (Nat.mod_le _ _) (by omega)
        have hsum : ∀ n, ((v.toNat + 2 ^ s * (b.toNat % 128)) % 2 ^ 32 + 2 ^ (s + 7) * n) % 2 ^ 32 =
            (v.toNat + 2 ^ s * (b.toNat % 128 + 128 * n)) % 2 ^ 32 := by
          intro n
          rw [Nat.mod_add_mod]
          congr 1
          ring
        simp only [hhigh, ↓reduceIte, hnext]
        rw [ih (by omega) hbound, hgroup]
        constructor
        · rintro ⟨enc, hframed, hlen, rfl, hid⟩
          have hpos := List.length_pos_iff.mpr hframed.ne_nil
          refine ⟨b :: enc, (Framed.cons_iff hframed.ne_nil).mpr ⟨hhighNat, hframed⟩, ?_, rfl, ?_⟩
          · rw [List.length_cons]
            omega
          · rw [hid, hsum, payload]
        · rintro ⟨enc, hframed, hlen, happ, hid⟩
          cases enc with
          | nil => exact absurd rfl hframed.ne_nil
          | cons b' enc =>
            obtain ⟨rfl, hrest⟩ := List.cons.inj happ
            have hmore : enc ≠ [] := by
              rintro rfl
              exact absurd (show b.toNat < 128 from hframed) (by omega)
            obtain ⟨_, hframed'⟩ := (Framed.cons_iff hmore).mp hframed
            have hpos := List.length_pos_iff.mpr hmore
            refine ⟨enc, hframed', ?_, hrest, ?_⟩
            · rw [List.length_cons] at hlen
              omega
            · rw [hid, hsum, payload]

/-- **What the reader accepts**: a framed run of at most five bytes, whatever follows it. -/
theorem readVarint_iff {buf : Bytes} {id : UInt32} {rest : Bytes} :
    readVarint buf = some (id, rest) ↔
      ∃ enc, Framed enc ∧ enc.length ≤ 5 ∧ buf = enc ++ rest ∧ id.toNat = payload enc % 2 ^ 32 := by
  have hstart : readVarint buf = readVarintFrom buf 0 (UInt32.ofNat 0) := rfl
  rw [hstart, readVarintFrom_iff (by omega) (by decide)]
  constructor
  · rintro ⟨enc, hframed, hlen, happ, hid⟩
    exact ⟨enc, hframed, by omega, happ, by simpa using hid⟩
  · rintro ⟨enc, hframed, hlen, happ, hid⟩
    exact ⟨enc, hframed, by omega, happ, by simpa using hid⟩

/-! ### The writer -/

/-- The shortest run for its number. -/
def Shortest : Bytes → Prop
  | [] => False
  | [_] => True
  | [_, b] => b ≠ 0
  | _ :: rest => Shortest rest

theorem writeVarintFrom_ne_nil (fuel : Nat) (v : UInt32) : writeVarintFrom fuel v ≠ [] := by
  cases fuel with
  | zero => nofun
  | succ fuel =>
    unfold writeVarintFrom
    split <;> nofun

/-- What is written is a framed run of its number. -/
theorem writeVarintFrom_spec (fuel : Nat) {v : UInt32} (hv : v.toNat < 2 ^ (7 * (fuel + 1))) :
    Framed (writeVarintFrom fuel v) ∧ (writeVarintFrom fuel v).length ≤ fuel + 1 ∧
      payload (writeVarintFrom fuel v) = v.toNat := by
  induction fuel generalizing v with
  | zero =>
    have hsmall : v.toUInt8.toNat = v.toNat := by
      rw [toUInt8_toNat]
      omega
    refine ⟨?_, le_refl _, ?_⟩
    · show v.toUInt8.toNat < 128
      omega
    · rw [writeVarintFrom, payload, payload, hsmall]
      omega
  | succ fuel ih =>
    unfold writeVarintFrom
    split
    · rename_i hlarge
      have hrest := ih (v := v >>> 7) (by
        rw [shiftRight7_toNat, Nat.div_lt_iff_lt_mul (by decide)]
        calc v.toNat < 2 ^ (7 * (fuel + 1 + 1)) := hv
          _ = 2 ^ (7 * (fuel + 1)) * 128 := by rw [show 128 = 2 ^ 7 from rfl, ← pow_add]; congr 1)
      obtain ⟨hframed, hlen, hpayload⟩ := hrest
      have hmark := marked_toNat v.toUInt8
      rw [toUInt8_toNat] at hmark
      refine ⟨?_, by simpa using hlen, ?_⟩
      · exact (Framed.cons_iff hframed.ne_nil).mpr ⟨by omega, hframed⟩
      · rw [payload, hmark, hpayload, shiftRight7_toNat]
        omega
    · rename_i hsmall
      have hlt : v.toNat < 128 := by
        by_contra hge
        exact hsmall (UInt32.le_iff_toNat_le.mpr (by simpa using hge))
      have hbyte : v.toUInt8.toNat = v.toNat := by
        rw [toUInt8_toNat]
        omega
      refine ⟨?_, by simp, ?_⟩
      · show v.toUInt8.toNat < 128
        omega
      · rw [payload, payload, hbyte]
        omega

/-- **Every id is read back**, whatever follows it. -/
theorem readVarint_writeVarint (v : UInt32) (rest : Bytes) :
    readVarint (writeVarint v ++ rest) = some (v, rest) := by
  have hv := v.toNat_lt
  obtain ⟨hframed, hlen, hpayload⟩ := writeVarintFrom_spec 4 (v := v) (by omega)
  refine readVarint_iff.mpr ⟨writeVarint v, hframed, hlen, rfl, ?_⟩
  rw [writeVarint, hpayload, Nat.mod_eq_of_lt hv]

/-! ### The encodings the writer would have written -/

theorem payload_pos {b : UInt8} {enc : Bytes} (hframed : Framed enc) (h : Shortest (b :: enc)) :
    0 < payload enc := by
  induction enc generalizing b with
  | nil => exact absurd rfl hframed.ne_nil
  | cons b' enc ih =>
    rw [payload]
    by_cases hmore : enc = []
    · subst hmore
      have hlow : b'.toNat < 128 := hframed
      have hne : b'.toNat ≠ 0 := fun hzero => h (UInt8.toNat_inj.mp hzero)
      omega
    · obtain ⟨_, hframed'⟩ := (Framed.cons_iff hmore).mp hframed
      have hrest : Shortest (b' :: enc) := by
        cases enc with
        | nil => exact absurd rfl hmore
        | cons => exact h
      have hpos := ih hframed' hrest
      omega

/-- A byte in front of what is written for a number other than zero keeps it shortest. -/
theorem shortest_cons_write (b : UInt8) {fuel : Nat} {v : UInt32}
    (hv : v.toNat < 2 ^ (7 * (fuel + 1))) (hpos : 0 < v.toNat) :
    Shortest (b :: writeVarintFrom fuel v) := by
  induction fuel generalizing b v with
  | zero =>
    intro hzero
    have hbyte := toUInt8_toNat v
    rw [hzero] at hbyte
    simp at hbyte
    omega
  | succ fuel ih =>
    unfold writeVarintFrom
    split
    · rename_i hlarge
      have hge : 128 ≤ v.toNat := by simpa using UInt32.le_iff_toNat_le.mp hlarge
      have hshift := shiftRight7_toNat v
      have hrest := ih ((v.toUInt8 &&& 0x7F) ||| 0x80) (v := v >>> 7) (by
        rw [hshift, Nat.div_lt_iff_lt_mul (by decide)]
        calc v.toNat < 2 ^ (7 * (fuel + 1 + 1)) := hv
          _ = 2 ^ (7 * (fuel + 1)) * 128 := by rw [show 128 = 2 ^ 7 from rfl, ← pow_add]; congr 1)
        (by omega)
      cases henc : writeVarintFrom fuel (v >>> 7) with
      | nil => exact absurd henc (writeVarintFrom_ne_nil fuel _)
      | cons c rest =>
        rw [henc] at hrest
        exact hrest
    · rename_i hsmall
      have hlt : v.toNat < 128 := by
        by_contra hge
        exact hsmall (UInt32.le_iff_toNat_le.mpr (by simpa using hge))
      intro hzero
      have hbyte := toUInt8_toNat v
      rw [hzero] at hbyte
      simp at hbyte
      omega

/-- The shortest run of a number is what is written for it. -/
theorem writeVarintFrom_shortest {fuel : Nat} {enc : Bytes} {v : UInt32} (hframed : Framed enc)
    (hlen : enc.length ≤ fuel + 1) (hshortest : Shortest enc) (hv : v.toNat = payload enc) :
    writeVarintFrom fuel v = enc := by
  induction enc generalizing fuel v with
  | nil => exact absurd rfl hframed.ne_nil
  | cons b enc ih =>
    rw [payload] at hv
    by_cases hmore : enc = []
    · subst hmore
      have hlow : b.toNat < 128 := hframed
      have hbyte : v.toUInt8 = b := by
        refine UInt8.toNat_inj.mp ?_
        rw [toUInt8_toNat, hv, payload]
        omega
      have hsmall : ¬(0x80 : UInt32) ≤ v := by
        intro hlarge
        have hge : 128 ≤ v.toNat := by simpa using UInt32.le_iff_toNat_le.mp hlarge
        rw [payload] at hv
        omega
      cases fuel with
      | zero => rw [writeVarintFrom, hbyte]
      | succ fuel => rw [writeVarintFrom, if_neg hsmall, hbyte]
    · obtain ⟨hhigh, hframed'⟩ := (Framed.cons_iff hmore).mp hframed
      have hpos := payload_pos hframed' hshortest
      have hrest : Shortest enc := by
        match enc, hshortest with
        | [_], _ => trivial
        | _ :: _ :: _, h => exact h
      cases fuel with
      | zero =>
        have := List.length_pos_iff.mpr hmore
        simp only [List.length_cons] at hlen
        omega
      | succ fuel =>
        have hlarge : (0x80 : UInt32) ≤ v := by
          rw [UInt32.le_iff_toNat_le]
          show 128 ≤ v.toNat
          omega
        have hmark : (v.toUInt8 &&& 0x7F) ||| 0x80 = b := by
          refine UInt8.toNat_inj.mp ?_
          have hb := b.toNat_lt
          rw [marked_toNat, toUInt8_toNat, hv]
          omega
        rw [writeVarintFrom, if_pos hlarge, hmark]
        congr 1
        refine ih hframed' (by simpa using hlen) hrest ?_
        rw [shiftRight7_toNat, hv]
        omega

theorem shortest_writeVarint (v : UInt32) : Shortest (writeVarint v) := by
  have hv := v.toNat_lt
  show Shortest (writeVarintFrom (3 + 1) v)
  unfold writeVarintFrom
  split
  · rename_i hlarge
    have hge : 128 ≤ v.toNat := by simpa using UInt32.le_iff_toNat_le.mp hlarge
    have hshift := shiftRight7_toNat v
    exact shortest_cons_write _ (by omega) (by omega)
  · trivial

/-- The bytes the reader took of a buffer. -/
def taken (buf rest : Bytes) : Bytes := buf.take (buf.length - rest.length)

/-- **Which accepted bytes the writer would have written**: the shortest run of a number that fits
32 bits. -/
theorem readVarint_canonical_iff {buf : Bytes} {id : UInt32} {rest : Bytes}
    (h : readVarint buf = some (id, rest)) :
    buf = writeVarint id ++ rest ↔
      Shortest (taken buf rest) ∧ payload (taken buf rest) < 2 ^ 32 := by
  obtain ⟨enc, hframed, hlen, rfl, hid⟩ := readVarint_iff.mp h
  have htaken : taken (enc ++ rest) rest = enc := by
    simp [taken]
  rw [htaken]
  constructor
  · intro hwritten
    obtain rfl := List.append_cancel_right hwritten
    refine ⟨shortest_writeVarint id, ?_⟩
    have hv := id.toNat_lt
    rw [writeVarint, (writeVarintFrom_spec _ (by omega)).2.2]
    exact hv
  · rintro ⟨hshortest, hfits⟩
    rw [Nat.mod_eq_of_lt hfits] at hid
    rw [writeVarint, writeVarintFrom_shortest hframed hlen hshortest hid]

/-- A longer encoding of zero is accepted too. -/
example : readVarint [0x80, 0x00] = some (0, []) := by decide

end Softfig.Vault
