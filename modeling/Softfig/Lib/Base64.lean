import Mathlib.Data.List.Basic

/-!
Base64 over the standard alphabet, with padding and without white space.

A quantum of four characters stands for three bytes; the last one may be padded, and
the bits its padding leaves over must be zero.

- `decode_encode`, `encode_decode`: the round trips;
- `isChar_of_decode`: what decodes holds characters of the alphabet and padding only;
- `length_decode`: what is decoded is not longer than its text.
-/

namespace Softfig.Lib.Base64

/-- The character of a six-bit value. -/
def digit (n : Nat) : UInt8 :=
  if n < 26 then UInt8.ofNat (65 + n)
  else if n < 52 then UInt8.ofNat (97 + (n - 26))
  else if n < 62 then UInt8.ofNat (48 + (n - 52))
  else if n = 62 then 43
  else 47

/-- The value of a character of the alphabet. -/
def value (c : UInt8) : Option Nat :=
  let n := c.toNat
  if 65 ≤ n ∧ n ≤ 90 then some (n - 65)
  else if 97 ≤ n ∧ n ≤ 122 then some (n - 97 + 26)
  else if 48 ≤ n ∧ n ≤ 57 then some (n - 48 + 52)
  else if n = 43 then some 62
  else if n = 47 then some 63
  else none

def pad : UInt8 := 61

def encode : List UInt8 → List UInt8
  | [] => []
  | [a] => [digit (a.toNat / 4), digit (a.toNat % 4 * 16), pad, pad]
  | [a, b] =>
    [digit (a.toNat / 4), digit (a.toNat % 4 * 16 + b.toNat / 16), digit (b.toNat % 16 * 4), pad]
  | a :: b :: c :: rest =>
    digit (a.toNat / 4) :: digit (a.toNat % 4 * 16 + b.toNat / 16) ::
      digit (b.toNat % 16 * 4 + c.toNat / 64) :: digit (c.toNat % 64) :: encode rest

/-- The bytes of a last quantum, padded or not. -/
def decodeLast (w x y z : UInt8) : Option (List UInt8) := do
  let w ← value w
  let x ← value x
  if z = pad then
    if y = pad then
      if x % 16 = 0 then some [UInt8.ofNat (w * 4 + x / 16)] else none
    else
      let y ← value y
      if y % 4 = 0 then
        some [UInt8.ofNat (w * 4 + x / 16), UInt8.ofNat (x % 16 * 16 + y / 4)]
      else none
  else
    let y ← value y
    let z ← value z
    some [UInt8.ofNat (w * 4 + x / 16), UInt8.ofNat (x % 16 * 16 + y / 4), UInt8.ofNat (y % 4 * 64 + z)]

/-- Padding only in the last quantum. -/
def decode : List UInt8 → Option (List UInt8)
  | [] => some []
  | [w, x, y, z] => decodeLast w x y z
  | w :: x :: y :: z :: rest =>
    if z = pad then none
    else do
      let bytes ← decodeLast w x y z
      let more ← decode rest
      some (bytes ++ more)
  | _ => none

/-- A character of the alphabet, or padding. -/
def IsChar (c : UInt8) : Prop := (value c).isSome = true ∨ c = pad

theorem value_digit {n : Nat} (h : n < 64) : value (digit n) = some n := by
  have hall : ∀ n : Fin 64, value (digit n) = some n.val := by decide
  exact hall ⟨n, h⟩

theorem digit_ne_pad {n : Nat} (h : n < 64) : digit n ≠ pad := by
  have hall : ∀ n : Fin 64, digit n ≠ pad := by decide
  exact hall ⟨n, h⟩

theorem ofNat_eq {n : Nat} {a : UInt8} (h : n = a.toNat) : UInt8.ofNat n = a := by
  rw [h, UInt8.ofNat_toNat]

theorem decode_encode (bytes : List UInt8) : decode (encode bytes) = some bytes := by
  induction bytes using encode.induct with
  | case1 => rfl
  | case2 a =>
    have ha := a.toNat_lt
    have hw := value_digit (n := a.toNat / 4) (by omega)
    have hx := value_digit (n := a.toNat % 4 * 16) (by omega)
    have hfirst : UInt8.ofNat (a.toNat / 4 * 4 + a.toNat % 4 * 16 / 16) = a := ofNat_eq (by omega)
    simp only [encode, decode, decodeLast, hw, hx, Option.bind_eq_bind, Option.bind_some, if_true]
    rw [if_pos (by omega), hfirst]
  | case3 a b =>
    have ha := a.toNat_lt
    have hb := b.toNat_lt
    have hw := value_digit (n := a.toNat / 4) (by omega)
    have hx := value_digit (n := a.toNat % 4 * 16 + b.toNat / 16) (by omega)
    have hy := value_digit (n := b.toNat % 16 * 4) (by omega)
    have hpad := digit_ne_pad (n := b.toNat % 16 * 4) (by omega)
    have hfirst : UInt8.ofNat (a.toNat / 4 * 4 + (a.toNat % 4 * 16 + b.toNat / 16) / 16) = a :=
      ofNat_eq (by omega)
    have hsecond : UInt8.ofNat ((a.toNat % 4 * 16 + b.toNat / 16) % 16 * 16 +
        b.toNat % 16 * 4 / 4) = b := ofNat_eq (by omega)
    simp only [encode, decode, decodeLast, hw, hx, hy, hpad, Option.bind_eq_bind, Option.bind_some,
      if_true, if_false]
    rw [if_pos (by omega), hfirst, hsecond]
  | case4 a b c rest ih =>
    have ha := a.toNat_lt
    have hb := b.toNat_lt
    have hc := c.toNat_lt
    have hw := value_digit (n := a.toNat / 4) (by omega)
    have hx := value_digit (n := a.toNat % 4 * 16 + b.toNat / 16) (by omega)
    have hy := value_digit (n := b.toNat % 16 * 4 + c.toNat / 64) (by omega)
    have hz := value_digit (n := c.toNat % 64) (by omega)
    have hpad := digit_ne_pad (n := c.toNat % 64) (by omega)
    have hfirst : UInt8.ofNat (a.toNat / 4 * 4 + (a.toNat % 4 * 16 + b.toNat / 16) / 16) = a :=
      ofNat_eq (by omega)
    have hsecond : UInt8.ofNat ((a.toNat % 4 * 16 + b.toNat / 16) % 16 * 16 +
        (b.toNat % 16 * 4 + c.toNat / 64) / 4) = b := ofNat_eq (by omega)
    have hthird : UInt8.ofNat ((b.toNat % 16 * 4 + c.toNat / 64) % 4 * 64 + c.toNat % 64) = c :=
      ofNat_eq (by omega)
    have hlast : decodeLast (digit (a.toNat / 4)) (digit (a.toNat % 4 * 16 + b.toNat / 16))
        (digit (b.toNat % 16 * 4 + c.toNat / 64)) (digit (c.toNat % 64)) = some [a, b, c] := by
      simp only [decodeLast, hw, hx, hy, hz, hpad, Option.bind_eq_bind, Option.bind_some, if_false,
        hfirst, hsecond, hthird]
    rw [encode]
    cases hrest : encode rest with
    | nil =>
      rw [hrest] at ih
      rw [decode, hlast]
      obtain rfl : [] = rest := Option.some.inj ih
      rfl
    | cons d more =>
      rw [hrest] at ih
      simp only [decode, if_neg hpad, hlast, ih, Option.bind_eq_bind, Option.bind_some]
      rfl

theorem isChar_of_decodeLast {w x y z : UInt8} {bytes : List UInt8}
    (h : decodeLast w x y z = some bytes) : ∀ c ∈ [w, x, y, z], IsChar c := by
  simp only [decodeLast, Option.bind_eq_bind, Option.bind_eq_some_iff] at h
  obtain ⟨w', hw, x', hx, h⟩ := h
  have hw : IsChar w := Or.inl (by rw [hw]; rfl)
  have hx : IsChar x := Or.inl (by rw [hx]; rfl)
  have hyz : IsChar y ∧ IsChar z := by
    split at h
    · rename_i hz
      split at h
      · rename_i hy
        exact ⟨Or.inr hy, Or.inr hz⟩
      · obtain ⟨y', hy, -⟩ := Option.bind_eq_some_iff.mp h
        exact ⟨Or.inl (by rw [hy]; rfl), Or.inr hz⟩
    · obtain ⟨y', hy, h⟩ := Option.bind_eq_some_iff.mp h
      obtain ⟨z', hz, -⟩ := Option.bind_eq_some_iff.mp h
      exact ⟨Or.inl (by rw [hy]; rfl), Or.inl (by rw [hz]; rfl)⟩
  simp only [List.mem_cons, List.not_mem_nil, or_false]
  rintro c (rfl | rfl | rfl | rfl)
  · exact hw
  · exact hx
  · exact hyz.1
  · exact hyz.2

theorem isChar_of_decode {chars bytes : List UInt8} (h : decode chars = some bytes) :
    ∀ c ∈ chars, IsChar c := by
  induction chars using decode.induct generalizing bytes with
  | case1 =>
    intro c hc
    cases hc
  | case2 w x y z => exact isChar_of_decodeLast h
  | case3 w x y rest hrest =>
    cases rest with
    | nil => exact absurd rfl hrest
    | cons d more =>
      simp only [decode, if_true] at h
      cases h
  | case4 w x y z rest hrest hpad ih =>
    cases rest with
    | nil => exact absurd rfl hrest
    | cons d more =>
      simp only [decode, if_neg hpad, Option.bind_eq_bind, Option.bind_eq_some_iff] at h
      obtain ⟨first, hfirst, last, hlast, -⟩ := h
      have hquantum := isChar_of_decodeLast hfirst
      have hmore := ih hlast
      intro c hc
      rw [show w :: x :: y :: z :: d :: more = [w, x, y, z] ++ d :: more from rfl,
        List.mem_append] at hc
      exact hc.elim (hquantum c) (hmore c)
  | case5 chars hnil hfour hmore =>
    exfalso
    match chars with
    | [] => exact hnil rfl
    | [_] | [_, _] | [_, _, _] => cases h
    | w :: x :: y :: z :: rest => exact hmore w x y z rest rfl

theorem length_decodeLast {w x y z : UInt8} {bytes : List UInt8}
    (h : decodeLast w x y z = some bytes) : bytes.length ≤ 4 := by
  simp only [decodeLast, Option.bind_eq_bind, Option.bind_eq_some_iff] at h
  obtain ⟨w', -, x', -, h⟩ := h
  split_ifs at h
  · cases h
    simp
  · obtain ⟨y', -, h⟩ := Option.bind_eq_some_iff.mp h
    split_ifs at h
    cases h
    simp
  · obtain ⟨y', -, h⟩ := Option.bind_eq_some_iff.mp h
    obtain ⟨z', -, h⟩ := Option.bind_eq_some_iff.mp h
    cases h
    simp

/-- What is decoded is not longer than its text. -/
theorem length_decode {chars bytes : List UInt8} (h : decode chars = some bytes) :
    bytes.length ≤ chars.length := by
  induction chars using decode.induct generalizing bytes with
  | case1 =>
    cases h
    exact Nat.le_refl 0
  | case2 w x y z => exact length_decodeLast h
  | case3 w x y rest hrest =>
    cases rest with
    | nil => exact absurd rfl hrest
    | cons d more =>
      simp only [decode, if_true] at h
      cases h
  | case4 w x y z rest hrest hpad ih =>
    cases rest with
    | nil => exact absurd rfl hrest
    | cons d more =>
      simp only [decode, if_neg hpad, Option.bind_eq_bind, Option.bind_eq_some_iff] at h
      obtain ⟨first, hfirst, last, hlast, h⟩ := h
      cases h
      have hquantum := length_decodeLast hfirst
      have hmore := ih hlast
      simp only [List.length_append, List.length_cons] at hmore ⊢
      omega
  | case5 chars hnil hfour hmore =>
    exfalso
    match chars with
    | [] => exact hnil rfl
    | [_] | [_, _] | [_, _, _] => cases h
    | w :: x :: y :: z :: rest => exact hmore w x y z rest rfl

/-! ### One text for each content -/

theorem digit_value {c : UInt8} {n : Nat} (h : value c = some n) : n < 64 ∧ digit n = c := by
  simp only [value] at h
  unfold digit
  split_ifs at h with hupper hlower hdigit hplus hslash
  · cases h
    refine ⟨by omega, ?_⟩
    rw [if_pos (by omega)]
    exact ofNat_eq (by omega)
  · cases h
    refine ⟨by omega, ?_⟩
    rw [if_neg (by omega), if_pos (by omega)]
    exact ofNat_eq (by omega)
  · cases h
    refine ⟨by omega, ?_⟩
    rw [if_neg (by omega), if_neg (by omega), if_pos (by omega)]
    exact ofNat_eq (by omega)
  · cases h
    exact ⟨by decide, UInt8.toNat_inj.mp hplus.symm⟩
  · cases h
    exact ⟨by decide, UInt8.toNat_inj.mp hslash.symm⟩

theorem encode_decodeLast {w x y z : UInt8} {bytes : List UInt8}
    (h : decodeLast w x y z = some bytes) : encode bytes = [w, x, y, z] := by
  simp only [decodeLast, Option.bind_eq_bind, Option.bind_eq_some_iff] at h
  obtain ⟨w', hw, x', hx, h⟩ := h
  obtain ⟨hw', rfl⟩ := digit_value hw
  obtain ⟨hx', rfl⟩ := digit_value hx
  split_ifs at h with hz hy hspare
  · cases h
    subst hz hy
    simp only [encode, UInt8.toNat_ofNat']
    rw [show (w' * 4 + x' / 16) % 2 ^ 8 / 4 = w' by omega,
      show (w' * 4 + x' / 16) % 2 ^ 8 % 4 * 16 = x' by omega]
  · obtain ⟨y', hy', hbytes⟩ := Option.bind_eq_some_iff.mp h
    obtain ⟨hlt, rfl⟩ := digit_value hy'
    split_ifs at hbytes with hspare
    cases hbytes
    subst hz
    simp only [encode, UInt8.toNat_ofNat']
    rw [show (w' * 4 + x' / 16) % 2 ^ 8 / 4 = w' by omega,
      show (w' * 4 + x' / 16) % 2 ^ 8 % 4 * 16 + (x' % 16 * 16 + y' / 4) % 2 ^ 8 / 16 = x' by omega,
      show (x' % 16 * 16 + y' / 4) % 2 ^ 8 % 16 * 4 = y' by omega]
  · obtain ⟨y', hy', hrest⟩ := Option.bind_eq_some_iff.mp h
    obtain ⟨z', hz', hbytes⟩ := Option.bind_eq_some_iff.mp hrest
    obtain ⟨hylt, rfl⟩ := digit_value hy'
    obtain ⟨hzlt, rfl⟩ := digit_value hz'
    cases hbytes
    simp only [encode, UInt8.toNat_ofNat']
    rw [show (w' * 4 + x' / 16) % 2 ^ 8 / 4 = w' by omega,
      show (w' * 4 + x' / 16) % 2 ^ 8 % 4 * 16 + (x' % 16 * 16 + y' / 4) % 2 ^ 8 / 16 = x' by omega,
      show (x' % 16 * 16 + y' / 4) % 2 ^ 8 % 16 * 4 + (y' % 4 * 64 + z') % 2 ^ 8 / 64 = y' by omega,
      show (y' % 4 * 64 + z') % 2 ^ 8 % 64 = z' by omega]

/-- A quantum that is not padded stands for three bytes. -/
theorem decodeLast_full {w x y z : UInt8} {bytes : List UInt8}
    (h : decodeLast w x y z = some bytes) (hz : z ≠ pad) : ∃ a b c, bytes = [a, b, c] := by
  simp only [decodeLast, Option.bind_eq_bind, Option.bind_eq_some_iff, if_neg hz] at h
  obtain ⟨w', -, x', -, y', -, z', -, h⟩ := h
  cases h
  exact ⟨_, _, _, rfl⟩

/-- **What is decoded is encoded as the text it came from.** -/
theorem encode_decode {chars bytes : List UInt8} (h : decode chars = some bytes) :
    encode bytes = chars := by
  induction chars using decode.induct generalizing bytes with
  | case1 =>
    cases h
    rfl
  | case2 w x y z => exact encode_decodeLast h
  | case3 w x y rest hrest =>
    cases rest with
    | nil => exact absurd rfl hrest
    | cons d more =>
      simp only [decode, if_true] at h
      cases h
  | case4 w x y z rest hrest hpad ih =>
    cases rest with
    | nil => exact absurd rfl hrest
    | cons d more =>
      simp only [decode, if_neg hpad, Option.bind_eq_bind, Option.bind_eq_some_iff] at h
      obtain ⟨first, hfirst, last, hlast, h⟩ := h
      cases h
      obtain ⟨a, b, c, rfl⟩ := decodeLast_full hfirst hpad
      have hquantum := encode_decodeLast hfirst
      have hmore := ih hlast
      simp only [encode, List.cons.injEq, and_true] at hquantum
      obtain ⟨hw, hx, hy, hz⟩ := hquantum
      rw [List.cons_append, List.cons_append, List.cons_append, List.nil_append, encode, hw, hx, hy,
        hz, hmore]
  | case5 chars hnil hfour hmore =>
    exfalso
    match chars with
    | [] => exact hnil rfl
    | [_] | [_, _] | [_, _, _] => cases h
    | w :: x :: y :: z :: rest => exact hmore w x y z rest rfl

end Softfig.Lib.Base64
