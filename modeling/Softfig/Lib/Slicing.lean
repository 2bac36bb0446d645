import Mathlib.Algebra.GroupWithZero.Nat
import Mathlib.Data.List.DropRight

/-!
Cutting a text at byte offsets and at separators, and reading numbers of a fixed width. A text
is a list of characters, its offsets count the bytes of its UTF-8 form.

* `splitAtByte_eq_some` — a cut at a character boundary puts back together.
* `splitOnce_eq_some`, `splitOn_eq_two`, `splitOn_eq_three` — what a split returns spells the
  text, and no other way.
* `ofDigitChars_padded`, `padded_ofDigitChars` — a numeral of a width and its value.
-/

namespace Softfig.Lib.Slicing

/-! ### Byte offsets -/

/-- The bytes of the text in UTF-8. -/
def byteLen (s : List Char) : Nat := (s.map Char.utf8Size).sum

@[simp] theorem byteLen_nil : byteLen [] = 0 := rfl

@[simp]
theorem byteLen_cons {c : Char} {s : List Char} : byteLen (c :: s) = c.utf8Size + byteLen s := by
  simp [byteLen]

/-- The text before a byte offset and the text from it, where a character begins there or the
text ends. -/
def splitAtByte : Nat → List Char → Option (List Char × List Char)
  | 0, s => some ([], s)
  | _ + 1, [] => none
  | n + 1, c :: s =>
    if c.utf8Size ≤ n + 1 then
      (splitAtByte (n + 1 - c.utf8Size) s).map fun cut => (c :: cut.1, cut.2)
    else none

/-- A cut at a character boundary puts back together. -/
theorem splitAtByte_eq_some {n : Nat} {s a b : List Char} :
    splitAtByte n s = some (a, b) ↔ s = a ++ b ∧ byteLen a = n := by
  induction s generalizing n a b with
  | nil =>
    cases n with
    | zero =>
      simp only [splitAtByte, Option.some.injEq, Prod.mk.injEq]
      constructor
      · rintro ⟨rfl, rfl⟩
        exact ⟨rfl, rfl⟩
      · rintro ⟨h, -⟩
        obtain ⟨rfl, rfl⟩ := List.append_eq_nil_iff.mp h.symm
        exact ⟨rfl, rfl⟩
    | succ n =>
      simp only [splitAtByte, reduceCtorEq, false_iff, not_and]
      intro h
      obtain ⟨rfl, rfl⟩ := List.append_eq_nil_iff.mp h.symm
      simp
  | cons c s ih =>
    have hc := c.utf8Size_pos
    cases n with
    | zero =>
      simp only [splitAtByte, Option.some.injEq, Prod.mk.injEq]
      constructor
      · rintro ⟨rfl, rfl⟩
        exact ⟨rfl, rfl⟩
      · rintro ⟨h, hlen⟩
        cases a with
        | nil => exact ⟨rfl, h⟩
        | cons d a =>
          have hd := d.utf8Size_pos
          rw [byteLen_cons] at hlen
          omega
    | succ n =>
      rw [splitAtByte]
      split
      · rename_i hle
        simp only [Option.map_eq_some_iff, Prod.mk.injEq, Prod.exists]
        constructor
        · rintro ⟨a', b', hcut, rfl, rfl⟩
          obtain ⟨rfl, hlen⟩ := ih.mp hcut
          exact ⟨rfl, by rw [byteLen_cons]; omega⟩
        · rintro ⟨h, hlen⟩
          cases a with
          | nil => simp at hlen
          | cons d a =>
            obtain ⟨rfl, rfl⟩ := List.cons.inj h
            rw [byteLen_cons] at hlen
            exact ⟨a, b, ih.mpr ⟨rfl, by omega⟩, rfl, rfl⟩
      · rename_i hlt
        simp only [reduceCtorEq, false_iff, not_and]
        intro h hlen
        cases a with
        | nil => simp at hlen
        | cons d a =>
          obtain ⟨rfl, rfl⟩ := List.cons.inj h
          rw [byteLen_cons] at hlen
          omega

/-! ### Separators -/

/-- The text before the first `c` and the text after it. -/
def splitOnce (c : Char) (s : List Char) : Option (List Char × List Char) :=
  match s.dropWhile (· != c) with
  | [] => none
  | _ :: after => some (s.takeWhile (· != c), after)

theorem span_eq_iff {p : Char → Bool} {s a b : List Char} (ha : ∀ x ∈ a, p x = true)
    (hb : ∀ x, b.head? = some x → p x = false) (hs : s = a ++ b) :
    s.takeWhile p = a ∧ s.dropWhile p = b := by
  subst hs
  rw [List.takeWhile_append_of_pos ha, List.dropWhile_append_of_pos ha]
  cases b with
  | nil => simp
  | cons x b =>
    have hx := hb x rfl
    simp [hx]

theorem splitOnce_eq_some {c : Char} {s a b : List Char} :
    splitOnce c s = some (a, b) ↔ s = a ++ c :: b ∧ c ∉ a := by
  unfold splitOnce
  constructor
  · intro h
    have happ := List.takeWhile_append_dropWhile (p := (· != c)) (l := s)
    cases hd : s.dropWhile (· != c) with
    | nil =>
      rw [hd] at h
      cases h
    | cons x after =>
      rw [hd] at h happ
      simp only [Option.some.injEq, Prod.mk.injEq] at h
      obtain ⟨rfl, rfl⟩ := h
      have hx : x = c := by
        have hne : s.dropWhile (· != c) ≠ [] := by
          rw [hd]
          exact List.cons_ne_nil _ _
        have hhead := List.head_dropWhile_not (· != c) hne
        simpa [hd] using hhead
      subst hx
      refine ⟨happ.symm, fun hmem => ?_⟩
      have := List.mem_takeWhile_imp hmem
      simp at this
  · rintro ⟨hs, ha⟩
    obtain ⟨htake, hdrop⟩ := span_eq_iff (p := (· != c))
      (fun x hx => by simpa using fun h : x = c => ha (h ▸ hx))
      (fun x hx => by simpa using hx.symm) hs
    rw [hdrop, htake]

/-- No part of a split holds a separator. -/
theorem not_of_mem_splitOnP {p : Char → Bool} {s part : List Char} (h : part ∈ s.splitOnP p) :
    ∀ c ∈ part, p c = false := by
  induction s generalizing part with
  | nil =>
    rw [List.splitOnP_nil, List.mem_singleton] at h
    subst h
    exact fun c hc => absurd hc List.not_mem_nil
  | cons x s ih =>
    rw [List.splitOnP_cons_eq_if_modifyHead] at h
    split at h
    · rcases List.mem_cons.mp h with rfl | h
      · exact fun c hc => absurd hc List.not_mem_nil
      · exact ih h
    · rename_i hx
      cases hs : s.splitOnP p with
      | nil => exact absurd hs (List.splitOnP_ne_nil p s)
      | cons first rest =>
        rw [hs, List.modifyHead_cons] at h
        rcases List.mem_cons.mp h with rfl | h
        · have hfirst := ih (hs ▸ List.mem_cons_self)
          intro c hc
          rcases List.mem_cons.mp hc with rfl | hc
          · simpa using hx
          · exact hfirst c hc
        · exact ih (hs ▸ List.mem_cons_of_mem first h)

theorem not_mem_of_mem_splitOn {c : Char} {s part : List Char} (h : part ∈ s.splitOn c) :
    c ∉ part := by
  rw [List.splitOn_eq_splitOnP] at h
  intro hc
  have := not_of_mem_splitOnP h c hc
  simp at this

/-- What stands before the first separator stays together. -/
theorem splitOnP_append {p : Char → Bool} {a s : List Char} (ha : ∀ c ∈ a, p c = false) :
    (a ++ s).splitOnP p = (s.splitOnP p).modifyHead (a ++ ·) := by
  induction a with
  | nil =>
    cases hs : s.splitOnP p with
    | nil => exact absurd hs (List.splitOnP_ne_nil p s)
    | cons first rest => simpa using hs
  | cons x a ih =>
    rw [List.cons_append, List.splitOnP_cons_eq_if_modifyHead, if_neg (by simp [ha x]),
      ih fun c hc => ha c (List.mem_cons_of_mem x hc)]
    cases hs : s.splitOnP p with
    | nil => exact absurd hs (List.splitOnP_ne_nil p s)
    | cons first rest => rfl

/-- A split in two spells the text with one separator. -/
theorem splitOn_eq_two {c : Char} {s x y : List Char} :
    s.splitOn c = [x, y] ↔ s = x ++ c :: y ∧ c ∉ x ∧ c ∉ y := by
  constructor
  · intro h
    have hs := @List.intercalate_splitOn _ s _ _ c
    have hmem : ∀ part ∈ s.splitOn c, c ∉ part := fun part => not_mem_of_mem_splitOn
    rw [h] at hs hmem
    simp only [List.forall_mem_cons] at hmem
    exact ⟨by simpa using hs.symm, hmem.1, hmem.2.1⟩
  · rintro ⟨rfl, hx, hy⟩
    rw [List.splitOn_append_cons_self_of_not_mem hx, List.splitOn_eq_singleton hy]

/-- A split in three spells the text with two separators. -/
theorem splitOn_eq_three {c : Char} {s x y z : List Char} :
    s.splitOn c = [x, y, z] ↔ s = x ++ c :: (y ++ c :: z) ∧ c ∉ x ∧ c ∉ y ∧ c ∉ z := by
  constructor
  · intro h
    have hs := @List.intercalate_splitOn _ s _ _ c
    have hmem : ∀ part ∈ s.splitOn c, c ∉ part := fun part => not_mem_of_mem_splitOn
    rw [h] at hs hmem
    simp only [List.forall_mem_cons] at hmem
    exact ⟨by simpa using hs.symm, hmem.1, hmem.2.1, hmem.2.2.1⟩
  · rintro ⟨rfl, hx, hy, hz⟩
    rw [List.splitOn_append_cons_self_of_not_mem hx, List.splitOn_append_cons_self_of_not_mem hy,
      List.splitOn_eq_singleton hz]

/-! ### Numerals of a fixed width -/

/-- The last `width` decimal digits of a number. -/
def padded : Nat → Nat → List Char
  | 0, _ => []
  | width + 1, n => padded width (n / 10) ++ [Nat.digitChar (n % 10)]

@[simp]
theorem length_padded (width n : Nat) : (padded width n).length = width := by
  induction width generalizing n with
  | zero => rfl
  | succ width ih => simp [padded, ih]

theorem isDigit_of_mem_padded {width n : Nat} {c : Char} (h : c ∈ padded width n) :
    c.isDigit = true := by
  induction width generalizing n with
  | zero => cases h
  | succ width ih =>
    rcases List.mem_append.mp h with h | h
    · exact ih h
    · rw [List.mem_singleton.mp h, Nat.isDigit_digitChar]
      exact decide_eq_true (Nat.mod_lt n (by decide))

/-- A numeral wide enough keeps its number. -/
theorem ofDigitChars_padded {width n : Nat} (h : n < 10 ^ width) :
    Nat.ofDigitChars 10 (padded width n) 0 = n := by
  induction width generalizing n with
  | zero =>
    have hn : n = 0 := by simpa using h
    subst hn
    rfl
  | succ width ih =>
    have hdiv : n / 10 < 10 ^ width := by
      rw [Nat.pow_succ] at h
      omega
    rw [padded, Nat.ofDigitChars_append, ih hdiv,
      Nat.ofDigitChars_cons_digitChar_of_lt_ten (Nat.mod_lt n (by decide)), Nat.ofDigitChars_nil]
    omega

/-- A digit is written by its value. -/
theorem exists_digitChar {c : Char} (h : c.isDigit = true) : ∃ n, n < 10 ∧ c = Nat.digitChar n := by
  have hwritten : ∀ n < 10, Char.ofNat (48 + n) = Nat.digitChar n := by decide
  rw [Char.isDigit, Bool.and_eq_true, decide_eq_true_eq, decide_eq_true_eq] at h
  have hlow : 48 ≤ c.toNat := h.1
  have hhigh : c.toNat ≤ 57 := h.2
  refine ⟨c.toNat - 48, by omega, ?_⟩
  rw [← hwritten _ (by omega), Nat.add_sub_cancel' hlow, Char.ofNat_toNat]

/-- Digits spell the numeral of their value, and it has no more digits. -/
theorem padded_ofDigitChars {s : List Char} (h : ∀ c ∈ s, c.isDigit = true) :
    padded s.length (Nat.ofDigitChars 10 s 0) = s ∧ Nat.ofDigitChars 10 s 0 < 10 ^ s.length := by
  induction s using List.reverseRecOn with
  | nil => exact ⟨rfl, by decide⟩
  | append_singleton s c ih =>
    obtain ⟨hs, hlt⟩ := ih fun x hx => h x (List.mem_append_left _ hx)
    obtain ⟨n, hn, rfl⟩ := exists_digitChar (h c (by simp))
    rw [Nat.ofDigitChars_append, Nat.ofDigitChars_cons_digitChar_of_lt_ten hn,
      Nat.ofDigitChars_nil, List.length_append, List.length_singleton, padded]
    have hdiv : (10 * Nat.ofDigitChars 10 s 0 + n) / 10 = Nat.ofDigitChars 10 s 0 := by omega
    have hmod : (10 * Nat.ofDigitChars 10 s 0 + n) % 10 = n := by omega
    rw [hdiv, hmod, hs, Nat.pow_succ]
    exact ⟨rfl, by omega⟩

/-- Digits are one byte each. -/
theorem byteLen_of_digits {s : List Char} (h : ∀ c ∈ s, c.isDigit = true) :
    byteLen s = s.length := by
  induction s with
  | nil => rfl
  | cons c s ih =>
    obtain ⟨n, hn, rfl⟩ := exists_digitChar (h c List.mem_cons_self)
    rw [byteLen_cons, ih fun x hx => h x (List.mem_cons_of_mem _ hx), List.length_cons]
    have hsize : ∀ n < 10, (Nat.digitChar n).utf8Size = 1 := by decide
    rw [hsize n hn, Nat.add_comm]

end Softfig.Lib.Slicing
