import Mathlib.Tactic.IntervalCases
import Softfig.Lib.Calendar
import Softfig.Lib.Except
import Softfig.Lib.Slicing
import Softfig.Doc.ItemMeta

/-!
The time of a `Not-before` line: a date, a time and an offset, read as Unix seconds.

`parseNotBefore` is the reader, with every slice, index and sum that could panic. `Reading` is
what such a text says, `Reading.instant` the second it names, and `Reading.Writes` the grammar
that the reader documents.

- `parseNotBefore_ok_iff`: what the reader accepts, and its value;
- `parseNotBefore_not_panicked`: no text makes it panic;
- `parseNotBefore_meets_iff`: it accepts exactly the grammar but for texts of two kinds.
-/

namespace Softfig.Doc.NotBefore

open Softfig.Lib Softfig.Lib.Slicing Softfig.Lib.Calendar
open Softfig.Queue (isWhitespace trim)

/-! ### The reader -/

inductive Stop where
  /-- The error that the reader returns. -/
  | refused (text : Text)
  /-- An index out of range, a slice inside a character, or a sum that overflows. -/
  | panicked
  deriving DecidableEq

/-- The `bad` closure: one error for every reason. -/
def bad (value : Text) : Stop :=
  .refused ("`".toList ++ value ++ "` is not `YYYY-MM-DD HH:MM ±HH:MM`".toList)

def trimEnd (s : Text) : Text := s.rdropWhile isWhitespace

/-- `num`: a numeral of ASCII digits that fits an `i64`. -/
def num (value part : Text) : Except Stop Int :=
  if part.isEmpty || !part.all Char.isDigit then .error (bad value)
  else
    let n := Nat.ofDigitChars 10 part 0
    if n < 2 ^ 63 then .ok n else .error (bad value)

/-- The result of an `i64` expression, whose parts are all smaller. -/
def checked (x : Int) : Except Stop Int :=
  if -2 ^ 63 ≤ x ∧ x < 2 ^ 63 then .ok x else .error .panicked

/-- `&s[n..]`. -/
def sliceFrom (n : Nat) (s : Text) : Except Stop Text :=
  match splitAtByte n s with
  | some (_, rest) => .ok rest
  | none => .error .panicked

/-- Year, month and day. -/
def dateFields (value date : Text) : Except Stop (Int × Int × Int) :=
  match date.splitOn '-' with
  | [y, mo, d] =>
    if byteLen y = 4 ∧ byteLen mo = 2 ∧ byteLen d = 2 then do
      let y ← num value y
      let mo ← num value mo
      let d ← num value d
      return (y, mo, d)
    else .error (bad value)
  | _ => .error (bad value)

/-- Hour, minute and second. -/
def timeFields (value time : Text) : Except Stop (Int × Int × Int) :=
  match time.splitOn ':' with
  | [h, mi] =>
    if byteLen h = 2 ∧ byteLen mi = 2 then do
      let h ← num value h
      let mi ← num value mi
      return (h, mi, 0)
    else .error (bad value)
  | [h, mi, sec] =>
    if byteLen h = 2 ∧ byteLen mi = 2 ∧ byteLen sec = 2 then do
      let h ← num value h
      let mi ← num value mi
      let sec ← num value sec
      return (h, mi, sec)
    else .error (bad value)
  | _ => .error (bad value)

/-- The sign is looked at only to tell `-` from the rest. -/
def offsetSecs (value offset : Text) : Except Stop Int :=
  if offset = ['Z'] then .ok 0
  else do
    let sign : Int := if offset.head? = some '-' then -1 else 1
    let rest ← sliceFrom 1 offset
    match splitOnce ':' rest with
    | some (oh, om) =>
      if byteLen oh = 2 ∧ byteLen om = 2 then do
        let oh ← num value oh
        refuseIf (23 < oh) (bad value)
        let om ← num value om
        refuseIf (59 < om) (bad value)
        return sign * (oh * 3600 + om * 60)
      else .error (bad value)
    | none => .error (bad value)

/-- The `month_days` table, read at an index. -/
def monthDays (leap : Bool) (index : Nat) : Except Stop Int :=
  match [31, if leap then 29 else 28, 31, 30, 31, 30, 31, 31, 30, 31, 30, (31 : Int)][index]? with
  | some days => .ok days
  | none => .error .panicked

/-- The year that the last first of March began. -/
def civilYear (y m : Int) : Except Stop Int := if m ≤ 2 then checked (y - 1) else .ok y

def daysFromCivil (y m d : Int) : Except Stop Int := do
  let y ← civilYear y m
  let era := (if 0 ≤ y then y else y - 399).tdiv 400
  let yoe ← checked (y - era * 400)
  let doy ← checked ((153 * ((m + 9).tmod 12) + 2).tdiv 5 + d - 1)
  let doe ← checked (yoe * 365 + yoe.tdiv 4 - yoe.tdiv 100 + doy)
  checked (era * 146097 + doe - 719468)

/-- The fields are all checked before the sum. -/
def toSeconds (value : Text) (y mo d h mi sec offset : Int) : Except Stop Int := do
  let leap := (y.tmod 4 == 0 && y.tmod 100 != 0) || y.tmod 400 == 0
  refuseIf (¬(1 ≤ mo ∧ mo ≤ 12)) (bad value)
  refuseIf (d < 1) (bad value)
  let days ← monthDays leap (mo - 1).toNat
  refuseIf (days < d ∨ 23 < h ∨ 59 < mi ∨ 59 < sec) (bad value)
  let day ← daysFromCivil y mo d
  checked (day * 86400 + h * 3600 + mi * 60 + sec - offset)

/-- The text after the date, which a space or a `T` begins. -/
def afterSeparator (value : Text) : Text → Except Stop Text
  | ' ' :: rest | 'T' :: rest => .ok rest
  | _ => .error (bad value)

def isOffsetLead (c : Char) : Bool := c = 'Z' || c = '+' || c = '-'

/-- `parse_not_before`. -/
def parseNotBefore (value : Text) : Except Stop Int :=
  match splitAtByte 10 (trim value) with
  | none => .error (bad value)
  | some (date, rest) => do
    let rest ← afterSeparator value rest
    let (y, mo, d) ← dateFields value date
    -- The time runs up to the offset: `Z`, `+` or `-`.
    let offset := rest.dropWhile fun c => !isOffsetLead c
    refuseIf (offset = []) (bad value)
    let (h, mi, sec) ← timeFields value (trimEnd (rest.takeWhile fun c => !isOffsetLead c))
    let offset ← offsetSecs value offset
    toSeconds value y mo d h mi sec offset

/-! ### What a text says -/

/-- A date of a four-digit year, a time of day and an offset from UTC. -/
structure Reading where
  date : Date
  hour : Nat
  minute : Nat
  second : Nat
  behind : Bool
  offsetHour : Nat
  offsetMinute : Nat
  year_lt : date.year < 10000
  hour_le : hour ≤ 23
  minute_le : minute ≤ 59
  second_le : second ≤ 59
  offsetHour_le : offsetHour ≤ 23
  offsetMinute_le : offsetMinute ≤ 59

namespace Reading

/-- The seconds that local time is ahead of UTC. -/
def offset (r : Reading) : Int :=
  (if r.behind then -1 else 1) * (r.offsetHour * 3600 + r.offsetMinute * 60)

/-- The first of January 1970. -/
def epoch : Date := ⟨1970, 1, 1, by decide, by decide⟩

/-- The instant in Unix seconds. -/
def instant (r : Reading) : Int :=
  ((r.date.dayNumber : Int) - epoch.dayNumber) * 86400 + r.hour * 3600 + r.minute * 60 + r.second
    - r.offset

def WritesDate (r : Reading) (text : Text) : Prop :=
  text = padded 4 r.date.year ++ '-' :: (padded 2 r.date.month ++ '-' :: padded 2 r.date.day)

instance (r : Reading) (text : Text) : Decidable (r.WritesDate text) :=
  inferInstanceAs (Decidable (_ = _))

/-- `HH:MM` or `HH:MM:SS`. -/
def WritesTime (r : Reading) (text : Text) : Prop :=
  (text = padded 2 r.hour ++ ':' :: padded 2 r.minute ∧ r.second = 0) ∨
    text = padded 2 r.hour ++ ':' :: (padded 2 r.minute ++ ':' :: padded 2 r.second)

/-- The hours and minutes of the offset after a sign. -/
def SignedOffset (r : Reading) (sign : Char) (text : Text) : Prop :=
  text = sign :: (padded 2 r.offsetHour ++ ':' :: padded 2 r.offsetMinute)

instance (r : Reading) (sign : Char) (text : Text) : Decidable (r.SignedOffset sign text) :=
  inferInstanceAs (Decidable (_ = _))

/-- `Z`, or a sign with `HH:MM`. -/
def WritesOffset (r : Reading) (text : Text) : Prop :=
  (text = ['Z'] ∧ r.behind = false ∧ r.offsetHour = 0 ∧ r.offsetMinute = 0) ∨
    (r.SignedOffset '+' text ∧ r.behind = false) ∨ (r.SignedOffset '-' text ∧ r.behind = true)

/-- `Z` where a sign belongs. -/
def SignsWithZ (r : Reading) (text : Text) : Prop := r.SignedOffset 'Z' text ∧ r.behind = false

/-- The text is the date, a space or a `T`, the time, the gap and the offset. -/
def Spells (r : Reading) (gap offset text : Text) : Prop :=
  ∃ date separator time, r.WritesDate date ∧ (separator = ' ' ∨ separator = 'T') ∧
    r.WritesTime time ∧ text = date ++ separator :: (time ++ (gap ++ offset))

/-- The documented grammar: the offset follows the time with or without a space. -/
def Writes (r : Reading) (text : Text) : Prop :=
  ∃ gap offset, (gap = [] ∨ gap = [' ']) ∧ r.WritesOffset offset ∧ r.Spells gap offset text

/-- The grammar the reader has: any white space before the offset, and `Z` for a sign. -/
def Passes (r : Reading) (text : Text) : Prop :=
  ∃ gap offset, (∀ c ∈ gap, isWhitespace c = true) ∧ (r.WritesOffset offset ∨ r.SignsWithZ offset) ∧
    r.Spells gap offset text

end Reading

/-- What the reader is documented to do with a text: it accepts the grammar and nothing else,
reads the instant, orders what it accepts by the instants, and returns. -/
structure Meets (value : Text) : Prop where
  accepts : ∀ v, parseNotBefore value = .ok v ↔ ∃ r : Reading, r.Writes (trim value) ∧ v = r.instant
  compares : ∀ (other : Text) (r r' : Reading) (v v' : Int), r.Writes (trim value) →
    r'.Writes (trim other) → parseNotBefore value = .ok v → parseNotBefore other = .ok v' →
    (v < v' ↔ r.instant < r'.instant)
  returns : parseNotBefore value ≠ .error .panicked

/-- A text that only the reader's own grammar has: its gap is neither empty nor one space, or its
offset has `Z` for a sign. -/
def Stray (text : Text) : Prop :=
  ∃ (r : Reading) (gap offset : Text), (∀ c ∈ gap, isWhitespace c = true) ∧
    r.Spells gap offset text ∧ (r.SignsWithZ offset ∨ (r.WritesOffset offset ∧ gap ≠ [] ∧ gap ≠ [' ']))

/-! ### What each part accepts -/

/-- What is read from a text of a width is the number of its numeral. -/
theorem padded_of_num {value part : Text} {width : Nat} {n : Int} (hlen : byteLen part = width)
    (hnum : num value part = .ok n) : ∃ k, k < 10 ^ width ∧ part = padded width k ∧ n = k := by
  unfold num at hnum
  split at hnum
  · cases hnum
  · rename_i hdigits
    simp only [Bool.or_eq_true, Bool.not_eq_true', not_or, Bool.not_eq_false,
      List.all_eq_true] at hdigits
    rw [byteLen_of_digits hdigits.2] at hlen
    obtain ⟨hpadded, hlt⟩ := padded_ofDigitChars hdigits.2
    rw [hlen] at hpadded hlt
    dsimp only at hnum
    split at hnum
    · exact ⟨_, hlt, hpadded.symm, (Except.ok.inj hnum).symm⟩
    · cases hnum

theorem byteLen_padded (width k : Nat) : byteLen (padded width k) = width := by
  rw [byteLen_of_digits fun c => isDigit_of_mem_padded, length_padded]

/-- A numeral of a width is read as its number. -/
theorem num_padded (value : Text) {width k : Nat} (hpos : 0 < width) (hle : width ≤ 18)
    (hk : k < 10 ^ width) : num value (padded width k) = .ok k := by
  have hmax : 10 ^ width ≤ 10 ^ 18 := Nat.pow_le_pow_right (by decide) hle
  have hdigits : ∀ c ∈ padded width k, c.isDigit = true := fun c => isDigit_of_mem_padded
  have hne : (padded width k).isEmpty = false := by
    rw [List.isEmpty_eq_false_iff]
    intro hnil
    have hlen := length_padded width k
    rw [hnil, List.length_nil] at hlen
    omega
  rw [num, hne, List.all_eq_true.mpr hdigits, ofDigitChars_padded hk]
  simp only [Bool.not_true, Bool.or_false, Bool.false_eq_true, if_false]
  rw [if_pos (by omega)]

theorem not_mem_padded {width k : Nat} {c : Char} (hc : c.isDigit = false) :
    c ∉ padded width k := by
  intro h
  rw [isDigit_of_mem_padded h] at hc
  cases hc

theorem dateFields_eq_ok {value date : Text} {y mo d : Int} :
    dateFields value date = .ok (y, mo, d) ↔
      ∃ year month day : Nat, year < 10 ^ 4 ∧ month < 10 ^ 2 ∧ day < 10 ^ 2 ∧
        date = padded 4 year ++ '-' :: (padded 2 month ++ '-' :: padded 2 day) ∧
        y = year ∧ mo = month ∧ d = day := by
  constructor
  · intro h
    unfold dateFields at h
    split at h
    · rename_i yt mot dt hsplit
      split at h
      · rename_i hlens
        obtain ⟨y', hy, h⟩ := bind_ok_iff.mp h
        obtain ⟨mo', hmo, h⟩ := bind_ok_iff.mp h
        obtain ⟨d', hd, h⟩ := bind_ok_iff.mp h
        cases h
        obtain ⟨year, hyear, rfl, rfl⟩ := padded_of_num hlens.1 hy
        obtain ⟨month, hmonth, rfl, rfl⟩ := padded_of_num hlens.2.1 hmo
        obtain ⟨day, hday, rfl, rfl⟩ := padded_of_num hlens.2.2 hd
        exact ⟨year, month, day, hyear, hmonth, hday, (splitOn_eq_three.mp hsplit).1,
          rfl, rfl, rfl⟩
      · cases h
    · cases h
  · rintro ⟨year, month, day, hyear, hmonth, hday, rfl, rfl, rfl, rfl⟩
    have hdash : ∀ {width k : Nat}, '-' ∉ padded width k := not_mem_padded rfl
    rw [dateFields, splitOn_eq_three.mpr ⟨rfl, hdash, hdash, hdash⟩]
    dsimp only
    rw [if_pos ⟨byteLen_padded 4 year, byteLen_padded 2 month, byteLen_padded 2 day⟩,
      num_padded value (by decide) (by decide) hyear,
      num_padded value (by decide) (by decide) hmonth,
      num_padded value (by decide) (by decide) hday]
    rfl

theorem timeFields_eq_ok {value time : Text} {h mi sec : Int} :
    timeFields value time = .ok (h, mi, sec) ↔
      ∃ hour minute second : Nat, hour < 10 ^ 2 ∧ minute < 10 ^ 2 ∧ second < 10 ^ 2 ∧
        ((time = padded 2 hour ++ ':' :: padded 2 minute ∧ second = 0) ∨
          time = padded 2 hour ++ ':' :: (padded 2 minute ++ ':' :: padded 2 second)) ∧
        h = hour ∧ mi = minute ∧ sec = second := by
  constructor
  · intro htime
    unfold timeFields at htime
    split at htime
    · rename_i ht mit hsplit
      split at htime
      · rename_i hlens
        obtain ⟨h', hh, htime⟩ := bind_ok_iff.mp htime
        obtain ⟨mi', hmi, htime⟩ := bind_ok_iff.mp htime
        cases htime
        obtain ⟨hour, hhour, rfl, rfl⟩ := padded_of_num hlens.1 hh
        obtain ⟨minute, hminute, rfl, rfl⟩ := padded_of_num hlens.2 hmi
        exact ⟨hour, minute, 0, hhour, hminute, by decide,
          .inl ⟨(splitOn_eq_two.mp hsplit).1, rfl⟩, rfl, rfl, rfl⟩
      · cases htime
    · rename_i ht mit sect hsplit
      split at htime
      · rename_i hlens
        obtain ⟨h', hh, htime⟩ := bind_ok_iff.mp htime
        obtain ⟨mi', hmi, htime⟩ := bind_ok_iff.mp htime
        obtain ⟨sec', hsec, htime⟩ := bind_ok_iff.mp htime
        cases htime
        obtain ⟨hour, hhour, rfl, rfl⟩ := padded_of_num hlens.1 hh
        obtain ⟨minute, hminute, rfl, rfl⟩ := padded_of_num hlens.2.1 hmi
        obtain ⟨second, hsecond, rfl, rfl⟩ := padded_of_num hlens.2.2 hsec
        exact ⟨hour, minute, second, hhour, hminute, hsecond,
          .inr (splitOn_eq_three.mp hsplit).1, rfl, rfl, rfl⟩
      · cases htime
    · cases htime
  · have hcolon : ∀ {width k : Nat}, ':' ∉ padded width k := not_mem_padded rfl
    rintro ⟨hour, minute, second, hhour, hminute, hsecond, ⟨rfl, rfl⟩ | rfl, rfl, rfl, rfl⟩
    · rw [timeFields, splitOn_eq_two.mpr ⟨rfl, hcolon, hcolon⟩]
      dsimp only
      rw [if_pos ⟨byteLen_padded 2 hour, byteLen_padded 2 minute⟩,
        num_padded value (by decide) (by decide) hhour,
        num_padded value (by decide) (by decide) hminute]
      rfl
    · rw [timeFields, splitOn_eq_three.mpr ⟨rfl, hcolon, hcolon, hcolon⟩]
      dsimp only
      rw [if_pos ⟨byteLen_padded 2 hour, byteLen_padded 2 minute, byteLen_padded 2 second⟩,
        num_padded value (by decide) (by decide) hhour,
        num_padded value (by decide) (by decide) hminute,
        num_padded value (by decide) (by decide) hsecond]
      rfl

/-- An offset is `Z`, or a lead of one byte with hours and minutes; only `-` makes it negative. -/
theorem offsetSecs_eq_ok {value rest : Text} {lead : Char} {offset : Int}
    (hlead : lead.utf8Size = 1) :
    offsetSecs value (lead :: rest) = .ok offset ↔
      (lead = 'Z' ∧ rest = [] ∧ offset = 0) ∨
        ∃ hours minutes : Nat, hours ≤ 23 ∧ minutes ≤ 59 ∧
          rest = padded 2 hours ++ ':' :: padded 2 minutes ∧
          offset = (if lead = '-' then -1 else 1) * (hours * 3600 + minutes * 60) := by
  have hslice : sliceFrom 1 (lead :: rest) = .ok rest := by
    have hcut : splitAtByte 1 (lead :: rest) = some ([lead], rest) :=
      splitAtByte_eq_some.mpr ⟨rfl, by simp [hlead]⟩
    rw [sliceFrom, hcut]
  have hcolon : ∀ {width k : Nat}, ':' ∉ padded width k := not_mem_padded rfl
  unfold offsetSecs
  split
  · rename_i hz
    obtain ⟨rfl, rfl⟩ := List.cons.inj hz
    constructor
    · intro h
      exact .inl ⟨rfl, rfl, (Except.ok.inj h).symm⟩
    · rintro (⟨-, -, rfl⟩ | ⟨hours, minutes, -, -, hnil, -⟩)
      · rfl
      · have hlen := congrArg List.length hnil
        simp at hlen
  · rename_i hz
    rw [hslice]
    simp only [List.head?_cons, Option.some.injEq]
    constructor
    · intro h
      obtain ⟨rest', hrest, h⟩ := bind_ok_iff.mp h
      cases hrest
      split at h
      · rename_i oht omt hsplit
        split at h
        · rename_i hlens
          obtain ⟨oh, hoh, h⟩ := bind_ok_iff.mp h
          obtain ⟨hohle, h⟩ := refuseIf_bind_ok_iff.mp h
          obtain ⟨om, hom, h⟩ := bind_ok_iff.mp h
          obtain ⟨homle, h⟩ := refuseIf_bind_ok_iff.mp h
          cases h
          obtain ⟨hours, -, rfl, rfl⟩ := padded_of_num hlens.1 hoh
          obtain ⟨minutes, -, rfl, rfl⟩ := padded_of_num hlens.2 hom
          exact .inr ⟨hours, minutes, by omega, by omega, (splitOnce_eq_some.mp hsplit).1, rfl⟩
        · cases h
      · cases h
    · rintro (⟨rfl, rfl, -⟩ | ⟨hours, minutes, hhours, hminutes, rfl, rfl⟩)
      · exact absurd rfl hz
      · refine bind_ok_iff.mpr ⟨_, rfl, ?_⟩
        rw [splitOnce_eq_some.mpr ⟨rfl, hcolon⟩]
        dsimp only
        rw [if_pos ⟨byteLen_padded 2 hours, byteLen_padded 2 minutes⟩,
          num_padded value (by decide) (by decide) (by omega : hours < 10 ^ 2),
          num_padded value (by decide) (by decide) (by omega : minutes < 10 ^ 2)]
        refine bind_ok_iff.mpr ⟨_, rfl, refuseIf_bind_ok_iff.mpr ⟨by omega, ?_⟩⟩
        exact bind_ok_iff.mpr ⟨_, rfl, refuseIf_bind_ok_iff.mpr ⟨by omega, rfl⟩⟩

/-! ### The calendar sum -/

theorem epoch_dayNumber : (Reading.epoch.dayNumber : Int) = 719528 := by decide +kernel

theorem checked_eq {x : Int} (h : -2 ^ 63 ≤ x ∧ x < 2 ^ 63) : checked x = .ok x := if_pos h

/-- The reader's leap rule is the calendar's. -/
theorem leap_eq (year : Nat) :
    (((year : Int).tmod 4 == 0 && (year : Int).tmod 100 != 0) || (year : Int).tmod 400 == 0) =
      isLeap year := by
  rw [Bool.eq_iff_iff, isLeap_iff]
  simp only [Bool.or_eq_true, Bool.and_eq_true, beq_iff_eq, bne_iff_ne,
    Int.tmod_eq_emod_of_nonneg (Int.natCast_nonneg year)]
  omega

theorem monthDays_eq {year month : Nat} (hmonth : 1 ≤ month ∧ month ≤ 12) :
    monthDays (isLeap year) ((month : Int) - 1).toNat = .ok (monthLength year month : Nat) := by
  obtain ⟨hlow, hhigh⟩ := hmonth
  interval_cases month <;>
    first | rfl | (cases h : isLeap year <;> simp [monthDays, monthLength, h])

/-- The years of an era, counted from its first of March, by floored division. -/
theorem era_eq {y : Int} (hy : -1 ≤ y) : (if 0 ≤ y then y else y - 399).tdiv 400 = y / 400 := by
  split
  · rename_i hnonneg
    rw [Int.tdiv_eq_ediv_of_nonneg hnonneg]
  · have hneg : y = -1 := by omega
    subst hneg
    rfl

/-- The days of the year before a month, counted from the first of March. -/
def marchDays (month : Nat) : Int := (153 * ((month : Int) + 9).tmod 12 + 2).tdiv 5

/-- The months from March on, then January and February of the year that follows. -/
theorem daysBeforeMonth_march {year month : Nat} (hmonth : 1 ≤ month ∧ month ≤ 12) :
    (daysBeforeMonth year month : Int) =
      if month ≤ 2 then marchDays month - 306
      else marchDays month + 59 + (if isLeap year then 1 else 0) := by
  obtain ⟨hlow, hhigh⟩ := hmonth
  interval_cases month <;> cases h : isLeap year <;>
    simp [daysBeforeMonth, monthLength, marchDays, h, Int.tmod, Int.tdiv]

theorem marchDays_bounds {month : Nat} (hmonth : 1 ≤ month ∧ month ≤ 12) :
    0 ≤ marchDays month ∧ marchDays month ≤ 337 := by
  obtain ⟨hlow, hhigh⟩ := hmonth
  interval_cases month <;> decide

/-- Hinnant's sum counts the days from the epoch. -/
theorem daysFromCivil_eq (date : Date) (hyear : date.year < 10000) :
    daysFromCivil date.year date.month date.day =
      .ok ((date.dayNumber : Int) - Reading.epoch.dayNumber) := by
  have hmonth := date.month_mem
  have hday := date.day_le_31
  have hday_pos := date.day_pos
  have hmarch := marchDays_bounds hmonth
  have hbefore := @daysBeforeMonth_march date.year _ hmonth
  have hyears := daysBeforeYear_eq date.year
  have hleap := @isLeap_iff date.year
  -- The year that the first of March begins, in which February is the last month.
  obtain ⟨y, hy⟩ : ∃ y : Int, y = if date.month ≤ 2 then (date.year : Int) - 1 else date.year :=
    ⟨_, rfl⟩
  have hshift : civilYear date.year date.month = .ok y := by
    rw [civilYear, hy]
    split
    · rw [if_pos (by omega), checked_eq (by omega)]
    · rw [if_neg (by omega)]
  have hlow : -1 ≤ y := by rw [hy]; split <;> omega
  have hhigh : y < 10000 := by rw [hy]; split <;> omega
  have hyoe : 0 ≤ y - y / 400 * 400 := by omega
  refine bind_ok_iff.mpr ⟨y, hshift, ?_⟩
  rw [era_eq hlow]
  refine bind_ok_iff.mpr ⟨_, checked_eq (by omega), ?_⟩
  have hdoy : checked (marchDays date.month + date.day - 1) =
      .ok (marchDays date.month + date.day - 1) := checked_eq (by omega)
  refine bind_ok_iff.mpr ⟨_, hdoy, ?_⟩
  rw [Int.tdiv_eq_ediv_of_nonneg hyoe, Int.tdiv_eq_ediv_of_nonneg hyoe]
  refine bind_ok_iff.mpr ⟨_, checked_eq (by omega), ?_⟩
  rw [checked_eq (by omega), epoch_dayNumber, Date.dayNumber]
  congr 1
  push_cast [Nat.cast_sub hday_pos]
  rw [hbefore]
  split at hy
  · rename_i hm
    rw [if_pos hm]
    omega
  · rename_i hm
    rw [if_neg hm]
    split
    · rename_i hyes
      have hrule := hleap.mp hyes
      omega
    · rename_i hno
      have hrule := mt hleap.mpr hno
      omega

/-- The sum is taken of fields that the calendar and the clock have. -/
theorem toSeconds_eq_ok {value : Text} {year month day hour minute second : Nat} {offset v : Int}
    (hyear : year < 10000) (hoffset : -86400 < offset ∧ offset < 86400) :
    toSeconds value year month day hour minute second offset = .ok v ↔
      ∃ date : Date, date.year = year ∧ date.month = month ∧ date.day = day ∧
        hour ≤ 23 ∧ minute ≤ 59 ∧ second ≤ 59 ∧
        v = ((date.dayNumber : Int) - Reading.epoch.dayNumber) * 86400 + hour * 3600 + minute * 60 +
          second - offset := by
  have hsum : ∀ date : Date, date.year = year → hour ≤ 23 → minute ≤ 59 → second ≤ 59 →
      checked (((date.dayNumber : Int) - Reading.epoch.dayNumber) * 86400 + hour * 3600 +
        minute * 60 + second - offset) = .ok (((date.dayNumber : Int) -
          Reading.epoch.dayNumber) * 86400 + hour * 3600 + minute * 60 + second - offset) := by
    intro date hdate hhour hminute hsecond
    have hday := date.day_le_31
    have hyears := daysBeforeYear_eq date.year
    have hbefore := @daysBeforeMonth_march date.year _ date.month_mem
    have hmarch := marchDays_bounds date.month_mem
    have hmonths : (daysBeforeMonth date.year date.month : Int) ≤ 400 := by
      rw [hbefore]
      split
      · omega
      · split <;> omega
    apply checked_eq
    rw [epoch_dayNumber, Date.dayNumber]
    omega
  unfold toSeconds
  simp only [leap_eq]
  constructor
  · intro h
    obtain ⟨hmonth, h⟩ := refuseIf_bind_ok_iff.mp h
    obtain ⟨hpos, h⟩ := refuseIf_bind_ok_iff.mp h
    have hmonths : 1 ≤ month ∧ month ≤ 12 := by omega
    rw [monthDays_eq hmonths] at h
    obtain ⟨days, hdays, h⟩ := bind_ok_iff.mp h
    cases hdays
    obtain ⟨hrange, h⟩ := refuseIf_bind_ok_iff.mp h
    obtain ⟨hhour, hminute, hsecond⟩ : hour ≤ 23 ∧ minute ≤ 59 ∧ second ≤ 59 := by omega
    obtain ⟨date, rfl, rfl, rfl⟩ :
        ∃ date : Date, date.year = year ∧ date.month = month ∧ date.day = day :=
      ⟨⟨year, month, day, by omega, by omega⟩, rfl, rfl, rfl⟩
    obtain ⟨n, hn, h⟩ := bind_ok_iff.mp h
    rw [daysFromCivil_eq date hyear] at hn
    rw [← Except.ok.inj hn, hsum date rfl hhour hminute hsecond] at h
    exact ⟨date, rfl, rfl, rfl, hhour, hminute, hsecond, (Except.ok.inj h).symm⟩
  · rintro ⟨date, rfl, rfl, rfl, hhour, hminute, hsecond, hv⟩
    rw [hv]
    have hpos := date.day_pos
    have hle := date.day_le
    have hmonth := date.month_mem
    refine refuseIf_bind_ok_iff.mpr ⟨by omega, refuseIf_bind_ok_iff.mpr ⟨by omega, ?_⟩⟩
    refine bind_ok_iff.mpr ⟨_, monthDays_eq hmonth, refuseIf_bind_ok_iff.mpr ⟨by omega, ?_⟩⟩
    exact bind_ok_iff.mpr ⟨_, daysFromCivil_eq date hyear, hsum date rfl hhour hminute hsecond⟩

/-! ### The parts of a text -/

theorem not_isWhitespace_of_isDigit {c : Char} (h : c.isDigit = true) : isWhitespace c = false := by
  obtain ⟨n, hn, rfl⟩ := exists_digitChar h
  exact (by decide : ∀ n < 10, isWhitespace (Nat.digitChar n) = false) n hn

theorem not_isOffsetLead_of_isDigit {c : Char} (h : c.isDigit = true) :
    isOffsetLead c = false := by
  obtain ⟨n, hn, rfl⟩ := exists_digitChar h
  exact (by decide : ∀ n < 10, isOffsetLead (Nat.digitChar n) = false) n hn

theorem not_isOffsetLead_of_isWhitespace {c : Char} (h : isWhitespace c = true) :
    isOffsetLead c = false := by
  unfold isOffsetLead
  by_contra hlead
  simp only [Bool.not_eq_false, Bool.or_eq_true, decide_eq_true_eq] at hlead
  rcases hlead with (rfl | rfl) | rfl <;> cases h

/-- White space after a text that has none at its end is cut off. -/
theorem trimEnd_append {s gap : Text} (hs : ∀ c ∈ s, isWhitespace c = false)
    (hgap : ∀ c ∈ gap, isWhitespace c = true) : trimEnd (s ++ gap) = s := by
  have hcut := (span_eq_iff (p := isWhitespace) (s := (s ++ gap).reverse) (a := gap.reverse)
    (b := s.reverse) (fun c hc => hgap c (List.mem_reverse.mp hc))
    (fun c hc => hs c (List.mem_reverse.mp (List.mem_of_mem_head? hc)))
    List.reverse_append).2
  rw [trimEnd, List.rdropWhile, hcut, List.reverse_reverse]

namespace Reading

variable {r : Reading}

/-- A time is digits and colons. -/
theorem WritesTime.chars {time : Text} (h : r.WritesTime time) {c : Char} (hc : c ∈ time) :
    isWhitespace c = false ∧ isOffsetLead c = false := by
  have hcases : c.isDigit = true ∨ c = ':' := by
    rcases h with ⟨rfl, -⟩ | rfl
    · rcases List.mem_append.mp hc with hc | hc
      · exact .inl (isDigit_of_mem_padded hc)
      · rcases List.mem_cons.mp hc with rfl | hc
        · exact .inr rfl
        · exact .inl (isDigit_of_mem_padded hc)
    · rcases List.mem_append.mp hc with hc | hc
      · exact .inl (isDigit_of_mem_padded hc)
      · rcases List.mem_cons.mp hc with rfl | hc
        · exact .inr rfl
        · rcases List.mem_append.mp hc with hc | hc
          · exact .inl (isDigit_of_mem_padded hc)
          · rcases List.mem_cons.mp hc with rfl | hc
            · exact .inr rfl
            · exact .inl (isDigit_of_mem_padded hc)
  rcases hcases with hdigit | rfl
  · exact ⟨not_isWhitespace_of_isDigit hdigit, not_isOffsetLead_of_isDigit hdigit⟩
  · exact ⟨rfl, rfl⟩

/-- An offset begins with a lead, also one that has `Z` for a sign. -/
theorem lead_of_offset {offset : Text} (h : r.WritesOffset offset ∨ r.SignsWithZ offset) :
    ∃ lead rest, offset = lead :: rest ∧ isOffsetLead lead = true := by
  rcases h with (⟨h, -⟩ | ⟨h, -⟩ | ⟨h, -⟩) | ⟨h, -⟩
  · exact ⟨_, _, h, rfl⟩
  · exact ⟨_, _, h, rfl⟩
  · exact ⟨_, _, h, rfl⟩
  · exact ⟨_, _, h, rfl⟩

theorem WritesDate.byteLen {date : Text} (h : r.WritesDate date) :
    Slicing.byteLen date = 10 := by
  subst h
  have happ : ∀ a b : Text, Slicing.byteLen (a ++ b) = Slicing.byteLen a + Slicing.byteLen b := by
    intro a b
    simp [Slicing.byteLen]
  rw [happ, byteLen_cons, happ, byteLen_cons, byteLen_padded, byteLen_padded, byteLen_padded]
  decide

/-- The reader's cuts find the parts that were put together. -/
theorem Spells.parts {gap offset text : Text} (h : r.Spells gap offset text)
    (hgap : ∀ c ∈ gap, isWhitespace c = true)
    (hoffset : r.WritesOffset offset ∨ r.SignsWithZ offset) :
    ∃ date separator time rest, splitAtByte 10 text = some (date, separator :: rest) ∧
      r.WritesDate date ∧ (separator = ' ' ∨ separator = 'T') ∧ r.WritesTime time ∧
      rest.takeWhile (fun c => !isOffsetLead c) = time ++ gap ∧
      rest.dropWhile (fun c => !isOffsetLead c) = offset ∧ trimEnd (time ++ gap) = time := by
  obtain ⟨date, separator, time, hdate, hseparator, htime, rfl⟩ := h
  obtain ⟨lead, tail, hlead, hislead⟩ := lead_of_offset hoffset
  obtain ⟨htake, hdrop⟩ := span_eq_iff (p := fun c => !isOffsetLead c)
    (s := time ++ (gap ++ offset)) (a := time ++ gap) (b := offset)
    (by
      intro c hc
      rcases List.mem_append.mp hc with hc | hc
      · rw [(htime.chars hc).2, Bool.not_false]
      · rw [not_isOffsetLead_of_isWhitespace (hgap c hc), Bool.not_false])
    (by
      intro c hc
      rw [hlead, List.head?_cons, Option.some.injEq] at hc
      rw [← hc, hislead, Bool.not_true])
    (List.append_assoc _ _ _).symm
  exact ⟨date, separator, time, _, splitAtByte_eq_some.mpr ⟨rfl, hdate.byteLen⟩, hdate, hseparator,
    htime, htake, hdrop, trimEnd_append (fun c hc => (htime.chars hc).1) hgap⟩

/-- The offset in seconds is less than a day. -/
theorem offset_bounds : -86400 < r.offset ∧ r.offset < 86400 := by
  have hhour := r.offsetHour_le
  have hminute := r.offsetMinute_le
  unfold offset
  split <;> omega

end Reading

/-- The offset text and its seconds. -/
theorem offsetSecs_writes (value : Text) {r : Reading} {offset : Text}
    (h : r.WritesOffset offset ∨ r.SignsWithZ offset) : offsetSecs value offset = .ok r.offset := by
  have hhour := r.offsetHour_le
  have hminute := r.offsetMinute_le
  rcases h with (⟨rfl, hbehind, hzero, hzero'⟩ | ⟨rfl, hbehind⟩ | ⟨rfl, hbehind⟩) | ⟨rfl, hbehind⟩
  · refine (offsetSecs_eq_ok rfl).mpr (.inl ⟨rfl, rfl, ?_⟩)
    simp [Reading.offset, hzero, hzero']
  · refine (offsetSecs_eq_ok rfl).mpr (.inr ⟨_, _, hhour, hminute, rfl, ?_⟩)
    simp [Reading.offset, hbehind]
  · refine (offsetSecs_eq_ok rfl).mpr (.inr ⟨_, _, hhour, hminute, rfl, ?_⟩)
    simp [Reading.offset, hbehind]
  · refine (offsetSecs_eq_ok rfl).mpr (.inr ⟨_, _, hhour, hminute, rfl, ?_⟩)
    simp [Reading.offset, hbehind]

/-- An offset that is read is one of the two kinds. -/
theorem writes_of_offsetSecs {value rest : Text} {lead : Char} {seconds : Int}
    (hlead : isOffsetLead lead = true) (h : offsetSecs value (lead :: rest) = .ok seconds) :
    ∃ behind : Bool, ∃ hours minutes : Nat, hours ≤ 23 ∧ minutes ≤ 59 ∧
      seconds = (if behind then -1 else 1) * (hours * 3600 + minutes * 60) ∧
      ∀ r : Reading, r.behind = behind → r.offsetHour = hours → r.offsetMinute = minutes →
        r.WritesOffset (lead :: rest) ∨ r.SignsWithZ (lead :: rest) := by
  simp only [isOffsetLead, Bool.or_eq_true, decide_eq_true_eq] at hlead
  have hsize : lead.utf8Size = 1 := by
    rcases hlead with (rfl | rfl) | rfl <;> rfl
  rcases (offsetSecs_eq_ok hsize).mp h with ⟨rfl, rfl, rfl⟩ | ⟨hours, minutes, hh, hm, rfl, rfl⟩
  · refine ⟨false, 0, 0, by decide, by decide, rfl, fun r hbehind hhours hminutes => ?_⟩
    exact .inl (.inl ⟨rfl, hbehind, hhours, hminutes⟩)
  · refine ⟨lead = '-', hours, minutes, hh, hm, by simp, ?_⟩
    rintro r hbehind rfl rfl
    rcases hlead with (rfl | rfl) | rfl
    · exact .inr ⟨rfl, by simpa using hbehind⟩
    · exact .inl (.inr (.inl ⟨rfl, by simpa using hbehind⟩))
    · exact .inl (.inr (.inr ⟨rfl, by simpa using hbehind⟩))

theorem afterSeparator_eq_ok {value text rest : Text} :
    afterSeparator value text = .ok rest ↔
      ∃ separator, (separator = ' ' ∨ separator = 'T') ∧ text = separator :: rest := by
  constructor
  · intro h
    unfold afterSeparator at h
    split at h
    · cases h
      exact ⟨_, .inl rfl, rfl⟩
    · cases h
      exact ⟨_, .inr rfl, rfl⟩
    · cases h
  · rintro ⟨separator, rfl | rfl, rfl⟩
    · rfl
    · rfl

/-- What the reader accepts, and its value. -/
theorem parseNotBefore_ok_iff {value : Text} {v : Int} :
    parseNotBefore value = .ok v ↔ ∃ r : Reading, r.Passes (trim value) ∧ v = r.instant := by
  constructor
  · intro h
    unfold parseNotBefore at h
    split at h
    · cases h
    · rename_i date rest hcut
      obtain ⟨htext, hlen⟩ := splitAtByte_eq_some.mp hcut
      obtain ⟨rest', hseparator, h⟩ := bind_ok_iff.mp h
      obtain ⟨separator, hseparator, hrest⟩ := afterSeparator_eq_ok.mp hseparator
      obtain ⟨⟨y, mo, d⟩, hdate, h⟩ := bind_ok_iff.mp h
      obtain ⟨hne, h⟩ := refuseIf_bind_ok_iff.mp h
      obtain ⟨⟨h', mi, sec⟩, htime, h⟩ := bind_ok_iff.mp h
      obtain ⟨off, hoff, h⟩ := bind_ok_iff.mp h
      obtain ⟨year, month, day, hyear, -, -, hwdate, rfl, rfl, rfl⟩ := dateFields_eq_ok.mp hdate
      obtain ⟨hour, minute, second, -, -, -, hwtime, rfl, rfl, rfl⟩ := timeFields_eq_ok.mp htime
      have hparts := List.takeWhile_append_dropWhile (p := fun c => !isOffsetLead c) (l := rest')
      have hhead := List.head_dropWhile_not (fun c => !isOffsetLead c) hne
      obtain ⟨lead, tail, hlead⟩ := List.exists_cons_of_ne_nil hne
      simp only [hlead, List.head_cons, Bool.not_eq_false'] at hhead
      rw [hlead] at hoff hparts
      obtain ⟨behind, hours, minutes, hhours, hminutes, rfl, hwrites⟩ :=
        writes_of_offsetSecs hhead hoff
      obtain ⟨date', hy, hmo, hd, hhour, hminute, hsecond, hv⟩ :=
        (toSeconds_eq_ok hyear (by split <;> omega)).mp h
      subst hy hmo hd
      -- The gap is the white space that the time loses at its end.
      refine ⟨⟨date', hour, minute, second, behind, hours, minutes, hyear, hhour, hminute, hsecond,
        hhours, hminutes⟩, ⟨(rest'.takeWhile fun c => !isOffsetLead c).rtakeWhile isWhitespace, _,
          fun c => List.mem_rtakeWhile_imp, hwrites _ rfl rfl rfl, date, separator, _, hwdate,
            hseparator, hwtime, ?_⟩, hv⟩
      rw [trimEnd, ← List.append_assoc, List.rdropWhile_append_rtakeWhile, hparts, htext, hrest]
  · rintro ⟨r, ⟨gap, offset, hgap, hoffset, hspells⟩, hv⟩
    obtain ⟨date, separator, time, rest, hcut, hdate, hseparator, htime, htake, hdrop, htrim⟩ :=
      hspells.parts hgap hoffset
    obtain ⟨lead, tail, hlead, -⟩ := Reading.lead_of_offset hoffset
    have hmonth := r.date.month_mem
    have hday := r.date.day_le_31
    have hhour := r.hour_le
    have hminute := r.minute_le
    have hsecond := r.second_le
    rw [parseNotBefore, hcut]
    refine bind_ok_iff.mpr ⟨rest, afterSeparator_eq_ok.mpr ⟨separator, hseparator, rfl⟩, ?_⟩
    refine bind_ok_iff.mpr ⟨_, dateFields_eq_ok.mpr ⟨r.date.year, r.date.month, r.date.day,
      r.year_lt, by omega, by omega, hdate, rfl, rfl, rfl⟩, ?_⟩
    rw [hdrop, htake, htrim]
    refine refuseIf_bind_ok_iff.mpr ⟨by rw [hlead]; exact List.cons_ne_nil _ _, ?_⟩
    refine bind_ok_iff.mpr ⟨_, timeFields_eq_ok.mpr ⟨r.hour, r.minute, r.second,
      by omega, by omega, by omega, htime, rfl, rfl, rfl⟩, ?_⟩
    refine bind_ok_iff.mpr ⟨_, offsetSecs_writes value hoffset, ?_⟩
    exact (toSeconds_eq_ok r.year_lt Reading.offset_bounds).mpr
      ⟨r.date, rfl, rfl, rfl, hhour, hminute, hsecond, hv⟩

/-! ### No panic -/

theorem num_not_panicked {value part : Text} : num value part ≠ .error .panicked := by
  unfold num bad
  split
  · intro h
    cases h
  · dsimp only
    split
    · intro h
      cases h
    · intro h
      cases h

theorem dateFields_not_panicked {value date : Text} :
    dateFields value date ≠ .error .panicked := by
  intro h
  unfold dateFields at h
  split at h
  · split at h
    · rcases bind_error_iff.mp h with h | ⟨y, -, h⟩
      · exact num_not_panicked h
      rcases bind_error_iff.mp h with h | ⟨mo, -, h⟩
      · exact num_not_panicked h
      rcases bind_error_iff.mp h with h | ⟨d, -, h⟩
      · exact num_not_panicked h
      · cases h
    · cases h
  · cases h

theorem timeFields_not_panicked {value time : Text} :
    timeFields value time ≠ .error .panicked := by
  intro hp
  unfold timeFields at hp
  split at hp
  · split at hp
    · rcases bind_error_iff.mp hp with hp | ⟨h, -, hp⟩
      · exact num_not_panicked hp
      rcases bind_error_iff.mp hp with hp | ⟨mi, -, hp⟩
      · exact num_not_panicked hp
      · cases hp
    · cases hp
  · split at hp
    · rcases bind_error_iff.mp hp with hp | ⟨h, -, hp⟩
      · exact num_not_panicked hp
      rcases bind_error_iff.mp hp with hp | ⟨mi, -, hp⟩
      · exact num_not_panicked hp
      rcases bind_error_iff.mp hp with hp | ⟨sec, -, hp⟩
      · exact num_not_panicked hp
      · cases hp
    · cases hp
  · cases hp

theorem refuseIf_not_panicked {p : Prop} [Decidable p] {value : Text} :
    refuseIf p (bad value) ≠ .error .panicked := by
  unfold refuseIf bad
  split
  · intro h
    cases h
  · intro h
    cases h

/-- The slice of an offset starts after its lead, which is one byte. -/
theorem offsetSecs_not_panicked {value rest : Text} {lead : Char} (hsize : lead.utf8Size = 1) :
    offsetSecs value (lead :: rest) ≠ .error .panicked := by
  have hcut : splitAtByte 1 (lead :: rest) = some ([lead], rest) :=
    splitAtByte_eq_some.mpr ⟨rfl, by simp [hsize]⟩
  intro h
  unfold offsetSecs at h
  split at h
  · cases h
  · rw [sliceFrom, hcut] at h
    rcases bind_error_iff.mp h with h | ⟨rest', -, h⟩
    · cases h
    split at h
    · split at h
      · rcases bind_error_iff.mp h with h | ⟨oh, -, h⟩
        · exact num_not_panicked h
        rcases bind_error_iff.mp h with h | ⟨-, -, h⟩
        · exact refuseIf_not_panicked h
        rcases bind_error_iff.mp h with h | ⟨om, -, h⟩
        · exact num_not_panicked h
        rcases bind_error_iff.mp h with h | ⟨-, -, h⟩
        · exact refuseIf_not_panicked h
        · cases h
      · cases h
    · cases h

/-- The month is checked before the table is read at it, and the sums are small. -/
theorem toSeconds_not_panicked {value : Text} {year month day hour minute second : Nat}
    {offset : Int} (hyear : year < 10000) (hoffset : -86400 < offset ∧ offset < 86400) :
    toSeconds value year month day hour minute second offset ≠ .error .panicked := by
  intro h
  by_cases hok : ∃ v, toSeconds value year month day hour minute second offset = .ok v
  · obtain ⟨v, hv⟩ := hok
    rw [hv] at h
    cases h
  · -- What is not summed is refused by one of the checks before the sum.
    have hnone : ¬∃ date : Date, date.year = year ∧ date.month = month ∧ date.day = day ∧
        hour ≤ 23 ∧ minute ≤ 59 ∧ second ≤ 59 := by
      rintro ⟨date, hy, hmo, hd, hrest⟩
      exact hok ⟨_, (toSeconds_eq_ok hyear hoffset).mpr
        ⟨date, hy, hmo, hd, hrest.1, hrest.2.1, hrest.2.2, rfl⟩⟩
    unfold toSeconds at h
    simp only [leap_eq] at h
    rcases bind_error_iff.mp h with h | ⟨⟨⟩, hmonth, h⟩
    · exact refuseIf_not_panicked h
    rcases bind_error_iff.mp h with h | ⟨⟨⟩, hpos, h⟩
    · exact refuseIf_not_panicked h
    have hmonths : 1 ≤ month ∧ month ≤ 12 := by
      have := refuseIf_eq_ok.mp hmonth
      omega
    have hday : 1 ≤ day := by
      have := refuseIf_eq_ok.mp hpos
      omega
    rw [monthDays_eq hmonths] at h
    rcases bind_error_iff.mp h with h | ⟨days, hdays, h⟩
    · cases h
    rcases bind_error_iff.mp h with h | ⟨⟨⟩, hrange, -⟩
    · exact refuseIf_not_panicked h
    have hrange := refuseIf_eq_ok.mp hrange
    have hdays := Except.ok.inj hdays
    exact hnone ⟨⟨year, month, day, hday, by omega⟩, rfl, rfl, rfl, by omega, by omega, by omega⟩

/-- No text makes the reader panic. -/
theorem parseNotBefore_not_panicked (value : Text) :
    parseNotBefore value ≠ .error .panicked := by
  intro h
  unfold parseNotBefore at h
  split at h
  · cases h
  · rename_i date rest hcut
    rcases bind_error_iff.mp h with h | ⟨rest', -, h⟩
    · unfold afterSeparator at h
      split at h <;> cases h
    rcases bind_error_iff.mp h with h | ⟨⟨y, mo, d⟩, hdate, h⟩
    · exact dateFields_not_panicked h
    rcases bind_error_iff.mp h with h | ⟨⟨⟩, hne, h⟩
    · exact refuseIf_not_panicked h
    rcases bind_error_iff.mp h with h | ⟨⟨h', mi, sec⟩, htime, h⟩
    · exact timeFields_not_panicked h
    have hne := refuseIf_eq_ok.mp hne
    have hhead := List.head_dropWhile_not (fun c => !isOffsetLead c) hne
    obtain ⟨lead, tail, hlead⟩ := List.exists_cons_of_ne_nil hne
    simp only [hlead, List.head_cons, Bool.not_eq_false'] at hhead
    rw [hlead] at h
    rcases bind_error_iff.mp h with h | ⟨off, hoff, h⟩
    · simp only [isOffsetLead, Bool.or_eq_true, decide_eq_true_eq] at hhead
      have hsize : lead.utf8Size = 1 := by
        rcases hhead with (rfl | rfl) | rfl <;> rfl
      exact offsetSecs_not_panicked hsize h
    obtain ⟨year, month, day, hyear, -, -, -, rfl, rfl, rfl⟩ := dateFields_eq_ok.mp hdate
    obtain ⟨hour, minute, second, -, -, -, -, rfl, rfl, rfl⟩ := timeFields_eq_ok.mp htime
    obtain ⟨behind, hours, minutes, hhours, hminutes, rfl, -⟩ := writes_of_offsetSecs hhead hoff
    exact toSeconds_not_panicked hyear (by split <;> omega) h

/-! ### The documented grammar -/

theorem Reading.Writes.passes {r : Reading} {text : Text} (h : r.Writes text) : r.Passes text := by
  obtain ⟨gap, offset, hgap, hoffset, hspells⟩ := h
  refine ⟨gap, offset, ?_, .inl hoffset, hspells⟩
  rcases hgap with rfl | rfl
  · intro c hc
    cases hc
  · intro c hc
    rw [List.mem_singleton.mp hc]
    rfl

theorem Reading.Writes.parses {r : Reading} {value : Text} (h : r.Writes (trim value)) :
    parseNotBefore value = .ok r.instant :=
  parseNotBefore_ok_iff.mpr ⟨r, h.passes, rfl⟩

/-- A text has one gap and one offset, whatever it is read as. -/
theorem Reading.Spells.unique {r r' : Reading} {gap gap' offset offset' text : Text}
    (h : r.Spells gap offset text) (h' : r'.Spells gap' offset' text)
    (hgap : ∀ c ∈ gap, isWhitespace c = true) (hgap' : ∀ c ∈ gap', isWhitespace c = true)
    (hoffset : r.WritesOffset offset ∨ r.SignsWithZ offset)
    (hoffset' : r'.WritesOffset offset' ∨ r'.SignsWithZ offset') :
    gap = gap' ∧ offset = offset' := by
  obtain ⟨_, _, time, rest, hcut, _, _, _, htake, hdrop, htrim⟩ := h.parts hgap hoffset
  obtain ⟨_, _, time', rest', hcut', _, _, _, htake', hdrop', htrim'⟩ := h'.parts hgap' hoffset'
  rw [hcut] at hcut'
  simp only [Option.some.injEq, Prod.mk.injEq, List.cons.injEq] at hcut'
  obtain ⟨-, -, rfl⟩ := hcut'
  have hboth : time ++ gap = time' ++ gap' := htake.symm.trans htake'
  have htime : time = time' := by rw [← htrim, hboth, htrim']
  rw [htime] at hboth
  exact ⟨List.append_cancel_left hboth, hdrop.symm.trans hdrop'⟩

/-- An offset with `Z` for a sign is no offset of the grammar. -/
theorem Reading.SignsWithZ.not_writesOffset {r r' : Reading} {offset : Text}
    (h : r.SignsWithZ offset) : ¬r'.WritesOffset offset := by
  obtain ⟨rfl, -⟩ := h
  rintro (⟨hz, -⟩ | ⟨hplus, -⟩ | ⟨hminus, -⟩)
  · have hlen := congrArg List.length hz
    simp at hlen
  · exact absurd (List.cons.inj hplus).1 (by decide)
  · exact absurd (List.cons.inj hminus).1 (by decide)

theorem not_meets_of_stray {value : Text} (h : Stray (trim value)) : ¬Meets value := by
  intro hmeets
  obtain ⟨r, gap, offset, hgap, hspells, hkind⟩ := h
  have hoffset : r.WritesOffset offset ∨ r.SignsWithZ offset :=
    hkind.symm.imp And.left id
  have hparse := parseNotBefore_ok_iff.mpr ⟨r, ⟨gap, offset, hgap, hoffset, hspells⟩, rfl⟩
  obtain ⟨r', hwrites, -⟩ := (hmeets.accepts _).mp hparse
  obtain ⟨gap', offset', hgap', hoffset', hspells'⟩ := hwrites
  have hwhite : ∀ c ∈ gap', isWhitespace c = true := by
    rcases hgap' with rfl | rfl
    · simp
    · intro c hc
      rw [List.mem_singleton.mp hc]
      rfl
  obtain ⟨rfl, rfl⟩ := hspells.unique hspells' hgap hwhite hoffset (.inl hoffset')
  rcases hkind with hz | ⟨-, hne, hne'⟩
  · exact hz.not_writesOffset hoffset'
  · exact hgap'.elim hne hne'

/-- **The reader accepts exactly its grammar, but for the texts whose gap before the offset is
other white space than one space, and those whose offset has `Z` for a sign.** -/
theorem parseNotBefore_meets_iff (value : Text) : Meets value ↔ ¬Stray (trim value) := by
  constructor
  · intro hmeets hstray
    exact not_meets_of_stray hstray hmeets
  · intro hstray
    refine ⟨fun v => ?_, ?_, parseNotBefore_not_panicked value⟩
    · rw [parseNotBefore_ok_iff]
      constructor
      · rintro ⟨r, ⟨gap, offset, hgap, hoffset, hspells⟩, hv⟩
        rcases hoffset with hoffset | hz
        · refine ⟨r, ⟨gap, offset, ?_, hoffset, hspells⟩, hv⟩
          by_contra hother
          rw [not_or] at hother
          exact hstray ⟨r, gap, offset, hgap, hspells, .inr ⟨hoffset, hother⟩⟩
        · exact absurd ⟨r, gap, offset, hgap, hspells, .inl hz⟩ hstray
      · rintro ⟨r, hwrites, hv⟩
        exact ⟨r, hwrites.passes, hv⟩
    · intro other r r' v v' hwrites hwrites' hparse hparse'
      rw [hwrites.parses] at hparse
      rw [hwrites'.parses] at hparse'
      rw [Except.ok.inj hparse, Except.ok.inj hparse']

/-- `Z05:00` is read as five hours ahead of UTC. -/
theorem not_meets_zSigned : ¬Meets "2026-10-31 02:00 Z05:00".toList :=
  not_meets_of_stray ⟨⟨⟨2026, 10, 31, by decide, by decide⟩, 2, 0, 0, false, 5, 0, by decide,
      by decide, by decide, by decide, by decide, by decide⟩, [' '], "Z05:00".toList,
    List.all_eq_true.mp rfl, ⟨"2026-10-31".toList, ' ', "02:00".toList, by decide +kernel, .inl rfl,
      .inl ⟨by decide +kernel, rfl⟩, by decide +kernel⟩, .inl ⟨by decide +kernel, rfl⟩⟩

end Softfig.Doc.NotBefore
