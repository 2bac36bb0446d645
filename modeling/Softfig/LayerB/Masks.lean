import Softfig.LayerB.Scan

/-!
What replacing the body of a region does to the scan around it.

The scan looks ahead of a byte, but never past an angle bracket, and a body of inert bytes
leaves the state as it was. So the states of a file whose bodies are inert depend on its
gaps and ids alone.

- `opens_settled`, `ScanState.run_settled`: what the bytes before a tag do does not depend
  on what follows it;
- `openFlags_inert`: nor do the tags that count, over inert bodies;
- `openFlags_of_scans`, `scans_of_openFlags`: a weave of inert bodies parses exactly where
  the tags of its regions count and the tags in its gaps do not.
-/

namespace Softfig.LayerB

open Softfig.Store (Bytes)
open Softfig.Lib

/-! ### UTF-8 -/

theorem Utf8Scan.next_ascii {s : Utf8Scan} {b : UInt8} (hb : b < 0x80) :
    s.next b = if s = .start then some .start else none := by
  have hcont : ∀ low : UInt8, 0x80 ≤ low → ¬ low ≤ b := by
    intro low hlow hle
    rw [UInt8.lt_iff_toNat_lt] at hb
    rw [UInt8.le_iff_toNat_le] at hlow hle
    omega
  cases s with
  | start => exact if_pos hb
  | tail more =>
    cases more with
    | zero => exact if_neg fun h => hcont _ (by decide) h.1
    | succ more => exact if_neg fun h => hcont _ (by decide) h.1
  | afterE0 => exact if_neg fun h => hcont _ (by decide) h.1
  | afterED => exact if_neg fun h => hcont _ (by decide) h.1
  | afterF0 => exact if_neg fun h => hcont _ (by decide) h.1
  | afterF4 => exact if_neg fun h => hcont _ (by decide) h.1

theorem isUtf8From_ascii_cons {s : Utf8Scan} {b : UInt8} (hb : b < 0x80) (rest : Bytes) :
    isUtf8From s (b :: rest) = (decide (s = .start) && isUtf8 rest) := by
  rw [isUtf8From, Utf8Scan.next_ascii hb]
  by_cases hs : s = .start
  · simp [hs, isUtf8]
  · simp [hs]

/-- An ASCII byte ends a character, so it splits a UTF-8 text in two. -/
theorem isUtf8From_append {s : Utf8Scan} {b : UInt8} (hb : b < 0x80) (text rest : Bytes) :
    isUtf8From s (text ++ b :: rest) = (isUtf8From s text && isUtf8 (b :: rest)) := by
  induction text generalizing s with
  | nil =>
    have hstart : isUtf8 (b :: rest) = isUtf8 rest := by
      rw [isUtf8, isUtf8From_ascii_cons hb]
      rfl
    rw [List.nil_append, isUtf8From_ascii_cons hb, hstart]
    rfl
  | cons c text ih =>
    rw [List.cons_append, isUtf8From, isUtf8From]
    cases s.next c with
    | none => rfl
    | some s' => exact ih

theorem isUtf8_ascii_append {text : Bytes} (h : ∀ b ∈ text, b < 0x80) (rest : Bytes) :
    isUtf8 (text ++ rest) = isUtf8 rest := by
  induction text with
  | nil => rfl
  | cons b text ih =>
    simp only [List.mem_cons, forall_eq_or_imp] at h
    rw [List.cons_append, isUtf8, isUtf8From_ascii_cons h.1, ih h.2]
    rfl

theorem openTag_ascii {id : Bytes} (h : ValidId id) : ∀ b ∈ openTag id, b < 0x80 := by
  intro b hb
  simp only [openTag, List.mem_append] at hb
  obtain (hb | hb) | hb := hb
  · have hall : ∀ b ∈ openMark, b < 0x80 := by decide +kernel
    exact hall b hb
  · exact isIdByte_ascii (h.2.2 b hb)
  · have hall : ∀ b ∈ [quote, greater], b < 0x80 := by decide +kernel
    exact hall b hb

/-- A weave is UTF-8 where its gaps, its bodies and its tail are. -/
theorem isUtf8_weave {regions : List Region} (hvalid : ∀ r ∈ regions, ValidId r.id)
    (tail : Bytes) :
    isUtf8 (weave regions tail) = true ↔
      (∀ r ∈ regions, isUtf8 r.gap = true ∧ isUtf8 r.body = true) ∧ isUtf8 tail = true := by
  induction regions with
  | nil => simp [weave]
  | cons r more ih =>
    simp only [List.mem_cons, forall_eq_or_imp] at hvalid ⊢
    have hless : less < 0x80 := by decide
    have hclose : ∀ b ∈ closeMark, b < 0x80 := by decide +kernel
    have hgap : isUtf8 (weave (r :: more) tail) = (isUtf8 r.gap &&
        isUtf8 (openTag r.id ++ (r.body ++ (closeMark ++ weave more tail)))) :=
      isUtf8From_append hless _ _
    have hbody : isUtf8 (r.body ++ (closeMark ++ weave more tail)) = (isUtf8 r.body &&
        isUtf8 (closeMark ++ weave more tail)) :=
      isUtf8From_append hless _ _
    rw [hgap, isUtf8_ascii_append (openTag_ascii hvalid.1), hbody, isUtf8_ascii_append hclose,
      Bool.and_eq_true, Bool.and_eq_true, ih hvalid.2]
    constructor
    · rintro ⟨hg, hb, hm, ht⟩
      exact ⟨⟨⟨hg, hb⟩, hm⟩, ht⟩
    · rintro ⟨⟨⟨hg, hb⟩, hm⟩, ht⟩
      exact ⟨hg, hb, hm, ht⟩

/-! ### Nothing looks past an angle bracket -/

/-- A byte the scan never looks past. -/
def Stops (b : UInt8) : Prop := b ≠ space ∧ b ≠ quote ∧ b ≠ apostrophe ∧ b ≠ backtick

theorem stops_less : Stops less := by
  refine ⟨?_, ?_, ?_, ?_⟩ <;> decide

theorem stops_greater : Stops greater := by
  refine ⟨?_, ?_, ?_, ?_⟩ <;> decide

theorem isPrefixOf_settled {mark : Bytes} {stop : UInt8} (hmark : stop ∉ mark)
    (text x y : Bytes) :
    mark.isPrefixOf (text ++ stop :: x) = mark.isPrefixOf (text ++ stop :: y) := by
  induction mark generalizing text with
  | nil => simp
  | cons m mark ih =>
    simp only [List.mem_cons, not_or] at hmark
    cases text with
    | nil =>
      have hne : (m == stop) = false := by simpa using Ne.symm hmark.1
      simp [List.isPrefixOf, hne]
    | cons b text => simp only [List.cons_append, List.isPrefixOf, ih hmark.2]

section Settled

variable {stop : UInt8} (hstop : Stops stop)

include hstop

theorem Stops.fence : stop ∉ ascii "```" := by
  have heq : ascii "```" = [backtick, backtick, backtick] := by decide
  rw [heq]
  simp [hstop.2.2.2]

theorem Stops.quotes : stop ∉ ascii "\"\"" := by
  have heq : ascii "\"\"" = [quote, quote] := by decide
  rw [heq]
  simp [hstop.2.1]

theorem Stops.apostrophes : stop ∉ ascii "''" := by
  have heq : ascii "''" = [apostrophe, apostrophe] := by decide
  rw [heq]
  simp [hstop.2.2.1]

theorem MarkdownScan.enter_settled (s : MarkdownScan) (text x y : Bytes) :
    s.enter (text ++ stop :: x) = s.enter (text ++ stop :: y) := by
  have hspace : (stop == space) = false := by simpa using hstop.1
  have hdrop : ∀ z : Bytes, (text ++ stop :: z).dropWhile (· == space) =
      text.dropWhile (· == space) ++ stop :: z := by
    intro z
    rw [List.dropWhile_append]
    split
    · rename_i hnil
      rw [List.isEmpty_iff.mp hnil, List.dropWhile_cons, if_neg (by simp [hspace])]
      rfl
    · rfl
  cases s with
  | lineStart inFence =>
    simp only [enter]
    rw [hdrop, hdrop, isPrefixOf_settled hstop.fence _ x y]
  | fenced inFence => rfl
  | prose inlineRun run => rfl

theorem TomlScan.step_settled (s : TomlScan) (b : UInt8) (text x y : Bytes) :
    s.step b (text ++ stop :: x) = s.step b (text ++ stop :: y) := by
  unfold step
  rw [isPrefixOf_settled hstop.quotes text x y, isPrefixOf_settled hstop.apostrophes text x y]

theorem ScanState.next_settled (s : ScanState) (b : UInt8) (text x y : Bytes) :
    s.next b (text ++ stop :: x) = s.next b (text ++ stop :: y) := by
  cases s with
  | markdown s =>
    simp only [next, MarkdownScan.next]
    rw [show b :: (text ++ stop :: x) = (b :: text) ++ stop :: x from rfl,
      s.enter_settled hstop (b :: text) x y]
    rfl
  | toml s skip =>
    cases skip with
    | zero => simp only [next, s.step_settled hstop b text x y]
    | succ skip => rfl
  | plainText => rfl

theorem ScanState.allowed_settled (s : ScanState) (b : UInt8) (text x y : Bytes) :
    s.allowed b (text ++ stop :: x) = s.allowed b (text ++ stop :: y) := by
  cases s with
  | markdown s =>
    simp only [allowed, MarkdownScan.allowed]
    rw [show b :: (text ++ stop :: x) = (b :: text) ++ stop :: x from rfl,
      s.enter_settled hstop (b :: text) x y]
    rfl
  | toml s skip => cases skip <;> rfl
  | plainText => rfl

theorem ScanState.run_settled (s : ScanState) (text x y : Bytes) :
    s.run text (stop :: x) = s.run text (stop :: y) := by
  induction text generalizing s with
  | nil => rfl
  | cons b text ih => rw [run_cons, run_cons, s.next_settled hstop b text x y, ih]

end Settled

/-- Whether a tag opens is settled by the quote and the angle bracket after its id. -/
theorem opens_settled (text : Bytes) (hlen : openMark.length ≤ text.length) (x y : Bytes) :
    opens (text ++ quote :: greater :: x) = opens (text ++ quote :: greater :: y) := by
  have hone : ∀ x y : Bytes, opens (text ++ quote :: greater :: x) = true →
      opens (text ++ quote :: greater :: y) = true := by
    intro x y h
    obtain ⟨⟨id, length⟩, htag⟩ := Option.isSome_iff_exists.mp h
    obtain ⟨hquote, hutf8, -, rest, heq⟩ := openTagAt?_eq_some.mp htag
    dsimp only at hquote hutf8 heq
    have hopens : ∀ rest, opens (openTag id ++ rest) = true := fun rest =>
      Option.isSome_iff_exists.mpr ⟨⟨id, (openTag id).length⟩,
        openTagAt?_eq_some.mpr ⟨hquote, hutf8, rfl, rest, rfl⟩⟩
    have hmark : openMark <+: text := by
      refine List.prefix_of_prefix_length_le ?_
        (List.prefix_append text (quote :: greater :: x)) hlen
      rw [heq, openTag, List.append_assoc]
      exact List.prefix_append _ _
    obtain ⟨attr, rfl⟩ := hmark
    simp only [openTag, List.append_assoc, List.append_cancel_left_eq] at heq
    obtain ⟨more, rfl, hmore⟩ | ⟨more, rfl, hmore⟩ := List.append_eq_append_iff.mp heq
    · -- the quote after the text would stand in the id
      cases more with
      | nil =>
        have := hopens y
        simpa [openTag] using this
      | cons b more =>
        obtain ⟨rfl, -⟩ := List.cons.inj hmore
        exact absurd (List.mem_append_right _ (List.mem_cons_self ..)) hquote
    · simp only [List.cons_append, List.nil_append] at hmore
      cases more with
      | nil =>
        have := hopens y
        simpa [openTag] using this
      | cons q more =>
        rw [List.cons_append, List.cons.injEq] at hmore
        obtain ⟨rfl, hmore⟩ := hmore
        cases more with
        | nil => exact absurd (List.cons.inj hmore).1 (by decide)
        | cons g more =>
          rw [List.cons_append, List.cons.injEq] at hmore
          obtain ⟨rfl, hmore⟩ := hmore
          have := hopens (more ++ quote :: greater :: y)
          simpa [openTag] using this
  exact Bool.eq_iff_iff.mpr ⟨hone x y, hone y x⟩

/-! ### Gaps -/

/-- How many tags open in the text, masked ones included. -/
def openings : Bytes → Bytes → Nat
  | [], _ => 0
  | b :: text, rest => (if opens (b :: (text ++ rest)) then 1 else 0) + openings text rest

theorem openTag_append (id rest : Bytes) :
    openTag id ++ rest = (openMark ++ id) ++ quote :: greater :: rest := by
  simp [openTag]

/-- What opens before a tag does not depend on what follows the tag. -/
theorem opens_before_tag (b : UInt8) (text id x y : Bytes) :
    opens (b :: (text ++ (openTag id ++ x))) = opens (b :: (text ++ (openTag id ++ y))) := by
  have h := opens_settled (b :: text ++ (openMark ++ id)) (by simp; omega) x y
  rw [List.append_assoc, ← openTag_append, List.append_assoc, ← openTag_append] at h
  exact h

theorem openings_settled (gap id x y : Bytes) :
    openings gap (openTag id ++ x) = openings gap (openTag id ++ y) := by
  induction gap with
  | nil => rfl
  | cons b gap ih => rw [openings, openings, ih, opens_before_tag b gap id x y]

theorem ScanState.run_before_tag (s : ScanState) (gap id x y : Bytes) :
    s.run gap (openTag id ++ x) = s.run gap (openTag id ++ y) :=
  s.run_settled stops_less gap _ _

theorem closes_settled (text x y : Bytes) :
    closes (text ++ (closeMark ++ x)) = closes (text ++ (closeMark ++ y)) := by
  have hone : ∀ x y, closes (text ++ (closeMark ++ x)) = true →
      closes (text ++ (closeMark ++ y)) = true := by
    intro x y h
    rw [closes, List.isPrefixOf_iff_prefix, ← List.append_assoc] at h ⊢
    have hlen : closeMark.length ≤ (text ++ closeMark).length := by simp
    exact (List.prefix_of_prefix_length_le h (List.prefix_append _ _) hlen).trans
      (List.prefix_append _ _)
  exact Bool.eq_iff_iff.mpr ⟨hone x y, hone y x⟩

theorem absent_closes_settled {body x y : Bytes} (h : Absent closes body (closeMark ++ x)) :
    Absent closes body (closeMark ++ y) := by
  induction body with
  | nil => trivial
  | cons b body ih =>
    have hb : closes (b :: body ++ (closeMark ++ x)) = false := h.1
    rw [closes_settled _ x y] at hb
    exact ⟨hb, ih h.2⟩

end Softfig.LayerB
