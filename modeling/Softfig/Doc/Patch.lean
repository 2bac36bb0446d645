import Softfig.Doc.MemberGuard
import Softfig.Lib.Search

/-!
Patching a document: one occurrence of a text replaced, in the whole document or in the lines of an
anchor.

The window of an anchor is meant to be the full lines its occurrence spans. An anchor that ends in
a line feed has the next line in its window too; and an anchor counts as unique when no second
occurrence stands behind the end of the first.

- `patch_ok_iff`: what a patch that succeeds has found and left;
- `patch_back`: patching the result back;
- `patch_laws_iff`: the laws hold for every text and replacement exactly for the anchors that do
  not stand over a line feed, nor over themselves.
-/

namespace Softfig.Doc

open Lib (OccursAt firstMatch matchIndices occursAt_drop firstMatch_eq_some firstMatch_eq_none
  matchIndices_eq_singleton matchIndices_of_unique)

/-! ### The code -/

inductive PatchError where
  | textNotFound
  | textAmbiguous
  | anchorNotFound
  | anchorAmbiguous
  | managedRegion
  deriving DecidableEq

/-- `rfind('\n')` -/
def lastNewline (text : Text) : Option Nat :=
  (text.reverse.findIdx? (· = '\n')).map fun k => text.length - 1 - k

/-- `find('\n')` -/
def firstNewline (text : Text) : Option Nat := text.findIdx? (· = '\n')

/-- The beginning of the line a place is on. -/
def lineStart (content : Text) (start : Nat) : Nat :=
  match lastNewline (content.take start) with
  | some i => i + 1
  | none => 0

/-- The end of the line that goes on at a place. -/
def lineEnd (content : Text) (stop : Nat) : Nat :=
  match firstNewline (content.drop stop) with
  | some i => stop + i + 1
  | none => content.length

/-- Where the search for `old` begins and ends. -/
def window (content : Text) : Option Text → Except PatchError (Nat × Nat)
  | none => .ok (0, content.length)
  | some a =>
    match firstMatch a content with
    | none => .error .anchorNotFound
    | some start =>
      if (firstMatch a (content.drop (start + a.length))).isSome then .error .anchorAmbiguous
      else .ok (lineStart content start, lineEnd content (start + a.length))

/-- Replace the single match of `old` in the window. -/
def patch (content old new : Text) (anchor : Option Text) : Except PatchError Text :=
  match window content anchor with
  | .error e => .error e
  | .ok (windowStart, windowEnd) =>
    match matchIndices old ((content.take windowEnd).drop windowStart) with
    | [] => .error .textNotFound
    | [m] =>
      let absStart := windowStart + m
      let out := content.take absStart ++ new ++ content.drop (absStart + old.length)
      if changedRegions content out = [] then .ok out else .error .managedRegion
    | _ :: _ :: _ => .error .textAmbiguous

/-! ### The laws -/

/-- A line begins at a place. -/
def LineStart (content : Text) (i : Nat) : Prop := i = 0 ∨ content[i - 1]? = some '\n'

/-- A line ends before a place. -/
def LineEnd (content : Text) (i : Nat) : Prop :=
  i = content.length ∨ (0 < i ∧ content[i - 1]? = some '\n')

/-- The full lines that the stretch from `start` to `stop` spans, and no others. -/
structure FullLines (content : Text) (start stop lo hi : Nat) : Prop where
  lo_le : lo ≤ start
  starts : LineStart content lo
  latest : ∀ i, i ≤ start → LineStart content i → i ≤ lo
  le_hi : stop ≤ hi
  ends : LineEnd content hi
  earliest : ∀ i, stop ≤ i → LineEnd content i → hi ≤ i

/-- The anchor occurs at one place. -/
def OccursOnce (a content : Text) (start : Nat) : Prop := ∀ i, OccursAt a content i ↔ i = start

/-- The window: the whole document, or the full lines of the one occurrence of the anchor. -/
def IsWindow (content : Text) (anchor : Option Text) (lo hi : Nat) : Prop :=
  match anchor with
  | none => lo = 0 ∧ hi = content.length
  | some a => ∃ start, OccursOnce a content start ∧
      FullLines content start (start + a.length) lo hi

/-- The one match of `old` in the window, at `place`, replaced, and no managed region changed. -/
structure Patched (content old new : Text) (anchor : Option Text) (place : Nat) (out : Text) :
    Prop where
  found : ∃ lo hi m, IsWindow content anchor lo hi ∧
    matchIndices old ((content.take hi).drop lo) = [m] ∧ place = lo + m
  result : out = content.take place ++ new ++ content.drop (place + old.length)
  regions : regions out = regions content

/-- What a patch promises. -/
structure PatchLaws (content old new : Text) (anchor : Option Text) : Prop where
  /-- It succeeds with what was to be replaced replaced, and with nothing else. -/
  accepted : ∀ out, patch content old new anchor = .ok out ↔
    ∃ place, Patched content old new anchor place out
  /-- Where `new` stands once in the window that is searched in the result, patching back restores
  the document. -/
  back : ∀ place out lo hi, Patched content old new anchor place out →
    window out anchor = .ok (lo, hi) → lo ≤ place → place + new.length ≤ hi →
    (∀ i, lo ≤ i → i + new.length ≤ hi → OccursAt new out i → i = place) → new ≠ [] →
    patch out new old anchor = .ok content

/-- An anchor that is found and counts as unique overlaps no other occurrence of itself, and ends in
a line feed only at the end of the document. -/
def Fit (content : Text) (anchor : Option Text) : Prop :=
  ∀ a, anchor = some a → ∀ start, firstMatch a content = some start →
    firstMatch a (content.drop (start + a.length)) = none →
    OccursOnce a content start ∧ (a.getLast? = some '\n' → start + a.length = content.length)

/-! ### Lines -/

section lines

variable {content : Text} {start stop i : Nat}

theorem lastNewline_eq_none (h : lastNewline content = none) : '\n' ∉ content := by
  rw [lastNewline, Option.map_eq_none_iff, List.findIdx?_eq_none_iff] at h
  intro hmem
  exact absurd (h '\n' (List.mem_reverse.mpr hmem)) (by simp)

theorem lastNewline_eq_some {k : Nat} (h : lastNewline content = some k) :
    content[k]? = some '\n' ∧ ∀ j, k < j → content[j]? ≠ some '\n' := by
  rw [lastNewline, Option.map_eq_some_iff] at h
  obtain ⟨r, hr, rfl⟩ := h
  obtain ⟨hlt, hat, hbefore⟩ := List.findIdx?_eq_some_iff_getElem.mp hr
  rw [List.length_reverse] at hlt
  constructor
  · rw [List.getElem_reverse, decide_eq_true_eq] at hat
    rw [List.getElem?_eq_getElem (by omega), hat]
  · intro j hj heq
    obtain ⟨hjlt, hjat⟩ := List.getElem?_eq_some_iff.mp heq
    have hnot := hbefore (content.length - 1 - j) (by omega)
    rw [List.getElem_reverse, decide_eq_true_eq] at hnot
    refine hnot ?_
    have hindex : content.length - 1 - (content.length - 1 - j) = j := by omega
    simpa only [hindex] using hjat

theorem lineStart_spec (hstart : start ≤ content.length) :
    lineStart content start ≤ start ∧ LineStart content (lineStart content start) ∧
      ∀ i, i ≤ start → LineStart content i → i ≤ lineStart content start := by
  have htake {j : Nat} (hj : j < start) : (content.take start)[j]? = content[j]? :=
    List.getElem?_take_of_lt hj
  cases hlast : lastNewline (content.take start) with
  | none =>
    have hnone := lastNewline_eq_none hlast
    have hzero : lineStart content start = 0 := by rw [lineStart, hlast]
    rw [hzero]
    refine ⟨Nat.zero_le _, .inl rfl, fun i hi hline => ?_⟩
    rcases hline with rfl | hline
    · exact Nat.le_refl 0
    · by_contra hpos
      rw [← htake (by omega)] at hline
      exact hnone (List.mem_of_getElem? hline)
  | some k =>
    obtain ⟨hat, hafter⟩ := lastNewline_eq_some hlast
    have hlt : k < start := by
      have hlt := (List.getElem?_eq_some_iff.mp hat).1
      rw [List.length_take] at hlt
      omega
    have hnext : lineStart content start = k + 1 := by rw [lineStart, hlast]
    rw [hnext]
    refine ⟨hlt, .inr ?_, fun i hi hline => ?_⟩
    · rw [htake hlt] at hat
      exact hat
    · rcases hline with rfl | hline
      · exact Nat.zero_le _
      · by_contra hlate
        rw [← htake (by omega)] at hline
        exact hafter (i - 1) (by omega) hline

theorem lineEnd_spec (hstop : stop ≤ content.length) :
    stop ≤ lineEnd content stop ∧ LineEnd content (lineEnd content stop) ∧
      (∀ i, stop < i → LineEnd content i → lineEnd content stop ≤ i) ∧
      (stop < content.length → stop < lineEnd content stop) := by
  cases hfirst : firstNewline (content.drop stop) with
  | none =>
    have hend : lineEnd content stop = content.length := by rw [lineEnd, hfirst]
    rw [firstNewline, List.findIdx?_eq_none_iff] at hfirst
    rw [hend]
    refine ⟨hstop, .inl rfl, fun i hi hline => ?_, id⟩
    rcases hline with rfl | ⟨hpos, hline⟩
    · exact Nat.le_refl _
    · have hmem : '\n' ∈ content.drop stop := by
        refine List.mem_of_getElem? (i := i - 1 - stop) ?_
        rw [List.getElem?_drop, ← hline]
        congr 1
        omega
      exact absurd (hfirst '\n' hmem) (by simp)
  | some k =>
    have hend : lineEnd content stop = stop + k + 1 := by rw [lineEnd, hfirst]
    rw [firstNewline] at hfirst
    obtain ⟨hlt, hat, hbefore⟩ := List.findIdx?_eq_some_iff_getElem.mp hfirst
    rw [List.length_drop] at hlt
    rw [List.getElem_drop, decide_eq_true_eq] at hat
    rw [hend]
    refine ⟨by omega, .inr ⟨Nat.succ_pos _, ?_⟩, fun i hi hline => ?_, fun _ => by omega⟩
    · rw [Nat.add_sub_cancel, List.getElem?_eq_getElem (by omega), hat]
    · rcases hline with rfl | ⟨hpos, hline⟩
      · omega
      · by_contra hearly
        obtain ⟨hlt', hat'⟩ := List.getElem?_eq_some_iff.mp hline
        have hnot := hbefore (i - 1 - stop) (by omega)
        rw [List.getElem_drop, decide_eq_true_eq] at hnot
        refine hnot ?_
        have hindex : stop + (i - 1 - stop) = i - 1 := by omega
        simpa only [hindex] using hat'

end lines

/-! ### Windows -/

section windows

variable {content a : Text} {anchor : Option Text} {start lo hi : Nat}

/-- The window of an anchor that is found and counts as unique. -/
theorem window_eq_ok (h : window content (some a) = .ok (lo, hi)) : ∃ start,
    firstMatch a content = some start ∧ firstMatch a (content.drop (start + a.length)) = none ∧
      lo = lineStart content start ∧ hi = lineEnd content (start + a.length) := by
  cases hfirst : firstMatch a content with
  | none =>
    simp only [window, hfirst] at h
    cases h
  | some start =>
    simp only [window, hfirst] at h
    cases hsecond : firstMatch a (content.drop (start + a.length)) with
    | some second =>
      simp [hsecond] at h
    | none =>
      simp only [hsecond, Option.isSome_none, Bool.false_eq_true, if_false, Except.ok.injEq,
        Prod.mk.injEq] at h
      exact ⟨start, rfl, hsecond, h.1.symm, h.2.symm⟩

theorem window_of_found (hfirst : firstMatch a content = some start)
    (hsecond : firstMatch a (content.drop (start + a.length)) = none) :
    window content (some a) = .ok (lineStart content start, lineEnd content (start + a.length)) := by
  simp [window, hfirst, hsecond]

/-- An anchor that occurs at one place is found there, and counts as unique. -/
theorem OccursOnce.found (hne : a ≠ []) (h : OccursOnce a content start) :
    firstMatch a content = some start ∧ firstMatch a (content.drop (start + a.length)) = none := by
  have hat := (h start).mpr rfl
  refine ⟨firstMatch_eq_some.mpr ⟨hat, fun j hj => ((h j).mp hj).ge⟩, ?_⟩
  refine firstMatch_eq_none.mpr fun j hj => ?_
  have hagain := (h _).mp ((occursAt_drop hat.le).mp hj)
  have hpos := List.length_pos_iff.mpr hne
  omega

/-- A line ends right behind the anchor exactly if the anchor ends in a line feed, or the document
ends there. -/
theorem lineEnd_behind (hne : a ≠ []) (hat : OccursAt a content start) :
    LineEnd content (start + a.length) ↔
      a.getLast? = some '\n' ∨ start + a.length = content.length := by
  obtain ⟨before, after, rfl, rfl⟩ := hat
  have hpos := List.length_pos_iff.mpr hne
  have hlast : (before ++ a ++ after)[before.length + a.length - 1]? = a.getLast? := by
    rw [List.append_assoc, List.getElem?_append_right (by omega),
      List.getElem?_append_left (by omega), List.getLast?_eq_getElem?]
    congr 1
    omega
  rw [LineEnd, hlast, or_comm]
  constructor
  · rintro (⟨-, h⟩ | h)
    · exact .inl h
    · exact .inr h
  · rintro (h | h)
    · exact .inl ⟨by omega, h⟩
    · exact .inr h

/-- The window is the full lines, but for an anchor that ends in a line feed inside the document. -/
theorem fullLines_window (hne : a ≠ []) (hat : OccursAt a content start)
    (hend : a.getLast? = some '\n' → start + a.length = content.length) :
    FullLines content start (start + a.length) (lineStart content start)
      (lineEnd content (start + a.length)) := by
  have hle := hat.le
  have hstart : start ≤ content.length := by omega
  obtain ⟨hlo, hstarts, hlatest⟩ := lineStart_spec hstart
  obtain ⟨hhi, hends, hearliest, -⟩ := lineEnd_spec hle
  refine ⟨hlo, hstarts, hlatest, hhi, hends, fun i hi hline => ?_⟩
  rcases Nat.lt_or_eq_of_le hi with hlt | rfl
  · exact hearliest i hlt hline
  · have hstop : start + a.length = content.length :=
      ((lineEnd_behind hne hat).mp hline).elim hend id
    rcases hends with hends | ⟨hpos, hends⟩
    · omega
    · have hlt := (List.getElem?_eq_some_iff.mp hends).1
      omega

theorem FullLines.unique {start stop lo hi lo' hi' : Nat} (h : FullLines content start stop lo hi)
    (h' : FullLines content start stop lo' hi') : lo = lo' ∧ hi = hi' :=
  ⟨Nat.le_antisymm (h'.latest lo h.lo_le h.starts) (h.latest lo' h'.lo_le h'.starts),
    Nat.le_antisymm (h.earliest hi' h'.le_hi h'.ends) (h'.earliest hi h.le_hi h.ends)⟩

/-- **The window that is searched** is the window of the anchor, where the anchor is fit. -/
theorem window_iff (hne : anchor ≠ some []) (hfit : Fit content anchor) :
    window content anchor = .ok (lo, hi) ↔ IsWindow content anchor lo hi := by
  cases anchor with
  | none =>
    rw [window, Except.ok.injEq, Prod.mk.injEq]
    exact ⟨fun h => ⟨h.1.symm, h.2.symm⟩, fun h => ⟨h.1.symm, h.2.symm⟩⟩
  | some a =>
    have hne : a ≠ [] := fun h => hne (congrArg some h)
    constructor
    · intro h
      obtain ⟨start, hfirst, hsecond, rfl, rfl⟩ := window_eq_ok h
      obtain ⟨honce, hend⟩ := hfit a rfl start hfirst hsecond
      exact ⟨start, honce, fullLines_window hne ((honce start).mpr rfl) hend⟩
    · rintro ⟨start, honce, hlines⟩
      obtain ⟨hfirst, hsecond⟩ := honce.found hne
      obtain ⟨-, hend⟩ := hfit a rfl start hfirst hsecond
      obtain ⟨rfl, rfl⟩ := hlines.unique (fullLines_window hne ((honce start).mpr rfl) hend)
      exact window_of_found hfirst hsecond

end windows

/-! ### Patches -/

section patches

variable {content old new out : Text} {anchor : Option Text}

/-- **What a patch that succeeds has found and left.** -/
theorem patch_ok_iff : patch content old new anchor = .ok out ↔
    ∃ lo hi m, window content anchor = .ok (lo, hi) ∧
      matchIndices old ((content.take hi).drop lo) = [m] ∧
      out = content.take (lo + m) ++ new ++ content.drop (lo + m + old.length) ∧
      regions out = regions content := by
  unfold patch
  cases hwindow : window content anchor with
  | error e => simp
  | ok bounds =>
    obtain ⟨lo, hi⟩ := bounds
    dsimp only
    split
    · rename_i hnone
      simp [hnone]
    · rename_i m hm
      have hsame {out : Text} : changedRegions content out = [] ↔ regions out = regions content :=
        changedRegions_eq_nil.trans eq_comm
      simp only [hsame, Except.ok.injEq, Prod.mk.injEq]
      constructor
      · intro h
        split at h
        · rename_i hregions
          obtain rfl := Except.ok.inj h
          exact ⟨lo, hi, m, ⟨rfl, rfl⟩, hm, rfl, hregions⟩
        · cases h
      · rintro ⟨_, _, _, ⟨rfl, rfl⟩, hm', rfl, hregions⟩
        obtain rfl : m = _ := by simpa [hm] using hm'
        rw [if_pos hregions]
    · rename_i first second rest hmany
      simp only [reduceCtorEq, Except.ok.injEq, Prod.mk.injEq, false_iff, not_exists, not_and]
      rintro _ _ m ⟨rfl, rfl⟩ hm
      rw [hmany] at hm
      cases hm

theorem patched_iff (hne : anchor ≠ some []) (hfit : Fit content anchor) :
    patch content old new anchor = .ok out ↔ ∃ place, Patched content old new anchor place out := by
  rw [patch_ok_iff]
  constructor
  · rintro ⟨lo, hi, m, hwindow, hm, hout, hregions⟩
    exact ⟨lo + m, ⟨lo, hi, m, (window_iff hne hfit).mp hwindow, hm, rfl⟩, hout, hregions⟩
  · rintro ⟨place, ⟨lo, hi, m, hwindow, hm, rfl⟩, hout, hregions⟩
    exact ⟨lo, hi, m, (window_iff hne hfit).mpr hwindow, hm, hout, hregions⟩

/-- A match in a window is an occurrence in the document. -/
theorem occursAt_of_match {lo hi m : Nat} (hne : old ≠ [])
    (h : matchIndices old ((content.take hi).drop lo) = [m]) : OccursAt old content (lo + m) := by
  obtain ⟨hat, -⟩ := firstMatch_eq_some.mp ((matchIndices_eq_singleton hne).mp h).1
  rcases Nat.le_total lo (content.take hi).length with hle | hle
  · exact ((occursAt_drop hle).mp hat).of_take
  · have hlength := hat.le
    rw [List.drop_eq_nil_of_le hle, List.length_nil] at hlength
    exact absurd (List.length_pos_iff.mpr hne) (by omega)

/-- **Patching the result back** restores the document. -/
theorem patch_back {place lo hi : Nat} (hold : old ≠ [])
    (h : Patched content old new anchor place out) (hwindow : window out anchor = .ok (lo, hi))
    (hlo : lo ≤ place) (hhi : place + new.length ≤ hi)
    (honly : ∀ i, lo ≤ i → i + new.length ≤ hi → OccursAt new out i → i = place) (hnew : new ≠ []) :
    patch out new old anchor = .ok content := by
  obtain ⟨⟨lo', hi', m, -, hm, rfl⟩, hout, hregions⟩ := h
  have hat := occursAt_of_match hold hm
  have hle := hat.le
  have htake : (content.take (lo' + m)).length = lo' + m := by
    rw [List.length_take]
    omega
  have hnewAt : OccursAt new out (lo' + m) := ⟨_, _, hout, htake⟩
  refine patch_ok_iff.mpr ⟨lo, hi, lo' + m - lo, hwindow, ?_, ?_, hregions.symm⟩
  · refine matchIndices_of_unique hnew ?_ fun j hj => ?_
    · have hinside := hnewAt.take hhi
      have hbound := hinside.le
      rw [occursAt_drop (by omega), Nat.add_sub_cancel' hlo]
      exact hinside
    · have hbound : lo ≤ (out.take hi).length := by
        have hinside := (hnewAt.take hhi).le
        omega
      have hagain := (occursAt_drop hbound).mp hj
      have hend := hagain.le
      rw [List.length_take] at hend
      have hplace := honly (lo + j) (Nat.le_add_right _ _) (by omega) hagain.of_take
      omega
  · have hleft : out.take (lo' + m) = content.take (lo' + m) := by
      rw [hout, List.append_assoc, List.take_left' htake]
    have hright : out.drop (lo' + m + new.length) = content.drop (lo' + m + old.length) := by
      rw [hout, List.drop_left' (by rw [List.length_append, htake])]
    rw [Nat.add_sub_cancel' hlo, hleft, hright]
    exact hat.split.symm

theorem Fit.laws (hne : anchor ≠ some []) (hfit : Fit content anchor) (hold : old ≠ []) :
    PatchLaws content old new anchor where
  accepted _ := patched_iff hne hfit
  back _ _ _ _ h hwindow hlo hhi honly hnew := patch_back hold h hwindow hlo hhi honly hnew

/-- A window replaced by itself is a patch that changes nothing. -/
theorem patch_self {lo hi : Nat} (hwindow : window content anchor = .ok (lo, hi))
    (hle : lo < hi) (hhi : hi ≤ content.length) :
    patch content ((content.take hi).drop lo) ((content.take hi).drop lo) anchor = .ok content := by
  have hlength : ((content.take hi).drop lo).length = hi - lo := by
    rw [List.length_drop, List.length_take, Nat.min_eq_left hhi]
  have hwhole : OccursAt ((content.take hi).drop lo) ((content.take hi).drop lo) 0 :=
    ⟨[], [], by simp, rfl⟩
  have hat : OccursAt ((content.take hi).drop lo) content (lo + 0) := by
    refine OccursAt.of_take (k := hi) ((occursAt_drop ?_).mp hwhole)
    rw [List.length_take]
    omega
  refine patch_ok_iff.mpr ⟨lo, hi, 0, hwindow, ?_, hat.split.symm, rfl⟩
  refine matchIndices_of_unique (List.length_pos_iff.mp (by omega)) hwhole fun j hj => ?_
  have hbound := hj.le
  omega

/-- The laws, for every text and replacement, make the anchor fit. -/
theorem fit_of_laws (hne : anchor ≠ some [])
    (h : ∀ old new, old ≠ [] → PatchLaws content old new anchor) : Fit content anchor := by
  rintro a rfl start hfirst hsecond
  have hne : a ≠ [] := fun h => hne (congrArg some h)
  have hat := (firstMatch_eq_some.mp hfirst).1
  have hpos := List.length_pos_iff.mpr hne
  have hstop := hat.le
  have hwindow := window_of_found hfirst hsecond
  have hstart : start ≤ content.length := by omega
  obtain ⟨hlo, hstarts, hlatest⟩ := lineStart_spec hstart
  obtain ⟨hhi, hends, -, hbeyond⟩ := lineEnd_spec hstop
  have hend : lineEnd content (start + a.length) ≤ content.length := by
    rcases hends with hends | ⟨-, hends⟩
    · omega
    · have hlt := (List.getElem?_eq_some_iff.mp hends).1
      omega
  have hself := patch_self hwindow (by omega) hend
  have hnonempty : (content.take (lineEnd content (start + a.length))).drop
      (lineStart content start) ≠ [] := by
    refine List.length_pos_iff.mp ?_
    rw [List.length_drop, List.length_take]
    omega
  -- The whole window has a match in the window that is meant.
  obtain ⟨place, ⟨lo, hi, m, ⟨start', honce, hlines⟩, hm, -⟩, -, -⟩ :=
    ((h _ _ hnonempty).accepted _).mp hself
  obtain rfl : start = start' := (honce start).mp hat
  refine ⟨honce, fun hnewline => ?_⟩
  by_contra hinside
  have hearly := hlines.earliest _ (Nat.le_refl _) ((lineEnd_behind hne hat).mpr (.inl hnewline))
  have hlate := hbeyond (by omega)
  have hfits := (firstMatch_eq_some.mp ((matchIndices_eq_singleton hnonempty).mp hm).1).1.le
  have hsame := hlines.latest _ hlo hstarts
  rw [List.length_drop, List.length_take, List.length_drop, List.length_take] at hfits
  omega

/-- **The laws of a patch** hold, for every text and replacement, exactly for a fit anchor. -/
theorem patch_laws_iff (content : Text) (anchor : Option Text) (hanchor : anchor ≠ some []) :
    (∀ old new, old ≠ [] → PatchLaws content old new anchor) ↔ Fit content anchor :=
  ⟨fit_of_laws hanchor, fun hfit _ _ hold => hfit.laws hanchor hold⟩

/-- An anchor that is a whole line, its line feed included: the line behind it is patched. -/
theorem not_laws_lineAnchor : ¬∀ (content old new : Text) (anchor : Option Text), old ≠ [] →
    anchor ≠ some [] → PatchLaws content old new anchor := by
  intro h
  have hlaws := h "tag\nport = 1\n".toList ['1'] ['2'] (some "tag\n".toList) (by decide) (by decide)
  have hpatch : patch "tag\nport = 1\n".toList ['1'] ['2'] (some "tag\n".toList) =
      .ok "tag\nport = 2\n".toList := by decide +kernel
  obtain ⟨place, ⟨lo, hi, m, ⟨start, honce, hlines⟩, hm, -⟩, -, -⟩ :=
    (hlaws.accepted _).mp hpatch
  have hat : OccursAt "tag\n".toList "tag\nport = 1\n".toList 0 :=
    ⟨[], "port = 1\n".toList, by decide, rfl⟩
  obtain rfl : 0 = start := (honce 0).mp hat
  have hhi : hi ≤ 4 := hlines.earliest 4 (by decide) (.inr ⟨by decide, by decide⟩)
  have hneedle : (['1'] : Text) ≠ [] := List.cons_ne_nil _ _
  have hfound := (firstMatch_eq_some.mp ((matchIndices_eq_singleton hneedle).mp hm).1).1
  obtain ⟨before, after, htext, -⟩ := hfound
  have hmem : '1' ∈ ("tag\nport = 1\n".toList.take hi).drop lo := by
    rw [htext]
    simp
  have htake : '1' ∈ "tag\nport = 1\n".toList.take 4 :=
    (List.take_subset_take_left _ hhi) (List.mem_of_mem_drop hmem)
  exact absurd htake (by decide)

/-- An anchor of one character does not stand over itself. -/
theorem fit_char {c : Char} (hc : c ≠ '\n') : Fit content (some [c]) := by
  rintro _ ⟨⟩ start hfirst hsecond
  obtain ⟨hat, hearliest⟩ := firstMatch_eq_some.mp hfirst
  constructor
  · intro i
    constructor
    · intro hi
      have hle := hearliest i hi
      by_contra hne
      have hindex : start + [c].length + (i - (start + 1)) = i := by
        rw [List.length_singleton]
        omega
      refine firstMatch_eq_none.mp hsecond (i - (start + 1)) ((occursAt_drop hat.le).mpr ?_)
      rwa [hindex]
    · rintro rfl
      exact hat
  · intro hnewline
    exact absurd (Option.some.inj hnewline) hc

theorem patch_laws_charAnchor :
    PatchLaws "tag\nport = 1\n".toList ['1'] ['2'] (some ['=']) :=
  (patch_laws_iff _ _ (by decide)).mpr (fit_char (by decide)) _ _ (by decide)

end patches

end Softfig.Doc
