import Softfig.Doc.Sections

/-!
What replacing a window of lines leaves of the sections apart from it.

- `headingsFrom_append`, `headingsFrom_shift`: headings of a document put together
  from parts;
- `spanEnd_front`, `spanEnd_behind`: where a section ends does not depend on what
  stands before it, nor on what stands after its end;
- `frame`: where the new lines close their fences and bring no heading of another
  section's text, that section keeps its address and its lines.
-/

namespace Softfig.Doc

open Softfig.Queue (isWhitespace trimStart trim)
open Softfig.Store (Bytes Hash)

/-! ### Headings of a document in parts -/

def Heading.shift (k : Nat) (h : Heading) : Heading := { h with line := k + h.line }

theorem headingsFrom_append (inFence : Bool) (i : Nat) (ls ls' : List Text) :
    headingsFrom inFence i (ls ++ ls') =
      headingsFrom inFence i ls ++ headingsFrom (fenceAfter inFence ls) (i + ls.length) ls' := by
  induction ls generalizing inFence i with
  | nil => rfl
  | cons l ls ih =>
    have hlength : i + (l :: ls).length = i + 1 + ls.length := by
      rw [List.length_cons]
      omega
    rw [List.cons_append, headingsFrom, headingsFrom, fenceAfter_cons, hlength]
    by_cases hfence : isFence l = true
    · simp only [hfence, if_true]
      exact ih _ _
    · simp only [hfence, if_false, Bool.false_eq_true]
      cases inFence with
      | true => exact ih _ _
      | false =>
        cases parseHeadingLine l with
        | none => exact ih _ _
        | some p => exact congrArg (List.cons _) (ih _ _)

theorem headingsFrom_shift (inFence : Bool) (k i : Nat) (ls : List Text) :
    headingsFrom inFence (k + i) ls = (headingsFrom inFence i ls).map (Heading.shift k) := by
  induction ls generalizing inFence i with
  | nil => rfl
  | cons l ls ih =>
    rw [headingsFrom, headingsFrom]
    have ih' (inFence : Bool) : headingsFrom inFence (k + i + 1) ls =
        (headingsFrom inFence (i + 1) ls).map (Heading.shift k) := ih inFence (i + 1)
    by_cases hfence : isFence l = true
    · simp only [hfence, if_true, ih']
    · simp only [hfence, if_false, Bool.false_eq_true]
      cases inFence with
      | true => simp only [if_true, ih']
      | false =>
        cases parseHeadingLine l with
        | none => simp only [if_false, Bool.false_eq_true, ih']
        | some p => simp only [if_false, Bool.false_eq_true, ih', List.map_cons]; rfl

/-- A heading stands on a line outside fences. -/
theorem mem_headingsFrom {inFence : Bool} {i : Nat} {ls : List Text} {h : Heading}
    (hmem : h ∈ headingsFrom inFence i ls) :
    i ≤ h.line ∧ ∃ l, ls[h.line - i]? = some l ∧ isFence l = false ∧
      fenceAfter inFence (ls.take (h.line - i)) = false ∧
      parseHeadingLine l = some (h.level, h.text) := by
  induction ls generalizing inFence i with
  | nil => cases hmem
  | cons l ls ih =>
    have hlater {inFence' : Bool} (hstate : fenceAfter inFence [l] = inFence')
        (hmem : h ∈ headingsFrom inFence' (i + 1) ls) :
        i ≤ h.line ∧ ∃ k, (l :: ls)[h.line - i]? = some k ∧ isFence k = false ∧
          fenceAfter inFence ((l :: ls).take (h.line - i)) = false ∧
          parseHeadingLine k = some (h.level, h.text) := by
      obtain ⟨hle, k, hk, hfence, hafter, hparse⟩ := ih hmem
      have hsub : h.line - i = h.line - (i + 1) + 1 := by omega
      refine ⟨by omega, k, ?_, hfence, ?_, hparse⟩
      · rw [hsub, List.getElem?_cons_succ]
        exact hk
      · rw [hsub, List.take_succ_cons, ← List.singleton_append, fenceAfter_append, hstate]
        exact hafter
    rw [headingsFrom] at hmem
    by_cases hfence : isFence l = true
    · simp only [hfence, if_true] at hmem
      exact hlater (by simp [fenceAfter_cons, hfence]) hmem
    · simp only [hfence, if_false, Bool.false_eq_true] at hmem
      cases inFence with
      | true => exact hlater (by simp [fenceAfter_cons, hfence]) hmem
      | false =>
        simp only [if_false, Bool.false_eq_true] at hmem
        cases hparse : parseHeadingLine l with
        | none =>
          simp only [hparse] at hmem
          exact hlater (by simp [fenceAfter_cons, hfence]) hmem
        | some p =>
          simp only [hparse, List.mem_cons] at hmem
          rcases hmem with rfl | hmem
          · refine ⟨le_refl _, l, by simp, Bool.eq_false_iff.mpr hfence, by simp, hparse⟩
          · exact hlater (by simp [fenceAfter_cons, hfence]) hmem

theorem headingsFrom_lt {inFence : Bool} {i : Nat} {ls : List Text} {h : Heading}
    (hmem : h ∈ headingsFrom inFence i ls) : h.line < i + ls.length := by
  obtain ⟨hle, l, hl, -⟩ := mem_headingsFrom hmem
  have hlt := (List.getElem?_eq_some_iff.mp hl).1
  omega

/-- At a heading, and right behind it, the fence is closed. -/
theorem fence_heading {ls : List Text} {h : Heading} (hmem : h ∈ headings ls) :
    fenceAfter false (ls.take h.line) = false ∧ fenceAfter false (ls.take (h.line + 1)) = false := by
  obtain ⟨-, l, hl, hfence, hafter, -⟩ := mem_headingsFrom hmem
  rw [Nat.sub_zero] at hl hafter
  exact ⟨hafter, Outside.after ⟨l, hl, hfence, hafter⟩⟩

theorem findUnique_ok_iff {hs : List Heading} {want : Text} {h : Heading} :
    findUnique hs want = .ok h ↔ hs.filter (fun h => h.text = want) = [h] := by
  rw [findUnique]
  split
  · rename_i heq
    simp [heq]
  · rename_i a heq
    simp [heq]
  · rename_i a b rest heq
    simp [heq]

/-! ### Where a section ends -/

theorem lt_spanEnd {ls : List Text} {h : Heading} (hmem : h ∈ headings ls) :
    h.line < spanEnd ls.length (headings ls) h := by
  rw [spanEnd]
  cases hfind : (headings ls).find? fun k => h.line < k.line && k.level ≤ h.level with
  | none =>
    have hlt := headingsFrom_lt hmem
    simpa using hlt
  | some k =>
    have hk := List.find?_some hfind
    simp only [Bool.and_eq_true, decide_eq_true_eq] at hk
    exact hk.1

/-- A section ends at the end of the document or at a heading. -/
theorem spanEnd_cases (ls : List Text) (h : Heading) :
    spanEnd ls.length (headings ls) h = ls.length ∨
      ∃ k ∈ headings ls, spanEnd ls.length (headings ls) h = k.line := by
  rw [spanEnd]
  cases hfind : (headings ls).find? fun k => h.line < k.line && k.level ≤ h.level with
  | none => exact Or.inl rfl
  | some k => exact Or.inr ⟨k, List.mem_of_find?_eq_some hfind, rfl⟩

/-- The lines an edit may replace: behind a heading, up to the end or to a place
outside fences. -/
structure Window (ls : List Text) (target : Heading) (stop : Nat) : Prop where
  target_mem : target ∈ headings ls
  start_le : target.line + 1 ≤ stop
  stop_le : stop ≤ ls.length
  outside : stop = ls.length ∨ fenceAfter false (ls.take stop) = false

theorem Window.span {ls : List Text} {target : Heading} (h : target ∈ headings ls) :
    Window ls target (spanEnd ls.length (headings ls) target) := by
  have hlt := lt_spanEnd h
  rcases spanEnd_cases ls target with hend | ⟨k, hk, hend⟩
  · exact ⟨h, hlt, hend.le, Or.inl hend⟩
  · refine ⟨h, hlt, ?_, Or.inr ?_⟩
    · have hk' := headingsFrom_lt hk
      omega
    · rw [hend]
      exact (fence_heading hk).1

theorem Window.own {ls : List Text} {target : Heading} (h : target ∈ headings ls) :
    Window ls target
      (ownBodyEnd (headings ls) target (spanEnd ls.length (headings ls) target)) := by
  rw [ownBodyEnd]
  cases hfind : (headings ls).find? fun k => target.line < k.line with
  | none => exact .span h
  | some k =>
    have hlt : target.line < k.line := by simpa using List.find?_some hfind
    have hk := List.mem_of_find?_eq_some hfind
    rcases Nat.le_total k.line (spanEnd ls.length (headings ls) target) with hle | hle
    · rw [Option.map_some, Option.getD_some, Nat.min_eq_left hle]
      refine ⟨h, hlt, ?_, Or.inr (fence_heading hk).1⟩
      have hk' := headingsFrom_lt hk
      omega
    · rw [Option.map_some, Option.getD_some, Nat.min_eq_right hle]
      exact .span h

/-! ### The frame of a window -/

section frame

variable {ls mid : List Text} {target : Heading} {stop : Nat} {want : Text}

/-- No heading of the lines, read from a fence state, has the text. -/
def Silent (want : Text) (inFence : Bool) (ls : List Text) : Prop :=
  ∀ h ∈ headingsFrom inFence 0 ls, h.text ≠ want

theorem Silent.append {inFence : Bool} {a b : List Text} (ha : Silent want inFence a)
    (hb : Silent want (fenceAfter inFence a) b) : Silent want inFence (a ++ b) := by
  intro h hmem
  rw [headingsFrom_append, List.mem_append] at hmem
  rcases hmem with hmem | hmem
  · exact ha h hmem
  · rw [Nat.zero_add, ← Nat.add_zero a.length, headingsFrom_shift] at hmem
    obtain ⟨k, hk, rfl⟩ := List.mem_map.mp hmem
    exact hb k hk

theorem Silent.left {inFence : Bool} {a b : List Text} (h : Silent want inFence (a ++ b)) :
    Silent want inFence a := by
  intro k hk
  refine h k ?_
  rw [headingsFrom_append]
  exact List.mem_append_left _ hk

theorem Silent.right {inFence : Bool} {a b : List Text} (h : Silent want inFence (a ++ b)) :
    Silent want (fenceAfter inFence a) b := by
  intro k hk
  refine h (k.shift a.length) ?_
  rw [headingsFrom_append, Nat.zero_add, ← Nat.add_zero a.length, headingsFrom_shift]
  exact List.mem_append_right _ (List.mem_map_of_mem hk)

theorem silent_iff_filter {inFence : Bool} {i : Nat} :
    Silent want inFence ls ↔ (headingsFrom inFence i ls).filter (fun h => h.text = want) = [] := by
  rw [← Nat.add_zero i, headingsFrom_shift, List.filter_eq_nil_iff]
  constructor
  · intro h k hk
    obtain ⟨x, hx, rfl⟩ := List.mem_map.mp hk
    exact fun hsame => h x hx (of_decide_eq_true hsame)
  · intro h k hk hsame
    exact h _ (List.mem_map_of_mem hk) (decide_eq_true hsame)

theorem split_window (ls : List Text) (hle : target.line + 1 ≤ stop) :
    ls = ls.take (target.line + 1) ++ slice ls (target.line + 1) stop ++ ls.drop stop := by
  have hparts := List.take_append_drop (target.line + 1) (ls.take stop)
  rw [List.take_take, Nat.min_eq_left hle] at hparts
  rw [slice, hparts, List.take_append_drop]

/-- The headings behind a place outside fences are those of the rest, moved. -/
theorem headings_behind {inFence : Bool} {k : Nat} {rest : List Text}
    (h : rest = [] ∨ inFence = false) :
    headingsFrom inFence k rest = (headings rest).map (Heading.shift k) := by
  rcases h with rfl | rfl
  · rfl
  · rw [headings, ← headingsFrom_shift, Nat.add_zero]

theorem spanEnd_front {front rest rest' : List Heading} {n n' bound : Nat} {h : Heading}
    (hend : spanEnd n (front ++ rest) h < bound) (hrest : ∀ k ∈ rest, bound ≤ k.line)
    (hn : bound ≤ n) : spanEnd n' (front ++ rest') h = spanEnd n (front ++ rest) h := by
  rw [spanEnd, List.find?_append] at hend ⊢
  rw [spanEnd, List.find?_append]
  cases hfront : front.find? fun k => h.line < k.line && k.level ≤ h.level with
  | some k => rfl
  | none =>
    rw [hfront] at hend
    cases hfind : rest.find? fun k => h.line < k.line && k.level ≤ h.level with
    | none =>
      rw [hfind] at hend
      exact absurd hend (not_lt.mpr hn)
    | some k =>
      rw [hfind] at hend
      exact absurd hend (not_lt.mpr (hrest k (List.mem_of_find?_eq_some hfind)))

theorem spanEnd_behind {front rest : List Heading} {n k : Nat} {h : Heading}
    (hfront : ∀ x ∈ front, x.line < k) :
    spanEnd (k + n) (front ++ rest.map (Heading.shift k)) (h.shift k) = k + spanEnd n rest h := by
  have hnone : front.find? (fun x => (h.shift k).line < x.line && x.level ≤ (h.shift k).level) =
      none := by
    rw [List.find?_eq_none]
    intro x hx hmatch
    have hlt := hfront x hx
    have hbehind : k + h.line < x.line := of_decide_eq_true (Bool.and_eq_true_iff.mp hmatch).1
    omega
  have hsame : (fun x : Heading => decide ((h.shift k).line < x.line) &&
      decide (x.level ≤ (h.shift k).level)) ∘ Heading.shift k =
      fun x => decide (h.line < x.line) && decide (x.level ≤ h.level) := by
    funext x
    refine congrArg₂ (· && ·) (decide_eq_decide.mpr ?_) rfl
    exact Nat.add_lt_add_iff_left
  rw [spanEnd, spanEnd, List.find?_append, hnone, Option.none_or, List.find?_map, hsame]
  cases rest.find? fun x => decide (h.line < x.line) && decide (x.level ≤ h.level) with
  | none => rfl
  | some x => rfl

theorem slice_append_right (a b : List Text) (start stop : Nat) :
    slice (a ++ b) (a.length + start) (a.length + stop) = slice b start stop := by
  rw [slice, slice, List.take_length_add_append, List.drop_length_add_append]

theorem slice_append_left {a b : List Text} {start stop : Nat} (h : stop ≤ a.length) :
    slice (a ++ b) start stop = slice a start stop := by
  rw [slice, slice, List.take_append_of_le_length h]

/-- A section apart from the window: it ends before the addressed heading, or starts
behind the window. -/
def Apart (ls : List Text) (target : Heading) (stop : Nat) (h : Heading) : Prop :=
  spanEnd ls.length (headings ls) h ≤ target.line ∨ stop ≤ h.line

/-- The headings of a document in three parts, the first of which closes its fences. -/
theorem headings_parts {pre mid rest : List Text} (hpre : fenceAfter false pre = false)
    (hmid : rest = [] ∨ fenceAfter false mid = false) :
    headings (pre ++ mid ++ rest) = headings pre ++ headingsFrom false pre.length mid ++
      (headings rest).map (Heading.shift (pre ++ mid).length) := by
  have hbehind : headingsFrom (fenceAfter false (pre ++ mid)) (pre ++ mid).length rest =
      (headings rest).map (Heading.shift (pre ++ mid).length) := by
    refine headings_behind (hmid.imp_right fun hmid => ?_)
    rw [fenceAfter_append, hpre, hmid]
  rw [headings, headingsFrom_append, Nat.zero_add, hbehind, headingsFrom_append, hpre, Nat.zero_add]
  rfl

theorem filter_shift (k : Nat) (hs : List Heading) :
    (hs.map (Heading.shift k)).filter (fun h => h.text = want) =
      (hs.filter fun h => h.text = want).map (Heading.shift k) := by
  rw [List.filter_map]
  rfl

/-- Replacing the middle part. A section that ends in the first part, or starts in the
last one, keeps its address and its lines. -/
theorem frame_parts (want : Text) {pre old mid rest : List Text} (hpre : fenceAfter false pre = false)
    (hold : rest = [] ∨ fenceAfter false old = false)
    (hmid : rest = [] ∨ fenceAfter false mid = false) (h : Heading)
    (hunique : findUnique (headings (pre ++ old ++ rest)) want = .ok h)
    (hapart : spanEnd (pre ++ old ++ rest).length (headings (pre ++ old ++ rest)) h < pre.length ∨
      (pre ++ old).length ≤ h.line)
    (hsilent : Silent want false mid) :
    ∃ h', findUnique (headings (pre ++ mid ++ rest)) want = .ok h' ∧
      sectionSlice (pre ++ mid ++ rest) (headings (pre ++ mid ++ rest)) h' =
        sectionSlice (pre ++ old ++ rest) (headings (pre ++ old ++ rest)) h := by
  have hmem : h ∈ headings (pre ++ old ++ rest) := by
    have hin : h ∈ [h] := List.mem_singleton_self h
    rw [← findUnique_ok_iff.mp hunique] at hin
    exact (List.mem_filter.mp hin).1
  have hend := lt_spanEnd hmem
  rw [findUnique_ok_iff, headings_parts hpre hold, List.filter_append, List.filter_append,
    List.append_assoc, List.append_eq_singleton_iff] at hunique
  have hnew : (headingsFrom false pre.length mid).filter (fun h => h.text = want) = [] :=
    silent_iff_filter.mp hsilent
  have hgap : ∀ k ∈ headingsFrom false pre.length old,
      pre.length ≤ k.line ∧ k.line < (pre ++ old).length := by
    intro k hk
    have hlt := headingsFrom_lt hk
    rw [List.length_append]
    exact ⟨(mem_headingsFrom hk).1, hlt⟩
  rcases hunique with ⟨hfront, hin⟩ | ⟨hfront, hout⟩
  · -- the section starts in the last part
    have hbehind : (headingsFrom false pre.length old).filter (fun h => h.text = want) = [] ∧
        ((headings rest).map (Heading.shift (pre ++ old).length)).filter
          (fun h => h.text = want) = [h] := by
      refine (List.append_eq_singleton_iff.mp hin).resolve_right ?_
      rintro ⟨hgapped, -⟩
      have hgap' := hgap h (List.mem_filter.mp (hgapped ▸ List.mem_singleton_self h)).1
      omega
    obtain ⟨-, hlast⟩ := hbehind
    rw [filter_shift, List.map_eq_singleton_iff] at hlast
    obtain ⟨k, hk, rfl⟩ := hlast
    refine ⟨k.shift (pre ++ mid).length, ?_, ?_⟩
    · rw [findUnique_ok_iff, headings_parts hpre hmid, List.filter_append, List.filter_append,
        hfront, hnew, filter_shift, hk]
      rfl
    · have hslice {middle : List Text} (hmiddle : rest = [] ∨ fenceAfter false middle = false) :
          sectionSlice (pre ++ middle ++ rest) (headings (pre ++ middle ++ rest))
            (k.shift (pre ++ middle).length) = sectionSlice rest (headings rest) k := by
        have hlength : (pre ++ middle ++ rest).length = (pre ++ middle).length + rest.length :=
          List.length_append
        rw [sectionSlice, headings_parts hpre hmiddle, hlength, spanEnd_behind]
        · exact congrArg join (slice_append_right _ _ _ _)
        · intro x hx
          rw [List.length_append]
          rcases List.mem_append.mp hx with hx | hx
          · have hlt := headingsFrom_lt hx
            omega
          · exact headingsFrom_lt hx
      rw [hslice hmid, hslice hold]
  · -- the section starts in the first part, and ends there
    have hpreLine := headingsFrom_lt (List.mem_filter.mp (hfront ▸ List.mem_singleton_self h)).1
    rw [Nat.zero_add] at hpreLine
    have hstop : spanEnd (pre ++ old ++ rest).length (headings (pre ++ old ++ rest)) h <
        pre.length := by
      refine hapart.resolve_right ?_
      rw [List.length_append]
      omega
    obtain ⟨-, hlast⟩ := List.append_eq_nil_iff.mp hout
    rw [filter_shift, List.map_eq_nil_iff] at hlast
    have hlines {middle : List Text} : ∀ x ∈ headingsFrom false pre.length middle ++
        (headings rest).map (Heading.shift (pre ++ middle).length), pre.length ≤ x.line := by
      intro x hx
      rcases List.mem_append.mp hx with hx | hx
      · exact (mem_headingsFrom hx).1
      · obtain ⟨y, -, rfl⟩ := List.mem_map.mp hx
        show pre.length ≤ (pre ++ middle).length + y.line
        rw [List.length_append]
        omega
    refine ⟨h, ?_, ?_⟩
    · rw [findUnique_ok_iff, headings_parts hpre hmid, List.filter_append, List.filter_append,
        hfront, hnew, filter_shift, hlast]
      rfl
    · have hsame : spanEnd (pre ++ mid ++ rest).length (headings (pre ++ mid ++ rest)) h =
          spanEnd (pre ++ old ++ rest).length (headings (pre ++ old ++ rest)) h := by
        rw [headings_parts hpre hold, List.append_assoc (headings pre)] at hstop ⊢
        rw [headings_parts hpre hmid, List.append_assoc (headings pre)]
        refine spanEnd_front hstop hlines ?_
        rw [List.append_assoc, List.length_append]
        omega
      have hslice (middle : List Text) :
          slice (pre ++ middle ++ rest) h.line
              (spanEnd (pre ++ old ++ rest).length (headings (pre ++ old ++ rest)) h) =
            slice pre h.line
              (spanEnd (pre ++ old ++ rest).length (headings (pre ++ old ++ rest)) h) := by
        rw [List.append_assoc pre middle rest, slice_append_left hstop.le]
      rw [sectionSlice, sectionSlice, hsame, hslice mid, hslice old]

/-- A section apart from the window keeps its address and its lines. -/
theorem frame (hwindow : Window ls target stop)
    (hmid : stop = ls.length ∨ fenceAfter false mid = false) {h : Heading}
    (hunique : findUnique (headings ls) want = .ok h) (hapart : Apart ls target stop h)
    (hsilent : Silent want false mid) :
    ∃ h', findUnique (headings (ls.take (target.line + 1) ++ mid ++ ls.drop stop)) want = .ok h' ∧
      sectionSlice (ls.take (target.line + 1) ++ mid ++ ls.drop stop)
          (headings (ls.take (target.line + 1) ++ mid ++ ls.drop stop)) h' =
        sectionSlice ls (headings ls) h := by
  have hsplit := split_window ls hwindow.start_le
  have hpre := (fence_heading hwindow.target_mem).2
  have hpreLength : (ls.take (target.line + 1)).length = target.line + 1 := by
    rw [List.length_take]
    exact Nat.min_eq_left (hwindow.start_le.trans hwindow.stop_le)
  have hstopLength :
      (ls.take (target.line + 1) ++ slice ls (target.line + 1) stop).length = stop := by
    have hlength := congrArg List.length hsplit
    have hstop := hwindow.stop_le
    rw [List.length_append, List.length_drop] at hlength
    omega
  have hrest {p : Prop} (h : stop = ls.length ∨ p) : ls.drop stop = [] ∨ p :=
    h.imp_left fun hend => List.drop_eq_nil_of_le hend.ge
  have hold : ls.drop stop = [] ∨ fenceAfter false (slice ls (target.line + 1) stop) = false :=
    hrest (hwindow.outside.imp_right (fence_slice hwindow.start_le hpre))
  have hparts := frame_parts want hpre hold (hrest hmid) h
  rw [← hsplit, hpreLength, hstopLength] at hparts
  refine hparts hunique ?_ hsilent
  rcases hapart with hbefore | hbehind
  · exact Or.inl (Nat.lt_succ_of_le hbefore)
  · exact Or.inr hbehind

/-- The heading of a section apart is not among the replaced lines. -/
theorem silent_old (hwindow : Window ls target stop) {h : Heading}
    (hunique : findUnique (headings ls) want = .ok h) (hapart : Apart ls target stop h) :
    Silent want false (slice ls (target.line + 1) stop) := by
  intro k hk hsame
  have hpre := (fence_heading hwindow.target_mem).2
  have hstop := hwindow.stop_le
  have hstart := hwindow.start_le
  have hpreLength : (ls.take (target.line + 1)).length = target.line + 1 := by
    rw [List.length_take]
    omega
  have hmem : k.shift (target.line + 1) ∈ headings ls := by
    rw [split_window ls hwindow.start_le, headings, headingsFrom_append,
      headingsFrom_append, hpre, hpreLength, ← Nat.add_zero (0 + (target.line + 1)),
      headingsFrom_shift, Nat.zero_add]
    exact List.mem_append_left _ (List.mem_append_right _ (List.mem_map_of_mem hk))
  have hfilter := findUnique_ok_iff.mp hunique
  have hin : k.shift (target.line + 1) ∈ [h] := by
    rw [← hfilter]
    exact List.mem_filter.mpr ⟨hmem, decide_eq_true hsame⟩
  obtain rfl := List.mem_singleton.mp hin
  have hlt := lt_spanEnd hmem
  have hline := headingsFrom_lt hk
  rw [slice, List.length_drop, List.length_take] at hline
  have hshift : (k.shift (target.line + 1)).line = target.line + 1 + k.line := rfl
  rcases hapart with hbefore | hbehind
  · omega
  · omega

end frame

end Softfig.Doc
