import Softfig.Doc.SectionFrame
import Softfig.Lib.Except

/-!
The two edits of a section meet the law of its window.

- `Trims.fence`, `Trims.silent`: a text without its first line breaks and its last
  white space closes the same fences and brings no further heading;
- `section_frame`: outside the window every line stays, and a section apart from it
  keeps its version, where the new text closes its fences and does not repeat the
  heading;
- `section_frame_fails`: an unclosed fence in a body hides the sections behind it.
-/

namespace Softfig.Doc

open Softfig.Queue (isWhitespace trimStart trim)
open Softfig.Store (Bytes Hash)
open Softfig.Lib (bind_ok_iff)

/-! ### Lines without a marker -/

/-- The line neither opens a fence nor is a heading. -/
def Quiet (l : Text) : Prop := isFence l = false ∧ parseHeadingLine l = none

theorem quiet_of_notMem {l : Text} (h : ∀ c ∈ l, c ≠ '`' ∧ c ≠ '~' ∧ c ≠ '#') : Quiet l := by
  have hstart : ∀ c ∈ trimStart l, c ≠ '`' ∧ c ≠ '~' ∧ c ≠ '#' := by
    intro c hc
    exact h c ((List.dropWhile_sublist _).subset hc)
  constructor
  · rw [isFence, Bool.or_eq_false_iff]
    constructor
    · refine Bool.eq_false_iff.mpr fun hstarts => ?_
      rw [List.isPrefixOf_iff_prefix] at hstarts
      exact (hstart '`' (hstarts.subset (by decide))).1 rfl
    · refine Bool.eq_false_iff.mpr fun hstarts => ?_
      rw [List.isPrefixOf_iff_prefix] at hstarts
      exact (hstart '~' (hstarts.subset (by decide))).2.1 rfl
  · have hcount : hashCount (trimStart l) = 0 := by
      rw [hashCount]
      cases hl : trimStart l with
      | nil => rfl
      | cons c rest =>
        have hc := (hstart c (hl ▸ List.mem_cons_self)).2.2
        rw [List.takeWhile_cons_of_neg (by simpa using hc)]
        rfl
    unfold parseHeadingLine
    simp only [hcount, decide_true, Bool.true_or, if_true]

theorem quiet_nil : Quiet [] := quiet_of_notMem fun _ hc => absurd hc List.not_mem_nil

theorem quiet_gap : ∀ l ∈ ([[]] : List Text), Quiet l := by
  intro l hl
  obtain rfl := List.mem_singleton.mp hl
  exact quiet_nil

theorem isWhitespace_ne {c : Char} (h : isWhitespace c = true) : c ≠ '`' ∧ c ≠ '~' ∧ c ≠ '#' := by
  refine ⟨?_, ?_, ?_⟩
  · rintro rfl
    exact absurd h (by decide)
  · rintro rfl
    exact absurd h (by decide)
  · rintro rfl
    exact absurd h (by decide)

theorem quiet_blank {l : Text} (h : isBlankLine l = true) : Quiet l :=
  quiet_of_notMem fun c hc => isWhitespace_ne (List.all_eq_true.mp h c hc)

theorem isThematicBreak_ne {l : Text} (h : isThematicBreak l = true) :
    ∀ c ∈ l, c ≠ '`' ∧ c ≠ '~' ∧ c ≠ '#' := by
  intro c hc
  rw [isThematicBreak, Bool.and_eq_true, Bool.or_eq_true, Bool.or_eq_true, List.all_eq_true,
    List.all_eq_true, List.all_eq_true] at h
  by_cases hspace : isWhitespace c = true
  · exact isWhitespace_ne hspace
  · have hmem : c ∈ l.filter fun c => !isWhitespace c :=
      List.mem_filter.mpr ⟨hc, by simp [hspace]⟩
    rcases h.2 with (hall | hall) | hall
    · rw [of_decide_eq_true (hall c hmem)]
      decide
    · rw [of_decide_eq_true (hall c hmem)]
      decide
    · rw [of_decide_eq_true (hall c hmem)]
      decide

theorem trim_subset (l : Text) : trim l ⊆ l := by
  intro c hc
  have hinner := (List.dropWhile_sublist _).subset (List.mem_reverse.mp hc)
  exact (List.dropWhile_sublist _).subset (List.mem_reverse.mp hinner)

theorem fence_quiet {ls : List Text} (h : ∀ l ∈ ls, Quiet l) (inFence : Bool) :
    fenceAfter inFence ls = inFence := by
  induction ls with
  | nil => rfl
  | cons l ls ih =>
    rw [fenceAfter_cons, (h l List.mem_cons_self).1]
    exact ih fun l hl => h l (List.mem_cons_of_mem _ hl)

theorem silent_quiet {want : Text} {ls : List Text} (h : ∀ l ∈ ls, Quiet l) (inFence : Bool) :
    Silent want inFence ls := by
  intro k hk
  obtain ⟨-, l, hl, -, -, hparse⟩ := mem_headingsFrom hk
  rw [(h l (List.mem_of_getElem? hl)).2] at hparse
  cases hparse

/-! ### White space at the end of a text -/

section whitespace

variable {want l text : Text} {c : Char}

theorem isFence_concat (hc : isWhitespace c = true) : isFence (l ++ [c]) = isFence l := by
  rcases trimStart_concat (l := l) hc with ⟨hl, hlc⟩ | hlc
  · rw [isFence, isFence, hl, hlc]
  · have hsame {p : Text} (hp : c ∉ p) :
        p.isPrefixOf (trimStart l ++ [c]) = p.isPrefixOf (trimStart l) := by
      rw [Bool.eq_iff_iff, List.isPrefixOf_iff_prefix, List.isPrefixOf_iff_prefix,
        List.prefix_concat_iff]
      refine or_iff_right fun heq => hp ?_
      rw [heq]
      exact List.mem_append_right _ (List.mem_singleton_self c)
    have hne := isWhitespace_ne hc
    rw [isFence, isFence, hlc, hsame, hsame]
    · intro hmem
      exact hne.2.1 (by simpa using hmem)
    · intro hmem
      exact hne.1 (by simpa using hmem)

/-- White space behind a heading with a text leaves the heading as it is. -/
theorem parseHeadingLine_concat {level : Nat} (hc : isWhitespace c = true) (hwant : want ≠ [])
    (h : parseHeadingLine l = some (level, want)) :
    parseHeadingLine (l ++ [c]) = some (level, want) := by
  rcases trimStart_concat (l := l) hc with ⟨hl, hlc⟩ | hlc
  · rw [parseHeadingLine, hl] at h
    cases h
  · rw [parseHeadingLine] at h ⊢
    rw [hlc]
    split at h
    · cases h
    · rename_i hhashes
      split at h
      · rename_i hdrop
        simp only [Option.some.injEq, Prod.mk.injEq] at h
        exact absurd h.2.symm hwant
      · rename_i d rest hdrop
        have hcount : hashCount (trimStart l ++ [c]) = hashCount (trimStart l) := by
          rw [hashCount, hashCount, List.takeWhile_append, if_neg]
          intro hall
          have hnil := List.drop_eq_nil_of_le (i := hashCount (trimStart l)) hall.ge
          rw [hdrop] at hnil
          cases hnil
        have hle : hashCount (trimStart l) ≤ (trimStart l).length :=
          (List.takeWhile_prefix _).length_le
        simp only [hcount, if_neg hhashes, List.drop_append_of_le_length hle, hdrop,
          List.cons_append]
        split at h
        · rename_i hd
          rw [if_pos hd, ← List.cons_append, trim_concat hc]
          exact h
        · cases h

theorem lines_concat (text : Text) (hc : c ≠ '\n') : ∃ init last, lines text = init ++ [last] ∧
    lines (text ++ [c]) = init ++ [last ++ [c]] := by
  induction text with
  | nil =>
    refine ⟨[], [], rfl, ?_⟩
    rw [List.nil_append, lines, List.splitOn_cons_eq_if_modifyHead, if_neg (by simpa using hc)]
    rfl
  | cons d text ih =>
    obtain ⟨init, last, htext, hconcat⟩ := ih
    rw [lines] at htext hconcat
    rw [lines, lines, List.cons_append, List.splitOn_cons_eq_if_modifyHead,
      List.splitOn_cons_eq_if_modifyHead, htext, hconcat]
    by_cases hd : (d == '\n') = true
    · rw [if_pos hd, if_pos hd]
      exact ⟨[] :: init, last, rfl, rfl⟩
    · rw [if_neg hd, if_neg hd]
      cases init with
      | nil => exact ⟨[], d :: last, rfl, rfl⟩
      | cons l init => exact ⟨(d :: l) :: init, last, rfl, rfl⟩

theorem fence_concat (hc : isWhitespace c = true) (inFence : Bool) :
    fenceAfter inFence (lines (text ++ [c])) = fenceAfter inFence (lines text) := by
  by_cases hbreak : c = '\n'
  · rw [hbreak, lines_append, fenceAfter_append]
    exact fence_quiet quiet_gap _
  · obtain ⟨init, last, htext, hconcat⟩ := lines_concat text hbreak
    rw [htext, hconcat, fenceAfter_append, fenceAfter_append, fenceAfter_cons, fenceAfter_cons,
      isFence_concat hc]

theorem silent_concat {inFence : Bool} (hc : isWhitespace c = true) (hwant : want ≠ [])
    (h : Silent want inFence (lines (text ++ [c]))) : Silent want inFence (lines text) := by
  by_cases hbreak : c = '\n'
  · rw [hbreak, lines_append] at h
    exact h.left
  · obtain ⟨init, last, htext, hconcat⟩ := lines_concat text hbreak
    rw [hconcat] at h
    rw [htext]
    refine h.left.append fun k hk hsame => ?_
    obtain ⟨-, l, hl, hfence, hstate, hparse⟩ := mem_headingsFrom hk
    obtain ⟨hzero, rfl⟩ : k.line = 0 ∧ last = l := by
      cases hline : k.line with
      | zero => simpa [hline] using hl
      | succ n => simp [hline] at hl
    have hparse' := parseHeadingLine_concat hc (hsame ▸ hwant) hparse
    rw [hzero, Nat.sub_zero, List.take_zero, fenceAfter_nil] at hstate
    refine h.right ⟨0, k.level, k.text⟩ ?_ hsame
    rw [hstate, headingsFrom, isFence_concat hc, hfence, hparse']
    exact List.mem_cons_self

end whitespace

/-! ### Trimmed texts -/

section trims

variable {want text whole : Text}

/-- `text` is `whole` without line breaks before it and white space after it. -/
def Trims (text whole : Text) : Prop :=
  ∃ breaks spaces, (∀ c ∈ breaks, c = '\n') ∧ (∀ c ∈ spaces, isWhitespace c = true) ∧
    whole = breaks ++ text ++ spaces

theorem trims_breaks (whole : Text) : Trims (trimBreaks whole) whole := by
  refine ⟨whole.takeWhile (· = '\n'), [], ?_, by simp, ?_⟩
  · intro c hc
    simpa using List.mem_takeWhile_imp hc
  · rw [List.append_nil]
    exact List.takeWhile_append_dropWhile.symm

/-- A text trimmed at its start, and then of white space at its end. -/
theorem Trims.suffix {p : Char → Bool} (hp : ∀ c, p c = true → isWhitespace c = true)
    (h : Trims text whole) : Trims (text.reverse.dropWhile p).reverse whole := by
  obtain ⟨breaks, spaces, hbreaks, hspaces, rfl⟩ := h
  refine ⟨breaks, (text.reverse.takeWhile p).reverse ++ spaces, hbreaks, ?_, ?_⟩
  · intro c hc
    rcases List.mem_append.mp hc with hc | hc
    · exact hp c (List.mem_takeWhile_imp (List.mem_reverse.mp hc))
    · exact hspaces c hc
  · have hparts := congrArg List.reverse (List.takeWhile_append_dropWhile (p := p) (l := text.reverse))
    rw [List.reverse_append, List.reverse_reverse] at hparts
    calc breaks ++ text ++ spaces
        = breaks ++ ((text.reverse.dropWhile p).reverse ++
            (text.reverse.takeWhile p).reverse) ++ spaces := by rw [hparts]
      _ = breaks ++ (text.reverse.dropWhile p).reverse ++
            ((text.reverse.takeWhile p).reverse ++ spaces) := by simp only [List.append_assoc]

theorem trims_body (whole : Text) : Trims (trimEnd (trimBreaks whole)) whole :=
  (trims_breaks whole).suffix fun _ hc => hc

theorem trims_both (whole : Text) : Trims (trimBreaksBoth whole) whole := by
  refine (trims_breaks whole).suffix fun c hc => ?_
  rw [of_decide_eq_true hc]
  decide

theorem lines_break (text : Text) : lines ('\n' :: text) = [] :: lines text :=
  lines_append [] text

/-- A trimmed text closes the fences that the whole text closes. -/
theorem Trims.fence (h : Trims text whole) (inFence : Bool) :
    fenceAfter inFence (lines text) = fenceAfter inFence (lines whole) := by
  obtain ⟨breaks, spaces, hbreaks, hspaces, rfl⟩ := h
  have hfront (rest : Text) :
      fenceAfter inFence (lines (breaks ++ rest)) = fenceAfter inFence (lines rest) := by
    induction breaks with
    | nil => rfl
    | cons c breaks ih =>
      rw [hbreaks c List.mem_cons_self, List.cons_append, lines_break, fenceAfter_cons, quiet_nil.1]
      exact ih fun d hd => hbreaks d (List.mem_cons_of_mem _ hd)
  rw [List.append_assoc, hfront]
  induction spaces using List.reverseRecOn with
  | nil => rw [List.append_nil]
  | append_singleton spaces c ih =>
    rw [← List.append_assoc, fence_concat (hspaces c (by simp))]
    exact ih fun d hd => hspaces d (List.mem_append_left _ hd)

/-- A trimmed text brings no heading that the whole text does not bring. -/
theorem Trims.silent {inFence : Bool} (h : Trims text whole) (hwant : want ≠ [])
    (hsilent : Silent want inFence (lines whole)) : Silent want inFence (lines text) := by
  obtain ⟨breaks, spaces, hbreaks, hspaces, rfl⟩ := h
  have hfront : Silent want inFence (lines (text ++ spaces)) := by
    rw [List.append_assoc] at hsilent
    induction breaks with
    | nil => exact hsilent
    | cons c breaks ih =>
      refine ih (fun d hd => hbreaks d (List.mem_cons_of_mem _ hd)) ?_
      rw [hbreaks c List.mem_cons_self, List.cons_append, lines_break] at hsilent
      have hright := Silent.right (a := [[]]) hsilent
      rwa [fenceAfter_cons, quiet_nil.1] at hright
  clear hsilent
  induction spaces using List.reverseRecOn with
  | nil => rwa [List.append_nil] at hfront
  | append_singleton spaces c ih =>
    rw [← List.append_assoc] at hfront
    exact ih (fun d hd => hspaces d (List.mem_append_left _ hd))
      (silent_concat (hspaces c (by simp)) hwant hfront)

end trims

/-! ### What an edit puts into its window -/

section edits

variable {ls : List Text} {target : Heading} {want text body : Text} {start stop : Nat}

/-- Two paragraphs with a blank line between them. -/
theorem lines_paragraphs (a b : Text) :
    lines (a ++ ['\n', '\n'] ++ b) = lines a ++ [[]] ++ lines b := by
  have hparts : a ++ ['\n', '\n'] ++ b = a ++ '\n' :: '\n' :: b := by
    rw [List.append_assoc]
    rfl
  rw [hparts, lines_append, lines_break, List.append_assoc]
  rfl

theorem fence_paragraphs {a b : Text} {inFence : Bool} :
    fenceAfter inFence (lines (a ++ ['\n', '\n'] ++ b)) =
      fenceAfter (fenceAfter inFence (lines a)) (lines b) := by
  rw [lines_paragraphs, fenceAfter_append, fenceAfter_append]
  exact congrArg (fenceAfter · _) (fence_quiet quiet_gap _)

theorem silent_paragraphs {a b : Text} {inFence : Bool} (ha : Silent want inFence (lines a))
    (hb : Silent want (fenceAfter inFence (lines a)) (lines b)) :
    Silent want inFence (lines (a ++ ['\n', '\n'] ++ b)) := by
  rw [lines_paragraphs]
  refine (ha.append (silent_quiet quiet_gap _)).append ?_
  rwa [fenceAfter_append, fence_quiet quiet_gap]

theorem take_split {middle : Nat} (hle : start ≤ middle) :
    ls.take middle = ls.take start ++ slice ls start middle := by
  have hparts := List.take_append_drop start (ls.take middle)
  rw [List.take_take, Nat.min_eq_left hle] at hparts
  exact hparts.symm

theorem drop_split (ls : List Text) {middle : Nat} (hle : middle ≤ stop) :
    ls.drop middle = slice ls middle stop ++ ls.drop stop := by
  have hparts := List.take_append_drop (stop - middle) (ls.drop middle)
  rw [List.drop_drop, Nat.add_sub_cancel' hle] at hparts
  rw [← hparts, slice, List.drop_take]

theorem lines_slice (hls : ∀ l ∈ ls, '\n' ∉ l) (hlt : start < stop) (hstop : stop ≤ ls.length) :
    lines (join (slice ls start stop)) = slice ls start stop := by
  refine lines_join (fun l hl => hls l ?_) (fun hnil => ?_)
  · exact List.take_subset _ _ (List.drop_subset _ _ hl)
  · have hlength := congrArg List.length hnil
    rw [slice, List.length_drop, List.length_take, List.length_nil] at hlength
    omega

theorem lines_of_notMem {l : Text} (h : '\n' ∉ l) : lines l = [l] :=
  List.splitOn_eq_singleton h

theorem slice_split (middle : Nat) (hstart : start ≤ middle) (hstop : middle ≤ stop)
    (hmiddle : middle ≤ ls.length) :
    slice ls start stop = slice ls start middle ++ slice ls middle stop := by
  have hlength : start ≤ (ls.take middle).length := by
    rw [List.length_take]
    omega
  calc slice ls start stop
      = (ls.take middle ++ slice ls middle stop).drop start := by rw [slice, take_split hstop]
    _ = slice ls start middle ++ slice ls middle stop := List.drop_append_of_le_length hlength

/-- A region inside the window. -/
structure Held (ls : List Text) (start stop : Nat) (s : Span) : Prop where
  mem : s ∈ spansOf ls
  start_le : start ≤ s.openLine
  close_lt : s.closeLine < stop

theorem Held.lines_eq {s : Span} (h : Held ls start stop s) (hls : ∀ l ∈ ls, '\n' ∉ l) :
    lines (join (slice ls s.openLine (s.closeLine + 1))) =
      slice ls s.openLine (s.closeLine + 1) := by
  obtain ⟨hlt, -, hclose⟩ := mem_spansOf h.mem
  exact lines_slice hls (by omega) hclose.lt

theorem Held.silent {s : Span} (h : Held ls start stop s)
    (hstart : fenceAfter false (ls.take start) = false)
    (hold : Silent want false (slice ls start stop)) :
    Silent want false (slice ls s.openLine (s.closeLine + 1)) := by
  obtain ⟨hlt, hopen, hclose⟩ := mem_spansOf h.mem
  have hopenLt := hopen.lt
  obtain ⟨l, -, -, hbefore⟩ := hopen
  have hclosed := fence_slice h.start_le hstart hbefore
  have hlast := h.close_lt
  rw [slice_split _ h.start_le (by omega) hopenLt.le,
    slice_split (s.closeLine + 1) (by omega) hlast hclose.lt] at hold
  have hrest := hold.right.left
  rwa [hclosed] at hrest

theorem fence_added {r : Text} (htext : fenceAfter false (lines text) = false)
    (hr : fenceAfter false (lines r) = false) :
    fenceAfter false (lines ((if text = [] then text else text ++ ['\n', '\n']) ++ r)) = false := by
  split
  · rename_i hnil
    rwa [hnil]
  · rw [fence_paragraphs, htext, hr]

theorem silent_added {r : Text} (htext : fenceAfter false (lines text) = false)
    (hsilent : Silent want false (lines text)) (hr : Silent want false (lines r)) :
    Silent want false (lines ((if text = [] then text else text ++ ['\n', '\n']) ++ r)) := by
  split
  · rename_i hnil
    rwa [hnil]
  · refine silent_paragraphs hsilent ?_
    rwa [htext]

section regions

variable {spans : List Span} (hls : ∀ l ∈ ls, '\n' ∉ l)
  (hspans : ∀ s ∈ spans, Held ls start stop s)

include hls hspans

theorem withRegions_fence (htext : fenceAfter false (lines text) = false) :
    fenceAfter false (lines (withRegions ls text spans)) = false := by
  induction spans generalizing text with
  | nil => exact htext
  | cons s spans ih =>
    rw [withRegions, List.foldl_cons]
    refine ih (fun s hs => hspans s (List.mem_cons_of_mem _ hs)) (fence_added htext ?_)
    have hheld := hspans s List.mem_cons_self
    rw [hheld.lines_eq hls]
    exact fence_span hheld.mem

theorem withRegions_silent (hstart : fenceAfter false (ls.take start) = false)
    (hold : Silent want false (slice ls start stop))
    (htext : spans = [] ∨ fenceAfter false (lines text) = false)
    (hsilent : Silent want false (lines text)) :
    Silent want false (lines (withRegions ls text spans)) := by
  induction spans generalizing text with
  | nil => exact hsilent
  | cons s spans ih =>
    have hclosed := htext.resolve_left (List.cons_ne_nil _ _)
    have hheld := hspans s List.mem_cons_self
    have hlines := hheld.lines_eq hls
    rw [withRegions, List.foldl_cons]
    refine ih (fun s hs => hspans s (List.mem_cons_of_mem _ hs)) (Or.inr (fence_added hclosed ?_))
      (silent_added hclosed hsilent ?_)
    · rw [hlines]
      exact fence_span hheld.mem
    · rw [hlines]
      exact hheld.silent hstart hold

end regions

theorem keptSpans_held (ls : List Text) (body : Text) (start stop : Nat) :
    ∀ s ∈ keptSpans ls body start stop, Held ls start stop s := by
  intro s hs
  obtain ⟨hmem, hin⟩ := List.mem_filter.mp hs
  simp only [Bool.and_eq_true, decide_eq_true_eq] at hin
  exact ⟨hmem, hin.1.1, hin.1.2⟩

theorem isThematicBreak_trailingRule {rule : Nat} (h : trailingRule ls start stop = some rule) :
    isThematicBreak (ls.getD rule []) = true := by
  rw [trailingRule] at h
  split at h
  · cases h
  · split at h
    · rename_i hrule
      obtain rfl := Option.some.inj h
      exact (Bool.and_eq_true_iff.mp hrule).1
    · cases h

/-- The separator an edit keeps is a line without a marker. -/
theorem quiet_trailingRule (hls : ∀ l ∈ ls, '\n' ∉ l) {rule : Nat}
    (h : trailingRule ls start stop = some rule) :
    ∀ l ∈ lines (trim (ls.getD rule [])), Quiet l := by
  have hbreak := isThematicBreak_trailingRule h
  have hnewline : '\n' ∉ trim (ls.getD rule []) := by
    intro hmem
    have hline := trim_subset _ hmem
    rw [List.getD_eq_getElem?_getD] at hline
    cases hget : ls[rule]? with
    | none =>
      rw [hget] at hline
      exact List.not_mem_nil hline
    | some l =>
      rw [hget] at hline
      exact hls l (List.mem_of_getElem? hget) hline
  rw [lines_of_notMem hnewline]
  intro l hl
  obtain rfl := List.mem_singleton.mp hl
  exact quiet_of_notMem fun c hc => isThematicBreak_ne hbreak c (trim_subset _ hc)

theorem editText_fence (hls : ∀ l ∈ ls, '\n' ∉ l)
    (hbody : fenceAfter false (lines body) = false) :
    fenceAfter false (lines (editText ls body start stop)) = false := by
  have htext := withRegions_fence hls (keptSpans_held ls body start stop)
    (((trims_body body).fence false).trans hbody)
  rw [editText]
  split
  · exact htext
  · split
    · exact htext
    · rename_i rule hrule
      rw [fence_paragraphs, htext, fence_quiet (quiet_trailingRule hls hrule)]

theorem editText_silent (hls : ∀ l ∈ ls, '\n' ∉ l)
    (hstart : fenceAfter false (ls.take start) = false)
    (hold : Silent want false (slice ls start stop)) (hwant : want ≠ [])
    (hbody : keptSpans ls body start stop = [] ∨ fenceAfter false (lines body) = false)
    (hsilent : Silent want false (lines body)) :
    Silent want false (lines (editText ls body start stop)) := by
  have htrims := trims_body body
  have htext := withRegions_silent hls (keptSpans_held ls body start stop) hstart hold
    (hbody.imp_right (htrims.fence false).trans) (htrims.silent hwant hsilent)
  rw [editText]
  split
  · exact htext
  · split
    · exact htext
    · rename_i rule hrule
      exact silent_paragraphs htext (silent_quiet (quiet_trailingRule hls hrule) _)

theorem bodyBlock_fence (h : fenceAfter false (lines text) = false) :
    fenceAfter false (bodyBlock text) = false := by
  rw [bodyBlock, fenceAfter_append, fenceAfter_append, fence_quiet quiet_gap, fence_quiet quiet_gap,
    (trims_body text).fence, h]

theorem bodyBlock_silent (hwant : want ≠ []) (h : Silent want false (lines text)) :
    Silent want false (bodyBlock text) := by
  rw [bodyBlock]
  refine ((silent_quiet quiet_gap _).append ?_).append (silent_quiet quiet_gap _)
  rw [fence_quiet quiet_gap]
  exact (trims_body text).silent hwant h

theorem find_last {p : Nat → Bool} {n i : Nat} (h : (List.range n).reverse.find? p = some i) :
    i < n ∧ p i = true ∧ ∀ j, i < j → j < n → p j = false := by
  induction n with
  | zero => cases h
  | succ n ih =>
    rw [List.range_succ, List.reverse_append, List.reverse_singleton, List.singleton_append,
      List.find?_cons] at h
    split at h
    · rename_i hp
      obtain rfl := Option.some.inj h
      exact ⟨Nat.lt_succ_self _, hp, fun j hlt hle => absurd (Nat.lt_succ_iff.mp hle) (not_le.mpr hlt)⟩
    · rename_i hp
      obtain ⟨hlt, hpi, hrest⟩ := ih h
      refine ⟨hlt.trans (Nat.lt_succ_self n), hpi, fun j hij hj => ?_⟩
      rcases Nat.lt_succ_iff_lt_or_eq.mp hj with hj | rfl
      · exact hrest j hij hj
      · exact hp

/-- The line an append puts its text before. -/
def appendLine (ls : List Text) (start stop : Nat) : Nat :=
  match lastContent ls start stop with
  | some i => i + 1
  | none => start

theorem appendLine_bounds (ls : List Text) (hle : start ≤ stop) :
    start ≤ appendLine ls start stop ∧ appendLine ls start stop ≤ stop := by
  rw [appendLine]
  split
  · rename_i i hi
    obtain ⟨hlt, hp, -⟩ := find_last hi
    simp only [Bool.and_eq_true, decide_eq_true_eq] at hp
    exact ⟨by omega, hlt⟩
  · exact ⟨le_refl _, hle⟩

/-- Behind an append there are blank lines, regions and the closing separator. -/
theorem quiet_behind {j : Nat} (hstart : appendLine ls start stop ≤ j) (hle : start ≤ j)
    (hstop : j < stop) (hregion : inRegion ls j = false) : Quiet (ls.getD j []) := by
  have hpassed : (start ≤ j && !isBlankLine (ls.getD j []) && !inRegion ls j &&
      trailingRule ls start stop ≠ some j) = false := by
    rw [appendLine] at hstart
    split at hstart
    · rename_i i hi
      exact (find_last hi).2.2 j hstart hstop
    · rename_i hnone
      refine Bool.eq_false_iff.mpr (List.find?_eq_none.mp hnone j ?_)
      exact List.mem_reverse.mpr (List.mem_range.mpr hstop)
  by_cases hblank : isBlankLine (ls.getD j []) = true
  · exact quiet_blank hblank
  · have hrule : trailingRule ls start stop = some j := by
      by_contra hother
      exact hblank (by simpa [hle, hregion, hother] using hpassed)
    exact quiet_of_notMem (isThematicBreak_ne (isThematicBreak_trailingRule hrule))

/-- The lines of a window with a text put in before one of them. -/
theorem insert_fence {middle : Nat} (hbounds : start ≤ middle ∧ middle ≤ stop)
    (hstop : stop ≤ ls.length) (hold : fenceAfter false (slice ls start stop) = false)
    (htext : fenceAfter false (lines text) = false) :
    fenceAfter false (slice ls start middle ++ lines text ++ slice ls middle stop) = false := by
  rw [slice_split _ hbounds.1 hbounds.2 (hbounds.2.trans hstop), fenceAfter_append] at hold
  rw [fenceAfter_append, fenceAfter_append, fenceAfter_same htext]
  exact hold

theorem insert_silent {middle : Nat} (hbounds : start ≤ middle ∧ middle ≤ stop)
    (hstop : stop ≤ ls.length) (hstart : fenceAfter false (ls.take start) = false)
    (hold : Silent want false (slice ls start stop))
    (htext : fenceAfter false (lines text) = false ∨ ∀ l ∈ slice ls middle stop, Quiet l)
    (hsilent : Silent want (fenceAfter false (ls.take middle)) (lines text)) :
    Silent want false (slice ls start middle ++ lines text ++ slice ls middle stop) := by
  have hmiddle := hbounds.2.trans hstop
  have hstate : fenceAfter false (slice ls start middle) = fenceAfter false (ls.take middle) := by
    rw [take_split hbounds.1, fenceAfter_append, hstart]
  rw [slice_split _ hbounds.1 hbounds.2 hmiddle] at hold
  refine (hold.left.append ?_).append ?_
  · rwa [hstate]
  · rcases htext with htext | hquiet
    · rw [fenceAfter_append, fenceAfter_same htext]
      exact hold.right
    · exact silent_quiet hquiet _

theorem mem_slice {l : Text} (h : l ∈ slice ls start stop) :
    ∃ j, start ≤ j ∧ j < stop ∧ ls.getD j [] = l := by
  obtain ⟨k, hk⟩ := List.getElem?_of_mem h
  rw [slice, List.getElem?_drop, List.getElem?_take] at hk
  split at hk
  · rename_i hlt
    exact ⟨start + k, Nat.le_add_right _ _, hlt, by rw [List.getD_eq_getElem?_getD, hk]; rfl⟩
  · cases hk

end edits

/-! ### The two edits -/

inductive SectionOp where
  | edit (body : Text)
  | append (text : Text)
  deriving DecidableEq, Repr

namespace SectionOp

def run (content arg : Text) : SectionOp → Except SectionError Text
  | .edit body => editSection content arg body
  | .append text => appendToSection content arg text

def stop (ls : List Text) (target : Heading) : SectionOp → Nat
  | .edit body => editEnd ls target (stripRepeatedHeading body target.text)
  | .append _ => spanEnd ls.length (headings ls) target

/-- What stands in the window afterwards. -/
def newLines (ls : List Text) (target : Heading) : SectionOp → List Text
  | .edit body =>
    let body := stripRepeatedHeading body target.text
    bodyBlock (editText ls body (target.line + 1) (editEnd ls target body))
  | .append text =>
    let stop := spanEnd ls.length (headings ls) target
    let text := trimBreaksBoth text
    match lastContent ls (target.line + 1) stop with
    | some i => slice ls (target.line + 1) (i + 1) ++ lines text ++ slice ls (i + 1) stop
    | none =>
      if hasBoundary ls (target.line + 1) stop then
        [[]] ++ lines text ++ slice ls (target.line + 1) stop
      else bodyBlock text

/-- The new text closes the fences it opens, or the document ends with it. -/
def Closes (ls : List Text) (target : Heading) (op : SectionOp) : Prop :=
  match op with
  | .edit body =>
    let body := stripRepeatedHeading body target.text
    fenceAfter false (lines body) = false ∨
      (op.stop ls target = ls.length ∧
        keptSpans ls body (target.line + 1) (op.stop ls target) = [])
  | .append text =>
    fenceAfter false (lines text) = false ∨
      (op.stop ls target = ls.length ∧
        ∀ j, appendLine ls (target.line + 1) (op.stop ls target) ≤ j → j < op.stop ls target →
          inRegion ls j = false)

/-- The new text brings no heading with this text, as it is read where it is put. -/
def Spares (ls : List Text) (target : Heading) (want : Text) (op : SectionOp) : Prop :=
  match op with
  | .edit body => Silent want false (lines (stripRepeatedHeading body target.text))
  | .append text =>
    Silent want
      (fenceAfter false (ls.take (appendLine ls (target.line + 1) (op.stop ls target)))) (lines text)

end SectionOp

theorem keepRegions_ok {before after out : Text} (h : keepRegions before after = .ok out) :
    out = after := by
  rw [keepRegions] at h
  split at h
  · exact (Except.ok.inj h).symm
  · cases h

theorem addressed_ok {ls : List Text} {arg : Text} {target : Heading}
    (h : addressed ls arg = .ok target) :
    target.text ≠ [] ∧ (parseHeadingArg arg).2 = target.text ∧
      findUnique (headings ls) target.text = .ok target ∧ target ∈ headings ls := by
  unfold addressed at h
  simp only at h
  split at h
  · cases h
  · rename_i hwant
    have hin : target ∈ (headings ls).filter fun h => h.text = (parseHeadingArg arg).2 := by
      rw [findUnique_ok_iff.mp h]
      exact List.mem_singleton_self _
    obtain ⟨hmem, htext⟩ := List.mem_filter.mp hin
    have htext : target.text = (parseHeadingArg arg).2 := of_decide_eq_true htext
    rw [htext]
    exact ⟨hwant, rfl, h, hmem⟩

namespace SectionOp

variable {content arg out : Text} {target : Heading} {op : SectionOp} {want : Text}

theorem window (op : SectionOp) (hmem : target ∈ headings (lines content)) :
    Window (lines content) target (op.stop (lines content) target) := by
  cases op with
  | edit body =>
    rw [stop, editEnd]
    split
    · exact .own hmem
    · exact .span hmem
  | append text => exact .span hmem

/-- A successful edit replaces the lines of its window. -/
theorem run_ok (haddressed : addressed (lines content) arg = .ok target)
    (hrun : op.run content arg = .ok out) :
    out = join ((lines content).take (target.line + 1) ++ op.newLines (lines content) target ++
      (lines content).drop (op.stop (lines content) target)) := by
  obtain ⟨-, hwant, -, hmem⟩ := addressed_ok haddressed
  have hle := (window op hmem).start_le
  cases op with
  | edit body =>
    rw [run, editSection] at hrun
    obtain ⟨found, hfound, hrun⟩ := bind_ok_iff.mp hrun
    obtain rfl := Except.ok.inj (haddressed.symm.trans hfound)
    simp only [hwant] at hrun
    split at hrun
    · cases hrun
    · exact keepRegions_ok hrun
  | append text =>
    rw [run, appendToSection] at hrun
    obtain ⟨found, hfound, hrun⟩ := bind_ok_iff.mp hrun
    obtain rfl := Except.ok.inj (haddressed.symm.trans hfound)
    rw [keepRegions_ok hrun, newLines]
    refine congrArg join ?_
    cases hlast : lastContent (lines content) (target.line + 1)
        (spanEnd (lines content).length (headings (lines content)) target) with
    | some i =>
      obtain ⟨hlt, hp, -⟩ := find_last hlast
      simp only [Bool.and_eq_true, decide_eq_true_eq] at hp
      have hfront : (lines content).take (i + 1) =
          (lines content).take (target.line + 1) ++ slice (lines content) (target.line + 1) (i + 1) :=
        take_split (by omega)
      have hback := drop_split (lines content) (Nat.succ_le_of_lt hlt)
      simp only [hfront, hback, stop, List.append_assoc]
    | none =>
      simp only
      split
      · rw [drop_split _ hle]
        simp only [stop, List.append_assoc]
      · rfl

/-- The new text closes its fences. -/
theorem newLines_fence (hmem : target ∈ headings (lines content))
    (hcloses : op.Closes (lines content) target) :
    op.stop (lines content) target = (lines content).length ∨
      fenceAfter false (op.newLines (lines content) target) = false := by
  have hwindow := window op hmem
  have hpre := (fence_heading hmem).2
  have hold (hinside : op.stop (lines content) target ≠ (lines content).length) :
      fenceAfter false (slice (lines content) (target.line + 1) (op.stop (lines content) target)) =
        false :=
    fence_slice hwindow.start_le hpre (hwindow.outside.resolve_left hinside)
  by_cases hinside : op.stop (lines content) target = (lines content).length
  · exact Or.inl hinside
  · right
    cases op with
    | edit body =>
      have hbody := hcloses.resolve_right fun h => hinside h.1
      exact bodyBlock_fence (editText_fence (newline_notMem_lines content) hbody)
    | append text =>
      have htext := (trims_both text).fence false |>.trans (hcloses.resolve_right fun h => hinside h.1)
      have hbounds := appendLine_bounds (lines content) hwindow.start_le
      rw [newLines]
      rw [appendLine] at hbounds
      split
      · rename_i i hlast
        simp only [stop, hlast] at hbounds
        exact insert_fence hbounds hwindow.stop_le (hold hinside) htext
      · split
        · rw [List.append_assoc, fenceAfter_append, fence_quiet quiet_gap, fenceAfter_append,
            htext]
          exact hold hinside
        · exact bodyBlock_fence htext

/-- The new text brings no heading of a section apart. -/
theorem newLines_silent (hmem : target ∈ headings (lines content))
    (hcloses : op.Closes (lines content) target) (hwant : want ≠ [])
    (hold : Silent want false
      (slice (lines content) (target.line + 1) (op.stop (lines content) target)))
    (hspares : op.Spares (lines content) target want) :
    Silent want false (op.newLines (lines content) target) := by
  have hwindow := window op hmem
  have hpre := (fence_heading hmem).2
  cases op with
  | edit body =>
    exact bodyBlock_silent hwant (editText_silent (newline_notMem_lines content) hpre hold hwant
      (hcloses.symm.imp_left And.right) hspares)
  | append text =>
    have hbounds := appendLine_bounds (lines content) hwindow.start_le
    have htext := (trims_both text).silent hwant hspares
    have hclosed : fenceAfter false (lines (trimBreaksBoth text)) = false ∨
        ∀ l ∈ slice (lines content) (appendLine (lines content) (target.line + 1)
          (spanEnd (lines content).length (headings (lines content)) target))
          (spanEnd (lines content).length (headings (lines content)) target), Quiet l := by
      refine hcloses.imp ((trims_both text).fence false).trans fun hregions l hl => ?_
      obtain ⟨j, hj, hlt, rfl⟩ := mem_slice hl
      exact quiet_behind hj (hbounds.1.trans hj) hlt (hregions.2 j hj hlt)
    rw [newLines]
    simp only [stop] at htext
    rw [appendLine] at hbounds hclosed htext
    split
    · rename_i i hlast
      simp only [stop, hlast] at hbounds hclosed htext
      exact insert_silent hbounds hwindow.stop_le hpre hold hclosed htext
    · rename_i hlast
      simp only [hlast, hpre] at hclosed htext
      split
      · rw [List.append_assoc]
        refine (silent_quiet quiet_gap _).append ?_
        rw [fence_quiet quiet_gap]
        refine htext.append ?_
        rcases hclosed with hclosed | hquiet
        · rw [hclosed]
          exact hold
        · exact silent_quiet hquiet _
      · exact bodyBlock_silent hwant htext

/-- No line put into the window holds a line break. -/
theorem newline_notMem_newLines :
    ∀ l ∈ op.newLines (lines content) target, '\n' ∉ l := by
  have hslice {start stop : Nat} : ∀ l ∈ slice (lines content) start stop, '\n' ∉ l := by
    intro l hl
    exact newline_notMem_lines content l (List.take_subset _ _ (List.drop_subset _ _ hl))
  have hblock (text : Text) : ∀ l ∈ bodyBlock text, '\n' ∉ l := by
    intro l hl
    simp only [bodyBlock, List.mem_append, List.mem_singleton] at hl
    rcases hl with (rfl | hl) | rfl
    · exact List.not_mem_nil
    · exact newline_notMem_lines _ l hl
    · exact List.not_mem_nil
  intro l hl
  cases op with
  | edit body => exact hblock _ l hl
  | append text =>
    rw [newLines] at hl
    split at hl
    · rcases List.mem_append.mp hl with hl | hl
      · rcases List.mem_append.mp hl with hl | hl
        · exact hslice l hl
        · exact newline_notMem_lines _ l hl
      · exact hslice l hl
    · split at hl
      · simp only [List.mem_append, List.mem_singleton] at hl
        rcases hl with (rfl | hl) | hl
        · exact List.not_mem_nil
        · exact newline_notMem_lines _ l hl
        · exact hslice l hl
      · exact hblock _ l hl

theorem lines_out (haddressed : addressed (lines content) arg = .ok target)
    (hrun : op.run content arg = .ok out) :
    lines out = (lines content).take (target.line + 1) ++ op.newLines (lines content) target ++
      (lines content).drop (op.stop (lines content) target) := by
  obtain ⟨-, -, -, hmem⟩ := addressed_ok haddressed
  rw [run_ok haddressed hrun]
  refine lines_join ?_ ?_
  · intro l hl
    rcases List.mem_append.mp hl with hl | hl
    · rcases List.mem_append.mp hl with hl | hl
      · exact newline_notMem_lines content l (List.take_subset _ _ hl)
      · exact newline_notMem_newLines l hl
    · exact newline_notMem_lines content l (List.drop_subset _ _ hl)
  · intro hnil
    have hlength := congrArg List.length (List.append_eq_nil_iff.mp
      (List.append_eq_nil_iff.mp hnil).1).1
    rw [List.length_take, List.length_nil] at hlength
    have hlt := headingsFrom_lt hmem
    omega

end SectionOp

/-- **Frame of a section edit.** A successful edit replaces the lines of its window and
no other. Where the new text closes its fences, a section apart from the window whose
heading the text does not repeat stays addressable, with the same version. -/
theorem section_frame (hashOf : Bytes → Hash) (content arg out : Text) (op : SectionOp)
    (target : Heading) (haddressed : addressed (lines content) arg = .ok target)
    (hrun : op.run content arg = .ok out) :
    (∃ old new,
      lines content = (lines content).take (target.line + 1) ++ old ++
        (lines content).drop (op.stop (lines content) target) ∧
      lines out = (lines content).take (target.line + 1) ++ new ++
        (lines content).drop (op.stop (lines content) target)) ∧
    ∀ other h, addressed (lines content) other = .ok h →
      Apart (lines content) target (op.stop (lines content) target) h →
      op.Closes (lines content) target → op.Spares (lines content) target h.text →
      (∃ h', addressed (lines out) other = .ok h') ∧
        sectionVersion hashOf out other = sectionVersion hashOf content other := by
  obtain ⟨-, -, -, hmem⟩ := addressed_ok haddressed
  have hwindow := SectionOp.window op hmem
  have hout := SectionOp.lines_out haddressed hrun
  refine ⟨⟨_, _, split_window _ hwindow.start_le, hout⟩, ?_⟩
  intro other h hother hapart hcloses hspares
  obtain ⟨hwant, htext, hunique, -⟩ := addressed_ok hother
  have hsilent := SectionOp.newLines_silent hmem hcloses hwant
    (silent_old hwindow hunique hapart) hspares
  obtain ⟨h', hfound, hslice⟩ :=
    frame hwindow (SectionOp.newLines_fence hmem hcloses) hunique hapart hsilent
  rw [← hout] at hfound hslice
  have haddressed' : addressed (lines out) other = .ok h' := by
    unfold addressed
    simp only [htext, if_neg hwant]
    exact hfound
  refine ⟨⟨h', haddressed'⟩, ?_⟩
  rw [sectionVersion, sectionVersion, haddressed', hother]
  exact congrArg (fun text => some (contentVersion hashOf text)) hslice

/-- A section of two, edited with a body that closes its fences. -/
theorem section_frame_two :
    sectionVersion Hash.mk "# A\n\n```\nz\n```\n\n# B\n\ny".toList "B".toList =
      sectionVersion Hash.mk "# A\n\nx\n\n# B\n\ny".toList "B".toList :=
  ((section_frame Hash.mk "# A\n\nx\n\n# B\n\ny".toList "A".toList
    "# A\n\n```\nz\n```\n\n# B\n\ny".toList (.edit "```\nz\n```".toList) ⟨0, 1, "A".toList⟩
    (by decide +kernel) (by decide +kernel)).2 "B".toList ⟨4, 1, "B".toList⟩ (by decide +kernel)
    (Or.inr (by decide +kernel)) (Or.inl (by decide +kernel))
    (by unfold SectionOp.Spares Silent; decide +kernel)).2

/-- A body that leaves a fence open hides the section behind it. -/
theorem section_frame_fails :
    ∃ content arg body other out target h,
      addressed (lines content) arg = .ok target ∧ editSection content arg body = .ok out ∧
        addressed (lines content) other = .ok h ∧
        Apart (lines content) target (editEnd (lines content) target body) h ∧
        h.text ≠ target.text ∧ addressed (lines out) other = .error .notFound := by
  refine ⟨"# A\n\nx\n\n# B\n\ny".toList, "A".toList, "```".toList, "B".toList,
    "# A\n\n```\n\n# B\n\ny".toList, ⟨0, 1, "A".toList⟩, ⟨4, 1, "B".toList⟩, ?_, ?_, ?_, ?_, ?_, ?_⟩
  · decide +kernel
  · decide +kernel
  · decide +kernel
  · exact Or.inr (by decide +kernel)
  · decide
  · decide +kernel

end Softfig.Doc
